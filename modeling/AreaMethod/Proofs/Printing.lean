/-
# Printed expressions

The text of an expression separates its words by blanks, and labels are printed
as they are. As long as no label has a blank, the text determines the expression
(`Expr.eq_of_text_eq`): the character after a bracket names the operator, a word
ends at the next blank, and the brackets at its end are those of the expressions
that it ends. So every text can be told from what follows it (`Delimited`), and
the texts of the operands from each other.

Key definitions: `Delimited`, `Point.OneWord`, `Expr.Readable`.
Key theorems: `eq_of_spaced`, `Expr.delimited`, `Expr.eq_of_text_eq`.
-/
import Mathlib
import AreaMethod.Proofs.Figures

namespace AreaMethod

/-! ### Words -/

/-- The text ends here, or a blank follows. -/
def AtBreak (r : List Char) : Prop := ∀ c ∈ r.head?, c = ' '

theorem atBreak_nil : AtBreak [] := fun _ h => (nomatch h)

theorem atBreak_blank (r : List Char) : AtBreak (' ' :: r) := fun _ h => (Option.some.inj h).symm

theorem takeWhile_word {w r : List Char} (hw : ' ' ∉ w) (hr : AtBreak r) :
    (w ++ r).takeWhile (· ≠ ' ') = w := by
  have hall : ∀ c ∈ w, decide (c ≠ ' ') = true :=
    fun c hc => decide_eq_true fun h => hw (h ▸ hc)
  have hstop : r.takeWhile (· ≠ ' ') = [] := by
    cases r with
    | nil => rfl
    | cons c r => rw [hr c rfl]; rfl
  rw [List.takeWhile_append_of_pos hall, hstop, List.append_nil]

/-- Closing brackets. -/
def closing (k : ℕ) : List Char := List.replicate k ')'

theorem closing_succ (k : ℕ) (r : List Char) : closing (k + 1) ++ r = ')' :: (closing k ++ r) := rfl

theorem blank_notMem_append_closing {w : List Char} (hw : ' ' ∉ w) (k : ℕ) :
    ' ' ∉ w ++ closing k := by
  rw [List.mem_append, not_or]
  exact ⟨hw, fun h => absurd (List.eq_of_mem_replicate h) (by decide)⟩

/-- A word can be told from the closing brackets and the break after it. -/
theorem eq_of_word {w w' r r' : List Char} {k : ℕ} (hw : ' ' ∉ w) (hw' : ' ' ∉ w')
    (hr : AtBreak r) (hr' : AtBreak r') (h : w ++ (closing k ++ r) = w' ++ (closing k ++ r')) :
    w = w' ∧ r = r' := by
  rw [← List.append_assoc, ← List.append_assoc] at h
  have hword : w ++ closing k = w' ++ closing k := by
    rw [← takeWhile_word (blank_notMem_append_closing hw k) hr, h,
      takeWhile_word (blank_notMem_append_closing hw' k) hr']
  rw [hword] at h
  exact ⟨List.append_cancel_right hword, List.append_cancel_left h⟩

/-! ### Lists of texts -/

section Lists

variable {α : Type} {render : α → List Char} {P : α → Prop}

/-- What is printed for `x` can be told from what follows it: closing brackets of
the expressions around it, then a break. -/
def Delimited (render : α → List Char) (P : α → Prop) (x : α) : Prop :=
  ∀ (y : α) (k : ℕ) (r r' : List Char), P y → AtBreak r → AtBreak r' →
    render x ++ (closing k ++ r) = render y ++ (closing k ++ r') → x = y ∧ r = r'

/-- The texts of a list, each after a blank. -/
def spaced (render : α → List Char) (xs : List α) : List Char :=
  xs.flatMap fun x => ' ' :: render x

theorem spaced_cons (x : α) (xs : List α) (r : List Char) :
    spaced render (x :: xs) ++ r = ' ' :: (render x ++ (spaced render xs ++ r)) := by
  simp [spaced]

/-- Lists of one length can be told from what follows them if their members can. -/
theorem eq_of_spaced : ∀ {xs ys : List α} {k : ℕ} {r r' : List Char},
    xs.length = ys.length → (∀ x ∈ xs, Delimited render P x) → (∀ y ∈ ys, P y) → AtBreak r →
    AtBreak r' → spaced render xs ++ (closing k ++ r) = spaced render ys ++ (closing k ++ r') →
    xs = ys ∧ r = r'
  | [], [], k, r, r', _, _, _, _, _, h => ⟨rfl, List.append_cancel_left h⟩
  | [x], [y], k, r, r', _, hx, hy, hr, hr', h => by
    rw [spaced_cons, spaced_cons] at h
    obtain ⟨rfl, hrest⟩ := hx x (.head _) y k r r' (hy y (.head _)) hr hr' (List.cons.inj h).2
    exact ⟨rfl, hrest⟩
  | x :: x' :: xs, y :: y' :: ys, k, r, r', hlen, hx, hy, hr, hr', h => by
    -- no bracket closes before the blank that the next member brings
    rw [spaced_cons x, spaced_cons y] at h
    obtain ⟨rfl, hrest⟩ := hx x (.head _) y 0 _ _ (hy y (.head _)) (atBreak_blank _)
      (atBreak_blank _) (List.cons.inj h).2
    obtain ⟨htail, hrest⟩ := eq_of_spaced (Nat.succ.inj hlen) (fun z hz => hx z (.tail _ hz))
      (fun z hz => hy z (.tail _ hz)) hr hr' hrest
    exact ⟨congrArg (x :: ·) htail, hrest⟩

/-- The text of a node: an operator and what it is applied to. -/
def bracket (render : α → List Char) (operator : Char) (xs : List α) : List Char :=
  '(' :: operator :: (spaced render xs ++ [')'])

theorem eq_of_bracket {c : Char} {xs ys : List α} {k : ℕ} {r r' : List Char}
    (hlen : xs.length = ys.length) (hx : ∀ x ∈ xs, Delimited render P x) (hy : ∀ y ∈ ys, P y)
    (hr : AtBreak r) (hr' : AtBreak r')
    (h : bracket render c xs ++ (closing k ++ r) = bracket render c ys ++ (closing k ++ r')) :
    xs = ys ∧ r = r' := by
  have hinner : spaced render xs ++ (closing (k + 1) ++ r) =
      spaced render ys ++ (closing (k + 1) ++ r') := by
    simpa [bracket, closing_succ] using h
  exact eq_of_spaced hlen hx hy hr hr' hinner

end Lists

/-! ### Labels and numbers -/

namespace Point

/-- The label has no blank. -/
def OneWord (p : Point) : Prop := ' ' ∉ p.label.toList

instance (p : Point) : Decidable p.OneWord := inferInstanceAs (Decidable (' ' ∉ p.label.toList))

theorem delimited {p : Point} (hp : p.OneWord) : Delimited (·.label.toList) OneWord p := by
  intro p' k r r' hp' hr hr' h
  obtain ⟨hlabel, hrest⟩ := eq_of_word hp hp' hr hr' h
  exact ⟨congrArg mk (String.toList_injective hlabel), hrest⟩

end Point

namespace Quantity

/-- The letter of a kind of quantity. -/
def letter : Quantity → Char
  | area .. => 'S'
  | pythagoras .. => 'P'
  | ratio .. => 'R'

theorem toList_text (q : Quantity) : q.text.toList = bracket (·.label.toList) q.letter q.points := by
  cases q <;> simp [text, letter, points, bracket, spaced, toString]

theorem rank_of_letter {q q' : Quantity} (h : q.letter = q'.letter) : q.rank = q'.rank := by
  cases q <;> cases q' <;> simp_all [letter, rank]

theorem length_points_of_rank {q q' : Quantity} (h : q.rank = q'.rank) :
    q.points.length = q'.points.length := by
  cases q <;> cases q' <;> simp_all [points, rank]

end Quantity

theorem mem_toList_repr {n : ℤ} {c : Char} (h : c ∈ n.repr.toList) : c = '-' ∨ c.isDigit := by
  rw [Int.repr_eq_if] at h
  split_ifs at h
  · rw [Nat.toList_repr] at h
    exact .inr (Nat.isDigit_of_mem_toDigits (by norm_num) (by norm_num) h)
  · rw [String.toList_append, Nat.toList_repr, List.mem_append] at h
    rcases h with h | h
    · exact .inl (List.mem_singleton.mp h)
    · exact .inr (Nat.isDigit_of_mem_toDigits (by norm_num) (by norm_num) h)

theorem blank_notMem_repr (n : ℤ) : ' ' ∉ n.repr.toList :=
  fun h => absurd (mem_toList_repr h) (by decide)

theorem toList_repr_ne_nil (n : ℤ) : n.repr.toList ≠ [] := by
  rw [Int.repr_eq_if]
  split_ifs
  · rw [Nat.toList_repr]
    exact Nat.toDigits_ne_nil
  · simp

namespace Expr

/-! ### Operators -/

/-- Plain nodes over labels of one word. -/
def Readable : Expr → Prop
  | number _ => True
  | quantity q => q.On Point.OneWord
  | neg e => e.Readable
  | sum a b | product a b | fraction a b => a.Readable ∧ b.Readable
  | term _ | polynomial _ => False

theorem leafwise_readable : Leafwise Readable :=
  ⟨fun _ => trivial, Iff.rfl, Iff.rfl, Iff.rfl, Iff.rfl⟩

/-- The operands of an inner node. -/
def operands : Expr → List Expr
  | neg e => [e]
  | sum a b | product a b | fraction a b => [a, b]
  | number _ | quantity _ | term _ | polynomial _ => []

/-- The character after the opening bracket. -/
def operator? : Expr → Option Char
  | quantity q => some q.letter
  | neg _ => some '-'
  | sum _ _ => some '+'
  | product _ _ => some '*'
  | fraction _ _ => some '/'
  | number _ | term _ | polynomial _ => none

/-- The inner node with an operator and operands. -/
def node? : Option Char → List Expr → Option Expr
  | some '-', [e] => some (neg e)
  | some '+', [a, b] => some (sum a b)
  | some '*', [a, b] => some (product a b)
  | some '/', [a, b] => some (fraction a b)
  | _, _ => none

/-- How many operands an operator has. -/
def arity : Option Char → ℕ
  | some '-' => 1
  | some '+' | some '*' | some '/' => 2
  | _ => 0

theorem length_operands (e : Expr) : e.operands.length = arity e.operator? := by
  cases e with
  | quantity q => cases q <;> rfl
  | _ => rfl

theorem node?_operands {e : Expr} (h : e.operands ≠ []) : node? e.operator? e.operands = some e := by
  cases e with
  | neg e => rfl
  | sum a b => rfl
  | product a b => rfl
  | fraction a b => rfl
  | _ => exact absurd rfl h

theorem Leafwise.holds_operands {P : Expr → Prop} (hP : Leafwise P) {e a : Expr} (he : P e)
    (ha : a ∈ e.operands) : P a := by
  cases e with
  | neg e =>
    rw [List.mem_singleton.mp ha]
    exact hP.on_neg.mp he
  | sum b c =>
    rcases List.mem_pair.mp ha with rfl | rfl
    · exact (hP.on_sum.mp he).1
    · exact (hP.on_sum.mp he).2
  | product b c =>
    rcases List.mem_pair.mp ha with rfl | rfl
    · exact (hP.on_product.mp he).1
    · exact (hP.on_product.mp he).2
  | fraction b c =>
    rcases List.mem_pair.mp ha with rfl | rfl
    · exact (hP.on_fraction.mp he).1
    · exact (hP.on_fraction.mp he).2
  | _ => cases ha

theorem toList_text {e : Expr} (h : e.operands ≠ []) :
    ∃ c, e.operator? = some c ∧ e.text.toList = bracket (·.text.toList) c e.operands := by
  cases e with
  | neg e => exact ⟨'-', rfl, by simp [text, bracket, spaced, operands]⟩
  | sum a b => exact ⟨'+', rfl, by simp [text, bracket, spaced, operands]⟩
  | product a b => exact ⟨'*', rfl, by simp [text, bracket, spaced, operands]⟩
  | fraction a b => exact ⟨'/', rfl, by simp [text, bracket, spaced, operands]⟩
  | _ => exact absurd rfl h

/-- The character after the bracket that opens a text. -/
def bracketed? : List Char → Option Char
  | '(' :: c :: _ => some c
  | _ => none

theorem bracketed?_of_ne {c : Char} (hc : c ≠ '(') (cs : List Char) : bracketed? (c :: cs) = none := by
  unfold bracketed?
  split
  next h => exact absurd (List.cons.inj h).1 hc
  next => rfl

theorem bracketed?_text {e : Expr} (he : e.Readable) (r : List Char) :
    bracketed? (e.text.toList ++ r) = e.operator? := by
  by_cases hinner : e.operands = []
  · cases e with
    | number n =>
      obtain ⟨c, cs, hn⟩ := List.exists_cons_of_ne_nil (toList_repr_ne_nil n)
      have hmem : c ∈ n.repr.toList := by rw [hn]; exact .head _
      have hc : c ≠ '(' := by
        rintro rfl
        exact absurd (mem_toList_repr hmem) (by decide)
      have htext : (number n).text.toList = c :: cs := hn
      rw [htext, List.cons_append, bracketed?_of_ne hc]
      rfl
    | quantity q => rw [text, Quantity.toList_text]; rfl
    | term t => exact he.elim
    | polynomial p => exact he.elim
    | _ => cases hinner
  · obtain ⟨c, hop, htext⟩ := toList_text hinner
    rw [htext, hop]
    rfl

theorem operator?_eq_of_text {e e' : Expr} {r r' : List Char} (he : e.Readable) (he' : e'.Readable)
    (h : e.text.toList ++ r = e'.text.toList ++ r') : e.operator? = e'.operator? := by
  rw [← bracketed?_text he r, h, bracketed?_text he' r']

theorem eq_number_of_operator? {e : Expr} (he : e.Readable) (h : e.operator? = none) :
    ∃ n, e = number n := by
  cases e with
  | number n => exact ⟨n, rfl⟩
  | term t => exact he.elim
  | polynomial p => exact he.elim
  | _ => cases h

theorem eq_quantity_of_operator? {e : Expr} {q : Quantity} (h : e.operator? = some q.letter) :
    ∃ q', e = quantity q' ∧ q'.letter = q.letter := by
  cases e with
  | quantity q' => exact ⟨q', rfl, Option.some.inj h⟩
  | _ => cases q <;> simp [operator?, Quantity.letter] at h

/-! ### The text determines the expression -/

theorem delimited_number (n : ℤ) : Delimited (·.text.toList) Readable (number n) := by
  intro e k r r' he hr hr' h
  have hn : (number n).Readable := trivial
  have hop : e.operator? = none := (operator?_eq_of_text hn he h).symm
  obtain ⟨m, rfl⟩ := eq_number_of_operator? he hop
  obtain ⟨hnm, hrest⟩ := eq_of_word (blank_notMem_repr n) (blank_notMem_repr m) hr hr' h
  rw [Int.repr_injective (String.toList_injective hnm)]
  exact ⟨rfl, hrest⟩

theorem delimited_quantity {q : Quantity} (hq : (quantity q).Readable) :
    Delimited (·.text.toList) Readable (quantity q) := by
  intro e k r r' he hr hr' h
  have hop : e.operator? = some q.letter := (operator?_eq_of_text hq he h).symm
  obtain ⟨q', rfl, hletter⟩ := eq_quantity_of_operator? hop
  have hrank : q.rank = q'.rank := Quantity.rank_of_letter hletter.symm
  simp only [text, Quantity.toList_text, hletter] at h
  obtain ⟨hpoints, hrest⟩ := eq_of_bracket (Quantity.length_points_of_rank hrank)
    (fun p hp => Point.delimited (hq p hp)) he hr hr' h
  exact ⟨congrArg quantity (Quantity.eq_of_rank_of_points hrank hpoints), hrest⟩

theorem delimited_node {e : Expr} (he : e.Readable) (hinner : e.operands ≠ [])
    (ih : ∀ a ∈ e.operands, Delimited (·.text.toList) Readable a) :
    Delimited (·.text.toList) Readable e := by
  intro e' k r r' he' hr hr' h
  have hop : e.operator? = e'.operator? := operator?_eq_of_text he he' h
  have hlen : e.operands.length = e'.operands.length := by
    rw [length_operands, length_operands, hop]
  have hinner' : e'.operands ≠ [] := by
    rwa [ne_eq, ← List.length_eq_zero_iff, ← hlen, List.length_eq_zero_iff]
  obtain ⟨c, hc, htext⟩ := toList_text hinner
  obtain ⟨c', hc', htext'⟩ := toList_text hinner'
  obtain rfl : c = c' := Option.some.inj (by rw [← hc, ← hc', hop])
  simp only [htext, htext'] at h
  obtain ⟨hoperands, hrest⟩ :=
    eq_of_bracket hlen ih (fun a ha => leafwise_readable.holds_operands he' ha) hr hr' h
  refine ⟨Option.some.inj ?_, hrest⟩
  rw [← node?_operands hinner, ← node?_operands hinner', hop, hoperands]

/-- **Texts are delimited.** The text of an expression over one-word labels can be
told from what follows it. -/
theorem delimited {e : Expr} (he : e.Readable) : Delimited (·.text.toList) Readable e := by
  induction e with
  | number n => exact delimited_number n
  | quantity q => exact delimited_quantity he
  | neg e ih =>
    refine delimited_node he (List.cons_ne_nil _ _) ?_
    exact List.forall_mem_singleton.mpr (ih he)
  | sum a b iha ihb | product a b iha ihb | fraction a b iha ihb =>
    refine delimited_node he (List.cons_ne_nil _ _) ?_
    exact List.forall_mem_cons.mpr ⟨iha he.1, List.forall_mem_singleton.mpr (ihb he.2)⟩
  | term t => exact he.elim
  | polynomial p => exact he.elim

/-- **The text determines the expression** if no label has a blank. -/
theorem eq_of_text_eq {e e' : Expr} (he : e.Readable) (he' : e'.Readable) (h : e.text = e'.text) :
    e = e' := by
  have htext : e.text.toList ++ (closing 0 ++ []) = e'.text.toList ++ (closing 0 ++ []) := by rw [h]
  exact (delimited he e' 0 [] [] he' atBreak_nil atBreak_nil htext).1

end Expr
end AreaMethod
