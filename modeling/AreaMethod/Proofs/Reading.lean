/-
# Printed expressions are read back

Labels without white space, brackets and quotes are words that the reader takes
as one atom, and so are numbers and operators. The text of an expression is
therefore the s-expression that lists its operator and operands (`Expr.layout`),
written with single blanks (`SExpr.Written`). Every reader that reads such texts and
printed integers reads the text back as the expression itself
(`TextReader.Lawful.readExprBy_text`).

The standard reader is one (`TextReader.lawful_standard`). It is a fold over
characters: a text is read when, inside an open list and before a character that
ends an atom, it adds one item to that list and leaves the rest of the text to be
read (`SExpr.Reads`).

Key definitions: `PlainWord`, `SExpr.Reads`, `SExpr.Written`, `TextReader.Lawful`,
`Expr.layout`, `Expr.TreeOver`.
Key theorems: `SExpr.Written.read`, `Text.integer?_repr`, `Expr.written_text`,
`Expr.ofSExpr_layout`, `TextReader.Lawful.readExprBy_text`, `Figure.readExpr_text`.
-/
import Mathlib
import AreaMethod.Proofs.Printing
import AreaMethod.Expr.Reader

namespace AreaMethod

/-! ### Plain words -/

/-- Neither white space nor a bracket or a quote. -/
def PlainChar (c : Char) : Prop := Text.isBlank c = false ∧ c ≠ '(' ∧ c ≠ ')' ∧ c ≠ '"'

instance (c : Char) : Decidable (PlainChar c) :=
  inferInstanceAs (Decidable (Text.isBlank c = false ∧ c ≠ '(' ∧ c ≠ ')' ∧ c ≠ '"'))

theorem PlainChar.ne_of_isBlank {c d : Char} (hc : PlainChar c) (hd : Text.isBlank d = true) :
    c ≠ d := by
  rintro rfl
  rw [hc.1] at hd
  cases hd

theorem PlainChar.endsBare {c : Char} (hc : PlainChar c) : SExpr.endsBare c = false := by
  have hspace : c ≠ ' ' := hc.ne_of_isBlank (by decide)
  have hreturn : c ≠ '\r' := hc.ne_of_isBlank (by decide)
  have hline : c ≠ '\n' := hc.ne_of_isBlank (by decide)
  simp [SExpr.endsBare, hspace, hc.2.1, hc.2.2.1, hreturn, hline]

theorem plainChar_of_isDigit {c : Char} (h : c.isDigit = true) : PlainChar c := by
  have hc : 48 ≤ c.toNat ∧ c.toNat ≤ 57 := by
    simpa [Char.isDigit, UInt32.le_iff_toNat_le] using h
  have hblank : Text.isBlank c = false := by
    unfold Text.isBlank
    grind
  refine ⟨hblank, ?_, ?_, ?_⟩ <;> rintro rfl <;> revert hc <;> decide

/-- At least one character, and only plain ones. -/
def PlainWord (w : List Char) : Prop := w ≠ [] ∧ ∀ c ∈ w, PlainChar c

instance (w : List Char) : Decidable (PlainWord w) :=
  haveI : Decidable (∀ c ∈ w, PlainChar c) := List.decidableBAll PlainChar w
  inferInstanceAs (Decidable (w ≠ [] ∧ ∀ c ∈ w, PlainChar c))

theorem plainWord_singleton {c : Char} (hc : PlainChar c) : PlainWord [c] :=
  ⟨List.cons_ne_nil _ _, fun _ hd => List.mem_singleton.mp hd ▸ hc⟩

theorem plainWord_repr (n : ℤ) : PlainWord n.repr.toList := by
  refine ⟨toList_repr_ne_nil n, fun c hc => ?_⟩
  rcases mem_toList_repr hc with rfl | h
  · decide
  · exact plainChar_of_isDigit h

/-! ### Texts and the items they add -/

namespace SExpr

theorem step_between_plain {c : Char} (hc : PlainChar c) (pending : List (List SExpr)) :
    step (.between pending) c = .bare [c] pending := by
  have hspace : c ≠ ' ' := hc.ne_of_isBlank (by decide)
  have htab : c ≠ '\t' := hc.ne_of_isBlank (by decide)
  have hreturn : c ≠ '\r' := hc.ne_of_isBlank (by decide)
  have hline : c ≠ '\n' := hc.ne_of_isBlank (by decide)
  obtain ⟨-, hopen, hclose, hquote⟩ := hc
  cases pending <;>
    simp [step, stepBetween, start, hspace, htab, hreturn, hline, hopen, hclose, hquote]

theorem foldl_bare {w chars : List Char} (hw : ∀ c ∈ w, PlainChar c)
    (pending : List (List SExpr)) :
    w.foldl step (.bare chars pending) = .bare (w.reverse ++ chars) pending := by
  induction w generalizing chars with
  | nil => rfl
  | cons c w ih =>
    have hstep : step (.bare chars pending) c = .bare (c :: chars) pending := by
      rw [step, (hw c (.head _)).endsBare]
      rfl
    rw [List.foldl_cons, hstep, ih fun d hd => hw d (.tail _ hd), List.reverse_cons,
      List.append_assoc]
    rfl

theorem foldl_word {w : List Char} (hw : PlainWord w) (pending : List (List SExpr)) :
    w.foldl step (.between pending) = .bare w.reverse pending := by
  obtain ⟨c, w, rfl⟩ := List.exists_cons_of_ne_nil hw.1
  rw [List.foldl_cons, step_between_plain (hw.2 c (.head _)),
    foldl_bare fun d hd => hw.2 d (.tail _ hd), List.reverse_cons]

/-- What follows ends an atom. -/
def Stops (r : List Char) : Prop := ∃ c r', r = c :: r' ∧ endsBare c = true

/-- Inside an open list the characters add an item to it, and the reader goes on
with what follows them. -/
def Reads (cs : List Char) (e : SExpr) : Prop :=
  ∀ (items : List SExpr) (outer : List (List SExpr)) (r : List Char), Stops r →
    (cs ++ r).foldl step (.between (items :: outer)) =
      r.foldl step (.between ((e :: items) :: outer))

theorem reads_word {w : List Char} (hw : PlainWord w) : Reads w (.atom (String.ofList w)) := by
  rintro items outer r ⟨c, r, rfl, hc⟩
  have hend : step (.bare w.reverse (items :: outer)) c =
      step (.between ((.atom (String.ofList w) :: items) :: outer)) c := by
    simp [step, hc, deliver, ofReversed]
  rw [List.foldl_append, foldl_word hw, List.foldl_cons, List.foldl_cons, hend]

section Brackets

variable {α : Type} {render : α → List Char} {tree : α → SExpr}

theorem stops_spaced (xs : List α) {r : List Char} (hr : Stops r) : Stops (spaced render xs ++ r) := by
  cases xs with
  | nil => exact hr
  | cons x xs => exact ⟨' ', _, spaced_cons x xs r, rfl⟩

theorem foldl_spaced {xs : List α} (h : ∀ x ∈ xs, Reads (render x) (tree x)) (items : List SExpr)
    (outer : List (List SExpr)) {r : List Char} (hr : Stops r) :
    (spaced render xs ++ r).foldl step (.between (items :: outer)) =
      r.foldl step (.between (((xs.map tree).reverse ++ items) :: outer)) := by
  induction xs generalizing items with
  | nil => rfl
  | cons x xs ih =>
    have hblank : step (.between (items :: outer)) ' ' = .between (items :: outer) := by
      simp [step, stepBetween]
    rw [spaced_cons, List.foldl_cons, hblank, h x (.head _) items outer _ (stops_spaced xs hr),
      ih fun y hy => h y (.tail _ hy)]
    simp

/-- The list of an operator and what it is applied to. -/
def node (c : Char) (items : List SExpr) : SExpr := .list (.atom (String.ofList [c]) :: items)

/-- **A bracket is read as a list**, inside whatever lists are open. -/
theorem foldl_bracket {c : Char} (hc : PlainChar c) {xs : List α}
    (h : ∀ x ∈ xs, Reads (render x) (tree x)) (pending : List (List SExpr)) (r : List Char) :
    (bracket render c xs ++ r).foldl step (.between pending) =
      r.foldl step (deliver (node c (xs.map tree)) pending) := by
  have hopen : step (.between pending) '(' = .between ([] :: pending) := by
    cases pending <;> simp [step, stepBetween, start]
  have hstops : Stops (')' :: r) := ⟨')', r, rfl, rfl⟩
  have hclose : ∀ items, step (.between (items :: pending)) ')' =
      deliver (.list items.reverse) pending := by
    intro items
    simp [step, stepBetween]
  have htext : bracket render c xs ++ r = '(' :: ([c] ++ (spaced render xs ++ (')' :: r))) := by
    simp [bracket]
  rw [htext, List.foldl_cons, hopen,
    reads_word (plainWord_singleton hc) [] pending _ (stops_spaced xs hstops),
    foldl_spaced h _ _ hstops, List.foldl_cons, hclose]
  simp [node]

theorem reads_bracket {c : Char} (hc : PlainChar c) {xs : List α}
    (h : ∀ x ∈ xs, Reads (render x) (tree x)) :
    Reads (bracket render c xs) (node c (xs.map tree)) :=
  fun items outer r _ => foldl_bracket hc h (items :: outer) r

end Brackets

/-! ### Whole texts -/

/-- The characters of an s-expression, written with single blanks: a plain word, or a
bracket of a plain character and what follows it. -/
inductive Written : List Char → SExpr → Prop
  | word {w : List Char} (hw : PlainWord w) : Written w (.atom (String.ofList w))
  | bracket {α : Type} {render : α → List Char} {tree : α → SExpr} {c : Char} {xs : List α}
      (hc : PlainChar c) (h : ∀ x ∈ xs, Written (render x) (tree x)) :
    Written (AreaMethod.bracket render c xs) (node c (xs.map tree))

theorem written_word {s : String} (hs : PlainWord s.toList) : Written s.toList (.atom s) := by
  have hword := Written.word hs
  rwa [String.ofList_toList] at hword

theorem Written.reads {cs : List Char} {e : SExpr} (h : Written cs e) : Reads cs e := by
  induction h with
  | word hw => exact reads_word hw
  | bracket hc _ ih => exact reads_bracket hc ih

theorem trim_word {w : List Char} (hw : PlainWord w) : Text.trim w = w := by
  have hdrop : ∀ w : List Char, (∀ c ∈ w, PlainChar c) → w.dropWhile Text.isBlank = w := by
    intro w hw
    cases w with
    | nil => rfl
    | cons c w => rw [List.dropWhile_cons_of_neg (Bool.not_eq_true _ ▸ (hw c (.head _)).1)]
  rw [Text.trim, hdrop _ hw.2, hdrop _ fun c hc => hw.2 c (List.mem_reverse.mp hc),
    List.reverse_reverse]

/-- **A written s-expression is read** as what it is. -/
theorem Written.read {s : String} {e : SExpr} (h : Written s.toList e) :
    SExpr.read s = .ok (some e) := by
  unfold SExpr.read
  generalize s.toList = cs at h
  cases h with
  | word hw =>
    have hne : cs.isEmpty = false := List.isEmpty_eq_false_iff.mpr hw.1
    simp [trim_word hw, hne, foldl_word hw, ofReversed]
  | bracket hc h =>
    rename_i render tree c xs
    have htrim : Text.trim (AreaMethod.bracket render c xs) = AreaMethod.bracket render c xs := by
      simp [Text.trim, AreaMethod.bracket, Text.isBlank]
    have hfold := foldl_bracket hc (fun x hx => (h x hx).reads) [] []
    rw [List.append_nil] at hfold
    simp only [htrim, hfold]
    rfl

end SExpr

/-! ### Numbers -/

namespace Text

theorem digits?_of_isDigit {cs : List Char} (hne : cs ≠ []) (h : ∀ c ∈ cs, c.isDigit = true) :
    digits? cs = some (Nat.ofDigitChars 10 cs 0) := by
  have hfold : ∀ (cs : List Char) (n : ℕ), (∀ c ∈ cs, c.isDigit = true) →
      cs.foldl (fun n c => n.bind fun n =>
        if '0' ≤ c ∧ c ≤ '9' then some (10 * n + (c.toNat - '0'.toNat)) else none) (some n) =
        some (Nat.ofDigitChars 10 cs n) := by
    intro cs
    induction cs with
    | nil => exact fun n _ => rfl
    | cons c cs ih =>
      intro n h
      have hc : '0' ≤ c ∧ c ≤ '9' := by
        have := h c (.head _)
        simpa [Char.isDigit, Char.le_def] using this
      rw [List.foldl_cons, Option.bind_some, if_pos hc, ih _ fun d hd => h d (.tail _ hd)]
      rfl
  obtain ⟨c, cs, rfl⟩ := List.exists_cons_of_ne_nil hne
  exact hfold (c :: cs) 0 h

/-- The digits of a number start with a digit, as the rest of them does. -/
theorem exists_toList_repr (n : ℕ) : ∃ c cs, n.repr.toList = c :: cs ∧ c.isDigit = true ∧
    ∀ d ∈ cs, d.isDigit = true := by
  have hdigit : ∀ c ∈ n.repr.toList, c.isDigit = true := by
    intro c hc
    rw [Nat.toList_repr] at hc
    exact Nat.isDigit_of_mem_toDigits (by norm_num) (by norm_num) hc
  have hne : n.repr.toList ≠ [] := by
    rw [Nat.toList_repr]
    exact Nat.toDigits_ne_nil
  obtain ⟨c, cs, h⟩ := List.exists_cons_of_ne_nil hne
  rw [h] at hdigit
  exact ⟨c, cs, h, hdigit c (.head _), fun d hd => hdigit d (.tail _ hd)⟩

theorem groupedDigits?_repr (n : ℕ) : groupedDigits? n.repr.toList = some n := by
  obtain ⟨c, cs, h, hc, hcs⟩ := exists_toList_repr n
  have hdigit : ∀ d ∈ c :: cs, d.isDigit = true := List.forall_mem_cons.mpr ⟨hc, hcs⟩
  have hplain : ∀ d ∈ c :: cs, d ≠ '_' := by
    rintro d hd rfl
    exact absurd (hdigit _ hd) (by decide)
  have hfilter : (c :: cs).filter (· ≠ '_') = c :: cs :=
    List.filter_eq_self.mpr fun d hd => decide_eq_true (hplain d hd)
  have hvalue : digits? (c :: cs) = some n := by
    rw [digits?_of_isDigit (List.cons_ne_nil _ _) hdigit, ← h, Nat.toList_repr,
      Nat.ofDigitChars_ten_toDigits]
  rw [h]
  unfold groupedDigits?
  split
  next heq => exact absurd (List.cons.inj heq).1 (hplain c (.head _))
  next => rw [hfilter, hvalue]

/-- **A printed number is read back.** -/
theorem integer?_repr (n : ℤ) : integer? n.repr.toList = some n := by
  have hsign : ∀ {c d : Char}, c.isDigit = true → d.isDigit = false → c ≠ d := by
    rintro c d hc hd rfl
    rw [hc] at hd
    cases hd
  rw [Int.repr_eq_if]
  split_ifs with h
  · obtain ⟨c, cs, hrepr, hc, -⟩ := exists_toList_repr n.toNat
    have hplus : dropPlus (c :: cs) = c :: cs := by
      unfold dropPlus
      split
      next heq => exact heq.symm
      next heq => exact absurd (List.cons.inj heq).1 (hsign hc (by decide))
      next => rfl
    have hvalue := groupedDigits?_repr n.toNat
    rw [hrepr] at hvalue ⊢
    unfold integer?
    split
    next heq => exact absurd (List.cons.inj heq).1 (hsign hc (by decide))
    next heq => exact absurd (List.cons.inj heq).1 (hsign hc (by decide))
    next =>
      rw [hplus, hvalue]
      exact congrArg some (Int.toNat_of_nonneg h)
  · obtain ⟨c, cs, hrepr, hc, -⟩ := exists_toList_repr (-n).toNat
    have hvalue := groupedDigits?_repr (-n).toNat
    have htext : ("-" ++ (-n).toNat.repr).toList = '-' :: c :: cs := by
      rw [String.toList_append, hrepr]
      rfl
    rw [hrepr] at hvalue
    rw [htext]
    unfold integer?
    split
    next heq => exact absurd (List.cons.inj (List.cons.inj heq).2).1 (hsign hc (by decide))
    next heq =>
      obtain rfl := (List.cons.inj heq).2
      rw [hvalue]
      change some (-((-n).toNat : ℤ)) = some n
      rw [Int.toNat_of_nonneg (by omega), neg_neg]
    next hneg => exact absurd rfl (hneg _)

end Text

/-! ### Expressions -/

/-- What is needed of a reader: it reads written s-expressions and printed integers. -/
structure TextReader.Lawful (reader : TextReader) : Prop where
  written : ∀ {s : String} {e : SExpr}, SExpr.Written s.toList e → reader.sexpr s = .ok (some e)
  integer : ∀ n : ℤ, reader.integer? n.repr.toList = some n

theorem TextReader.lawful_standard : standard.Lawful := ⟨SExpr.Written.read, Text.integer?_repr⟩

theorem written_number (n : ℤ) : SExpr.Written n.repr.toList (.atom n.repr) :=
  SExpr.written_word (plainWord_repr n)

/-- The label is a plain word. -/
def Point.Plain (p : Point) : Prop := PlainWord p.label.toList

instance (p : Point) : Decidable p.Plain := inferInstanceAs (Decidable (PlainWord p.label.toList))

namespace Quantity

/-- The s-expression of a quantity. -/
def layout (q : Quantity) : SExpr := .node q.letter (q.points.map fun p => .atom p.label)

theorem plainChar_letter (q : Quantity) : PlainChar q.letter := by
  cases q <;> simp only [letter] <;> decide

theorem written_text {q : Quantity} (h : q.On Point.Plain) :
    SExpr.Written q.text.toList q.layout := by
  rw [q.toList_text]
  exact .bracket q.plainChar_letter fun p hp => SExpr.written_word (h p hp)

end Quantity

namespace Expr

/-- Plain nodes over the points of a figure. -/
def TreeOver (fig : Figure) : Expr → Prop
  | number _ => True
  | quantity q => q.On (fig.has ·)
  | neg e => e.TreeOver fig
  | sum a b | product a b | fraction a b => a.TreeOver fig ∧ b.TreeOver fig
  | term _ | polynomial _ => False

/-- The s-expression that the text of an expression is read as. -/
def layout : Expr → SExpr
  | number n => .atom n.repr
  | quantity q => q.layout
  | neg e => .node '-' [e.layout]
  | sum a b => .node '+' [a.layout, b.layout]
  | product a b => .node '*' [a.layout, b.layout]
  | fraction a b => .node '/' [a.layout, b.layout]
  | term _ | polynomial _ => .list []

theorem layout_of_operator? {e : Expr} {c : Char} (h : e.operands ≠ [])
    (hc : e.operator? = some c) : PlainChar c ∧ e.layout = .node c (e.operands.map layout) := by
  cases e with
  | neg e | sum a b | product a b | fraction a b =>
    obtain rfl := Option.some.inj hc
    exact ⟨by decide, rfl⟩
  | _ => exact absurd rfl h

variable {reader : TextReader} {fig : Figure}

/-- **The text of an expression is its layout, written out.** -/
theorem written_text (hfig : ∀ p, fig.has p = true → p.Plain) {e : Expr} (he : e.TreeOver fig) :
    SExpr.Written e.text.toList e.layout := by
  have hnode : ∀ {e : Expr}, e.operands ≠ [] →
      (∀ a ∈ e.operands, SExpr.Written a.text.toList a.layout) →
      SExpr.Written e.text.toList e.layout := by
    intro e hinner h
    obtain ⟨c, hc, htext⟩ := toList_text hinner
    obtain ⟨hplain, hlayout⟩ := layout_of_operator? hinner hc
    rw [htext, hlayout]
    exact .bracket hplain h
  induction e with
  | number n => exact written_number n
  | quantity q => exact Quantity.written_text fun p hp => hfig p (he p hp)
  | neg e ih => exact hnode (List.cons_ne_nil _ _) (List.forall_mem_singleton.mpr (ih he))
  | sum a b iha ihb | product a b iha ihb | fraction a b iha ihb =>
    exact hnode (List.cons_ne_nil _ _)
      (List.forall_mem_cons.mpr ⟨iha he.1, List.forall_mem_singleton.mpr (ihb he.2)⟩)
  | term t => exact he.elim
  | polynomial p => exact he.elim

theorem ofSExpr_node (reader : TextReader) (fig : Figure) (c : Char) (items : List SExpr) :
    ofSExpr reader fig (.node c items) =
      apply fig (String.ofList [c]) items (ofSExprs reader fig items) := by
  simp only [SExpr.node, ofSExpr, ofSExprs]

theorem ofSExpr_quantity {q : Quantity} (h : q.On (fig.has ·)) :
    ofSExpr reader fig q.layout = .ok (quantity q) := by
  have hlabel : ∀ {p : Point}, fig.has p = true → readLabel fig (.atom p.label) = .ok p :=
    fun hp => if_pos hp
  cases q with
  | area a b c =>
    obtain ⟨ha, hb, hc⟩ := Quantity.on_area.mp h
    rw [Quantity.layout, ofSExpr_node]
    change (do
      return area (← readLabel fig (.atom a.label)) (← readLabel fig (.atom b.label))
        (← readLabel fig (.atom c.label))) = _
    rw [hlabel ha, hlabel hb, hlabel hc]
    rfl
  | pythagoras a b c =>
    obtain ⟨ha, hb, hc⟩ := Quantity.on_pythagoras.mp h
    rw [Quantity.layout, ofSExpr_node]
    change (do
      return pythagoras (← readLabel fig (.atom a.label)) (← readLabel fig (.atom b.label))
        (← readLabel fig (.atom c.label))) = _
    rw [hlabel ha, hlabel hb, hlabel hc]
    rfl
  | ratio a b c d =>
    obtain ⟨ha, hb, hc, hd⟩ := Quantity.on_ratio.mp h
    rw [Quantity.layout, ofSExpr_node]
    change (do
      return ratio (← readLabel fig (.atom a.label)) (← readLabel fig (.atom b.label))
        (← readLabel fig (.atom c.label)) (← readLabel fig (.atom d.label))) = _
    rw [hlabel ha, hlabel hb, hlabel hc, hlabel hd]
    rfl

/-- **The layout of an expression is read as the expression.** -/
theorem ofSExpr_layout (hreader : reader.Lawful) {e : Expr} (he : e.TreeOver fig) :
    ofSExpr reader fig e.layout = .ok e := by
  induction e with
  | number n => rw [layout, ofSExpr, hreader.integer]
  | quantity q => exact ofSExpr_quantity he
  | neg e ih =>
    simp only [layout, ofSExpr_node, ofSExprs, ih he]
    rfl
  | sum a b iha ihb | product a b iha ihb | fraction a b iha ihb =>
    simp only [layout, ofSExpr_node, ofSExprs, iha he.1, ihb he.2]
    rfl
  | term t => exact he.elim
  | polynomial p => exact he.elim

end Expr

/-- Every lawful reader reads the text of an expression as the expression. -/
theorem TextReader.Lawful.readExprBy_text {reader : TextReader} (hreader : reader.Lawful)
    {fig : Figure} (hfig : ∀ p, fig.has p = true → p.Plain) {e : Expr} (he : e.TreeOver fig) :
    fig.readExprBy reader e.text = .ok e := by
  rw [Figure.readExprBy, hreader.written (Expr.written_text hfig he)]
  exact Expr.ofSExpr_layout hreader he

/-- **Printing and reading are inverse.** If the labels of a figure are plain
words, the reader takes each as one atom, and the text of an expression over the
points of the figure is read as the expression itself. -/
theorem Figure.readExpr_text (fig : Figure) (hfig : ∀ p, fig.has p = true → p.Plain) (e : Expr)
    (he : e.TreeOver fig) :
    (∀ p, fig.has p = true → SExpr.read p.label = .ok (some (.atom p.label))) ∧
      fig.readExpr e.text = .ok e := by
  refine ⟨fun p hp => (SExpr.written_word (hfig p hp)).read, ?_⟩
  exact TextReader.lawful_standard.readExprBy_text hfig he

namespace OddLabels

/-- A label that is an operator. -/
def minus : Point := ⟨"-"⟩

/-- A label that is a number. -/
def one : Point := ⟨"-1"⟩

/-- A label that is a quantity. -/
def s : Point := ⟨"S"⟩

def figure : Figure := ⟨[⟨s, none⟩, ⟨one, none⟩, ⟨minus, none⟩]⟩

/-- Negative numbers, negations and differences. -/
def expr : Expr :=
  .fraction (.sum (.neg (.number 12)) (.neg (.number (-12))))
    (.product (Expr.area minus one s) (.neg (.neg (Expr.ratio s minus one s))))

theorem plain_of_has (p : Point) (h : figure.has p = true) : p.Plain := by
  have hall : ∀ z ∈ figure.placed, z.point.Plain := by decide
  obtain ⟨z, hz, rfl⟩ := Figure.has_iff.mp h
  exact hall z hz

theorem treeOver_expr : expr.TreeOver figure := by
  refine ⟨⟨trivial, trivial⟩, ?_, ?_⟩
  · exact Quantity.on_area.mpr ⟨rfl, rfl, rfl⟩
  · exact Quantity.on_ratio.mpr ⟨rfl, rfl, rfl, rfl⟩

theorem text_expr :
    expr.text = "(/ (+ (- 12) (- -12)) (* (S - -1 S) (- (- (R S - -1 S)))))" := by
  decide +kernel

end OddLabels

open OddLabels in
theorem Figure.readExpr_oddLabels :
    (∀ p, figure.has p = true → p.Plain) ∧ expr.TreeOver figure ∧
      figure.readExpr "(/ (+ (- 12) (- -12)) (* (S - -1 S) (- (- (R S - -1 S)))))" = .ok expr := by
  have h := (Figure.readExpr_text figure plain_of_has expr treeOver_expr).2
  rw [text_expr] at h
  exact ⟨plain_of_has, treeOver_expr, h⟩

end AreaMethod
