/-
# Printed polynomials are read back

The printer of polynomials has many shapes: nothing for the exponent one, a
power alone if the coefficient is one, a coefficient alone, products and sums
of any length. The reader knows operators with many operands and powers, and
makes nodes of two operands of both. What it makes of a printed polynomial is
another expression, but it is multiplied out to the same polynomial
(`Figure.readExpr_polynomial_text`).

`Figure.Reproduces` says this of one piece of text, for every lawful reader. It passes from powers to terms and from terms to polynomials. That
the product of the powers is the term, and the sum of the terms the polynomial,
is seen in the Laurent polynomials which they denote.

Key definitions: `Term.ofPower`, `Figure.Reproduces`.
Key theorems: `Expr.expand_power`, `Figure.reproduces_chain`,
`Figure.reproduces_term`, `Figure.readExpr_polynomial_text`.
-/
import Mathlib
import AreaMethod.Proofs.CanonicalForm
import AreaMethod.Proofs.Reading

namespace AreaMethod

/-! ### Texts -/

/-- Texts that are separated by blanks, with a blank in front. -/
theorem blank_toList_intercalate {α : Type} (text : α → String) {xs : List α} (h : xs ≠ []) :
    ' ' :: (" ".intercalate (xs.map text)).toList = spaced (fun x => (text x).toList) xs := by
  induction xs with
  | nil => exact absurd rfl h
  | cons x rest ih =>
    cases rest with
    | nil => simp [spaced]
    | cons y rest =>
      have hrest := ih (List.cons_ne_nil _ _)
      rw [spaced, List.flatMap_cons, ← spaced, ← hrest, List.map_cons, List.map_cons,
        String.intercalate_cons_cons]
      simp

/-- A number from zero on, within 32 bits, is read back as an exponent. -/
theorem Text.exponent?_repr {n : ℤ} (hn : 0 ≤ n) (hlt : n < 2147483648) :
    exponent? n.repr.toList = some n := by
  obtain ⟨c, cs, hrepr, hc, hcs⟩ := exists_toList_repr n.toNat
  have hdigits : digits? (c :: cs) = some n.toNat := by
    rw [digits?_of_isDigit (List.cons_ne_nil _ _) (List.forall_mem_cons.mpr ⟨hc, hcs⟩), ← hrepr,
      Nat.toList_repr, Nat.ofDigitChars_ten_toDigits]
  have hvalue : (n.toNat : ℤ) = n := Int.toNat_of_nonneg hn
  have hsmall : n.toNat < 0x80000000 := by omega
  rw [Int.repr_eq_if, if_pos hn, hrepr]
  unfold exponent?
  split
  next heq => rw [(List.cons.inj heq).1] at hc; cases hc
  next heq => rw [(List.cons.inj heq).1] at hc; cases hc
  next => rw [hdigits, Option.bind_some, if_pos hsmall, hvalue]

/-! ### Products and sums of terms -/

namespace Polynomial

theorem ofTerm_mul (s t : Term) : ofTerm s * ofTerm t = ofTerm (s * t) := by
  apply laurent_injective
  rw [laurent_mul, laurent_ofTerm, laurent_ofTerm, laurent_ofTerm, Term.laurent_mul]

theorem laurent_foldl_addTerm : ∀ (ts : List Term) (p : Polynomial),
    (ts.foldl addTerm p).laurent = p.laurent + (ts.map Term.laurent).sum
  | [], _ => (add_zero _).symm
  | t :: ts, p => by
    rw [List.foldl_cons, laurent_foldl_addTerm ts, addTerm, laurent_add, laurent_ofTerm,
      List.map_cons, List.sum_cons, add_assoc]

/-- A polynomial is the sum of its terms, added one after the other. -/
theorem foldl_addTerm_terms (p : Polynomial) : p.terms.foldl addTerm zero = p := by
  apply laurent_injective
  rw [laurent_foldl_addTerm, laurent_zero, zero_add, ← laurent_eq_sum]

end Polynomial

/-- The term that is a power of a quantity. -/
def Term.ofPower (q : Quantity) (n : ℤ) : Term := ⟨1, Powers.one.timesPower q n⟩

/-- Multiplying by a power adds to the exponents. -/
theorem Term.mul_ofPower (n : ℤ) (p : Powers) (q : Quantity) (k : ℤ) :
    (⟨n, p⟩ : Term) * ofPower q k = ⟨n, p.timesPower q k⟩ := by
  have hpowers : p + Powers.one.timesPower q k = p.timesPower q k := by
    apply Powers.exponents_injective
    rw [Powers.exponents_add, Powers.exponents_timesPower, Powers.exponents_timesPower,
      Powers.exponents_one, zero_add]
  change (⟨n * 1, p + Powers.one.timesPower q k⟩ : Term) = _
  rw [mul_one, hpowers]

/-- A term is its coefficient times its powers, multiplied one after the other. -/
theorem Term.foldl_mul_ofPower (t : Term) :
    t.powers.entries.foldl (fun s x => s * ofPower x.1 x.2) (constant t.coefficient) = t := by
  have hfold : ∀ (entries : List (Quantity × ℤ)) (p : Powers),
      entries.foldl (fun s x => s * ofPower x.1 x.2) ⟨t.coefficient, p⟩ =
        ⟨t.coefficient, entries.foldl (fun p x => p.timesPower x.1 x.2) p⟩ := by
    intro entries
    induction entries with
    | nil => exact fun p => rfl
    | cons x rest ih =>
      intro p
      rw [List.foldl_cons, mul_ofPower, ih]
      rfl
  exact (hfold _ _).trans (congrArg (Term.mk t.coefficient) (Powers.ofFactors_entries t.powers))

/-- The polynomial of a term is the product of its coefficient and its powers. -/
theorem Term.foldl_mul_ofTerm (t : Term) :
    t.powers.entries.foldl (fun p x => p * .ofTerm (.ofPower x.1 x.2)) (.constant t.coefficient) =
      Polynomial.ofTerm t := by
  have hfold : ∀ (entries : List (Quantity × ℤ)) (s : Term),
      entries.foldl (fun p x => p * .ofTerm (.ofPower x.1 x.2)) (.ofTerm s) =
        Polynomial.ofTerm (entries.foldl (fun s x => s * .ofPower x.1 x.2) s) := by
    intro entries
    induction entries with
    | nil => exact fun s => rfl
    | cons x rest ih =>
      intro s
      rw [List.foldl_cons, Polynomial.ofTerm_mul, ih]
      rfl
  rw [Polynomial.constant, hfold, foldl_mul_ofPower]

theorem Expr.expand_neg {e : Expr} {p : Polynomial} (he : e.expand = .ok p) :
    (neg e).expand = .ok (-p) := by
  rw [expand, he]
  rfl

theorem Expr.expand_sum {a b : Expr} {p q : Polynomial} (ha : a.expand = .ok p)
    (hb : b.expand = .ok q) : (sum a b).expand = .ok (p + q) := by
  rw [expand, ha, hb]
  rfl

theorem Expr.expand_product {a b : Expr} {p q : Polynomial} (ha : a.expand = .ok p)
    (hb : b.expand = .ok q) : (product a b).expand = .ok (p * q) := by
  rw [expand, ha, hb]
  rfl

/-- **A power is multiplied out to one term.** -/
theorem Expr.expand_power (q : Quantity) {n : ℤ} (hn : 1 ≤ n) :
    (power (quantity q) n).expand = .ok (.ofTerm (.ofPower q n)) := by
  have hpower : ∀ m : ℕ, ((List.replicate m (quantity q)).foldl product (quantity q)).expand =
      .ok (.ofTerm (.ofPower q (m + 1))) := by
    intro m
    induction m with
    | zero => rfl
    | succ m ih =>
      have hadd : (Powers.one.timesPower q (m + 1)).timesPower q 1 =
          Powers.one.timesPower q (m + 1 + 1) := by
        apply Powers.exponents_injective
        rw [Powers.exponents_timesPower, Powers.exponents_timesPower, Powers.exponents_timesPower,
          add_assoc, ← Finsupp.single_add]
      have hquantity : (quantity q).expand = .ok (.ofTerm (.ofPower q 1)) := rfl
      rw [List.replicate_succ', List.foldl_append, List.foldl_cons, List.foldl_nil,
        expand_product ih hquantity, Polynomial.ofTerm_mul, Term.ofPower, Term.mul_ofPower, hadd]
      rfl
  obtain ⟨m, rfl⟩ : ∃ m : ℕ, n = m + 1 := ⟨(n - 1).toNat, by omega⟩
  have hnat : ((m : ℤ) + 1).natAbs = m + 1 := by omega
  have hneg : ¬ (m : ℤ) + 1 < 0 := by omega
  unfold power
  rw [hnat, List.replicate_succ]
  simp only [if_neg hneg]
  exact hpower m

/-! ### Texts that are read as polynomials -/

/-- Every lawful reader reads the text as an expression that is multiplied out to the
polynomial. -/
def Figure.Reproduces (fig : Figure) (cs : List Char) (p : Polynomial) : Prop :=
  ∃ s e, SExpr.Written cs s ∧
    (∀ reader : TextReader, reader.Lawful → Expr.ofSExpr reader fig s = .ok e) ∧ e.expand = .ok p

namespace Expr

variable {reader : TextReader} {fig : Figure}

theorem ofSExprs_map {α : Type} {tree : α → SExpr} {expr : α → Expr} :
    ∀ {xs : List α}, (∀ x ∈ xs, ofSExpr reader fig (tree x) = .ok (expr x)) →
      ofSExprs reader fig (xs.map tree) = xs.map fun x => .ok (expr x)
  | [], _ => rfl
  | x :: xs, h => by
    rw [List.map_cons, List.map_cons, ofSExprs, h x (.head _),
      ofSExprs_map fun y hy => h y (.tail _ hy)]

theorem readChain_ok {α : Type} (operator : String) (node : Expr → Expr → Expr) (expr : α → Expr)
    (x y : α) (rest : List α) :
    readChain operator node ((x :: y :: rest).map fun z => .ok (expr z)) =
      .ok (((y :: rest).map expr).foldl node (expr x)) := by
  have hfold : ∀ (zs : List α) (e : Expr),
      (zs.map fun z => Except.ok (expr z)).foldlM
        (fun acc operand => do return node acc (← operand)) e =
        (.ok ((zs.map expr).foldl node e) : Except ReadError Expr) := by
    intro zs
    induction zs with
    | nil => exact fun e => rfl
    | cons z zs ih => exact fun e => ih (node e (expr z))
  exact hfold (y :: rest) (expr x)

end Expr

namespace Figure

variable {fig : Figure}

theorem reproduces_number (n : ℤ) : fig.Reproduces n.repr.toList (.constant n) :=
  ⟨_, .number n, written_number n, fun _ h => by rw [Expr.ofSExpr, h.integer], rfl⟩

/-- **Operators with many operands.** They are read as nodes of two operands, from
left to right. -/
theorem reproduces_chain {c : Char} (hc : PlainChar c) {node : Expr → Expr → Expr}
    {op : Polynomial → Polynomial → Polynomial}
    (happly : ∀ items operands, Expr.apply fig (String.ofList [c]) items operands =
      Expr.readChain (String.ofList [c]) node operands)
    (hnode : ∀ {a b p q}, a.expand = .ok p → b.expand = .ok q → (node a b).expand = .ok (op p q))
    {α : Type} {text : α → String} {poly : α → Polynomial} {x : α} {xs : List α} (hne : xs ≠ [])
    (h : ∀ z ∈ x :: xs, fig.Reproduces (text z).toList (poly z)) :
    fig.Reproduces (bracket (fun z => (text z).toList) c (x :: xs))
      (xs.foldl (fun p z => op p (poly z)) (poly x)) := by
  choose! tree expr hwritten hread hexpand using h
  have hfold : ∀ (zs : List α) (e : Expr) (p : Polynomial),
      (∀ z ∈ zs, (expr z).expand = .ok (poly z)) → e.expand = .ok p →
      ((zs.map expr).foldl node e).expand = .ok (zs.foldl (fun p z => op p (poly z)) p) := by
    intro zs
    induction zs with
    | nil => exact fun e p _ he => he
    | cons z zs ih =>
      intro e p hzs he
      exact ih _ _ (fun w hw => hzs w (.tail _ hw)) (hnode he (hzs z (.head _)))
  refine ⟨.node c ((x :: xs).map tree), (xs.map expr).foldl node (expr x),
    .bracket hc hwritten, fun reader hreader => ?_, ?_⟩
  · obtain ⟨y, rest, rfl⟩ := List.exists_cons_of_ne_nil hne
    rw [Expr.ofSExpr_node, happly, Expr.ofSExprs_map fun z hz => hread z hz reader hreader,
      Expr.readChain_ok]
  · exact hfold _ _ _ (fun z hz => hexpand z (.tail _ hz)) (hexpand x (.head _))

theorem reproduces_power (hfig : ∀ p, fig.has p = true → p.Plain) {q : Quantity}
    (hq : q.On (fig.has ·)) {n : ℤ} (hn : 1 ≤ n) (hle : n ≤ 64) :
    fig.Reproduces (Powers.powerText q n).toList (.ofTerm (.ofPower q n)) := by
  have hwritten := Quantity.written_text fun p hp => hfig p (hq p hp)
  unfold Powers.powerText
  split_ifs with hone
  · subst hone
    exact ⟨q.layout, .quantity q, hwritten, fun _ _ => Expr.ofSExpr_quantity hq, rfl⟩
  let items : List (String × SExpr) := [(q.text, q.layout), (n.repr, .atom n.repr)]
  have htext : s!"(^ {q.text} {n})".toList = bracket (·.1.toList) '^' items := by
    simp [items, bracket, spaced, toString]
  have hitems : ∀ x ∈ items, SExpr.Written x.1.toList x.2 :=
    List.forall_mem_cons.mpr ⟨hwritten, List.forall_mem_singleton.mpr (written_number n)⟩
  have hexponent : Expr.readExponent (.atom n.repr) = .ok n := by
    have hread : Text.exponent? n.repr.toList = some n := Text.exponent?_repr (by omega) (by omega)
    have hsmall : ¬ n.natAbs > 64 := by omega
    simp only [Expr.readExponent, hread, if_neg hsmall]
  refine ⟨.node '^' [q.layout, .atom n.repr], .power (.quantity q) n, ?_, fun _ _ => ?_,
    Expr.expand_power q hn⟩
  · rw [htext]
    exact .bracket (by decide) hitems
  · rw [Expr.ofSExpr_node]
    simp only [Expr.ofSExprs, Expr.ofSExpr_quantity hq]
    change (do return Expr.power (.quantity q) (← Expr.readExponent (.atom n.repr))) = _
    rw [hexponent]
    rfl

theorem reproduces_term (hfig : ∀ p, fig.has p = true → p.Plain) {t : Term}
    (ht : ∀ x ∈ t.powers.entries, x.1.On (fig.has ·) ∧ 1 ≤ x.2 ∧ x.2 ≤ 64) :
    fig.Reproduces t.text.toList (.ofTerm t) := by
  have hpower : ∀ x ∈ t.powers.entries,
      fig.Reproduces (Powers.powerText x.1 x.2).toList (.ofTerm (.ofPower x.1 x.2)) :=
    fun x hx => reproduces_power hfig (ht x hx).1 (ht x hx).2.1 (ht x hx).2.2
  have hterm := t.foldl_mul_ofPower
  unfold Term.text
  split_ifs with hone hsingle
  · -- the coefficient alone
    rw [List.isEmpty_iff.mp hone] at hterm
    rw [← hterm]
    exact reproduces_number t.coefficient
  · -- one power, and the coefficient one
    obtain ⟨x, hx⟩ := List.length_eq_one_iff.mp hsingle.2
    rw [hx, hsingle.1, List.foldl_cons, List.foldl_nil, Term.constant, Term.mul_ofPower] at hterm
    have htext : t.powers.text = Powers.powerText x.1 x.2 := by
      rw [Powers.text, hx, List.map_cons, List.map_nil, String.intercalate_singleton]
    rw [htext, ← hterm]
    exact hpower x (hx ▸ .head _)
  · have hne : t.powers.entries ≠ [] := fun h => hone (List.isEmpty_iff.mpr h)
    let first : String × Polynomial := (t.coefficient.repr, .constant t.coefficient)
    let items : List (String × Polynomial) := t.powers.entries.map fun x =>
      (Powers.powerText x.1 x.2, .ofTerm (.ofPower x.1 x.2))
    have hitems : items ≠ [] := by simpa [items] using hne
    have htext : s!"(* {t.coefficient} {t.powers.text})".toList =
        bracket (·.1.toList) '*' (first :: items) := by
      have hspaced := blank_toList_intercalate Prod.fst hitems
      have hfst : items.map Prod.fst = t.powers.entries.map fun x => Powers.powerText x.1 x.2 := by
        simp [items]
      rw [bracket, spaced, List.flatMap_cons, ← spaced, ← hspaced, hfst]
      simp [first, Powers.text, toString]
    have hall : ∀ z ∈ first :: items, fig.Reproduces z.1.toList z.2 := by
      refine List.forall_mem_cons.mpr ⟨reproduces_number t.coefficient, fun z hz => ?_⟩
      obtain ⟨x, hx, rfl⟩ := List.mem_map.mp hz
      exact hpower x hx
    have hproduct : items.foldl (fun p z => p * z.2) first.2 = .ofTerm t := by
      rw [List.foldl_map]
      exact t.foldl_mul_ofTerm
    rw [htext, ← hproduct]
    exact reproduces_chain (by decide) (fun _ _ => rfl) Expr.expand_product hitems hall

theorem reproduces_polynomial (hfig : ∀ p, fig.has p = true → p.Plain) {p : Polynomial}
    (hp : p.AllPowers fun y => y.1.On (fig.has ·) ∧ 1 ≤ y.2 ∧ y.2 ≤ 64) :
    fig.Reproduces p.text.toList p := by
  have hterm : ∀ t ∈ p.terms, fig.Reproduces t.text.toList (.ofTerm t) := by
    intro t ht
    obtain ⟨x, hx, rfl⟩ := List.mem_map.mp ht
    exact reproduces_term hfig (hp x hx)
  have hsum := p.foldl_addTerm_terms
  unfold Polynomial.text
  cases hterms : p.terms with
  | nil =>
    rw [hterms] at hsum
    rw [← hsum]
    exact reproduces_number 0
  | cons t rest =>
    rw [hterms] at hsum hterm
    have hzero : Polynomial.zero.addTerm t = .ofTerm t := rfl
    rw [List.foldl_cons, hzero] at hsum
    cases rest with
    | nil =>
      rw [← hsum]
      exact hterm t (.head _)
    | cons t' rest =>
      have htext : ("(+ " ++ " ".intercalate ((t :: t' :: rest).map Term.text) ++ ")").toList =
          bracket (·.text.toList) '+' (t :: t' :: rest) := by
        have hspaced := blank_toList_intercalate Term.text (List.cons_ne_nil t (t' :: rest))
        rw [bracket, ← hspaced]
        simp
      have hchain : fig.Reproduces (bracket (·.text.toList) '+' (t :: t' :: rest)) p := by
        rw [← hsum]
        exact reproduces_chain (by decide) (fun _ _ => rfl) Expr.expand_sum
          (List.cons_ne_nil t' rest) hterm
      rw [← htext] at hchain
      exact hchain

/-- Every lawful reader reads the text of a polynomial back. -/
theorem readExprBy_polynomial_text {reader : TextReader} (hreader : reader.Lawful)
    (hfig : ∀ p, fig.has p = true → p.Plain) {p : Polynomial}
    (hp : p.AllPowers fun y => y.1.On (fig.has ·) ∧ 1 ≤ y.2 ∧ y.2 ≤ 64) :
    ∃ e, fig.readExprBy reader p.text = .ok e ∧ e.expand = .ok p := by
  obtain ⟨s, e, hwritten, hread, hexpand⟩ := reproduces_polynomial hfig hp
  refine ⟨e, ?_, hexpand⟩
  rw [readExprBy, hreader.written hwritten]
  exact hread reader hreader

/-- **Printed polynomials are read back.** Over the points of a figure whose labels
are plain words, and with exponents from 1 to 64, the text of a polynomial is read
as an expression that is multiplied out to the polynomial itself. -/
theorem readExpr_polynomial_text (fig : Figure) (hfig : ∀ p, fig.has p = true → p.Plain)
    (p : Polynomial) (hp : p.AllPowers fun y => y.1.On (fig.has ·) ∧ 1 ≤ y.2 ∧ y.2 ≤ 64) :
    ∃ e, fig.readExpr p.text = .ok e ∧ e.expand = .ok p :=
  readExprBy_polynomial_text TextReader.lawful_standard hfig hp

end Figure

namespace OddLabels

/-- All shapes of terms, with the largest exponent. -/
def polynomial : Polynomial :=
  .constant 5 +
    .ofTerm ⟨-12, Powers.ofFactors [(.area minus one s, 64), (.ratio s minus one s, 1)]⟩ +
    .ofTerm (.ofPower (.area s one minus) 1) +
    .ofTerm ⟨-1, Powers.ofFactors [(.area s one minus, 2)]⟩ +
    .ofTerm (.ofPower (.pythagoras s one s) 2)

def printed : String :=
  "(+ 5 (* -12 (^ (S - -1 S) 64) (R S - -1 S)) (S S -1 -) (* -1 (^ (S S -1 -) 2)) (^ (P S -1 S) 2))"

theorem text_polynomial : polynomial.text = printed := by decide +kernel

theorem readExpr_text_polynomial :
    (∀ p, figure.has p = true → p.Plain) ∧
    (polynomial.AllPowers fun y => y.1.On (figure.has ·) ∧ 1 ≤ y.2 ∧ y.2 ≤ 64) ∧
    ∃ e, figure.readExpr printed = .ok e ∧ e.expand = .ok polynomial := by
  have hpowers : polynomial.AllPowers fun y => y.1.On (figure.has ·) ∧ 1 ≤ y.2 ∧ y.2 ≤ 64 := by
    unfold Polynomial.AllPowers Quantity.On
    decide +kernel
  rw [← text_polynomial]
  exact ⟨plain_of_has, hpowers, figure.readExpr_polynomial_text plain_of_has polynomial hpowers⟩

end OddLabels
end AreaMethod
