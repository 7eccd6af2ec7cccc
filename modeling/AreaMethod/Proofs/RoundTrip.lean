/-
# Multiplying and dividing by the same expression

An expression that is multiplied by another one and divided by it simplifies as
the expression alone does (`Expr.singleFraction_roundTrip`), as long as there are
no fractions in the two and the divisor is not zero everywhere.

Cancelling compares the two copies of the divisor as they are written. While the
rules work on them, signs leave the one above the bar earlier than the one below,
so the two need not be equal at any time; but they stay equal up to signs. The
rules are described by their outcomes on operands without fractions
(`Expr.ProductOutcome`, `Expr.FractionOutcome`). After a pass, a quotient with a
common factor has been cancelled or is again such a quotient with a sign in
front (`Expr.Settles`), and the second case cannot go on forever
(`Expr.simplify_eq_of_settles`).

Key definitions: `Expr.Divisor`, `Expr.ProductOutcome`, `Expr.FractionOutcome`,
`Expr.Settles`.
Key theorems: `Expr.simplify_eq_of_settles`, `Expr.simplify_timesOver`,
`Expr.singleFraction_roundTrip`.
-/
import Mathlib
import AreaMethod.Proofs.NormalForm
import AreaMethod.Proofs.Signs

namespace AreaMethod
namespace Expr

variable {a b d e f n x y X : Expr} {v : Reading}

/-! ### Expressions without fractions -/

theorem ofRat_intCast (n : ℤ) : ofRat n = number n := by
  simp [ofRat]

/-- Without fractions, constants are integers. -/
theorem exists_int_of_rational? : ∀ {e : Expr} {r : ℚ}, e.hasFraction = false →
    e.rational? = some r → ∃ n : ℤ, r = n
  | number n, r, _, h => ⟨n, (Option.some.inj h).symm⟩
  | neg e, r, he, h => by
    obtain ⟨s, hs, rfl⟩ := Option.map_eq_some_iff.mp h
    obtain ⟨n, rfl⟩ := exists_int_of_rational? (e := e) he hs
    exact ⟨-n, (Int.cast_neg n).symm⟩
  | fraction _ _, _, he, _ => by cases he

theorem simplify_of_rational? : ∀ {e : Expr} {n : ℤ}, e.hasFraction = false →
    e.rational? = some (n : ℚ) → e.simplify = .ok (number n)
  | number m, n, _, h => by
    obtain rfl : m = n := by exact_mod_cast Option.some.inj h
    exact simplify_of_fixed rfl
  | neg e, n, he, h => by
    obtain ⟨s, hs, hsn⟩ := Option.map_eq_some_iff.mp h
    obtain ⟨m, rfl⟩ := exists_int_of_rational? (e := e) he hs
    obtain rfl : -m = n := by exact_mod_cast hsn
    rw [simplify_neg, simplify_of_rational? (e := e) he hs]
    rfl
  | fraction _ _, _, he, _ => by cases he

theorem simplify_signed_of_rational? {k : ℤ} (he : e.hasFraction = false)
    (h : e.rational? = some (k : ℚ)) (s : Bool) :
    (signed s e).simplify = .ok (number (if s then -k else k)) := by
  rw [simplify_signed, simplify_of_rational? he h]
  cases s <;> rfl

theorem simplify_signed_of_isZero (h : e.isZero) (s : Bool) :
    (signed s e).simplify = .ok (number 0) := by
  have hstep : e.simplifyStep = .ok (number 0) := by
    cases e with
    | number n =>
      obtain rfl : n = 0 := by simpa [isZero] using h
      rfl
    | polynomial p =>
      have hnil : p.entries = [] := by simpa [isZero, Sparse.isZero] using h
      have hp : p.constant? = some 0 := by simp [Polynomial.constant?, hnil]
      simp [simplifyStep, hp]
    | _ => cases h
  rw [simplify_signed, simplify_of_step hstep, simplify_of_fixed rfl]
  cases s <;> rfl

theorem hasFraction_unsigned : ∀ e : Expr, e.unsigned.hasFraction = e.hasFraction
  | neg e => hasFraction_unsigned e
  | number _ | quantity _ | sum _ _ | product _ _ | fraction _ _ | term _ | polynomial _ => rfl

theorem hasFraction_of_unsigned (h : x.unsigned = a.unsigned) (ha : a.hasFraction = false) :
    x.hasFraction = false := by
  rw [← hasFraction_unsigned, h, hasFraction_unsigned, ha]

theorem hasFraction_signed (s : Bool) (e : Expr) : (signed s e).hasFraction = e.hasFraction := by
  cases s <;> rfl

theorem isNegative_signed (s : Bool) (e : Expr) :
    (signed s e).isNegative = (s ^^ e.isNegative) := by
  cases s <;> simp [signed, isNegative]

theorem unsigned_signed (s : Bool) (e : Expr) : (signed s e).unsigned = e.unsigned := by
  cases s <;> rfl

theorem value_eq_unsigned (v : Reading) : ∀ e : Expr,
    e.value v = (e.unsigned.value v).map fun x => if e.isNegative then -x else x
  | number n => by
    by_cases h : n < 0
    · have hn : -(n.natAbs : ℤ) = n := by omega
      have hq : -((n.natAbs : ℤ) : ℚ) = n := by exact_mod_cast congrArg (Int.cast (R := ℚ)) hn
      simp only [value, unsigned, isNegative, h, decide_true, if_true, Option.map_some, hq]
    · have hn : (n.natAbs : ℤ) = n := by omega
      simp only [value, unsigned, isNegative, h, decide_false, Bool.false_eq_true, if_false,
        Option.map_some, hn]
  | neg e => by
    rw [value, value_eq_unsigned v e]
    cases hx : e.unsigned.value v <;> cases hs : e.isNegative <;>
      simp [unsigned, isNegative, hx, hs]
  | quantity _ | sum _ _ | product _ _ | fraction _ _ | term _ | polynomial _ => by
    simp [unsigned, isNegative]

theorem rational?_eq_unsigned : ∀ e : Expr,
    e.rational? = e.unsigned.rational?.map fun r => if e.isNegative then -r else r
  | number n => value_eq_unsigned (fun _ => none) (number n)
  | neg e => by
    rw [rational?, rational?_eq_unsigned e]
    cases hr : e.unsigned.rational? <;> cases hs : e.isNegative <;>
      simp [unsigned, isNegative, hr, hs]
  | quantity _ | sum _ _ | product _ _ | fraction _ _ | term _ | polynomial _ => by
    simp [unsigned, isNegative]

theorem rational?_of_unsigned {k : ℤ} (h : b.unsigned = d.unsigned)
    (hb : b.rational? = some (k : ℚ)) :
    d.rational? = some ((if b.isNegative ^^ d.isNegative then -k else k : ℤ) : ℚ) := by
  rw [rational?_eq_unsigned, h] at hb
  obtain ⟨r, hr, hk⟩ := Option.map_eq_some_iff.mp hb
  rw [rational?_eq_unsigned, hr, Option.map_some, Option.some.injEq]
  cases hsb : b.isNegative <;> cases hsd : d.isNegative <;> simp_all [neg_eq_iff_eq_neg]

theorem eq_of_unsigned {m k : ℤ} (h : b.unsigned = d.unsigned) (hm : b.rational? = some (m : ℚ))
    (hk : d.rational? = some (k : ℚ)) : k = if b.isNegative ^^ d.isNegative then -m else m := by
  exact_mod_cast Option.some.inj (hk.symm.trans (rational?_of_unsigned h hm))

/-! ### Outcomes of the rules -/

/-- What the rule for products makes of two operands without fractions. -/
inductive ProductOutcome (a b : Expr) : Expr → Prop
  | zero (h : a.isZero ∨ b.isZero) : ProductOutcome a b (number 0)
  | unitLeft (h : a.unsigned = number 1) : ProductOutcome a b (signed a.isNegative b)
  | unitRight (h : b.unsigned = number 1) : ProductOutcome a b (signed b.isNegative a)
  | constant {m k : ℤ} (ha : a.rational? = some (m : ℚ)) (hb : b.rational? = some (k : ℚ)) :
    ProductOutcome a b (number (m * k))
  | sign {e : Expr} (h : signOut? product a b = some e) : ProductOutcome a b (neg e)
  | same (hb : b.unsigned = b) (h1 : b ≠ number 1) :
    ProductOutcome a b (product a b)

/-- What the rule for fractions makes of two operands without fractions. -/
inductive FractionOutcome (n d : Expr) : Expr → Prop
  | zero (h : n.isZero) : FractionOutcome n d (number 0)
  | equal (h : n = d) : FractionOutcome n d (number 1)
  | unit (h : d.unsigned = number 1) : FractionOutcome n d (signed d.isNegative n)
  | constant {m k : ℤ} (hn : n.rational? = some (m : ℚ)) (hd : d.rational? = some (k : ℚ)) :
    FractionOutcome n d (ofRat (m / k))
  | sign {e : Expr} (hc : n.rational? = none ∨ d.rational? = none)
    (h : signOut? fraction n d = some e) : FractionOutcome n d (neg e)
  | cancel (hc : n.rational? = none ∨ d.rational? = none) (hn : n.unsigned = n)
    (hd : d.unsigned = d) (hne : n ≠ d) (h1 : d ≠ number 1) :
    FractionOutcome n d (cancelFactors n d)

theorem eq_number_one_of_isOne (h : e.isOne) : e = number 1 := by
  cases e with
  | number n => exact congrArg number (by simpa [isOne] using h)
  | _ => cases h

theorem over?_eq_none (h : e.hasFraction = false) : e.over? d = none := by
  cases e with
  | fraction a b => cases h
  | _ => rfl

theorem productRule_outcome (ha : a.hasFraction = false) (hb : b.hasFraction = false) :
    ProductOutcome a b (productRule a b) := by
  unfold productRule
  split_ifs with h0 h1 h2 h3 h4
  · exact .zero (by simpa using h0)
  · obtain rfl := eq_number_one_of_isOne h1
    exact .unitLeft rfl
  · obtain rfl := eq_number_one_of_isOne h2
    exact .unitRight rfl
  · subst h3
    exact .unitLeft rfl
  · subst h4
    exact .unitRight rfl
  · split
    next r s hr hs =>
      obtain ⟨m, rfl⟩ := exists_int_of_rational? ha hr
      obtain ⟨k, rfl⟩ := exists_int_of_rational? hb hs
      rw [← Int.cast_mul, ofRat_intCast]
      exact .constant hr hs
    · unfold productSigns
      cases hsigns : signOut? product a b with
      | some e => exact .sign hsigns
      | none =>
        obtain ⟨-, hnb, -, hmb⟩ := signOut?_eq_none hsigns
        simp only [over?_eq_none ha, over?_eq_none hb, Option.getD_none]
        exact .same (unsigned_eq_self hnb hmb) fun h => h2 (by rw [h]; rfl)

theorem fractionSigns_eq_cancelFactors (hn : n.hasFraction = false) (hd : d.hasFraction = false)
    (h : signOut? fraction n d = none) : fractionSigns n d = cancelFactors n d := by
  unfold fractionSigns
  rw [h]
  cases d with
  | fraction x y => cases hd
  | _ =>
    cases n with
    | fraction x y => cases hn
    | _ => rfl

theorem quotient?_eq_none {r s : ℚ} (h : quotient? n d = none) (hn : n.rational? = some r)
    (hd : d.rational? = some s) : s = 0 := by
  simpa [quotient?, hn, hd] using h

/-! ### Divisors -/

/-- An expression without fractions that is not zero everywhere. -/
structure Divisor (d : Expr) : Prop where
  plain : d.hasFraction = false
  nonzero : ∃ v x, d.value v = some x ∧ x ≠ 0

theorem Divisor.isZero (hd : Divisor d) : d.isZero = false := by
  obtain ⟨v, x, hx, h0⟩ := hd.nonzero
  refine Bool.eq_false_iff.mpr fun hzero => h0 ?_
  rw [value_of_isZero hzero] at hx
  exact (Option.some.inj hx).symm

/-- Signs make no difference. -/
theorem Divisor.of_unsigned (hd : Divisor d) (h : b.unsigned = d.unsigned) : Divisor b := by
  obtain ⟨v, x, hx, h0⟩ := hd.nonzero
  rw [value_eq_unsigned] at hx
  obtain ⟨y, hy, rfl⟩ := Option.map_eq_some_iff.mp hx
  refine ⟨?_, v, if b.isNegative then -y else y, ?_, ?_⟩
  · exact hasFraction_of_unsigned h hd.plain
  · rw [value_eq_unsigned, h, hy, Option.map_some]
  · split_ifs at h0 ⊢ <;> simpa using h0

theorem Divisor.unsigned_ne_zero (hd : Divisor d) : d.unsigned ≠ number 0 := by
  intro h
  have := (hd.of_unsigned (b := number 0) h.symm).isZero
  cases this

theorem Divisor.ne_zero_of_rational? (hd : Divisor d) {r : ℚ} (h : d.rational? = some r) :
    r ≠ 0 := by
  obtain ⟨v, x, hx, h0⟩ := hd.nonzero
  rw [value_of_rational? h] at hx
  rw [Option.some.inj hx]
  exact h0

theorem fractionRule_outcome (hn : n.hasFraction = false) (hd : Divisor d) :
    ∃ e, fractionRule n d = .ok e ∧ FractionOutcome n d e := by
  unfold fractionRule
  rw [hd.isZero, if_neg Bool.false_ne_true]
  split_ifs with h0 h1 h2 h3
  · exact ⟨_, rfl, .zero h0⟩
  · exact ⟨_, rfl, .equal h1⟩
  · obtain rfl := eq_number_one_of_isOne h2
    exact ⟨_, rfl, .unit rfl⟩
  · subst h3
    exact ⟨_, rfl, .unit rfl⟩
  · cases hq : quotient? n d with
    | some r =>
      refine ⟨_, rfl, ?_⟩
      unfold quotient? at hq
      split at hq
      next s t hs ht =>
        split_ifs at hq
        obtain rfl := Option.some.inj hq
        obtain ⟨m, rfl⟩ := exists_int_of_rational? hn hs
        obtain ⟨k, rfl⟩ := exists_int_of_rational? hd.plain ht
        exact .constant hs ht
      · cases hq
    | none =>
      have hc : n.rational? = none ∨ d.rational? = none := by
        by_contra h
        obtain ⟨hn', hd'⟩ := not_or.mp h
        obtain ⟨r, hr⟩ := Option.ne_none_iff_exists'.mp hn'
        obtain ⟨s, hs⟩ := Option.ne_none_iff_exists'.mp hd'
        exact hd.ne_zero_of_rational? hs (quotient?_eq_none hq hr hs)
      refine ⟨_, rfl, ?_⟩
      cases hsigns : signOut? fraction n d with
      | some e =>
        have heq : fractionSigns n d = neg e := by unfold fractionSigns; rw [hsigns]
        rw [heq]
        exact .sign hc hsigns
      | none =>
        obtain ⟨hnn, hnd, hmn, hmd⟩ := signOut?_eq_none hsigns
        rw [fractionSigns_eq_cancelFactors hn hd.plain hsigns]
        have hne : d ≠ number 1 := fun h => h2 (by rw [h]; rfl)
        exact .cancel hc (unsigned_eq_self hnn hmn) (unsigned_eq_self hnd hmd) h1 hne

/-! ### Passes without fractions -/

theorem ProductOutcome.hasFraction (h : ProductOutcome a b X) (ha : a.hasFraction = false)
    (hb : b.hasFraction = false) : X.hasFraction = false := by
  cases h with
  | zero => rfl
  | unitLeft => rw [hasFraction_signed, hb]
  | unitRight => rw [hasFraction_signed, ha]
  | constant => rfl
  | sign h =>
    obtain ⟨x, y, rfl, ⟨hx, rfl⟩ | ⟨rfl, hy⟩⟩ := opposite_of_signOut? h
    · simp [Expr.hasFraction, hasFraction_of_unsigned hx.1 ha, hb]
    · simp [Expr.hasFraction, ha, hasFraction_of_unsigned hy.1 hb]
  | same => simp [Expr.hasFraction, ha, hb]

theorem hasFraction_negRule (he : e.hasFraction = false) : e.negRule.hasFraction = false :=
  hasFraction_of_unsigned (unsigned_negRule e) he

theorem hasFraction_sumRule (ha : a.hasFraction = false) (hb : b.hasFraction = false) :
    (sumRule a b).hasFraction = false := by
  have hsum : (sum a b).hasFraction = false := by simp [hasFraction, ha, hb]
  unfold sumRule
  split_ifs
  · exact hb
  · exact ha
  · split
    next r s hr hs =>
      obtain ⟨m, rfl⟩ := exists_int_of_rational? ha hr
      obtain ⟨k, rfl⟩ := exists_int_of_rational? hb hs
      rw [← Int.cast_add, ofRat_intCast]
      rfl
    · unfold sumSigns
      split
      · exact hsum
      · split_ifs
        · rfl
        · exact hsum
      · split_ifs
        · rfl
        · exact hsum
      · exact hsum

theorem hasFraction_simplifyStep : ∀ {e e' : Expr}, e.simplifyStep = .ok e' →
    e.hasFraction = false → e'.hasFraction = false
  | number _, _, h, _ | quantity _, _, h, _ => by cases h; rfl
  | neg e, _, h, he => by
    obtain ⟨x, hx, h⟩ := bind_eq_ok.mp h
    cases h
    exact hasFraction_negRule (hasFraction_simplifyStep hx he)
  | sum a b, _, h, he => by
    obtain ⟨ha, hb⟩ := Bool.or_eq_false_iff.mp he
    obtain ⟨x, hx, h⟩ := bind_eq_ok.mp h
    obtain ⟨y, hy, h⟩ := bind_eq_ok.mp h
    cases h
    exact hasFraction_sumRule (hasFraction_simplifyStep hx ha) (hasFraction_simplifyStep hy hb)
  | product a b, _, h, he => by
    obtain ⟨ha, hb⟩ := Bool.or_eq_false_iff.mp he
    obtain ⟨x, hx, h⟩ := bind_eq_ok.mp h
    obtain ⟨y, hy, h⟩ := bind_eq_ok.mp h
    cases h
    have hx := hasFraction_simplifyStep hx ha
    have hy := hasFraction_simplifyStep hy hb
    exact (productRule_outcome hx hy).hasFraction hx hy
  | fraction _ _, _, _, he => by cases he
  | term t, _, h, he => by
    cases h
    split_ifs
    · rfl
    · rfl
    · exact he
  | polynomial p, _, h, he => by
    cases h
    split
    · rfl
    · exact he

/-- A pass does not fail without fractions, and changes nothing of what the
expression simplifies to, with a sign in front or without. -/
theorem exists_simplifyStep (he : e.hasFraction = false) : ∃ e', e.simplifyStep = .ok e' ∧
    e'.hasFraction = false ∧ ∀ s, (signed s e').simplify = (signed s e).simplify := by
  obtain ⟨P, hP⟩ := exists_denote? he
  obtain ⟨e', hstep, -⟩ := simplifyStep_of_value (value_of_denote? (fun _ => 0) hP)
  refine ⟨e', hstep, hasFraction_simplifyStep hstep he, fun s => ?_⟩
  rw [simplify_signed, simplify_signed, simplify_of_step hstep]

theorem Divisor.simplifyStep {d' : Expr} (hd : Divisor d) (h : d.simplifyStep = .ok d') :
    Divisor d' := by
  obtain ⟨v, x, hx, h0⟩ := hd.nonzero
  obtain ⟨d'', hstep, hx'⟩ := simplifyStep_of_value hx
  rw [h] at hstep
  obtain rfl := Except.ok.inj hstep
  exact ⟨hasFraction_simplifyStep h hd.plain, v, x, hx', h0⟩

/-- Two divisors that are equal up to signs, after a pass over both. -/
theorem Divisor.exists_simplifyStep (hd : Divisor d) (h : b.unsigned = d.unsigned) :
    ∃ b' d', b.simplifyStep = .ok b' ∧ d.simplifyStep = .ok d' ∧ Divisor d' ∧
      b'.unsigned = d'.unsigned ∧
      (b'.isNegative ^^ d'.isNegative) = (b.isNegative ^^ d.isNegative) := by
  obtain ⟨b', hb, -⟩ := Expr.exists_simplifyStep (hd.of_unsigned h).plain
  obtain ⟨d', hd', -⟩ := Expr.exists_simplifyStep hd.plain
  have hdiv := hd.simplifyStep hd'
  obtain ⟨hunsigned, hsigns⟩ := unsigned_simplifyStep hb hd' h
  exact ⟨b', d', hb, hd', hdiv, hunsigned, hsigns hdiv.unsigned_ne_zero⟩

/-! ### Runs -/

/-- `X` simplifies as `a` does, or it is the negation of an expression that `R`
relates to the negation of `a`. -/
def Settles (R : Expr → Expr → Prop) (X a : Expr) : Prop :=
  X.simplify = a.simplify ∨ ∃ F b, X = neg F ∧ R F b ∧ (neg b).simplify = a.simplify

/-- **Settled by passes.** If a pass settles what `R` relates, then related
expressions have the same simplification: each round takes a sign out and leaves
something lighter. -/
theorem simplify_eq_of_settles {R : Expr → Expr → Prop}
    (hR : ∀ F b, R F b → ∃ X, F.simplifyStep = .ok X ∧ Settles R X b) {F b : Expr} (h : R F b) :
    F.simplify = b.simplify := by
  induction hr : F.rank using WellFoundedLT.induction generalizing F b with
  | ind r ih =>
    obtain ⟨X, hX, hsettles⟩ := hR F b h
    rw [simplify_of_step hX]
    rcases hsettles with hsame | ⟨G, c, rfl, hG, hc⟩
    · exact hsame
    · have hle : (neg G).rank ≤ r := by
        by_cases heq : neg G = F
        · rw [heq, hr]
        · exact hr ▸ (rank_lt_of_simplifyStep hX heq).le
      rw [simplify_neg, ih G.rank ((rank_lt_rank_neg G).trans_le hle) hG rfl, ← simplify_neg, hc]

theorem Settles.simplify_eq {R : Expr → Expr → Prop}
    (hR : ∀ F b, R F b → ∃ X, F.simplifyStep = .ok X ∧ Settles R X b) (h : Settles R X a) :
    X.simplify = a.simplify := by
  rcases h with hsame | ⟨F, b, rfl, hF, hb⟩
  · exact hsame
  · rw [simplify_neg, simplify_eq_of_settles hR hF, ← simplify_neg, hb]

theorem Settles.congr {R : Expr → Expr → Prop} (h : Settles R X a)
    (hab : a.simplify = b.simplify) : Settles R X b := by
  unfold Settles at *
  rwa [← hab]

theorem simplify_neg_signed (s : Bool) (e : Expr) :
    (neg (signed s e)).simplify = (signed (!s) e).simplify := by
  have h := simplify_signed_signed true s e
  rwa [Bool.true_xor] at h

theorem Opposite.simplify_signed (h : Opposite x a) (s : Bool) :
    (neg (signed s x)).simplify = (signed s a).simplify := by
  rw [simplify_neg_signed]
  exact simplify_signed_congr h.1 (by rw [h.2, Bool.not_xor_not])

/-- A rule that takes a sign out settles a relation between nodes and expressions
`c` that change sign with each operand. -/
theorem settles_of_signOut? {R : Expr → Expr → Prop} {node c : Expr → Expr → Expr}
    (h : signOut? node a b = some e)
    (hR : ∀ {x y}, x.unsigned = a.unsigned → y.unsigned = b.unsigned → R (node x y) (c x y))
    (hleft : ∀ {x}, Opposite x a → (neg (c x b)).simplify = (c a b).simplify)
    (hright : ∀ {y}, Opposite y b → (neg (c a y)).simplify = (c a b).simplify) :
    Settles R (neg e) (c a b) := by
  obtain ⟨x, y, rfl, ⟨hx, rfl⟩ | ⟨rfl, hy⟩⟩ := opposite_of_signOut? h
  · exact .inr ⟨_, _, rfl, hR hx.1 rfl, hleft hx⟩
  · exact .inr ⟨_, _, rfl, hR rfl hy.1, hright hy⟩

/-! ### Factors and divisors that are one up to signs -/

/-- A node whose right operand is one or minus one, and the left operand with the
sign. -/
inductive AtUnit (node : Expr → Expr → Expr) : Expr → Expr → Prop
  | intro {a b : Expr} (ha : a.hasFraction = false) (hb : b.unsigned = number 1) :
    AtUnit node (node a b) (signed b.isNegative a)

theorem divisor_of_unit (h : b.unsigned = number 1) : Divisor b := by
  have hone : Divisor (number 1) := ⟨rfl, fun _ => none, 1, congrArg some Int.cast_one, one_ne_zero⟩
  exact hone.of_unsigned h

theorem eq_of_unit {k : ℤ} (h : b.unsigned = number 1) (hk : b.rational? = some (k : ℚ)) :
    k = if b.isNegative then -1 else 1 := by
  have hone : (number 1).rational? = some ((1 : ℤ) : ℚ) := rfl
  have hk' := eq_of_unsigned (b := number 1) h.symm hone hk
  rwa [isNegative, decide_eq_false (by decide), Bool.false_xor] at hk'

theorem exists_simplifyStep_of_unit (h : b.unsigned = number 1) :
    ∃ b', b.simplifyStep = .ok b' ∧ b'.unsigned = number 1 ∧ b'.isNegative = b.isNegative := by
  obtain ⟨b', hb, -⟩ := exists_simplifyStep (divisor_of_unit h).plain
  obtain ⟨c, hc, hunsigned, hnegative⟩ := exists_simplifyStep_unsigned hb
  rw [h] at hc
  obtain rfl := Except.ok.inj hc
  exact ⟨b', hb, hunsigned, (hnegative (by decide)).trans (Bool.xor_false _)⟩

theorem settles_atUnit_of_signOut? {node : Expr → Expr → Expr} (h : signOut? node a b = some e)
    (ha : a.hasFraction = false) (hb : b.unsigned = number 1) :
    Settles (AtUnit node) (neg e) (signed b.isNegative a) := by
  refine settles_of_signOut? (c := fun x y => signed y.isNegative x) h
    (fun hx hy => .intro (hasFraction_of_unsigned hx ha) (hy.trans hb))
    (fun hx => hx.simplify_signed _) fun hy => ?_
  rw [simplify_neg_signed, hy.2, Bool.not_not]

/-- Passes over the operands leave the right one a unit, with the same sign. -/
theorem AtUnit.exists_simplifyStep {node : Expr → Expr → Expr} {F c : Expr}
    (hnode : ∀ {a b a' b' : Expr}, a.simplifyStep = .ok a' → b.simplifyStep = .ok b' →
      a'.hasFraction = false → b'.unsigned = number 1 →
      ∃ X, (node a b).simplifyStep = .ok X ∧ Settles (AtUnit node) X (signed b'.isNegative a'))
    (h : AtUnit node F c) : ∃ X, F.simplifyStep = .ok X ∧ Settles (AtUnit node) X c := by
  obtain ⟨ha, hb⟩ := h
  obtain ⟨a', hstep, ha', hsame⟩ := Expr.exists_simplifyStep ha
  obtain ⟨b', hstep', hb', hsign⟩ := exists_simplifyStep_of_unit hb
  obtain ⟨X, hX, hsettles⟩ := hnode hstep hstep' ha' hb'
  rw [hsign] at hsettles
  exact ⟨X, hX, hsettles.congr (hsame _)⟩

theorem ProductOutcome.settles_atUnit (h : ProductOutcome a b X) (ha : a.hasFraction = false)
    (hb : b.unsigned = number 1) : Settles (AtUnit product) X (signed b.isNegative a) := by
  cases h with
  | zero h =>
    rw [(divisor_of_unit hb).isZero] at h
    have ha0 : a.isZero := h.resolve_right Bool.false_ne_true
    exact .inl ((simplify_of_fixed rfl).trans (simplify_signed_of_isZero ha0 _).symm)
  | unitLeft h =>
    exact .inl (simplify_signed_congr (hb.trans h.symm) (Bool.xor_comm _ _))
  | unitRight => exact .inl rfl
  | @constant m k hm hk =>
    left
    rw [simplify_signed_of_rational? ha hm, simplify_of_fixed rfl, eq_of_unit hb hk]
    cases b.isNegative <;> simp
  | sign h => exact settles_atUnit_of_signOut? h ha hb
  | same hbare h1 => exact absurd (hbare.symm.trans hb) h1

theorem settles_product_atUnit {F c : Expr} (h : AtUnit product F c) :
    ∃ X, F.simplifyStep = .ok X ∧ Settles (AtUnit product) X c := by
  refine h.exists_simplifyStep fun hstep hstep' ha hb => ?_
  refine ⟨_, ?_, (productRule_outcome ha (divisor_of_unit hb).plain).settles_atUnit ha hb⟩
  rw [simplifyStep, hstep, hstep']
  rfl

/-- The quotient of two constants, if it is an integer. -/
theorem FractionOutcome.simplify_of_rational? {m k q : ℤ} (h : FractionOutcome n d X)
    (hn : n.hasFraction = false) (hd : Divisor d) (hm : n.rational? = some (m : ℚ))
    (hk : d.rational? = some (k : ℚ)) (hq : m = q * k) : X.simplify = .ok (number q) := by
  have hk0 : k ≠ 0 := by exact_mod_cast hd.ne_zero_of_rational? hk
  cases h with
  | zero h =>
    have hm0 : (0 : ℚ) = m := by
      have hvalue := value_of_isZero (v := fun _ => none) h
      rw [value_of_rational? hm] at hvalue
      exact (Option.some.inj hvalue).symm
    have hqk : q * k = 0 := by rw [← hq]; exact_mod_cast hm0.symm
    rw [(mul_eq_zero.mp hqk).resolve_right hk0]
    exact simplify_of_fixed rfl
  | equal h =>
    subst h
    have hmk : m = k := by exact_mod_cast Option.some.inj (hm.symm.trans hk)
    have hq1 : q = 1 := mul_right_cancel₀ hk0 (by rw [← hq, hmk, one_mul])
    rw [hq1]
    exact simplify_of_fixed rfl
  | unit h =>
    rw [simplify_signed_of_rational? hn hm, hq, eq_of_unit h hk]
    cases d.isNegative <;> simp
  | constant hm' hk' =>
    rw [hm, Option.some.injEq] at hm'
    rw [hk, Option.some.injEq] at hk'
    have hquotient : (m : ℚ) / k = q := by
      rw [hq, Int.cast_mul, mul_div_assoc, div_self (by exact_mod_cast hk0), mul_one]
    rw [← hm', ← hk', hquotient, ofRat_intCast]
    exact simplify_of_fixed rfl
  | sign hc => simp [hm, hk] at hc
  | cancel hc => simp [hm, hk] at hc

theorem FractionOutcome.settles_atUnit (h : FractionOutcome n d X) (hn : n.hasFraction = false)
    (hd : d.unsigned = number 1) : Settles (AtUnit fraction) X (signed d.isNegative n) := by
  cases h with
  | zero h => exact .inl ((simplify_of_fixed rfl).trans (simplify_signed_of_isZero h _).symm)
  | equal h =>
    subst h
    refine .inl (simplify_signed_congr (s := false) (a := number 1) hd.symm ?_)
    simp [isNegative]
  | unit => exact .inl rfl
  | @constant m k hm hk =>
    left
    rw [simplify_signed_of_rational? hn hm]
    refine (FractionOutcome.constant hm hk).simplify_of_rational? hn (divisor_of_unit hd) hm hk ?_
    rw [eq_of_unit hd hk]
    cases d.isNegative <;> simp
  | sign _ h => exact settles_atUnit_of_signOut? h hn hd
  | cancel _ _ hbare _ h1 => exact absurd (hbare.symm.trans hd) h1

theorem settles_fraction_atUnit {F c : Expr} (h : AtUnit fraction F c) :
    ∃ X, F.simplifyStep = .ok X ∧ Settles (AtUnit fraction) X c := by
  refine h.exists_simplifyStep fun hstep hstep' hn hd => ?_
  obtain ⟨X, hX, houtcome⟩ := fractionRule_outcome hn (divisor_of_unit hd)
  exact ⟨X, by rw [simplifyStep, hstep, hstep']; exact hX, houtcome.settles_atUnit hn hd⟩

/-! ### Equal operands up to signs -/

/-- A fraction of two operands that are equal up to signs, and one or minus one. -/
inductive OverAlike : Expr → Expr → Prop
  | intro {n d : Expr} (hd : Divisor d) (h : n.unsigned = d.unsigned) :
    OverAlike (fraction n d) (signed (n.isNegative ^^ d.isNegative) (number 1))

theorem FractionOutcome.settles_overAlike (h : FractionOutcome n d X) (hd : Divisor d)
    (hnd : n.unsigned = d.unsigned) :
    Settles OverAlike X (signed (n.isNegative ^^ d.isNegative) (number 1)) := by
  have hn := hd.of_unsigned hnd
  cases h with
  | zero h => rw [hn.isZero] at h; cases h
  | equal h => rw [h, Bool.xor_self]; exact .inl rfl
  | unit h =>
    refine .inl (simplify_signed_congr (hnd.trans h) ?_)
    rw [Bool.xor_comm]
    simp [isNegative]
  | @constant m k hm hk =>
    left
    have hone : (number 1).rational? = some ((1 : ℤ) : ℚ) := rfl
    rw [simplify_signed_of_rational? rfl hone]
    refine (FractionOutcome.constant hm hk).simplify_of_rational? hn.plain hd hm hk ?_
    rw [eq_of_unsigned hnd hm hk]
    split_ifs <;> ring
  | sign _ h =>
    refine settles_of_signOut? (c := fun x y => signed (x.isNegative ^^ y.isNegative) (number 1)) h
      (fun hx hy => .intro (hd.of_unsigned hy) (hx.trans (hnd.trans hy.symm))) (fun hx => ?_)
      fun hy => ?_
    · rw [simplify_neg_signed, hx.2, Bool.not_xor, Bool.not_not]
    · rw [simplify_neg_signed, hy.2, Bool.xor_not, Bool.not_not]
  | cancel _ hbare hbare' hne => exact absurd (hbare.symm.trans (hnd.trans hbare')) hne

theorem settles_overAlike {F c : Expr} (h : OverAlike F c) :
    ∃ X, F.simplifyStep = .ok X ∧ Settles OverAlike X c := by
  obtain ⟨hd, hnd⟩ := h
  obtain ⟨n', d', hstep, hstep', hd', hnd', hsigns⟩ := hd.exists_simplifyStep hnd
  obtain ⟨X, hX, houtcome⟩ := fractionRule_outcome (hd'.of_unsigned hnd').plain hd'
  have hsettles := houtcome.settles_overAlike hd' hnd'
  rw [hsigns] at hsettles
  exact ⟨X, by rw [simplifyStep, hstep, hstep']; exact hX, hsettles⟩

/-! ### A common factor up to signs -/

/-- A product over one of its factors, up to signs, and the other factor. -/
inductive TimesOver : Expr → Expr → Prop
  | intro {a b d : Expr} (ha : a.hasFraction = false) (hd : Divisor d)
    (h : b.unsigned = d.unsigned) :
    TimesOver (fraction (product a b) d) (signed (b.isNegative ^^ d.isNegative) a)

theorem weight_unsigned_le : ∀ e : Expr, e.unsigned.weight ≤ e.weight
  | number n => by
    have hmagnitude : (number n.natAbs).weight = 3 := weight_number_of_nonneg (by omega)
    rw [unsigned, hmagnitude]
    exact three_le_weight _
  | neg e => by
    have := weight_unsigned_le e
    simp only [unsigned, weight]
    omega
  | quantity _ | sum _ _ | product _ _ | fraction _ _ | term _ | polynomial _ => le_rfl

theorem unsigned_ne_product (a b : Expr) : b.unsigned ≠ product a b := by
  intro h
  have hle := weight_unsigned_le b
  have hmul := Nat.mul_le_mul_right b.weight (three_le_weight a)
  have hb := three_le_weight b
  rw [h, weight] at hle
  omega

/-- With a factor that is one up to signs, both rules do nothing but move signs. -/
theorem FractionOutcome.simplify_of_unit (h : FractionOutcome (productRule a b) d X)
    (ha : a.hasFraction = false) (hb : b.unsigned = number 1) (hd : d.unsigned = number 1) :
    X.simplify = (signed (b.isNegative ^^ d.isNegative) a).simplify := by
  have hplain := (divisor_of_unit hb).plain
  have houtcome := productRule_outcome ha hplain
  have hproduct := (houtcome.settles_atUnit ha hb).simplify_eq fun _ _ => settles_product_atUnit
  have hfraction := (h.settles_atUnit (houtcome.hasFraction ha hplain) hd).simplify_eq
    fun _ _ => settles_fraction_atUnit
  rw [hfraction, simplify_signed, hproduct, ← simplify_signed, simplify_signed_signed,
    Bool.xor_comm]

/-- A sign has left the product already, and now leaves the fraction. -/
theorem FractionOutcome.settles_of_neg (h : FractionOutcome (neg (product x y)) d X)
    (hd : Divisor d) (hd1 : d.unsigned ≠ number 1) (hx : x.hasFraction = false)
    (hy : y.unsigned = d.unsigned) :
    Settles TimesOver X (neg (signed (y.isNegative ^^ d.isNegative) x)) := by
  cases h with
  | zero h => cases h
  | equal h =>
    subst h
    exact absurd hy (unsigned_ne_product x y)
  | unit h => exact absurd h hd1
  | constant hm => cases hm
  | sign _ h =>
    cases h
    exact .inr ⟨_, _, rfl, .intro hx hd hy, rfl⟩
  | cancel _ hbare => cases hbare

/-- No sign leaves the product: the factors meet, or a sign leaves the divisor. -/
theorem FractionOutcome.settles_of_product (h : FractionOutcome (product a b) d X)
    (ha : a.hasFraction = false) (hd : Divisor d) (hd1 : d.unsigned ≠ number 1)
    (hbd : b.unsigned = d.unsigned) (hbare : b.unsigned = b) :
    Settles TimesOver X (signed (b.isNegative ^^ d.isNegative) a) := by
  cases h with
  | zero h => cases h
  | equal h =>
    subst h
    exact absurd hbd (unsigned_ne_product a b)
  | unit h => exact absurd h hd1
  | constant hm => cases hm
  | sign _ h =>
    obtain ⟨y, rfl, hy⟩ := exists_opposite_of_signOut? rfl rfl h
    refine .inr ⟨_, _, rfl, .intro ha (hd.of_unsigned hy.1) (hbd.trans hy.1.symm), ?_⟩
    rw [simplify_neg_signed, hy.2, Bool.xor_not, Bool.not_not]
  | cancel _ _ hbare' =>
    obtain rfl : b = d := hbare.symm.trans (hbd.trans hbare')
    left
    simp [cancelFactors, cofactor?, signed]

theorem settles_fractionRule (h : fractionRule (productRule a b) d = .ok X)
    (ha : a.hasFraction = false) (hd : Divisor d) (hbd : b.unsigned = d.unsigned) :
    Settles TimesOver X (signed (b.isNegative ^^ d.isNegative) a) := by
  have hb := hd.of_unsigned hbd
  have hproduct := productRule_outcome ha hb.plain
  obtain ⟨X', hX', houtcome⟩ := fractionRule_outcome (hproduct.hasFraction ha hb.plain) hd
  obtain rfl : X = X' := Except.ok.inj (h.symm.trans hX')
  by_cases hd1 : d.unsigned = number 1
  · exact .inl (houtcome.simplify_of_unit ha (hbd.trans hd1) hd1)
  generalize productRule a b = P at h hproduct houtcome
  cases hproduct with
  | zero h0 =>
    rw [hb.isZero] at h0
    have ha0 : a.isZero := h0.resolve_right Bool.false_ne_true
    have hzero : fractionRule (number 0) d = .ok (number 0) := by
      rw [fractionRule, hd.isZero, if_neg Bool.false_ne_true]
      rfl
    obtain rfl : X = number 0 := Except.ok.inj (h.symm.trans hzero)
    exact .inl ((simplify_of_fixed rfl).trans (simplify_signed_of_isZero ha0 _).symm)
  | unitLeft h1 =>
    have halike := houtcome.settles_overAlike hd ((unsigned_signed _ _).trans hbd)
    left
    rw [halike.simplify_eq fun _ _ => settles_overAlike, isNegative_signed]
    refine simplify_signed_congr h1.symm ?_
    cases a.isNegative <;> cases b.isNegative <;> cases d.isNegative <;> rfl
  | unitRight h1 => exact absurd (hbd.symm.trans h1) hd1
  | @constant m k hm hk =>
    left
    rw [simplify_signed_of_rational? ha hm]
    refine houtcome.simplify_of_rational? rfl hd rfl (rational?_of_unsigned hbd hk) ?_
    split_ifs <;> ring
  | sign hs =>
    obtain ⟨x, y, rfl, ⟨hx, rfl⟩ | ⟨rfl, hy⟩⟩ := opposite_of_signOut? hs
    · have hplain := hasFraction_of_unsigned hx.1 ha
      exact (houtcome.settles_of_neg hd hd1 hplain hbd).congr (hx.simplify_signed _)
    · refine (houtcome.settles_of_neg hd hd1 ha (hy.1.trans hbd)).congr ?_
      rw [simplify_neg_signed, hy.2, Bool.not_xor, Bool.not_not]
  | same hbare => exact houtcome.settles_of_product ha hd hd1 hbd hbare

theorem settles_timesOver {F c : Expr} (h : TimesOver F c) :
    ∃ X, F.simplifyStep = .ok X ∧ Settles TimesOver X c := by
  obtain ⟨ha, hd, hbd⟩ := h
  obtain ⟨a', hstep, ha', hsame⟩ := exists_simplifyStep ha
  obtain ⟨b', d', hstepb, hstepd, hd', hbd', hsigns⟩ := hd.exists_simplifyStep hbd
  obtain ⟨X, hX, -⟩ := fractionRule_outcome
    ((productRule_outcome ha' (hd'.of_unsigned hbd').plain).hasFraction ha'
      (hd'.of_unsigned hbd').plain) hd'
  have hsettles := settles_fractionRule hX ha' hd' hbd'
  rw [hsigns] at hsettles
  refine ⟨X, ?_, hsettles.congr (hsame _)⟩
  rw [simplifyStep, simplifyStep, hstep, hstepb, hstepd]
  exact hX

/-- **A common factor cancels**, also if it has other signs above than below. -/
theorem simplify_timesOver {F c : Expr} (h : TimesOver F c) : F.simplify = c.simplify :=
  simplify_eq_of_settles (fun _ _ => settles_timesOver) h

/-! ### There and back -/

theorem toFractional_of_plain : ∀ {e : Expr}, e.hasFraction = false →
    e.toFractional = .ok (.ofExpr e)
  | number _, _ | quantity _, _ => rfl
  | neg e, h => by
    rw [toFractional, toFractional_of_plain (e := e) h]
    rfl
  | sum a b, h | product a b, h => by
    obtain ⟨ha, hb⟩ := Bool.or_eq_false_iff.mp h
    rw [toFractional, toFractional_of_plain ha, toFractional_of_plain hb]
    rfl
  | fraction _ _, h => by cases h
  | term _, h | polynomial _, h => by
    rw [toFractional, if_pos (by simpa [hasFraction] using h)]

theorem singleFraction_of_divisor (he : e.hasFraction = false) (hf : Divisor f) :
    (product (fraction 1 f) (product e f)).singleFraction =
      .ok (fraction (product 1 (product e f)) f) := by
  have hfraction : (fraction 1 f).toFractional = .ok ⟨1, some f⟩ := by
    have hf0 : (Fractional.ofExpr f).num.isZero = false := hf.isZero
    rw [toFractional, toFractional_of_plain hf.plain]
    exact if_neg (by rw [hf0]; exact Bool.false_ne_true)
  have hproduct : (product e f).toFractional = .ok (.ofExpr (product e f)) :=
    toFractional_of_plain (by simp [hasFraction, he, hf.plain])
  have hall : (product (fraction 1 f) (product e f)).toFractional =
      .ok ⟨product 1 (product e f), some f⟩ := by
    rw [toFractional, hfraction, hproduct]
    rfl
  rw [singleFraction, hall]
  exact if_neg (by rw [hf.isZero]; exact Bool.false_ne_true)

theorem fractionRule_productRule_one (hd : d.isZero = false) :
    fractionRule (productRule 1 n) d = fractionRule n d := by
  by_cases hn : n.isZero
  · have hzero : productRule 1 n = number 0 := by
      rw [productRule, hn, Bool.or_true, if_pos rfl]
      rfl
    have h0 : (number 0).isZero = true := rfl
    rw [hzero, fractionRule, fractionRule, hd, hn, h0]
    rfl
  · have hsame : productRule 1 n = n := by
      rw [productRule, Bool.eq_false_iff.mpr hn]
      rfl
    rw [hsame]

/-- The factor one goes away in the first pass. -/
theorem simplifyStep_product_one (he : e.hasFraction = false) (hf : Divisor f) :
    (fraction (product 1 (product e f)) f).simplifyStep =
      (fraction (product e f) f).simplifyStep := by
  obtain ⟨e', hstep, -⟩ := exists_simplifyStep he
  obtain ⟨f', hstep', -⟩ := exists_simplifyStep hf.plain
  have hproduct : (product e f).simplifyStep = .ok (productRule e' f') := by
    rw [simplifyStep, hstep, hstep']
    rfl
  calc (fraction (product 1 (product e f)) f).simplifyStep
    _ = fractionRule (productRule 1 (productRule e' f')) f' := by
      rw [simplifyStep, simplifyStep, hproduct, hstep']
      rfl
    _ = fractionRule (productRule e' f') f' :=
      fractionRule_productRule_one (hf.simplifyStep hstep').isZero
    _ = (fraction (product e f) f).simplifyStep := by
      rw [simplifyStep, hproduct, hstep']
      rfl

/-- Multiplied out and not zero, so not zero everywhere. -/
theorem divisor_of_expand {p : Polynomial} (hp : f.expand = .ok p) (h0 : p.isZero = false) :
    Divisor f := by
  have hplain := hasFraction_of_expand hp
  refine ⟨hplain, ?_⟩
  by_contra hall
  have hzero : p.isZero := by
    refine Polynomial.isZero_of_forall_value_eq_zero (allPowers_of_expand hp)
      (fun _ => Set.infinite_univ) fun w _ => ?_
    obtain ⟨P, hP⟩ := exists_denote? hplain
    have hvalue := value_of_denote? w hP
    rw [not_not.mp fun h => hall ⟨_, _, hvalue, h⟩] at hvalue
    exact value_of_expand hp hvalue
  rw [h0] at hzero
  cases hzero

/-- **There and back.** Multiplied by an expression that is not zero everywhere and
divided by it, an expression can be brought to one fraction, whose parts have no
fractions; and that fraction simplifies to the very thing that the expression
simplifies to. -/
theorem singleFraction_roundTrip {e f : Expr} (he : e.hasFraction = false)
    (hf : f.hasFraction = false) (h0 : ∀ p, f.expand = .ok p → p.isZero = false) :
    ∃ r, (product (fraction 1 f) (product e f)).singleFraction = .ok r ∧
      r.numDen.1.hasFraction = false ∧ r.numDen.2.hasFraction = false ∧
      ∃ e', r.simplify = .ok e' ∧ e.simplify = .ok e' := by
  obtain ⟨p, hp, -⟩ := exists_expand hf
  have hdivisor := divisor_of_expand hp (h0 p hp)
  obtain ⟨P, hP⟩ := exists_denote? he
  obtain ⟨e', he', -⟩ := simplify_of_value (value_of_denote? (fun _ => 0) hP)
  obtain ⟨X, hX, -⟩ := settles_timesOver (.intro he hdivisor rfl)
  refine ⟨_, singleFraction_of_divisor he hdivisor, ?_, hf, e', ?_, he'⟩
  · simp [numDen, hasFraction, he, hf]
  · calc (fraction (product 1 (product e f)) f).simplify
      _ = X.simplify := simplify_of_step ((simplifyStep_product_one he hdivisor).trans hX)
      _ = (fraction (product e f) f).simplify := (simplify_of_step hX).symm
      _ = (signed (f.isNegative ^^ f.isNegative) e).simplify :=
        simplify_timesOver (.intro he hdivisor rfl)
      _ = .ok e' := by rw [Bool.xor_self]; exact he'

end Expr

namespace RoundTrip

open Untidy (x y)

/-- Two signs, which leave at different times. -/
def factor : Expr := .number (-2) * -(x - y)

def whole : Expr := -(x * (.number (-3) + y))

theorem isZero_expand_factor {p : Polynomial} (h : factor.expand = .ok p) : p.isZero = false := by
  have heval : factor.expand.toOption.map Sparse.isZero = some false := by rfl
  rw [h] at heval
  exact Option.some.inj heval

end RoundTrip

open RoundTrip in
theorem Expr.singleFraction_roundTrip_signs :
    whole.hasFraction = false ∧ factor.hasFraction = false ∧
    (∀ p, factor.expand = .ok p → p.isZero = false) ∧
    ∃ r, (product (fraction 1 factor) (product whole factor)).singleFraction = .ok r ∧
      r.numDen.1.hasFraction = false ∧ r.numDen.2.hasFraction = false ∧
      ∃ e', r.simplify = .ok e' ∧ whole.simplify = .ok e' :=
  ⟨rfl, rfl, fun _ => isZero_expand_factor,
    singleFraction_roundTrip rfl rfl fun _ => isZero_expand_factor⟩

end AreaMethod
