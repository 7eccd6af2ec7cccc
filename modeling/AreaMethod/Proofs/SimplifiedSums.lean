/-
# Simplified sums

What simplification makes of a sum, in terms of what it makes of the operands
(`Expr.sumsTo_sum`): the rule for sums applied to the simplified operands, up to
the side of the sum on which a common sign ends up. A pass can bring such a sign to
light and take it out while the operands are still being simplified, so the sum may
have one of two forms (`Expr.IsSumOf`). An operand that divides by zero makes the sum
do so too, unless the operands cancel before that.

The difference of two expressions and the difference the other way round are then
compared: without the negation in front they are equal just if the expressions are
interchangeable (`Expr.IsSumOf.bare_eq_iff`).

Key definitions: `Expr.IsSumOf`, `Expr.SumsTo`, `Expr.bare`, `Expr.Interchangeable`.
Key theorems: `Expr.fixed_sumRule`, `Expr.sumsTo_sum`, `Expr.IsSumOf.bare_eq_iff`.
-/
import Mathlib
import AreaMethod.Proofs.Signs

namespace AreaMethod
namespace Expr

variable {a b e x y : Expr} {r s : ℚ}

/-! ### Simplified constants -/

theorem eq_zero_of_isZero (h : e.Fixed) (h0 : e.isZero = true) : e = number 0 := by
  cases e with
  | number n => rw [show n = 0 by simpa [isZero] using h0]
  | polynomial p =>
    have hempty : p.entries = [] := List.isEmpty_iff.mp h0
    have hconstant : p.constant? = none := tidy_of_fixed h
    rw [Polynomial.constant?, hempty] at hconstant
    cases hconstant
  | _ => cases h0

theorem rational?_ofRat (r : ℚ) : (ofRat r).rational? = some r := by
  have hr : Rat.divInt r.num r.den = r := Rat.num_divInt_den r
  have hden : (r.den : ℤ) ≠ 0 := Int.natCast_ne_zero.mpr r.den_nz
  unfold ofRat
  split_ifs with hone hneg
  · rw [rational?, Rat.coe_int_num_of_den_eq_one hone]
  · rw [rational?, rational?, if_neg hden, Option.map_some, ← Rat.neg_divInt, neg_neg, hr]
  · rw [rational?, if_neg hden, hr]

theorem rational?_negRule (e : Expr) : e.negRule.rational? = e.rational?.map fun r => -r := by
  cases e with
  | number n => simp [negRule, rational?]
  | neg x => cases h : x.rational? <;> simp [negRule, rational?, h]
  | _ => rfl

theorem quotient?_number {k l : ℤ} (hl : l ≠ 0) :
    quotient? (number k) (number l) = some (Rat.divInt k l) := by
  simp only [quotient?, rational?]
  rw [if_neg (by exact_mod_cast hl), Rat.divInt_eq_div]

/-- A fraction in lowest terms stays as it is. -/
theorem fixed_lowestTerms (hden : r.den ≠ 1) (hnum : 0 ≤ r.num) :
    (fraction (number r.num) (number r.den)).Fixed := by
  have hquotient : quotient? (number r.num) (number r.den) = some r := by
    rw [quotient?_number (Int.natCast_ne_zero.mpr r.den_nz), Rat.num_divInt_den]
  have hnum0 : r.num ≠ 0 := fun h => hden (by rw [Rat.num_eq_zero.mp h]; rfl)
  have hsame : r.num ≠ r.den := by
    intro h
    have hcoprime := r.reduced
    rw [h, Int.natAbs_natCast, Nat.coprime_self] at hcoprime
    exact hden hcoprime
  have hpos := r.den_pos
  refine fixed_fraction.mpr ⟨rfl, rfl, ?_⟩
  unfold fractionRule
  rw [if_neg (by simp [isZero]), if_neg (by simpa [isZero] using hnum0),
    if_neg (by simpa using hsame), if_neg (by simpa [isOne] using hden),
    if_neg (by simp only [number.injEq]; omega), hquotient]
  simp only [ofRat, if_neg hden, if_neg (not_lt.mpr hnum)]

theorem fixed_ofRat (r : ℚ) : (ofRat r).Fixed := by
  unfold ofRat
  split_ifs with hone hneg
  · rfl
  · refine fixed_neg.mpr ⟨?_, rfl⟩
    have hfixed := fixed_lowestTerms (r := -r) (by rwa [Rat.neg_den]) (by rw [Rat.neg_num]; omega)
    rwa [Rat.neg_num, Rat.neg_den] at hfixed
  · exact fixed_lowestTerms hone (not_lt.mp hneg)

theorem negRule_ofRat (r : ℚ) : (ofRat r).negRule = ofRat (-r) := by
  simp only [ofRat, Rat.neg_den, Rat.neg_num, neg_neg, Left.neg_neg_iff]
  by_cases hone : r.den = 1
  · rw [if_pos hone, if_pos hone]
    rfl
  · have hnum : r.num ≠ 0 := fun h => hone (by rw [Rat.num_eq_zero.mp h]; rfl)
    rw [if_neg hone, if_neg hone]
    by_cases hneg : r.num < 0
    · rw [if_pos hneg, if_neg (not_lt.mpr hneg.le)]
      rfl
    · rw [if_neg hneg, if_pos (lt_of_le_of_ne (not_lt.mp hneg) hnum.symm)]
      rfl

/-- A constant that stays as it is is in lowest terms. -/
theorem eq_ofRat_of_fixed : ∀ {e : Expr} {r : ℚ}, e.Fixed → e.rational? = some r → e = ofRat r
  | number n, r, _, hr => by
    obtain rfl := Option.some.inj hr
    simp [ofRat]
  | fraction (number k) (number l), r, h, hr => by
    have hrule := (fixed_fraction.mp h).2.2
    simp only [rational?] at hr
    split_ifs at hr with hl
    obtain rfl := Option.some.inj hr
    unfold fractionRule at hrule
    split_ifs at hrule
    · cases hrule
    · cases hrule
    · cases hrule
    · cases hrule
    · rw [quotient?_number hl] at hrule
      exact (Except.ok.inj hrule).symm
  | neg x, r, h, hr => by
    obtain ⟨s, hs, rfl⟩ := Option.map_eq_some_iff.mp hr
    obtain ⟨hx, hrule⟩ := fixed_neg.mp h
    rw [← hrule, eq_ofRat_of_fixed hx hs, negRule_ofRat]

theorem simplify_number (n : ℤ) : (number n).simplify = .ok (ofRat n) := by
  rw [simplify_of_fixed rfl, ← eq_ofRat_of_fixed (e := number n) rfl rfl]

theorem simplify_fraction_number (k : ℤ) {l : ℤ} (hl : l ≠ 0) :
    (fraction (number k) (number l)).simplify = .ok (ofRat (Rat.divInt k l)) := by
  have hne : (l : ℚ) ≠ 0 := by exact_mod_cast hl
  suffices hrule : ∃ e, fractionRule (number k) (number l) = .ok e ∧
      e.simplify = .ok (ofRat (Rat.divInt k l)) by
    obtain ⟨e, he, hsimplify⟩ := hrule
    rw [simplify_of_step (e := fraction (number k) (number l)) he, hsimplify]
  unfold fractionRule
  split_ifs with hl0 hk0 hsame hone hminus
  · exact absurd (by simpa [isZero] using hl0) hl
  · refine ⟨0, rfl, ?_⟩
    rw [show k = 0 by simpa [isZero] using hk0, Rat.divInt_eq_div, Int.cast_zero, zero_div]
    exact simplify_number 0
  · refine ⟨1, rfl, ?_⟩
    rw [show k = l by simpa using hsame, Rat.divInt_eq_div, div_self hne]
    exact simplify_number 1
  · refine ⟨number k, rfl, ?_⟩
    rw [show l = 1 by simpa [isOne] using hone, Rat.divInt_one]
    exact simplify_number k
  · refine ⟨neg (number k), rfl, ?_⟩
    rw [number.inj hminus, simplify_neg, simplify_number]
    change Except.ok (ofRat k).negRule = _
    rw [negRule_ofRat, Rat.divInt_eq_div, Int.cast_neg, Int.cast_one, div_neg, div_one]
  · rw [quotient?_number hl]
    exact ⟨_, rfl, simplify_of_fixed (fixed_ofRat _)⟩

/-- A constant simplifies to its lowest terms. -/
theorem simplify_constant : ∀ {e : Expr} {r : ℚ}, e.rational? = some r → e.simplify = .ok (ofRat r)
  | number n, r, hr => by
    obtain rfl := Option.some.inj hr
    exact simplify_number n
  | fraction (number k) (number l), r, hr => by
    simp only [rational?] at hr
    split_ifs at hr with hl
    obtain rfl := Option.some.inj hr
    exact simplify_fraction_number k hl
  | neg x, r, hr => by
    obtain ⟨s, hs, rfl⟩ := Option.map_eq_some_iff.mp hr
    rw [simplify_neg, simplify_constant hs]
    exact congrArg Except.ok (negRule_ofRat s)

/-- The sum of two constants. -/
theorem sumRule_ofRat (r s : ℚ) : sumRule (ofRat r) (ofRat s) = ofRat (r + s) := by
  have hzero : ∀ {r : ℚ}, (ofRat r).isZero = true → r = 0 := by
    intro r h
    have hr := rational?_ofRat r
    rw [eq_zero_of_isZero (fixed_ofRat r) h] at hr
    exact (Option.some.inj hr).symm
  unfold sumRule
  split_ifs with hr hs
  · rw [hzero hr, zero_add]
  · rw [hzero hs, add_zero]
  · rw [rational?_ofRat, rational?_ofRat]

/-! ### Simplified sums -/

theorem ne_number (h : e.number? = none) (n : ℤ) : e ≠ number n := by
  rintro rfl
  cases h

theorem rational?_signed (odd : Bool) (e : Expr) :
    (signed odd e).rational? = none ↔ e.rational? = none := by
  cases odd with
  | false => rfl
  | true => exact Option.map_eq_none_iff

/-- An expression that stays as it is has at most one negation in front, and none in
front of a number. -/
theorem exists_signed_of_fixed (h : e.Fixed) : ∃ odd x, e = signed odd x ∧ x.Fixed ∧
    x.negated? = none ∧ (odd = true → x.number? = none) := by
  cases e with
  | neg x =>
    have htidy := tidy_of_fixed h
    exact ⟨true, x, rfl, (fixed_neg.mp h).1, htidy.1, fun _ => htidy.2⟩
  | _ => exact ⟨false, _, rfl, h, rfl, fun hodd => absurd hodd Bool.false_ne_true⟩

theorem sumSigns_signed (hx : x.negated? = none) (hy : y.negated? = none) (odd odd' : Bool) :
    sumSigns (signed odd x) (signed odd' y) =
      if odd = odd' then signed odd (sum x y)
      else if x = y then 0 else sum (signed odd x) (signed odd' y) := by
  cases odd <;> cases odd'
  · change sumSigns x y = sum x y
    unfold sumSigns
    split
    · cases hx
    · cases hy
    · cases hx
    · rfl
  · change sumSigns x (neg y) = if x = y then 0 else sum x (neg y)
    cases x with
    | neg x => cases hx
    | _ => rfl
  · change sumSigns (neg x) y = if x = y then 0 else sum (neg x) y
    cases y with
    | neg y => cases hy
    | _ => rfl
  · rfl

theorem sumRule_zero_right (ha : a.Fixed) : sumRule a (number 0) = a := by
  rw [sumRule]
  split_ifs with h0 hzero
  · exact (eq_zero_of_isZero ha h0).symm
  · rfl
  · exact absurd rfl hzero

theorem sumRule_eq_sumSigns (ha : ¬ a.isZero = true) (hb : ¬ b.isZero = true)
    (h : a.rational? = none ∨ b.rational? = none) : sumRule a b = sumSigns a b := by
  unfold sumRule
  rw [if_neg ha, if_neg hb]
  rcases h with h | h
  · rw [h]
  · rw [h]
    cases a.rational? <;> rfl

theorem exists_rational? (h : ¬ (a.rational? = none ∨ b.rational? = none)) :
    (∃ r, a.rational? = some r) ∧ ∃ s, b.rational? = some s := by
  obtain ⟨ha, hb⟩ := not_or.mp h
  exact ⟨Option.ne_none_iff_exists'.mp ha, Option.ne_none_iff_exists'.mp hb⟩

theorem sumRule_of_not_constant (ha : a.Fixed) (hb : b.Fixed) (ha0 : a ≠ number 0)
    (hb0 : b ≠ number 0) (h : a.rational? = none ∨ b.rational? = none) :
    sumRule a b = sumSigns a b :=
  sumRule_eq_sumSigns (fun h0 => ha0 (eq_zero_of_isZero ha h0))
    (fun h0 => hb0 (eq_zero_of_isZero hb h0)) h

theorem fixed_signed {odd : Bool} (h : x.Fixed) (hx : x.negated? = none)
    (hodd : odd = true → x.number? = none) : (signed odd x).Fixed := by
  cases odd with
  | false => exact h
  | true =>
    refine fixed_neg.mpr ⟨h, ?_⟩
    cases x with
    | number n => cases hodd rfl
    | neg x => cases hx
    | _ => rfl

theorem ne_zero_of_signed {odd : Bool} (hodd : odd = true → x.number? = none)
    (h : signed odd x ≠ number 0) : x ≠ number 0 := by
  rintro rfl
  cases odd with
  | false => exact h rfl
  | true => cases hodd rfl

/-- The rule for sums leaves nothing to do. -/
theorem fixed_sumRule (ha : a.Fixed) (hb : b.Fixed) : (sumRule a b).Fixed := by
  by_cases ha0 : a = number 0
  · rw [ha0]
    exact hb
  by_cases hb0 : b = number 0
  · rw [hb0, sumRule_zero_right ha]
    exact ha
  by_cases hconstant : a.rational? = none ∨ b.rational? = none
  · have hsum : ∀ {x y : Expr}, x.Fixed → y.Fixed → x ≠ number 0 → y ≠ number 0 →
        x.rational? = none ∨ y.rational? = none → sumSigns x y = sum x y → (sum x y).Fixed :=
      fun hx hy hx0 hy0 hxy heq => fixed_sum.mpr
        ⟨hx, hy, (sumRule_of_not_constant hx hy hx0 hy0 hxy).trans heq⟩
    rw [sumRule_of_not_constant ha hb ha0 hb0 hconstant]
    obtain ⟨odd, x, rfl, hx, hnx, hox⟩ := exists_signed_of_fixed ha
    obtain ⟨odd', y, rfl, hy, hny, hoy⟩ := exists_signed_of_fixed hb
    have heq := sumSigns_signed hnx hny odd odd'
    rw [heq]
    split_ifs at heq ⊢
    · refine fixed_signed (hsum hx hy ?_ ?_ ?_ (sumSigns_signed hnx hny false false)) rfl fun _ => rfl
      · exact ne_zero_of_signed hox ha0
      · exact ne_zero_of_signed hoy hb0
      · rwa [rational?_signed, rational?_signed] at hconstant
    · rfl
    · exact hsum ha hb ha0 hb0 hconstant heq
  · obtain ⟨⟨r, hr⟩, s, hs⟩ := exists_rational? hconstant
    rw [eq_ofRat_of_fixed ha hr, eq_ofRat_of_fixed hb hs, sumRule_ofRat]
    exact fixed_ofRat _

theorem negRule_ne_zero (h : e.Fixed) (h0 : e ≠ number 0) : e.negRule ≠ number 0 := by
  intro hrule
  rw [← negRule_negRule h, hrule] at h0
  exact h0 rfl

theorem number?_of_rational? (h : e.rational? = none) : e.number? = none := by
  cases e with
  | number n => cases h
  | _ => rfl

theorem negRule_signed (odd : Bool) (hx : x.negated? = none) (hn : x.number? = none) :
    (signed odd x).negRule = signed (!odd) x := by
  cases odd with
  | true => rfl
  | false =>
    cases x with
    | number n => cases hn
    | neg x => cases hx
    | _ => rfl

/-- Opposite expressions cancel. -/
theorem sumRule_negRule (h : e.Fixed) : sumRule e e.negRule = number 0 := by
  cases hr : e.rational? with
  | some r =>
    rw [eq_ofRat_of_fixed h hr, negRule_ofRat, sumRule_ofRat, add_neg_cancel]
    rfl
  | none =>
    have h0 : e ≠ number 0 := ne_number (number?_of_rational? hr) 0
    rw [sumRule_of_not_constant h (fixed_negRule h) h0 (negRule_ne_zero h h0) (.inl hr)]
    obtain ⟨odd, x, rfl, -, hx, -⟩ := exists_signed_of_fixed h
    have hn : x.number? = none := number?_of_rational? ((rational?_signed odd x).mp hr)
    rw [negRule_signed odd hx hn, sumSigns_signed hx hx, if_neg (by cases odd <;> decide), if_pos rfl]
    rfl

/-! ### Simplification of a sum -/

/-- A simplified sum of `a` and `b`. Which of two forms it has depends on the pass that
brought the signs of the operands to light. -/
def IsSumOf (e a b : Expr) : Prop :=
  e = sumRule a b ∨ e = (sumRule a.negRule b.negRule).negRule

theorem IsSumOf.negRule (ha : a.Fixed) (hb : b.Fixed) (h : e.IsSumOf a b) :
    e.negRule.IsSumOf a.negRule b.negRule := by
  rcases h with rfl | rfl
  · right
    rw [negRule_negRule ha, negRule_negRule hb]
  · left
    exact negRule_negRule (fixed_sumRule (fixed_negRule ha) (fixed_negRule hb))

/-- The passes come to an end without a division by zero. -/
def Simplifies (e : Expr) : Prop := ∃ x, e.simplify = .ok x

theorem not_simplifies_of_error {f : Fault} (h : e.simplifyStep = .error f) : ¬ e.Simplifies := by
  rintro ⟨x, hx⟩
  rw [simplify_of_error h] at hx
  cases hx

theorem simplify_neg_of_simplify (h : e.simplify = .ok x) : (neg e).simplify = .ok x.negRule := by
  rw [simplify_neg, h]
  rfl

theorem simplify_of_simplify_neg (h : (neg e).simplify = .ok x) : e.simplify = .ok x.negRule := by
  rw [← map_negRule_map_negRule, ← simplify_neg, h]
  rfl

theorem simplifies_neg : (neg e).Simplifies ↔ e.Simplifies := by
  constructor
  · rintro ⟨x, hx⟩
    exact ⟨x.negRule, simplify_of_simplify_neg hx⟩
  · rintro ⟨x, hx⟩
    exact ⟨x.negRule, simplify_neg_of_simplify hx⟩

theorem simplify_of_isZero (h : e.isZero = true) : e.simplify = .ok (number 0) := by
  cases e with
  | number n => rw [show n = 0 by simpa [isZero] using h, simplify_of_fixed rfl]
  | polynomial p =>
    have hconstant : p.constant? = some 0 := by
      rw [Polynomial.constant?, List.isEmpty_iff.mp h]
    have hstep : (polynomial p).simplifyStep = .ok (number 0) := by
      rw [simplifyStep, hconstant]
    rw [simplify_of_step hstep, simplify_of_fixed rfl]
  | _ => cases h

theorem sumSigns_cases (a b : Expr) :
    (∃ x y, a = neg x ∧ b = neg y ∧ sumSigns a b = neg (sum x y)) ∨
      (a = neg b ∨ b = neg a) ∧ sumSigns a b = number 0 ∨ sumSigns a b = sum a b := by
  unfold sumSigns
  split
  · exact .inl ⟨_, _, rfl, rfl, rfl⟩
  · split_ifs with h
    · exact .inr (.inl ⟨.inr (h ▸ rfl), rfl⟩)
    · exact .inr (.inr rfl)
  · split_ifs with h
    · exact .inr (.inl ⟨.inl (h ▸ rfl), rfl⟩)
    · exact .inr (.inr rfl)
  · exact .inr (.inr rfl)

/-- What simplification makes of a sum, from what it makes of the operands. -/
structure SumsTo (a b e : Expr) : Prop where
  value {x y : Expr} : a.simplify = .ok x → b.simplify = .ok y →
    ∃ z, e.simplify = .ok z ∧ z.IsSumOf x y
  zero : ¬ (a.Simplifies ∧ b.Simplifies) → e.Simplifies → e.simplify = .ok (number 0)

theorem SumsTo.of_simplify {a' b' e' : Expr} (h : SumsTo a' b' e') (ha : a.simplify = a'.simplify)
    (hb : b.simplify = b'.simplify) (he : e.simplify = e'.simplify) : SumsTo a b e where
  value hx hy := by
    rw [he]
    exact h.value (ha ▸ hx) (hb ▸ hy)
  zero hfail hs := by
    rw [Simplifies, Simplifies, ha, hb] at hfail
    rw [Simplifies, he] at hs
    rw [he]
    exact h.zero hfail hs

theorem SumsTo.neg (h : SumsTo x y e) : SumsTo (neg x) (neg y) (neg e) where
  value ha hb := by
    have hfa := fixed_of_simplify ha
    have hfb := fixed_of_simplify hb
    obtain ⟨z, hz, hsum⟩ := h.value (simplify_of_simplify_neg ha) (simplify_of_simplify_neg hb)
    have hsum := hsum.negRule (fixed_negRule hfa) (fixed_negRule hfb)
    rw [negRule_negRule hfa, negRule_negRule hfb] at hsum
    exact ⟨z.negRule, simplify_neg_of_simplify hz, hsum⟩
  zero hfail he := by
    rw [simplifies_neg, simplifies_neg] at hfail
    exact simplify_neg_of_simplify (h.zero hfail (simplifies_neg.mp he))

/-- An operand that cannot be simplified, and a sum that cannot. -/
theorem sumsTo_of_not_simplifies (hside : ¬ (a.Simplifies ∧ b.Simplifies)) (he : ¬ e.Simplifies) :
    SumsTo a b e where
  value {x y} ha hb := absurd ⟨⟨x, ha⟩, y, hb⟩ hside
  zero _ hs := absurd hs he

/-- A vanishing operand. -/
theorem sumsTo_of_isZero_left (h : a.isZero = true) : SumsTo a b b where
  value {x y} ha hb := by
    rw [simplify_of_isZero h] at ha
    obtain rfl := Except.ok.inj ha
    exact ⟨y, hb, .inl rfl⟩
  zero hfail hb := absurd ⟨⟨_, simplify_of_isZero h⟩, hb⟩ hfail

theorem sumsTo_of_isZero_right (h : b.isZero = true) : SumsTo a b a where
  value {x y} ha hb := by
    rw [simplify_of_isZero h] at hb
    obtain rfl := Except.ok.inj hb
    exact ⟨x, ha, .inl (sumRule_zero_right (fixed_of_simplify ha)).symm⟩
  zero hfail ha := absurd ⟨ha, ⟨_, simplify_of_isZero h⟩⟩ hfail

theorem sumsTo_ofRat (hr : a.rational? = some r) (hs : b.rational? = some s) :
    SumsTo a b (ofRat (r + s)) where
  value {x y} ha hb := by
    rw [simplify_constant hr] at ha
    rw [simplify_constant hs] at hb
    obtain rfl := Except.ok.inj ha
    obtain rfl := Except.ok.inj hb
    exact ⟨_, simplify_of_fixed (fixed_ofRat _), .inl (sumRule_ofRat r s).symm⟩
  zero hfail _ := absurd ⟨⟨_, simplify_constant hr⟩, ⟨_, simplify_constant hs⟩⟩ hfail

/-- Operands that cancel. -/
theorem sumsTo_zero (h : a = neg b ∨ b = neg a) : SumsTo a b (number 0) where
  value {x y} ha hb := by
    have hxy : y = x.negRule := by
      rcases h with rfl | rfl
      · exact Except.ok.inj (hb.symm.trans (simplify_of_simplify_neg ha))
      · rw [simplify_neg, ha] at hb
        exact (Except.ok.inj hb).symm
    refine ⟨number 0, simplify_of_fixed rfl, .inl ?_⟩
    rw [hxy, sumRule_negRule (fixed_of_simplify ha)]
  zero _ _ := simplify_of_fixed rfl

theorem sumsTo_sumRule (h : sumRule a b = sumSigns a b → SumsTo a b (sumSigns a b)) :
    SumsTo a b (sumRule a b) := by
  by_cases ha : a.isZero = true
  · rw [sumRule, if_pos ha]
    exact sumsTo_of_isZero_left ha
  by_cases hb : b.isZero = true
  · rw [sumRule, if_neg ha, if_pos hb]
    exact sumsTo_of_isZero_right hb
  by_cases hconstant : a.rational? = none ∨ b.rational? = none
  · have hsigns := sumRule_eq_sumSigns ha hb hconstant
    rw [hsigns]
    exact h hsigns
  · obtain ⟨⟨r, hr⟩, s, hs⟩ := exists_rational? hconstant
    rw [sumRule, if_neg ha, if_neg hb, hr, hs]
    exact sumsTo_ofRat hr hs

theorem sumsTo_of_fixed (h : (sum a b).Fixed) : SumsTo a b (sum a b) where
  value {x y} ha hb := by
    obtain ⟨hfa, hfb, hrule⟩ := fixed_sum.mp h
    rw [simplify_of_fixed hfa] at ha
    rw [simplify_of_fixed hfb] at hb
    obtain rfl := Except.ok.inj ha
    obtain rfl := Except.ok.inj hb
    exact ⟨_, simplify_of_fixed h, .inl hrule.symm⟩
  zero hfail _ := by
    obtain ⟨hfa, hfb, -⟩ := fixed_sum.mp h
    exact absurd ⟨⟨a, simplify_of_fixed hfa⟩, ⟨b, simplify_of_fixed hfb⟩⟩ hfail

/-- **Simplification of a sum.** -/
theorem sumsTo_sum (a b : Expr) : SumsTo a b (sum a b) := by
  induction hr : (sum a b).rank using WellFoundedLT.induction generalizing a b with
  | ind r ih =>
    cases ha : a.simplifyStep with
    | error f =>
      refine sumsTo_of_not_simplifies (fun h => not_simplifies_of_error ha h.1) ?_
      exact not_simplifies_of_error (f := f) (by rw [simplifyStep, ha]; rfl)
    | ok a' =>
      cases hb : b.simplifyStep with
      | error f =>
        refine sumsTo_of_not_simplifies (fun h => not_simplifies_of_error hb h.2) ?_
        exact not_simplifies_of_error (f := f) (by rw [simplifyStep, ha, hb]; rfl)
      | ok b' =>
        have hstep : (sum a b).simplifyStep = .ok (sumRule a' b') := by rw [simplifyStep, ha, hb]; rfl
        by_cases heq : sumRule a' b' = sum a b
        · exact sumsTo_of_fixed (hstep.trans (congrArg Except.ok heq))
        have hlt : (sumRule a' b').rank < r := hr ▸ rank_lt_of_simplifyStep hstep heq
        refine .of_simplify (sumsTo_sumRule fun hrule => ?_) (simplify_of_step ha) (simplify_of_step hb)
          (simplify_of_step hstep)
        rw [hrule] at hlt
        rcases sumSigns_cases a' b' with ⟨x, y, rfl, rfl, hsigns⟩ | ⟨hcancel, hsigns⟩ | hsigns
        · rw [hsigns] at hlt ⊢
          exact (ih _ ((rank_lt_rank_neg _).trans hlt) x y rfl).neg
        · rw [hsigns]
          exact sumsTo_zero hcancel
        · rw [hsigns] at hlt ⊢
          exact ih _ hlt a' b' rfl

/-! ### Differences either way round -/

/-- The expression without the negation in front. -/
def bare (e : Expr) : Expr := e.negated?.getD e

/-- What is needed of two simplified expressions for their difference to be the same,
up to a negation in front, either way round. -/
def Interchangeable (a b : Expr) : Prop :=
  (∀ r s, a.rational? = some r → b.rational? = some s → r = s ∨ (r - s).den ≠ 1) ∧
    (a.rational? = none ∨ b.rational? = none → a = number 0 ∨ b = number 0 ∨ a = b ∨ a = b.negRule)

theorem bare_eq_self (h : e.negated? = none) : e.bare = e := by
  rw [bare, h, Option.getD_none]

theorem bare_signed (odd : Bool) (hx : x.negated? = none) : (signed odd x).bare = x := by
  cases odd with
  | false => exact bare_eq_self hx
  | true => rfl

theorem bare_negRule (h : e.Fixed) (hn : e.number? = none) : e.negRule.bare = e.bare := by
  cases e with
  | number n => cases hn
  | neg x => exact bare_eq_self (tidy_of_fixed h).1
  | _ => rfl

theorem bare_ofRat_neg (r : ℚ) : (ofRat r).bare = (ofRat (-r)).bare ↔ r = 0 ∨ r.den ≠ 1 := by
  by_cases hden : r.den = 1
  · have hbare : ∀ n : ℤ, (number n).bare = number n := fun _ => rfl
    have hneg : r.num = -r.num ↔ r = 0 := by rw [← Rat.num_eq_zero]; omega
    simp [ofRat, hden, hbare, hneg]
  · have hn : (ofRat r).number? = none := by
      simp only [ofRat, if_neg hden]
      split_ifs <;> rfl
    rw [← negRule_ofRat, bare_negRule (fixed_ofRat r) hn]
    simp [hden]

theorem IsSumOf.eq_right (hb : b.Fixed) (h : e.IsSumOf (number 0) b) : e = b := by
  rcases h with rfl | rfl
  · rfl
  · exact negRule_negRule hb

theorem IsSumOf.eq_left (ha : a.Fixed) (h : e.IsSumOf a (number 0)) : e = a := by
  rcases h with rfl | rfl
  · exact sumRule_zero_right ha
  · change (sumRule a.negRule (number 0)).negRule = a
    rw [sumRule_zero_right (fixed_negRule ha), negRule_negRule ha]

theorem IsSumOf.eq_zero (ha : a.Fixed) (h : e.IsSumOf a a.negRule) : e = number 0 := by
  rcases h with rfl | rfl
  · exact sumRule_negRule ha
  · rw [sumRule_negRule (fixed_negRule ha)]
    rfl

theorem IsSumOf.eq_ofRat (h : e.IsSumOf (ofRat r) (ofRat s)) : e = ofRat (r + s) := by
  rcases h with rfl | rfl
  · exact sumRule_ofRat r s
  · rw [negRule_ofRat, negRule_ofRat, sumRule_ofRat, negRule_ofRat, neg_add, neg_neg, neg_neg]

/-- The sum of an expression with itself. -/
theorem bare_sumRule_self (ha : a.Fixed) (hr : a.rational? = none) :
    (sumRule a a).bare = sum a.bare a.bare ∧ (sumRule a a).number? = none := by
  have h0 : a ≠ number 0 := ne_number (number?_of_rational? hr) 0
  rw [sumRule_of_not_constant ha ha h0 h0 (.inl hr)]
  obtain ⟨odd, x, rfl, -, hx, -⟩ := exists_signed_of_fixed ha
  rw [sumSigns_signed hx hx, if_pos rfl, bare_signed odd rfl, bare_signed odd hx]
  cases odd <;> exact ⟨rfl, rfl⟩

theorem IsSumOf.bare_self (ha : a.Fixed) (hr : a.rational? = none) (h : e.IsSumOf a a) :
    e.bare = sum a.bare a.bare := by
  rcases h with rfl | rfl
  · exact (bare_sumRule_self ha hr).1
  · have hna := fixed_negRule ha
    obtain ⟨hbare, hnumber⟩ := bare_sumRule_self hna (by rw [rational?_negRule, hr]; rfl)
    rw [bare_negRule (fixed_sumRule hna hna) hnumber, hbare, bare_negRule ha (number?_of_rational? hr)]

/-- A sum that stays a sum shows its operands, up to their signs, in their order. -/
theorem exists_bare_sumRule (ha : a.Fixed) (hb : b.Fixed) (ha0 : a ≠ number 0) (hb0 : b ≠ number 0)
    (hconstant : a.rational? = none ∨ b.rational? = none) (hne : a ≠ b.negRule) :
    ∃ p q, (sumRule a b).bare = sum p q ∧ (sumRule a b).number? = none ∧
      p.unsigned = a.unsigned ∧ q.unsigned = b.unsigned := by
  rw [sumRule_of_not_constant ha hb ha0 hb0 hconstant]
  rcases sumSigns_cases a b with ⟨x, y, rfl, rfl, hsigns⟩ | ⟨hcancel, -⟩ | hsigns
  · rw [hsigns]
    exact ⟨x, y, rfl, rfl, rfl, rfl⟩
  · refine absurd ?_ hne
    rcases hcancel with rfl | rfl
    · exact (fixed_neg.mp ha).2.symm
    · rfl
  · rw [hsigns]
    exact ⟨a, b, rfl, rfl, rfl, rfl⟩

theorem IsSumOf.exists_bare (ha : a.Fixed) (hb : b.Fixed) (ha0 : a ≠ number 0) (hb0 : b ≠ number 0)
    (hconstant : a.rational? = none ∨ b.rational? = none) (hne : a ≠ b.negRule) (h : e.IsSumOf a b) :
    ∃ p q, e.bare = sum p q ∧ p.unsigned = a.unsigned ∧ q.unsigned = b.unsigned := by
  rcases h with rfl | rfl
  · obtain ⟨p, q, hbare, -, hp, hq⟩ := exists_bare_sumRule ha hb ha0 hb0 hconstant hne
    exact ⟨p, q, hbare, hp, hq⟩
  · have hna := fixed_negRule ha
    have hnb := fixed_negRule hb
    obtain ⟨p, q, hbare, hnumber, hp, hq⟩ := exists_bare_sumRule hna hnb (negRule_ne_zero ha ha0)
      (negRule_ne_zero hb hb0) (by simpa [rational?_negRule] using hconstant)
      (fun heq => hne (by rw [← negRule_negRule ha, heq, negRule_negRule hb]))
    exact ⟨p, q, (bare_negRule (fixed_sumRule hna hnb) hnumber).trans hbare,
      hp.trans (unsigned_negRule a), hq.trans (unsigned_negRule b)⟩

theorem unsigned_of_plain (hx : x.negated? = none) (hn : x.number? = none) : x.unsigned = x := by
  cases x with
  | number n => cases hn
  | neg x => cases hx
  | _ => rfl

/-- An expression that stays as it is is known by its sign and what is left without it. -/
theorem eq_or_eq_negRule (ha : a.Fixed) (hb : b.Fixed) (h : a.unsigned = b.unsigned) :
    a = b ∨ a = b.negRule := by
  obtain ⟨odd, x, rfl, -, hx, hox⟩ := exists_signed_of_fixed ha
  obtain ⟨odd', y, rfl, -, hy, hoy⟩ := exists_signed_of_fixed hb
  have hxy : x.unsigned = y.unsigned := by
    cases odd <;> cases odd' <;> exact h
  cases hn : x.number? with
  | some n =>
    obtain rfl := eq_number_of_number? hn
    obtain rfl : odd = false := Bool.eq_false_iff.mpr fun hodd => by cases hox hodd
    cases y with
    | number m =>
      obtain rfl : odd' = false := Bool.eq_false_iff.mpr fun hodd => by cases hoy hodd
      have habs : (n.natAbs : ℤ) = m.natAbs := number.inj hxy
      rcases Int.natAbs_eq_natAbs_iff.mp (Int.ofNat.inj habs) with rfl | rfl
      · exact .inl rfl
      · exact .inr rfl
    | neg y => cases hy
    | _ => cases hxy
  | none =>
    rw [unsigned_of_plain hx hn] at hxy
    have hny : y.number? = none := by
      cases y with
      | number m => exact absurd hxy (ne_number hn _)
      | _ => rfl
    rw [unsigned_of_plain hy hny] at hxy
    subst hxy
    rw [negRule_signed odd' hx hn]
    cases odd <;> cases odd' <;> simp

theorem interchangeable_of_constant (hr : a.rational? = some r) (hs : b.rational? = some s) :
    Interchangeable a b ↔ r = s ∨ (r - s).den ≠ 1 := by
  simp [Interchangeable, hr, hs]

theorem interchangeable_of_not_constant (h : a.rational? = none ∨ b.rational? = none) :
    Interchangeable a b ↔ a = number 0 ∨ b = number 0 ∨ a = b ∨ a = b.negRule := by
  refine ⟨fun hab => hab.2 h, fun hab => ⟨fun r s hr hs => ?_, fun _ => hab⟩⟩
  simp [hr, hs] at h

/-- Differences that stay sums begin with different operands. -/
theorem IsSumOf.unsigned_eq {e' : Expr} (ha : a.Fixed) (hb : b.Fixed) (ha0 : a ≠ number 0)
    (hb0 : b ≠ number 0) (hconstant : a.rational? = none ∨ b.rational? = none) (hne : a ≠ b)
    (h : e.IsSumOf a b.negRule) (h' : e'.IsSumOf b a.negRule) (hbare : e.bare = e'.bare) :
    a.unsigned = b.unsigned := by
  obtain ⟨p, q, hpq, hp, -⟩ := h.exists_bare ha (fixed_negRule hb) ha0 (negRule_ne_zero hb hb0)
    (by simpa [rational?_negRule] using hconstant) (by rwa [negRule_negRule hb])
  obtain ⟨p', q', hpq', hp', -⟩ := h'.exists_bare hb (fixed_negRule ha) hb0 (negRule_ne_zero ha ha0)
    (by simpa [rational?_negRule, or_comm] using hconstant) (by rw [negRule_negRule ha]; exact hne.symm)
  rw [hpq, hpq'] at hbare
  rw [← hp, ← hp', (sum.inj hbare).1]

/-- **The difference of two simplified expressions** shows which of them came first,
unless they are interchangeable. -/
theorem IsSumOf.bare_eq_iff {e' : Expr} (ha : a.Fixed) (hb : b.Fixed) (h : e.IsSumOf a b.negRule)
    (h' : e'.IsSumOf b a.negRule) : e.bare = e'.bare ↔ Interchangeable a b := by
  by_cases hconstant : a.rational? = none ∨ b.rational? = none
  · rw [interchangeable_of_not_constant hconstant]
    by_cases ha0 : a = number 0
    · subst ha0
      have hn : b.number? = none := number?_of_rational? (hconstant.resolve_left (by simp [rational?]))
      rw [h.eq_right (fixed_negRule hb), IsSumOf.eq_left hb h', bare_negRule hb hn]
      exact iff_of_true rfl (.inl rfl)
    by_cases hb0 : b = number 0
    · subst hb0
      have hn : a.number? = none := number?_of_rational? (hconstant.resolve_right (by simp [rational?]))
      rw [IsSumOf.eq_left ha h, h'.eq_right (fixed_negRule ha), bare_negRule ha hn]
      exact iff_of_true rfl (.inr (.inl rfl))
    by_cases hsame : a = b
    · subst hsame
      rw [h.eq_zero ha, h'.eq_zero ha]
      exact iff_of_true rfl (.inr (.inr (.inl rfl)))
    by_cases hopposite : a = b.negRule
    · subst hopposite
      have hr : b.rational? = none := by simpa [rational?_negRule] using hconstant
      rw [negRule_negRule hb] at h'
      rw [h.bare_self ha (by rw [rational?_negRule, hr]; rfl), h'.bare_self hb hr,
        bare_negRule hb (number?_of_rational? hr)]
      exact iff_of_true rfl (.inr (.inr (.inr rfl)))
    refine iff_of_false (fun hbare => ?_) (by simp [ha0, hb0, hsame, hopposite])
    have hunsigned := h.unsigned_eq ha hb ha0 hb0 hconstant hsame h' hbare
    exact (eq_or_eq_negRule ha hb hunsigned).elim hsame hopposite
  · obtain ⟨⟨r, hr⟩, s, hs⟩ := exists_rational? hconstant
    rw [eq_ofRat_of_fixed ha hr, eq_ofRat_of_fixed hb hs, negRule_ofRat] at h h'
    rw [interchangeable_of_constant hr hs, h.eq_ofRat, h'.eq_ofRat, ← sub_eq_add_neg, ← sub_eq_add_neg,
      ← neg_sub r s, bare_ofRat_neg, sub_eq_zero]

end Expr

end AreaMethod
