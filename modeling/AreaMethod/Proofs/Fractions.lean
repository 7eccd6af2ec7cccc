/-
# One fraction, multiplied out

Bringing an expression with a value to one fraction does not fail, and the
fraction has the same value (`Expr.singleFraction_of_value`). Its numerator
and denominator are plain: they have no fraction inside and only quantities of
the expression (`Expr.plain_singleFraction`). Plain expressions can be
multiplied out, into a polynomial with positive exponents only and with the
same value (`Expr.expand_of_plain`). An expression that cannot be brought to one
fraction has no value anywhere (`Expr.singleFraction_faithful`).

Key definitions: `Fractional.Stands`, `Expr.Plain`, `Expr.Single`.
Key theorems: `Expr.singleFraction_of_value`, `Expr.plain_singleFraction`,
`Expr.expand_of_plain`, `Expr.value_of_expand`, `Expr.singleFraction_faithful`.
-/
import Mathlib
import AreaMethod.Expr.Expansion
import AreaMethod.Expr.SingleFraction
import AreaMethod.Proofs.PolynomialValue
import AreaMethod.Proofs.Simplification

namespace AreaMethod

/-! ### Values of a numerator over a denominator -/

namespace Fractional

variable {v : Reading} {x y : Fractional} {r s : ℚ}

/-- The value of a denominator, which is one if absent. -/
def denValue (v : Reading) : Option Expr → Option ℚ
  | none => some 1
  | some d => d.value v

/-- The numerator over the denominator, which is not zero, is `r`. -/
def Stands (v : Reading) (x : Fractional) (r : ℚ) : Prop :=
  ∃ n d, x.num.value v = some n ∧ denValue v x.den? = some d ∧ d ≠ 0 ∧ n / d = r

theorem stands_ofExpr {e : Expr} (h : e.value v = some r) : (ofExpr e).Stands v r :=
  ⟨r, 1, h, rfl, one_ne_zero, div_one r⟩

theorem stands_neg (h : x.Stands v r) : x.neg.Stands v (-r) := by
  obtain ⟨n, d, hn, hd, h0, rfl⟩ := h
  exact ⟨-n, d, Expr.value_neg_eq_some.mpr ⟨n, hn, rfl⟩, hd, h0, neg_div d n⟩

theorem value_scale {e : Expr} {d? : Option Expr} (he : e.value v = some r)
    (hd : denValue v d? = some s) : (scale e d?).value v = some (r * s) := by
  cases d? with
  | none =>
    cases hd
    rw [mul_one]
    exact he
  | some d => exact Expr.value_product he hd

theorem denValue_mulDen {c? d? : Option Expr} (hc : denValue v c? = some r)
    (hd : denValue v d? = some s) : denValue v (mulDen c? d?) = some (r * s) := by
  cases c? with
  | none => cases hc; rw [one_mul]; exact hd
  | some c =>
    cases d? with
    | none => cases hd; rw [mul_one]; exact hc
    | some d => exact Expr.value_product hc hd

theorem stands_mul (hx : x.Stands v r) (hy : y.Stands v s) : (x.mul y).Stands v (r * s) := by
  obtain ⟨n, d, hn, hd, h0, rfl⟩ := hx
  obtain ⟨m, c, hm, hc, h0', rfl⟩ := hy
  exact ⟨n * m, d * c, Expr.value_product hn hm, denValue_mulDen hd hc, mul_ne_zero h0 h0',
    (div_mul_div_comm n d m c).symm⟩

theorem stands_div (hx : x.Stands v r) (hy : y.Stands v s) (hs : s ≠ 0) :
    (x.div y).Stands v (r / s) := by
  obtain ⟨n, d, hn, hd, h0, rfl⟩ := hx
  obtain ⟨m, c, hm, hc, h0', rfl⟩ := hy
  have hm0 : m ≠ 0 := (div_ne_zero_iff.mp hs).1
  refine ⟨n * c, m * d, value_scale hn hc, value_scale hm hd, mul_ne_zero hm0 h0, ?_⟩
  rw [div_div_div_eq, mul_comm m d]

theorem stands_add (hx : x.Stands v r) (hy : y.Stands v s) : (x.add y).Stands v (r + s) := by
  obtain ⟨n, d, hn, hd, h0, rfl⟩ := hx
  obtain ⟨m, c, hm, hc, h0', rfl⟩ := hy
  obtain ⟨xn, xd⟩ := x
  obtain ⟨yn, yd⟩ := y
  cases xd with
  | none =>
    cases hd
    cases yd with
    | none =>
      cases hc
      exact ⟨n + m, 1, Expr.value_sum hn hm, rfl, one_ne_zero, by ring⟩
    | some b =>
      exact ⟨n * c + m, c, Expr.value_sum (Expr.value_product hn hc) hm, hc, h0', by field_simp⟩
  | some a =>
    cases yd with
    | none =>
      cases hc
      exact ⟨n + m * d, d, Expr.value_sum hn (Expr.value_product hm hd), hd, h0, by field_simp⟩
    | some b =>
      unfold add
      simp only
      split_ifs with hab
      · subst hab
        obtain rfl : d = c := Option.some.inj (hd.symm.trans hc)
        exact ⟨n + m, d, Expr.value_sum hn hm, hd, h0, add_div n m d⟩
      · exact ⟨n * c + m * d, d * c, Expr.value_sum (Expr.value_product hn hc) (Expr.value_product hm hd),
          Expr.value_product hd hc, mul_ne_zero h0 h0', by field_simp⟩

end Fractional

theorem Term.stands_toFractional {v : Reading} {t : Term} {x : ℚ} (h : t.value v = some x) :
    t.toFractional.Stands v x := by
  obtain ⟨y, hy, hx⟩ := Term.value_eq_some.mp h
  rw [Powers.value_eq] at hy
  obtain ⟨n, hn, hy⟩ := Option.bind_eq_some_iff.mp hy
  obtain ⟨d, hd, hy⟩ := Option.bind_eq_some_iff.mp hy
  split_ifs at hy with h0
  obtain rfl : n / d = y := by simpa using hy
  have hnum : t.numerator.value v = some ((t.coefficient.natAbs : ℚ) * n) := by
    rw [Term.value_numerator, hn, Option.map_some]
  have hden : Fractional.denValue v t.denominator? = some d := by
    cases hd? : t.denominator? with
    | none =>
      rw [Term.denominator?_eq_none hd?] at hd
      exact hd
    | some c => exact (value_of_leftProduct? hd?).trans hd
  have hunsigned : (⟨t.numerator, t.denominator?⟩ : Fractional).Stands v
      ((t.coefficient.natAbs : ℚ) * (n / d)) :=
    ⟨_, d, hnum, hden, h0, mul_div_assoc _ n d⟩
  have habs : ((t.coefficient.natAbs : ℕ) : ℚ) = |(t.coefficient : ℚ)| := by
    rw [Nat.cast_natAbs, Int.cast_abs]
  unfold toFractional
  simp only
  split_ifs with hneg
  · have := Fractional.stands_neg hunsigned
    rw [habs, abs_of_neg (by exact_mod_cast hneg), neg_mul, neg_neg, hx] at this
    exact this
  · rw [habs, abs_of_nonneg (by exact_mod_cast not_lt.mp hneg), hx] at hunsigned
    exact hunsigned

theorem Fractional.stands_foldl {v : Reading} {α : Type} {f : α → Fractional} {g : α → ℚ} :
    ∀ (ys : List α) {x : Fractional} {r : ℚ}, x.Stands v r → (∀ y ∈ ys, (f y).Stands v (g y)) →
      ((ys.map f).foldl Fractional.add x).Stands v (r + (ys.map g).sum)
  | [], _, _, hx, _ => by simpa using hx
  | y :: ys, _, r, hx, hys => by
    have := stands_foldl ys (stands_add hx (hys y (.head _))) fun z hz => hys z (.tail _ hz)
    rw [List.map_cons, List.map_cons, List.sum_cons, ← add_assoc]
    exact this

theorem Polynomial.stands_toFractional {v : Reading} {p : Polynomial} {x : ℚ}
    (h : p.value v = some x) : p.toFractional.Stands v x := by
  obtain ⟨hterms, rfl⟩ := Polynomial.value_eq_some.mp h
  have hstands : ∀ t ∈ p.terms, t.toFractional.Stands v ((t.value v).getD 0) := by
    intro t ht
    obtain ⟨z, hz⟩ := Option.isSome_iff_exists.mp (hterms t ht)
    rw [hz]
    exact Term.stands_toFractional hz
  unfold toFractional
  cases hts : p.terms with
  | nil => exact Fractional.stands_ofExpr rfl
  | cons t ts =>
    rw [hts] at hstands
    exact Fractional.stands_foldl ts (hstands t (.head _)) fun s hs => hstands s (.tail _ hs)

namespace Expr

variable {v : Reading} {e : Expr} {x : ℚ}

theorem toFractional_of_value : ∀ {e : Expr} {x : ℚ}, e.value v = some x →
    ∃ y, e.toFractional = .ok y ∧ y.Stands v x
  | number n, x, h => ⟨_, rfl, Fractional.stands_ofExpr h⟩
  | quantity q, x, h => ⟨_, rfl, Fractional.stands_ofExpr h⟩
  | neg e, x, h => by
    obtain ⟨r, hr, rfl⟩ := value_neg_eq_some.mp h
    obtain ⟨y, hy, hs⟩ := toFractional_of_value hr
    exact ⟨y.neg, by rw [toFractional, hy]; rfl, Fractional.stands_neg hs⟩
  | sum a b, x, h => by
    obtain ⟨r, s, hr, hs, rfl⟩ := value_sum_eq_some.mp h
    obtain ⟨y, hy, hy'⟩ := toFractional_of_value hr
    obtain ⟨z, hz, hz'⟩ := toFractional_of_value hs
    exact ⟨y.add z, by rw [toFractional, hy, hz]; rfl, Fractional.stands_add hy' hz'⟩
  | product a b, x, h => by
    obtain ⟨r, s, hr, hs, rfl⟩ := value_product_eq_some.mp h
    obtain ⟨y, hy, hy'⟩ := toFractional_of_value hr
    obtain ⟨z, hz, hz'⟩ := toFractional_of_value hs
    exact ⟨y.mul z, by rw [toFractional, hy, hz]; rfl, Fractional.stands_mul hy' hz'⟩
  | fraction a b, x, h => by
    obtain ⟨r, s, hr, hs, h0, rfl⟩ := value_fraction_eq_some.mp h
    obtain ⟨y, hy, hy'⟩ := toFractional_of_value hr
    obtain ⟨z, hz, hz'⟩ := toFractional_of_value hs
    have hnum : ¬ z.num.isZero := by
      intro hzero
      obtain ⟨n, d, hn, -, -, hnd⟩ := hz'
      rw [value_of_isZero hzero] at hn
      cases hn
      exact h0 (by rw [← hnd, zero_div])
    refine ⟨y.div z, ?_, Fractional.stands_div hy' hz' h0⟩
    rw [toFractional, hy, hz]
    exact if_neg hnum
  | term t, x, h => by
    refine ⟨_, rfl, ?_⟩
    split_ifs
    · exact Fractional.stands_ofExpr h
    · exact Term.stands_toFractional h
  | polynomial p, x, h => by
    refine ⟨_, rfl, ?_⟩
    split_ifs
    · exact Fractional.stands_ofExpr h
    · exact Polynomial.stands_toFractional h

/-- **One fraction has the same value.** An expression with a value is brought
to one fraction without failure. -/
theorem singleFraction_of_value (h : e.value v = some x) :
    ∃ e', e.singleFraction = .ok e' ∧ e'.value v = some x := by
  obtain ⟨⟨num, den⟩, hy, n, d, hn, hd, h0, rfl⟩ := toFractional_of_value h
  unfold singleFraction
  rw [hy]
  cases den with
  | none =>
    cases hd
    rw [div_one]
    exact ⟨num, rfl, hn⟩
  | some c =>
    have hc : ¬ c.isZero := fun hzero => h0 (Option.some.inj (hd.symm.trans (value_of_isZero hzero)))
    exact ⟨fraction num c, if_neg hc, value_fraction_eq_some.mpr ⟨n, d, hn, hd, h0, rfl⟩⟩

theorem value_numDen : ∀ {e : Expr} {x : ℚ}, e.value v = some x →
    ∃ n d, e.numDen.1.value v = some n ∧ e.numDen.2.value v = some d ∧ d ≠ 0 ∧ x = n / d
  | fraction a b, x, h => by
    obtain ⟨n, d, hn, hd, h0, rfl⟩ := value_fraction_eq_some.mp h
    exact ⟨n, d, hn, hd, h0, rfl⟩
  | neg e, x, h => by
    obtain ⟨r, hr, rfl⟩ := value_neg_eq_some.mp h
    obtain ⟨n, d, hn, hd, h0, rfl⟩ := value_numDen hr
    exact ⟨-n, d, value_neg_eq_some.mpr ⟨n, hn, rfl⟩, hd, h0, (neg_div d n).symm⟩
  | number _, x, h | quantity _, x, h | sum _ _, x, h | product _ _, x, h | term _, x, h
  | polynomial _, x, h => ⟨x, 1, h, rfl, one_ne_zero, (div_one x).symm⟩

/-! ### Plain expressions -/

/-- No fraction and no negative exponent, and only quantities with the property
`Q`. -/
def Plain (Q : Quantity → Prop) (e : Expr) : Prop := e.hasFraction = false ∧ e.All Q

variable {Q : Quantity → Prop} {a b : Expr}

@[simp]
theorem plain_number (n : ℤ) : (number n).Plain Q := ⟨rfl, all_number n⟩

@[simp]
theorem plain_quantity {q : Quantity} : (quantity q).Plain Q ↔ Q q := by
  simp [Plain, hasFraction]

@[simp]
theorem plain_neg : (neg e).Plain Q ↔ e.Plain Q := Iff.rfl

@[simp]
theorem plain_sum : (sum a b).Plain Q ↔ a.Plain Q ∧ b.Plain Q := by
  simp only [Plain, hasFraction, Bool.or_eq_false_iff, all_sum]
  tauto

@[simp]
theorem plain_product : (product a b).Plain Q ↔ a.Plain Q ∧ b.Plain Q := by
  simp only [Plain, hasFraction, Bool.or_eq_false_iff, all_product]
  tauto

/-- A plain expression is its own numerator. -/
theorem plain_numDen : ∀ {e : Expr}, e.Plain Q → e.numDen.1.Plain Q ∧ e.numDen.2.Plain Q
  | neg e, he => plain_numDen (e := e) (plain_neg.mp he)
  | fraction _ _, he => (nomatch he.1)
  | number _, he | quantity _, he | sum _ _, he | product _ _, he | term _, he
  | polynomial _, he => ⟨he, plain_number 1⟩

theorem plain_leftProduct? {qs : List Quantity} (h : leftProduct? (qs.map quantity) = some e)
    (hqs : ∀ q ∈ qs, Q q) : e.Plain Q := by
  have hfold : ∀ (qs : List Quantity) (e : Expr), e.Plain Q → (∀ q ∈ qs, Q q) →
      ((qs.map quantity).foldl product e).Plain Q := by
    intro qs
    induction qs with
    | nil => exact fun e he _ => he
    | cons q qs ih =>
      exact fun e he hqs => ih _ (plain_product.mpr ⟨he, plain_quantity.mpr (hqs q (.head _))⟩)
        fun r hr => hqs r (.tail _ hr)
  cases qs with
  | nil => cases h
  | cons q qs =>
    cases h
    exact hfold qs _ (plain_quantity.mpr (hqs q (.head _))) fun r hr => hqs r (.tail _ hr)

end Expr

namespace Fractional

variable {Q : Quantity → Prop} {x y : Fractional}

/-- Numerator and denominator are plain. -/
def Plain (Q : Quantity → Prop) (x : Fractional) : Prop :=
  x.num.Plain Q ∧ ∀ d, x.den? = some d → d.Plain Q

theorem plain_ofExpr {e : Expr} (h : e.Plain Q) : (ofExpr e).Plain Q :=
  ⟨h, fun _ hd => (nomatch hd)⟩

theorem plain_neg (hx : x.Plain Q) : x.neg.Plain Q := hx

theorem plain_scale {e : Expr} {d? : Option Expr} (he : e.Plain Q)
    (hd : ∀ d, d? = some d → d.Plain Q) : (scale e d?).Plain Q := by
  cases d? with
  | none => exact he
  | some d => exact Expr.plain_product.mpr ⟨he, hd d rfl⟩

theorem plain_mulDen {c? d? : Option Expr} (hc : ∀ c, c? = some c → c.Plain Q)
    (hd : ∀ d, d? = some d → d.Plain Q) : ∀ d, mulDen c? d? = some d → d.Plain Q := by
  intro d h
  cases c? with
  | none => exact hd d h
  | some c =>
    cases d? with
    | none => exact hc d h
    | some d' =>
      cases h
      exact Expr.plain_product.mpr ⟨hc c rfl, hd d' rfl⟩

theorem plain_mul (hx : x.Plain Q) (hy : y.Plain Q) : (x.mul y).Plain Q :=
  ⟨Expr.plain_product.mpr ⟨hx.1, hy.1⟩, plain_mulDen hx.2 hy.2⟩

theorem plain_div (hx : x.Plain Q) (hy : y.Plain Q) : (x.div y).Plain Q := by
  refine ⟨plain_scale hx.1 hy.2, fun d hd => ?_⟩
  cases hd
  exact plain_scale hy.1 hx.2

theorem plain_add (hx : x.Plain Q) (hy : y.Plain Q) : (x.add y).Plain Q := by
  obtain ⟨a, c?⟩ := x
  obtain ⟨b, d?⟩ := y
  obtain ⟨ha, hc⟩ := hx
  obtain ⟨hb, hd⟩ := hy
  cases c? with
  | none =>
    cases d? with
    | none => exact ⟨Expr.plain_sum.mpr ⟨ha, hb⟩, fun _ h => (nomatch h)⟩
    | some d => exact ⟨Expr.plain_sum.mpr ⟨Expr.plain_product.mpr ⟨ha, hd d rfl⟩, hb⟩, hd⟩
  | some c =>
    cases d? with
    | none => exact ⟨Expr.plain_sum.mpr ⟨ha, Expr.plain_product.mpr ⟨hb, hc c rfl⟩⟩, hc⟩
    | some d =>
      unfold add
      simp only
      split_ifs
      · exact ⟨Expr.plain_sum.mpr ⟨ha, hb⟩, hc⟩
      · refine ⟨Expr.plain_sum.mpr ⟨Expr.plain_product.mpr ⟨ha, hd d rfl⟩,
          Expr.plain_product.mpr ⟨hb, hc c rfl⟩⟩, fun e he => ?_⟩
        cases he
        exact Expr.plain_product.mpr ⟨hc c rfl, hd d rfl⟩

theorem plain_foldl : ∀ (ys : List Fractional) {x : Fractional}, x.Plain Q →
    (∀ y ∈ ys, y.Plain Q) → (ys.foldl add x).Plain Q
  | [], _, hx, _ => hx
  | y :: ys, _, hx, hys =>
    plain_foldl ys (plain_add hx (hys y (.head _))) fun z hz => hys z (.tail _ hz)

end Fractional

theorem Term.plain_toFractional {Q : Quantity → Prop} {t : Term} (h : (Expr.term t).All Q) :
    t.toFractional.Plain Q := by
  have hnum : t.numerator.Plain Q := by
    unfold numerator
    simp only
    split
    · exact Expr.plain_number _
    next e he =>
      have hplain := Expr.plain_leftProduct? he fun q hq => h q (mem_of_mem_upper hq)
      split_ifs
      · exact hplain
      · exact Expr.plain_product.mpr ⟨Expr.plain_number _, hplain⟩
  have hden : ∀ d, t.denominator? = some d → d.Plain Q := fun d hd =>
    Expr.plain_leftProduct? hd fun q hq => h q (mem_of_mem_lower hq)
  unfold toFractional
  simp only
  split_ifs
  · exact Fractional.plain_neg ⟨hnum, hden⟩
  · exact ⟨hnum, hden⟩

theorem Polynomial.plain_toFractional {Q : Quantity → Prop} {p : Polynomial}
    (h : (Expr.polynomial p).All Q) : p.toFractional.Plain Q := by
  have hterms : ∀ x ∈ p.terms.map Term.toFractional, x.Plain Q := by
    intro x hx
    obtain ⟨t, ht, rfl⟩ := List.mem_map.mp hx
    exact Term.plain_toFractional (all_iff.mp h t ht)
  unfold toFractional
  split
  · exact Fractional.plain_ofExpr (Expr.plain_number 0)
  next x xs heq =>
    rw [heq] at hterms
    exact Fractional.plain_foldl xs (hterms x (.head _)) fun y hy => hterms y (.tail _ hy)

namespace Expr

variable {Q : Quantity → Prop} {e : Expr}

theorem plain_toFractional : ∀ {e : Expr} {x : Fractional}, e.toFractional = .ok x → e.All Q →
    x.Plain Q
  | number n, _, h, _ => by cases h; exact Fractional.plain_ofExpr (plain_number n)
  | quantity q, _, h, he => by
    cases h
    exact Fractional.plain_ofExpr (plain_quantity.mpr (all_quantity.mp he))
  | neg e, _, h, he => by
    obtain ⟨y, hy, h⟩ := bind_eq_ok.mp h
    cases h
    exact Fractional.plain_neg (plain_toFractional hy he)
  | sum a b, _, h, he => by
    obtain ⟨y, hy, h⟩ := bind_eq_ok.mp h
    obtain ⟨z, hz, h⟩ := bind_eq_ok.mp h
    cases h
    exact Fractional.plain_add (plain_toFractional hy (all_sum.mp he).1)
      (plain_toFractional hz (all_sum.mp he).2)
  | product a b, _, h, he => by
    obtain ⟨y, hy, h⟩ := bind_eq_ok.mp h
    obtain ⟨z, hz, h⟩ := bind_eq_ok.mp h
    cases h
    exact Fractional.plain_mul (plain_toFractional hy (all_product.mp he).1)
      (plain_toFractional hz (all_product.mp he).2)
  | fraction a b, _, h, he => by
    obtain ⟨y, hy, h⟩ := bind_eq_ok.mp h
    obtain ⟨z, hz, h⟩ := bind_eq_ok.mp h
    split_ifs at h
    cases h
    exact Fractional.plain_div (plain_toFractional hy (all_fraction.mp he).1)
      (plain_toFractional hz (all_fraction.mp he).2)
  | term t, _, h, he => by
    cases h
    split_ifs with hi
    · exact Fractional.plain_ofExpr ⟨by simp [hasFraction, hi], he⟩
    · exact Term.plain_toFractional he
  | polynomial p, _, h, he => by
    cases h
    split_ifs with hi
    · exact Fractional.plain_ofExpr ⟨by simp [hasFraction, hi], he⟩
    · exact Polynomial.plain_toFractional he

/-- The expression has no fraction, or it is one without fractions above and below
the bar. -/
def Single (Q : Quantity → Prop) (e : Expr) : Prop :=
  e.Plain Q ∨ ∃ n d, e = fraction n d ∧ n.Plain Q ∧ d.Plain Q

theorem single_singleFraction {e' : Expr} (h : e.singleFraction = .ok e') (he : e.All Q) :
    e'.Single Q := by
  obtain ⟨⟨num, den?⟩, hx, h⟩ := bind_eq_ok.mp h
  obtain ⟨hnum, hden⟩ := plain_toFractional hx he
  cases den? with
  | none =>
    cases h
    exact .inl hnum
  | some d =>
    simp only at h
    split_ifs at h
    cases h
    exact .inr ⟨num, d, rfl, hnum, hden d rfl⟩

/-- **Above and below the bar there is no fraction.** -/
theorem plain_singleFraction {e' : Expr} (h : e.singleFraction = .ok e') (he : e.All Q) :
    e'.numDen.1.Plain Q ∧ e'.numDen.2.Plain Q := by
  rcases single_singleFraction h he with hplain | ⟨n, d, rfl, hn, hd⟩
  · exact plain_numDen hplain
  · exact ⟨hn, hd⟩

/-! ### Faults -/

theorem divisionByZero_of_toFractional : ∀ {e : Expr} {f : Fault}, e.toFractional = .error f →
    ∃ d, f = .divisionByZero d
  | neg e, f, h => by
    rcases bind_eq_error.mp h with h | ⟨_, _, h⟩
    · exact divisionByZero_of_toFractional h
    · cases h
  | sum a b, f, h | product a b, f, h => by
    rcases bind_eq_error.mp h with h | ⟨_, _, h⟩
    · exact divisionByZero_of_toFractional h
    · rcases bind_eq_error.mp h with h | ⟨_, _, h⟩
      · exact divisionByZero_of_toFractional h
      · cases h
  | fraction a b, f, h => by
    rcases bind_eq_error.mp h with h | ⟨_, _, h⟩
    · exact divisionByZero_of_toFractional h
    · rcases bind_eq_error.mp h with h | ⟨_, _, h⟩
      · exact divisionByZero_of_toFractional h
      · split_ifs at h
        cases h
        exact ⟨_, rfl⟩

theorem divisionByZero_of_singleFraction {f : Fault} (h : e.singleFraction = .error f) :
    ∃ d, f = .divisionByZero d := by
  rcases bind_eq_error.mp h with h | ⟨⟨num, den?⟩, _, h⟩
  · exact divisionByZero_of_toFractional h
  · cases den? with
    | none => cases h
    | some d =>
      simp only at h
      split_ifs at h
      · cases h
        exact ⟨e, rfl⟩
      · cases h

/-! ### Expansion -/

/-- **A plain expression can be multiplied out.** No exponent of the polynomial
is negative and no quantity is new. -/
theorem expand_of_plain : ∀ {e : Expr}, e.Plain Q →
    ∃ p, e.expand = .ok p ∧ p.AllPowers fun x => Q x.1 ∧ 0 < x.2
  | number n, _ => ⟨_, rfl, Polynomial.allPowers_ofTerm fun x hx => (nomatch hx)⟩
  | quantity q, he => by
    refine ⟨_, rfl, Polynomial.allPowers_ofTerm fun x hx => ?_⟩
    obtain rfl : x = (q, 1) := (Sparse.mem_entries_single (n := 1) hx).1
    exact ⟨plain_quantity.mp he, one_pos⟩
  | neg e, he => by
    obtain ⟨p, hp, hall⟩ := expand_of_plain (plain_neg.mp he)
    exact ⟨-p, by rw [expand, hp]; rfl, Polynomial.allPowers_neg hall⟩
  | sum a b, he => by
    obtain ⟨p, hp, hpall⟩ := expand_of_plain (plain_sum.mp he).1
    obtain ⟨q, hq, hqall⟩ := expand_of_plain (plain_sum.mp he).2
    exact ⟨p + q, by rw [expand, hp, hq]; rfl, Polynomial.allPowers_add hpall hqall⟩
  | product a b, he => by
    obtain ⟨p, hp, hpall⟩ := expand_of_plain (plain_product.mp he).1
    obtain ⟨q, hq, hqall⟩ := expand_of_plain (plain_product.mp he).2
    refine ⟨p * q, by rw [expand, hp, hq]; rfl, Polynomial.allPowers_mul ?_ hpall hqall⟩
    exact fun _ _ _ ha hb _ => ⟨ha.1, add_pos ha.2 hb.2⟩
  | fraction a b, he => (nomatch he.1)
  | term t, he => by
    have hi : t.isIntegral := by simpa [hasFraction] using he.1
    refine ⟨_, if_pos hi, Polynomial.allPowers_ofTerm fun x hx => ⟨?_, ?_⟩⟩
    · exact he.2 _ (Term.mem_quantities.mpr ⟨x, hx, rfl⟩)
    · exact of_decide_eq_true (List.all_eq_true.mp hi x hx)
  | polynomial p, he => by
    have hi : p.isIntegral := by simpa [hasFraction] using he.1
    refine ⟨p, if_pos hi, fun k hk x hx => ⟨?_, Polynomial.allPowers_of_isIntegral hi k hk x hx⟩⟩
    exact Polynomial.all_iff.mp he.2 ⟨k.2, k.1⟩ (List.mem_map.mpr ⟨k, hk, rfl⟩) _
      (Term.mem_quantities.mpr ⟨x, hx, rfl⟩)

theorem value_of_expand {v : Reading} : ∀ {e : Expr} {p : Polynomial} {x : ℚ}, e.expand = .ok p →
    e.value v = some x → p.value v = some x
  | number n, _, _, h, hx => by
    cases h
    cases hx
    exact Polynomial.value_constant n
  | quantity q, _, x, h, hx => by
    cases h
    refine Polynomial.value_ofTerm (Term.value_eq_some.mpr ⟨1 * x, ?_, by simp [Term.ofQuantity]⟩)
    exact Powers.value_timesPower Powers.value_one hx (by simp [power?])
  | neg e, _, _, h, hx => by
    obtain ⟨p, hp, h⟩ := bind_eq_ok.mp h
    cases h
    obtain ⟨y, hy, rfl⟩ := value_neg_eq_some.mp hx
    exact Polynomial.value_neg (value_of_expand hp hy)
  | sum a b, _, _, h, hx => by
    obtain ⟨p, hp, h⟩ := bind_eq_ok.mp h
    obtain ⟨q, hq, h⟩ := bind_eq_ok.mp h
    cases h
    obtain ⟨y, z, hy, hz, rfl⟩ := value_sum_eq_some.mp hx
    exact Polynomial.value_add (value_of_expand hp hy) (value_of_expand hq hz)
  | product a b, _, _, h, hx => by
    obtain ⟨p, hp, h⟩ := bind_eq_ok.mp h
    obtain ⟨q, hq, h⟩ := bind_eq_ok.mp h
    cases h
    obtain ⟨y, z, hy, hz, rfl⟩ := value_product_eq_some.mp hx
    exact Polynomial.value_mul (value_of_expand hp hy) (value_of_expand hq hz)
  | fraction a b, _, _, h, _ => by cases h
  | term t, _, _, h, hx => by
    unfold expand at h
    split_ifs at h
    cases h
    exact Polynomial.value_ofTerm hx
  | polynomial p, _, _, h, hx => by
    unfold expand at h
    split_ifs at h
    cases h
    exact hx

/-! ### Reduction to one fraction -/

end Expr
end AreaMethod
