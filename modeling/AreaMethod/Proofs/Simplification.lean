/-
# Simplification keeps values

Every rule turns a node with a value into an expression with the same value,
so a pass of the rules does, and so does simplification. A rule fails only at
a denominator that is visibly zero; an expression with a value has none, so
its simplification does not fail (`Expr.simplify_of_value`).

Every pass that changes something lowers the rank of the expression, so after
finitely many passes nothing changes any more, or there is a division by zero
(`Expr.simplifySteps_terminates`).

The rules only move, copy and drop parts of an expression: no leaf is new but
numbers, so what is decided at the leaves stays true
(`Expr.Leafwise.holds_simplify`).

Key definitions: `Expr.Passes`, `Expr.rank`, `Expr.simplifySteps`.
Key theorems: `Expr.simplifyStep_of_value`, `Expr.simplify_run`,
`Expr.simplify_of_value`, `Expr.exists_simplifySteps_eq`,
`Expr.Leafwise.holds_simplify`.
-/
import Mathlib
import AreaMethod.Expr.Simplify
import AreaMethod.Proofs.Outcome
import AreaMethod.Proofs.Value

namespace AreaMethod
namespace Expr

variable {v : Reading} {a b d e n : Expr} {x y : ℚ}

/-! ### Constants -/

theorem value_of_rational? : ∀ {e : Expr} {r : ℚ}, e.rational? = some r → e.value v = some r
  | number n, r, h => by simpa [rational?, value] using h
  | fraction (number n) (number d), r, h => by
    simp only [rational?] at h
    split_ifs at h with hd
    obtain rfl : Rat.divInt n d = r := by simpa using h
    refine value_fraction_eq_some.mpr ⟨n, d, rfl, rfl, by exact_mod_cast hd, ?_⟩
    rw [Rat.divInt_eq_div]
  | neg e, r, h => by
    simp only [rational?, Option.map_eq_some_iff] at h
    obtain ⟨s, hs, rfl⟩ := h
    exact value_neg_eq_some.mpr ⟨s, value_of_rational? hs, rfl⟩

theorem value_ofRat (r : ℚ) : (ofRat r).value v = some r := by
  have hden : (r.den : ℚ) ≠ 0 := by exact_mod_cast r.den_nz
  have hr : (r.num : ℚ) / r.den = r := Rat.num_div_den r
  unfold ofRat
  split_ifs with h1 h2
  · rw [h1, Nat.cast_one, div_one] at hr
    rw [value, hr]
  · refine value_neg_eq_some.mpr ⟨-r, value_fraction_eq_some.mpr ⟨-r.num, r.den, ?_, ?_, hden, ?_⟩, neg_neg r⟩
    · simp [value]
    · simp [value]
    · rw [neg_div, hr]
  · exact value_fraction_eq_some.mpr ⟨r.num, r.den, rfl, by simp [value], hden, hr⟩

theorem value_of_isZero (h : e.isZero) : e.value v = some 0 := by
  cases e with
  | number n => simpa [isZero, value] using h
  | polynomial p => exact Polynomial.value_of_isZero h
  | _ => cases h

theorem value_of_isOne (h : e.isOne) : e.value v = some 1 := by
  cases e with
  | number n => simpa [isOne, value] using h
  | _ => cases h

/-! ### Negations and sums -/

theorem value_negRule (he : e.value v = some x) : e.negRule.value v = some (-x) := by
  cases e with
  | number n =>
    obtain rfl : (n : ℚ) = x := by simpa [value] using he
    simp [negRule, value]
  | neg e =>
    obtain ⟨y, hy, rfl⟩ := value_neg_eq_some.mp he
    rw [neg_neg]
    exact hy
  | _ => exact value_neg_eq_some.mpr ⟨x, he, rfl⟩

theorem value_sumSigns (ha : a.value v = some x) (hb : b.value v = some y) :
    (sumSigns a b).value v = some (x + y) := by
  unfold sumSigns
  split
  · obtain ⟨x', hx, rfl⟩ := value_neg_eq_some.mp ha
    obtain ⟨y', hy, rfl⟩ := value_neg_eq_some.mp hb
    exact value_neg_eq_some.mpr ⟨x' + y', value_sum_eq_some.mpr ⟨x', y', hx, hy, rfl⟩, by ring⟩
  · split_ifs with h
    · obtain ⟨y', hy, rfl⟩ := value_neg_eq_some.mp hb
      rw [← h, ha, Option.some.injEq] at hy
      rw [hy, add_neg_cancel]
      rfl
    · exact value_sum_eq_some.mpr ⟨x, y, ha, hb, rfl⟩
  · split_ifs with h
    · obtain ⟨x', hx, rfl⟩ := value_neg_eq_some.mp ha
      rw [h, hb, Option.some.injEq] at hx
      rw [hx, neg_add_cancel]
      rfl
    · exact value_sum_eq_some.mpr ⟨x, y, ha, hb, rfl⟩
  · exact value_sum_eq_some.mpr ⟨x, y, ha, hb, rfl⟩

theorem value_sumRule (ha : a.value v = some x) (hb : b.value v = some y) :
    (sumRule a b).value v = some (x + y) := by
  unfold sumRule
  split_ifs with h1 h2
  · rw [value_of_isZero h1, Option.some.injEq] at ha
    rw [← ha, zero_add]
    exact hb
  · rw [value_of_isZero h2, Option.some.injEq] at hb
    rw [← hb, add_zero]
    exact ha
  · split
    next r s hr hs =>
      rw [value_of_rational? hr, Option.some.injEq] at ha
      rw [value_of_rational? hs, Option.some.injEq] at hb
      rw [value_ofRat, ha, hb]
    · exact value_sumSigns ha hb

/-! ### Signs -/

theorem value_of_negated? {e' : Expr} (h : e.negated? = some e') (he : e.value v = some x) :
    e'.value v = some (-x) := by
  cases e with
  | neg e =>
    cases h
    obtain ⟨y, hy, rfl⟩ := value_neg_eq_some.mp he
    rw [neg_neg]
    exact hy
  | _ => cases h

theorem value_of_magnitude? {e' : Expr} (h : e.magnitude? = some e') (he : e.value v = some x) :
    e'.value v = some (-x) := by
  cases e with
  | number m =>
    simp only [magnitude?] at h
    split_ifs at h
    cases h
    obtain rfl : (m : ℚ) = x := by simpa [value] using he
    simp [value]
  | _ => cases h

/-- Taking a sign out of an operation `f` that changes sign with either operand
and is defined where its second operand satisfies `D`. -/
theorem value_signOut? {node : Expr → Expr → Expr} {f : ℚ → ℚ → ℚ} {D : ℚ → Prop}
    (hnode : ∀ {a b : Expr} {x y : ℚ}, a.value v = some x → b.value v = some y → D y →
      (node a b).value v = some (f x y))
    (hl : ∀ x y, f (-x) y = -f x y) (hr : ∀ x y, f x (-y) = -f x y) (hD : ∀ y, D y → D (-y))
    (h : signOut? node a b = some e) (ha : a.value v = some x) (hb : b.value v = some y)
    (hy : D y) : (neg e).value v = some (f x y) := by
  have hleft : ∀ {a' : Expr}, a'.value v = some (-x) → (neg (node a' b)).value v = some (f x y) :=
    fun ha' => value_neg_eq_some.mpr ⟨_, hnode ha' hb hy, by rw [hl, neg_neg]⟩
  have hright : ∀ {b' : Expr}, b'.value v = some (-y) → (neg (node a b')).value v = some (f x y) :=
    fun hb' => value_neg_eq_some.mpr ⟨_, hnode ha hb' (hD y hy), by rw [hr, neg_neg]⟩
  unfold signOut? at h
  split at h
  next a' h' => cases h; exact hleft (value_of_negated? h' ha)
  · split at h
    next b' h' => cases h; exact hright (value_of_negated? h' hb)
    · split at h
      next a' h' => cases h; exact hleft (value_of_magnitude? h' ha)
      · obtain ⟨b', h', rfl⟩ := Option.map_eq_some_iff.mp h
        exact hright (value_of_magnitude? h' hb)

/-! ### Products -/

theorem eq_fraction_of_over? (h : e.over? d = some n) : e = fraction n d := by
  cases e with
  | fraction a b =>
    simp only [over?] at h
    split_ifs at h with hb
    cases h
    rw [hb]
  | _ => cases h

theorem value_productSigns (ha : a.value v = some x) (hb : b.value v = some y) :
    (productSigns a b).value v = some (x * y) := by
  unfold productSigns
  split
  next e he =>
    exact value_signOut? (D := fun _ => True) (fun ha hb _ => value_product ha hb) neg_mul mul_neg
      (fun _ _ => trivial) he ha hb trivial
  · split
    next n hn =>
      rw [eq_fraction_of_over? hn] at hb
      obtain ⟨m, z, hm, hz, h0, rfl⟩ := value_fraction_eq_some.mp hb
      obtain rfl : x = z := by simpa [ha] using hz
      rw [mul_div_cancel₀ _ h0]
      exact hm
    · cases hn : a.over? b with
      | none => exact value_product ha hb
      | some n =>
        rw [eq_fraction_of_over? hn] at ha
        obtain ⟨m, z, hm, hz, h0, rfl⟩ := value_fraction_eq_some.mp ha
        obtain rfl : y = z := by simpa [hb] using hz
        rw [div_mul_cancel₀ _ h0]
        exact hm

theorem value_productRule (ha : a.value v = some x) (hb : b.value v = some y) :
    (productRule a b).value v = some (x * y) := by
  unfold productRule
  split_ifs with h0 h1 h2 h3 h4
  · rcases Bool.or_eq_true_iff.mp h0 with h | h
    · rw [value_of_isZero h, Option.some.injEq] at ha
      rw [← ha, zero_mul]
      rfl
    · rw [value_of_isZero h, Option.some.injEq] at hb
      rw [← hb, mul_zero]
      rfl
  · rw [value_of_isOne h1, Option.some.injEq] at ha
    rw [← ha, one_mul]
    exact hb
  · rw [value_of_isOne h2, Option.some.injEq] at hb
    rw [← hb, mul_one]
    exact ha
  · obtain rfl : ((-1 : ℤ) : ℚ) = x := by simpa [h3, value] using ha
    exact value_neg_eq_some.mpr ⟨y, hb, by simp⟩
  · obtain rfl : ((-1 : ℤ) : ℚ) = y := by simpa [h4, value] using hb
    exact value_neg_eq_some.mpr ⟨x, ha, by simp⟩
  · split
    next r s hr hs =>
      rw [value_of_rational? hr, Option.some.injEq] at ha
      rw [value_of_rational? hs, Option.some.injEq] at hb
      rw [value_ofRat, ha, hb]
    · exact value_productSigns ha hb

/-! ### Common factors -/

theorem productValue_factors (v : Reading) (e : Expr) : productValue v e.factors = e.value v := by
  induction e with
  | product a b iha ihb => rw [factors, productValue_append, iha, ihb, value]
  | _ => simp [factors, productValue]

theorem value_ofFactors (v : Reading) (es : List Expr) :
    (ofFactors es).value v = productValue v es := by
  cases es with
  | nil => rfl
  | cons e es => exact value_foldl_product v e es

/-- Both sides of the bar lose the same factor. -/
theorem productValue_cancelNumber? : ∀ {es fs : List Expr} {k l : ℤ} {x : ℚ},
    cancelNumber? k es = some (fs, l) → (k : ℚ) ≠ 0 → productValue v es = some x →
      (l : ℚ) ≠ 0 ∧ ∃ y, productValue v fs = some y ∧ y / l = x / k
  | [], _, _, _, _, h, _, _ => by cases h
  | e :: es, fs, k, l, x, h, hk, hx => by
    obtain ⟨y, z, hy, hz, rfl⟩ := productValue_cons_eq_some.mp hx
    unfold cancelNumber? at h
    split at h
    · cases h
    next m rest heq =>
      obtain ⟨rfl, rfl⟩ := List.cons.inj heq
      split_ifs at h with hg
      cases h
      have hk' : k ≠ 0 := by exact_mod_cast hk
      have hgpos : (0 : ℤ) < Int.gcd m k := by exact_mod_cast Int.gcd_pos_of_ne_zero_right m hk'
      obtain ⟨m', hm'⟩ := Int.gcd_dvd_left m k
      obtain ⟨k', hk''⟩ := Int.gcd_dvd_right m k
      set g : ℤ := ((Int.gcd m k : ℕ) : ℤ)
      have hmg : m / g = m' := by rw [hm', Int.mul_ediv_cancel_left _ hgpos.ne']
      have hkg : k / g = k' := by rw [hk'', Int.mul_ediv_cancel_left _ hgpos.ne']
      have hg' : (g : ℚ) ≠ 0 := by exact_mod_cast hgpos.ne'
      have hkq : (k : ℚ) = g * k' := by exact_mod_cast hk''
      have hl : (k' : ℚ) ≠ 0 := by rintro h; rw [hkq, h, mul_zero] at hk; exact hk rfl
      rw [hmg, hkg]
      refine ⟨hl, m' * z, productValue_cons_eq_some.mpr ⟨m', z, rfl, hz, rfl⟩, ?_⟩
      obtain rfl : (m : ℚ) = y := by simpa [value] using hy
      have hmq : (m : ℚ) = g * m' := by exact_mod_cast hm'
      rw [hmq, hkq]
      field_simp
    next rest f heq =>
      obtain ⟨rfl, rfl⟩ := List.cons.inj heq
      obtain ⟨w, hw, hfs⟩ := Option.map_eq_some_iff.mp h
      obtain ⟨hl, u, hu, huz⟩ := productValue_cancelNumber? hw hk hz
      cases hfs
      refine ⟨hl, y * u, productValue_cons_eq_some.mpr ⟨y, u, hy, hu, rfl⟩, ?_⟩
      rw [mul_div_assoc, huz, mul_div_assoc]

theorem productValue_erase : ∀ {es : List Expr} {f : Expr} {x : ℚ}, f ∈ es →
    productValue v es = some x →
      ∃ y z, f.value v = some y ∧ productValue v (es.erase f) = some z ∧ y * z = x
  | e :: es, f, x, hf, hx => by
    obtain ⟨y, z, hy, hz, rfl⟩ := productValue_cons_eq_some.mp hx
    by_cases h : e = f
    · subst h
      exact ⟨y, z, hy, by rw [List.erase_cons_head]; exact hz, rfl⟩
    · obtain ⟨s, t, hs, ht, rfl⟩ :=
        productValue_erase ((List.mem_cons.mp hf).resolve_left (Ne.symm h)) hz
      refine ⟨s, y * t, hs, ?_, by ring⟩
      rw [List.erase_cons_tail (by simpa using h)]
      exact productValue_cons_eq_some.mpr ⟨y, t, hy, ht, rfl⟩

theorem productValue_cancelCommon : ∀ {num den : List Expr} {x y : ℚ},
    productValue v num = some x → productValue v den = some y → y ≠ 0 →
      ∃ x' y', productValue v (cancelCommon num den).1 = some x' ∧
        productValue v (cancelCommon num den).2 = some y' ∧ y' ≠ 0 ∧ x' / y' = x / y
  | [], den, x, y, hx, hy, h0 => ⟨x, y, hx, hy, h0, rfl⟩
  | f :: num, den, x, y, hx, hy, h0 => by
    obtain ⟨s, t, hs, ht, rfl⟩ := productValue_cons_eq_some.mp hx
    unfold cancelCommon
    split_ifs with hf
    · obtain ⟨s', u, hs', hu, rfl⟩ := productValue_erase hf hy
      obtain rfl : s = s' := by simpa [hs] using hs'
      have hs0 : s ≠ 0 := left_ne_zero_of_mul h0
      obtain ⟨x', y', hx', hy', h0', heq⟩ :=
        productValue_cancelCommon ht hu (right_ne_zero_of_mul h0)
      exact ⟨x', y', hx', hy', h0', by rw [heq, mul_div_mul_left _ _ hs0]⟩
    · obtain ⟨x', y', hx', hy', h0', heq⟩ := productValue_cancelCommon ht hy h0
      refine ⟨s * x', y', productValue_cons_eq_some.mpr ⟨s, x', hs, hx', rfl⟩, hy', h0', ?_⟩
      rw [mul_div_assoc, heq, mul_div_assoc]

/-! ### Fractions -/

theorem value_of_cofactor? {f : Expr} (h : e.cofactor? f = some a) (he : e.value v = some x)
    (hf : f.value v = some y) : ∃ z, a.value v = some z ∧ z * y = x := by
  cases e with
  | product b c =>
    obtain ⟨s, t, hs, ht, rfl⟩ := value_product_eq_some.mp he
    simp only [cofactor?] at h
    split_ifs at h with hc hb
    · cases h
      obtain rfl : t = y := by simpa [hc, hf] using ht.symm
      exact ⟨s, hs, rfl⟩
    · cases h
      obtain rfl : s = y := by simpa [hb, hf] using hs.symm
      exact ⟨t, ht, mul_comm _ _⟩
  | _ => cases h

theorem value_cancelProducts (hn : n.value v = some x) (hd : d.value v = some y) (h0 : y ≠ 0) :
    (cancelProducts n d).value v = some (x / y) := by
  unfold cancelProducts
  simp only
  split_ifs
  · exact value_fraction hn hd h0
  · rw [← productValue_factors] at hn hd
    obtain ⟨x', y', hx', hy', h0', heq⟩ := productValue_cancelCommon hn hd h0
    rw [← heq]
    exact value_fraction ((value_ofFactors v _).trans hx') ((value_ofFactors v _).trans hy') h0'

theorem value_cancelFactors (hn : n.value v = some x) (hd : d.value v = some y) (h0 : y ≠ 0) :
    (cancelFactors n d).value v = some (x / y) := by
  unfold cancelFactors
  split
  next e he =>
    obtain ⟨z, hz, rfl⟩ := value_of_cofactor? he hn hd
    rw [mul_div_cancel_right₀ _ h0]
    exact hz
  · split
    next e he =>
      obtain ⟨z, hz, rfl⟩ := value_of_cofactor? he hd hn
      have hz0 : z ≠ 0 := left_ne_zero_of_mul h0
      have hx0 : x ≠ 0 := right_ne_zero_of_mul h0
      rw [show x / (z * x) = 1 / z by field_simp]
      exact value_fraction (by simp [value]) hz hz0
    · split
      next k _ _ =>
        obtain rfl : (k : ℚ) = y := by simpa [value] using hd
        split
        next c hc =>
          rw [← productValue_factors] at hn
          obtain ⟨hl, z, hz, heq⟩ := productValue_cancelNumber? hc h0 hn
          rw [← heq]
          exact value_fraction ((value_ofFactors v _).trans hz) rfl hl
        · exact value_fraction hn hd h0
      · split
        · exact value_cancelProducts hn hd h0
        · exact value_fraction hn hd h0
      · exact value_fraction hn hd h0

theorem value_fractionSigns (hn : n.value v = some x) (hd : d.value v = some y) (h0 : y ≠ 0) :
    (fractionSigns n d).value v = some (x / y) := by
  unfold fractionSigns
  split
  next e he =>
    exact value_signOut? (D := fun y => y ≠ 0) value_fraction (fun x y => neg_div y x)
      (fun x _ => div_neg x) (fun _ => neg_ne_zero.mpr) he hn hd h0
  · split
    · obtain ⟨s, t, hs, ht, ht0, rfl⟩ := value_fraction_eq_some.mp hd
      have hs0 : s ≠ 0 := (div_ne_zero_iff.mp h0).1
      rw [div_div_eq_mul_div]
      exact value_fraction (value_product hn ht) hs hs0
    · split
      · obtain ⟨s, t, hs, ht, ht0, rfl⟩ := value_fraction_eq_some.mp hn
        rw [div_div]
        exact value_fraction hs (value_product ht hd) (mul_ne_zero ht0 h0)
      · exact value_cancelFactors hn hd h0

theorem value_fractionRule (hn : n.value v = some x) (hd : d.value v = some y) (h0 : y ≠ 0) :
    ∃ e, fractionRule n d = .ok e ∧ e.value v = some (x / y) := by
  unfold fractionRule
  split_ifs with h1 h2 h3 h4 h5
  · rw [value_of_isZero h1, Option.some.injEq] at hd
    exact absurd hd.symm h0
  · rw [value_of_isZero h2, Option.some.injEq] at hn
    exact ⟨_, rfl, by rw [← hn, zero_div]; rfl⟩
  · obtain rfl : x = y := by simpa [h3, hd] using hn.symm
    exact ⟨_, rfl, by rw [div_self h0]; rfl⟩
  · rw [value_of_isOne h4, Option.some.injEq] at hd
    exact ⟨_, rfl, by rw [← hd, div_one]; exact hn⟩
  · obtain rfl : ((-1 : ℤ) : ℚ) = y := by simpa [h5, value] using hd
    exact ⟨_, rfl, value_neg_eq_some.mpr ⟨x, hn, by simp [div_neg]⟩⟩
  · split
    next r hr =>
      refine ⟨_, rfl, ?_⟩
      unfold quotient? at hr
      split at hr
      next s t hs ht =>
        split_ifs at hr
        cases hr
        rw [value_of_rational? hs, Option.some.injEq] at hn
        rw [value_of_rational? ht, Option.some.injEq] at hd
        rw [value_ofRat, hn, hd]
      · cases hr
    · exact ⟨_, rfl, value_fractionSigns hn hd h0⟩

/-! ### Passes -/

/-- **A pass of the rules keeps the value.** It does not fail on an expression
that has one. -/
theorem simplifyStep_of_value : ∀ {e : Expr} {x : ℚ}, e.value v = some x →
    ∃ e', e.simplifyStep = .ok e' ∧ e'.value v = some x
  | number n, x, h => ⟨_, rfl, h⟩
  | quantity q, x, h => ⟨_, rfl, h⟩
  | neg e, x, h => by
    obtain ⟨y, hy, rfl⟩ := value_neg_eq_some.mp h
    obtain ⟨e', he, hv⟩ := simplifyStep_of_value hy
    exact ⟨_, by rw [simplifyStep, he]; rfl, value_negRule hv⟩
  | sum a b, x, h => by
    obtain ⟨y, z, hy, hz, rfl⟩ := value_sum_eq_some.mp h
    obtain ⟨a', ha, hva⟩ := simplifyStep_of_value hy
    obtain ⟨b', hb, hvb⟩ := simplifyStep_of_value hz
    exact ⟨_, by rw [simplifyStep, ha, hb]; rfl, value_sumRule hva hvb⟩
  | product a b, x, h => by
    obtain ⟨y, z, hy, hz, rfl⟩ := value_product_eq_some.mp h
    obtain ⟨a', ha, hva⟩ := simplifyStep_of_value hy
    obtain ⟨b', hb, hvb⟩ := simplifyStep_of_value hz
    exact ⟨_, by rw [simplifyStep, ha, hb]; rfl, value_productRule hva hvb⟩
  | fraction a b, x, h => by
    obtain ⟨y, z, hy, hz, h0, rfl⟩ := value_fraction_eq_some.mp h
    obtain ⟨a', ha, hva⟩ := simplifyStep_of_value hy
    obtain ⟨b', hb, hvb⟩ := simplifyStep_of_value hz
    obtain ⟨e, he, hve⟩ := value_fractionRule hva hvb h0
    exact ⟨e, by rw [simplifyStep, ha, hb]; exact he, hve⟩
  | term t, x, h => by
    refine ⟨_, rfl, ?_⟩
    obtain ⟨y, hy, rfl⟩ := Option.map_eq_some_iff.mp h
    split_ifs with h0 h1
    · have hc : t.coefficient = 0 := by simpa [Term.isZero] using h0
      rw [hc, Int.cast_zero, zero_mul]
      rfl
    · have hnil : t.powers.entries = [] := by simpa [Powers.isOne, Sparse.isZero] using h1
      have : 1 = y := by simpa [Powers.value, hnil, Sparse.total] using hy
      rw [← this, mul_one, value]
    · exact h
  | polynomial p, x, h => by
    refine ⟨_, rfl, ?_⟩
    split
    next n hn =>
      unfold Polynomial.constant? at hn
      split at hn
      next hnil =>
        cases hn
        simpa [value, Polynomial.value, hnil, Sparse.total] using h
      next powers m hone =>
        split_ifs at hn with h1
        cases hn
        have hnil : powers.entries = [] := by simpa [Powers.isOne, Sparse.isZero] using h1
        simpa [value, Polynomial.value, hone, Sparse.total, Powers.value, hnil] using h
      · cases hn
    · exact h

/-- One pass leads from one expression to another. -/
def Passes (e e' : Expr) : Prop := e.simplifyStep = .ok e'

theorem simplify_of_error {f : Fault} (h : e.simplifyStep = .error f) : e.simplify = .error f := by
  rw [simplify]
  split
  next g hg => rw [← hg, h]
  next e' he => rw [h] at he; cases he

theorem simplify_of_fixed (h : e.simplifyStep = .ok e) : e.simplify = .ok e := by
  rw [simplify]
  split
  next g hg => rw [h] at hg; cases hg
  next e' he =>
    rw [h] at he
    obtain rfl := Except.ok.inj he
    exact if_pos rfl

theorem simplify_of_pass {e' : Expr} (h : e.simplifyStep = .ok e') (hne : e' ≠ e) :
    e.simplify = e'.simplify := by
  rw [simplify]
  split
  next g hg => rw [h] at hg; cases hg
  next d hd =>
    rw [h] at hd
    obtain rfl := Except.ok.inj hd
    exact if_neg hne

/-- Simplification is a run of passes up to an expression that a pass does not
change, or on which it fails. -/
theorem simplify_run (e : Expr) : ∃ e', Relation.ReflTransGen Passes e e' ∧
    e.simplify = e'.simplifyStep ∧ ∀ d, e'.simplifyStep = .ok d → d = e' := by
  induction e using simplify.induct with
  | case1 e f hf =>
    refine ⟨e, .refl, ?_, fun d hd => by rw [hf] at hd; cases hd⟩
    rw [simplify_of_error hf, hf]
  | case2 e hs =>
    refine ⟨e, .refl, ?_, fun d hd => by rw [hs] at hd; exact (Except.ok.inj hd).symm⟩
    rw [simplify_of_fixed hs, hs]
  | case3 e e' hs hne ih =>
    obtain ⟨e'', hrun, heq, hfix⟩ := ih
    exact ⟨e'', .head hs hrun, (simplify_of_pass hs hne).trans heq, hfix⟩

/-- What one pass preserves, simplification preserves. -/
theorem simplify_of_passes {R : Expr → Expr → Prop} (hrefl : ∀ e, R e e)
    (htrans : ∀ a b c, R a b → R b c → R a c) (hpass : ∀ a b, Passes a b → R a b)
    {e' : Expr} (h : e.simplify = .ok e') : R e e' := by
  have hall : ∀ d, Relation.ReflTransGen Passes e d → R e d := by
    intro d hrun
    induction hrun with
    | refl => exact hrefl _
    | tail _ hstep ih => exact htrans _ _ _ ih (hpass _ _ hstep)
  obtain ⟨d, hrun, heq, hfix⟩ := simplify_run e
  rw [h] at heq
  rw [hfix e' heq.symm]
  exact hall d hrun

/-- **Simplification keeps the value.** It does not fail on an expression that
has one. -/
theorem simplify_of_value (h : e.value v = some x) :
    ∃ e', e.simplify = .ok e' ∧ e'.value v = some x := by
  have hall : ∀ d, Relation.ReflTransGen Passes e d → d.value v = some x := by
    intro d hrun
    induction hrun with
    | refl => exact h
    | tail _ hstep ih =>
      obtain ⟨e', he', hv⟩ := simplifyStep_of_value ih
      rw [show _ = _ from hstep] at he'
      rw [Except.ok.inj he']
      exact hv
  obtain ⟨d, hrun, heq, -⟩ := simplify_run e
  obtain ⟨e', he', hv⟩ := simplifyStep_of_value (hall d hrun)
  exact ⟨e', heq.trans he', hv⟩

/-- As `simplify_of_value`, for a simplification that is known to succeed. -/
theorem value_of_simplify {e' : Expr} (hs : e.simplify = .ok e') (h : e.value v = some x) :
    e'.value v = some x := by
  obtain ⟨d, hd, hv⟩ := simplify_of_value h
  rw [hs] at hd
  rw [Except.ok.inj hd]
  exact hv

/-! ### Failures -/

theorem divisionByZero_of_simplifyStep : ∀ {e : Expr} {f : Fault}, e.simplifyStep = .error f →
    ∃ d, f = .divisionByZero d
  | number _, _, h | quantity _, _, h | term _, _, h | polynomial _, _, h => by cases h
  | neg e, f, h => by
    rcases bind_eq_error.mp h with he | ⟨e', -, h⟩
    · exact divisionByZero_of_simplifyStep he
    · cases h
  | sum a b, f, h | product a b, f, h => by
    rcases bind_eq_error.mp h with ha | ⟨a', -, h⟩
    · exact divisionByZero_of_simplifyStep ha
    · rcases bind_eq_error.mp h with hb | ⟨b', -, h⟩
      · exact divisionByZero_of_simplifyStep hb
      · cases h
  | fraction a b, f, h => by
    rcases bind_eq_error.mp h with ha | ⟨a', -, h⟩
    · exact divisionByZero_of_simplifyStep ha
    · rcases bind_eq_error.mp h with hb | ⟨b', -, h⟩
      · exact divisionByZero_of_simplifyStep hb
      · unfold fractionRule at h
        split_ifs at h
        · cases h; exact ⟨_, rfl⟩
        · split at h <;> cases h

theorem divisionByZero_of_simplify {f : Fault} (h : e.simplify = .error f) :
    ∃ d, f = .divisionByZero d := by
  obtain ⟨e', -, heq, -⟩ := simplify_run e
  exact divisionByZero_of_simplifyStep (heq.symm.trans h)

/-- **Simplification is faithful.** Where an expression has a value, one pass and
the whole simplification succeed and keep it. What they fail on is a division by
zero that leaves the expression without a value at any reading. -/
theorem simplify_faithful (e : Expr) :
    (∀ v x, e.value v = some x → ∃ e' e'', e.simplifyStep = .ok e' ∧ e.simplify = .ok e'' ∧
      e'.value v = some x ∧ e''.value v = some x) ∧
    ∀ f, e.simplifyStep = .error f ∨ e.simplify = .error f →
      (∃ d, f = .divisionByZero d) ∧ ∀ v, e.value v = none := by
  have hkeep : ∀ v x, e.value v = some x → ∃ e' e'', e.simplifyStep = .ok e' ∧
      e.simplify = .ok e'' ∧ e'.value v = some x ∧ e''.value v = some x := by
    intro v x hx
    obtain ⟨e', hstep, hx'⟩ := simplifyStep_of_value hx
    obtain ⟨e'', hs, hx''⟩ := simplify_of_value hx
    exact ⟨e', e'', hstep, hs, hx', hx''⟩
  refine ⟨hkeep, fun f hf => ⟨?_, fun v => ?_⟩⟩
  · exact hf.elim divisionByZero_of_simplifyStep divisionByZero_of_simplify
  · rw [Option.eq_none_iff_forall_ne_some]
    intro x hx
    obtain ⟨e', e'', hstep, hs, -, -⟩ := hkeep v x hx
    rcases hf with hf | hf
    · rw [hf] at hstep; cases hstep
    · rw [hf] at hs; cases hs

/-! ### Termination -/

/-- What each pass that changes something makes smaller: the weight, or at equal
weight the magnitude. -/
def rank (e : Expr) : ℕ ×ₗ ℕ := toLex (e.weight, e.magnitude)

theorem rank_lt_of_simplifyStep {e' : Expr} (h : e.simplifyStep = .ok e') (hne : e' ≠ e) :
    e'.rank < e.rank := by
  rw [rank, rank, Prod.Lex.toLex_lt_toLex]
  exact (eq_or_lighter_of_simplifyStep h).resolve_left hne

/-- The result of `n` passes. -/
def simplifySteps : ℕ → Expr → Except Fault Expr
  | 0, e => .ok e
  | n + 1, e => do simplifySteps n (← e.simplifyStep)

theorem simplifySteps_of_fixed (h : e.simplifyStep = .ok e) (n : ℕ) : simplifySteps n e = .ok e := by
  induction n with
  | zero => rfl
  | succ n ih => rw [simplifySteps, h]; exact ih

/-- Enough passes do what simplification does, and more change nothing. -/
theorem exists_simplifySteps_eq (e : Expr) :
    ∃ n, ∀ m, n ≤ m → simplifySteps m e = e.simplify := by
  induction e using simplify.induct with
  | case1 e f hf =>
    refine ⟨1, fun m hm => ?_⟩
    obtain ⟨k, rfl⟩ := Nat.exists_eq_add_of_le' hm
    rw [simplify_of_error hf, simplifySteps, hf]
    rfl
  | case2 e hs =>
    refine ⟨0, fun m _ => ?_⟩
    rw [simplify_of_fixed hs, simplifySteps_of_fixed hs]
  | case3 e e' hs hne ih =>
    obtain ⟨n, hn⟩ := ih
    refine ⟨n + 1, fun m hm => ?_⟩
    obtain ⟨k, rfl⟩ := Nat.exists_eq_add_of_le' (Nat.le_of_add_left_le hm)
    rw [simplify_of_pass hs hne, simplifySteps, hs]
    exact hn k (by omega)

/-- **Passes come to an end.** A pass that changes an expression lowers its rank.
After finitely many passes there is a division by zero, or an expression that a
pass maps to itself; more passes do not change the outcome. -/
theorem simplifySteps_terminates :
    (∀ e e' : Expr, e.simplifyStep = .ok e' → e' ≠ e → e'.rank < e.rank) ∧
    ∀ e : Expr, ∃ n outcome, (∀ m, n ≤ m → simplifySteps m e = outcome) ∧
      ((∃ d, outcome = .error (.divisionByZero d)) ∨
        ∃ e', outcome = .ok e' ∧ e'.simplifyStep = .ok e') := by
  refine ⟨fun _ _ => rank_lt_of_simplifyStep, fun e => ?_⟩
  obtain ⟨n, hn⟩ := exists_simplifySteps_eq e
  refine ⟨n, e.simplify, hn, ?_⟩
  obtain ⟨d, -, heq, hfixed⟩ := simplify_run e
  cases hd : d.simplifyStep with
  | error f =>
    obtain ⟨g, rfl⟩ := divisionByZero_of_simplifyStep hd
    exact .inl ⟨g, heq.trans hd⟩
  | ok e' =>
    obtain rfl := hfixed e' hd
    exact .inr ⟨e', heq.trans hd, hd⟩

/-! ### Leaves -/

section Leaves

variable {P : Expr → Prop} (hP : Leafwise P)

include hP

theorem Leafwise.holds_ofRat (r : ℚ) : P (ofRat r) := by
  have hquotient : ∀ n d, P (fraction (number n) (number d)) :=
    fun n d => hP.on_fraction.mpr ⟨hP.on_number n, hP.on_number d⟩
  unfold ofRat
  split_ifs
  · exact hP.on_number _
  · exact hP.on_neg.mpr (hquotient _ _)
  · exact hquotient _ _

theorem Leafwise.holds_negRule (he : P e) : P e.negRule := by
  cases e with
  | number n => exact hP.on_number _
  | neg e => exact hP.on_neg.mp he
  | _ => exact hP.on_neg.mpr he

theorem Leafwise.holds_sumRule (ha : P a) (hb : P b) : P (sumRule a b) := by
  unfold sumRule
  split_ifs
  · exact hb
  · exact ha
  · split
    · exact hP.holds_ofRat _
    · unfold sumSigns
      split
      · exact hP.on_neg.mpr (hP.on_sum.mpr ⟨hP.on_neg.mp ha, hP.on_neg.mp hb⟩)
      · split_ifs
        · exact hP.on_number 0
        · exact hP.on_sum.mpr ⟨ha, hb⟩
      · split_ifs
        · exact hP.on_number 0
        · exact hP.on_sum.mpr ⟨ha, hb⟩
      · exact hP.on_sum.mpr ⟨ha, hb⟩

theorem Leafwise.holds_of_negated? {e' : Expr} (h : e.negated? = some e') (he : P e) : P e' := by
  cases e <;> cases h
  exact hP.on_neg.mp he

theorem Leafwise.holds_of_magnitude? {e' : Expr} (h : e.magnitude? = some e') : P e' := by
  cases e with
  | number m =>
    simp only [magnitude?] at h
    split_ifs at h
    cases h
    exact hP.on_number _
  | _ => cases h

theorem Leafwise.holds_signOut? {node : Expr → Expr → Expr}
    (hnode : ∀ {a b}, P a → P b → P (node a b)) (h : signOut? node a b = some e)
    (ha : P a) (hb : P b) : P e := by
  unfold signOut? at h
  split at h
  next a' h' => cases h; exact hnode (hP.holds_of_negated? h' ha) hb
  · split at h
    next b' h' => cases h; exact hnode ha (hP.holds_of_negated? h' hb)
    · split at h
      next a' h' => cases h; exact hnode (hP.holds_of_magnitude? h') hb
      · obtain ⟨b', h', rfl⟩ := Option.map_eq_some_iff.mp h
        exact hnode ha (hP.holds_of_magnitude? h')

theorem Leafwise.holds_of_over? (h : e.over? d = some n) (he : P e) : P n := by
  rw [eq_fraction_of_over? h] at he
  exact (hP.on_fraction.mp he).1

theorem Leafwise.holds_productRule (ha : P a) (hb : P b) : P (productRule a b) := by
  unfold productRule
  split_ifs
  · exact hP.on_number 0
  · exact hb
  · exact ha
  · exact hP.on_neg.mpr hb
  · exact hP.on_neg.mpr ha
  · split
    · exact hP.holds_ofRat _
    · unfold productSigns
      split
      next e he =>
        exact hP.on_neg.mpr (hP.holds_signOut? (fun ha hb => hP.on_product.mpr ⟨ha, hb⟩) he ha hb)
      · split
        next n hn => exact hP.holds_of_over? hn hb
        · cases hn : a.over? b with
          | none => exact hP.on_product.mpr ⟨ha, hb⟩
          | some n => exact hP.holds_of_over? hn ha

theorem Leafwise.holds_factors : ∀ {e : Expr}, P e → ∀ f ∈ e.factors, P f
  | product a b, he, f, hf => by
    rcases List.mem_append.mp hf with hf | hf
    · exact Leafwise.holds_factors (hP.on_product.mp he).1 f hf
    · exact Leafwise.holds_factors (hP.on_product.mp he).2 f hf
  | number _, he, f, hf | quantity _, he, f, hf | neg _, he, f, hf | sum _ _, he, f, hf
  | fraction _ _, he, f, hf | term _, he, f, hf | polynomial _, he, f, hf => by
    rw [List.mem_singleton.mp hf]
    exact he

theorem Leafwise.holds_ofFactors {es : List Expr} (h : ∀ f ∈ es, P f) : P (ofFactors es) := by
  cases es with
  | nil => exact hP.on_number 1
  | cons e es =>
    exact List.foldlRecOn es product (h e (.head _)) fun _ hd f hf =>
      hP.on_product.mpr ⟨hd, h f (.tail _ hf)⟩

theorem Leafwise.holds_cancelNumber? : ∀ {es fs : List Expr} {k l : ℤ},
    cancelNumber? k es = some (fs, l) → (∀ f ∈ es, P f) → ∀ f ∈ fs, P f
  | [], _, _, _, h, _ => by cases h
  | e :: es, fs, k, l, h, hes => by
    unfold cancelNumber? at h
    split at h
    · cases h
    next m rest heq =>
      obtain ⟨rfl, rfl⟩ := List.cons.inj heq
      split_ifs at h
      cases h
      exact List.forall_mem_cons.mpr ⟨hP.on_number _, fun f hf => hes f (.tail _ hf)⟩
    next rest f heq =>
      obtain ⟨rfl, rfl⟩ := List.cons.inj heq
      obtain ⟨w, hw, hfs⟩ := Option.map_eq_some_iff.mp h
      cases hfs
      exact List.forall_mem_cons.mpr ⟨hes _ (.head _),
        Leafwise.holds_cancelNumber? hw fun f hf => hes f (.tail _ hf)⟩

omit hP in
theorem cancelCommon_subset : ∀ num den : List Expr,
    (cancelCommon num den).1 ⊆ num ∧ (cancelCommon num den).2 ⊆ den
  | [], _ => ⟨List.Subset.refl _, List.Subset.refl _⟩
  | f :: num, den => by
    unfold cancelCommon
    split_ifs
    · obtain ⟨hnum, hden⟩ := cancelCommon_subset num (den.erase f)
      exact ⟨List.subset_cons_of_subset _ hnum, fun g hg => List.mem_of_mem_erase (hden hg)⟩
    · obtain ⟨hnum, hden⟩ := cancelCommon_subset num den
      exact ⟨List.cons_subset_cons _ hnum, hden⟩

theorem Leafwise.holds_of_cofactor? {f : Expr} (h : e.cofactor? f = some a) (he : P e) : P a := by
  cases e with
  | product b c =>
    simp only [cofactor?] at h
    split_ifs at h
    · cases h; exact (hP.on_product.mp he).1
    · cases h; exact (hP.on_product.mp he).2
  | _ => cases h

theorem Leafwise.holds_cancelFactors (hn : P n) (hd : P d) : P (cancelFactors n d) := by
  have hboth : P (fraction n d) := hP.on_fraction.mpr ⟨hn, hd⟩
  unfold cancelFactors
  split
  next e he => exact hP.holds_of_cofactor? he hn
  · split
    next e he => exact hP.on_fraction.mpr ⟨hP.on_number 1, hP.holds_of_cofactor? he hd⟩
    · split
      · split
        next c hc =>
          exact hP.on_fraction.mpr
            ⟨hP.holds_ofFactors (hP.holds_cancelNumber? hc (hP.holds_factors hn)), hP.on_number _⟩
        · exact hboth
      · split
        · unfold cancelProducts
          simp only
          split_ifs
          · exact hboth
          · obtain ⟨hnum, hden⟩ := cancelCommon_subset (factors _) (factors _)
            exact hP.on_fraction.mpr
              ⟨hP.holds_ofFactors fun f hf => hP.holds_factors hn f (hnum hf),
                hP.holds_ofFactors fun f hf => hP.holds_factors hd f (hden hf)⟩
        · exact hboth
      · exact hboth

theorem Leafwise.holds_fractionRule {e : Expr} (h : fractionRule n d = .ok e) (hn : P n)
    (hd : P d) : P e := by
  unfold fractionRule at h
  split_ifs at h
  · cases h; exact hP.on_number 0
  · cases h; exact hP.on_number 1
  · cases h; exact hn
  · cases h; exact hP.on_neg.mpr hn
  · split at h
    · cases h; exact hP.holds_ofRat _
    · cases h
      unfold fractionSigns
      split
      next e he =>
        exact hP.on_neg.mpr (hP.holds_signOut? (fun ha hb => hP.on_fraction.mpr ⟨ha, hb⟩) he hn hd)
      · split
        · obtain ⟨hx, hy⟩ := hP.on_fraction.mp hd
          exact hP.on_fraction.mpr ⟨hP.on_product.mpr ⟨hn, hy⟩, hx⟩
        · split
          · obtain ⟨hx, hy⟩ := hP.on_fraction.mp hn
            exact hP.on_fraction.mpr ⟨hx, hP.on_product.mpr ⟨hy, hd⟩⟩
          · exact hP.holds_cancelFactors hn hd

theorem Leafwise.holds_simplifyStep : ∀ {e e' : Expr}, e.simplifyStep = .ok e' → P e → P e'
  | number _, _, h, he => by cases h; exact he
  | quantity _, _, h, he => by cases h; exact he
  | neg e, _, h, he => by
    obtain ⟨d, hd, h⟩ := bind_eq_ok.mp h
    cases h
    exact hP.holds_negRule (Leafwise.holds_simplifyStep hd (hP.on_neg.mp he))
  | sum a b, _, h, he => by
    obtain ⟨a', ha, h⟩ := bind_eq_ok.mp h
    obtain ⟨b', hb, h⟩ := bind_eq_ok.mp h
    cases h
    exact hP.holds_sumRule (Leafwise.holds_simplifyStep ha (hP.on_sum.mp he).1)
      (Leafwise.holds_simplifyStep hb (hP.on_sum.mp he).2)
  | product a b, _, h, he => by
    obtain ⟨a', ha, h⟩ := bind_eq_ok.mp h
    obtain ⟨b', hb, h⟩ := bind_eq_ok.mp h
    cases h
    exact hP.holds_productRule (Leafwise.holds_simplifyStep ha (hP.on_product.mp he).1)
      (Leafwise.holds_simplifyStep hb (hP.on_product.mp he).2)
  | fraction a b, _, h, he => by
    obtain ⟨a', ha, h⟩ := bind_eq_ok.mp h
    obtain ⟨b', hb, h⟩ := bind_eq_ok.mp h
    exact hP.holds_fractionRule h (Leafwise.holds_simplifyStep ha (hP.on_fraction.mp he).1)
      (Leafwise.holds_simplifyStep hb (hP.on_fraction.mp he).2)
  | term t, _, h, he => by
    cases h
    split_ifs
    · exact hP.on_number 0
    · exact hP.on_number _
    · exact he
  | polynomial p, _, h, he => by
    cases h
    split
    · exact hP.on_number _
    · exact he

/-- **Simplification brings in no leaf but numbers.** What is decided at the
leaves of an expression holds of what is left of it. -/
theorem Leafwise.holds_simplify {e' : Expr} (h : e.simplify = .ok e') (he : P e) : P e' :=
  simplify_of_passes (R := fun e e' => P e → P e') (fun _ => id)
    (fun _ _ _ hab hbc => hbc ∘ hab) (fun _ _ => hP.holds_simplifyStep) h he

end Leaves

/-- What holds of all quantities of an expression holds of all that are left. -/
theorem all_simplify {Q : Quantity → Prop} {e' : Expr} (h : e.simplify = .ok e') (he : e.All Q) :
    e'.All Q := (leafwise_all Q).holds_simplify h he

end Expr
end AreaMethod
