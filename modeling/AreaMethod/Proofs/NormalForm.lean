/-
# Expansion is a normal form

An expression without fractions and negative exponents denotes a polynomial over
the integers, with the quantities as independent variables. Expansion computes
it: it succeeds exactly on these expressions, its result denotes the same
polynomial, and a polynomial is denoted by only one result. So two expressions
denote the same polynomial exactly if their expansions are equal.

The result and the expression have the same value whatever values the quantities
have (`Expr.value_of_expand`), which determines the polynomial; that no two
results denote one polynomial is read off the coefficients.

Key definitions: `Polynomial.denote`, `Expr.denote?`.
Key theorems: `Polynomial.eq_of_denote_eq`, `Expr.denote?_of_expand`,
`Expr.expand_normalForm`.
-/
import Mathlib
import AreaMethod.Proofs.Fractions
import AreaMethod.Proofs.PolynomialIdentity

namespace AreaMethod

open MvPolynomial

/-! ### Polynomials -/

namespace Polynomial

variable {p q : Polynomial}

/-- The polynomial over the integers, as a sum of monomials. -/
noncomputable def denote (p : Polynomial) : MvPolynomial Quantity ℤ :=
  (p.entries.map fun t => monomial t.1.degrees t.2).sum

theorem map_denote (p : Polynomial) : map (Int.castRingHom ℚ) p.denote = p.toMvPolynomial := by
  unfold denote toMvPolynomial
  rw [map_list_sum, List.map_map]
  refine congrArg List.sum (List.map_congr_left fun t _ => ?_)
  exact map_monomial _ _ _

theorem coeff_denote (hp : p.AllPowers fun y => 0 < y.2) {k : Powers}
    (hk : ∀ y ∈ k.entries, 0 < y.2) : coeff k.degrees p.denote = p.get k :=
  coeff_sum_monomial ℤ hk p.ascending hp

theorem get_eq_zero (hp : p.AllPowers fun y => 0 < y.2) {k : Powers}
    (hk : ¬ ∀ y ∈ k.entries, 0 < y.2) : p.get k = 0 :=
  Sparse.valueIn_eq_zero fun t ht heq => hk (heq ▸ hp t ht)

/-- **Polynomials are denoted once.** Without negative exponents, the polynomial
that is denoted determines the terms. -/
theorem eq_of_denote_eq (hp : p.AllPowers fun y => 0 < y.2) (hq : q.AllPowers fun y => 0 < y.2)
    (h : p.denote = q.denote) : p = q := by
  refine Sparse.ext_get fun k => ?_
  by_cases hk : ∀ y ∈ k.entries, 0 < y.2
  · rw [← coeff_denote hp hk, h, coeff_denote hq hk]
  · rw [get_eq_zero hp hk, get_eq_zero hq hk]

theorem denote_eq_zero_iff (hp : p.AllPowers fun y => 0 < y.2) : p.denote = 0 ↔ p.isZero := by
  constructor
  · intro h
    have hzero : zero.AllPowers fun y => 0 < y.2 := fun _ hk => (nomatch hk)
    rw [eq_of_denote_eq hp hzero h]
    rfl
  · intro h
    rw [denote, List.isEmpty_iff.mp h]
    rfl

theorem isIntegral_of_allPowers (hp : p.AllPowers fun y => 0 < y.2) : p.isIntegral := by
  refine List.all_eq_true.mpr fun t ht => List.all_eq_true.mpr fun y hy => decide_eq_true ?_
  obtain ⟨k, hk, rfl⟩ := List.mem_map.mp ht
  exact hp k hk y hy

end Polynomial

/-! ### Expressions -/

namespace Expr

/-- The polynomial that an expression denotes; there is none if it has a fraction
or a negative exponent. -/
noncomputable def denote? : Expr → Option (MvPolynomial Quantity ℤ)
  | number n => some (C n)
  | quantity q => some (X q)
  | neg e => do return -(← e.denote?)
  | sum a b => do return (← a.denote?) + (← b.denote?)
  | product a b => do return (← a.denote?) * (← b.denote?)
  | fraction _ _ => none
  | term t => if t.isIntegral then some (monomial t.powers.degrees t.coefficient) else none
  | polynomial p => if p.isIntegral then some p.denote else none

variable {e : Expr} {p : Polynomial}

theorem exists_denote? : ∀ {e : Expr}, e.hasFraction = false → ∃ P, e.denote? = some P
  | number _, _ | quantity _, _ => ⟨_, rfl⟩
  | neg e, h => by
    obtain ⟨P, hP⟩ := exists_denote? (e := e) h
    exact ⟨-P, by rw [denote?, hP]; rfl⟩
  | sum a b, h | product a b, h => by
    obtain ⟨ha, hb⟩ := Bool.or_eq_false_iff.mp h
    obtain ⟨P, hP⟩ := exists_denote? ha
    obtain ⟨P', hP'⟩ := exists_denote? hb
    exact ⟨_, by rw [denote?, hP, hP']; rfl⟩
  | fraction _ _, h => (nomatch h)
  | term _, h | polynomial _, h => ⟨_, if_pos (by simpa [hasFraction] using h)⟩

/-- The value of an expression is that of the polynomial that it denotes. -/
theorem value_of_denote? (w : Quantity → ℚ) : ∀ {e : Expr} {P : MvPolynomial Quantity ℤ},
    e.denote? = some P →
      e.value (fun q => some (w q)) = some (eval w (map (Int.castRingHom ℚ) P))
  | number _, _, h | quantity _, _, h => by
    cases h
    simp [value]
  | neg e, _, h => by
    obtain ⟨P, hP, h⟩ := Option.bind_eq_some_iff.mp h
    cases h
    rw [value, value_of_denote? w hP, map_neg, map_neg]
    rfl
  | sum a b, _, h => by
    obtain ⟨P, hP, h⟩ := Option.bind_eq_some_iff.mp h
    obtain ⟨P', hP', h⟩ := Option.bind_eq_some_iff.mp h
    cases h
    rw [map_add, map_add]
    exact value_sum (value_of_denote? w hP) (value_of_denote? w hP')
  | product a b, _, h => by
    obtain ⟨P, hP, h⟩ := Option.bind_eq_some_iff.mp h
    obtain ⟨P', hP', h⟩ := Option.bind_eq_some_iff.mp h
    cases h
    rw [map_mul, map_mul]
    exact value_product (value_of_denote? w hP) (value_of_denote? w hP')
  | term t, _, h => by
    unfold denote? at h
    split_ifs at h with ht
    cases h
    have hpos : ∀ y ∈ t.powers.entries, 0 < y.2 :=
      fun y hy => of_decide_eq_true (List.all_eq_true.mp ht y hy)
    rw [map_monomial, eval_monomial]
    exact Term.value_eq_some.mpr ⟨_, Powers.value_eq_prod hpos w, rfl⟩
  | polynomial p, _, h => by
    unfold denote? at h
    split_ifs at h with hp
    cases h
    rw [Polynomial.map_denote]
    exact Polynomial.value_eq_eval (Polynomial.allPowers_of_isIntegral hp) w

theorem malformed_of_expand : ∀ {e : Expr} {f : Fault}, e.expand = .error f →
    ∃ m, f = .malformed m
  | number _, _, h | quantity _, _, h => by cases h
  | neg e, _, h => by
    rcases bind_eq_error.mp h with he | ⟨p, -, h⟩
    · exact malformed_of_expand he
    · cases h
  | sum a b, _, h | product a b, _, h => by
    rcases bind_eq_error.mp h with ha | ⟨p, -, h⟩
    · exact malformed_of_expand ha
    · rcases bind_eq_error.mp h with hb | ⟨q, -, h⟩
      · exact malformed_of_expand hb
      · cases h
  | fraction _ _, _, h => by cases h; exact ⟨_, rfl⟩
  | term _, _, h | polynomial _, _, h => by
    unfold expand at h
    split_ifs at h
    cases h
    exact ⟨_, rfl⟩

theorem hasFraction_of_expand : ∀ {e : Expr} {p : Polynomial}, e.expand = .ok p →
    e.hasFraction = false
  | number _, _, _ | quantity _, _, _ => rfl
  | neg e, _, h => by
    obtain ⟨p, hp, -⟩ := bind_eq_ok.mp h
    exact hasFraction_of_expand (e := e) hp
  | sum a b, _, h | product a b, _, h => by
    obtain ⟨p, hp, h⟩ := bind_eq_ok.mp h
    obtain ⟨q, hq, -⟩ := bind_eq_ok.mp h
    exact Bool.or_eq_false_iff.mpr ⟨hasFraction_of_expand hp, hasFraction_of_expand hq⟩
  | fraction _ _, _, h => by cases h
  | term _, _, h | polynomial _, _, h => by
    unfold expand at h
    split_ifs at h with hintegral
    simpa [hasFraction] using hintegral

/-- A plain expression can be multiplied out, without negative exponents. -/
theorem exists_expand (h : e.hasFraction = false) :
    ∃ p, e.expand = .ok p ∧ p.AllPowers fun y => 0 < y.2 := by
  have hplain : e.Plain fun _ => True := ⟨h, fun _ _ => trivial⟩
  obtain ⟨p, hp, hall⟩ := expand_of_plain hplain
  exact ⟨p, hp, fun k hk y hy => (hall k hk y hy).2⟩

theorem allPowers_of_expand (h : e.expand = .ok p) : p.AllPowers fun y => 0 < y.2 := by
  obtain ⟨q, hq, hall⟩ := exists_expand (hasFraction_of_expand h)
  rw [h] at hq
  rw [Except.ok.inj hq]
  exact hall

/-- **Expansion keeps the polynomial.** -/
theorem denote?_of_expand (h : e.expand = .ok p) : e.denote? = some p.denote := by
  obtain ⟨P, hP⟩ := exists_denote? (hasFraction_of_expand h)
  -- both have the same value wherever the quantities have one
  have heval : ∀ w, eval w (map (Int.castRingHom ℚ) P) = eval w p.toMvPolynomial := by
    intro w
    have hvalue := value_of_expand h (value_of_denote? w hP)
    rw [Polynomial.value_eq_eval (allPowers_of_expand h) w] at hvalue
    exact (Option.some.inj hvalue).symm
  have hmap : map (Int.castRingHom ℚ) P = map (Int.castRingHom ℚ) p.denote := by
    rw [Polynomial.map_denote]
    exact MvPolynomial.funext heval
  rw [hP, map_injective _ (Int.castRingHom ℚ).injective_int hmap]

/-- **Expansion is a complete normal form.** It succeeds exactly on expressions
without fractions and negative exponents, and otherwise finds them malformed. The
result denotes the polynomial of the expression; results are equal exactly if the
expressions denote the same polynomial, and without terms exactly if it is zero. -/
theorem expand_normalForm (e : Expr) :
    ((∃ p, e.expand = .ok p) ↔ e.hasFraction = false) ∧
    (∀ f, e.expand = .error f → ∃ m, f = .malformed m) ∧
    ∀ p, e.expand = .ok p →
      (∃ P, e.denote? = some P ∧ (polynomial p).denote? = some P) ∧
      (∀ (e' : Expr) (p' : Polynomial), e'.expand = .ok p' → (p = p' ↔ e.denote? = e'.denote?)) ∧
      (p.isZero ↔ e.denote? = some 0) := by
  refine ⟨⟨fun ⟨p, hp⟩ => hasFraction_of_expand hp, fun h => ?_⟩, fun _ => malformed_of_expand,
    fun p hp => ⟨⟨p.denote, denote?_of_expand hp, ?_⟩, fun e' p' hp' => ?_, ?_⟩⟩
  · obtain ⟨p, hp, -⟩ := exists_expand h
    exact ⟨p, hp⟩
  · exact if_pos (Polynomial.isIntegral_of_allPowers (allPowers_of_expand hp))
  · rw [denote?_of_expand hp, denote?_of_expand hp', Option.some.injEq]
    constructor
    · exact congrArg Polynomial.denote
    · exact Polynomial.eq_of_denote_eq (allPowers_of_expand hp) (allPowers_of_expand hp')
  · rw [denote?_of_expand hp, Option.some.injEq,
      Polynomial.denote_eq_zero_iff (allPowers_of_expand hp)]

end Expr
end AreaMethod
