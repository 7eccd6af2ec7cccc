/-
# Normalized polynomials

Normalization divides a polynomial by its content and makes its last coefficient
positive. Every division is exact, so a polynomial is a multiple of its normalized
form (`Polynomial.get_eq_mul`). Unless the polynomial is zero, the coefficients
that are left have no common divisor but units, and the one of the greatest
product is positive (`Polynomial.Primitive`).

Primitive polynomials with a common multiple are the same
(`Polynomial.Primitive.eq_of_mul_eq`): their coefficients determine the factors up
to sign, and the greatest product determines the sign. So the normalized form
stands for a polynomial up to a factor (`Polynomial.normalized_canonical`).

Key definition: `Polynomial.Primitive`.
Key theorems: `Polynomial.primitive_normalized`,
`Polynomial.Primitive.eq_of_mul_eq`, `Polynomial.normalized_canonical`.
-/
import Mathlib
import AreaMethod.Proofs.LaurentPolynomial

namespace AreaMethod

theorem Sparse.get_mapValues {κ : Type} [Ord κ] [Std.TransOrd κ] [Std.LawfulEqOrd κ] {g : ℤ → ℤ}
    (hg : g 0 = 0) (f : Sparse κ) (k : κ) : (f.mapValues g).get k = g (f.get k) := by
  by_cases hk : g (f.get k) = 0
  · rw [hk]
    by_contra hne
    -- a value of the new function comes from one of the old one at the same key
    obtain ⟨hmem, -⟩ := List.mem_filter.mp (mem_of_valueIn_ne_zero hne)
    obtain ⟨x, hx, heq⟩ := List.mem_map.mp hmem
    obtain ⟨rfl, hvalue⟩ := Prod.ext_iff.mp heq
    rw [(mem_entries_iff.mp hx).2] at hk
    exact hne (hvalue.symm.trans hk)
  · have hf : f.get k ≠ 0 := by
      intro hzero
      rw [hzero] at hk
      exact hk hg
    have hmem : (k, g (f.get k)) ∈ (f.mapValues g).entries := by
      refine List.mem_filter.mpr ⟨List.mem_map.mpr ⟨(k, f.get k), ?_, rfl⟩, by simpa using hk⟩
      exact mem_entries_iff.mpr ⟨hf, rfl⟩
    exact (mem_entries_iff.mp hmem).2

namespace Polynomial

variable {p q : Polynomial}

/-! ### Multiples -/

theorem smul_laurent {m : ℤ} (hm : m ≠ 0) (p : Polynomial) :
    m • p.laurent = laurent (Sparse.mapValues (m * ·) p) := by
  have hentry : ∀ x : Powers × ℤ, m • (AddMonoidAlgebra.singleAddHom x.1.exponents x.2 : Laurent) =
      AddMonoidAlgebra.singleAddHom x.1.exponents (m * x.2) := by
    intro x
    rw [← smul_eq_mul, map_zsmul]
  have hentries := Sparse.entries_mapValues fun x hx => mul_ne_zero hm (p.nonzero x hx)
  rw [laurent, laurent, Sparse.sumOver, Sparse.sumOver, hentries, List.smul_sum, List.map_map,
    List.map_map]
  exact congrArg List.sum (List.map_congr_left fun x _ => hentry x)

/-- Multiples are compared coefficient by coefficient. -/
theorem smul_laurent_eq_iff {m n : ℤ} (hm : m ≠ 0) (hn : n ≠ 0) :
    m • p.laurent = n • q.laurent ↔ ∀ k, m * p.get k = n * q.get k := by
  have hget : ∀ (m : ℤ) (p : Polynomial) (k : Powers),
      (Sparse.mapValues (m * ·) p).get k = m * p.get k :=
    fun m p k => Sparse.get_mapValues (mul_zero m) p k
  rw [smul_laurent hm, smul_laurent hn, laurent_injective.eq_iff]
  constructor
  · intro h k
    rw [← hget, h, hget]
  · intro h
    apply Sparse.ext_get
    intro k
    rw [hget, hget, h k]

/-! ### The divisor -/

theorem natAbs_divisor (p : Polynomial) : p.divisor.natAbs = p.content := by
  unfold divisor
  split_ifs
  · rw [Int.natAbs_neg, Int.natAbs_natCast]
  · exact Int.natAbs_natCast _

theorem divisor_dvd_get (p : Polynomial) (k : Powers) : p.divisor ∣ p.get k := by
  by_cases hk : p.get k = 0
  · rw [hk]
    exact dvd_zero _
  · exact divisor_dvd (Sparse.mem_entries_iff.mpr ⟨hk, rfl⟩)

theorem divisor_ne_zero (h : p ≠ zero) : p.divisor ≠ 0 := by
  intro hzero
  refine h (Sparse.ext_get fun k => ?_)
  have hdvd := p.divisor_dvd_get k
  rw [hzero] at hdvd
  exact zero_dvd_iff.mp hdvd

/-- **Divisions are exact.** A polynomial is a multiple of its normalized form. -/
theorem get_eq_mul (p : Polynomial) (k : Powers) :
    p.get k = p.divisor * p.normalized.get k := by
  have hget : p.normalized.get k = p.get k / p.divisor :=
    Sparse.get_mapValues (g := (· / p.divisor)) (Int.zero_ediv _) p k
  rw [hget, Int.mul_ediv_cancel' (p.divisor_dvd_get k)]

/-- The factor is not zero, also for the polynomial zero. -/
theorem exists_get_eq_mul (p : Polynomial) :
    ∃ m : ℤ, m ≠ 0 ∧ ∀ k, p.get k = m * p.normalized.get k := by
  by_cases hp : p = zero
  · subst hp
    exact ⟨1, one_ne_zero, fun k => rfl⟩
  · exact ⟨p.divisor, divisor_ne_zero hp, p.get_eq_mul⟩

/-! ### Primitive polynomials -/

/-- Only units divide all coefficients, and that of the greatest product is
positive. -/
structure Primitive (p : Polynomial) : Prop where
  coprime : ∀ d : ℤ, (∀ k, d ∣ p.get k) → IsUnit d
  leading : ∃ k, 0 < p.get k ∧ ∀ l, p.get l ≠ 0 → l ≠ k → compare l k = .lt

theorem dvd_gcd_foldl {d : ℕ} : ∀ {entries : List (Powers × ℤ)} {g : ℕ}, d ∣ g →
    (∀ x ∈ entries, d ∣ x.2.natAbs) → d ∣ entries.foldl (fun g x => Nat.gcd g x.2.natAbs) g
  | [], _, hg, _ => hg
  | x :: rest, g, hg, h => by
    obtain ⟨hx, hrest⟩ := List.forall_mem_cons.mp h
    rw [List.foldl_cons]
    exact dvd_gcd_foldl (Nat.dvd_gcd hg hx) hrest

theorem dvd_content {d : ℕ} (h : ∀ x ∈ p.entries, d ∣ x.2.natAbs) : d ∣ p.content :=
  dvd_gcd_foldl (dvd_zero d) h

/-- A common divisor of what is left would belong to the content. -/
theorem isUnit_of_dvd_normalized (hp : p ≠ zero) {d : ℤ} (h : ∀ k, d ∣ p.normalized.get k) :
    IsUnit d := by
  have hcontent : p.content * d.natAbs ∣ p.content := by
    refine dvd_content fun x hx => ?_
    have hx : p.get x.1 = x.2 := (Sparse.mem_entries_iff.mp hx).2
    rw [← hx, get_eq_mul, Int.natAbs_mul, natAbs_divisor]
    exact mul_dvd_mul_left _ (Int.natAbs_dvd_natAbs.mpr (h x.1))
  have hpos : 0 < p.content := by
    rw [← natAbs_divisor]
    exact Int.natAbs_pos.mpr (divisor_ne_zero hp)
  have hone : d.natAbs ∣ 1 := by
    refine Nat.dvd_of_mul_dvd_mul_left hpos ?_
    rw [mul_one]
    exact hcontent
  exact Int.isUnit_iff_natAbs_eq.mpr (Nat.dvd_one.mp hone)

/-- The divisor has the sign of the last coefficient. -/
theorem divisor_sign {init : List (Powers × ℤ)} {x : Powers × ℤ} (h : p.entries = init ++ [x]) :
    x.2 < 0 ∧ p.divisor ≤ 0 ∨ 0 < x.2 ∧ 0 ≤ p.divisor := by
  have hleads : p.leadsNegative = decide (x.2 < 0) := by
    rw [leadsNegative, h, List.getLast?_concat]
  have hne : x.2 ≠ 0 := p.nonzero x (h ▸ List.mem_append_right _ (.head _))
  unfold divisor
  rw [hleads]
  split_ifs with hneg
  · exact .inl ⟨of_decide_eq_true hneg, by omega⟩
  · have hnot := of_decide_eq_false (Bool.eq_false_iff.mpr hneg)
    exact .inr ⟨by omega, by omega⟩

theorem primitive_normalized (hp : p ≠ zero) : p.normalized.Primitive where
  coprime _ := isUnit_of_dvd_normalized hp
  leading := by
    rcases List.eq_nil_or_concat p.entries with hnil | ⟨init, x, hentries⟩
    · refine absurd (Sparse.ext_get fun k => ?_) hp
      rw [Sparse.get, hnil]
      rfl
    rw [List.concat_eq_append] at hentries
    have hx : p.get x.1 = x.2 := by
      refine (Sparse.mem_entries_iff (n := x.2)).mp ?_ |>.2
      rw [hentries]
      exact List.mem_append_right _ (.head _)
    refine ⟨x.1, ?_, fun l hl hne => ?_⟩
    · rw [get_eq_mul] at hx
      rcases divisor_sign hentries with ⟨hneg, hle⟩ | ⟨hpos, hle⟩
      · exact pos_of_mul_neg_right (hx ▸ hneg) hle
      · exact pos_of_mul_pos_right (hx ▸ hpos) hle
    · -- all other products stand before the last one
      have hmem : (l, p.get l) ∈ p.entries := by
        refine Sparse.mem_entries_iff.mpr ⟨?_, rfl⟩
        rw [get_eq_mul]
        exact mul_ne_zero (divisor_ne_zero hp) hl
      have hascending := p.ascending
      rw [hentries] at hmem hascending
      rcases List.mem_append.mp hmem with hmem | hmem
      · exact (List.pairwise_append.mp hascending).2.2 _ hmem x (.head _)
      · exact absurd (congrArg Prod.fst (List.mem_singleton.mp hmem)) hne

/-- A factor of a multiple is a factor of the multiplier. -/
theorem Primitive.dvd_of_dvd_mul (hp : p.Primitive) {a b : ℤ} (hb : b ≠ 0)
    (h : ∀ k, a ∣ b * p.get k) : a ∣ b := by
  have hgcd : 0 < Int.gcd a b := Int.gcd_pos_of_ne_zero_right a hb
  obtain ⟨a', b', hcoprime, ha, hb'⟩ := Int.exists_gcd_one hgcd
  generalize (Int.gcd a b : ℤ) = g at ha hb'
  subst ha hb'
  have hg : g ≠ 0 := right_ne_zero_of_mul hb
  have hunit : IsUnit a' := by
    refine hp.coprime a' fun k => ?_
    have hdvd : a' * g ∣ (b' * p.get k) * g := by
      rw [mul_right_comm]
      exact h k
    exact (Int.isCoprime_iff_gcd_eq_one.mpr hcoprime).dvd_of_dvd_mul_left
      (Int.dvd_of_mul_dvd_mul_right hg hdvd)
  exact mul_dvd_mul_right hunit.dvd g

/-- **Primitive polynomials with a common multiple are the same.** -/
theorem Primitive.eq_of_mul_eq (hp : p.Primitive) (hq : q.Primitive) {a b : ℤ} (ha : a ≠ 0)
    (hb : b ≠ 0) (h : ∀ k, a * p.get k = b * q.get k) : p = q := by
  have hab : a ∣ b := hq.dvd_of_dvd_mul hb fun k => Dvd.intro _ (h k)
  have hba : b ∣ a := hp.dvd_of_dvd_mul ha fun k => Dvd.intro _ (h k).symm
  have hsupport : ∀ k, p.get k ≠ 0 ↔ q.get k ≠ 0 := by
    intro k
    have hne : a * p.get k ≠ 0 ↔ b * q.get k ≠ 0 := by rw [h k]
    simpa [ha, hb] using hne
  obtain ⟨k, hk, hgreatest⟩ := hp.leading
  obtain ⟨l, hl, hgreatest'⟩ := hq.leading
  -- both have the same greatest product
  obtain rfl : k = l := by
    by_contra hne
    have hlk := hgreatest l ((hsupport l).mpr hl.ne') (Ne.symm hne)
    have hkl := hgreatest' k ((hsupport k).mp hk.ne') hne
    rw [Std.OrientedOrd.eq_swap, hkl] at hlk
    cases hlk
  have heq : a = b := by
    rcases Int.associated_iff.mp (associated_of_dvd_dvd hab hba) with heq | heq
    · exact heq
    · have hsum : b * (p.get k + q.get k) = 0 := by
        have := h k
        rw [heq] at this
        linarith
      rcases mul_eq_zero.mp hsum with hzero | hzero
      · exact absurd hzero hb
      · omega
  apply Sparse.ext_get
  intro k
  have hk := h k
  rw [heq] at hk
  exact mul_left_cancel₀ hb hk

/-- **The normalized form stands for a polynomial up to a factor.** Polynomials have
the same normalized form exactly if a multiple of one is a multiple of the other,
as Laurent polynomials. A polynomial is a multiple of its normalized form. Unless
it is zero, the coefficients of this have no common divisor but units, and the one
of the greatest product is positive. -/
theorem normalized_canonical (p q : Polynomial) :
    (p.normalized = q.normalized ↔
      ∃ m n : ℤ, m ≠ 0 ∧ n ≠ 0 ∧ m • p.laurent = n • q.laurent) ∧
    (∃ m : ℤ, p.laurent = m • p.normalized.laurent) ∧
    (p ≠ zero → p.normalized.Primitive) := by
  obtain ⟨m, hm, hp⟩ := p.exists_get_eq_mul
  obtain ⟨n, hn, hq⟩ := q.exists_get_eq_mul
  refine ⟨⟨fun h => ?_, ?_⟩, ⟨m, ?_⟩, primitive_normalized⟩
  · refine ⟨n, m, hn, hm, (smul_laurent_eq_iff hn hm).mpr fun k => ?_⟩
    rw [hp, hq, h, mul_left_comm]
  · rintro ⟨a, b, ha, hb, h⟩
    have hget := (smul_laurent_eq_iff ha hb).mp h
    have hzero : p = zero ↔ q = zero := by
      constructor
      · rintro rfl
        refine Sparse.ext_get fun k => (mul_eq_zero.mp ?_).resolve_left hb
        rw [← hget k]
        exact mul_zero a
      · rintro rfl
        refine Sparse.ext_get fun k => (mul_eq_zero.mp ?_).resolve_left ha
        rw [hget k]
        exact mul_zero b
    by_cases hpz : p = zero
    · rw [hpz, hzero.mp hpz]
    · refine (primitive_normalized hpz).eq_of_mul_eq (primitive_normalized (mt hzero.mpr hpz))
        (mul_ne_zero ha hm) (mul_ne_zero hb hn) fun k => ?_
      rw [mul_assoc, mul_assoc, ← hp, ← hq, hget k]
  · rw [← one_smul ℤ p.laurent]
    refine (smul_laurent_eq_iff one_ne_zero hm).mpr fun k => ?_
    rw [one_mul, hp]

end Polynomial
end AreaMethod
