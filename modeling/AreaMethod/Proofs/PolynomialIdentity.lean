/-
# Polynomials that vanish

A sparse function is determined by its values (`Sparse.ext_get`), so different
products of quantities have different degrees, and a polynomial without
negative exponents is a sum of different monomials, with its values as their
coefficients (`Polynomial.coeff_sum_monomial`). It follows that it has no terms
if it vanishes wherever its quantities take values in given infinite sets
(`Polynomial.isZero_of_forall_value_eq_zero`).

Key definitions: `Powers.degrees`, `Polynomial.toMvPolynomial`.
Key theorems: `Sparse.ext_get`, `Polynomial.value_eq_eval`,
`Polynomial.coeff_sum_monomial`, `Polynomial.isZero_of_forall_value_eq_zero`.
-/
import Mathlib
import AreaMethod.Proofs.PolynomialValue

namespace AreaMethod

/-! ### Values of sparse functions -/

namespace Sparse

variable {κ : Type} [Ord κ] [Std.TransOrd κ] [Std.LawfulEqOrd κ] {k : κ} {n : ℤ}

omit [Std.LawfulEqOrd κ] in
theorem ne_of_compare_lt {k l : κ} (h : compare k l = .lt) : k ≠ l := by
  rintro rfl
  rw [Std.ReflOrd.compare_self] at h
  cases h

theorem valueIn_of_mem : ∀ {entries : List (κ × ℤ)}, Ascending entries → (k, n) ∈ entries →
    valueIn k entries = n
  | (l, b) :: rest, h, hmem => by
    obtain ⟨hl, hrest⟩ := List.pairwise_cons.mp h
    rw [valueIn]
    rcases List.mem_cons.mp hmem with heq | htail
    · cases heq
      rw [if_pos Std.ReflOrd.compare_self]
    · have hne : l ≠ k := ne_of_compare_lt (hl _ htail)
      rw [if_neg fun heq => hne (Std.LawfulEqOrd.eq_of_compare heq).symm,
        valueIn_of_mem hrest htail]

omit [Std.TransOrd κ] in
theorem mem_of_valueIn_ne_zero : ∀ {entries : List (κ × ℤ)}, valueIn k entries ≠ 0 →
    (k, valueIn k entries) ∈ entries
  | [], h => absurd rfl h
  | (l, b) :: rest, h => by
    rw [valueIn] at h ⊢
    split_ifs at h ⊢ with heq
    · rw [Std.LawfulEqOrd.eq_of_compare heq]
      exact .head _
    · exact .tail _ (mem_of_valueIn_ne_zero h)

/-- The entries are the keys with a non-zero value. -/
theorem mem_entries_iff {f : Sparse κ} : (k, n) ∈ f.entries ↔ n ≠ 0 ∧ f.get k = n := by
  constructor
  · exact fun h => ⟨f.nonzero _ h, valueIn_of_mem f.ascending h⟩
  · rintro ⟨hn, rfl⟩
    exact mem_of_valueIn_ne_zero hn

/-- **Extensionality.** Sparse functions with the same values are the same. -/
theorem ext_get {f g : Sparse κ} (h : ∀ k, f.get k = g.get k) : f = g := by
  have hmem : ∀ x, x ∈ f.entries ↔ x ∈ g.entries := fun ⟨k, n⟩ => by
    rw [mem_entries_iff, mem_entries_iff, h k]
  have hne : ∀ x y : κ × ℤ, compare x.1 y.1 = .lt → x ≠ y :=
    fun _ _ hlt heq => ne_of_compare_lt hlt (congrArg Prod.fst heq)
  have hperm : f.entries.Perm g.entries := (List.perm_ext_iff_of_nodup
    (f.ascending.imp (hne _ _)) (g.ascending.imp (hne _ _))).mpr hmem
  have hentries : f.entries = g.entries := by
    refine hperm.eq_of_pairwise (fun x y _ _ hxy hyx => ?_) f.ascending g.ascending
    rw [Std.OrientedOrd.eq_swap, hyx] at hxy
    cases hxy
  cases f
  cases g
  cases hentries
  rfl

omit [Std.TransOrd κ] in
theorem valueIn_eq_zero {entries : List (κ × ℤ)} (h : ∀ x ∈ entries, x.1 ≠ k) :
    valueIn k entries = 0 := by
  by_contra hne
  exact h _ (mem_of_valueIn_ne_zero hne) rfl

/-- **Values are read off a sum** over the entries, in which only the entry of the
key counts. -/
theorem sum_eq_of_key {M : Type} [AddCommMonoid M] {w : ℤ → M} (hw : w 0 = 0) {f : κ × ℤ → M} :
    ∀ {entries : List (κ × ℤ)}, Ascending entries → (∀ x ∈ entries, x.1 = k → f x = w x.2) →
      (∀ x ∈ entries, x.1 ≠ k → f x = 0) → (entries.map f).sum = w (valueIn k entries)
  | [], _, _, _ => hw.symm
  | (l, n) :: rest, h, hkey, hother => by
    obtain ⟨hl, hrest⟩ := List.pairwise_cons.mp h
    obtain ⟨hkeyl, hkeyrest⟩ := List.forall_mem_cons.mp hkey
    obtain ⟨hotherl, hotherrest⟩ := List.forall_mem_cons.mp hother
    rw [List.map_cons, List.sum_cons, sum_eq_of_key hw hrest hkeyrest hotherrest, valueIn]
    by_cases hlk : l = k
    · have hzero : valueIn k rest = 0 :=
        valueIn_eq_zero fun x hx => hlk ▸ (ne_of_compare_lt (hl x hx)).symm
      rw [hkeyl hlk, hzero, hw, add_zero, hlk, if_pos Std.ReflOrd.compare_self]
    · rw [hotherl hlk, zero_add, if_neg fun heq => hlk (Std.LawfulEqOrd.eq_of_compare heq).symm]

end Sparse

/-! ### Monomials -/

namespace Powers

/-- The exponents of a product. -/
noncomputable def degrees (p : Powers) : Quantity →₀ ℕ :=
  (p.entries.map fun y => Finsupp.single y.1 y.2.toNat).sum

theorem degrees_apply (p : Powers) (q : Quantity) : p.degrees q = (p.get q).toNat := by
  have hsum : p.degrees q = (p.entries.map fun y => Finsupp.single y.1 y.2.toNat q).sum := by
    rw [degrees, ← Finsupp.applyAddHom_apply, map_list_sum, List.map_map]
    rfl
  rw [hsum]
  refine Sparse.sum_eq_of_key (w := Int.toNat) rfl p.ascending (fun y _ hy => ?_) fun y _ hy => ?_
  · rw [hy, Finsupp.single_eq_same]
  · exact Finsupp.single_eq_of_ne (Ne.symm hy)

/-- Different products have different exponents. -/
theorem eq_of_degrees_eq {p p' : Powers} (hp : ∀ y ∈ p.entries, 0 < y.2)
    (hp' : ∀ y ∈ p'.entries, 0 < y.2) (h : p.degrees = p'.degrees) : p = p' := by
  have hget : ∀ {p : Powers}, (∀ y ∈ p.entries, 0 < y.2) → ∀ q, 0 ≤ p.get q := by
    intro p hp q
    by_cases hzero : p.get q = 0
    · exact hzero.ge
    · exact (hp _ (Sparse.mem_of_valueIn_ne_zero hzero)).le
  refine Sparse.ext_get fun q => ?_
  have hq := DFunLike.congr_fun h q
  rw [degrees_apply, degrees_apply] at hq
  have := hget hp q
  have := hget hp' q
  omega

theorem value_eq_prod {p : Powers} (hp : ∀ y ∈ p.entries, 0 < y.2) (w : Quantity → ℚ) :
    p.value (fun q => some (w q)) = some (p.degrees.prod fun q n => w q ^ n) := by
  unfold value degrees
  generalize p.entries = entries at hp
  induction entries with
  | nil => rfl
  | cons y rest ih =>
    obtain ⟨q, n⟩ := y
    obtain ⟨hn, hrest⟩ := List.forall_mem_cons.mp hp
    refine Sparse.total_cons_eq_some.mpr ⟨w q ^ n.toNat, _, ?_, ih hrest, ?_⟩
    · refine power?_eq_some.mpr ⟨fun hneg => absurd hneg hn.le.not_gt, ?_⟩
      rw [← zpow_natCast, Int.toNat_of_nonneg hn.le]
    · have hsingle : (Finsupp.single q n.toNat).prod (fun q n => w q ^ n) = w q ^ n.toNat :=
        Finsupp.prod_single_index (pow_zero _)
      rw [List.map_cons, List.sum_cons,
        Finsupp.prod_add_index' (fun _ => pow_zero _) (fun _ _ _ => pow_add _ _ _), ← hsingle]

end Powers

/-! ### Polynomials -/

namespace Polynomial

open MvPolynomial

variable {p : Polynomial}

/-- The polynomial as a sum of monomials. -/
noncomputable def toMvPolynomial (p : Polynomial) : MvPolynomial Quantity ℚ :=
  (p.entries.map fun t => monomial t.1.degrees (t.2 : ℚ)).sum

theorem value_eq_eval (hp : p.AllPowers fun y => 0 < y.2) (w : Quantity → ℚ) :
    p.value (fun q => some (w q)) = some (eval w p.toMvPolynomial) := by
  unfold AllPowers at hp
  unfold value toMvPolynomial
  generalize p.entries = entries at hp
  induction entries with
  | nil => simp [Sparse.total]
  | cons t rest ih =>
    obtain ⟨k, n⟩ := t
    obtain ⟨hk, hrest⟩ := List.forall_mem_cons.mp hp
    refine Sparse.total_cons_eq_some.mpr
      ⟨n * k.degrees.prod fun q n => w q ^ n, _, ?_, ih hrest, ?_⟩
    · rw [Powers.value_eq_prod hk w, Option.map_some]
    · rw [List.map_cons, List.sum_cons, map_add, eval_monomial]

/-- The coefficients of a sum of monomials are the values of its entries. -/
theorem coeff_sum_monomial (R : Type) [CommRing R] {k : Powers} (hk : ∀ y ∈ k.entries, 0 < y.2)
    {entries : List (Powers × ℤ)} (hentries : Ascending entries)
    (hpos : ∀ t ∈ entries, ∀ y ∈ t.1.entries, 0 < y.2) :
    coeff k.degrees (entries.map fun t => monomial t.1.degrees (t.2 : R)).sum =
      (Sparse.valueIn k entries : R) := by
  have hsum : coeff k.degrees (entries.map fun t => monomial t.1.degrees (t.2 : R)).sum =
      (entries.map fun t => coeff k.degrees (monomial t.1.degrees (t.2 : R))).sum := by
    rw [← coeffAddMonoidHom_apply, map_list_sum, List.map_map]
    rfl
  rw [hsum]
  refine Sparse.sum_eq_of_key (w := fun n => (n : R)) Int.cast_zero hentries (fun t _ ht => ?_)
    fun t hmem ht => ?_
  · rw [coeff_monomial, if_pos (congrArg Powers.degrees ht)]
  · rw [coeff_monomial, if_neg fun heq => ht (Powers.eq_of_degrees_eq (hpos t hmem) hk heq)]

theorem isZero_of_toMvPolynomial_eq_zero (hp : p.AllPowers fun y => 0 < y.2)
    (h : p.toMvPolynomial = 0) : p.isZero := by
  refine List.isEmpty_iff.mpr (List.eq_nil_iff_forall_not_mem.mpr fun t ht => ?_)
  have hcoeff := coeff_sum_monomial ℚ (hp t ht) p.ascending hp
  rw [Sparse.valueIn_of_mem p.ascending ht] at hcoeff
  change coeff t.1.degrees p.toMvPolynomial = _ at hcoeff
  rw [h, coeff_zero] at hcoeff
  exact p.nonzero t ht (Int.cast_eq_zero.mp hcoeff.symm)

/-- **Identity.** A polynomial without negative exponents that vanishes wherever
its quantities take values in given infinite sets has no terms. -/
theorem isZero_of_forall_value_eq_zero (hp : p.AllPowers fun y => 0 < y.2)
    {s : Quantity → Set ℚ} (hs : ∀ q, (s q).Infinite)
    (h : ∀ w : Quantity → ℚ, (∀ q, w q ∈ s q) → p.value (fun q => some (w q)) = some 0) :
    p.isZero := by
  refine isZero_of_toMvPolynomial_eq_zero hp (MvPolynomial.funext_set s hs fun w hw => ?_)
  have hvalue := h w fun q => hw q trivial
  rw [value_eq_eval hp w] at hvalue
  rw [Option.some.inj hvalue, map_zero]

end Polynomial
end AreaMethod
