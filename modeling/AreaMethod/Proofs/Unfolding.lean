/-
# Unfolding packed nodes

Unfolding writes terms and polynomials in plain nodes: quantities are repeated as
often as their exponents say, those with negative exponents stand below a fraction
bar, and the sign stands in front. Nothing is lost on the way. The quantities are
the same (`Expr.mem_quantities_unfold`), hence the points; the value is the same;
and the unfolded expression is multiplied out into the same polynomial
(`Expr.expand_congr`), so that packing up a polynomial again gives it back.

Key theorems: `Point.ascending_congr`, `Expr.expand_congr`, `Expr.hasFraction_unfold`,
`Expr.unfold_faithful`.
-/
import Mathlib
import AreaMethod.Proofs.CanonicalForm
import AreaMethod.Proofs.NormalForm

namespace AreaMethod

/-! ### Points in ascending order -/

namespace Point

theorem pairwise_insertInto {p : Point} {ps : List Point} (h : ps.Pairwise fun p q => p.before q) :
    (insertInto p ps).Pairwise fun p q => p.before q := by
  induction ps with
  | nil => exact List.pairwise_singleton _ p
  | cons q ps ih =>
    obtain ⟨hq, hps⟩ := List.pairwise_cons.mp h
    unfold insertInto
    split
    next hlt =>
      refine List.pairwise_cons.mpr ⟨fun r hr => ?_, h⟩
      rcases List.mem_cons.mp hr with rfl | hr
      · exact before_iff.mpr hlt
      · exact before_trans (before_iff.mpr hlt) (hq r hr)
    · exact h
    next hgt =>
      refine List.pairwise_cons.mpr ⟨fun r hr => ?_, ih hps⟩
      rcases mem_insertInto.mp hr with rfl | hr
      · exact before_iff.mpr (Std.OrientedCmp.lt_of_gt hgt)
      · exact hq r hr

theorem pairwise_ascending (ps : List Point) : (ascending ps).Pairwise fun p q => p.before q :=
  List.foldrRecOn ps insertInto .nil fun _ h _ _ => pairwise_insertInto h

theorem ascending_congr {ps qs : List Point} (h : ∀ p, p ∈ ps ↔ p ∈ qs) :
    ascending ps = ascending qs := by
  refine eq_of_pairwise_before (pairwise_ascending ps) (pairwise_ascending qs) fun p => ?_
  rw [mem_ascending, mem_ascending, h]

end Point

/-! ### Fractions -/

theorem Term.denominator?_of_isIntegral {t : Term} (h : t.isIntegral) : t.denominator? = none := by
  have hlower : t.powers.lower = [] := by
    refine List.flatMap_eq_nil_iff.mpr fun x hx => ?_
    have hpos : 0 < x.2 := of_decide_eq_true (List.all_eq_true.mp h x hx)
    rw [show (-x.2).toNat = 0 by omega, List.replicate_zero]
  rw [denominator?, hlower]
  rfl

theorem Term.hasFraction_toExpr {t : Term} (h : t.isIntegral) : t.toExpr.hasFraction = false := by
  have hplain : t.toFractional.num.Plain fun _ => True :=
    (plain_toFractional fun _ _ => trivial).1
  have hnum : t.toExpr = t.toFractional.num := by
    unfold toExpr toFractional
    rw [denominator?_of_isIntegral h]
    split_ifs <;> rfl
  rw [hnum]
  exact hplain.1

theorem Polynomial.hasFraction_toExpr {p : Polynomial} (h : p.isIntegral) :
    p.toExpr.hasFraction = false := by
  have hsum : ∀ {a b : Expr}, (Expr.sum a b).hasFraction = false ↔
      a.hasFraction = false ∧ b.hasFraction = false := Bool.or_eq_false_iff
  have hterms : ∀ e ∈ p.terms.map Term.toExpr, e.hasFraction = false :=
    List.forall_mem_map.mpr fun t ht => Term.hasFraction_toExpr (List.all_eq_true.mp h t ht)
  unfold toExpr
  split
  · rfl
  next e es heq =>
    rw [heq] at hterms
    exact (Expr.holds_foldl (P := fun e => e.hasFraction = false) hsum es e).mpr hterms

namespace Expr

variable {e : Expr} {Q : Quantity → Prop}

theorem hasFraction_unfold : ∀ {e : Expr}, e.hasFraction = false → e.unfold.hasFraction = false
  | number _, _ | quantity _, _ => rfl
  | neg e, h => hasFraction_unfold (e := e) h
  | sum a b, h | product a b, h => by
    obtain ⟨ha, hb⟩ := Bool.or_eq_false_iff.mp h
    exact Bool.or_eq_false_iff.mpr ⟨hasFraction_unfold ha, hasFraction_unfold hb⟩
  | fraction _ _, h => by cases h
  | term _, h => Term.hasFraction_toExpr (by simpa [hasFraction] using h)
  | polynomial _, h => Polynomial.hasFraction_toExpr (by simpa [hasFraction] using h)

/-! ### Quantities -/

theorem all_of_all_unfold (h : e.unfold.All Q) : e.All Q := by
  induction e with
  | number n => exact all_number n
  | quantity q => exact h
  | neg e ih => exact ih h
  | sum a b iha ihb => exact all_sum.mpr ⟨iha (all_sum.mp h).1, ihb (all_sum.mp h).2⟩
  | product a b iha ihb =>
    exact all_product.mpr ⟨iha (all_product.mp h).1, ihb (all_product.mp h).2⟩
  | fraction a b iha ihb =>
    exact all_fraction.mpr ⟨iha (all_fraction.mp h).1, ihb (all_fraction.mp h).2⟩
  | term t => exact fun q hq => all_quantity.mp ((Term.holds_toExpr (leafwise_all Q)).mp h q hq)
  | polynomial p =>
    exact fun q hq => all_quantity.mp ((Polynomial.holds_toExpr (leafwise_all Q)).mp h q hq)

theorem mem_quantities_unfold {q : Quantity} : q ∈ e.unfold.quantities ↔ q ∈ e.quantities := by
  constructor
  · exact all_unfold (Q := (· ∈ e.quantities)) (fun _ => id) q
  · exact all_of_all_unfold (Q := (· ∈ e.unfold.quantities)) (fun _ => id) q

theorem points_unfold (e : Expr) : e.unfold.points = e.points := by
  refine Point.ascending_congr fun p => ?_
  simp only [List.mem_flatMap, mem_quantities_unfold]

/-! ### Expansion -/

/-- **The value decides the expansion.** Expressions with the same value whatever the
quantities are have the same expansion. -/
theorem expand_congr {e e' : Expr} {p p' : Polynomial} (hp : e.expand = .ok p)
    (hp' : e'.expand = .ok p')
    (h : ∀ w : Quantity → ℚ, e.value (fun q => some (w q)) = e'.value fun q => some (w q)) :
    p = p' := by
  refine Polynomial.eq_of_denote_eq (allPowers_of_expand hp) (allPowers_of_expand hp') ?_
  refine MvPolynomial.map_injective _ (Int.castRingHom ℚ).injective_int
    (MvPolynomial.funext fun w => ?_)
  have hvalue := value_of_denote? w (denote?_of_expand hp)
  rw [h w, value_of_denote? w (denote?_of_expand hp')] at hvalue
  exact (Option.some.inj hvalue).symm

theorem expand_unfold (h : e.hasFraction = false) :
    ∃ p, e.expand = .ok p ∧ e.unfold.expand = .ok p := by
  obtain ⟨p, hp, -⟩ := exists_expand h
  obtain ⟨p', hp', -⟩ := exists_expand (hasFraction_unfold h)
  have heq : p' = p := expand_congr hp' hp fun w => value_unfold _ e
  exact ⟨p, hp, heq ▸ hp'⟩

/-- **Unfolding is faithful.** There are no packed nodes left. Points and values are
those of the expression, which is undefined exactly where the unfolded one is.
Without fractions, both are multiplied out into the same polynomial; so a
polynomial in plain nodes is multiplied out into itself. -/
theorem unfold_faithful :
    (∀ e : Expr, e.unfold.Unpacked ∧ e.unfold.points = e.points ∧
      (∀ v : Reading, e.unfold.value v = e.value v) ∧
      (e.hasFraction = false → ∃ p, e.expand = .ok p ∧ e.unfold.expand = .ok p)) ∧
    ∀ p : Polynomial, p.isIntegral → p.toExpr.expand = .ok p := by
  refine ⟨fun e => ⟨unpacked_unfold e, points_unfold e, fun v => value_unfold v e, expand_unfold⟩,
    fun p hp => ?_⟩
  obtain ⟨p', hexpand, hunfold⟩ := expand_unfold (e := polynomial p) (by simp [hasFraction, hp])
  have heq : p = p' := Except.ok.inj ((if_pos hp).symm.trans hexpand)
  exact heq ▸ hunfold

end Expr
end AreaMethod
