/-
# Elimination removes the point

What elimination puts in place of a point is built from the points of its
construction. In a figure these stand before it, so elimination only goes back:
the point is gone afterwards, and no point appears that is not older
(`Eliminator.eliminate_removes`).

This does not depend on the oracle. Whatever its answers are, each formula names
the other points of the quantity and points of the construction
(`yieldsOn_quantity`).

Key definitions: `YieldsOn`.
Key theorems: `yieldsOn_quantity`, `yieldsOn_eliminate`,
`Figure.before_of_mem_dependencies`, `Eliminator.eliminate_removes`.
-/
import Mathlib
import AreaMethod.Proofs.Simplification
import AreaMethod.Proofs.Soundness
import AreaMethod.Proofs.Yields

namespace AreaMethod

/-- The computation returns an expression about points with the property `K`, or
fails with a fault in `E`. -/
abbrev YieldsOn {σ : Type} (E : Fault → Prop) (K : Point → Prop) (x : EliminateM σ Expr) : Prop :=
  Yields (fun _ => True) E x (·.All (Quantity.On K))

open Eliminator

section Elimination

variable {σ : Type} {oracle : Oracle σ} {E : Fault → Prop} {fig : Figure} {K : Point → Prop}
  {e : Expr}

theorem spansRatios_on (K : Point → Prop) : SpansRatios K (·.All (Quantity.On K)) where
  leafwise := Expr.leafwise_all _
  area ha hb hc := Expr.all_area.mpr (Quantity.on_area.mpr ⟨ha, hb, hc⟩)
  pythagoras ha hb hc := Expr.all_pythagoras.mpr (Quantity.on_pythagoras.mpr ⟨ha, hb, hc⟩)
  ratio ha hb hc hd := Expr.all_ratio.mpr (Quantity.on_ratio.mpr ⟨ha, hb, hc, hd⟩)

/-- What is put in place of a quantity does not mention `y`. -/
theorem yieldsOn_quantity (ho : oracle.FailsWithin E) {y : Point} {how : Construction} (hc : how.On K)
    {q : Quantity} (h : q.On fun p => p = y ∨ K p) : YieldsOn E K (quantity oracle y how q) :=
  yields_quantity (spansRatios_on K) ho (Construction.on_iff_over.mp hc)
    fun p hp => (h p hp).resolve_left

theorem yieldsOn_reduce (hE : ∀ d, E (.divisionByZero d)) (he : e.All (Quantity.On K)) :
    YieldsOn E K (reduce e : EliminateM σ Expr) := by
  refine yields_get fun el _ => yields_liftExcept (fun e' he' => ?_) fun f hf => ?_
  · exact Expr.all_simplify he' (Expr.on_canonical el.known he)
  · obtain ⟨d, rfl⟩ := Expr.divisionByZero_of_simplify hf
    exact hE d

/-- **Elimination.** A constructed point disappears, and the only points that
appear in its place are those of its construction. -/
theorem yieldsOn_eliminate (ho : oracle.FailsWithin E) {y : Point} {how : Construction}
    (hy : fig.construction? y = some how) (hc : how.On K)
    (he : e.All (Quantity.On fun p => p = y ∨ K p)) : YieldsOn E K (eliminate oracle fig e y) := by
  unfold eliminate
  rw [hy]
  refine (yields_replace (fun q hq _ => yieldsOn_quantity ho hc hq) ?_ he).bind fun e' he' => ?_
  · exact fun q hq hmem => Quantity.on_of_mentions_eq_false hq hmem
  · exact yieldsOn_reduce ho.divisionByZero he'

end Elimination

/-! ### Elimination goes back -/

/-- The points of a construction were introduced before the point that it gives. -/
theorem Figure.before_of_mem_dependencies {placed : List Placed} (ho : Ordered placed) {p y : Point}
    {how : Construction} (hy : (⟨y, some how⟩ : Placed) ∈ placed) (hp : p ∈ how.dependencies) :
    p ≠ y ∧ [p, y].Sublist (points ⟨placed⟩) := by
  obtain ⟨newer, older, rfl⟩ := List.append_of_mem hy
  obtain ⟨hold, hlt⟩ := older_of_mem_dependencies ho hp
  refine ⟨fun heq => hlt.ne (by rw [heq]), ?_⟩
  rw [points_append]
  exact (List.singleton_sublist.mpr hold).append (List.singleton_sublist.mpr (.head _))

/-- **Elimination removes the point and only goes back.** With any oracle and from
any record, a constructed point of a figure that was built by steps does not occur
any more once it is eliminated. All points that do occur did so before, or belong
to its construction; and these were introduced before it. -/
theorem Eliminator.eliminate_removes {σ : Type} {oracle : Oracle σ} {fig : Figure} (hfig : fig.Built)
    {y : Point} {how : Construction} (hy : fig.construction? y = some how) {e e' : Expr}
    {el el' : Eliminator σ} (hrun : eliminate oracle fig e y el = (.ok e', el')) :
    e'.mentions y = false ∧
    (∀ p ∈ e'.points, p ∈ e.points ∨ p ∈ how.dependencies) ∧
    ∀ p ∈ how.dependencies, [p, y].Sublist fig.points := by
  have hbefore : ∀ p ∈ how.dependencies, p ≠ y ∧ [p, y].Sublist fig.points := fun p hp =>
    Figure.before_of_mem_dependencies hfig.ordered_apart.1 (Figure.mem_of_construction? hy) hp
  have hc : how.On fun p => p ≠ y ∧ (p ∈ e.points ∨ p ∈ how.dependencies) :=
    fun p hp => ⟨(hbefore p hp).1, .inr hp⟩
  have he : e.All (Quantity.On fun p =>
      p = y ∨ p ≠ y ∧ (p ∈ e.points ∨ p ∈ how.dependencies)) := by
    refine Expr.all_on.mpr fun p hp => ?_
    by_cases hpy : p = y
    · exact .inl hpy
    · exact .inr ⟨hpy, .inl hp⟩
  have hon := ((yieldsOn_eliminate oracle.failsWithin_true hy hc he el trivial).of_ok hrun).2
  refine ⟨Expr.mentions_eq_false.mpr ?_, fun p hp => ?_, fun p hp => (hbefore p hp).2⟩
  · exact hon.mono fun q hq p hp => (hq p hp).1
  · exact (Expr.all_on.mp hon p hp).2

open CoSide Letters in
theorem Eliminator.eliminate_removes_coSide :
    built.figure.Built ∧ built.figure.construction? y = some (.intersection c d a b) ∧
      eliminate (Oracle.constant .fails) built.figure (.ratio a y b y) y (start ()) =
        (.ok (.fraction (.area a c d) (.area b c d)), found) ∧
      (Expr.fraction (.area a c d) (.area b c d)).mentions y = false ∧
      (∀ p ∈ (Expr.fraction (.area a c d) (.area b c d)).points,
        p ∈ (Expr.ratio a y b y).points ∨ p ∈ [c, d, a, b]) ∧
      ∀ p ∈ [c, d, a, b], [p, y].Sublist [a, b, c, d, y] := by
  have hbuilt : built.figure.Built := ⟨problem.steps, rfl⟩
  have hreplace : replace (Oracle.constant .fails) y (.intersection c d a b) (.ratio a y b y)
      (start ()) = (.ok (.fraction (.area a c d) (.area b c d)), found) := rfl
  have hrun : eliminate (Oracle.constant .fails) built.figure (.ratio a y b y) y (start ()) =
      (.ok (.fraction (.area a c d) (.area b c d)), found) :=
    (run_bind hreplace).trans (run_liftExcept (Expr.simplify_of_fixed rfl) found)
  obtain ⟨hgone, hpoints, hbefore⟩ := eliminate_removes hbuilt rfl hrun
  exact ⟨hbuilt, rfl, hrun, hgone, hpoints, hbefore⟩

end AreaMethod
