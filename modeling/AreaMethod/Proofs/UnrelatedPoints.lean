/-
# Unrelated points

A figure may hold points that a statement has nothing to do with. If they were
introduced by steps on which no other step depends, a proof runs without them
just as it does with them: same report, or same fault
(`Theorem.prove_of_more_steps`).

The smaller figure is a part of the larger one (`Figure.PartOf`): what is read in
it is read alike in the larger one, its points are constructed alike, and
closures of its points are the same. So the oracles of both figures answer alike
to questions about these points (`Prover.alike_oracle`), and these are the
only questions, since elimination never leaves the part. The eliminations pass
through the constructed points of the larger figure, but those outside the part do
not occur and do not count (`eliminateAll_of_sublist`).

Key definitions: `Carries`, `Figure.PartOf`, `Oracle.Alike`.
Key theorems: `Step.carries_construction`, `Figure.PartOf.closure_eq`,
`eliminateAll_of_sublist`, `Theorem.attempt_of_partOf`,
`Theorem.prove_of_more_steps`.
-/
import Mathlib
import AreaMethod.Proofs.Accounts
import AreaMethod.Proofs.PointRemoval

namespace AreaMethod

open Eliminator

/-! ### What is read in a larger figure -/

/-- What `x` returns, `y` returns too. -/
def Carries {ε α : Type} (x y : Except ε α) : Prop := ∀ a, x = .ok a → y = .ok a

section Carries

variable {ε α β : Type}

theorem Carries.refl (x : Except ε α) : Carries x x := fun _ => id

theorem carries_error (f : ε) (y : Except ε α) : Carries (.error f) y := fun _ h => by cases h

theorem Carries.bind {x y : Except ε α} {f g : α → Except ε β} (h : Carries x y)
    (hfg : ∀ a, Carries (f a) (g a)) : Carries (x >>= f) (y >>= g) := by
  intro b hb
  obtain ⟨a, ha, hb⟩ := bind_eq_ok.mp hb
  exact bind_eq_ok.mpr ⟨a, h a ha, hfg a b hb⟩

end Carries

namespace Expr

variable {fig fig' : Figure} (hfig : ∀ p, fig.has p = true → fig'.has p = true)

include hfig

theorem carries_readLabel (s : SExpr) : Carries (readLabel fig s) (readLabel fig' s) := by
  intro p hp
  have hhas := hfig p (has_of_readLabel hp)
  cases s with
  | atom name =>
    simp only [readLabel] at hp ⊢
    split_ifs at hp
    cases hp
    rw [if_pos hhas]
  | list items => cases hp

omit hfig in
theorem carries_readChain {operator : String} {node : Expr → Expr → Expr}
    {operands operands' : List (Except ReadError Expr)}
    (hops : List.Forall₂ Carries operands operands') :
    Carries (readChain operator node operands) (readChain operator node operands') := by
  have hfold : ∀ {xs ys : List (Except ReadError Expr)}, List.Forall₂ Carries xs ys → ∀ e,
      Carries (xs.foldlM (fun acc operand => do return node acc (← operand)) e)
        (ys.foldlM (fun acc operand => do return node acc (← operand)) e) := by
    intro xs ys h
    induction h with
    | nil => exact fun e => .refl _
    | cons hx hxs ih => exact fun e => (hx.bind fun _ => .refl _).bind ih
  match operands, operands', hops with
  | _, _, .nil => exact .refl _
  | _, _, .cons _ .nil => exact carries_error _ _
  | _, _, .cons hx (.cons hy hrest) => exact hx.bind (hfold (.cons hy hrest))

theorem carries_apply {operands operands' : List (Except ReadError Expr)}
    (hops : List.Forall₂ Carries operands operands') (operator : String) (arguments : List SExpr) :
    Carries (apply fig operator arguments operands) (apply fig' operator arguments operands') := by
  have hlabel := carries_readLabel hfig
  unfold apply
  simp only
  split
  · split
    · exact (hlabel _).bind fun _ => (hlabel _).bind fun _ => (hlabel _).bind fun _ => .refl _
    · exact .refl _
  · split
    · exact (hlabel _).bind fun _ => (hlabel _).bind fun _ => (hlabel _).bind fun _ => .refl _
    · exact .refl _
  · split
    · exact (hlabel _).bind fun _ => (hlabel _).bind fun _ => (hlabel _).bind fun _ =>
        (hlabel _).bind fun _ => .refl _
    · exact .refl _
  · match operands, operands', hops with
    | _, _, .nil => exact .refl _
    | _, _, .cons hx .nil => exact hx.bind fun _ => .refl _
    | _, _, .cons hx (.cons hy .nil) => exact hx.bind fun _ => hy.bind fun _ => .refl _
    | _, _, .cons _ (.cons _ (.cons _ _)) => exact .refl _
  · exact carries_readChain hops
  · exact carries_readChain hops
  · match operands, operands', hops with
    | _, _, .nil => exact .refl _
    | _, _, .cons _ .nil => exact .refl _
    | _, _, .cons hx (.cons hy .nil) => exact hx.bind fun _ => hy.bind fun _ => .refl _
    | _, _, .cons _ (.cons _ (.cons _ _)) => exact .refl _
  · split
    next x _ _ e =>
      match operands', hops with
      | _, .cons hx (.cons _ .nil) => exact hx.bind fun _ => .refl _
    · exact carries_error _ _
  · exact .refl _

end Expr

mutual

theorem Expr.carries_ofSExpr {reader : TextReader} {fig fig' : Figure}
    (hfig : ∀ p, fig.has p = true → fig'.has p = true) :
    ∀ s : SExpr, Carries (ofSExpr reader fig s) (ofSExpr reader fig' s)
  | .atom text => by
    unfold ofSExpr
    exact .refl _
  | .list [] => carries_error _ _
  | .list (.list _ :: _) => carries_error _ _
  | .list (.atom operator :: arguments) =>
    carries_apply hfig (carries_ofSExprs hfig arguments) operator arguments

theorem Expr.carries_ofSExprs {reader : TextReader} {fig fig' : Figure}
    (hfig : ∀ p, fig.has p = true → fig'.has p = true) :
    ∀ ss : List SExpr, List.Forall₂ Carries (ofSExprs reader fig ss) (ofSExprs reader fig' ss)
  | [] => .nil
  | s :: ss => .cons (carries_ofSExpr hfig s) (carries_ofSExprs hfig ss)

end

section Reading

variable {fig fig' : Figure} (hfig : ∀ p, fig.has p = true → fig'.has p = true)

include hfig

theorem Figure.carries_point (label : String) : Carries (fig.point label) (fig'.point label) := by
  intro p hp
  have hhas := hfig p (has_of_point hp)
  unfold point at hp ⊢
  split_ifs at hp
  cases hp
  rw [if_pos hhas]

theorem Figure.carries_expression (text : String) :
    Carries (fig.expression text) (fig'.expression text) := by
  intro e h
  unfold expression readExpr readExprBy at h ⊢
  cases hread : TextReader.standard.sexpr text with
  | error f => rw [hread] at h; cases h
  | ok s? =>
    rw [hread] at h
    cases s? with
    | none => cases h
    | some s =>
      cases hs : Expr.ofSExpr .standard fig s with
      | error f => simp only [hs] at h; cases h
      | ok e' =>
        simp only [hs] at h
        simp only [Expr.carries_ofSExpr hfig s e' hs]
        exact h

/-- **Steps.** A step that can be taken in a figure gives the same construction in
a larger one. -/
theorem Step.carries_construction (step : Step) :
    Carries (step.construction fig) (step.construction fig') := by
  have hpoint := Figure.carries_point hfig
  cases step with
  | free label => exact .refl _
  | intersection label u v p q =>
    exact (hpoint u).bind fun _ => (hpoint v).bind fun _ => (hpoint p).bind fun _ =>
      (hpoint q).bind fun _ => .refl _
  | foot label p u v =>
    exact (hpoint p).bind fun _ => (hpoint u).bind fun _ => (hpoint v).bind fun _ => .refl _
  | pratio label w u v r =>
    exact (hpoint w).bind fun _ => (hpoint u).bind fun _ => (hpoint v).bind fun _ =>
      (Figure.carries_expression hfig r).bind fun _ => .refl _
  | tratio label u v r =>
    exact (hpoint u).bind fun _ => (hpoint v).bind fun _ =>
      (Figure.carries_expression hfig r).bind fun _ => .refl _
  | midpoint label a b =>
    exact (hpoint a).bind fun _ => (hpoint b).bind fun _ => .refl _

/-- **Goals.** A goal that can be resolved in a figure is the same statement in a
larger one. -/
theorem Goal.carries_resolve (goal : Goal) : Carries (goal.resolve fig) (goal.resolve fig') := by
  have hpoint := Figure.carries_point hfig
  have hfour : ∀ (a b c d : String) (statement : Point → Point → Point → Point → Statement),
      Carries (fourPoints fig a b c d statement) (fourPoints fig' a b c d statement) := by
    intro a b c d statement
    exact (hpoint a).bind fun _ => (hpoint b).bind fun _ => (hpoint c).bind fun _ =>
      (hpoint d).bind fun _ => .refl _
  cases goal with
  | collinear a b c =>
    exact (hpoint a).bind fun _ => (hpoint b).bind fun _ => (hpoint c).bind fun _ => .refl _
  | parallel a b c d => exact hfour a b c d _
  | perpendicular a b c d => exact hfour a b c d _
  | equalLength a b c d => exact hfour a b c d _
  | equal left right =>
    exact (Figure.carries_expression hfig left).bind fun _ =>
      (Figure.carries_expression hfig right).bind fun _ => .refl _

end Reading

/-! ### Parts of a figure -/

namespace Figure

/-- Both figures are ordered, and the second one holds all of the first, in the same
order. -/
structure PartOf (fig fig' : Figure) : Prop where
  sublist : fig.placed.Sublist fig'.placed
  ordered : Ordered fig.placed
  ordered' : Ordered fig'.placed

variable {fig fig' : Figure} {p : Point}

theorem has_of_sublist (h : fig.placed.Sublist fig'.placed) (hp : fig.has p = true) :
    fig'.has p = true := by
  obtain ⟨z, hz, hzp⟩ := has_iff.mp hp
  exact has_iff.mpr ⟨z, h.subset hz, hzp⟩

theorem placed_of_apply {step : Step} (h : step.apply fig = .ok fig') :
    ∃ c, step.construction fig = .ok c ∧ fig'.placed = ⟨step.point, c⟩ :: fig.placed := by
  obtain ⟨c, hc, -, -, rfl⟩ := Step.apply_eq_ok.mp h
  exact ⟨c, hc, rfl⟩

/-- A step that both sequences take adds the same point to both figures. -/
theorem sublist_of_steps {steps steps' : List Step} (hsteps : steps.Sublist steps')
    (hsub : fig.placed.Sublist fig'.placed) {last last' : Figure}
    (hlast : steps.foldlM (fun fig step => step.apply fig) fig = .ok last)
    (hlast' : steps'.foldlM (fun fig step => step.apply fig) fig' = .ok last') :
    last.placed.Sublist last'.placed := by
  induction hsteps generalizing fig fig' with
  | slnil =>
    cases hlast
    cases hlast'
    exact hsub
  | cons step _ ih =>
    obtain ⟨next', hnext', hlast'⟩ := bind_eq_ok.mp hlast'
    obtain ⟨c', -, hplaced'⟩ := placed_of_apply hnext'
    refine ih ?_ hlast hlast'
    rw [hplaced']
    exact hsub.cons _
  | cons_cons step _ ih =>
    obtain ⟨next, hnext, hlast⟩ := bind_eq_ok.mp hlast
    obtain ⟨next', hnext', hlast'⟩ := bind_eq_ok.mp hlast'
    obtain ⟨c, hc, hplaced⟩ := placed_of_apply hnext
    obtain ⟨c', hc', hplaced'⟩ := placed_of_apply hnext'
    have hsame := Step.carries_construction (fun _ => has_of_sublist hsub) step c hc
    obtain rfl : c' = c := Except.ok.inj (hc'.symm.trans hsame)
    refine ih ?_ hlast hlast'
    rw [hplaced, hplaced']
    exact hsub.cons_cons _

/-- **More steps.** If some steps can be left out, the figure without them is a part
of the figure with them. -/
theorem partOf_of_steps {steps steps' : List Step} (hsteps : steps.Sublist steps')
    (hfig : steps.foldlM (fun fig step => step.apply fig) empty = .ok fig)
    (hfig' : steps'.foldlM (fun fig step => step.apply fig) empty = .ok fig') :
    fig.PartOf fig' where
  sublist := sublist_of_steps hsteps (List.Sublist.refl _) hfig hfig'
  ordered := (Built.ordered_apart ⟨steps, hfig⟩).1
  ordered' := (Built.ordered_apart ⟨steps', hfig'⟩).1

/-- A point of the part is visited alike, after all that it is built from. -/
theorem visit_of_sublist {placed placed' : List Placed} (hsub : placed.Sublist placed')
    (ho : Ordered placed) (ho' : Ordered placed') :
    ∀ (fig : Figure) (p : Point), (∃ z ∈ placed, z.point = p) →
      visit placed fig p = visit placed' fig p := by
  induction hsub with
  | slnil => exact fun _ _ _ => rfl
  | @cons placed placed' x hsub ih =>
    cases ho' with
    | cons hnew _ hold =>
      rintro fig _ ⟨z, hz, rfl⟩
      have hne : x.point ≠ z.point := fun heq => hnew z (hsub.subset hz) heq.symm
      rw [ih ho hold fig z.point ⟨z, hz, rfl⟩, visit, if_neg hne]
  | @cons_cons placed placed' x hsub ih =>
    cases ho with
    | cons _ hdeps hold =>
    cases ho' with
    | cons _ _ hold' =>
      have hrest := ih hold hold'
      rintro fig _ ⟨z, hz, rfl⟩
      by_cases hx : x.point = z.point
      · rw [visit, visit, if_pos hx, if_pos hx]
        cases hc : x.construction? with
        | none => rfl
        | some c =>
          have hfold : c.dependencies.foldl (visit placed) fig =
              c.dependencies.foldl (visit placed') fig :=
            List.foldl_ext _ _ _ fun fig d hd => hrest fig d (hdeps c hc d hd)
          simp only [hfold]
      · have hz : z ∈ placed := (List.mem_cons.mp hz).resolve_left fun heq => hx (heq ▸ rfl)
        rw [visit, visit, if_neg hx, if_neg hx]
        exact hrest fig z.point ⟨z, hz, rfl⟩

namespace PartOf

/-- **Closures.** The closure of points of the part does not depend on the rest. -/
theorem closure_eq (h : fig.PartOf fig') {roots : List Point}
    (hroots : ∀ p ∈ roots, fig.has p = true) : fig.closure roots = fig'.closure roots :=
  List.foldl_ext _ _ _ fun before p hp =>
    visit_of_sublist h.sublist h.ordered h.ordered' before p (has_iff.mp (hroots p hp))

theorem construction?_eq (h : fig.PartOf fig') (hp : fig.has p = true) :
    fig.construction? p = fig'.construction? p := by
  obtain ⟨z, hz, rfl⟩ := has_iff.mp hp
  have hz' := construction?_of_mem h.ordered' (h.sublist.subset hz)
  exact (construction?_of_mem h.ordered hz).trans hz'.symm

theorem on_construction (h : fig.PartOf fig') {c : Construction}
    (hc : fig.construction? p = some c) : c.On fun q => fig.has q = true :=
  (Figure.on_construction h.ordered (mem_of_construction? hc)).mono fun _ => has_iff.mpr

theorem sublist_constructed (h : fig.PartOf fig') :
    (fig.constructed.map Prod.fst).Sublist (fig'.constructed.map Prod.fst) :=
  (h.sublist.filterMap _).map _

theorem mem_constructed_of_has (h : fig.PartOf fig') (hp : p ∈ fig'.constructed.map Prod.fst)
    (hhas : fig.has p = true) : p ∈ fig.constructed.map Prod.fst := by
  obtain ⟨⟨p, c⟩, hc, rfl⟩ := List.mem_map.mp hp
  have hc' : fig'.construction? p = some c :=
    construction?_of_mem h.ordered' (mem_constructed.mp hc)
  exact fig.pending_constructed p c ((h.construction?_eq hhas).trans hc')

end PartOf

end Figure

/-! ### Oracles that answer alike -/

/-- Both oracles answer alike to questions about points with the property `K`. -/
def Oracle.Alike {σ : Type} (K : Point → Prop) (o o' : Oracle σ) : Prop :=
  ∀ s : Statement, (∀ p ∈ s.points, K p) → o s = o' s

section Alike

variable {σ : Type} {K : Point → Prop} {o o' : Oracle σ} {y : Point} {how : Construction}

theorem collinear_of_alike (ho : o.Alike K o') {a b c : Point} (ha : K a) (hb : K b) (hc : K c) :
    collinear o a b c = collinear o' a b c := by
  have hpoints : ∀ p ∈ (Statement.collinear a b c).points, K p := by
    intro p hp
    have hmem : p ∈ [a, b, c] := Point.mem_ascending.mp hp
    simp only [List.mem_cons, List.not_mem_nil, or_false] at hmem
    rcases hmem with rfl | rfl | rfl
    · exact ha
    · exact hb
    · exact hc
  unfold collinear ask
  rw [ho _ hpoints]

theorem bindQuantities_congr {f f' : Quantity → EliminateM σ Expr} :
    ∀ {e : Expr}, e.All (fun q => f q = f' q) → e.bindQuantities f = e.bindQuantities f'
  | .number _, _ => rfl
  | .quantity q, he => Expr.all_quantity.mp he
  | .neg e, he => by
    rw [Expr.bindQuantities, Expr.bindQuantities, bindQuantities_congr (Expr.all_neg.mp he)]
  | .sum a b, he => by
    rw [Expr.bindQuantities, Expr.bindQuantities, bindQuantities_congr (Expr.all_sum.mp he).1,
      bindQuantities_congr (Expr.all_sum.mp he).2]
  | .product a b, he => by
    rw [Expr.bindQuantities, Expr.bindQuantities, bindQuantities_congr (Expr.all_product.mp he).1,
      bindQuantities_congr (Expr.all_product.mp he).2]
  | .fraction a b, he => by
    rw [Expr.bindQuantities, Expr.bindQuantities, bindQuantities_congr (Expr.all_fraction.mp he).1,
      bindQuantities_congr (Expr.all_fraction.mp he).2]
  | .term _, _ => rfl
  | .polynomial _, _ => rfl

theorem plainRatio_of_alike (ho : o.Alike K o') (hc : how.On K) (hy : K y) {a c d : Point}
    (ha : K a) : plainRatio o y how a c d = plainRatio o' y how a c d := by
  cases how with
  | intersection u v p q =>
    obtain ⟨hu, hv, -⟩ := Construction.on_intersection.mp hc
    simp only [plainRatio, collinear_of_alike ho ha hu hv]
  | foot p u v =>
    obtain ⟨-, hu, hv⟩ := Construction.on_foot.mp hc
    simp only [plainRatio, collinear_of_alike ho ha hu hv]
  | pratio w u v r =>
    obtain ⟨hw, -⟩ := Construction.on_pratio.mp hc
    simp only [plainRatio, collinear_of_alike ho ha hw hy]
  | tratio u v r =>
    obtain ⟨hu, -⟩ := Construction.on_tratio.mp hc
    simp only [plainRatio, collinear_of_alike ho ha hu hy]

theorem sharedRatio_of_alike (ho : o.Alike K o') (hc : how.On K) (hy : K y) {a c : Point}
    (ha : K a) : sharedRatio o y how a c = sharedRatio o' y how a c := by
  cases how with
  | intersection u v p q =>
    obtain ⟨hu, hv, -⟩ := Construction.on_intersection.mp hc
    simp only [sharedRatio, collinear_of_alike ho ha hu hv]
  | foot p u v =>
    obtain ⟨-, hu, hv⟩ := Construction.on_foot.mp hc
    simp only [sharedRatio, collinear_of_alike ho ha hu hv]
  | pratio w u v r =>
    obtain ⟨hw, -⟩ := Construction.on_pratio.mp hc
    simp only [sharedRatio, collinear_of_alike ho ha hw hy]
  | tratio u v r =>
    obtain ⟨hu, -⟩ := Construction.on_tratio.mp hc
    simp only [sharedRatio, collinear_of_alike ho ha hu hy]

theorem ratioFrom_of_alike (ho : o.Alike K o') (hc : how.On K) (hy : K y) {a c d : Point}
    (ha : K a) : ratioFrom o y how a c d = ratioFrom o' y how a c d := by
  simp only [ratioFrom, sharedRatio_of_alike ho hc hy ha, plainRatio_of_alike ho hc hy ha]

theorem ratioAbove_of_alike (ho : o.Alike K o') (hc : how.On K) (hy : K y) {a b c d : Point}
    (ha : K a) (hb : K b) : ratioAbove o y how a b c d = ratioAbove o' y how a b c d := by
  simp only [ratioAbove, ratioFrom_of_alike ho hc hy ha, ratioFrom_of_alike ho hc hy hb]

theorem quantity_of_alike (ho : o.Alike K o') (hc : how.On K) (hy : K y) {q : Quantity}
    (hq : q.On K) : quantity o y how q = quantity o' y how q := by
  cases q with
  | area a b c => rfl
  | pythagoras a b c => rfl
  | ratio a b c d =>
    obtain ⟨ha, hb, hc', hd⟩ := Quantity.on_ratio.mp hq
    simp only [quantity, ratio, ratioAbove_of_alike ho hc hy ha hb,
      ratioAbove_of_alike ho hc hy hc' hd]

theorem replace_of_alike (ho : o.Alike K o') (hc : how.On K) (hy : K y) {e : Expr}
    (he : e.All (Quantity.On K)) : replace o y how e = replace o' y how e := by
  refine bindQuantities_congr ((Expr.all_expose y he).mono fun q hq => ?_)
  rw [quantity_of_alike ho hc hy hq]

end Alike

/-! ### Attempts on a part of a figure -/

/-- What follows a computation need only be the same for the values it returns. -/
theorem bind_congr_of_yields {σ α β : Type} {x : EliminateM σ α} {P : α → Prop}
    {f f' : α → EliminateM σ β} (hx : Yields (fun _ => True) (fun _ => True) x P)
    (hf : ∀ a, P a → f a = f' a) : x >>= f = x >>= f' := by
  funext el
  cases hrun : x el with
  | mk outcome el' =>
    cases outcome with
    | error g => rw [run_bind_error hrun, run_bind_error hrun]
    | ok a => rw [run_bind hrun, run_bind hrun, hf a ((hx el trivial).of_ok hrun).2]

section Attempts

variable {σ : Type} {fig fig' : Figure} {o o' : Oracle σ} {limits : Limits} {e : Expr} {p : Point}

theorem yieldsOn_eliminate_of_partOf (hfig : fig.PartOf fig') (he : e.Within fig) :
    YieldsOn (fun _ => True) (fun q => fig.has q = true) (eliminate o fig e p) := by
  cases hc : fig.construction? p with
  | none =>
    unfold eliminate
    rw [hc]
    exact yields_throw trivial
  | some how =>
    have hany : o.FailsWithin fun _ => True :=
      ⟨fun _ _ _ _ _ => trivial, fun _ => trivial, fun _ => trivial⟩
    exact yieldsOn_eliminate hany hc (hfig.on_construction hc)
      (he.mono fun q hq r hr => .inr (hq r hr))

theorem eliminate_of_alike (hfig : fig.PartOf fig') (ho : o.Alike (fun q => fig.has q = true) o')
    (he : e.Within fig) (hp : fig.has p = true) : eliminate o fig e p = eliminate o' fig' e p := by
  unfold eliminate
  rw [← hfig.construction?_eq hp]
  cases hc : fig.construction? p with
  | none => rfl
  | some how => simp only [replace_of_alike ho (hfig.on_construction hc) hp he]

theorem yields_eliminateAll_of_partOf (hfig : fig.PartOf fig') (ps : List Point)
    (he : e.Within fig) : Yields (fun _ => True) (fun _ => True)
      (eliminateAll limits o fig ps e []) fun r => r.1.Within fig := by
  have hall := @yields_eliminateAll σ (fun _ => True) (fun _ => True) limits o fig
    (fun _ e => e.Within fig) (fun _ _ _ h _ => h)
    (fun _ _ _ h => yieldsOn_eliminate_of_partOf hfig h) (fun _ => trivial) trivial
  exact (hall ps e [] he (Nat.zero_le _)).mono fun r hr => hr.1

theorem Expr.not_mentions_of_within (he : e.Within fig) (hp : ¬ fig.has p = true) :
    e.mentions p = false :=
  mentions_eq_false.mpr (he.mono fun _ hq r hr heq => hp (heq ▸ hq r hr))

/-- **Skipped points do not count.** The second list of points may hold more than
the first, but nothing of the part. These points do not occur in an expression
about the part, and elimination does not bring them in. -/
theorem eliminateAll_of_sublist (hfig : fig.PartOf fig')
    (ho : o.Alike (fun q => fig.has q = true) o') {ps ps' : List Point} (hsub : ps.Sublist ps')
    (hnodup : ps'.Nodup) (hpart : ∀ p ∈ ps', fig.has p = true → p ∈ ps) :
    ∀ (e : Expr) (steps : List EliminationStep), e.Within fig →
      eliminateAll limits o fig ps e steps = eliminateAll limits o' fig' ps' e steps := by
  induction hsub with
  | slnil => exact fun _ _ _ => rfl
  | @cons ps ps' p hsub ih =>
    obtain ⟨hnew, hnodup⟩ := List.nodup_cons.mp hnodup
    intro e steps he
    have hp : ¬ fig.has p = true := fun h => hnew (hsub.subset (hpart p (.head _) h))
    have hskip : (!e.mentions p) = true := by rw [e.not_mentions_of_within he hp]; rfl
    rw [ih hnodup (fun r hr => hpart r (.tail _ hr)) e steps he]
    conv_rhs => rw [eliminateAll, if_pos hskip]
  | @cons_cons ps ps' p hsub ih =>
    obtain ⟨hnew, hnodup⟩ := List.nodup_cons.mp hnodup
    have hrest := ih hnodup fun r hr h =>
      (List.mem_cons.mp (hpart r (.tail _ hr) h)).resolve_left fun heq => hnew (heq ▸ hr)
    intro e steps he
    unfold eliminateAll
    split_ifs with hmem
    · exact hrest e steps he
    · rfl
    · have hp : fig.has p = true := by
        by_contra h
        rw [e.not_mentions_of_within he h] at hmem
        exact hmem rfl
      rw [← eliminate_of_alike hfig ho he hp]
      refine bind_congr_of_yields (yieldsOn_eliminate_of_partOf hfig he) fun e' he' => ?_
      simp only [hrest e' _ he']

theorem quotient_of_alike (hfig : fig.PartOf fig') (ho : o.Alike (fun q => fig.has q = true) o')
    (he : e.Within fig) : quotient limits o fig e = quotient limits o' fig' e := by
  have hframe : ∀ q : Quantity, q.On (fun p => fig.has p = true) →
      quantityInFrame o fig q = quantityInFrame o' fig' q := by
    intro q hq
    have hfind : (q.points.find? fun p => (fig.construction? p).isSome) =
        q.points.find? fun p => (fig'.construction? p).isSome :=
      List.find?_congr fun p hp => by rw [hfig.construction?_eq (hq p hp)]
    unfold quantityInFrame
    rw [hfind]
    cases q with
    | area a b c => rfl
    | pythagoras a b c => rfl
    | ratio a b c d =>
      obtain ⟨ha, -, hc, hd⟩ := Quantity.on_ratio.mp hq
      simp only [collinear_of_alike ho ha hc hd]
  have htoFrame : toFrame o fig e = toFrame o' fig' e :=
    bindQuantities_congr ((Expr.all_unfold he).mono hframe)
  unfold quotient
  rw [htoFrame]

/-- **Attempts.** With oracles that answer alike about the points of the part, an
attempt runs the same on the part as on the whole figure. -/
theorem Theorem.attempt_of_partOf (hfig : fig.PartOf fig')
    (ho : o.Alike (fun q => fig.has q = true) o') {s : Statement} (hs : s.zeroExpr.Within fig)
    (name : String) (limits : Limits) :
    (⟨name, fig, s⟩ : Theorem).attempt limits o =
      (⟨name, fig', s⟩ : Theorem).attempt limits o' := by
  have hstart : Yields (fun _ => True) (fun _ => True)
      (liftExcept (s.zeroExpr.canonical .empty).simplify : EliminateM σ Expr) (·.Within fig) :=
    yields_liftExcept (fun e he => Expr.all_simplify he (Expr.on_canonical .empty hs))
      fun _ _ => trivial
  unfold attempt
  refine bind_congr_of_yields hstart fun e he => ?_
  congr 1
  funext _
  rw [← eliminateAll_of_sublist hfig ho hfig.sublist_constructed
    (Figure.nodup_constructed hfig.ordered') (fun _ => hfig.mem_constructed_of_has) e [] he]
  refine bind_congr_of_yields (yields_eliminateAll_of_partOf hfig _ he) fun r hr => ?_
  refine bind_congr_of_yields (yieldsOn_reduce (fun _ => trivial) hr) fun e' he' => ?_
  rw [quotient_of_alike hfig ho he']

end Attempts

/-! ### Proofs -/

/-- The oracle looks at the closure of the points of a question only. -/
theorem Prover.alike_oracle {fig fig' : Figure} (hfig : fig.PartOf fig') (limits : Limits) :
    (oracle limits fig).Alike (fun p => fig.has p = true) (oracle limits fig') := by
  intro s hs
  funext m
  unfold oracle
  cases hm : m.decided.lookup s.key with
  | some d => rw [decideWithin_known _ hm, decideWithin_known _ hm]
  | none =>
    cases limits.oracleDepth - m.depth with
    | zero => rw [decideWithin_zero hm, decideWithin_zero hm]
    | succ deeper =>
      rw [decideWithin_succ deeper hm, decideWithin_succ deeper hm, question, question,
        hfig.closure_eq hs]

theorem Statement.within_zeroExpr {fig : Figure} {s : Statement}
    (h : ∀ p ∈ s.points, fig.has p = true) : s.zeroExpr.Within fig := by
  cases s with
  | collinear a b c =>
    simp only [points, Point.mem_ascending, List.forall_mem_cons] at h
    simp [zeroExpr, h]
  | parallel a b c d =>
    simp only [points, Point.mem_ascending, List.forall_mem_cons] at h
    simp [zeroExpr, h]
  | perpendicular a b c d =>
    simp only [points, Point.mem_ascending, List.forall_mem_cons] at h
    simp [zeroExpr, h]
  | equalLength a b c d =>
    simp only [points, Point.mem_ascending, List.forall_mem_cons] at h
    simp [zeroExpr, h]
  | equal left right =>
    have hall : ∀ p ∈ left.points ++ right.points, fig.has p = true :=
      fun p hp => h p (Point.mem_ascending.mpr hp)
    exact Expr.all_sub.mpr ⟨Expr.all_on.mpr fun p hp => hall p (List.mem_append_left _ hp),
      Expr.all_on.mpr fun p hp => hall p (List.mem_append_right _ hp)⟩

/-- **Unrelated points do not influence a proof.** The steps of a figure are taken
with more steps among them, anywhere. Since they could be taken without those, no
step refers to a point of these. Then a statement about points of the figure is
proved alike in both figures: with the same report, or the same fault. And a goal
of the smaller figure is the same statement in the larger one. -/
theorem Theorem.prove_of_more_steps {steps steps' : List Step} (hsteps : steps.Sublist steps')
    {fig fig' : Figure} (hfig : steps.foldlM (fun fig step => step.apply fig) Figure.empty = .ok fig)
    (hfig' : steps'.foldlM (fun fig step => step.apply fig) Figure.empty = .ok fig')
    {s : Statement} (hs : ∀ p ∈ s.points, fig.has p = true) (name : String) (settings : Settings)
    (hnumeric : settings.numericCheck = false) :
    (⟨name, fig, s⟩ : Theorem).prove settings = (⟨name, fig', s⟩ : Theorem).prove settings ∧
    ∀ goal : Goal, goal.resolve fig = .ok s → goal.resolve fig' = .ok s := by
  have hpart := Figure.partOf_of_steps hsteps hfig hfig'
  constructor
  · have hattempt := attempt_of_partOf hpart (Prover.alike_oracle hpart settings.limits)
      (Statement.within_zeroExpr hs) name settings.limits
    simp only [prove, proveWith, hattempt, report, hnumeric]
    rfl
  · exact fun goal => goal.carries_resolve (fun _ => Figure.has_of_sublist hpart.sublist) s

namespace OnSegment

open Letters

def steps : List Step := [.free "A", .free "B", .midpoint "M" "A" "B"]

/-- With more points before, between and after: a foot on the segment, and a point
that depends on the midpoint. -/
def moreSteps : List Step :=
  [.free "C", .free "A", .free "B", .foot "F" "C" "A" "B", .midpoint "M" "A" "B",
    .intersection "X" "C" "M" "A" "F"]

def larger : Figure :=
  ⟨[⟨x, some (.intersection c m a f)⟩, ⟨m, some (.pratio a a b (1 / 2))⟩, ⟨f, some (.foot c a b)⟩,
    ⟨b, none⟩, ⟨a, none⟩, ⟨c, none⟩]⟩

/-- A proof that asks the oracle about the midpoint. -/
theorem prove_halved_of_more_steps :
    steps.Sublist moreSteps ∧
    steps.foldlM (fun fig step => step.apply fig) Figure.empty = .ok figure ∧
    moreSteps.foldlM (fun fig step => step.apply fig) Figure.empty = .ok larger ∧
    (∀ p ∈ halved.statement.points, figure.has p = true) ∧
    ∃ r, halved.prove ⟨.standard, false, 0⟩ = .ok r ∧ r.verdict = .proved ∧
      (⟨"midpoint", larger, halved.statement⟩ : Theorem).prove ⟨.standard, false, 0⟩ = .ok r := by
  have hsteps : steps.Sublist moreSteps := by decide
  have hfigure : steps.foldlM (fun fig step => step.apply fig) Figure.empty = .ok figure := rfl
  have hlarger : moreSteps.foldlM (fun fig step => step.apply fig) Figure.empty = .ok larger := rfl
  have hpoints : ∀ p ∈ halved.statement.points, figure.has p = true := by decide
  let settings : Settings := ⟨.standard, false, 0⟩
  have hprove : halved.prove settings = .ok (halved.reportAll settings
      ⟨[⟨m, 1⟩], .zero, .constant 1⟩ divided) :=
    Theorem.prove_eq_ok.mpr ⟨_, _, run_halved, rfl⟩
  have hsame := (Theorem.prove_of_more_steps hsteps hfigure hlarger hpoints "midpoint" settings
    rfl).1
  exact ⟨hsteps, hfigure, hlarger, hpoints, _, hprove, Theorem.verdict_reportAll,
    hsame.symm.trans hprove⟩

end OnSegment

end AreaMethod
