/-
# Poles

The statement of a theorem may be without a value at all coordinates, because
something is divided by zero that vanishes everywhere. In a theorem without ratios an
attempt replaces quantities by expressions of the same value, simplifies, and brings
what is left to one fraction. The first keeps undefined what is undefined, the other two
do so up to the parts that they drop (`Eliminator.drops`, `Theorem.drops`). So if an
attempt comes to an end, its denominator does not vanish and all dropped parts have a
value, then the statement has one (`Theorem.losesOnly_attempt`).

The denominator of a finished attempt has terms, and does not vanish almost everywhere. So
there is a report on a statement without a value only if some part without a value was
dropped, one that is undefined at all coordinates (`Problem.prove_of_pole`). This does
happen (`Problem.prove_of_hidden_pole`).

Key definitions: `Eliminator.drops`, `Theorem.drops`, `LosesOnly`, `Fault.OnPole`.
Key theorems: `Theorem.losesOnly_attempt`, `Theorem.exists_nonzero_denominator`,
`Problem.prove_of_pole`, `Problem.prove_of_hidden_pole`.
-/
import Mathlib
import AreaMethod.Proofs.Decision
import AreaMethod.Proofs.DroppedParts
import AreaMethod.Proofs.NormalForm

open Topology

namespace AreaMethod

/-! ### What a run drops -/

namespace Eliminator

variable {σ : Type}

/-- What a run drops while the points are eliminated from an expression, and afterwards,
as long as it is not cut short by a limit. -/
def drops (oracle : Oracle σ) (fig : Figure) : List Point → Expr → Eliminator σ → List Expr
  | [], e, el =>
    (e.canonical el.known).drops ++
      match (reduce e >>= toFrame oracle fig) el with
      | (.ok framed, _) => (framed.canonical .empty).flattenDrops
      | (.error _, _) => []
  | p :: ps, e, el =>
    if !e.mentions p then drops oracle fig ps e el
    else
      match fig.construction? p with
      | none => []
      | some how =>
        match replace oracle p how e el with
        | (.error _, _) => []
        | (.ok e', el') =>
          (e'.canonical el'.known).drops ++
            match reduce e' el' with
            | (.ok e'', el'') => drops oracle fig ps e'' el''
            | (.error _, _) => []

end Eliminator

/-- What an attempt drops. -/
def Theorem.drops {σ : Type} (thm : Theorem) (oracle : Oracle σ) (memory : σ) : List Expr :=
  (thm.statement.zeroExpr.canonical .empty).drops ++
    match (thm.statement.zeroExpr.canonical .empty).simplify with
    | .ok e =>
      Eliminator.drops oracle thm.figure (thm.figure.constructed.map Prod.fst) e
        (Eliminator.start memory)
    | .error _ => []

/-- If the second expression and the parts have a value, so has the first one. There are no
ratios in the parts. -/
structure LosesOnly (ρ : Coordinates) (parts : List Expr) (e e' : Expr) : Prop where
  ratioFree : ∀ d ∈ parts, d.All Quantity.RatioFree
  defined : (∀ d ∈ parts, d.Defined (reading ρ)) → e'.Defined (reading ρ) → e.Defined (reading ρ)

theorem LosesOnly.refl (ρ : Coordinates) (e : Expr) : LosesOnly ρ [] e e :=
  ⟨List.forall_mem_nil _, fun _ => id⟩

theorem LosesOnly.trans {ρ : Coordinates} {ds ds' : List Expr} {e e' e'' : Expr}
    (h : LosesOnly ρ ds e e') (h' : LosesOnly ρ ds' e' e'') : LosesOnly ρ (ds ++ ds') e e'' where
  ratioFree := List.forall_mem_append.mpr ⟨h.ratioFree, h'.ratioFree⟩
  defined hparts he := by
    obtain ⟨hds, hds'⟩ := List.forall_mem_append.mp hparts
    exact h.defined hds (h'.defined hds' he)

/-! ### Replacements -/

theorem Quantity.RatioFree.exists_reading {q : Quantity} (h : q.RatioFree) (ρ : Coordinates) :
    ∃ x, reading ρ q = some x := by
  cases q with
  | area a b c => exact ⟨_, rfl⟩
  | pythagoras a b c => exact ⟨_, rfl⟩
  | ratio a b c d => exact absurd h id

/-- All areas and Pythagoras differences have values, so an expression that has none
does not get one if quantities are replaced. -/
theorem Replaces.value_eq {ρ : Coordinates} {e e' : Expr} (h : Replaces ρ e e') (hu : e.Unpacked)
    (he : e.All Quantity.RatioFree) : e'.value (reading ρ) = e.value (reading ρ) := by
  induction h with
  | refl e => rfl
  | quantity h =>
    obtain ⟨x, hx⟩ := (Expr.all_quantity.mp he).exists_reading ρ
    exact (h x hx).trans hx.symm
  | term h | polynomial h => exact hu.elim
  | neg _ ih => rw [Expr.value, Expr.value, ih hu (Expr.all_neg.mp he)]
  | sum _ _ iha ihb =>
    obtain ⟨ha, hb⟩ := Expr.all_sum.mp he
    rw [Expr.value, Expr.value, iha hu.1 ha, ihb hu.2 hb]
  | product _ _ iha ihb =>
    obtain ⟨ha, hb⟩ := Expr.all_product.mp he
    rw [Expr.value, Expr.value, iha hu.1 ha, ihb hu.2 hb]
  | fraction _ _ iha ihb =>
    obtain ⟨ha, hb⟩ := Expr.all_fraction.mp he
    rw [Expr.value, Expr.value, iha hu.1 ha, ihb hu.2 hb]

section Attempts

open Eliminator

variable {σ : Type} {ρ : Coordinates} {oracle : Oracle σ} {fig : Figure} {el el' : Eliminator σ}
  {e e' : Expr} {p : Point} {ps : List Point}

theorem Replaces.losesOnly (h : Replaces ρ e e') (hu : e.Unpacked) (he : e.All Quantity.RatioFree) :
    LosesOnly ρ [] e e' := by
  refine ⟨List.forall_mem_nil _, fun _ => ?_⟩
  rintro ⟨x, hx⟩
  exact ⟨x, (h.value_eq hu he).symm.trans hx⟩

theorem losesOnly_simplify (hu : e.Unpacked) (he : e.All Quantity.RatioFree)
    (h : e.simplify = .ok e') : LosesOnly ρ e.drops e e' :=
  ⟨(Expr.leafwise_all _).holds_drops he, fun hparts he' => Expr.defined_of_simplify hu h he' hparts⟩

/-- Canonical quantities, and a simplification. -/
theorem losesOnly_canonical_simplify (hu : e.Unpacked) (he : e.All Quantity.RatioFree)
    (h : (e.canonical .empty).simplify = .ok e') : LosesOnly ρ (e.canonical .empty).drops e e' := by
  have hcanonical : Replaces ρ e (e.canonical .empty) :=
    .canonical (Triples.holdAt_empty ρ) hu.fits
  have hratio := Expr.all_canonical (Quantity.ratioFree_canonical .empty) (fun _ hq _ => hq) he
  exact (hcanonical.losesOnly hu he).trans (losesOnly_simplify (hu.canonical .empty) hratio h)

theorem simplify_of_reduce (h : reduce e el = (.ok e', el')) :
    (e.canonical el.known).simplify = .ok e' := by
  change (liftExcept (e.canonical el.known).simplify : EliminateM σ Expr) el = _ at h
  cases hs : (e.canonical el.known).simplify with
  | ok d =>
    rw [run_liftExcept hs] at h
    exact congrArg Except.ok (Except.ok.inj (Prod.mk.inj h).1)
  | error f =>
    rw [hs] at h
    cases (Prod.mk.inj h).1

/-! ### Attempts -/

/-- Something was divided by zero, or a limit on the size of a run was hit. -/
def Fault.OnPole : Fault → Prop
  | .divisionByZero _ => True
  | f => f.OnSize

/-- Without ratios, attempts fail for no other reason. -/
theorem tracks_true (ρ : Coordinates) : Tracks ρ Fault.OnPole fun _ => True where
  replaces _ _ := trivial
  simplify _ _ := trivial
  onSize {f} h := by
    cases f with
    | divisionByZero e => trivial
    | _ => exact h
  onSimplify h _ := by
    obtain ⟨d, rfl⟩ := Expr.divisionByZero_of_simplify h
    trivial
  onSingle h _ := by
    obtain ⟨d, rfl⟩ := Expr.divisionByZero_of_singleFraction h
    trivial
  onZero _ _ _ _ := trivial

/-- A reduction drops what its simplification drops. -/
theorem leads_reduce {K : Point → Prop} (he : e.All (Quantity.Metric K)) (hu : e.Unpacked)
    (hel : el.Quiet ρ) :
    Leads (reduce e) el
      (fun e' el' => reduce e el = (.ok e', el') ∧ el'.Quiet ρ ∧ e'.All (Quantity.Metric K) ∧
        e'.Unpacked ∧ LosesOnly ρ (e.canonical .empty).drops e e')
      fun _ _ => True := by
  refine ((leads_self _ el).and (yields_reduce (tracks_true ρ) he hu trivial el hel)).mono ?_
    fun _ _ _ => trivial
  rintro e' el' ⟨hrun, hquiet, hmetric, hunpacked, -⟩
  have hsimplify := simplify_of_reduce hrun
  rw [hel.known] at hsimplify
  exact ⟨hrun, hquiet, hmetric, hunpacked,
    losesOnly_canonical_simplify hu (Expr.all_metric.mp he).2 hsimplify⟩

/-- One point is eliminated. -/
theorem Follows.leads_eliminate {free : Coordinates} (ho : Figure.Ordered fig.placed) (ha : fig.Apart)
    (hu : fig.Unpacked) (hρ : fig.locate free = some ρ)
    (hfree : ∀ p c, fig.construction? p = some c → c.RatioFree)
    (h : Follows fig (fun _ => True) (p :: ps) e) (hp : e.mentions p = true) (hel : el.Quiet ρ) :
    Leads (Eliminator.eliminate oracle fig e p) el
      (fun e' el' => el'.Quiet ρ ∧ Follows fig (fun _ => True) ps e' ∧
        ∃ ds, drops oracle fig (p :: ps) e el = ds ++ drops oracle fig ps e' el' ∧
          LosesOnly ρ ds e e')
      fun _ _ => True := by
  obtain ⟨how, hhow, hon⟩ := h.construction ho ha
  have hreplace : Yields (Quiet ρ) Fault.OnPole (replace oracle p how e) _ :=
    yields_replace_metric (Figure.locate_construction ho hρ hhow) (hu.of_construction? hhow) hon
      (hfree p how hhow) h.metric h.unpacked
  unfold Eliminator.eliminate
  rw [hhow]
  refine leads_bind.mpr (((leads_self _ el).and (hreplace el hel)).mono ?_ fun _ _ _ => trivial)
  rintro e₁ el₁ ⟨hrun, hquiet, hmetric, hunpacked, hreplaces⟩
  refine (leads_reduce hmetric hunpacked hquiet).mono ?_ fun _ _ => id
  rintro e' el' ⟨hreduce, hquiet', hmetric', hunpacked', hreduced⟩
  refine ⟨hquiet', h.next hmetric' hunpacked' trivial, (e₁.canonical .empty).drops, ?_, ?_⟩
  · rw [drops]
    simp only [hp, Bool.not_true, Bool.false_eq_true, if_false, hhow, hrun, hreduce, hquiet.known]
  · have hexpose := (Replaces.expose ρ p e).losesOnly h.unpacked h.ratioFree
    have hexposed : (e.expose p).Unpacked :=
      Expr.leafwise_unpacked.holds_expose (fun _ => trivial) h.unpacked
    have hreplaced := hreplaces.losesOnly hexposed (Expr.all_expose p h.ratioFree)
    exact hexpose.trans (hreplaced.trans hreduced)

/-- **All points are eliminated.** -/
theorem Follows.leads_eliminateAll {free : Coordinates} (limits : Limits)
    (ho : Figure.Ordered fig.placed) (ha : fig.Apart) (hu : fig.Unpacked)
    (hρ : fig.locate free = some ρ) (hfree : ∀ p c, fig.construction? p = some c → c.RatioFree) :
    ∀ {ps : List Point} {e : Expr} {el : Eliminator σ} (steps : List EliminationStep),
      Follows fig (fun _ => True) ps e → el.Quiet ρ →
        Leads (eliminateAll limits oracle fig ps e steps) el
          (fun r el' => el'.Quiet ρ ∧ Follows fig (fun _ => True) [] r.1 ∧
            ∃ ds, drops oracle fig ps e el = ds ++ drops oracle fig [] r.1 el' ∧
              LosesOnly ρ ds e r.1)
          fun _ _ => True
  | [], e, el, steps, h, hel => ⟨hel, h, [], rfl, .refl ρ e⟩
  | p :: ps, e, el, steps, h, hel => by
    unfold eliminateAll
    split_ifs with hp hlimit
    · have hp : e.mentions p = false := by simpa using hp
      have hskip : drops oracle fig (p :: ps) e el = drops oracle fig ps e el := by
        rw [drops]
        simp only [hp, Bool.not_false, if_true]
      rw [hskip]
      exact leads_eliminateAll limits ho ha hu hρ hfree steps (h.skip hp) hel
    · trivial
    · have hp : e.mentions p = true := by simpa using hp
      refine leads_bind.mpr ((h.leads_eliminate ho ha hu hρ hfree hp hel).mono ?_
        fun _ _ _ => trivial)
      rintro e' el' ⟨hquiet, hfollows, ds, hds, hloses⟩
      refine leads_bind.mpr (leads_checkSize.mpr ⟨fun _ => ?_, fun _ => trivial⟩)
      refine (leads_eliminateAll limits ho ha hu hρ hfree _ hfollows hquiet).mono ?_ fun _ _ => id
      rintro r el'' ⟨hquiet', hend, ds', hds', hloses'⟩
      refine ⟨hquiet', hend, ds ++ ds', ?_, hloses.trans hloses'⟩
      rw [hds, hds', List.append_assoc]

/-- The variables of the frame are areas. -/
theorem Frame.Variable.ratioFree {q : Quantity} (h : Variable fig q) : q.RatioFree := by
  obtain ⟨q₀, odd, hraw, hcanonical⟩ := h
  have hratio : q₀.RatioFree := by rcases hraw with rfl | ⟨r, -, rfl | rfl⟩ <;> trivial
  have hall := Quantity.ratioFree_canonical .empty q₀ hratio
  rw [hcanonical] at hall
  cases odd <;> exact Expr.all_quantity.mp hall

/-- Where there are no fractions, everything has a value. -/
theorem Expr.Plain.defined (h : e.Plain Quantity.RatioFree) : e.Defined (reading ρ) := by
  obtain ⟨P, hP⟩ := exists_denote? h.1
  refine ⟨_, (value_congr (h.2.mono fun q hq => ?_)).trans
    (value_of_denote? (fun q => (reading ρ q).getD 0) hP)⟩
  obtain ⟨x, hx⟩ := hq.exists_reading ρ
  rw [hx, Option.getD_some]

/-- One fraction, with its denominator multiplied out. -/
theorem losesOnly_singleFraction {single : Expr} {d : Polynomial} (hu : e.Unpacked)
    (he : e.All Quantity.RatioFree) (hsingle : e.singleFraction = .ok single)
    (hd : single.numDen.2.expand = .ok d) :
    LosesOnly ρ e.flattenDrops e (.fraction 1 (.polynomial d)) := by
  refine ⟨Expr.all_flattenDrops he, fun hparts hdefined => ?_⟩
  obtain ⟨x, hx, hresult⟩ := bind_eq_ok.mp hsingle
  have hreadings : e.All fun q => (reading ρ q).isSome := he.mono fun q hq =>
    Option.isSome_iff_exists.mpr (hq.exists_reading ρ)
  refine Expr.defined_of_toFractional hu hreadings hx (fun c hc => ?_) hparts
  rw [hc] at hresult
  simp only at hresult
  split_ifs at hresult
  cases hresult
  obtain ⟨y, hy⟩ := ((Expr.plain_toFractional hx he).2 c hc).defined (ρ := ρ)
  obtain ⟨z, hz, h0⟩ := Expr.nonzero_of_reciprocal hdefined
  obtain rfl := Option.some.inj ((Expr.value_of_expand hd hy).symm.trans hz)
  exact ⟨y, hy, h0⟩

theorem leads_quotient (limits : Limits) (hs : Frame.Square ρ)
    (he : e.All (Quantity.Metric fig.Free)) (hu : e.Unpacked) (hel : el.Quiet ρ) :
    Leads (quotient limits oracle fig e) el
      (fun nd _ => ∃ framed el', toFrame oracle fig e el = (.ok framed, el') ∧
        LosesOnly ρ (framed.canonical .empty).flattenDrops e (.fraction 1 (.polynomial nd.2)))
      fun _ _ => True := by
  have hframe : Yields (Quiet ρ) Fault.OnPole (toFrame oracle fig e) _ := yields_toFrame_metric hs he
  refine leads_bind.mpr (((leads_self _ el).and (hframe el hel)).mono ?_ fun _ _ _ => trivial)
  rintro framed el₁ ⟨hrun, -, hraw, hunpacked, hreplaces⟩
  refine leads_bind.mpr (leads_checkSize.mpr ⟨fun _ => ?_, fun _ => trivial⟩)
  refine leads_bind.mpr (leads_liftExcept.mpr ⟨fun single hsingle => ?_, fun _ _ => trivial⟩)
  refine leads_bind.mpr (leads_liftExcept.mpr ⟨fun numerator _ => ?_, fun _ _ => trivial⟩)
  refine leads_bind.mpr (leads_liftExcept.mpr ⟨fun denominator hdenominator => ?_, fun _ _ => trivial⟩)
  split_ifs
  · trivial
  · refine ⟨framed, el₁, hrun, ?_⟩
    have hratio := (Expr.all_metric.mp he).2
    have hvariables : (framed.canonical .empty).All Quantity.RatioFree :=
      (Frame.all_variable_canonical hraw).mono fun _ => Frame.Variable.ratioFree
    have hcanonical : Replaces ρ framed (framed.canonical .empty) :=
      .canonical (Triples.holdAt_empty ρ) hunpacked.fits
    have hrawratio : framed.All Quantity.RatioFree := hraw.mono fun q hq => by
      rcases hq with rfl | ⟨r, -, rfl | rfl⟩ <;> trivial
    have hunfold := (Replaces.unfold ρ e).losesOnly hu hratio
    have hreplaced := hreplaces.losesOnly e.unpacked_unfold (Expr.all_unfold hratio)
    exact hunfold.trans (hreplaced.trans ((hcanonical.losesOnly hunpacked hrawratio).trans
      (losesOnly_singleFraction (hunpacked.canonical .empty) hvariables hsingle hdenominator)))

/-- **What an attempt loses.** Where the points can be located, in a square frame, the
statement has a value if the denominator of the attempt does not vanish and all that
the attempt dropped has a value. -/
theorem Theorem.losesOnly_attempt {thm : Theorem} {free : Coordinates} (hthm : thm.Proper)
    (hfree : thm.RatioFree) (hsquare : Frame.Square free) (hρ : thm.figure.locate free = some ρ)
    {limits : Limits} {memory : σ} {a : Attempt}
    (hrun : thm.attempt limits oracle (start memory) = (.ok a, el)) :
    LosesOnly ρ (thm.drops oracle memory) thm.statement.zeroExpr
      (.fraction 1 (.polynomial a.denominator)) := by
  have hs := Figure.square_locate hthm.apart hρ hsquare
  have hattempt : Leads (thm.attempt limits oracle) (start memory)
      (fun a _ => LosesOnly ρ (thm.drops oracle memory) thm.statement.zeroExpr
        (.fraction 1 (.polynomial a.denominator))) fun _ _ => True := by
    refine leads_bind.mpr (leads_liftExcept.mpr ⟨fun first hfirst => ?_, fun _ _ => trivial⟩)
    have hstart := losesOnly_canonical_simplify (ρ := ρ) hthm.unpacked hfree.statement hfirst
    refine leads_bind.mpr (leads_checkSize.mpr ⟨fun _ => ?_, fun _ => trivial⟩)
    refine leads_bind.mpr ((Follows.leads_eliminateAll limits hthm.ordered hthm.apart
      hthm.constructions hρ hfree.constructions [] (follows_start hthm hfree (tracks_true ρ) trivial
        hfirst) (quiet_start memory)).mono ?_ fun _ _ _ => trivial)
    rintro ⟨e, steps⟩ el₁ ⟨hquiet, hend, ds, hds, hloses⟩
    refine leads_bind.mpr ((leads_reduce hend.metric_free hend.unpacked hquiet).mono ?_
      fun _ _ _ => trivial)
    rintro e' el₂ ⟨hreduce, hquiet', hmetric, hunpacked, hreduced⟩
    refine leads_bind.mpr ((leads_quotient limits hs hmetric hunpacked hquiet').mono ?_
      fun _ _ _ => trivial)
    rintro nd el₃ ⟨framed, el₄, hframe, hquotient⟩
    have hlast : Eliminator.drops oracle thm.figure [] e el₁ =
        (e.canonical .empty).drops ++ (framed.canonical .empty).flattenDrops := by
      rw [Eliminator.drops, run_bind hreduce, hframe, hquiet.known]
    have hdrops : thm.drops oracle memory = (thm.statement.zeroExpr.canonical .empty).drops ++
        (ds ++ ((e.canonical .empty).drops ++ (framed.canonical .empty).flattenDrops)) := by
      rw [Theorem.drops, hfirst, ← hlast, ← hds]
    change LosesOnly ρ (thm.drops oracle memory) _ _
    rw [hdrops]
    exact hstart.trans (hloses.trans (hreduced.trans hquotient))
  exact hattempt.of_ok hrun

end Attempts

namespace Theorem

variable {thm : Theorem} {free ρ : Coordinates} {limits : Limits} {a : Attempt}
  {el : Eliminator Memory}

/-- The denominator that an attempt arrived at does not vanish everywhere. -/
theorem exists_nonzero_denominator (hthm : thm.Proper) (hfree : thm.RatioFree)
    (hρ : thm.figure.locate free = some ρ) (hrun : thm.run limits = (.ok a, el)) :
    (Expr.polynomial a.denominator).All Quantity.RatioFree ∧ ∃ free' ρ', Frame.Square free' ∧
      thm.figure.locate free' = some ρ' ∧ (Expr.polynomial a.denominator).Nonzero (reading ρ') := by
  obtain ⟨ρ₁, hρ₁, -⟩ := locate_place hthm 1 hρ
  have harrives : Arrives thm.figure (fun _ => True) a.numerator a.denominator :=
    ((yields_attempt_of_tracks hthm hfree (Frame.square_place one_ne_zero free) hρ₁ (tracks_true ρ₁)
      trivial limits _ (quiet_start _)).of_ok hrun).2
  have hpowers := harrives.allPowers.2
  obtain ⟨framed, single, hvariables, -, hsingle, -, hdenominator, hterms⟩ := harrives
  have hplain : single.numDen.2.Plain Quantity.RatioFree := (Expr.plain_singleFraction hsingle
    (hvariables.mono fun _ => Frame.Variable.ratioFree)).2
  refine ⟨hpowers.all fun _ hx => hx.1.ratioFree, by_contra fun hnone => hterms ?_⟩
  -- otherwise it vanishes at all coordinates in a square frame, so it has no terms
  have hlocate := (regularAt_locate hthm hfree hρ₁ (Frame.o, false)).eventually.filter_mono
    (nhds_le_around _)
  refine Figure.isZero_of_eventually hthm.ordered hthm.apart hpowers (hlocate.mono ?_)
  rintro free' ⟨y, hy⟩ hsquare
  obtain ⟨ρ', hρ', -⟩ := Option.map_eq_some_iff.mp hy
  obtain ⟨x, hx⟩ := hplain.defined (ρ := ρ')
  have hvalue := Expr.value_of_expand hdenominator hx
  obtain rfl : x = 0 := by_contra fun h0 => hnone ⟨free', ρ', hsquare, hρ', x, hvalue, h0⟩
  exact ⟨ρ', hρ', hvalue⟩

end Theorem

/-- **Poles are noticed unless they are dropped.** Take a theorem without ratios, whose
points can be located somewhere, and let its statement be without a value wherever they
can. If there is a report all the same, the attempt dropped a part that has no
value wherever the points are located, in any square frame. Otherwise something is divided
by zero, or a limit on the size is hit. -/
theorem Problem.prove_of_pole {p : Problem} {thm : Theorem} (hbuild : p.build = .ok thm)
    (hfree : thm.RatioFree) (hlocate : ∃ free ρ, thm.figure.locate free = some ρ)
    (hpole : ∀ free, thm.valueAt free = none) (settings : Settings) :
    (∃ e, thm.prove settings = .error (.divisionByZero e)) ∨
      (∃ size limit, thm.prove settings = .error (.tooLarge size limit)) ∨
      (∃ limit, thm.prove settings = .error (.tooManyEliminations limit)) ∨
      ∃ r, thm.prove settings = .ok r ∧
        ∃ d ∈ thm.drops (Prover.oracle settings.limits thm.figure) .blank,
          ∀ free ρ, Frame.Square free → thm.figure.locate free = some ρ →
            d.value (reading ρ) = none := by
  have hthm := Problem.proper_build hbuild
  obtain ⟨free, ρ, hρ⟩ := hlocate
  rcases hattempt : thm.run settings.limits with ⟨f | a, el⟩
  · obtain ⟨ρ₁, hρ₁, -⟩ := Theorem.locate_place hthm 1 hρ
    have hfault : f.OnPole := ((Theorem.yields_attempt_of_tracks hthm hfree
      (Frame.square_place one_ne_zero free) hρ₁ (tracks_true ρ₁) trivial settings.limits _
      (quiet_start _)).of_error hattempt).2
    have herror := Theorem.prove_eq_error.mpr ⟨el, hattempt⟩
    cases f with
    | divisionByZero e => exact .inl ⟨e, herror⟩
    | tooLarge size limit => exact .inr (.inl ⟨size, limit, herror⟩)
    | tooManyEliminations limit => exact .inr (.inr (.inl ⟨limit, herror⟩))
    | _ => exact absurd hfault id
  refine .inr (.inr (.inr ⟨_, Theorem.prove_eq_ok.mpr ⟨a, el, hattempt, rfl⟩,
    by_contra fun hdropped => ?_⟩))
  push Not at hdropped
  obtain ⟨hratio, free', ρ', hsquare, hρ', hnonzero⟩ :=
    Theorem.exists_nonzero_denominator hthm hfree hρ hattempt
  obtain ⟨x, hx⟩ := Expr.defined_fraction.mpr ⟨Expr.defined_number 1, hnonzero⟩
  have hparts := (Theorem.losesOnly_attempt hthm hfree hsquare hρ' hattempt).ratioFree
  -- each dropped part has a value somewhere, and so has one over the denominator
  have hsomewhere : ∀ d ∈ .fraction 1 (.polynomial a.denominator) ::
      thm.drops (Prover.oracle settings.limits thm.figure) .blank, d.All Quantity.RatioFree ∧
        ∃ free ρ x, Frame.Square free ∧ thm.figure.locate free = some ρ ∧
          d.value (reading ρ) = some x := by
    refine List.forall_mem_cons.mpr ⟨⟨?_, free', ρ', x, hsquare, hρ', hx⟩, fun d hd => ⟨hparts d hd, ?_⟩⟩
    · exact (Expr.leafwise_all _).holds_reciprocal hratio
    · obtain ⟨free', ρ', hsquare, hρ', hne⟩ := hdropped d hd
      obtain ⟨y, hy⟩ := Option.ne_none_iff_exists'.mp hne
      exact ⟨free', ρ', y, hsquare, hρ', hy⟩
  -- hence all of them have one at the same coordinates
  obtain ⟨free₀, hsquare₀, hcommon⟩ := Theorem.exists_common hthm hfree _ hsomewhere
  obtain ⟨⟨ρ₀, y, hρ₀, hy⟩, hdrops⟩ := List.forall_mem_cons.mp hcommon
  obtain ⟨z, hz⟩ := (Theorem.losesOnly_attempt hthm hfree hsquare₀ hρ₀ hattempt).defined
    (fun d hd => by
      obtain ⟨ρ₁, w, hρ₁, hw⟩ := hdrops d hd
      obtain rfl := Option.some.inj (hρ₀.symm.trans hρ₁)
      exact ⟨w, hw⟩) ⟨y, hy⟩
  have hvalue := Theorem.valueAt_eq_some.mpr ⟨ρ₀, hρ₀, hz⟩
  rw [hpole free₀] at hvalue
  cases hvalue

namespace OnSegment

open Letters

/-- An equation about two points and the midpoint between them. -/
def problem (left right : String) : Problem :=
  ⟨"midpoint", [.free "A", .free "B", .midpoint "M" "A" "B"], .equal left right⟩

def figure : Figure := ⟨[⟨m, some (.pratio a a b (1 / 2))⟩, ⟨b, none⟩, ⟨a, none⟩]⟩

/-- The theorem of a problem. -/
def built (left right : Expr) : Theorem := ⟨"midpoint", figure, .equal left right⟩

theorem build_problem {left right : String} {l r : Expr} (hl : figure.expression left = .ok l)
    (hr : figure.expression right = .ok r) : (problem left right).build = .ok (built l r) := by
  have hfigure : (problem left right).steps.foldlM (fun fig step => step.apply fig) Figure.empty =
      .ok figure := rfl
  have hgoal : (problem left right).goal.resolve figure = .ok (.equal l r) := by
    simp only [problem, Goal.resolve, hl, hr]
    rfl
  exact bind_eq_ok.mpr ⟨_, hfigure, bind_eq_ok.mpr ⟨_, hgoal, rfl⟩⟩

theorem ratioFree_built {l r : Expr} (hl : l.All Quantity.RatioFree)
    (hr : r.All Quantity.RatioFree) : (built l r).RatioFree := by
  refine ⟨Expr.all_sub.mpr ⟨hl, hr⟩, fun p how hhow => ?_⟩
  have hmem := Figure.mem_of_construction? hhow
  simp only [built, figure, List.mem_cons, Placed.mk.injEq, List.not_mem_nil, reduceCtorEq, and_false,
    or_false, Option.some.injEq] at hmem
  rw [hmem.2]
  simp [Construction.RatioFree]

/-- The midpoint lies on the segment. -/
theorem area_eq_zero {free ρ : Coordinates} (h : figure.locate free = some ρ) :
    reading ρ (.area a b m) = some 0 := by
  obtain ⟨_, hfree, z, hz, rfl⟩ := Figure.locateAll_cons_eq_some.mp h
  cases hfree
  obtain ⟨k, -, rfl⟩ := located_pratio hz
  obtain ⟨ha, hb⟩ : a ≠ m ∧ b ≠ m := by decide
  change some _ = some _
  rw [Function.update_self, Function.update_of_ne ha, Function.update_of_ne hb, add_sub_cancel_left]
  simp only [Vec.cross, Prod.smul_fst, Prod.smul_snd, smul_eq_mul]
  congr 1
  ring

/-- The coordinates of the free points. -/
def free : Coordinates := fun p => if p = b then (2, 0) else (0, 0)

/-- The coordinates of all points. -/
def located : Coordinates := Function.update free m (1, 0)

theorem locate_figure : figure.locate free = some located := by
  have hpoints : free a = (0, 0) ∧ free b = (2, 0) := ⟨rfl, rfl⟩
  have hratio : Expr.value (reading free) (1 / 2) = some (1 / 2) :=
    Expr.value_fraction rfl rfl two_ne_zero
  have hm : (Construction.pratio a a b (1 / 2)).locate free = some (1, 0) := by
    norm_num [Construction.locate, hratio, hpoints]
  exact Figure.locateAll_cons_eq_some.mpr ⟨free, rfl, (1, 0), hm, rfl⟩

/-- One over an area that vanishes. -/
def pole : Expr := .fraction 1 (.area a b m)

theorem value_pole {free ρ : Coordinates} (h : figure.locate free = some ρ) :
    pole.value (reading ρ) = none := by
  have harea : Expr.value (reading ρ) (.area a b m) = some 0 := area_eq_zero h
  simp [pole, Expr.value, harea]

/-- One and two over an area that vanishes. -/
def twoPoles : Theorem := built pole (.fraction 2 (.area a b m))

theorem build_twoPoles : (problem "(/ 1 (S A B M))" "(/ 2 (S A B M))").build = .ok twoPoles := by
  have hl : SExpr.read "(/ 1 (S A B M))" = .ok (some (.list [.atom "/", .atom "1",
      .list [.atom "S", .atom "A", .atom "B", .atom "M"]])) := rfl
  have hr : SExpr.read "(/ 2 (S A B M))" = .ok (some (.list [.atom "/", .atom "2",
      .list [.atom "S", .atom "A", .atom "B", .atom "M"]])) := rfl
  refine build_problem ?_ ?_
  · exact Figure.expression_of_read hl (by simp only [Expr.ofSExpr, Expr.ofSExprs]; rfl)
  · exact Figure.expression_of_read hr (by simp only [Expr.ofSExpr, Expr.ofSExprs]; rfl)

theorem valueAt_built {l r : Expr} (h : ∀ free ρ, figure.locate free = some ρ →
    l.value (reading ρ) = none) (free : Coordinates) : (built l r).valueAt free = none := by
  refine Option.eq_none_iff_forall_ne_some.mpr fun x hx => ?_
  obtain ⟨ρ, hρ, hx⟩ := Theorem.valueAt_eq_some.mp hx
  obtain ⟨y, -, hy, -⟩ := Expr.value_sum_eq_some.mp hx
  rw [h free ρ hρ] at hy
  cases hy

/-- The area of the two points and the midpoint, without the midpoint. -/
def shifted : Expr := .area a b a + 1 / 2 * (.area a b b - .area a b a)

/-- One and two over it. -/
def polesShifted : Expr := .fraction 1 shifted - .fraction 2 shifted

/-- The record after the midpoint was eliminated from two areas. -/
def foundTwice : Eliminator Memory :=
  ⟨.blank, .empty, (LemmaUsage.none.record ⟨.area, .pratio⟩).record ⟨.area, .pratio⟩, [], []⟩

theorem pass_polesShifted : (polesShifted.canonical .empty).simplifyStep =
    .error (.divisionByZero (.fraction 1 0)) := by
  decide +kernel

theorem reduce_polesShifted : Eliminator.reduce polesShifted foundTwice =
    (.error (.divisionByZero (.fraction 1 0)), foundTwice) := by
  change (liftExcept (polesShifted.canonical .empty).simplify : EliminateM Memory Expr) foundTwice = _
  rw [Expr.simplify_of_error pass_polesShifted]
  rfl

/-- The attempt divides by zero, and drops only factors of zero before. -/
theorem drops_twoPoles :
    twoPoles.drops (Prover.oracle .standard figure) .blank = [1 / 2, 0, 1 / 2, 0] := by
  have hfixed : (twoPoles.statement.zeroExpr.canonical .empty).simplifyStep =
      .ok (twoPoles.statement.zeroExpr.canonical .empty) := rfl
  have hnothing : (twoPoles.statement.zeroExpr.canonical .empty).drops = [] :=
    (Expr.drops_of_fixed hfixed).trans rfl
  have hmentions : (twoPoles.statement.zeroExpr.canonical .empty).mentions m = true := by decide
  have hhow : figure.construction? m = some (.pratio a a b (1 / 2)) := rfl
  have hreplace : Eliminator.replace (Prover.oracle .standard figure) m (.pratio a a b (1 / 2))
      (twoPoles.statement.zeroExpr.canonical .empty) (Eliminator.start .blank) =
      (.ok polesShifted, foundTwice) := rfl
  have hdrops : (polesShifted.canonical .empty).drops = [1 / 2, 0, 1 / 2, 0] :=
    (Expr.drops_of_error pass_polesShifted).trans (by decide +kernel)
  have hrun : Eliminator.drops (Prover.oracle .standard figure) figure [m]
      (twoPoles.statement.zeroExpr.canonical .empty) (Eliminator.start .blank) =
      [1 / 2, 0, 1 / 2, 0] := by
    rw [Eliminator.drops]
    simp only [hmentions, Bool.not_true, Bool.false_eq_true, if_false, hhow, hreplace,
      reduce_polesShifted]
    exact (List.append_nil _).trans hdrops
  rw [Theorem.drops, hnothing, Expr.simplify_of_fixed hfixed]
  exact hrun

end OnSegment

open OnSegment Letters in
theorem Problem.prove_of_pole_onSegment :
    (problem "(/ 1 (S A B M))" "(/ 2 (S A B M))").build = .ok twoPoles ∧ twoPoles.RatioFree ∧
    twoPoles.figure.locate free = some located ∧ (∀ free, twoPoles.valueAt free = none) ∧
    twoPoles.drops (Prover.oracle .standard figure) .blank = [1 / 2, 0, 1 / 2, 0] ∧
    ((∃ e, twoPoles.prove .standard = .error (.divisionByZero e)) ∨
      (∃ size limit, twoPoles.prove .standard = .error (.tooLarge size limit)) ∨
      ∃ limit, twoPoles.prove .standard = .error (.tooManyEliminations limit)) := by
  have hfree : twoPoles.RatioFree :=
    ratioFree_built (by simp [pole, Quantity.RatioFree]) (by simp [Quantity.RatioFree])
  have hvalue : ∀ free, twoPoles.valueAt free = none := valueAt_built fun _ _ => value_pole
  refine ⟨build_twoPoles, hfree, locate_figure, hvalue, drops_twoPoles, ?_⟩
  rcases prove_of_pole build_twoPoles hfree ⟨free, located, locate_figure⟩ hvalue .standard with
    hzero | hlarge | hmany | ⟨r, -, d, hd, hnone⟩
  · exact .inl hzero
  · exact .inr (.inl hlarge)
  · exact .inr (.inr hmany)
  · -- both numbers have a value, wherever the points are
    obtain ⟨ρ, hρ, -⟩ := Theorem.locate_place (Problem.proper_build build_twoPoles) 1 locate_figure
    have hd : d = 1 / 2 ∨ d = 0 := by
      have hmem : d ∈ [1 / 2, 0, 1 / 2, 0] := drops_twoPoles ▸ hd
      simp only [List.mem_cons, List.not_mem_nil, or_false] at hmem
      tauto
    have hundefined := hnone _ ρ (Frame.square_place one_ne_zero free) hρ
    rcases hd with rfl | rfl
    · rw [show Expr.value (reading ρ) (1 / 2) = some (1 / 2) from
        Expr.value_fraction (value_ofNat 1) (value_ofNat 2) two_ne_zero] at hundefined
      cases hundefined
    · cases hundefined

/-! ### Poles that are dropped -/

/-- A problem without ratios, about points that can be located somewhere, whose
statement has no value anywhere and is proved nevertheless. -/
def Problem.IgnoresPole (p : Problem) : Prop :=
  ∃ thm r, p.build = .ok thm ∧ thm.RatioFree ∧ (∃ free ρ, thm.figure.locate free = some ρ) ∧
    (∀ free, thm.valueAt free = none) ∧ thm.prove .standard = .ok r ∧ r.verdict = .proved

namespace OnSegment

open Letters

open Eliminator

variable {left right : String} {l r start : Expr} {steps : List EliminationStep}
  {el : Eliminator Memory}

/-- An attempt that ends with zero. -/
theorem run_built (hstart : ((built l r).statement.zeroExpr.canonical .empty).simplify = .ok start)
    (hsize : checkSize .standard start (Eliminator.start Memory.blank) =
      (.ok (), Eliminator.start .blank))
    (hall : eliminateAll .standard (Prover.oracle .standard figure) figure [m] start []
      (Eliminator.start .blank) = (.ok (0, steps), el)) :
    (built l r).run .standard = (.ok ⟨steps, .zero, .constant 1⟩, el) := by
  have hzero : reduce 0 el = (.ok 0, el) := run_liftExcept (Expr.simplify_of_fixed rfl) el
  refine (run_bind (run_liftExcept hstart _)).trans ?_
  exact (run_bind hsize).trans ((run_bind hall).trans ((run_bind hzero).trans rfl))

/-- Nothing is left to eliminate. -/
theorem run_of_simplify
    (h : ((built l r).statement.zeroExpr.canonical .empty).simplify = .ok 0) :
    (built l r).run .standard = (.ok ⟨[], .zero, .constant 1⟩, Eliminator.start .blank) :=
  run_built h rfl rfl

theorem ignoresPole (hl : figure.expression left = .ok l) (hr : figure.expression right = .ok r)
    (hlfree : l.All Quantity.RatioFree) (hrfree : r.All Quantity.RatioFree)
    (hvalue : ∀ free ρ, figure.locate free = some ρ → l.value (reading ρ) = none)
    (hrun : (built l r).run .standard = (.ok ⟨steps, .zero, .constant 1⟩, el)) :
    (problem left right).IgnoresPole := by
  refine ⟨built l r, _, build_problem hl hr, ratioFree_built hlfree hrfree,
    ⟨free, located, locate_figure⟩, valueAt_built hvalue,
    Theorem.prove_eq_ok.mpr ⟨_, _, hrun, rfl⟩, Theorem.verdict_reportAll⟩

theorem expression_zero : figure.expression "0" = .ok 0 :=
  Figure.expression_of_read (s := .atom "0") rfl (by simp only [Expr.ofSExpr]; rfl)

theorem expression_one : figure.expression "1" = .ok 1 :=
  Figure.expression_of_read (s := .atom "1") rfl (by simp only [Expr.ofSExpr]; rfl)

/-- A pole, as it is written. -/
def written : SExpr :=
  .list [.atom "/", .atom "1", .list [.atom "S", .atom "A", .atom "B", .atom "M"]]

theorem ofSExpr_written : Expr.ofSExpr .standard figure written = .ok pole := by
  simp only [written, Expr.ofSExpr, Expr.ofSExprs]
  rfl

theorem ignoresPole_product : (problem "(* 0 (/ 1 (S A B M)))" "0").IgnoresPole := by
  have hread : SExpr.read "(* 0 (/ 1 (S A B M)))" =
      .ok (some (.list [.atom "*", .atom "0", written])) := rfl
  have hl : figure.expression "(* 0 (/ 1 (S A B M)))" = .ok (.product 0 pole) := by
    refine Figure.expression_of_read hread ?_
    simp only [Expr.ofSExpr, Expr.ofSExprs, ofSExpr_written]
    rfl
  refine ignoresPole hl expression_zero (by simp [pole, Quantity.RatioFree]) (by simp)
    (fun free ρ hρ => ?_) (run_of_simplify ?_)
  · simp [Expr.value, value_pole hρ]
  · exact (Expr.simplify_of_pass rfl (by decide)).trans (Expr.simplify_of_fixed rfl)

theorem ignoresPole_quotient : (problem "(/ (S A B M) (S A B M))" "1").IgnoresPole := by
  have hread : SExpr.read "(/ (S A B M) (S A B M))" = .ok (some (.list [.atom "/",
      .list [.atom "S", .atom "A", .atom "B", .atom "M"],
      .list [.atom "S", .atom "A", .atom "B", .atom "M"]])) := rfl
  have hl : figure.expression "(/ (S A B M) (S A B M))" =
      .ok (.fraction (.area a b m) (.area a b m)) := by
    refine Figure.expression_of_read hread ?_
    simp only [Expr.ofSExpr, Expr.ofSExprs]
    rfl
  refine ignoresPole hl expression_one (by simp [Quantity.RatioFree]) (by simp)
    (fun free ρ hρ => ?_) (run_of_simplify ?_)
  · have harea : Expr.value (reading ρ) (.area a b m) = some 0 := area_eq_zero hρ
    simp [Expr.value, harea]
  · exact (Expr.simplify_of_pass (by decide +kernel) (by decide)).trans (Expr.simplify_of_fixed rfl)

set_option maxRecDepth 4000 in
theorem read_difference : SExpr.read "(- (/ 1 (S A B M)) (/ 1 (S A B M)))" =
    .ok (some (.list [.atom "-", written, written])) := rfl

theorem ignoresPole_difference :
    (problem "(- (/ 1 (S A B M)) (/ 1 (S A B M)))" "0").IgnoresPole := by
  have hl : figure.expression "(- (/ 1 (S A B M)) (/ 1 (S A B M)))" = .ok (pole - pole) := by
    refine Figure.expression_of_read read_difference ?_
    simp only [Expr.ofSExpr, Expr.ofSExprs, ofSExpr_written]
    rfl
  refine ignoresPole hl expression_zero (by simp [pole, Quantity.RatioFree]) (by simp)
    (fun free ρ hρ => ?_) (run_of_simplify ?_)
  · change (Expr.sum pole (.neg pole)).value (reading ρ) = none
    simp [Expr.value, value_pole hρ]
  · exact (Expr.simplify_of_pass rfl (by decide)).trans (Expr.simplify_of_fixed rfl)

/-- The record after the midpoint was eliminated from an area. -/
def found : Eliminator Memory :=
  ⟨.blank, .empty, LemmaUsage.none.record ⟨.area, .pratio⟩, [], []⟩

theorem eliminate_area : eliminate (Prover.oracle .standard figure) figure (.area a b m) m
    (Eliminator.start .blank) = (.ok 0, found) := by
  have hreplace : replace (Prover.oracle .standard figure) m (.pratio a a b (1 / 2)) (.area a b m)
      (Eliminator.start .blank) =
      (.ok shifted, found) := rfl
  refine (run_bind hreplace).trans (run_liftExcept ?_ found)
  exact (Expr.simplify_of_pass (by decide +kernel) (by decide)).trans (Expr.simplify_of_fixed rfl)

theorem ignoresPole_nested : (problem "(/ 1 (/ 1 (S A B M)))" "0").IgnoresPole := by
  have hread : SExpr.read "(/ 1 (/ 1 (S A B M)))" =
      .ok (some (.list [.atom "/", .atom "1", written])) := rfl
  have hl : figure.expression "(/ 1 (/ 1 (S A B M)))" = .ok (.fraction 1 pole) := by
    refine Figure.expression_of_read hread ?_
    simp only [Expr.ofSExpr, Expr.ofSExprs, ofSExpr_written]
    rfl
  have hstart : ((built (.fraction 1 pole) 0).statement.zeroExpr.canonical .empty).simplify =
      .ok (.area a b m) := by
    have hflat : ((built (.fraction 1 pole) 0).statement.zeroExpr.canonical .empty).simplify =
        (Expr.fraction (.product 1 (.area a b m)) 1).simplify :=
      Expr.simplify_of_pass rfl (by decide)
    exact hflat.trans ((Expr.simplify_of_pass rfl (by decide)).trans (Expr.simplify_of_fixed rfl))
  have hall : eliminateAll .standard (Prover.oracle .standard figure) figure [m] (.area a b m) []
      (Eliminator.start .blank) = (.ok (0, [⟨m, 1⟩]), found) := (run_bind eliminate_area).trans rfl
  refine ignoresPole hl expression_zero (by simp [pole, Quantity.RatioFree]) (by simp)
    (fun free ρ hρ => ?_) (run_built hstart rfl hall)
  simp [Expr.value, value_pole hρ]

end OnSegment

open OnSegment Letters in
/-- **Poles can be dropped.** The area of two points and their midpoint is zero, and one
over it has no value. It is dropped if it is put below a bar, subtracted from itself or
multiplied by zero, and the area is dropped if it is divided by itself. The statement,
which has no value anywhere, is proved. -/
theorem Problem.prove_of_hidden_pole :
    (problem "(/ 1 (/ 1 (S A B M)))" "0").IgnoresPole ∧
    (problem "(- (/ 1 (S A B M)) (/ 1 (S A B M)))" "0").IgnoresPole ∧
    (problem "(* 0 (/ 1 (S A B M)))" "0").IgnoresPole ∧
    (problem "(/ (S A B M) (S A B M))" "1").IgnoresPole :=
  ⟨ignoresPole_nested, ignoresPole_difference, ignoresPole_product, ignoresPole_quotient⟩

end AreaMethod
