/-
# Attempts without ratios

If neither the statement of a theorem nor the constructions of its figure
mention a ratio, no ratio comes up on the way, and the oracle is never asked.
The only conditions recorded are those under which the constructions give a
point. So wherever the points can be located the record is true
(`Eliminator.Quiet`), and what an attempt does to an expression is to replace
leaves by others of the same value, and to simplify. A property that both
keep (`Tracks`) passes from the statement to the expression that is brought to
one fraction at the end (`Theorem.yields_attempt_of_tracks`).

To have a certain value is such a property. So if the statement has a value no
denominator vanishes, and the attempt ends with a fraction of the same value,
or a limit is hit (`Theorem.yields_attempt`).

The polynomials of the fraction are in the variables of the frame
(`Frame.Variable`).

Key definitions: `Quantity.RatioFree`, `Theorem.RatioFree`, `Figure.Free`,
`Eliminator.Quiet`, `Tracks`, `Frame.Variable`, `Arrives`.
Key theorems: `yields_eliminate`, `yields_quotient`,
`Theorem.yields_attempt_of_tracks`, `Theorem.yields_attempt`.
-/
import Mathlib
import AreaMethod.Proofs.Soundness
import AreaMethod.Proofs.Yields

namespace AreaMethod

/-- An area or a Pythagoras difference. -/
def Quantity.RatioFree : Quantity → Prop
  | .area .. => True
  | .pythagoras .. => True
  | .ratio .. => False

/-- There is no ratio in the construction. -/
def Construction.RatioFree : Construction → Prop
  | .intersection .. => True
  | .foot .. => True
  | .pratio _ _ _ r => r.All Quantity.RatioFree
  | .tratio _ _ r => r.All Quantity.RatioFree

/-- There is no ratio in the statement or in a construction of the figure. -/
structure Theorem.RatioFree (thm : Theorem) : Prop where
  statement : thm.statement.zeroExpr.All Quantity.RatioFree
  constructions : ∀ p c, thm.figure.construction? p = some c → c.RatioFree

/-- Neither constructed nor a point of the frame. -/
def Figure.Free (fig : Figure) (p : Point) : Prop :=
  fig.construction? p = none ∧ p.label ∉ frameLabels

/-- A limit on the size of a run was hit. -/
def Fault.OnSize : Fault → Prop
  | .tooLarge .. => True
  | .tooManyEliminations _ => True
  | _ => False

/-- Nothing was asked, and no condition vanishes. -/
structure Eliminator.Quiet {σ : Type} (ρ : Coordinates) (el : Eliminator σ) : Prop where
  asked : el.asked = []
  known : el.known = .empty
  conditions : ∀ e ∈ el.conditions, e.NonzeroAt ρ

open Eliminator

section Quiet

variable {σ : Type} {ρ : Coordinates}

theorem quiet_start (memory : σ) : (start memory).Quiet ρ :=
  ⟨rfl, rfl, fun _ he => nomatch he⟩

theorem Eliminator.Quiet.trueAt {el : Eliminator σ} (h : el.Quiet ρ) :
    el.Remembers ∧ TrueAt ρ el := by
  refine ⟨fun t => ?_, fun q hq => ?_, h.conditions⟩
  · rw [h.known, h.asked]
    simp [Triples.empty]
  · rw [h.asked] at hq
    cases hq

/-- A construction that gives a point has a denominator that does not vanish. -/
theorem nonzeroAt_denominator {how : Construction} {z : Vec} (hz : how.locate ρ = some z) {d : Expr}
    (hd : how.denominator? = some d) : (d.canonical .empty).NonzeroAt ρ := by
  have hkeep : ∀ {x : ℚ}, d.Unpacked → d.value (reading ρ) = some x → x ≠ 0 →
      (d.canonical .empty).NonzeroAt ρ :=
    fun hu hx h0 => ⟨_, Expr.value_canonical (Triples.holdAt_empty ρ) hu.fits hx, h0⟩
  cases how with
  | intersection u v p q =>
    cases hd
    exact hkeep ⟨trivial, trivial⟩ (value_area4 u p v q)
      (div_ne_zero (located_intersection hz).1 two_ne_zero)
  | foot p u v =>
    cases hd
    refine hkeep trivial (value_pythagoras u v u) (mul_ne_zero two_ne_zero ?_)
    rw [Vec.dot_sub_comm]
    exact (located_foot hz).1
  | pratio w u v r => cases hd
  | tratio u v r => cases hd

theorem tolerates_quiet {how : Construction} {z : Vec} (hz : how.locate ρ = some z) :
    Tolerates (fun el : Eliminator σ => el.Quiet ρ) how where
  usage _ _ h := ⟨h.asked, h.known, h.conditions⟩
  condition d hd el h := by
    refine ⟨h.asked, h.known, fun e he => ?_⟩
    unfold required at he
    simp only at he
    split_ifs at he
    · exact h.conditions e he
    · rcases List.mem_append.mp he with he | he
      · exact h.conditions e he
      · rw [List.mem_singleton.mp he]
        exact nonzeroAt_denominator hz hd

end Quiet

/-! ### Elimination -/

/-- An area or Pythagoras difference of points with the property `K`. -/
def Quantity.Metric (K : Point → Prop) (q : Quantity) : Prop := q.On K ∧ q.RatioFree

theorem spans_metric (K : Point → Prop) : Spans K (·.All (Quantity.Metric K)) :=
  ⟨Expr.leafwise_all _,
    fun ha hb hc => Expr.all_area.mpr ⟨Quantity.on_area.mpr ⟨ha, hb, hc⟩, trivial⟩,
    fun ha hb hc => Expr.all_pythagoras.mpr ⟨Quantity.on_pythagoras.mpr ⟨ha, hb, hc⟩, trivial⟩⟩

theorem Expr.all_metric {K : Point → Prop} {e : Expr} :
    e.All (Quantity.Metric K) ↔ e.All (Quantity.On K) ∧ e.All Quantity.RatioFree :=
  ⟨fun h => ⟨h.mono fun _ => And.left, h.mono fun _ => And.right⟩,
    fun h q hq => ⟨h.1 q hq, h.2 q hq⟩⟩

theorem Construction.over_metric {K : Point → Prop} {how : Construction} (h : how.On K)
    (hfree : how.RatioFree) : how.Over K (·.All (Quantity.Metric K)) := by
  cases how with
  | intersection u v p q => exact on_intersection.mp h
  | foot p u v => exact on_foot.mp h
  | pratio w u v r =>
    obtain ⟨hw, hu, hv, hr⟩ := on_pratio.mp h
    exact ⟨hw, hu, hv, Expr.all_metric.mpr ⟨hr, hfree⟩⟩
  | tratio u v r =>
    obtain ⟨hu, hv, hr⟩ := on_tratio.mp h
    exact ⟨hu, hv, Expr.all_metric.mpr ⟨hr, hfree⟩⟩

/-- The representative of an area or a Pythagoras difference is one. -/
theorem Quantity.ratioFree_canonical (known : Triples) (q : Quantity) (h : q.RatioFree) :
    (q.canonical known).toExpr.All RatioFree := by
  have hsigned : ∀ {q : Quantity} (odd : Bool), q.RatioFree →
      (Canonical.signed q odd).toExpr.All RatioFree := by
    intro q odd hq
    cases odd <;> exact Expr.all_quantity.mpr hq
  cases q with
  | area a b c =>
    simp only [canonical]
    split_ifs
    · exact Expr.all_number 0
    · exact hsigned _ trivial
  | pythagoras a b c =>
    simp only [canonical]
    split_ifs
    · exact Expr.all_number 0
    · exact hsigned _ trivial
    · exact hsigned _ trivial
  | ratio a b c d => exact absurd h id

/-- A property of expressions that is kept when leaves are replaced by others of
the same value and by simplification. Where the property holds, attempts fail
only with faults in `E`. -/
structure Tracks (ρ : Coordinates) (E : Fault → Prop) (V : Expr → Prop) : Prop where
  replaces : ∀ {e e' : Expr}, Replaces ρ e e' → V e → V e'
  simplify : ∀ {e e' : Expr}, e.simplify = .ok e' → V e → V e'
  onSize : ∀ {f : Fault}, f.OnSize → E f
  onSimplify : ∀ {e : Expr} {f : Fault}, e.simplify = .error f → V e → E f
  onSingle : ∀ {e : Expr} {f : Fault}, e.singleFraction = .error f → V e → E f
  onZero : ∀ {e single : Expr} {d : Polynomial}, e.singleFraction = .ok single →
    single.numDen.2.expand = .ok d → d.isZero → V e → E (.divisionByZero single)

/-- A value is kept, and where there is one nothing is divided by zero. -/
theorem tracks_value (ρ : Coordinates) (x : ℚ) :
    Tracks ρ Fault.OnSize fun e => e.value (reading ρ) = some x where
  replaces h hx := h.keeps x hx
  simplify h hx := Expr.value_of_simplify h hx
  onSize h := h
  onSimplify h hx := by
    obtain ⟨e', he', -⟩ := Expr.simplify_of_value hx
    rw [he'] at h
    cases h
  onSingle h hx := by
    obtain ⟨e', he', -⟩ := Expr.singleFraction_of_value hx
    rw [he'] at h
    cases h
  onZero h hd hzero hx := by
    obtain ⟨e', he', hvalue⟩ := Expr.singleFraction_of_value hx
    obtain rfl := Except.ok.inj (he'.symm.trans h)
    obtain ⟨n, d, -, hdvalue, h0, -⟩ := Expr.value_numDen hvalue
    have hvanish := (Expr.value_of_expand hd hdvalue).symm.trans (Polynomial.value_of_isZero hzero)
    exact absurd (Option.some.inj hvanish) h0

section Elimination

variable {σ : Type} {ρ : Coordinates} {E : Fault → Prop} {V : Expr → Prop} {oracle : Oracle σ}
  {fig : Figure} {K : Point → Prop} {e : Expr}

theorem yields_quantity_metric {y : Point} {how : Construction} (hy : how.locate ρ = some (ρ y))
    (hc : how.Over K (·.All (Quantity.Metric K))) {q : Quantity}
    (hq : q.Metric fun p => p = y ∨ K p) :
    Yields (Quiet ρ) E (quantity oracle y how q) (·.All (Quantity.Metric K)) := by
  obtain ⟨hon, hfree⟩ := hq
  cases q with
  | area a b c =>
    obtain ⟨ha, hb, hc'⟩ := Quantity.on_area.mp hon
    exact yields_area (spans_metric K) (tolerates_quiet hy) hc ha.resolve_left hb.resolve_left
      hc'.resolve_left
  | pythagoras a b c =>
    obtain ⟨ha, hb, hc'⟩ := Quantity.on_pythagoras.mp hon
    exact yields_pythagoras (spans_metric K) (tolerates_quiet hy) hc ha.resolve_left
      hb.resolve_left hc'.resolve_left
  | ratio a b c d => exact absurd hfree id

/-- The canonical form of an expression, simplified, as at the start of an attempt. -/
theorem tracks_canonical_simplify (hV : Tracks ρ E V) (he : e.All (Quantity.Metric K))
    (hu : e.Unpacked) (hx : V e) {e' : Expr} (h : (e.canonical .empty).simplify = .ok e') :
    e'.All (Quantity.Metric K) ∧ e'.Unpacked ∧ V e' := by
  obtain ⟨hon, hfree⟩ := Expr.all_metric.mp he
  refine ⟨Expr.all_metric.mpr ⟨?_, ?_⟩, ?_, hV.simplify h (hV.replaces ?_ hx)⟩
  · exact Expr.all_simplify h (Expr.on_canonical .empty hon)
  · exact Expr.all_simplify h (Expr.all_canonical (Quantity.ratioFree_canonical .empty)
      (fun _ hq _ => hq) hfree)
  · exact Expr.leafwise_unpacked.holds_simplify h (hu.canonical .empty)
  · exact .canonical (Triples.holdAt_empty ρ) hu.fits

theorem yields_reduce (hV : Tracks ρ E V) (he : e.All (Quantity.Metric K)) (hu : e.Unpacked)
    (hx : V e) :
    Yields (Quiet ρ) E (reduce e : EliminateM σ Expr) fun e' =>
      e'.All (Quantity.Metric K) ∧ e'.Unpacked ∧ V e' := by
  refine yields_get fun el hel => ?_
  rw [hel.known]
  refine yields_liftExcept (fun d hd => tracks_canonical_simplify hV he hu hx hd) fun f hf => ?_
  exact hV.onSimplify hf (hV.replaces (.canonical (Triples.holdAt_empty ρ) hu.fits) hx)

theorem Quantity.RatioFree.parallelAt {q : Quantity} (h : q.RatioFree) : q.ParallelAt ρ := by
  cases q with
  | area a b c => trivial
  | pythagoras a b c => trivial
  | ratio a b c d => exact absurd h id

theorem Expr.parallelAt_of_ratioFree (h : e.All Quantity.RatioFree) :
    e.All (Quantity.ParallelAt ρ) :=
  h.mono fun _ hq => hq.parallelAt

/-- Replacing the quantities that mention the point by others of the same value. -/
theorem yields_replace_metric {y : Point} {how : Construction} (hy : how.locate ρ = some (ρ y))
    (hu : how.Unpacked) (hon : how.On K) (hfree : how.RatioFree)
    (he : e.All (Quantity.Metric fun p => p = y ∨ K p)) (heu : e.Unpacked) :
    Yields (Quiet ρ) E (replace oracle y how e) fun e' =>
      e'.All (Quantity.Metric K) ∧ e'.Unpacked ∧ Replaces ρ (e.expose y) e' := by
  have hreplace : Yields (Quiet ρ) E (replace oracle y how e) (·.All (Quantity.Metric K)) := by
    refine yields_replace
      (fun q hq _ => yields_quantity_metric hy (Construction.over_metric hon hfree) hq) ?_ he
    exact fun q hq hmem => ⟨Quantity.on_of_mentions_eq_false hq.1 hmem, hq.2⟩
  refine ((hreplace.and (yields_replace_unpacked oracle hu heu)).and_computes
    (computes_replace oracle e hu hy) fun el hel => hel.trueAt).mono ?_
  rintro e' ⟨⟨he', heu'⟩, hreplaces⟩
  have hpar : e.All (Quantity.ParallelAt ρ) :=
    Expr.parallelAt_of_ratioFree (Expr.all_metric.mp he).2
  exact ⟨he', heu', hreplaces (hpar.mono fun _ hq _ => hq)⟩

/-- **Elimination.** The expression keeps what is tracked, and nothing is asked. -/
theorem yields_eliminate {y : Point} {how : Construction} (hhow : fig.construction? y = some how)
    (hy : how.locate ρ = some (ρ y)) (hu : how.Unpacked) (hon : how.On K) (hfree : how.RatioFree)
    (hV : Tracks ρ E V) (he : e.All (Quantity.Metric fun p => p = y ∨ K p)) (heu : e.Unpacked)
    (hx : V e) :
    Yields (Quiet ρ) E (eliminate oracle fig e y) fun e' =>
      e'.All (Quantity.Metric K) ∧ e'.Unpacked ∧ V e' := by
  unfold eliminate
  rw [hhow]
  refine (yields_replace_metric hy hu hon hfree he heu).bind ?_
  rintro e' ⟨he', heu', hreplaces⟩
  exact yields_reduce hV he' heu' (hV.replaces hreplaces (hV.replaces (.expose ρ y e) hx))

end Elimination

/-! ### The frame -/

namespace Frame

variable {fig : Figure}

/-- The areas that make up the formulas of the frame. -/
def Raw (fig : Figure) (q : Quantity) : Prop :=
  q = .area o u v ∨ ∃ p : Point, fig.Free p ∧ (q = .area o u p ∨ q = .area o v p)

/-- A variable of the frame: the representative of one of these areas. -/
def Variable (fig : Figure) (q : Quantity) : Prop :=
  ∃ q₀ odd, Raw fig q₀ ∧ q₀.canonical .empty = .signed q odd

theorem canonical_area {a b c : Point} (hab : a ≠ b) (hbc : b ≠ c) (hac : a ≠ c) :
    ∃ q odd, (Quantity.area a b c).canonical .empty = .signed q odd := by
  have hnone : ¬ (a = b ∨ b = c ∨ a = c ∨ (Triples.empty.has a b c) = true) := by
    simp [hab, hbc, hac, Triples.has, Triples.empty]
  simp only [Quantity.canonical, if_neg hnone]
  exact ⟨_, _, rfl⟩

/-- None of the areas vanishes by its points. -/
theorem Raw.canonical {q : Quantity} (h : Raw fig q) :
    ∃ q' odd, q.canonical .empty = .signed q' odd := by
  rcases h with rfl | ⟨p, hp, rfl | rfl⟩
  · exact canonical_area (by decide) (by decide) (by decide)
  · obtain ⟨ho, hu, -⟩ := ne_of_apart hp.2
    exact canonical_area (by decide) hu.symm ho.symm
  · obtain ⟨ho, -, hv⟩ := ne_of_apart hp.2
    exact canonical_area (by decide) hv.symm ho.symm

theorem all_variable_canonical {e : Expr} (h : e.All (Raw fig)) :
    (e.canonical .empty).All (Variable fig) := by
  refine Expr.all_canonical (fun q hq => ?_) (fun q hq hzero => ?_) h
  · obtain ⟨q', odd, hq'⟩ := hq.canonical
    rw [hq']
    cases odd <;> exact Expr.all_quantity.mpr ⟨q, _, hq, hq'⟩
  · obtain ⟨q', odd, hq'⟩ := hq.canonical
    rw [hq'] at hzero
    cases hzero

end Frame

section Attempts

variable {σ : Type} {ρ : Coordinates} {E : Fault → Prop} {V : Expr → Prop} {oracle : Oracle σ}
  {fig : Figure} {e : Expr} {x : ℚ} {p : Point} {ps : List Point}

/-- The numerator and the denominator, multiplied out, of an expression in the
variables of the frame with the property `V`. The denominator has terms. -/
def Arrives (fig : Figure) (V : Expr → Prop) (numerator denominator : Polynomial) : Prop :=
  ∃ framed single, framed.All (Frame.Variable fig) ∧ V framed ∧
    framed.singleFraction = .ok single ∧ single.numDen.1.expand = .ok numerator ∧
    single.numDen.2.expand = .ok denominator ∧ ¬ denominator.isZero

/-- Both are polynomials in the variables of the frame. -/
theorem Arrives.allPowers {numerator denominator : Polynomial}
    (h : Arrives fig V numerator denominator) :
    (numerator.AllPowers fun y => Frame.Variable fig y.1 ∧ 0 < y.2) ∧
      denominator.AllPowers fun y => Frame.Variable fig y.1 ∧ 0 < y.2 := by
  obtain ⟨framed, single, hall, -, hsingle, hnumerator, hdenominator, -⟩ := h
  obtain ⟨habove, hbelow⟩ := Expr.plain_singleFraction hsingle hall
  obtain ⟨n, hn, hnpowers⟩ := Expr.expand_of_plain habove
  obtain ⟨d, hd, hdpowers⟩ := Expr.expand_of_plain hbelow
  obtain rfl := Except.ok.inj (hn.symm.trans hnumerator)
  obtain rfl := Except.ok.inj (hd.symm.trans hdenominator)
  exact ⟨hnpowers, hdpowers⟩

/-- **The frame.** The quantities are replaced by areas of the frame, with the same
values. -/
theorem yields_toFrame_metric (hs : Frame.Square ρ) (he : e.All (Quantity.Metric fig.Free)) :
    Yields (Quiet ρ) E (toFrame oracle fig e) fun framed =>
      framed.All (Frame.Raw fig) ∧ framed.Unpacked ∧ Replaces ρ e.unfold framed := by
  obtain ⟨hon, hfree⟩ := Expr.all_metric.mp he
  have hpoints : ∀ p ∈ e.points, fig.Free p := Expr.all_on.mp hon
  have hframe : Yields (Quiet ρ) E (toFrame oracle fig e) (·.All (Frame.Raw fig)) :=
    (yields_toFrame (fun p hp => (hpoints p hp).1)
      fun _ _ _ _ hratio => absurd (hfree _ hratio) id).mono
        fun _ h => h.mono fun _ hq => hq.mono hpoints
  refine ((hframe.and (yields_toFrame_unpacked oracle fig e)).and_computes
    (computes_toFrame oracle fig hs e) fun el hel => hel.trueAt).mono ?_
  rintro framed ⟨⟨hraw, hunpacked⟩, hreplaces⟩
  exact ⟨hraw, hunpacked, hreplaces (hfree.mono fun _ hq => hq.parallelAt.alignedAt)⟩

/-- **The quotient.** -/
theorem yields_quotient (limits : Limits) (hs : Frame.Square ρ) (hV : Tracks ρ E V)
    (he : e.All (Quantity.Metric fig.Free)) (hx : V e) :
    Yields (Quiet ρ) E (quotient limits oracle fig e) fun nd => Arrives fig V nd.1 nd.2 := by
  refine (yields_toFrame_metric hs he).bind ?_
  rintro framed ⟨hraw, hunpacked, hreplaces⟩
  have hvariables := Frame.all_variable_canonical hraw
  have hframed : V (framed.canonical .empty) :=
    hV.replaces (.canonical (Triples.holdAt_empty ρ) hunpacked.fits)
      (hV.replaces hreplaces (hV.replaces (.unfold ρ e) hx))
  refine (yields_checkSize (fun _ => hV.onSize trivial) _).bind fun _ _ => ?_
  refine (yields_liftExcept (fun single hsingle => hsingle) fun f hf => hV.onSingle hf hframed).bind
    fun single hsingle => ?_
  obtain ⟨habove, hbelow⟩ := Expr.plain_singleFraction hsingle hvariables
  obtain ⟨numerator, hnumerator, -⟩ := Expr.expand_of_plain habove
  obtain ⟨denominator, hdenominator, -⟩ := Expr.expand_of_plain hbelow
  simp only [hnumerator, hdenominator]
  refine (yields_pure (P := (· = numerator)) rfl).bind ?_
  rintro _ rfl
  refine (yields_pure (P := (· = denominator)) rfl).bind ?_
  rintro _ rfl
  split_ifs with hzero
  · exact yields_throw (hV.onZero hsingle hdenominator hzero hframed)
  · exact yields_pure ⟨_, single, hvariables, hframed, hsingle, hnumerator, hdenominator, hzero⟩

/-- The invariant of a run, while the points `ps` are still to be eliminated. -/
structure Follows (fig : Figure) (V : Expr → Prop) (ps : List Point) (e : Expr) : Prop where
  remains : Remains fig ps e
  apart : e.All (Quantity.On fun p => p.label ∉ frameLabels)
  ratioFree : e.All Quantity.RatioFree
  unpacked : e.Unpacked
  tracked : V e

/-- The quantities of the expression, with the point that is eliminated next. -/
theorem Follows.metric (h : Follows fig V (p :: ps) e) :
    e.All (Quantity.Metric fun d => d = p ∨ fig.Pending ps d ∧ d.label ∉ frameLabels) := by
  refine fun q hq => ⟨fun d hd => ?_, h.ratioFree q hq⟩
  by_cases heq : d = p
  · exact .inl heq
  · exact .inr ⟨fun c hc => (List.mem_cons.mp (h.remains.2 q hq d hd c hc)).resolve_left heq,
      h.apart q hq d hd⟩

/-- The construction of the point that is eliminated next. -/
theorem Follows.construction (ho : Figure.Ordered fig.placed) (ha : fig.Apart)
    (h : Follows fig V (p :: ps) e) : ∃ how, fig.construction? p = some how ∧
      how.On fun d => fig.Pending ps d ∧ d.label ∉ frameLabels := by
  obtain ⟨how, hhow, hpending⟩ := h.remains.1.1
  refine ⟨how, hhow, fun d hd => ?_⟩
  obtain ⟨z, hz, rfl⟩ := Figure.on_construction ho (Figure.mem_of_construction? hhow) d hd
  exact ⟨hpending _ hd, ha z hz⟩

/-- What is left when the point is gone. -/
theorem Follows.next (h : Follows fig V (p :: ps) e) {e' : Expr}
    (he' : e'.All (Quantity.Metric fun d => fig.Pending ps d ∧ d.label ∉ frameLabels))
    (hu : e'.Unpacked) (hV : V e') : Follows fig V ps e' := by
  obtain ⟨hon, hratio⟩ := Expr.all_metric.mp he'
  exact ⟨⟨h.remains.1.2, hon.mono fun _ hq d hd => (hq d hd).1⟩, hon.mono fun _ hq d hd => (hq d hd).2,
    hratio, hu, hV⟩

theorem Follows.eliminate {free : Coordinates} (ho : Figure.Ordered fig.placed) (ha : fig.Apart)
    (hu : fig.Unpacked) (hρ : fig.locate free = some ρ)
    (hfree : ∀ p c, fig.construction? p = some c → c.RatioFree) (hV : Tracks ρ E V)
    (h : Follows fig V (p :: ps) e) :
    Yields (Quiet ρ) E (eliminate oracle fig e p) (Follows fig V ps) := by
  obtain ⟨how, hhow, hon⟩ := h.construction ho ha
  refine (yields_eliminate hhow (Figure.locate_construction ho hρ hhow) (hu.of_construction? hhow)
    hon (hfree p how hhow) hV h.metric h.unpacked h.tracked).mono ?_
  rintro e' ⟨he', heu, htracked⟩
  exact h.next he' heu htracked

/-- The invariant at the start. -/
theorem Theorem.follows_start {thm : Theorem} (hthm : thm.Proper) (hfree : thm.RatioFree)
    (hV : Tracks ρ E V) (hx : V thm.statement.zeroExpr) {start : Expr}
    (h : (thm.statement.zeroExpr.canonical .empty).simplify = .ok start) :
    Follows thm.figure V (thm.figure.constructed.map Prod.fst) start := by
  have hmetric : thm.statement.zeroExpr.All (Quantity.Metric fun p => p.label ∉ frameLabels) := by
    refine Expr.all_metric.mpr ⟨hthm.within.mono fun q hq p hp => ?_, hfree.statement⟩
    obtain ⟨z, hz, rfl⟩ := Figure.has_iff.mp (hq p hp)
    exact hthm.apart z hz
  obtain ⟨hall, hu, htracked⟩ := tracks_canonical_simplify hV hmetric hthm.unpacked hx h
  obtain ⟨hapart, hratio⟩ := Expr.all_metric.mp hall
  exact ⟨⟨Figure.descending_constructed hthm.ordered,
    fun _ _ p _ => thm.figure.pending_constructed p⟩, hapart, hratio, hu, htracked⟩

theorem Follows.skip (h : Follows fig V (p :: ps) e) (hp : e.mentions p = false) :
    Follows fig V ps e :=
  ⟨h.remains.skip hp, h.apart, h.ratioFree, h.unpacked, h.tracked⟩

/-- The quantities that are left at the end. -/
theorem Follows.metric_free (h : Follows fig V [] e) : e.All (Quantity.Metric fig.Free) := by
  refine fun q hq => ⟨fun p hp => ⟨?_, h.apart q hq p hp⟩, h.ratioFree q hq⟩
  exact Option.eq_none_iff_forall_ne_some.mpr fun c hc => nomatch h.remains.2 q hq p hp c hc

/-- **Attempts without ratios.** Where the points can be located, nothing is asked,
and what is tracked passes from the statement to the fraction at the end. -/
theorem Theorem.yields_attempt_of_tracks {thm : Theorem} {free : Coordinates} (hthm : thm.Proper)
    (hfree : thm.RatioFree) (hsquare : Frame.Square free) (hρ : thm.figure.locate free = some ρ)
    (hV : Tracks ρ E V) (hx : V thm.statement.zeroExpr) (limits : Limits) :
    Yields (Quiet ρ) E (thm.attempt limits oracle) fun a =>
      Arrives thm.figure V a.numerator a.denominator := by
  have hstart : Yields (Quiet ρ) E
      (liftExcept (thm.statement.zeroExpr.canonical .empty).simplify : EliminateM σ Expr)
      (Follows thm.figure V (thm.figure.constructed.map Prod.fst)) := by
    refine yields_liftExcept (fun start hstart => follows_start hthm hfree hV hx hstart) fun f hf => ?_
    exact hV.onSimplify hf
      (hV.replaces (.canonical (Triples.holdAt_empty ρ) hthm.unpacked.fits) hx)
  refine hstart.bind fun first hfirst => ?_
  refine (yields_checkSize (fun _ => hV.onSize trivial) first).bind fun _ _ => ?_
  refine (yields_eliminateAll (fun _ _ _ h hp => h.skip hp)
    (fun _ _ _ h => h.eliminate hthm.ordered hthm.apart hthm.constructions hρ hfree.constructions hV)
    (fun _ => hV.onSize trivial) (hV.onSize trivial) _ first [] hfirst (Nat.zero_le _)).bind ?_
  rintro r ⟨hend, -, -⟩
  refine (yields_reduce hV hend.metric_free hend.unpacked hend.tracked).bind ?_
  rintro e ⟨he, -, htracked⟩
  exact (yields_quotient limits (Figure.square_locate hthm.apart hρ hsquare) hV he htracked).bind
    fun nd hnd => yields_pure hnd

/-- What an attempt arrives at: a fraction of the value `x`, whose numerator is a
polynomial in the variables of the frame. -/
def Settles (fig : Figure) (ρ : Coordinates) (x : ℚ) (numerator denominator : Polynomial) : Prop :=
  (∃ n d, numerator.value (reading ρ) = some n ∧ denominator.value (reading ρ) = some d ∧ d ≠ 0 ∧
    x = n / d) ∧ numerator.AllPowers fun y => Frame.Variable fig y.1 ∧ 0 < y.2

theorem Arrives.settles {numerator denominator : Polynomial}
    (h : Arrives fig (fun e => e.value (reading ρ) = some x) numerator denominator) :
    Settles fig ρ x numerator denominator := by
  refine ⟨?_, h.allPowers.1⟩
  obtain ⟨framed, single, -, hvalue, hsingle, hnumerator, hdenominator, -⟩ := h
  obtain ⟨e', he', hvalue⟩ := Expr.singleFraction_of_value hvalue
  obtain rfl := Except.ok.inj (he'.symm.trans hsingle)
  obtain ⟨n, d, hn, hd, h0, hnd⟩ := Expr.value_numDen hvalue
  exact ⟨n, d, Expr.value_of_expand hnumerator hn, Expr.value_of_expand hdenominator hd, h0, hnd⟩

/-- **Attempts at a value.** Where the points can be located and the statement has
the value `x`, nothing is asked and the attempt ends with a fraction of this
value, unless a limit on the size is hit. -/
theorem Theorem.yields_attempt {thm : Theorem} {free : Coordinates} (hthm : thm.Proper)
    (hfree : thm.RatioFree) (hsquare : Frame.Square free) (hρ : thm.figure.locate free = some ρ)
    (hx : thm.statement.zeroExpr.value (reading ρ) = some x) (limits : Limits) :
    Yields (Quiet ρ) Fault.OnSize (thm.attempt limits oracle) fun a =>
      Settles thm.figure ρ x a.numerator a.denominator :=
  (yields_attempt_of_tracks hthm hfree hsquare hρ (tracks_value ρ x) hx limits).mono
    fun _ h => h.settles

end Attempts
end AreaMethod
