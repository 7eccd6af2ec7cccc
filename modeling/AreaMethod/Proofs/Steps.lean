/-
# Taking steps

A figure grows one point a step. A step that refers to an unknown label, that
has a ratio which cannot be read, or whose own label is taken or reserved fails
with the fault that says so, and leaves the figure as it is; any other step
adds its point (`Step.take_cases`).

Whatever steps are taken, with the failing ones skipped, the labels stay
different and apart from those of the reference frame, every point is built
from points before it, and no point ever changes.

Key definitions: `Step.Refused`, `Figure.takeAll`, `Figure.Coherent`.
Key theorems: `Step.take_cases`, `Figure.coherent_takeAll`.
-/
import Mathlib
import AreaMethod.Proofs.Figures

namespace AreaMethod

/-! ### One step -/

namespace Step

variable {step : Step} {fig fig' : Figure} {f : Fault}

/-- The labels of the points that a step refers to. -/
def labels : Step → List String
  | free _ => []
  | intersection _ u v p q => [u, v, p, q]
  | foot _ p u v => [p, u, v]
  | pratio _ w u v _ => [w, u, v]
  | tratio _ u v _ => [u, v]
  | midpoint _ a b => [a, b]

/-- The text of the ratio of a step. -/
def ratio? : Step → Option String
  | pratio _ _ _ _ r => some r
  | tratio _ _ _ r => some r
  | _ => none

/-- What is wrong with a step, and the fault that names it. -/
inductive Refused (step : Step) (fig : Figure) : Fault → Prop
  | unknown {label : String} (hl : label ∈ step.labels) (h : fig.has ⟨label⟩ = false) :
    Refused step fig (.unknownPoint label)
  | unreadable {text : String} {e : ReadError} (ht : step.ratio? = some text)
      (h : fig.readExpr text = .error e) : Refused step fig (.unreadable e)
  | taken (h : fig.has step.point = true) : Refused step fig (.duplicatePoint step.point.label)
  | reserved (h : step.point.label ∈ frameLabels) :
    Refused step fig (.duplicatePoint step.point.label)

/-- The computation fails exactly where a label is unknown or the text of a ratio
cannot be read, and says so. -/
structure Checks {α : Type} (fig : Figure) (labels : List String) (ratio? : Option String)
    (x : Except Fault α) : Prop where
  passed : ∀ a, x = .ok a → (∀ label ∈ labels, fig.has ⟨label⟩ = true) ∧
    ∀ text, ratio? = some text → ∃ e, fig.readExpr text = .ok e
  failed : ∀ f, x = .error f →
    (∃ label ∈ labels, fig.has ⟨label⟩ = false ∧ f = .unknownPoint label) ∨
      ∃ text e, ratio? = some text ∧ fig.readExpr text = .error e ∧ f = .unreadable e

theorem checks_pure {α : Type} (a : α) : Checks fig [] none (pure a : Except Fault α) where
  passed _ _ := by simp
  failed _ h := by cases h

theorem checks_expression {α : Type} (text : String) (g : Expr → α) :
    Checks fig [] (some text) (do return g (← fig.expression text)) := by
  unfold Figure.expression
  cases hread : fig.readExpr text with
  | error e =>
    refine ⟨fun _ h => (by cases h), fun f h => ?_⟩
    exact .inr ⟨text, e, rfl, hread, (Except.error.inj h).symm⟩
  | ok e =>
    refine ⟨fun _ _ => ?_, fun _ h => by cases h⟩
    simpa using ⟨e, hread⟩

theorem checks_point {α : Type} (label : String) {k : Point → Except Fault α}
    {labels : List String} {ratio? : Option String} (hk : ∀ p, Checks fig labels ratio? (k p)) :
    Checks fig (label :: labels) ratio? (fig.point label >>= k) := by
  unfold Figure.point
  split_ifs with h
  · refine ⟨fun a ha => ?_, fun f hf => ?_⟩
    · obtain ⟨hlabels, hratio⟩ := (hk _).passed a ha
      exact ⟨List.forall_mem_cons.mpr ⟨h, hlabels⟩, hratio⟩
    · refine ((hk _).failed f hf).imp (fun hl => ?_) id
      obtain ⟨l, hl, hf⟩ := hl
      exact ⟨l, .tail _ hl, hf⟩
  · refine ⟨fun _ h => (by cases h), fun f hf => ?_⟩
    exact .inl ⟨label, .head _, Bool.eq_false_iff.mpr h, (Except.error.inj hf).symm⟩

theorem checks_construction (step : Step) (fig : Figure) :
    Checks fig step.labels step.ratio? (step.construction fig) := by
  cases step with
  | free label => exact checks_pure _
  | intersection label u v p q =>
    exact checks_point u fun _ => checks_point v fun _ => checks_point p fun _ =>
      checks_point q fun _ => checks_pure _
  | foot label p u v =>
    exact checks_point p fun _ => checks_point u fun _ => checks_point v fun _ => checks_pure _
  | pratio label w u v r =>
    exact checks_point w fun _ => checks_point u fun _ => checks_point v fun _ =>
      checks_expression r _
  | tratio label u v r =>
    exact checks_point u fun _ => checks_point v fun _ => checks_expression r _
  | midpoint label a b =>
    exact checks_point a fun _ => checks_point b fun _ => checks_pure _

/-- **What a step can do.** It adds its point, with its construction, if nothing is wrong
with it; otherwise it fails with the fault that says what is wrong, and the figure stays
as it is. -/
theorem take_cases (step : Step) (fig : Figure) :
    (∃ c, step.construction fig = .ok c ∧ (∀ f, ¬ step.Refused fig f) ∧
      step.take fig = (.ok step.point, ⟨⟨step.point, c⟩ :: fig.placed⟩)) ∨
    ∃ f, step.Refused fig f ∧ step.take fig = (.error f, fig) := by
  have hchecks := checks_construction step fig
  rw [run_take]
  cases hc : step.construction fig with
  | error f =>
    refine .inr ⟨f, ?_, rfl⟩
    rcases hchecks.failed f hc with ⟨label, hl, hunknown, rfl⟩ | ⟨text, e, ht, he, rfl⟩
    · exact .unknown hl hunknown
    · exact .unreadable ht he
  | ok c =>
    simp only [Figure.run_add]
    -- the label of the point itself is looked at last
    by_cases htaken : fig.has step.point = true ∨ step.point.label ∈ frameLabels
    · refine .inr ⟨.duplicatePoint step.point.label, htaken.elim .taken .reserved, if_pos ?_⟩
      simpa using htaken
    · refine .inl ⟨c, rfl, fun f hf => ?_, if_neg ?_⟩
      · obtain ⟨hlabels, hratio⟩ := hchecks.passed c hc
        cases hf with
        | unknown hl hunknown => rw [hlabels _ hl] at hunknown; cases hunknown
        | unreadable ht he =>
          obtain ⟨e, hread⟩ := hratio _ ht
          rw [hread] at he
          cases he
        | taken h => exact htaken (.inl h)
        | reserved h => exact htaken (.inr h)
      · simpa using htaken

end Step

/-! ### Steps one after the other -/

namespace Figure

/-- Takes steps one after the other. Those that fail are skipped. -/
def takeAll (fig : Figure) (steps : List Step) : Figure :=
  steps.foldl (fun fig step => (step.take fig).2) fig

theorem takeAll_append (fig : Figure) (steps later : List Step) :
    fig.takeAll (steps ++ later) = (fig.takeAll steps).takeAll later := List.foldl_append ..

theorem Built.take {fig : Figure} (h : fig.Built) (step : Step) : (step.take fig).2.Built := by
  rcases step.take_cases fig with ⟨c, -, -, htake⟩ | ⟨f, -, htake⟩
  · obtain ⟨steps, hsteps⟩ := h
    have happly : step.apply fig = .ok ⟨⟨step.point, c⟩ :: fig.placed⟩ := by
      rw [Step.apply, htake]
    rw [htake]
    refine ⟨steps ++ [step], ?_⟩
    rw [List.foldlM_append, hsteps]
    exact bind_eq_ok.mpr ⟨fig, rfl, bind_eq_ok.mpr ⟨_, happly, rfl⟩⟩
  · rwa [htake]

/-- The steps that do not fail build the figure alone. -/
theorem Built.takeAll {fig : Figure} (h : fig.Built) :
    ∀ steps : List Step, (fig.takeAll steps).Built
  | [] => h
  | step :: steps => (h.take step).takeAll steps

theorem built_empty : empty.Built := ⟨[], rfl⟩

theorem suffix_takeAll (fig : Figure) : ∀ steps : List Step,
    fig.placed <:+ (fig.takeAll steps).placed
  | [] => List.suffix_refl _
  | step :: steps => by
    have hstep : fig.placed <:+ (step.take fig).2.placed := by
      rcases step.take_cases fig with ⟨c, -, -, h⟩ | ⟨f, -, h⟩ <;> rw [h]
      exact List.suffix_cons _ _
    exact hstep.trans (suffix_takeAll _ steps)

/-- Every earlier stage of the figure is the figure after some of the steps. -/
theorem exists_prefix_of_suffix {older : List Placed} (steps : List Step)
    (h : older <:+ (empty.takeAll steps).placed) :
    ∃ before, before <+: steps ∧ empty.takeAll before = ⟨older⟩ := by
  -- from the end: the last step puts at most one point on top of an earlier stage
  induction steps using List.reverseRecOn with
  | nil => exact ⟨[], List.prefix_refl _, by rw [List.suffix_nil.mp h]; rfl⟩
  | append_singleton steps step ih =>
    have hearlier : older <:+ (empty.takeAll steps).placed →
        ∃ before, before <+: steps ++ [step] ∧ empty.takeAll before = ⟨older⟩ := fun h => by
      obtain ⟨before, hprefix, heq⟩ := ih h
      exact ⟨before, hprefix.trans (List.prefix_append _ _), heq⟩
    have hlast : empty.takeAll (steps ++ [step]) = (step.take (empty.takeAll steps)).2 :=
      takeAll_append ..
    rcases step.take_cases (empty.takeAll steps) with ⟨c, -, -, htake⟩ | ⟨f, -, htake⟩
    · rw [hlast, htake] at h
      rcases List.suffix_cons_iff.mp h with rfl | h
      · exact ⟨steps ++ [step], List.prefix_refl _, by rw [hlast, htake]⟩
      · exact hearlier h
    · rw [hlast, htake] at h
      exact hearlier h

/-- Points that are added later change no construction. -/
theorem construction?_of_suffix {fig fig' : Figure} (ho : Ordered fig'.placed)
    (h : fig.placed <:+ fig'.placed) {p : Point} (hp : p ∈ fig.points) :
    fig'.construction? p = fig.construction? p := by
  obtain ⟨newer, hsplit⟩ := h
  obtain ⟨z, hz, rfl⟩ := mem_points.mp hp
  have hold : Ordered fig.placed := (hsplit ▸ ho).of_append
  have hz' : z ∈ fig'.placed := hsplit ▸ List.mem_append_right newer hz
  exact (construction?_of_mem ho hz').trans (construction?_of_mem hold hz).symm

/-- The points have different labels, none of them reserved, and what a point is built
from was there before it and has kept its construction. -/
structure Coherent (fig : Figure) : Prop where
  distinct : (fig.points.map Point.label).Nodup
  apart : ∀ p ∈ fig.points, p.label ∉ ["iO", "iU", "iV"]
  dependencies : ∀ newer p c older, fig.placed = newer ++ ⟨p, some c⟩ :: older → ∀ d, c.Uses d →
    d ∈ points ⟨older⟩ ∧ fig.points.idxOf d < fig.points.idxOf p ∧
      fig.construction? d = construction? ⟨older⟩ d

theorem Built.coherent {fig : Figure} (h : fig.Built) : fig.Coherent := by
  obtain ⟨ho, hapart⟩ := h.ordered_apart
  refine ⟨?_, fun p hp => ?_, ?_⟩
  · refine (nodup_points ho).map fun p q heq => ?_
    cases p
    cases q
    exact congrArg Point.mk heq
  · obtain ⟨z, hz, rfl⟩ := mem_points.mp hp
    exact hapart z hz
  · intro newer p c older hsplit d hd
    have hmem : d ∈ c.dependencies := Construction.mem_dependencies.mpr hd
    obtain ⟨hold, hlt⟩ := older_of_mem_dependencies (hsplit ▸ ho) hmem
    rw [← hsplit] at hlt
    refine ⟨hold, hlt, construction?_of_suffix ho ?_ hold⟩
    exact ⟨newer ++ [⟨p, some c⟩], by rw [hsplit, List.append_assoc]; rfl⟩

/-- **Figures grow by whole steps.** After any steps from the empty figure the
figure is coherent, and what stood in it after earlier steps stands in it
unchanged. The next step either adds its point, and there is nothing wrong with
it, or fails for a reason and leaves the figure as it is. -/
theorem coherent_takeAll (steps later : List Step) (step : Step) :
    (empty.takeAll steps).Coherent ∧
    (∀ older, older <:+ (empty.takeAll steps).placed →
      ∃ before, before <+: steps ∧ empty.takeAll before = ⟨older⟩) ∧
    (empty.takeAll steps).placed <:+ (empty.takeAll (steps ++ later)).placed ∧
    (∀ p ∈ (empty.takeAll steps).points,
      (empty.takeAll (steps ++ later)).construction? p = (empty.takeAll steps).construction? p) ∧
    ((∃ c, step.construction (empty.takeAll steps) = .ok c ∧
        (∀ f, ¬ step.Refused (empty.takeAll steps) f) ∧
        step.take (empty.takeAll steps) =
          (.ok step.point, ⟨⟨step.point, c⟩ :: (empty.takeAll steps).placed⟩)) ∨
      ∃ f, step.Refused (empty.takeAll steps) f ∧
        step.take (empty.takeAll steps) = (.error f, empty.takeAll steps)) := by
  have hsuffix : (empty.takeAll steps).placed <:+ (empty.takeAll (steps ++ later)).placed := by
    rw [takeAll_append]
    exact suffix_takeAll _ later
  have hlater := (built_empty.takeAll (steps ++ later)).ordered_apart.1
  exact ⟨(built_empty.takeAll steps).coherent, fun older => exists_prefix_of_suffix steps, hsuffix,
    fun p => construction?_of_suffix hlater hsuffix, step.take_cases _⟩

end Figure
end AreaMethod
