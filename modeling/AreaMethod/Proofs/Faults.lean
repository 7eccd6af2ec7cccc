/-
# The faults of proof attempts

The steps of a problem build an ordered figure, and on an ordered figure a proof
attempt never breaks the contract between its parts: each point that is to be
eliminated has a construction, no constructed point is left when the frame is
reached, and what is multiplied out has no fractions inside. So an attempt fails
only because a question stays undecided, a denominator vanishes or a limit is
hit (`Theorem.returns_attempt`). As the closure of an ordered figure is
ordered, this passes on to the attempts of the oracle, at any depth
(`Prover.reliable_decideWithin`).

Key definitions: `Fault.Expected`, `Returns`.
Key theorems: `Remains.eliminate`, `Theorem.returns_attempt`,
`Prover.reliable_decideWithin`, `Problem.prove_of_build`.
-/
import Mathlib
import AreaMethod.Proofs.Fractions
import AreaMethod.Proofs.PointRemoval

namespace AreaMethod

/-- A proof attempt on an ordered figure may fail with this fault. -/
def Fault.Expected : Fault → Prop
  | undecided _ => True
  | divisionByZero _ => True
  | tooDeep .. => True
  | tooLarge .. => True
  | tooManyEliminations _ => True
  | _ => False

/-- An oracle that fails with expected faults only. -/
def Oracle.Reliable {σ : Type} (oracle : Oracle σ) : Prop :=
  ∀ s m f m', oracle s m = (.error f, m') → f.Expected

/-- The computation returns a value with the property `P`, or fails with an
expected fault. -/
abbrev Returns {σ α : Type} (x : EliminateM σ α) (P : α → Prop) : Prop :=
  Yields (fun _ => True) Fault.Expected x P

open Eliminator

/-! ### Elimination -/

section Elimination

variable {σ : Type} {oracle : Oracle σ} {fig : Figure} {e : Expr}

theorem Oracle.Reliable.failsWithin (ho : oracle.Reliable) : oracle.FailsWithin Fault.Expected :=
  ⟨ho, fun _ => trivial, fun _ => trivial⟩

theorem Remains.eliminate (ho : oracle.Reliable) {p : Point} {ps : List Point}
    (h : Remains fig (p :: ps) e) : Returns (eliminate oracle fig e p) (Remains fig ps) := by
  obtain ⟨⟨⟨how, hhow, hc⟩, hps⟩, he⟩ := h
  refine (yieldsOn_eliminate ho.failsWithin hhow hc (he.mono fun q hq r hr => ?_)).mono
    fun e' he' => ⟨hps, he'⟩
  by_cases heq : r = p
  · exact .inl heq
  · exact .inr fun c hc => (List.mem_cons.mp (hq r hr c hc)).resolve_left heq

/-- **No constructed point is left** after one pass. -/
theorem returns_eliminateAll (ho : oracle.Reliable) (hfig : Figure.Ordered fig.placed)
    (limits : Limits) (e : Expr) :
    Returns (eliminateAll limits oracle fig (fig.constructed.map Prod.fst) e []) fun r =>
      r.1.All (Quantity.On fun p => fig.construction? p = none) ∧
      (r.2.map EliminationStep.point).Sublist (fig.constructed.map Prod.fst) ∧
      r.2.length ≤ limits.eliminations := by
  have hstart : Remains fig (fig.constructed.map Prod.fst) e :=
    ⟨Figure.descending_constructed hfig, fun _ _ p _ => fig.pending_constructed p⟩
  refine (yields_eliminateAll (fun _ _ _ h => h.skip) (fun _ _ _ h => h.eliminate ho)
    (fun _ => trivial) trivial _ e [] hstart (Nat.zero_le _)).mono ?_
  rintro r ⟨hend, ⟨rest, hrest, hsub⟩, hlen⟩
  refine ⟨hend.2.mono fun q hq p hp => ?_, by rwa [hrest, List.nil_append], hlen⟩
  exact Option.eq_none_iff_forall_ne_some.mpr fun c hc => nomatch hq p hp c hc

end Elimination

/-! ### Attempts -/

section Attempts

variable {σ : Type} {oracle : Oracle σ} {fig : Figure}

/-- **The quotient.** Once constructed points are gone, an expression becomes a
fraction of polynomials. -/
theorem returns_quotient (ho : oracle.Reliable) (limits : Limits) {e : Expr}
    (he : e.All (Quantity.On fun p => fig.construction? p = none)) :
    Returns (quotient limits oracle fig e) fun _ => True := by
  have hall : ∀ e : Expr, e.All fun _ => True := fun e q _ => trivial
  have hframe : Returns (toFrame oracle fig e) fun _ => True :=
    (yields_toFrame (Expr.all_on.mp he) fun a _ c d _ => ho.failsWithin.collinear a c d).mono
      fun _ _ => trivial
  have hexpand : ∀ {e : Expr}, e.Plain (fun _ => True) →
      Returns (liftExcept e.expand : EliminateM σ Polynomial) fun _ => True := by
    intro e hplain
    obtain ⟨p, hp, -⟩ := Expr.expand_of_plain hplain
    refine yields_liftExcept (fun _ _ => trivial) fun f hf => ?_
    rw [hp] at hf
    cases hf
  refine hframe.bind fun framed _ => ?_
  refine (yields_checkSize (fun _ => trivial) _).bind fun _ _ => ?_
  refine (yields_liftExcept (fun single hsingle => hsingle) fun f hf => ?_).bind
    fun single hsingle => ?_
  · obtain ⟨d, rfl⟩ := Expr.divisionByZero_of_singleFraction hf
    trivial
  · obtain ⟨habove, hbelow⟩ := Expr.plain_singleFraction hsingle (hall _)
    refine (hexpand habove).bind fun numerator _ => (hexpand hbelow).bind fun denominator _ => ?_
    split_ifs
    · exact yields_throw trivial
    · exact yields_pure trivial

/-- **Attempts.** On an ordered figure, with a reliable oracle, an attempt
finishes or fails with an expected fault. -/
theorem Theorem.returns_attempt {thm : Theorem} (ho : oracle.Reliable)
    (hfig : Figure.Ordered thm.figure.placed) (limits : Limits) :
    Returns (thm.attempt limits oracle) fun a =>
      (a.steps.map EliminationStep.point).Sublist (thm.figure.constructed.map Prod.fst) ∧
      a.steps.length ≤ limits.eliminations := by
  refine (yields_liftExcept (P := fun _ => True) (fun _ _ => trivial) fun f hf => ?_).bind
    fun start _ => ?_
  · obtain ⟨d, rfl⟩ := Expr.divisionByZero_of_simplify hf
    trivial
  · refine (yields_checkSize (fun _ => trivial) start).bind fun _ _ => ?_
    refine (returns_eliminateAll ho hfig limits start).bind fun r hr => ?_
    refine (yieldsOn_reduce (fun _ => trivial) hr.1).bind fun e he => ?_
    exact (returns_quotient ho limits he).bind fun _ _ => yields_pure hr.2

end Attempts

/-- **The oracle, at any depth.** Attempts on closures are attempts on ordered
figures, so their faults are expected, and only faults of theirs are passed
on. -/
theorem Prover.reliable_decideWithin (limits : Limits) : ∀ (remaining : ℕ) {fig : Figure},
    Figure.Ordered fig.placed → (decideWithin limits remaining fig).Reliable := by
  intro remaining
  induction remaining with
  | zero =>
    intro fig _ s m f m' h
    cases hm : m.decided.lookup s.key with
    | some d => rw [decideWithin_known 0 hm] at h; cases h
    | none =>
      rw [decideWithin_zero hm] at h
      cases h
      trivial
  | succ deeper ih =>
    intro fig hfig s m f m' h
    cases hm : m.decided.lookup s.key with
    | some d => rw [decideWithin_known (deeper + 1) hm] at h; cases h
    | none =>
      rw [decideWithin_succ deeper hm] at h
      have hclosed := Figure.ordered_closure hfig s.points
      have hrun : Returns ((question fig s).attempt limits
          (decideWithin limits deeper (fig.closure s.points))) _ :=
        Theorem.returns_attempt (ih hclosed) hclosed limits
      exact ((hrun _ trivial).of_error (Prod.ext (settle_eq_error h) rfl)).2

theorem Prover.reliable_oracle (limits : Limits) {fig : Figure} (hfig : Figure.Ordered fig.placed) :
    (oracle limits fig).Reliable :=
  fun s m => reliable_decideWithin limits (limits.oracleDepth - m.depth) hfig s m

/-- **The contract of a proof.** A theorem built from a problem is proved or
disproved, or the attempt fails because a question stays undecided, a
denominator vanishes or a limit is hit, and the attempts of its oracle fail in
no other way, however deep they are nested. The points that were eliminated are
different constructed points, the most recent one first, and not more than the
limit allows. When all eliminations are made, no constructed point is left. -/
theorem Problem.prove_of_build {p : Problem} {thm : Theorem} (h : p.build = .ok thm)
    (settings : Settings) :
    (∀ f, thm.prove settings = .error f → f.Expected) ∧
    (∀ depth, (Prover.decideWithin settings.limits depth thm.figure).Reliable) ∧
    (∀ r, thm.prove settings = .ok r →
      (r.steps.map EliminationStep.point).Nodup ∧
      (r.steps.map EliminationStep.point).Sublist (thm.figure.constructed.map Prod.fst) ∧
      r.steps.length ≤ settings.limits.eliminations) ∧
    (∀ start e steps el,
      (thm.statement.zeroExpr.canonical .empty).simplify = .ok start →
      eliminateAll settings.limits (Prover.oracle settings.limits thm.figure) thm.figure
        (thm.figure.constructed.map Prod.fst) start [] (Eliminator.start .blank) =
          (.ok (e, steps), el) →
      ∀ p c, thm.figure.construction? p = some c → e.mentions p = false) := by
  have hfig := (Problem.proper_build h).ordered
  have ho := Prover.reliable_oracle settings.limits hfig
  have hrun := Theorem.returns_attempt ho hfig settings.limits (Eliminator.start .blank) trivial
  refine ⟨fun f hf => ?_, fun depth => Prover.reliable_decideWithin settings.limits depth hfig,
    fun r hr => ?_, fun start e steps el _ hall q c hc => ?_⟩
  · obtain ⟨el, hattempt⟩ := Theorem.prove_eq_error.mp hf
    exact (hrun.of_error hattempt).2
  · obtain ⟨a, el, hattempt, rfl⟩ := Theorem.prove_eq_ok.mp hr
    obtain ⟨-, hsub, hlen⟩ := hrun.of_ok hattempt
    exact ⟨hsub.nodup (Figure.nodup_constructed hfig), hsub, hlen⟩
  · obtain ⟨-, hfree, -⟩ := (returns_eliminateAll ho hfig settings.limits start _ trivial).of_ok hall
    refine Expr.mentions_eq_false.mpr (hfree.mono fun _ hq' r hr heq => ?_)
    have hnone := hq' r hr
    rw [heq, hc] at hnone
    cases hnone

/-- The contract at the co-side theorem. -/
theorem Problem.prove_coSide : CoSide.problem.build = .ok CoSide.built ∧
    (∀ f, CoSide.built.prove .standard = .error f → f.Expected) ∧
    (∀ r, CoSide.built.prove .standard = .ok r →
      (r.steps.map EliminationStep.point).Sublist [Letters.y]) := by
  obtain ⟨hfault, -, hreport, -⟩ := Problem.prove_of_build CoSide.build_problem .standard
  exact ⟨CoSide.build_problem, hfault, fun r hr => (hreport r hr).2.1⟩

end AreaMethod
