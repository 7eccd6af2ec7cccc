/-
# Reports

The report of a proof attempt: what was found, which points were eliminated,
which lemmas were used and what must not vanish for the proof to be valid. An
attempt can be checked against the value of the statement at random
coordinates.

Key definitions: `Settings`, `Verdict`, `Report`, `Theorem.proveWith`,
`Theorem.prove`.
-/
import AreaMethod.Placement
import AreaMethod.Proof.Oracle

namespace AreaMethod

/-- The limits of a proof attempt, and whether to evaluate the statement at
random coordinates. -/
structure Settings where
  limits : Limits
  /-- Evaluate the statement at random coordinates. -/
  numericCheck : Bool
  seed : UInt64

/-- The settings that apply unless others are asked for. -/
def Settings.standard : Settings := ⟨.standard, true, 2024⟩

/-- The values below which a statement counts as true at random
coordinates. -/
def Settings.tolerance : Float := 1e-6

/-- The outcome of a proof attempt. -/
inductive Verdict where
  | proved
  | disproved
  | inconclusive
deriving DecidableEq

/-- The wording of a verdict. -/
def Verdict.text : Verdict → String
  | proved => "proved"
  | disproved => "disproved"
  | inconclusive => "inconclusive"

/-- The report of a proof attempt. -/
structure Report where
  name : String
  statement : String
  verdict : Verdict
  /-- Why the attempt is inconclusive. -/
  reason : Option String
  steps : List EliminationStep
  usage : LemmaUsage
  /-- The texts of the expressions that must not vanish. -/
  conditions : List String
  /-- The number of terms of the numerator. -/
  numeratorTerms : Nat
  /-- The value of the statement at random coordinates. -/
  numericValue : Option Float

namespace Report

/-- The report of an attempt without a result. -/
def inconclusive (thm : Theorem) (reason : String) : Report :=
  ⟨thm.name, thm.statement.text, .inconclusive, some reason, [], .none, [], 0, none⟩

/-- The lines of a report, for reading. -/
def text (r : Report) : String :=
  let lines :=
    [s!"{r.name}: {r.verdict.text}", s!"  statement: {r.statement}"] ++
    (r.reason.toList.map fun reason => s!"  reason: {reason}") ++
    (r.steps.map fun step => s!"  eliminated {step.point.label} (size {step.size})") ++
    (r.conditions.map fun e => s!"  ndg: {e} != 0") ++
    [s!"  lemmas used: {r.usage.total}"]
  "\n".intercalate lines

end Report

namespace Theorem

/-- The value of the statement at random coordinates, if there is one. -/
def valueAtRandom (thm : Theorem) (seed : UInt64) : Option Float :=
  match Placement.random thm.figure seed with
  | .error _ => none
  | .ok pl =>
    match thm.statement.zeroExpr.valueAt pl with
    | .error _ => none
    | .ok value => some value

/-- The report of a finished attempt. -/
def report (thm : Theorem) (settings : Settings) (a : Attempt) (usage : LemmaUsage)
    (conditions : List Expr) : Report where
  name := thm.name
  statement := thm.statement.text
  verdict := if a.holds then .proved else .disproved
  reason := none
  steps := a.steps
  usage := usage
  conditions := conditions.map Expr.text
  numeratorTerms := a.numerator.size
  numericValue := if settings.numericCheck then thm.valueAtRandom settings.seed else none

/-- Tries to prove a theorem with a given oracle. The record of the attempt is
returned beside the report or the fault. -/
def proveWith {σ : Type} (thm : Theorem) (settings : Settings) (oracle : Oracle σ) (memory : σ) :
    Except Fault Report × Eliminator σ :=
  let (outcome, el) := thm.attempt settings.limits oracle (Eliminator.start memory)
  match outcome with
  | .ok a => (.ok (thm.report settings a el.usage el.conditions), el)
  | .error f => (.error f, el)

/-- Tries to prove a theorem, deciding questions by nested attempts. The lemmas
used there are counted too. -/
def prove (thm : Theorem) (settings : Settings) : Except Fault Report :=
  let (outcome, el) := thm.proveWith settings (Prover.oracle settings.limits thm.figure) .blank
  match outcome with
  | .ok r => .ok { r with usage := r.usage.merge el.oracle.usage }
  | .error f => .error f

end Theorem
end AreaMethod
