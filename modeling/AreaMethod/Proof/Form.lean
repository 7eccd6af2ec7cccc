/-
# Stored forms of lemmas and reports

Key definitions: `Lemma.ofJson?`, `Report.toJson`.
-/
import AreaMethod.Decimal.Shortest
import AreaMethod.Json
import AreaMethod.Proof.Report

namespace AreaMethod

/-! ### Lemmas -/

/-- Reads a name, which stands alone or as the only member of an object, with
no value. -/
def Json.name? : Json → Option String
  | .string s => some s
  | .object [(s, .null)] => some s
  | _ => none

/-- The group with a name. -/
def LemmaGroup.ofName? : String → Option LemmaGroup
  | "Area" => some .area
  | "LinearPythagoras" => some .linearPythagoras
  | "MiddlePythagoras" => some .middlePythagoras
  | "Ratio" => some .ratio
  | _ => none

/-- The kind with a name. -/
def ConstructionKind.ofName? : String → Option ConstructionKind
  | "Intersection" => some .intersection
  | "Foot" => some .foot
  | "PRatio" => some .pratio
  | "TRatio" => some .tratio
  | _ => none

/-- Reads a lemma. -/
def Lemma.ofJson? (j : Json) : Option Lemma := do
  let [group, kind] ← j.fields? ["group", "kind"] | none
  return ⟨← LemmaGroup.ofName? (← group.name?), ← ConstructionKind.ofName? (← kind.name?)⟩

/-! ### Reports -/

/-- The stored form of a verdict. -/
def Verdict.toJson : Verdict → Json
  | proved => .string "Proved"
  | disproved => .string "Disproved"
  | inconclusive => .string "Inconclusive"

/-- The stored form of an elimination step. -/
def EliminationStep.toJson (s : EliminationStep) : Json :=
  .object [("point", .string s.point.label), ("size", .nat s.size)]

/-- The stored form of counts. -/
def LemmaUsage.toJson (u : LemmaUsage) : Json :=
  .object [("counts", .array (u.counts.toList.map .nat))]

/-- The stored form of a double; one that is not finite has none. -/
def Json.ofFloat (x : Float) : Json :=
  match Decimal.ofFloat? x with
  | some text => .number text
  | none => .null

/-- The stored form of a report. -/
def Report.toJson (r : Report) : Json :=
  .object [
    ("name", .string r.name),
    ("statement", .string r.statement),
    ("verdict", r.verdict.toJson),
    ("reason", (r.reason.map Json.string).getD .null),
    ("steps", .array (r.steps.map EliminationStep.toJson)),
    ("lemma_usage", r.usage.toJson),
    ("ndg_conditions", .array (r.conditions.map .string)),
    ("numerator_terms", .nat r.numeratorTerms),
    ("numeric_value", (r.numericValue.map Json.ofFloat).getD .null)]

end AreaMethod
