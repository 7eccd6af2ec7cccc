/-
# Problems

A problem is a theorem as it is stored: a name, the steps that build the
figure, and the goal. A file holds a list of problems.

Key definitions: `Problem`, `Problem.ofJson?`, `Problem.read`, `Problem.build`,
`Problem.readAll`, `Problem.buildAll`.
-/
import AreaMethod.Json.Reader
import AreaMethod.Problem.Goal
import AreaMethod.Proof.Attempt

namespace AreaMethod

/-- A theorem as it is stored. -/
structure Problem where
  name : String
  steps : List Step
  goal : Goal
deriving DecidableEq

namespace Problem

/-! ### JSON -/

/-- How many arrays and objects of a text may be nested in each other. -/
def nestingLimit : Nat := 127

/-- Reads a step that stands inside of `depth` arrays and objects. -/
def stepAt? (depth : Nat) (j : Json) : Option Step :=
  if j.storable (nestingLimit - depth) then Step.ofJson? j else none

/-- Reads a goal that stands inside of `depth` arrays and objects. -/
def goalAt? (depth : Nat) (j : Json) : Option Goal :=
  if j.storable (nestingLimit - depth) then Goal.ofJson? j else none

/-- Reads a problem that stands inside of `depth` arrays and objects. -/
def ofJson? (depth : Nat) (j : Json) : Option Problem := do
  let [name, steps, goal] ← j.fields? ["name", "steps", "statement"] | none
  return ⟨← name.string?, ← (← steps.items?).mapM (stepAt? (depth + 2)), ← goalAt? (depth + 1) goal⟩

/-- The stored form of a problem. -/
def toJson (p : Problem) : Json :=
  .object [("name", .string p.name), ("steps", .array (p.steps.map Step.toJson)),
    ("statement", p.goal.toJson)]

/-- Reads the text of a problem. -/
def read (text : String) : Except Fault Problem :=
  match (Json.read? text).bind (ofJson? 0) with
  | some p => .ok p
  | none => .error .badJson

/-- Reads the text of a list of problems. -/
def readAll (text : String) : Except Fault (List Problem) :=
  match (Json.read? text).bind fun j => j.items?.bind (·.mapM (ofJson? 1)) with
  | some ps => .ok ps
  | none => .error .badJson

/-! ### Theorems -/

/-- Builds the figure of a problem and resolves the goal in it. -/
def build (p : Problem) : Except Fault Theorem := do
  let fig ← p.steps.foldlM (fun fig step => step.apply fig) Figure.empty
  return ⟨p.name, fig, ← p.goal.resolve fig⟩

/-- Builds every problem, up to the first that cannot be built. -/
def buildAll (ps : List Problem) : Except Fault (List Theorem) := ps.mapM build

end Problem
end AreaMethod
