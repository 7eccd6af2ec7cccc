/-
# Goals

The goal of a problem is a statement by labels and texts. It is stored as a
tagged record and resolved in the figure that the steps of the problem built.

Key definitions: `Goal`, `Goal.ofJson?`, `Goal.toJson`, `Goal.resolve`.
-/
import AreaMethod.Problem.Step

namespace AreaMethod

/-- A statement in which points are labels and expressions are texts. -/
inductive Goal where
  | collinear (a b c : String)
  | parallel (a b c d : String)
  | perpendicular (a b c d : String)
  | equalLength (a b c d : String)
  | equal (left right : String)
deriving DecidableEq

namespace Goal

/-! ### JSON -/

/-- Reads the record of a list of labels. -/
def labels? (fields : Json) : Option (List String) := do
  let [points] ← fields.fields? ["points"] | none
  (← points.items?).mapM Json.string?

/-- Reads the record of four labels. -/
def fourLabels? (fields : Json) (goal : String → String → String → String → Goal) :
    Option Goal := do
  let [a, b, c, d] ← labels? fields | none
  return goal a b c d

/-- Reads a goal. -/
def ofJson? (j : Json) : Option Goal := do
  let (kind, fields) ← j.tagged?
  match kind with
  | "collinear" => do
    let [a, b, c] ← labels? fields | none
    return collinear a b c
  | "parallel" => fourLabels? fields parallel
  | "perpendicular" => fourLabels? fields perpendicular
  | "equal_length" => fourLabels? fields equalLength
  | "equal" => do
    let [left, right] ← fields.strings? ["lhs", "rhs"] | none
    return equal left right
  | _ => none

/-- The record of a list of labels. -/
def labelRecord (kind : String) (labels : List String) : Json :=
  .record kind [("points", .array (labels.map .string))]

/-- The stored form of a goal. -/
def toJson : Goal → Json
  | collinear a b c => labelRecord "collinear" [a, b, c]
  | parallel a b c d => labelRecord "parallel" [a, b, c, d]
  | perpendicular a b c d => labelRecord "perpendicular" [a, b, c, d]
  | equalLength a b c d => labelRecord "equal_length" [a, b, c, d]
  | equal left right => .record "equal" [("lhs", .string left), ("rhs", .string right)]

/-! ### Statements -/

/-- The statement about four points of a figure, looked up in order. -/
def fourPoints (fig : Figure) (a b c d : String)
    (statement : Point → Point → Point → Point → Statement) : Except Fault Statement := do
  let a ← fig.point a
  let b ← fig.point b
  let c ← fig.point c
  let d ← fig.point d
  return statement a b c d

/-- The statement about a figure. -/
def resolve (fig : Figure) : Goal → Except Fault Statement
  | collinear a b c => do
    let a ← fig.point a
    let b ← fig.point b
    let c ← fig.point c
    return .collinear a b c
  | parallel a b c d => fourPoints fig a b c d .parallel
  | perpendicular a b c d => fourPoints fig a b c d .perpendicular
  | equalLength a b c d => fourPoints fig a b c d .equalLength
  | equal left right => do
    let left ← fig.expression left
    let right ← fig.expression right
    return .equal left right

end Goal
end AreaMethod
