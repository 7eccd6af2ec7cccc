/-
# Steps

A step of a problem introduces one point, by labels and texts. It is stored as
a tagged record, and taken on the figure that the steps before it built.

Key definitions: `Step`, `Step.ofJson?`, `Step.toJson`, `Step.take`, `Step.apply`.
-/
import AreaMethod.Expr.Reader
import AreaMethod.Json

namespace AreaMethod

/-- A step that introduces the point `label`. Ratios are texts. -/
inductive Step where
  | free (label : String)
  | intersection (label u v p q : String)
  | foot (label p u v : String)
  | pratio (label w u v r : String)
  | tratio (label u v r : String)
  | midpoint (label a b : String)
deriving DecidableEq

/-- Reads a text as an expression; a fault says why it is none. -/
def Figure.expression (fig : Figure) (text : String) : Except Fault Expr :=
  (fig.readExpr text).mapError .unreadable

namespace Step

/-- The point that the step introduces. -/
def point : Step → Point
  | free label => ⟨label⟩
  | intersection label .. => ⟨label⟩
  | foot label .. => ⟨label⟩
  | pratio label .. => ⟨label⟩
  | tratio label .. => ⟨label⟩
  | midpoint label .. => ⟨label⟩

/-! ### JSON -/

/-- Reads a step. -/
def ofJson? (j : Json) : Option Step := do
  let (kind, fields) ← j.tagged?
  match kind with
  | "free" => do
    let [label] ← fields.strings? ["label"] | none
    return free label
  | "intersection" => do
    let [label, u, v, p, q] ← fields.strings? ["label", "u", "v", "p", "q"] | none
    return intersection label u v p q
  | "foot" => do
    let [label, p, u, v] ← fields.strings? ["label", "p", "u", "v"] | none
    return foot label p u v
  | "pratio" => do
    let [label, w, u, v, r] ← fields.strings? ["label", "w", "u", "v", "r"] | none
    return pratio label w u v r
  | "tratio" => do
    let [label, u, v, r] ← fields.strings? ["label", "u", "v", "r"] | none
    return tratio label u v r
  | "midpoint" => do
    let [label, a, b] ← fields.strings? ["label", "a", "b"] | none
    return midpoint label a b
  | _ => none

/-- The stored form of a step. -/
def toJson : Step → Json
  | free label => .record "free" [("label", .string label)]
  | intersection label u v p q =>
    .record "intersection" [("label", .string label), ("u", .string u), ("v", .string v),
      ("p", .string p), ("q", .string q)]
  | foot label p u v =>
    .record "foot" [("label", .string label), ("p", .string p), ("u", .string u),
      ("v", .string v)]
  | pratio label w u v r =>
    .record "pratio" [("label", .string label), ("w", .string w), ("u", .string u),
      ("v", .string v), ("r", .string r)]
  | tratio label u v r =>
    .record "tratio" [("label", .string label), ("u", .string u), ("v", .string v),
      ("r", .string r)]
  | midpoint label a b =>
    .record "midpoint" [("label", .string label), ("a", .string a), ("b", .string b)]

/-! ### Figures -/

/-- The construction of the point, over the points of a figure; none for a free
point. Points are looked up before ratios are read. -/
def construction (fig : Figure) : Step → Except Fault (Option Construction)
  | free _ => return none
  | intersection _ u v p q => do
    let u ← fig.point u
    let v ← fig.point v
    let p ← fig.point p
    let q ← fig.point q
    return some (.intersection u v p q)
  | foot _ p u v => do
    let p ← fig.point p
    let u ← fig.point u
    let v ← fig.point v
    return some (.foot p u v)
  | pratio _ w u v r => do
    let w ← fig.point w
    let u ← fig.point u
    let v ← fig.point v
    return some (.pratio w u v (← fig.expression r))
  | tratio _ u v r => do
    let u ← fig.point u
    let v ← fig.point v
    return some (.tratio u v (← fig.expression r))
  | midpoint _ a b => do
    let a ← fig.point a
    let b ← fig.point b
    return some (.midpoint a b)

/-- Takes a step on a figure in place: looks up what its point is built from, and adds
the point. -/
def take (step : Step) : FigureM Point := do
  let c ← liftExcept (step.construction (← get))
  Figure.add step.point c

/-- The figure after a step that does not fail. -/
def apply (step : Step) (fig : Figure) : Except Fault Figure :=
  match step.take fig with
  | (.ok _, fig') => .ok fig'
  | (.error f, _) => .error f

end Step
end AreaMethod
