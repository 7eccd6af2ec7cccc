/-
# Statements

A geometric statement about points and expressions, and the expression that
vanishes exactly when the statement holds.

Key definitions: `Statement`, `Statement.zeroExpr`, `Statement.points`,
`Statement.text`.
-/
import AreaMethod.Expr.Basic

namespace AreaMethod

/-- A geometric statement. -/
inductive Statement where
  | collinear (a b c : Point)
  /-- `ab` is parallel to `cd`. -/
  | parallel (a b c d : Point)
  /-- `ab` is perpendicular to `cd`. -/
  | perpendicular (a b c d : Point)
  /-- `ab` is as long as `cd`. -/
  | equalLength (a b c d : Point)
  | equal (left right : Expr)
deriving DecidableEq, Inhabited

namespace Statement

/-- The expression that vanishes exactly when the statement holds. -/
def zeroExpr : Statement → Expr
  | collinear a b c => .area a b c
  | parallel a b c d => .area a c b + .area a b d
  | perpendicular a b c d => .pythagoras a c d - .pythagoras b c d
  | equalLength a b c d => .pythagoras a b a - .pythagoras c d c
  | equal left right => left - right

/-- The points of a statement in ascending order, each once. -/
def points : Statement → List Point
  | collinear a b c => Point.ascending [a, b, c]
  | parallel a b c d => Point.ascending [a, b, c, d]
  | perpendicular a b c d => Point.ascending [a, b, c, d]
  | equalLength a b c d => Point.ascending [a, b, c, d]
  | equal left right => Point.ascending (left.points ++ right.points)

/-- The text of a statement. -/
def text : Statement → String
  | collinear a b c => s!"(collinear {a.label} {b.label} {c.label})"
  | parallel a b c d => s!"(parallel {a.label} {b.label} {c.label} {d.label})"
  | perpendicular a b c d => s!"(perpendicular {a.label} {b.label} {c.label} {d.label})"
  | equalLength a b c d => s!"(equal-length {a.label} {b.label} {c.label} {d.label})"
  | equal left right => s!"(= {left.text} {right.text})"

end Statement
end AreaMethod
