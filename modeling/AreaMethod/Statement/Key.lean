/-
# Keys of statements

The key of a statement is the text under which its answer can be remembered. It
drops the order of points as far as quantities do, and a sign in front.

Key definition: `Statement.key`.
-/
import AreaMethod.Expr.Canonical
import AreaMethod.Expr.Simplify

namespace AreaMethod
namespace Statement

/-- The expression of a statement with canonical quantities, simplified if
that is possible. -/
def normalExpr (s : Statement) : Expr :=
  let e := s.zeroExpr.canonical .empty
  match e.simplify with
  | .ok e' => e'
  | .error _ => e

/-- The text of the normal expression, without a sign in front. -/
def key (s : Statement) : String :=
  match s.normalExpr with
  | .neg e => e.text
  | e => e.text

end Statement
end AreaMethod
