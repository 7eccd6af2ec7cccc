/-
# Simplification

Passes of the rules until nothing changes. Each pass that changes
something makes the expression lighter, so this comes to an end.

Key definition: `Expr.simplify`.
-/
import AreaMethod.Expr.Measure

namespace AreaMethod
namespace Expr

/-- Simplifies until a pass changes nothing. -/
def simplify (e : Expr) : Except Fault Expr :=
  match _hs : e.simplifyStep with
  | .error f => .error f
  | .ok e' => if e' = e then .ok e else simplify e'
termination_by (e.weight, e.magnitude)
decreasing_by
  rename_i hne
  rcases eq_or_lighter_of_simplifyStep _hs with heq | hl | ⟨hw, hm⟩
  · exact absurd heq hne
  · exact Prod.Lex.left _ _ hl
  · rw [hw]; exact Prod.Lex.right _ hm

end Expr
end AreaMethod
