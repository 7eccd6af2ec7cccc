/-
# Expansion into a polynomial

An expression without fractions is multiplied out into a polynomial.

Key definition: `Expr.expand`.
-/
import AreaMethod.Fault

namespace AreaMethod
namespace Expr

/-- Multiplies out an expression without fractions and negative exponents. -/
def expand : Expr → Except Fault Polynomial
  | number n => .ok (.constant n)
  | quantity q => .ok (.ofTerm (.ofQuantity q))
  | neg e => do return -(← e.expand)
  | sum a b => do return (← a.expand) + (← b.expand)
  | product a b => do return (← a.expand) * (← b.expand)
  | fraction a b => .error (.malformed (.fraction (fraction a b)))
  | term t =>
    if t.isIntegral then .ok (.ofTerm t) else .error (.malformed (.negativeExponent (term t)))
  | polynomial p =>
    if p.isIntegral then .ok p else .error (.malformed (.negativeExponent (polynomial p)))

end Expr
end AreaMethod
