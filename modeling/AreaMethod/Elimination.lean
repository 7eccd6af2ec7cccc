/-
# Elimination of a constructed point

A constructed point is removed from an expression by the lemma for each
quantity that mentions it; the result is brought to canonical quantities and
simplified.

Key definitions: `Eliminator.replace`, `Eliminator.reduce`,
`Eliminator.eliminate`.
-/
import AreaMethod.Elimination.Ratio
import AreaMethod.Expr.Simplify

namespace AreaMethod
namespace Eliminator

variable {σ : Type}

/-- Eliminates `y` from a quantity that mentions it. -/
def quantity (oracle : Oracle σ) (y : Point) (how : Construction) : Quantity → EliminateM σ Expr
  | .area a b c => area y how a b c
  | .pythagoras a b c => pythagoras y how a b c
  | .ratio a b c d => ratio oracle y how a b c d

/-- Replaces every quantity that mentions `y`. Packed nodes that mention it are
unfolded; all else stays. -/
def replace (oracle : Oracle σ) (y : Point) (how : Construction) (e : Expr) : EliminateM σ Expr :=
  (e.expose y).bindQuantities fun q =>
    if q.mentions y then quantity oracle y how q else return .quantity q

/-- Brings an expression to canonical quantities, by what is known, and
simplifies it. -/
def reduce (e : Expr) : EliminateM σ Expr := do
  liftExcept (e.canonical (← get).known).simplify

/-- Removes a constructed point of the figure from an expression. -/
def eliminate (oracle : Oracle σ) (fig : Figure) (e : Expr) (y : Point) : EliminateM σ Expr := do
  match fig.construction? y with
  | none => throw (.malformed (.freePoint y))
  | some how => reduce (← replace oracle y how e)

end Eliminator
end AreaMethod
