/-
# Eliminating a point from ratios

A ratio of parallel segments is turned so that the point comes last in the
numerator, and last in the denominator if it occurs there too. Which formula
holds depends on whether the other end of the numerator lies on the line that
the point was constructed on; this is asked of the oracle.

Key definitions: `Eliminator.plainRatio`, `Eliminator.sharedRatio`,
`Eliminator.ratio`.
-/
import AreaMethod.Elimination.Linear

namespace AreaMethod
namespace Eliminator

open AreaMethod.Expr (area4 pythagoras4)

variable {σ : Type}

/-- Eliminates `y` from the areas of an expression. -/
def areas (y : Point) (how : Construction) (e : Expr) : EliminateM σ Expr :=
  e.bindQuantities fun q =>
    match q with
    | .area a b c => if q.mentions y then area y how a b c else return .quantity q
    | _ => return .quantity q

/-- The area `S(a, p, q) - r/4 P(p, q, p)`. -/
def shiftedArea (a p q : Point) (r : Expr) : Expr := .area a p q - r / 4 * .pythagoras p q p

/-- Eliminates `y` from `ay / cd`, where `cd` does not mention it. -/
def plainRatio (oracle : Oracle σ) (y : Point) (how : Construction) (a c d : Point) :
    EliminateM σ Expr := do
  record .ratio how
  match how with
  | .intersection u v p q =>
    if ← collinear oracle a u v then divide (.area a p q) (area4 c p d q)
    else divide (.area a u v) (area4 c u d v)
  | .foot p u v =>
    if ← collinear oracle a u v then divide (pythagoras4 p c a d) (.pythagoras c d c)
    else divide (.area a u v) (area4 c u d v)
  | .pratio w u v r =>
    if ← collinear oracle a w y then divide (.ratio a w u v + r) (.ratio c d u v)
    else divide (area4 a u w v) (area4 c u d v)
  | .tratio p q r =>
    if ← collinear oracle a p y then divide (shiftedArea a p q r) (area4 c p d q)
    else areas y how (← divide (.area a p y) (area4 c p d y))

/-- Eliminates `y` from `ay / cy`. -/
def sharedRatio (oracle : Oracle σ) (y : Point) (how : Construction) (a c : Point) :
    EliminateM σ Expr := do
  if a = c then return 1
  record .ratio how
  match how with
  | .intersection u v p q =>
    if ← collinear oracle a u v then divide (.area a p q) (.area c p q)
    else divide (.area a u v) (.area c u v)
  | .foot p u v =>
    if ← collinear oracle a u v then divide (pythagoras4 a u p v) (pythagoras4 c u p v)
    else divide (.area a u v) (.area c u v)
  | .pratio w u v r =>
    if ← collinear oracle a w y then divide (.ratio a w u v + r) (.ratio c w u v + r)
    else divide (area4 a u w v) (area4 c u w v)
  | .tratio p q r =>
    if ← collinear oracle a p y then divide (shiftedArea a p q r) (shiftedArea c p q r)
    else areas y how (← divide (.area a p y) (.area c p y))

/-- Eliminates `y` from `ay / cd`, which it may share with the denominator;
there it is brought to the end, which changes the sign. -/
def ratioFrom (oracle : Oracle σ) (y : Point) (how : Construction) (a c d : Point) :
    EliminateM σ Expr := do
  if c = y then return -(← sharedRatio oracle y how a d)
  else if d = y then sharedRatio oracle y how a c
  else plainRatio oracle y how a c d

/-- Eliminates `y` from `ab / cd`, where `ab` mentions it. It is brought to
the end of the numerator, which changes the sign. -/
def ratioAbove (oracle : Oracle σ) (y : Point) (how : Construction) (a b c d : Point) :
    EliminateM σ Expr := do
  if a = y then return -(← ratioFrom oracle y how b c d)
  else ratioFrom oracle y how a c d

/-- Eliminates `y` from `ab / cd`, one of whose points it is. If only `cd`
mentions it, the ratio is inverted. -/
def ratio (oracle : Oracle σ) (y : Point) (how : Construction) (a b c d : Point) :
    EliminateM σ Expr := do
  if a = b then return 0
  else if c = d then throw (.divisionByZero (.ratio a b c d))
  else if a = y ∨ b = y then ratioAbove oracle y how a b c d
  else divide 1 (← ratioAbove oracle y how c d a b)

end Eliminator
end AreaMethod
