/-
# Eliminating a point from areas and Pythagoras differences

The area `S(a, b, y)` and the Pythagoras difference `P(a, b, y)` are linear in
`y`: one set of formulas serves both. `P(a, y, b)` is quadratic in `y`.

Key definitions: `Eliminator.linear`, `Eliminator.area`,
`Eliminator.pythagoras`.
-/
import AreaMethod.Elimination.Eliminator

namespace AreaMethod

/-- The area of a quadrangle, `S(a, b, c) + S(a, c, d)`. -/
def Expr.area4 (a b c d : Point) : Expr := .area a b c + .area a c d

/-- The Pythagoras difference of a quadrangle, `P(a, b, d) - P(c, b, d)`. -/
def Expr.pythagoras4 (a b c d : Point) : Expr := .pythagoras a b d - .pythagoras c b d

namespace Eliminator

open AreaMethod.Expr (area4 pythagoras4)

variable {σ : Type}

/-- The value at a constructed point of a function `g` that is linear in the
point. At a point on a perpendicular it depends on the kind of `g` and is
given by `perpendicular`. -/
def linear (group : LemmaGroup) (how : Construction) (g : Point → Expr)
    (perpendicular : Point → Point → Expr → Expr) : EliminateM σ Expr := do
  record group how
  match how with
  | .intersection u v p q =>
    divide (.area u p q * g v - .area v p q * g u) (area4 u p v q)
  | .foot p u v =>
    divide (.pythagoras p u v * g v + .pythagoras p v u * g u) (.pythagoras u v u)
  | .pratio w u v r => return g w + r * (g v - g u)
  | .tratio u v r => return perpendicular u v r

/-- Eliminates `y` from `S(a, b, c)`, one of whose points it is. The area is
turned so that `y` comes last. -/
def area (y : Point) (how : Construction) (a b c : Point) : EliminateM σ Expr :=
  let (a, b) := if c = y then (a, b) else if a = y then (b, c) else (c, a)
  if a = y ∨ b = y then return 0
  else linear .area how (fun x => .area a b x)
    fun p q r => .area a b p - r / 4 * pythagoras4 p a q b

/-- Eliminates `y` from `P(a, y, b)`. -/
def middle (how : Construction) (a b : Point) : EliminateM σ Expr := do
  record .middlePythagoras how
  match how with
  | .intersection u v p q =>
    let su : Expr := .area u p q
    let sv : Expr := .area v p q
    let den := area4 u p v q
    let first ← divide (su * .pythagoras a v b - sv * .pythagoras a u b) den
    return first + su * sv * .pythagoras u v u / (den * den)
  | .foot p u v =>
    let pu : Expr := .pythagoras p u v
    let pv : Expr := .pythagoras p v u
    let den : Expr := .pythagoras u v u
    let first ← divide (pu * .pythagoras a v b + pv * .pythagoras a u b) den
    return first - pu * pv / den
  | .pratio w u v r =>
    return .pythagoras a w b +
      r * (.pythagoras a v b - .pythagoras a u b + 2 * .pythagoras w u v) -
      r * (1 - r) * .pythagoras u v u
  | .tratio p q r =>
    return .pythagoras a p b + r * r * .pythagoras p q p -
      4 * r * (.area a p q + .area b p q)

/-- Eliminates `y` from `P(a, b, c)`, one of whose points it is. -/
def pythagoras (y : Point) (how : Construction) (a b c : Point) : EliminateM σ Expr :=
  if b = y then
    if a = y ∨ c = y then return 0 else middle how a c
  else if a = y ∧ c = y then middle how b b
  else
    let a := if c = y then a else c
    linear .linearPythagoras how (fun x => .pythagoras a b x)
      fun p q r => .pythagoras a b p - 4 * r * area4 p a q b

end Eliminator
end AreaMethod
