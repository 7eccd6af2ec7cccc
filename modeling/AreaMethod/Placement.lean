/-
# Placements

A placement gives the points of a figure floating point coordinates: free
points are put where one likes, and constructed points where their
construction puts them. Values of expressions under a placement serve as a
check on what was proved; they prove nothing.

Key definitions: `Coord`, `Placement`, `Expr.valueAt`, `Placement.ofFree`,
`Placement.random`.
-/
import AreaMethod.Figure
import AreaMethod.Placement.Keystream

namespace AreaMethod

/-- A point or vector of the plane. -/
structure Coord where
  x : Float
  y : Float
deriving Inhabited

namespace Coord

instance : Add Coord := ⟨fun a b => ⟨a.x + b.x, a.y + b.y⟩⟩
instance : Sub Coord := ⟨fun a b => ⟨a.x - b.x, a.y - b.y⟩⟩

/-- Multiplies by a number. -/
def scale (a : Coord) (k : Float) : Coord := ⟨a.x * k, a.y * k⟩

/-- The scalar product. -/
def dot (a b : Coord) : Float := a.x * b.x + a.y * b.y

/-- The signed area of the parallelogram of two vectors. -/
def cross (a b : Coord) : Float := a.x * b.y - a.y * b.x

/-- Turns by a right angle counter-clockwise. -/
def turn (a : Coord) : Coord := ⟨-a.y, a.x⟩

end Coord

/-- Coordinates of points. -/
structure Placement where
  coords : List (Point × Coord)
deriving Inhabited

namespace Placement

/-- No point has coordinates. -/
def empty : Placement := ⟨[]⟩

/-- Numbers below this magnitude count as zero in denominators. -/
def epsilon : Float := 1e-12

/-- The coordinates of a point. -/
def coord (pl : Placement) (p : Point) : Except Fault Coord :=
  match pl.coords.lookup p with
  | some c => .ok c
  | none => .error (.unknownPoint p.label)

/-- The value of a quantity. -/
def quantity (pl : Placement) : Quantity → Except Fault Float
  | .area a b c => do
    let a ← pl.coord a
    let b ← pl.coord b
    let c ← pl.coord c
    return 0.5 * (b - a).cross (c - a)
  | .pythagoras a b c => do
    let a ← pl.coord a
    let b ← pl.coord b
    let c ← pl.coord c
    return 2.0 * (a - b).dot (c - b)
  | q@(.ratio a b c d) => do
    let a ← pl.coord a
    let b ← pl.coord b
    let c ← pl.coord c
    let d ← pl.coord d
    let line := d - c
    let square := line.dot line
    if square < epsilon then throw (.divisionByZero (.quantity q))
    return (b - a).dot line / square

/-- Multiplies `r` by the `n`-th power of `x`: by repeated squaring, from the
lowest binary digit of `n` on. -/
def timesPow (x r : Float) (n : Nat) : Float :=
  let r := if n % 2 = 1 then r * x else r
  if n < 2 then r else timesPow (x * x) r (n / 2)

/-- An integer power. -/
def power (x : Float) (exponent : Int) : Float :=
  let r := timesPow x 1.0 exponent.natAbs
  if exponent < 0 then 1.0 / r else r

/-- The value of a term. -/
def term (pl : Placement) (t : Term) : Except Fault Float :=
  t.powers.entries.foldlM (fun value x => return value * power (← pl.quantity x.1) x.2)
    (Float.ofInt t.coefficient)

/-- The value of a polynomial. -/
def polynomial (pl : Placement) (p : Polynomial) : Except Fault Float :=
  p.terms.foldlM (fun value t => return value + (← pl.term t)) 0.0

end Placement

/-- The value of an expression. A denominator is evaluated before its
numerator and must not be close to zero. -/
def Expr.valueAt (pl : Placement) : Expr → Except Fault Float
  | .number n => .ok (Float.ofInt n)
  | .quantity q => pl.quantity q
  | .neg e => do return -(← e.valueAt pl)
  | .sum a b => do return (← a.valueAt pl) + (← b.valueAt pl)
  | .product a b => do return (← a.valueAt pl) * (← b.valueAt pl)
  | .fraction a b => do
    let d ← b.valueAt pl
    if d.abs < Placement.epsilon then throw (.divisionByZero (.fraction a b))
    return (← a.valueAt pl) / d
  | .term t => pl.term t
  | .polynomial p => pl.polynomial p

namespace Placement

/-- Where a construction puts a point. -/
def construct (pl : Placement) (y : Point) : Construction → Except Fault Coord
  | .intersection u v p q => do
    let u ← pl.coord u
    let v ← pl.coord v
    let p ← pl.coord p
    let q ← pl.coord q
    let first := v - u
    let second := q - p
    let denominator := first.cross second
    if denominator.abs < epsilon then throw (.degenerate y .parallelLines)
    return u + first.scale ((p - u).cross second / denominator)
  | .foot p u v => do
    let p ← pl.coord p
    let u ← pl.coord u
    let v ← pl.coord v
    let line := v - u
    let square := line.dot line
    if square < epsilon then throw (.degenerate y .degenerateLine)
    return u + line.scale ((p - u).dot line / square)
  | .pratio w u v r => do
    let w ← pl.coord w
    let u ← pl.coord u
    let v ← pl.coord v
    return w + (v - u).scale (← r.valueAt pl)
  | .tratio u v r => do
    let u ← pl.coord u
    let v ← pl.coord v
    return u + (v - u).turn.scale (← r.valueAt pl)

/-- The reference frame at the origin, with axes of length one. -/
def frame : Placement :=
  ⟨frameLabels.zipWith (fun label c => (⟨label⟩, c)) [⟨0.0, 0.0⟩, ⟨1.0, 0.0⟩, ⟨0.0, 1.0⟩]⟩

/-- Places one more point of a figure. -/
def place (free : List (String × Coord)) (pl : Placement) (x : Placed) :
    Except Fault Placement := do
  let c ← match x.construction? with
    | some how => pl.construct x.point how
    | none =>
      match free.lookup x.point.label with
      | some c => pure c
      | none => throw (.unknownPoint x.point.label)
  return ⟨(x.point, c) :: pl.coords⟩

/-- Places the points of a figure in order, the free ones at the given
coordinates. -/
def ofFree (fig : Figure) (free : List (String × Coord)) : Except Fault Placement :=
  fig.placed.reverse.foldlM (place free) frame

/-- Random coordinates for the free points of a figure, in order. -/
def randomFree (fig : Figure) (seed : UInt64) : List (String × Coord) :=
  let key := Keystream.key seed
  fig.freePoints.zipIdx.map fun x =>
    (x.1.label, ⟨Keystream.coordinate key (2 * x.2), Keystream.coordinate key (2 * x.2 + 1)⟩)

/-- Places the free points of a figure at random. -/
def random (fig : Figure) (seed : UInt64) : Except Fault Placement :=
  ofFree fig (randomFree fig seed)

end Placement
end AreaMethod
