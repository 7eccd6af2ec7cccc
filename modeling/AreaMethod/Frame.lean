/-
# The reference frame

Three points `iO`, `iU`, `iV` span an orthogonal frame with axes of equal
length. The areas `S(iO, iU, p)` and `S(iO, iV, p)` of free points are
independent variables, and every quantity of free points is a fraction of
polynomials in them.

Key definitions: `Frame.area`, `Frame.pythagoras`, `Eliminator.toFrame`.
-/
import AreaMethod.Elimination.Eliminator

namespace AreaMethod
namespace Frame

/-- The origin. -/
def o : Point := ⟨"iO"⟩

/-- The end of the first axis. -/
def u : Point := ⟨"iU"⟩

/-- The end of the second axis. -/
def v : Point := ⟨"iV"⟩

/-- The first independent variable of a point, `S(iO, iU, p)`. -/
def x (p : Point) : Expr := .area o u p

/-- The second independent variable of a point, `S(iO, iV, p)`. -/
def y (p : Point) : Expr := .area o v p

/-- The area of the frame, `S(iO, iU, iV)`. -/
def unit : Expr := .area o u v

/-- The difference of the first variables of two points. -/
def dx (a b : Point) : Expr := x a - x b

/-- The difference of the second variables of two points. -/
def dy (a b : Point) : Expr := y a - y b

/-- The area of a triangle in the frame. -/
def area (a b c : Point) : Expr := (dy c a * dx b a - dy b a * dx c a) / unit

/-- The Pythagoras difference of three points in the frame. -/
def pythagoras (a b c : Point) : Expr := 4 * (dy a b * dy c b + dx a b * dx c b) / unit

end Frame

namespace Eliminator

variable {σ : Type}

/-- A quantity of free points in the frame. A ratio is read off the line if its
first point lies on the line of the denominator, and off two triangles
otherwise. -/
def quantityInFrame (oracle : Oracle σ) (fig : Figure) (q : Quantity) : EliminateM σ Expr := do
  match q.points.find? fun p => (fig.construction? p).isSome with
  | some p => throw (.malformed (.constructedPoint p q))
  | none =>
    match q with
    | .area a b c => return Frame.area a b c
    | .pythagoras a b c => return Frame.pythagoras a b c
    | .ratio a b c d =>
      if ← collinear oracle a c d then
        return (Frame.pythagoras b c d - Frame.pythagoras a c d) / Frame.pythagoras c d c
      else return Frame.area a c b / Frame.area a c d

/-- Writes an expression over free points in the independent variables of the
frame. -/
def toFrame (oracle : Oracle σ) (fig : Figure) (e : Expr) : EliminateM σ Expr :=
  e.unfold.bindQuantities (quantityInFrame oracle fig)

end Eliminator
end AreaMethod
