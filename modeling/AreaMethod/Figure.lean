/-
# Figures

A figure is a list of points, each of them free or constructed from points
that came before it. The most recent point stands first, which is the order in
which constructed points are eliminated.

Key definitions: `Construction`, `Construction.dependencies`, `Figure`, `FigureM`,
`Figure.add`, `Figure.construction?`, `Figure.closure`.
-/
import AreaMethod.Fault

namespace AreaMethod

/-- How a constructed point is obtained from other points. -/
inductive Construction where
  /-- The intersection of the lines `uv` and `pq`. -/
  | intersection (u v p q : Point)
  /-- The foot of the perpendicular from `p` onto the line `uv`. -/
  | foot (p u v : Point)
  /-- The point `w + r (v - u)`. -/
  | pratio (w u v : Point) (r : Expr)
  /-- The point `y` on the perpendicular to `uv` at `u` with
  `4 S(u, v, y) = r P(u, v, u)`. -/
  | tratio (u v : Point) (r : Expr)
deriving DecidableEq

namespace Construction

/-- The points a construction refers to: its own from left to right, then
those of its ratio. -/
def dependencies : Construction → List Point
  | intersection u v p q => [u, v, p, q]
  | foot p u v => [p, u, v]
  | pratio w u v r => w :: u :: v :: r.points
  | tratio u v r => u :: v :: r.points

/-- The midpoint of `a` and `b`. -/
def midpoint (a b : Point) : Construction := pratio a a b (1 / 2)

end Construction

/-- The points `iO`, `iU`, `iV` of the reference frame. -/
def frameLabels : List String := ["iO", "iU", "iV"]

/-- A point of a figure; free unless it has a construction. -/
structure Placed where
  point : Point
  construction? : Option Construction
deriving DecidableEq

/-- The points of a figure, the most recent one first. -/
structure Figure where
  placed : List Placed
deriving DecidableEq, Inhabited

namespace Figure

/-- The figure without points. -/
def empty : Figure := ⟨[]⟩

/-- The points in the order of their introduction. -/
def points (fig : Figure) : List Point := (fig.placed.map Placed.point).reverse

/-- The free points in the order of their introduction. -/
def freePoints (fig : Figure) : List Point :=
  ((fig.placed.filter fun x => x.construction?.isNone).map Placed.point).reverse

/-- The constructed points with their constructions, the most recent one
first. -/
def constructed (fig : Figure) : List (Point × Construction) :=
  fig.placed.filterMap fun x => x.construction?.map fun c => (x.point, c)

/-- The construction of a point; none if it is free or not in the figure. -/
def construction? (fig : Figure) (p : Point) : Option Construction :=
  (fig.placed.find? fun x => x.point = p).bind Placed.construction?

/-- The point is in the figure. -/
def has (fig : Figure) (p : Point) : Bool := fig.placed.any fun x => x.point = p

/-- The point with a label. -/
def point (fig : Figure) (label : String) : Except Fault Point :=
  if fig.has ⟨label⟩ then .ok ⟨label⟩ else .error (.unknownPoint label)

end Figure

/-! ### Growing -/

/-- A computation that changes a figure in place and may fail. -/
abbrev FigureM := ExceptT Fault (StateM Figure)

namespace Figure

/-- Adds a point whose label is new and does not belong to the frame. -/
def add (p : Point) (c : Option Construction) : FigureM Point := do
  let fig ← get
  if fig.has p || frameLabels.contains p.label then throw (.duplicatePoint p.label)
  else
    set (Figure.mk (⟨p, c⟩ :: fig.placed))
    return p

/-! ### Dependencies -/

/-- Adds a point to a figure after everything it is built from, unless it is
already there. The first argument lists the candidates, the most recent one
first; a point is built from points after it in that list. -/
def visit : List Placed → Figure → Point → Figure
  | [], fig, p => if fig.has p then fig else ⟨⟨p, none⟩ :: fig.placed⟩
  | x :: older, fig, p =>
    if x.point = p then
      if fig.has p then fig
      else match x.construction? with
        | none => ⟨x :: fig.placed⟩
        | some c => ⟨x :: (c.dependencies.foldl (visit older) fig).placed⟩
    else visit older fig p

/-- The smallest figure that holds the given points and everything they are
built from: each of them in turn, after what it depends on. -/
def closure (fig : Figure) (roots : List Point) : Figure :=
  roots.foldl (visit fig.placed) empty

end Figure
end AreaMethod
