/-
# Known collinear triples

A set of unordered triples of points that are known to be collinear. Each
triple is kept in ascending order, so the order of its points does not matter.

Key definitions: `sortTwo`, `sortThree`, `Triples`, `Triples.has`,
`Triples.insert`.
-/
import AreaMethod.Point

namespace AreaMethod

/-- Two points in ascending order, and whether they were swapped. -/
def sortTwo (a b : Point) : (Point × Point) × Bool :=
  if b.before a then ((b, a), true) else ((a, b), false)

/-- Three points in ascending order, and whether an odd number of swaps led
there. -/
def sortThree (a b c : Point) : (Point × Point × Point) × Bool :=
  let ((a, b), first) := sortTwo a b
  let ((b, c), second) := sortTwo b c
  let ((a, b), third) := sortTwo a b
  ((a, b, c), first ^^ second ^^ third)

/-- A set of triples of points, each in ascending order. -/
structure Triples where
  known : List (Point × Point × Point)
deriving DecidableEq, Inhabited

namespace Triples

/-- No triple is known. -/
def empty : Triples := ⟨[]⟩

/-- The triple of three points is known, in whatever order. -/
def has (ts : Triples) (a b c : Point) : Bool := ts.known.contains (sortThree a b c).1

/-- Adds the triple of three points. -/
def insert (ts : Triples) (a b c : Point) : Triples :=
  if ts.has a b c then ts else ⟨(sortThree a b c).1 :: ts.known⟩

/-- Number of known triples. -/
def size (ts : Triples) : Nat := ts.known.length

end Triples
end AreaMethod
