/-
# Geometric quantities

The three quantities of the area method: the signed area of a triangle, the
Pythagoras difference of three points and the ratio of two parallel directed
segments. Their order puts areas first, then Pythagoras differences, then
ratios; quantities of one kind are ordered by their points from left to right.

Key definitions: `Quantity`, `Quantity.points`, `Quantity.text`.
-/
import AreaMethod.Point

namespace AreaMethod

/-- An irreducible geometric quantity. -/
inductive Quantity where
  /-- The signed area `S(a, b, c)` of the triangle `abc`. -/
  | area (a b c : Point)
  /-- The Pythagoras difference `P(a, b, c) = ab² + cb² - ac²`. -/
  | pythagoras (a b c : Point)
  /-- The ratio `ab / cd` of two parallel directed segments. -/
  | ratio (a b c d : Point)
deriving DecidableEq, Inhabited

namespace Quantity

/-- The points of a quantity from left to right, with repetitions. -/
def points : Quantity → List Point
  | area a b c => [a, b, c]
  | pythagoras a b c => [a, b, c]
  | ratio a b c d => [a, b, c, d]

/-- The quantity mentions `p`. -/
def mentions (q : Quantity) (p : Point) : Bool := q.points.contains p

/-- How many times the quantity mentions `p`. -/
def occurrences (q : Quantity) (p : Point) : Nat := q.points.count p

/-- The text of a quantity, such as `(S A B C)`. -/
def text : Quantity → String
  | area a b c => s!"(S {a.label} {b.label} {c.label})"
  | pythagoras a b c => s!"(P {a.label} {b.label} {c.label})"
  | ratio a b c d => s!"(R {a.label} {b.label} {c.label} {d.label})"

/-! ### Order -/

/-- The place of a kind of quantity among the kinds. -/
def rank : Quantity → Nat
  | area .. => 0
  | pythagoras .. => 1
  | ratio .. => 2

/-- Compares by kind, then by points. -/
def order : Quantity → Quantity → Ordering
  | area a b c, area a' b' c' => (compare a a').then ((compare b b').then (compare c c'))
  | pythagoras a b c, pythagoras a' b' c' =>
    (compare a a').then ((compare b b').then (compare c c'))
  | ratio a b c d, ratio a' b' c' d' =>
    (compare a a').then ((compare b b').then ((compare c c').then (compare d d')))
  | q, q' => compare q.rank q'.rank

instance : Ord Quantity := ⟨order⟩

theorem compare_three (a b c a' b' c' : Point) :
    compare [a, b, c] [a', b', c'] =
      (compare a a').then ((compare b b').then (compare c c')) := by
  change List.compareLex compare _ _ = _
  rw [List.compareLex_cons_cons, List.compareLex_cons_cons, List.compareLex_cons_cons,
    List.compareLex_nil_nil, Ordering.then_eq]

theorem compare_four (a b c d a' b' c' d' : Point) :
    compare [a, b, c, d] [a', b', c', d'] =
      (compare a a').then ((compare b b').then ((compare c c').then (compare d d'))) := by
  rw [← compare_three]
  change List.compareLex compare _ _ = _
  rw [List.compareLex_cons_cons]
  rfl

/-- The order is the lexicographic order of rank and points. -/
theorem compare_eq : (q q' : Quantity) →
    compare q q' = compareLex (compareOn rank) (compareOn points) q q'
  | area a b c, area a' b' c' => (compare_three a b c a' b' c').symm
  | pythagoras a b c, pythagoras a' b' c' => (compare_three a b c a' b' c').symm
  | ratio a b c d, ratio a' b' c' d' => (compare_four a b c d a' b' c' d').symm
  | area .., pythagoras .. => rfl
  | area .., ratio .. => rfl
  | pythagoras .., area .. => rfl
  | pythagoras .., ratio .. => rfl
  | ratio .., area .. => rfl
  | ratio .., pythagoras .. => rfl

theorem eq_of_rank_of_points {q q' : Quantity} (hr : q.rank = q'.rank)
    (hp : q.points = q'.points) : q = q' := by
  cases q <;> cases q' <;> simp_all [rank, points]

instance : Std.TransOrd Quantity where
  eq_swap {q q'} := by
    rw [compare_eq, compare_eq]
    exact Std.OrientedCmp.eq_swap
  isLE_trans {q q' q''} h h' := by
    rw [compare_eq] at *
    exact Std.TransCmp.isLE_trans h h'

instance : Std.LawfulEqOrd Quantity where
  compare_self {q} := by
    rw [compare_eq]
    exact Std.ReflCmp.compare_self
  eq_of_compare {q q'} h := by
    simp only [compare_eq, compareLex_eq_eq, compareOn] at h
    exact eq_of_rank_of_points (Std.LawfulEqOrd.eq_of_compare h.1)
      (Std.LawfulEqOrd.eq_of_compare h.2)

end Quantity
end AreaMethod
