/-
# Points

A point of a figure is known by its label: two points with the same label are
the same point, and points are ordered by their labels, character by
character. How a point came into a figure is recorded in the figure.

Key definitions: `Point`, `Point.ascending`.
-/

namespace AreaMethod

/-- A point, identified by its label. -/
structure Point where
  label : String
deriving DecidableEq, Inhabited

namespace Point

instance : Ord Point := ⟨fun p q => compare p.label q.label⟩

instance : Std.TransOrd Point where
  eq_swap {p q} := @Std.OrientedOrd.eq_swap String _ _ p.label q.label
  isLE_trans {p q r} := @Std.TransOrd.isLE_trans String _ _ p.label q.label r.label

instance : Std.LawfulEqOrd Point where
  compare_self {p} := @Std.ReflOrd.compare_self String _ _ p.label
  eq_of_compare {p q} h := by
    have := @Std.LawfulEqOrd.eq_of_compare String _ _ p.label q.label h
    cases p; cases q; simp_all

/-- `p` comes strictly before `q`. -/
def before (p q : Point) : Bool := compare p q == .lt

/-- Inserts a point into an ascending list that may already hold it. -/
def insertInto (p : Point) : List Point → List Point
  | [] => [p]
  | q :: qs =>
    match compare p q with
    | .lt => p :: q :: qs
    | .eq => q :: qs
    | .gt => q :: insertInto p qs

/-- The points of a list in ascending order, each once. -/
def ascending (ps : List Point) : List Point := ps.foldr insertInto []

end Point
end AreaMethod
