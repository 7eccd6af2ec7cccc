/-
# Elimination lemmas and how often they are used

An elimination lemma is named by the shape of the quantity it expands and by
the construction of the point it removes: sixteen lemmas in all.

Key definitions: `Lemma`, `Lemma.index`, `LemmaUsage`, `LemmaUsage.record`,
`LemmaUsage.merge`.
-/
import AreaMethod.Figure

namespace AreaMethod

/-- The shape of the quantity that a lemma expands. -/
inductive LemmaGroup where
  /-- `S(a, b, y)` -/
  | area
  /-- `P(a, b, y)` -/
  | linearPythagoras
  /-- `P(a, y, b)` -/
  | middlePythagoras
  /-- `ay / cd` and `ay / cy` -/
  | ratio
deriving DecidableEq

/-- The kinds of constructed points. -/
inductive ConstructionKind where
  | intersection
  | foot
  | pratio
  | tratio
deriving DecidableEq

/-- The kind of a construction. -/
def Construction.kind : Construction → ConstructionKind
  | intersection .. => .intersection
  | foot .. => .foot
  | pratio .. => .pratio
  | tratio .. => .tratio

/-- An elimination lemma. -/
structure Lemma where
  group : LemmaGroup
  kind : ConstructionKind
deriving DecidableEq

/-- The name of a group. -/
def LemmaGroup.name : LemmaGroup → String
  | area => "Area"
  | linearPythagoras => "LinearPythagoras"
  | middlePythagoras => "MiddlePythagoras"
  | ratio => "Ratio"

/-- The name of a kind. -/
def ConstructionKind.name : ConstructionKind → String
  | intersection => "Intersection"
  | foot => "Foot"
  | pratio => "PRatio"
  | tratio => "TRatio"

/-- The place of a group. -/
def LemmaGroup.index : LemmaGroup → Fin 4
  | area => 0
  | linearPythagoras => 1
  | middlePythagoras => 2
  | ratio => 3

/-- The place of a kind. -/
def ConstructionKind.index : ConstructionKind → Fin 4
  | intersection => 0
  | foot => 1
  | pratio => 2
  | tratio => 3

namespace Lemma

/-- The place of a lemma among the sixteen. -/
def index (l : Lemma) : Fin 16 := ⟨4 * l.group.index + l.kind.index, by omega⟩

/-- The name of a lemma with its place. -/
def text (l : Lemma) : String := s!"{l.group.name}/{l.kind.name} (#{l.index.val})"

end Lemma

/-- How often each lemma was used. -/
structure LemmaUsage where
  counts : Vector Nat 16
deriving DecidableEq

namespace LemmaUsage

/-- No lemma was used. -/
def none : LemmaUsage := ⟨.replicate 16 0⟩

instance : Inhabited LemmaUsage := ⟨none⟩

/-- How often a lemma was used. -/
def count (u : LemmaUsage) (l : Lemma) : Nat := u.counts[l.index]

/-- The count at a place, zero outside the sixteen. -/
def slot (u : LemmaUsage) (i : Nat) : Nat := u.counts[i]?.getD 0

/-- One more use of a lemma. -/
def record (u : LemmaUsage) (l : Lemma) : LemmaUsage :=
  ⟨u.counts.set l.index (u.count l + 1)⟩

/-- The uses of both. -/
def merge (u v : LemmaUsage) : LemmaUsage := ⟨Vector.zipWith (· + ·) u.counts v.counts⟩

/-- The number of all uses. -/
def total (u : LemmaUsage) : Nat := u.counts.toList.foldl (· + ·) 0

end LemmaUsage
end AreaMethod
