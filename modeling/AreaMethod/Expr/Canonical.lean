/-
# Canonical quantities

Quantities that differ in the order of their points only are equal up to sign.
Each of them is replaced by one representative, its points in ascending order
where the value allows, with the sign in front. Areas that vanish because two
points coincide, or because the triple is known to be collinear, become zero.

Key definitions: `Canonical`, `Quantity.canonical`, `Expr.canonical`,
`Triples.decidesCollinear`.
-/
import AreaMethod.Expr.Basic
import AreaMethod.Triples

namespace AreaMethod

/-- The representative of a quantity. -/
inductive Canonical where
  | zero
  /-- One, or minus one if `negative`. -/
  | unit (negative : Bool)
  /-- The quantity, or its negation if `negative`. -/
  | signed (q : Quantity) (negative : Bool)
deriving DecidableEq

/-- The representative as an expression. -/
def Canonical.toExpr : Canonical → Expr
  | zero => 0
  | unit false => 1
  | unit true => .number (-1)
  | signed q false => .quantity q
  | signed q true => .neg (.quantity q)

/-- The representative of a quantity. -/
def Quantity.canonical (known : Triples) : Quantity → Canonical
  | area a b c =>
    if a = b ∨ b = c ∨ a = c ∨ known.has a b c then .zero
    else
      let ((a, b, c), odd) := sortThree a b c
      .signed (area a b c) odd
  | pythagoras a b c =>
    if a = b ∨ b = c then .zero
    else
      let ((a, c), _) := sortTwo a c
      if a = c ∧ b.before a then .signed (pythagoras b a b) false
      else .signed (pythagoras a b c) false
  | ratio a b c d =>
    if a = b then .zero
    else
      let ((a, b), first) := sortTwo a b
      let ((c, d), second) := sortTwo c d
      if a = c ∧ b = d then .unit (first ^^ second)
      else .signed (ratio a b c d) (first ^^ second)

/-- The area of three points vanishes by its points alone, or because their
triple is known. -/
def Triples.decidesCollinear (known : Triples) (a b c : Point) : Bool :=
  (Quantity.area a b c).canonical known = .zero

namespace Term

/-- Multiplies by the representative of a power of a quantity, where `times`
multiplies by a power. A vanishing quantity, which stands in the denominator here,
stays as it is. -/
def timesCanonical (times : Powers → Quantity → Int → Powers) (known : Triples) (t : Term)
    (q : Quantity) (exponent : Int) : Term :=
  let sign (negative : Bool) : Int := if negative ∧ exponent % 2 ≠ 0 then -1 else 1
  match q.canonical known with
  | .zero => ⟨t.coefficient, times t.powers q exponent⟩
  | .unit negative => ⟨sign negative * t.coefficient, t.powers⟩
  | .signed q negative => ⟨sign negative * t.coefficient, times t.powers q exponent⟩

/-- Replaces the quantities of a term by their representatives, where `times`
multiplies by a power. The term is zero if a quantity with a positive exponent
vanishes. -/
def canonicalBy (times : Powers → Quantity → Int → Powers) (known : Triples) (t : Term) : Term :=
  if t.powers.entries.any fun x => decide (0 < x.2) && x.1.canonical known = .zero then .constant 0
  else t.powers.entries.foldl (fun s x => s.timesCanonical times known x.1 x.2)
    (.constant t.coefficient)

/-- Replaces the quantities of a term by their representatives and merges their
powers. -/
def canonical (known : Triples) (t : Term) : Term := t.canonicalBy Powers.mergePower known

end Term

/-- Replaces the quantities of a polynomial by their representatives. -/
def Polynomial.canonical (known : Triples) (p : Polynomial) : Polynomial :=
  Sparse.sumMap (fun t => Polynomial.ofTerm (t.canonical known)) p.terms

/-- Replaces every quantity by its representative. -/
def Expr.canonical (known : Triples) (e : Expr) : Expr :=
  e.mapLeaves (fun q => (q.canonical known).toExpr) (fun t => .term (t.canonical known))
    (fun p => .polynomial (p.canonical known))

end AreaMethod
