/-
# Expressions

Trees over integers and geometric quantities. Besides the plain nodes
(negation, sum, product, fraction) there are two packed ones, a term and a
polynomial; `Expr.unfold` turns them into plain nodes.

Key definitions: `Expr`, `Expr.size`, `Expr.quantities`, `Expr.text`,
`Expr.mapLeaves`, `Expr.unfold`.
-/
import AreaMethod.Polynomial

namespace AreaMethod

/-- An expression of the area method. -/
inductive Expr where
  | number (n : Int)
  | quantity (q : Quantity)
  | neg (e : Expr)
  | sum (a b : Expr)
  | product (a b : Expr)
  | fraction (a b : Expr)
  /-- A packed product of powers. -/
  | term (t : Term)
  /-- A packed sum of terms. -/
  | polynomial (p : Polynomial)
deriving DecidableEq, Inhabited

namespace Expr

instance (n : Nat) : OfNat Expr n := ⟨number n⟩
instance : Neg Expr := ⟨neg⟩
instance : Add Expr := ⟨sum⟩
instance : Sub Expr := ⟨fun a b => sum a (neg b)⟩
instance : Mul Expr := ⟨product⟩
instance : Div Expr := ⟨fraction⟩

/-- The signed area of a triangle. -/
def area (a b c : Point) : Expr := quantity (.area a b c)

/-- The Pythagoras difference of three points. -/
def pythagoras (a b c : Point) : Expr := quantity (.pythagoras a b c)

/-- The ratio of two parallel segments. -/
def ratio (a b c d : Point) : Expr := quantity (.ratio a b c d)

/-! ### Queries -/

/-- The number zero or the empty polynomial. -/
def isZero : Expr → Bool
  | number n => n == 0
  | polynomial p => p.isZero
  | _ => false

/-- The number one. -/
def isOne : Expr → Bool
  | number n => n == 1
  | _ => false

/-- The value of a number. -/
def number? : Expr → Option Int
  | number n => some n
  | _ => none

/-- Number of nodes. -/
def size : Expr → Nat
  | number _ => 1
  | quantity _ => 1
  | neg e => 1 + e.size
  | sum a b => 1 + a.size + b.size
  | product a b => 1 + a.size + b.size
  | fraction a b => 1 + a.size + b.size
  | term t => 1 + t.powers.size
  | polynomial p => p.nodes

/-- The quantities from left to right, with repetitions. -/
def quantities : Expr → List Quantity
  | number _ => []
  | quantity q => [q]
  | neg e => e.quantities
  | sum a b => a.quantities ++ b.quantities
  | product a b => a.quantities ++ b.quantities
  | fraction a b => a.quantities ++ b.quantities
  | term t => t.powers.quantities
  | polynomial p => p.terms.flatMap fun t => t.powers.quantities

/-- The points of an expression in ascending order, each once. -/
def points (e : Expr) : List Point := Point.ascending (e.quantities.flatMap Quantity.points)

/-- Some quantity of the expression mentions `p`. -/
def mentions (e : Expr) (p : Point) : Bool := e.quantities.any fun q => q.mentions p

/-- There is a fraction in the expression, or a negative exponent. -/
def hasFraction : Expr → Bool
  | number _ => false
  | quantity _ => false
  | neg e => e.hasFraction
  | sum a b => a.hasFraction || b.hasFraction
  | product a b => a.hasFraction || b.hasFraction
  | fraction _ _ => true
  | term t => !t.isIntegral
  | polynomial p => !p.isIntegral

/-! ### Text -/

/-- The text of an expression, operators first: `(+ a b)`. -/
def text : Expr → String
  | number n => toString n
  | quantity q => q.text
  | neg e => "(- " ++ e.text ++ ")"
  | sum a b => "(+ " ++ a.text ++ " " ++ b.text ++ ")"
  | product a b => "(* " ++ a.text ++ " " ++ b.text ++ ")"
  | fraction a b => "(/ " ++ a.text ++ " " ++ b.text ++ ")"
  | term t => t.text
  | polynomial p => p.text

/-! ### Leaves -/

/-- Replaces quantities and packed nodes; numbers and inner nodes stay. -/
def mapLeaves (onQuantity : Quantity → Expr) (onTerm : Term → Expr)
    (onPolynomial : Polynomial → Expr) : Expr → Expr
  | number n => number n
  | quantity q => onQuantity q
  | neg e => neg (e.mapLeaves onQuantity onTerm onPolynomial)
  | sum a b =>
    sum (a.mapLeaves onQuantity onTerm onPolynomial) (b.mapLeaves onQuantity onTerm onPolynomial)
  | product a b =>
    product (a.mapLeaves onQuantity onTerm onPolynomial)
      (b.mapLeaves onQuantity onTerm onPolynomial)
  | fraction a b =>
    fraction (a.mapLeaves onQuantity onTerm onPolynomial)
      (b.mapLeaves onQuantity onTerm onPolynomial)
  | term t => onTerm t
  | polynomial p => onPolynomial p

/-- Replaces every quantity of an expression without packed nodes, from left
to right; packed nodes stay. -/
def bindQuantities {m : Type → Type} [Monad m] (f : Quantity → m Expr) : Expr → m Expr
  | number n => pure (number n)
  | quantity q => f q
  | neg e => do return neg (← e.bindQuantities f)
  | sum a b => do return sum (← a.bindQuantities f) (← b.bindQuantities f)
  | product a b => do return product (← a.bindQuantities f) (← b.bindQuantities f)
  | fraction a b => do return fraction (← a.bindQuantities f) (← b.bindQuantities f)
  | term t => pure (term t)
  | polynomial p => pure (polynomial p)

/-! ### Unfolding packed nodes -/

/-- The product of a list from left to right, if it is not empty. -/
def leftProduct? : List Expr → Option Expr
  | [] => none
  | e :: es => some (es.foldl product e)

end Expr

/-- The quantities with positive exponents, each as often as its exponent
says. -/
def Powers.upper (p : Powers) : List Quantity :=
  p.entries.flatMap fun x => List.replicate x.2.toNat x.1

/-- The quantities with negative exponents, each as often as its exponent
says. -/
def Powers.lower (p : Powers) : List Quantity :=
  p.entries.flatMap fun x => List.replicate (-x.2).toNat x.1

namespace Term

/-- The product above the fraction bar, without the sign: the magnitude of the
coefficient, which is left out if it is one and a quantity follows. -/
def numerator (t : Term) : Expr :=
  let magnitude : Expr := .number t.coefficient.natAbs
  match Expr.leftProduct? (t.powers.upper.map .quantity) with
  | none => magnitude
  | some e => if t.coefficient.natAbs = 1 then e else .product magnitude e

/-- The product below the fraction bar. -/
def denominator? (t : Term) : Option Expr :=
  Expr.leftProduct? (t.powers.lower.map .quantity)

/-- The term in plain nodes. -/
def toExpr (t : Term) : Expr :=
  let unsigned := match t.denominator? with
    | none => t.numerator
    | some d => .fraction t.numerator d
  if t.coefficient < 0 then .neg unsigned else unsigned

end Term

/-- The polynomial in plain nodes. -/
def Polynomial.toExpr (p : Polynomial) : Expr :=
  match p.terms.map Term.toExpr with
  | [] => .number 0
  | e :: es => es.foldl .sum e

namespace Expr

/-- Turns packed nodes into plain ones. -/
def unfold (e : Expr) : Expr := e.mapLeaves .quantity Term.toExpr Polynomial.toExpr

/-- Turns the packed nodes that mention `p` into plain ones. -/
def expose (p : Point) (e : Expr) : Expr :=
  e.mapLeaves .quantity
    (fun t => if (term t).mentions p then t.toExpr else term t)
    (fun q => if (polynomial q).mentions p then q.toExpr else polynomial q)

end Expr

end AreaMethod
