/-
# One single fraction

Every expression is brought to one fraction whose numerator and denominator
have no fractions inside. `Fractional` is the intermediate form, a numerator with a
denominator that may be absent, and has the four operations.

Key definitions: `Fractional`, `Expr.toFractional`, `Expr.singleFraction`,
`Expr.numDen`.
-/
import AreaMethod.Fault

namespace AreaMethod

/-- A numerator and a denominator, which is one if absent. -/
structure Fractional where
  num : Expr
  den? : Option Expr
deriving DecidableEq

namespace Fractional

/-- An expression over one. -/
def ofExpr (e : Expr) : Fractional := ⟨e, none⟩

/-- Multiplies an expression by a factor that may be absent. -/
def scale (e : Expr) : Option Expr → Expr
  | none => e
  | some f => .product e f

/-- The product of two denominators. -/
def mulDen : Option Expr → Option Expr → Option Expr
  | none, d => d
  | d, none => d
  | some c, some d => some (.product c d)

/-- Changes the sign. -/
def neg (x : Fractional) : Fractional := ⟨.neg x.num, x.den?⟩

/-- Adds over a common denominator. Equal denominators stay as they are. -/
def add (x y : Fractional) : Fractional :=
  match x.den?, y.den? with
  | none, none => ⟨.sum x.num y.num, none⟩
  | some c, none => ⟨.sum x.num (.product y.num c), some c⟩
  | none, some d => ⟨.sum (.product x.num d) y.num, some d⟩
  | some c, some d =>
    if c = d then ⟨.sum x.num y.num, some c⟩
    else ⟨.sum (.product x.num d) (.product y.num c), some (.product c d)⟩

/-- Multiplies numerators and denominators. -/
def mul (x y : Fractional) : Fractional := ⟨.product x.num y.num, mulDen x.den? y.den?⟩

/-- Divides by multiplying crosswise. -/
def div (x y : Fractional) : Fractional := ⟨scale x.num y.den?, some (scale y.num x.den?)⟩

end Fractional

/-- A term as a numerator over a denominator. -/
def Term.toFractional (t : Term) : Fractional :=
  let x : Fractional := ⟨t.numerator, t.denominator?⟩
  if t.coefficient < 0 then x.neg else x

/-- A polynomial as a numerator over a denominator, added up from left to
right. -/
def Polynomial.toFractional (p : Polynomial) : Fractional :=
  match p.terms.map Term.toFractional with
  | [] => .ofExpr 0
  | x :: xs => xs.foldl Fractional.add x

namespace Expr

/-- Numerator and denominator of an expression. Packed nodes without negative
exponents are not taken apart. Fails at a fraction whose denominator is
visibly zero. -/
def toFractional : Expr → Except Fault Fractional
  | number n => .ok (.ofExpr (number n))
  | quantity q => .ok (.ofExpr (quantity q))
  | neg e => do return (← e.toFractional).neg
  | sum a b => do return (← a.toFractional).add (← b.toFractional)
  | product a b => do return (← a.toFractional).mul (← b.toFractional)
  | fraction a b => do
    let x ← a.toFractional
    let y ← b.toFractional
    if y.num.isZero then .error (.divisionByZero (fraction a b)) else .ok (x.div y)
  | term t => .ok (if t.isIntegral then .ofExpr (term t) else t.toFractional)
  | polynomial p => .ok (if p.isIntegral then .ofExpr (polynomial p) else p.toFractional)

/-- Brings an expression to the form of one fraction, or of none. -/
def singleFraction (e : Expr) : Except Fault Expr := do
  let x ← e.toFractional
  match x.den? with
  | none => return x.num
  | some d => if d.isZero then .error (.divisionByZero e) else return fraction x.num d

/-- Numerator and denominator of a fraction; signs in front of it go into the
numerator. -/
def numDen : Expr → Expr × Expr
  | fraction a b => (a, b)
  | neg e =>
    let x := e.numDen
    (neg x.1, x.2)
  | e => (e, 1)

end Expr
end AreaMethod
