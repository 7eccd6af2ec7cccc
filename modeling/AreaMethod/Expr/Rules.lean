/-
# Simplification rules

One pass of simplification goes from the leaves to the root and changes each
node by the first rule that applies to it: zeros and ones disappear,
constants are folded, signs move outwards, nested fractions are flattened and
common factors cancelled.

Key definitions: `Expr.rational?`, `Expr.ofRat`, `Expr.negRule`,
`Expr.sumRule`, `Expr.productRule`, `Expr.fractionRule`, `Expr.simplifyStep`.
-/
import AreaMethod.Fault

namespace AreaMethod
namespace Expr

/-! ### Constants -/

/-- The value of a constant: an integer, a fraction of integers, or the
negation of a constant. -/
def rational? : Expr → Option Rat
  | number n => some (n : Rat)
  | fraction (number n) (number d) => if d = 0 then none else some (Rat.divInt n d)
  | neg e => e.rational?.map fun r => -r
  | _ => none

/-- A constant in lowest terms, with the sign in front. -/
def ofRat (r : Rat) : Expr :=
  if r.den = 1 then number r.num
  else if r.num < 0 then neg (fraction (number (-r.num)) (number r.den))
  else fraction (number r.num) (number r.den)

/-! ### Views of an operand -/

/-- The expression under a negation. -/
def negated? : Expr → Option Expr
  | neg e => some e
  | _ => none

/-- The magnitude of a negative number. -/
def magnitude? : Expr → Option Expr
  | number n => if n < 0 then some (number (-n)) else none
  | _ => none

/-- The numerator of a fraction over `d`. -/
def over? (e d : Expr) : Option Expr :=
  match e with
  | fraction n d' => if d' = d then some n else none
  | _ => none

/-- The other factor of a product of two with the factor `f`. -/
def cofactor? (e f : Expr) : Option Expr :=
  match e with
  | product a b => if b = f then some a else if a = f then some b else none
  | _ => none

/-- Takes one sign out of two operands: a negation on the left, a negation on
the right, or a negative number. -/
def signOut? (node : Expr → Expr → Expr) (a b : Expr) : Option Expr :=
  match a.negated? with
  | some x => some (node x b)
  | none =>
    match b.negated? with
    | some y => some (node a y)
    | none =>
      match a.magnitude? with
      | some x => some (node x b)
      | none => b.magnitude?.map (node a)

/-! ### Common factors -/

/-- The factors of a product, flattened from left to right. -/
def factors : Expr → List Expr
  | product a b => a.factors ++ b.factors
  | e => [e]

/-- The product of a list of factors from left to right. -/
def ofFactors (es : List Expr) : Expr := (leftProduct? es).getD 1

/-- Divides the first number among the factors, and `k`, by their greatest
common divisor if that is not one. -/
def cancelNumber? (k : Int) : List Expr → Option (List Expr × Int)
  | [] => none
  | number m :: rest =>
    if Int.gcd m k = 1 then none
    else some (number (m / Int.gcd m k) :: rest, k / Int.gcd m k)
  | e :: rest => (cancelNumber? k rest).map fun x => (e :: x.1, x.2)

/-- Removes from both lists the factors that they have in common. -/
def cancelCommon : List Expr → List Expr → List Expr × List Expr
  | [], den => ([], den)
  | f :: num, den =>
    if f ∈ den then cancelCommon num (den.erase f)
    else
      let rest := cancelCommon num den
      (f :: rest.1, rest.2)

/-- Cancels all factors that two products have in common. -/
def cancelProducts (n d : Expr) : Expr :=
  let rest := cancelCommon n.factors d.factors
  if rest.2.length = d.factors.length then fraction n d
  else fraction (ofFactors rest.1) (ofFactors rest.2)

/-- Cancels what numerator and denominator have in common: a whole operand
first, then a number, then single factors. -/
def cancelFactors (n d : Expr) : Expr :=
  match n.cofactor? d with
  | some e => e
  | none =>
    match d.cofactor? n with
    | some e => fraction 1 e
    | none =>
      match d with
      | number k =>
        match cancelNumber? k n.factors with
        | some x => fraction (ofFactors x.1) (number x.2)
        | none => fraction n d
      | product _ _ =>
        match n with
        | product _ _ => cancelProducts n d
        | _ => fraction n d
      | _ => fraction n d

/-! ### Rules by node -/

/-- Simplifies the negation of a simplified operand. -/
def negRule : Expr → Expr
  | number n => number (-n)
  | neg e => e
  | e => neg e

/-- Simplifies the sum of two operands that are not both constants. -/
def sumSigns : Expr → Expr → Expr
  | neg x, neg y => neg (sum x y)
  | a, neg y => if a = y then 0 else sum a (neg y)
  | neg x, b => if x = b then 0 else sum (neg x) b
  | a, b => sum a b

/-- Simplifies the sum of two simplified operands. -/
def sumRule (a b : Expr) : Expr :=
  if a.isZero then b
  else if b.isZero then a
  else
    match a.rational?, b.rational? with
    | some x, some y => ofRat (x + y)
    | _, _ => sumSigns a b

/-- Simplifies the product of two operands that are not both constants. -/
def productSigns (a b : Expr) : Expr :=
  match signOut? product a b with
  | some e => neg e
  | none =>
    match b.over? a with
    | some n => n
    | none => (a.over? b).getD (product a b)

/-- Simplifies the product of two simplified operands. -/
def productRule (a b : Expr) : Expr :=
  if a.isZero || b.isZero then 0
  else if a.isOne then b
  else if b.isOne then a
  else if a = number (-1) then neg b
  else if b = number (-1) then neg a
  else
    match a.rational?, b.rational? with
    | some x, some y => ofRat (x * y)
    | _, _ => productSigns a b

/-- Simplifies the fraction of two operands that are not both constants. -/
def fractionSigns (n d : Expr) : Expr :=
  match signOut? fraction n d with
  | some e => neg e
  | none =>
    match d with
    | fraction x y => fraction (product n y) x
    | _ =>
      match n with
      | fraction x y => fraction x (product y d)
      | _ => cancelFactors n d

/-- The quotient of two constants, if the second one is not zero. -/
def quotient? (n d : Expr) : Option Rat :=
  match n.rational?, d.rational? with
  | some x, some y => if y = 0 then none else some (x / y)
  | _, _ => none

/-- Simplifies the fraction of two simplified operands. -/
def fractionRule (n d : Expr) : Except Fault Expr :=
  if d.isZero then .error (.divisionByZero (fraction n d))
  else if n.isZero then .ok 0
  else if n = d then .ok 1
  else if d.isOne then .ok n
  else if d = number (-1) then .ok (neg n)
  else
    match quotient? n d with
    | some r => .ok (ofRat r)
    | none => .ok (fractionSigns n d)

/-- One pass of the rules from the leaves to the root. -/
def simplifyStep : Expr → Except Fault Expr
  | number n => .ok (number n)
  | quantity q => .ok (quantity q)
  | neg e => do return negRule (← e.simplifyStep)
  | sum a b => do return sumRule (← a.simplifyStep) (← b.simplifyStep)
  | product a b => do return productRule (← a.simplifyStep) (← b.simplifyStep)
  | fraction a b => do fractionRule (← a.simplifyStep) (← b.simplifyStep)
  | term t =>
    .ok (if t.isZero then 0 else if t.powers.isOne then number t.coefficient else term t)
  | polynomial p =>
    .ok (match p.constant? with
      | some n => number n
      | none => polynomial p)

end Expr
end AreaMethod
