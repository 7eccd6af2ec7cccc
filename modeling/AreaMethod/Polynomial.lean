/-
# Products of quantities and polynomials

`Powers` is a product of quantities with non-zero integer exponents, a `Term`
is such a product with an integer coefficient, and a `Polynomial` is a sum of
terms with distinct powers and non-zero coefficients. Exponents may be
negative; a term or polynomial without negative exponents is called integral.

Products are put together with exact exponents. Where powers of one quantity
that are already there are merged (`Powers.mergePower`), and in the degree of a
product (`Powers.degree`), the sum is taken in 32 bits and wraps around.

Powers and polynomials are sparse functions, so equal contents are equal
values, and the entries are always in the same order.

Key definitions: `Powers`, `Powers.mergePower`, `Term`, `Polynomial`,
`Polynomial.mul`, `Polynomial.normalized`.
-/
import AreaMethod.Quantity
import AreaMethod.Sparse

namespace AreaMethod

/-- A product of quantities: each quantity with its exponent. -/
abbrev Powers := Sparse Quantity

namespace Powers

/-- The empty product. -/
def one : Powers := Sparse.zero

/-- Multiplies by a power of a quantity. -/
def timesPower (p : Powers) (q : Quantity) (exponent : Int) : Powers :=
  p + Sparse.single q exponent

/-- Multiplies by a power of a quantity. If the quantity occurs already, the two
exponents are added as 32-bit integers. -/
def mergePower (p : Powers) (q : Quantity) (exponent : Int) : Powers :=
  if p.get q = 0 then p.timesPower q exponent
  else p.timesPower q ((Int32.ofInt (p.get q) + Int32.ofInt exponent).toInt - p.get q)

/-- No quantity is left. -/
def isOne (p : Powers) : Bool := p.isZero

/-- The sum of the exponents, added as 32-bit integers. -/
def degree (p : Powers) : Int := (p.entries.foldl (fun n x => n + Int32.ofInt x.2) 0).toInt

/-- Every exponent is positive. -/
def isIntegral (p : Powers) : Bool := p.entries.all fun x => decide (0 < x.2)

/-- The quantities, in order. -/
def quantities (p : Powers) : List Quantity := p.entries.map Prod.fst

/-- The text of a quantity with its exponent; the exponent one is not
written. -/
def powerText (q : Quantity) (exponent : Int) : String :=
  if exponent = 1 then q.text else s!"(^ {q.text} {exponent})"

/-- The powers one after the other, separated by blanks. -/
def text (p : Powers) : String :=
  " ".intercalate (p.entries.map fun x => powerText x.1 x.2)

end Powers

/-- A product of quantities with an integer coefficient, which may be zero. -/
structure Term where
  coefficient : Int
  powers : Powers
deriving DecidableEq, Inhabited

namespace Term

/-- The term without quantities. -/
def constant (n : Int) : Term := ⟨n, Powers.one⟩

/-- The term that is a single quantity. -/
def ofQuantity (q : Quantity) : Term := ⟨1, Powers.one.timesPower q 1⟩

/-- The coefficient is zero. -/
def isZero (t : Term) : Bool := t.coefficient == 0

/-- No exponent is negative. -/
def isIntegral (t : Term) : Bool := t.powers.isIntegral

/-- Multiplies coefficients and adds exponents. -/
def mul (s t : Term) : Term := ⟨s.coefficient * t.coefficient, s.powers + t.powers⟩

instance : Mul Term := ⟨mul⟩

/-- The text of a term: the coefficient alone, a single power alone, or
`(* coefficient power ...)`. -/
def text (t : Term) : String :=
  if t.powers.isOne then toString t.coefficient
  else if t.coefficient = 1 ∧ t.powers.size = 1 then t.powers.text
  else s!"(* {t.coefficient} {t.powers.text})"

end Term

/-- A sum of terms with distinct powers: each product of quantities with its
coefficient. -/
abbrev Polynomial := Sparse Powers

namespace Polynomial

/-- The empty sum. -/
def zero : Polynomial := Sparse.zero

/-- The polynomial with one term, or with none if the term is zero. -/
def ofTerm (t : Term) : Polynomial := Sparse.single t.powers t.coefficient

/-- The polynomial without quantities. -/
def constant (n : Int) : Polynomial := ofTerm (.constant n)

/-- Adds a term. -/
def addTerm (p : Polynomial) (t : Term) : Polynomial := p + ofTerm t

/-- The terms, in order. -/
def terms (p : Polynomial) : List Term := p.entries.map fun x => ⟨x.2, x.1⟩

/-- Changes the sign of every coefficient. -/
def neg (p : Polynomial) : Polynomial := p.mapValues fun n => -n

instance : Neg Polynomial := ⟨neg⟩

/-- Multiplies every term by every term. -/
def mul (p q : Polynomial) : Polynomial :=
  Sparse.sumMap (fun s => Sparse.sumMap (fun t => ofTerm (s * t)) q.terms) p.terms

instance : Mul Polynomial := ⟨mul⟩

/-- No exponent is negative. -/
def isIntegral (p : Polynomial) : Bool := p.terms.all Term.isIntegral

/-- The value of a polynomial without quantities. -/
def constant? (p : Polynomial) : Option Int :=
  match p.entries with
  | [] => some 0
  | [(powers, n)] => if powers.isOne then some n else none
  | _ => none

/-- The greatest common divisor of the coefficients. -/
def content (p : Polynomial) : Nat := p.entries.foldl (fun g x => Nat.gcd g x.2.natAbs) 0

/-- The coefficient of the last term is negative. -/
def leadsNegative (p : Polynomial) : Bool :=
  match p.entries.getLast? with
  | none => false
  | some x => decide (x.2 < 0)

/-- Divides the coefficients by their greatest common divisor and makes the
last one positive. -/
def normalized (p : Polynomial) : Polynomial :=
  let divisor : Int := if p.leadsNegative then -p.content else p.content
  p.mapValues fun n => n / divisor

/-- Number of nodes: one for the sum, one for each term and one for each
power. -/
def nodes (p : Polynomial) : Nat := p.entries.foldl (fun n x => n + (1 + x.1.size)) 1

/-- The text of a polynomial: `0`, a single term, or `(+ term term ...)`. -/
def text (p : Polynomial) : String :=
  match p.terms with
  | [] => "0"
  | [t] => t.text
  | ts => "(+ " ++ " ".intercalate (ts.map Term.text) ++ ")"

end Polynomial
end AreaMethod
