/-
# Decimals

A decimal is a natural number times a power of ten. A written number is taken
as a decimal of which 64 bits hold the digits: its leading digits are kept, and
digits beyond them only count for the exponent.

The value of a decimal in double precision is the product of its digits and its
power of ten, where both factors and the product are rounded to the nearest
double. A decimal without a negative exponent may be too large for that; a
quotient by a power of ten never is.

Key definitions: `Decimal`, `Decimal.ofNumeral`, `Decimal.toDouble`,
`Decimal.inDoubleRange`.
-/

namespace AreaMethod

/-- The number `digits * 10 ^ exponent`. -/
structure Decimal where
  digits : Nat
  exponent : Int
deriving DecidableEq

namespace Decimal

/-! ### Leading digits -/

/-- Appends digits to a number for as long as it fits in 64 bits. Gives the
number and the digits that are left over. -/
def appendDigits : Nat → List Char → Nat × List Char
  | n, [] => (n, [])
  | n, c :: cs =>
    let longer := 10 * n + (c.toNat - '0'.toNat)
    if longer < 0x10000000000000000 then appendDigits longer cs else (n, c :: cs)

/-- The decimal of a written number, given by its digits before the point, its
digits after the point, and its exponent. A digit before the point that is left
over raises the exponent, and a digit after the point that is kept lowers it. -/
def ofNumeral (whole places : List Char) (power : Int) : Decimal :=
  let (n, beyond) := appendDigits 0 whole
  let (n, lost) := appendDigits n places
  ⟨n, power + beyond.length - (places.length - lost.length : Nat)⟩

/-! ### Double precision -/

/-- The natural number rounded to 53 binary digits; a half goes to the even
neighbour. -/
def toDouble (n : Nat) : Nat :=
  let bits := n.log2 - 52
  let kept := n >>> bits
  let rest := n - (kept <<< bits)
  let rounded :=
    if 2 * rest < 1 <<< bits then kept
    else if 1 <<< bits < 2 * rest then kept + 1
    else kept + kept % 2
  rounded <<< bits

/-- The least natural number that rounds to a double beyond the finite ones. -/
def doubleBound : Nat := (1 <<< 1024) - (1 <<< 970)

/-- The largest exponent for which a power of ten is a finite double. -/
def exponentLimit : Nat := 308

/-- The value of the decimal in double precision is finite. -/
def inDoubleRange (d : Decimal) : Bool :=
  d.digits == 0 || d.exponent < 0 ||
    (d.exponent ≤ exponentLimit &&
      toDouble d.digits * toDouble (Nat.pow 10 d.exponent.toNat) < doubleBound)

end Decimal
end AreaMethod
