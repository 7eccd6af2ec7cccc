/-
# Shortest decimals

A double is written with as few digits as still single it out: among the
decimals with the least number of digits that round to it, the nearest one is
taken, and of two equally near ones the even one.

A positive double has the value `m * 2 ^ q`. The reals that round to it form an
interval, whose ends belong to it if `m` is even. A decimal grid of a given
number of digits meets that interval only if one of the two grid points next to
the value lies in it, so these two are looked at for one digit, two digits, and
so on.

Key definitions: `RoundingInterval.ofBits`, `Decimal.shortest`, `Decimal.text`,
`Decimal.ofFloat?`.
-/
import AreaMethod.Decimal

namespace AreaMethod

/-- The reals that round to a positive double. -/
structure RoundingInterval where
  /-- The double itself. -/
  value : Rat
  lower : Rat
  upper : Rat
  /-- The ends round to the double too. -/
  closed : Bool

namespace RoundingInterval

/-- How many values the fraction of a double has; its exponent stands above. -/
def fractions : Nat := 1 <<< 52

/-- The interval of a finite positive double, given by its bits. Doubles are
half as dense above a power of two as below it. -/
def ofBits (bits : Nat) : RoundingInterval :=
  let fraction := bits % fractions
  let exponent := bits / fractions
  let m : Nat := if exponent = 0 then fraction else fractions + fraction
  let below : Nat := if fraction = 0 ∧ 1 < exponent then 1 else 2
  let scale : Rat := Rat.zpow 2 (((exponent - 1 : Nat) : Int) - 1076)
  ⟨(4 * m : Nat) * scale, (4 * m - below : Nat) * scale, (4 * m + 2 : Nat) * scale, m % 2 == 0⟩

/-- The number rounds to the double. -/
def contains (i : RoundingInterval) (r : Rat) : Bool :=
  if i.closed then i.lower ≤ r && r ≤ i.upper else i.lower < r && r < i.upper

end RoundingInterval

namespace Decimal

/-- The number of digits before the point of a positive number; not positive if
it is below one tenth. -/
def integerDigits (r : Rat) : Int :=
  let candidates := (List.range 700).map fun n : Nat => (n : Int) - 350
  (candidates.find? fun k => r < Rat.zpow 10 k).getD 350

/-- The grid point next to the value that lies in the interval and is nearer to
the value, for the grid of multiples of `10 ^ k`. -/
def onGrid? (i : RoundingInterval) (k : Int) : Option Decimal :=
  let unit := Rat.zpow 10 k
  let below : Nat := (i.value / unit).floor.toNat
  let toBelow := i.value - below * unit
  let toAbove := (below + 1 : Nat) * unit - i.value
  let takeBelow := toBelow < toAbove || (toBelow == toAbove && below % 2 == 0)
  match [below, below + 1].filter fun d : Nat => i.contains (d * unit) with
  | [d] => some ⟨d, k⟩
  | [] => none
  | _ => some ⟨if takeBelow then below else below + 1, k⟩

/-- Moves a trailing zero from the digits to the exponent, as often as the
first argument says and there is one. -/
def dropZeros : Nat → Decimal → Decimal
  | 0, d => d
  | n + 1, d =>
    if d.digits % 10 = 0 ∧ d.digits ≠ 0 then dropZeros n ⟨d.digits / 10, d.exponent + 1⟩ else d

/-- The decimal with the fewest digits that rounds to the double. Seventeen
digits are always enough. -/
def shortest (i : RoundingInterval) : Decimal :=
  let top := integerDigits i.value
  let found := (List.range 17).findSome? fun n : Nat => onGrid? i (top - (n + 1 : Nat))
  dropZeros 18 (found.getD ⟨0, 0⟩)

/-- The text of zeros. -/
def zeros (n : Nat) : String := String.ofList (List.replicate n '0')

/-- The text of a decimal: positional if the point falls into the first sixteen
digits or at most four zeros follow it, and otherwise with an exponent. A
positional text has at least one digit after the point. -/
def text (d : Decimal) : String :=
  let digits := toString d.digits
  let point := digits.length + d.exponent
  if 0 ≤ d.exponent ∧ point ≤ 16 then digits ++ zeros d.exponent.toNat ++ ".0"
  else if 0 < point ∧ point ≤ 16 then
    String.ofList (digits.toList.take point.toNat) ++ "." ++
      String.ofList (digits.toList.drop point.toNat)
  else if -5 < point ∧ point ≤ 0 then "0." ++ zeros (-point).toNat ++ digits
  else
    let rest := String.ofList (digits.toList.drop 1)
    String.ofList (digits.toList.take 1) ++ (if rest.isEmpty then "" else "." ++ rest) ++
      "e" ++ toString (point - 1)

/-- The shortest text of a finite double; a negative zero keeps its sign. -/
def ofFloat? (x : Float) : Option String :=
  let bits := x.toBits.toNat
  let magnitude := bits % (1 <<< 63)
  let sign := if bits = magnitude then "" else "-"
  if magnitude = 0 then some (sign ++ "0.0")
  else if magnitude / RoundingInterval.fractions = 0x7FF then none
  else some (sign ++ text (shortest (.ofBits magnitude)))

end Decimal
end AreaMethod
