/-
# Numerals

Reading integers from text. A literal may have underscores between its
digits; an exponent is a plain signed 32-bit integer; a size or seed is an
unsigned 64-bit integer.

Key definitions: `Text.integer?`, `Text.exponent?`, `Text.word?`.
-/

namespace AreaMethod
namespace Text

/-- Reads decimal digits, at least one; nothing else may stand between
them. -/
def digits? : List Char → Option Nat
  | [] => none
  | cs => cs.foldl (fun n c => n.bind fun n =>
      if '0' ≤ c ∧ c ≤ '9' then some (10 * n + (c.toNat - '0'.toNat)) else none) (some 0)

/-- Reads decimal digits that do not start with an underscore and may have
underscores anywhere else. -/
def groupedDigits? : List Char → Option Nat
  | '_' :: _ => none
  | cs => digits? (cs.filter (· ≠ '_'))

/-- Drops one leading plus sign, unless a second one follows. -/
def dropPlus : List Char → List Char
  | '+' :: '+' :: cs => '+' :: '+' :: cs
  | '+' :: cs => cs
  | cs => cs

/-- Reads an integer literal: an optional sign, then digits which may be
grouped by underscores. -/
def integer? : List Char → Option Int
  | '-' :: '+' :: _ => none
  | '-' :: cs => (groupedDigits? cs).map fun n => -(n : Int)
  | cs => (groupedDigits? (dropPlus cs)).map fun n => (n : Int)

/-- Reads an exponent: an optional sign and digits, within 32 bits. -/
def exponent? : List Char → Option Int
  | '-' :: cs => (digits? cs).bind fun n => if n ≤ 0x80000000 then some (-(n : Int)) else none
  | '+' :: cs => (digits? cs).bind fun n => if n < 0x80000000 then some (n : Int) else none
  | cs => (digits? cs).bind fun n => if n < 0x80000000 then some (n : Int) else none

/-- Reads an unsigned 64-bit number: digits after an optional plus sign. -/
def word? : List Char → Option Nat
  | '+' :: cs => (digits? cs).bind fun n => if n < 0x10000000000000000 then some n else none
  | cs => (digits? cs).bind fun n => if n < 0x10000000000000000 then some n else none

end Text
end AreaMethod
