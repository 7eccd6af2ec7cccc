/-
# Tokens of JSON text

A JSON text is cut into tokens: brackets, commas, colons, and the scalar
values between them. The characters are gone over once. The state, `Scan`,
holds the finished tokens in reverse and what is known of an unfinished one.

A string is collected as code points. An escape with four hexadecimal digits
may stand for half of a surrogate pair; the halves are joined at the end of
the string.

Key definitions: `Json.Token`, `Json.Scan.step`, `Json.tokens?`.
-/
import AreaMethod.Json

namespace AreaMethod
namespace Json

/-- A token of a JSON text. -/
inductive Token where
  | openArray
  | closeArray
  | openObject
  | closeObject
  | comma
  | colon
  /-- A value that is neither an array nor an object. -/
  | scalar (value : Json)

/-! ### Numbers and words -/

/-- Drops decimal digits, of which there must be at least one. -/
def dropDigits? (cs : List Char) : Option (List Char) :=
  match cs with
  | c :: _ => if c.isDigit then some (cs.dropWhile Char.isDigit) else none
  | [] => none

/-- Drops the integer part of a number, which has no leading zeros. -/
def dropInteger? : List Char → Option (List Char)
  | '0' :: cs => some cs
  | cs => dropDigits? cs

/-- Drops the part of a number after its point, if it has one. -/
def dropPlaces? : List Char → Option (List Char)
  | '.' :: cs => dropDigits? cs
  | cs => some cs

/-- Drops the sign of an exponent. -/
def dropSign : List Char → List Char
  | '+' :: cs => cs
  | '-' :: cs => cs
  | cs => cs

/-- Drops the exponent of a number, if it has one. -/
def dropPower? : List Char → Option (List Char)
  | 'e' :: cs => dropDigits? (dropSign cs)
  | 'E' :: cs => dropDigits? (dropSign cs)
  | cs => some cs

/-- The characters make up a number. -/
def isNumber (cs : List Char) : Bool :=
  let unsigned := match cs with
    | '-' :: cs => cs
    | cs => cs
  ((dropInteger? unsigned).bind dropPlaces?).bind dropPower? == some []

/-- The value of a number or word. -/
def literal? (cs : List Char) : Option Json :=
  if cs = "null".toList then some null
  else if cs = "true".toList then some (bool true)
  else if cs = "false".toList then some (bool false)
  else if isNumber cs then some (number (String.ofList cs))
  else none

/-- The character may stand in a number or word. -/
def inLiteral (c : Char) : Bool := c.isAlphanum || c == '+' || c == '-' || c == '.'

/-! ### Strings -/

/-- The first half of a surrogate pair. -/
def isHighHalf (n : Nat) : Bool := 0xD800 ≤ n && n ≤ 0xDBFF

/-- The second half of a surrogate pair. -/
def isLowHalf (n : Nat) : Bool := 0xDC00 ≤ n && n ≤ 0xDFFF

/-- The text of code points in which surrogate pairs stand as two halves. -/
def joinHalves : List Nat → Option (List Char)
  | [] => some []
  | [n] => if isHighHalf n || isLowHalf n then none else some [Char.ofNat n]
  | h :: l :: ns =>
    if isHighHalf h && isLowHalf l then
      (joinHalves ns).map (Char.ofNat (0x10000 + (h - 0xD800) * 0x400 + (l - 0xDC00)) :: ·)
    else if isHighHalf h || isLowHalf h then none
    else (joinHalves (l :: ns)).map (Char.ofNat h :: ·)

/-- The string with the given code points. -/
def ofUnits (units : List Nat) : Json :=
  match joinHalves units with
  | some cs => string (String.ofList cs)
  | none => torn

/-- The code point of an escape of one character. -/
def escaped? (c : Char) : Option Nat :=
  if c = '"' ∨ c = '\\' ∨ c = '/' then some c.toNat
  else if c = 'b' then some 8
  else if c = 'f' then some 12
  else if c = 'n' then some 10
  else if c = 'r' then some 13
  else if c = 't' then some 9
  else none

/-- The value of a hexadecimal digit. -/
def hexDigit? (c : Char) : Option Nat :=
  if '0' ≤ c ∧ c ≤ '9' then some (c.toNat - '0'.toNat)
  else if 'a' ≤ c ∧ c ≤ 'f' then some (c.toNat - 'a'.toNat + 10)
  else if 'A' ≤ c ∧ c ≤ 'F' then some (c.toNat - 'A'.toNat + 10)
  else none

/-! ### Scanning -/

/-- How far a text has been cut into tokens. The finished tokens, the
characters of a number or word and the code points of a string are all in
reverse. -/
inductive Scan where
  /-- Between two tokens. -/
  | between (done : List Token)
  /-- Inside a number or word. -/
  | literal (chars : List Char) (done : List Token)
  /-- Inside a string. -/
  | text (units : List Nat) (done : List Token)
  /-- After a backslash. -/
  | escape (units : List Nat) (done : List Token)
  /-- Inside an escape with hexadecimal digits, some of which are missing. -/
  | hex (units : List Nat) (value missing : Nat) (done : List Token)
  /-- The text is not well formed. -/
  | failed

namespace Scan

/-- A character between two tokens. -/
def start (c : Char) (done : List Token) : Scan :=
  if c = ' ' ∨ c = '\t' ∨ c = '\n' ∨ c = '\r' then between done
  else if c = '[' then between (.openArray :: done)
  else if c = ']' then between (.closeArray :: done)
  else if c = '\x7b' then between (.openObject :: done)
  else if c = '\x7d' then between (.closeObject :: done)
  else if c = ',' then between (.comma :: done)
  else if c = ':' then between (.colon :: done)
  else if c = '"' then text [] done
  else if inLiteral c then literal [c] done
  else failed

/-- The tokens up to and with a number or word. -/
def finishLiteral (chars : List Char) (done : List Token) : Option (List Token) :=
  (literal? chars.reverse).map fun j => .scalar j :: done

/-- One character of the text. -/
def step : Scan → Char → Scan
  | between done, c => start c done
  | literal chars done, c =>
    if inLiteral c then literal (c :: chars) done
    else match finishLiteral chars done with
      | some done => start c done
      | none => failed
  | text units done, c =>
    if c = '"' then between (.scalar (ofUnits units.reverse) :: done)
    else if c = '\\' then escape units done
    else if c.toNat < 0x20 then failed
    else text (c.toNat :: units) done
  | escape units done, c =>
    if c = 'u' then hex units 0 4 done
    else match escaped? c with
      | some n => text (n :: units) done
      | none => failed
  | hex units value missing done, c =>
    match hexDigit? c with
    | none => failed
    | some d =>
      if missing = 1 then text ((16 * value + d) :: units) done
      else hex units (16 * value + d) (missing - 1) done
  | failed, _ => failed

/-- The tokens, if the text may end here. -/
def finish : Scan → Option (List Token)
  | between done => some done.reverse
  | literal chars done => (finishLiteral chars done).map List.reverse
  | _ => none

end Scan

/-- The tokens of a JSON text, if it can be cut into tokens. -/
def tokens? (s : String) : Option (List Token) :=
  (s.toList.foldl Scan.step (.between [])).finish

end Json
end AreaMethod
