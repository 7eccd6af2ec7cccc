/-
# JSON values

Problems and reports are stored as JSON. A number is kept as it is written,
and an object keeps its members in order, repeated names included, so that a
form can refuse them.

Key definitions: `Json`, `Json.field?`, `Json.fields?`, `Json.tagged?`,
`Json.decimal`, `Json.storable`.
-/
import AreaMethod.Decimal
import AreaMethod.Text.Numeral

namespace AreaMethod

/-- A JSON value. -/
inductive Json where
  | null
  | bool (value : Bool)
  /-- A number, as it is written. -/
  | number (literal : String)
  | string (value : String)
  /-- A string in which half of a surrogate pair stands alone, or an object
  with such a name: it is well formed, and has no text. -/
  | torn
  | array (items : List Json)
  | object (members : List (String × Json))
deriving Inhabited

namespace Json

/-- The number with the given integer value. -/
def int (n : Int) : Json := number (toString n)

/-- The number with the given natural value. -/
def nat (n : Nat) : Json := number (toString n)

/-- The string, if the value is one. -/
def string? : Json → Option String
  | string s => some s
  | _ => none

/-- The items, if the value is an array. -/
def items? : Json → Option (List Json)
  | array js => some js
  | _ => none

/-! ### Records

A record is written as an object, in which every field stands exactly once
and other members are ignored, or as the array of its fields in order. A
tagged record has its tag as the member `kind`, or in front of the array. -/

/-- The member of the given name, if there is exactly one. -/
def member? (name : String) (members : List (String × Json)) : Option Json :=
  match members.filter (·.1 == name) with
  | [(_, j)] => some j
  | _ => none

/-- The fields of a record with the given field names. -/
def fields? (names : List String) : Json → Option (List Json)
  | object members => names.mapM (member? · members)
  | array js => if js.length = names.length then some js else none
  | _ => none

/-- The tag of a tagged record, and the record without it. -/
def tagged? : Json → Option (String × Json)
  | object members => do
    let tag ← member? "kind" members
    return (← tag.string?, object members)
  | array (tag :: js) => do return (← tag.string?, array js)
  | _ => none

/-- The fields of a record whose fields are all strings. -/
def strings? (names : List String) (j : Json) : Option (List String) := do
  (← j.fields? names).mapM string?

/-- The tagged record with the given fields. -/
def record (tag : String) (fields : List (String × Json)) : Json :=
  object (("kind", string tag) :: fields)

/-! ### Storable values

A value that is held in memory before its form is known must not be nested too
deeply, must have a text wherever it has a string, and must not have a number
beyond the range of double precision. -/

/-- The decimal of a number as it is written. The sign is left out. -/
def decimal (literal : String) : Decimal :=
  let isMark := fun c => c == 'e' || c == 'E'
  let mantissa := literal.toList.takeWhile (!isMark ·)
  let power := literal.toList.dropWhile (!isMark ·)
  let size := (Text.digits? (power.filter Char.isDigit)).getD 0
  .ofNumeral ((mantissa.takeWhile (· ≠ '.')).filter Char.isDigit)
    ((mantissa.dropWhile (· ≠ '.')).filter Char.isDigit)
    (if power.contains '-' then -(size : Int) else size)

mutual

/-- The value can be held, with at most `levels` arrays and objects nested in
each other. -/
def storable (levels : Nat) : Json → Bool
  | torn => false
  | number literal => (decimal literal).inDoubleRange
  | array js => match levels with
    | 0 => false
    | levels + 1 => storableItems levels js
  | object members => match levels with
    | 0 => false
    | levels + 1 => storableMembers levels members
  | _ => true

/-- All items can be held. -/
def storableItems (levels : Nat) : List Json → Bool
  | [] => true
  | j :: js => storable levels j && storableItems levels js

/-- The values of all members can be held. -/
def storableMembers (levels : Nat) : List (String × Json) → Bool
  | [] => true
  | (_, j) :: members => storable levels j && storableMembers levels members

end

end Json
end AreaMethod
