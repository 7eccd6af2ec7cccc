/-
# Writing JSON

A value is written on one line without blanks, or over several lines with two
blanks a level. Inside strings, quotes, backslashes and control characters are
escaped and nothing else is.

Key definitions: `Json.quoted`, `Json.compact`, `Json.pretty`.
-/
import AreaMethod.Json

namespace AreaMethod
namespace Json

/-- The escape of a control character, with its code in hexadecimal. -/
def controlEscape (n : Nat) : String :=
  "\\u00" ++ String.ofList [Nat.digitChar (n / 16), Nat.digitChar (n % 16)]

/-- A character as it is written inside a string. -/
def charText (c : Char) : String :=
  if c = '"' then "\\\""
  else if c = '\\' then "\\\\"
  else if c = '\n' then "\\n"
  else if c = '\r' then "\\r"
  else if c = '\t' then "\\t"
  else if c.toNat = 8 then "\\b"
  else if c.toNat = 12 then "\\f"
  else if c.toNat < 0x20 then controlEscape c.toNat
  else String.singleton c

/-- A string in quotes. -/
def quoted (s : String) : String :=
  "\"" ++ String.join (s.toList.map charText) ++ "\""

/-- The text of a value that is neither an array nor an object. -/
def scalarText : Json → String
  | bool true => "true"
  | bool false => "false"
  | number literal => literal
  | string s => quoted s
  | _ => "null"

mutual

/-- The text of a value on one line. -/
def compact : Json → String
  | array js => "[" ++ ",".intercalate (compactItems js) ++ "]"
  | object members => "\x7b" ++ ",".intercalate (compactMembers members) ++ "\x7d"
  | j => scalarText j

/-- The texts of the items of an array. -/
def compactItems : List Json → List String
  | [] => []
  | j :: js => compact j :: compactItems js

/-- The texts of the members of an object. -/
def compactMembers : List (String × Json) → List String
  | [] => []
  | (name, j) :: members => (quoted name ++ ":" ++ compact j) :: compactMembers members

end

/-- Lines between brackets, indented by two blanks more than the brackets. -/
def block (level : Nat) (left right : String) (lines : List String) : String :=
  if lines.isEmpty then left ++ right
  else
    let indent := "\n" ++ String.ofList (List.replicate (2 * level) ' ')
    left ++ indent ++ "  " ++ ("," ++ indent ++ "  ").intercalate lines ++ indent ++ right

mutual

/-- The text of a value over several lines. -/
def prettyAt (level : Nat) : Json → String
  | array js => block level "[" "]" (prettyItems (level + 1) js)
  | object members => block level "\x7b" "\x7d" (prettyMembers (level + 1) members)
  | j => scalarText j

/-- The texts of the items of an array. -/
def prettyItems (level : Nat) : List Json → List String
  | [] => []
  | j :: js => prettyAt level j :: prettyItems level js

/-- The texts of the members of an object. -/
def prettyMembers (level : Nat) : List (String × Json) → List String
  | [] => []
  | (name, j) :: members =>
    (quoted name ++ ": " ++ prettyAt level j) :: prettyMembers level members

end

/-- The text of a value over several lines, without a line end at its end. -/
def pretty (j : Json) : String := prettyAt 0 j

end Json
end AreaMethod
