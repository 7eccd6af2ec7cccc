/-
# Reading JSON

The tokens of a text are put together to one value. The state, `Build`, holds
the arrays and objects that are still open, innermost first, and says what may
follow. A name without a text is well formed, and makes its object `torn`.

Key definitions: `Json.ofMembers`, `Json.Build.step`, `Json.read?`.
-/
import AreaMethod.Json.Token

namespace AreaMethod
namespace Json

/-- The object with the given members, whose names must all have a text. -/
def ofMembers (members : List (Option String × Json)) : Json :=
  match members.mapM fun (name, j) => name.map (·, j) with
  | some members => object members
  | none => torn

/-- An open array or object that waits for its next value; what it holds
already is in reverse. The name of a member may be without a text. -/
inductive Pending where
  | item (done : List Json)
  | member (done : List (Option String × Json)) (name : Option String)

/-- How far a value has been put together. -/
inductive Build where
  /-- A value must follow. -/
  | value (outer : List Pending)
  /-- A value or the end of an empty array must follow. -/
  | firstItem (outer : List Pending)
  /-- A name or the end of an empty object must follow. -/
  | firstName (outer : List Pending)
  /-- A name must follow. -/
  | name (done : List (Option String × Json)) (outer : List Pending)
  /-- The colon after a name must follow. -/
  | colon (done : List (Option String × Json)) (name : Option String) (outer : List Pending)
  /-- An item of an array is complete. -/
  | afterItem (done : List Json) (outer : List Pending)
  /-- A member of an object is complete. -/
  | afterMember (done : List (Option String × Json)) (outer : List Pending)
  /-- The value is complete. -/
  | finished (j : Json)
  /-- The text is not well formed. -/
  | failed

namespace Build

/-- Hands a complete value to the innermost open array or object. -/
def deliver (j : Json) : List Pending → Build
  | [] => finished j
  | .item done :: outer => afterItem (j :: done) outer
  | .member done s :: outer => afterMember ((s, j) :: done) outer

/-- The first token of a value. -/
def start (outer : List Pending) : Token → Build
  | .openArray => firstItem outer
  | .openObject => firstName outer
  | .scalar j => deliver j outer
  | _ => failed

/-- One token of the text. -/
def step : Build → Token → Build
  | value outer, t => start outer t
  | firstItem outer, .closeArray => deliver (array []) outer
  | firstItem outer, t => start (.item [] :: outer) t
  | firstName outer, .closeObject => deliver (object []) outer
  | firstName outer, .scalar (string s) => colon [] (some s) outer
  | firstName outer, .scalar torn => colon [] none outer
  | name done outer, .scalar (string s) => colon done (some s) outer
  | name done outer, .scalar torn => colon done none outer
  | colon done s outer, .colon => value (.member done s :: outer)
  | afterItem done outer, .comma => value (.item done :: outer)
  | afterItem done outer, .closeArray => deliver (array done.reverse) outer
  | afterMember done outer, .comma => name done outer
  | afterMember done outer, .closeObject => deliver (ofMembers done.reverse) outer
  | _, _ => failed

end Build

/-- Reads a text that holds one JSON value and white space around it. -/
def read? (s : String) : Option Json :=
  (tokens? s).bind fun ts =>
    match ts.foldl Build.step (.value []) with
    | .finished j => some j
    | _ => none

end Json
end AreaMethod
