/-
# S-expressions

Texts are read as s-expressions: atoms, bare or in quotes, and lists in
parentheses. One expression is read, and whatever follows it is ignored.

The reader goes over the characters once. Its state, `Progress`, holds the
lists that are still open, innermost first, each with its items in reverse,
and the characters of an unfinished atom, also in reverse.

Key definitions: `SExpr`, `SExpr.text`, `SExpr.step`, `SExpr.read`.
-/
import AreaMethod.Text.Blank

namespace AreaMethod

/-- An atom or a list. -/
inductive SExpr where
  | atom (name : String)
  | list (items : List SExpr)
deriving Inhabited

namespace SExpr

/-! ### Text -/

/-- The atom must be quoted to be read back as one atom. -/
def needsQuotes (name : String) : Bool :=
  name.isEmpty || name.toList.any fun c => "()\x7b\x7d% \t".toList.contains c

/-- The text of an atom. -/
def atomText (name : String) : String :=
  if needsQuotes name then "\"" ++ name ++ "\"" else name

mutual

/-- The text of an s-expression. -/
def text : SExpr → String
  | atom name => atomText name
  | list items => "(" ++ " ".intercalate (texts items) ++ ")"

/-- The texts of a list of s-expressions. -/
def texts : List SExpr → List String
  | [] => []
  | e :: es => text e :: texts es

end

/-! ### Reading -/

/-- What is wrong with the layout of a text. -/
inductive Cause where
  /-- The text ends inside a list or a quoted atom. -/
  | endOfText
  /-- A closing parenthesis stands where an expression must start. -/
  | strayClose
deriving DecidableEq

/-- A fault in the layout of a text, with the line and column where reading
stopped. -/
structure LayoutError where
  cause : Cause
  line : Nat
  column : Nat
deriving DecidableEq

/-- How far the reader has come. -/
inductive Progress where
  /-- Between two expressions. -/
  | between (pending : List (List SExpr))
  /-- Inside a bare atom. -/
  | bare (chars : List Char) (pending : List (List SExpr))
  /-- Inside a quoted atom. -/
  | quoted (chars : List Char) (pending : List (List SExpr))
  /-- The expression is complete. -/
  | finished (e : SExpr)
  /-- A closing parenthesis stood where the expression must start. -/
  | stray

/-- The atom whose characters were collected in reverse. -/
def ofReversed (chars : List Char) : SExpr := atom (String.ofList chars.reverse)

/-- Hands a complete expression to the innermost open list. -/
def deliver (e : SExpr) : List (List SExpr) → Progress
  | [] => .finished e
  | items :: outer => .between ((e :: items) :: outer)

/-- The first character of an expression. -/
def start (c : Char) (pending : List (List SExpr)) : Progress :=
  if c = '(' then .between ([] :: pending)
  else if c = '"' then .quoted [] pending
  else .bare [c] pending

/-- A character between two expressions. Line ends are skipped inside a list
only. -/
def stepBetween (c : Char) : List (List SExpr) → Progress
  | [] =>
    if c = ' ' ∨ c = '\t' then .between []
    else if c = ')' then .stray
    else start c []
  | items :: outer =>
    if c = ' ' ∨ c = '\t' ∨ c = '\r' ∨ c = '\n' then .between (items :: outer)
    else if c = ')' then deliver (list items.reverse) outer
    else start c (items :: outer)

/-- The character ends a bare atom that stands before it. -/
def endsBare (c : Char) : Bool := c == ' ' || c == '(' || c == ')' || c == '\r' || c == '\n'

/-- One character of the text. A quote that directly follows a backslash does
not end a quoted atom. -/
def step : Progress → Char → Progress
  | .between pending, c => stepBetween c pending
  | .bare chars pending, c =>
    if endsBare c then
      match deliver (ofReversed chars) pending with
      | .between pending => stepBetween c pending
      | progress => progress
    else .bare (c :: chars) pending
  | .quoted chars pending, c =>
    if c = '"' ∧ chars.head? ≠ some '\\' then deliver (ofReversed chars) pending
    else .quoted (c :: chars) pending
  | .finished e, _ => .finished e
  | .stray, _ => .stray

/-- The line and column after a text, both counted from one. -/
def positionAfter (cs : List Char) : Nat × Nat :=
  (1 + cs.count '\n', 1 + (cs.reverse.takeWhile (· ≠ '\n')).length)

/-- Reads the first s-expression of a text, without the white space around
it; `none` if there is nothing but white space. -/
def read (s : String) : Except LayoutError (Option SExpr) :=
  let cs := Text.trim s.toList
  if cs.isEmpty then .ok none
  else match cs.foldl step (.between []) with
    | .finished e => .ok (some e)
    | .bare chars [] => .ok (some (ofReversed chars))
    | .stray => .error ⟨.strayClose, 1, 1⟩
    | _ => .error ⟨.endOfText, (positionAfter cs).1, (positionAfter cs).2⟩

end SExpr
end AreaMethod
