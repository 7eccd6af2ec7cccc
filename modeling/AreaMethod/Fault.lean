/-
# Faults

Everything that can go wrong, by cause. The wording of each cause is in one
place, `Fault.message`.

Key definitions: `ReadError`, `Malformed`, `Fault`, `Fault.message`,
`Fault.isLimit`.
-/
import AreaMethod.Statement
import AreaMethod.Text.SExpr

namespace AreaMethod

/-- How many arguments an operator takes. -/
inductive Arity where
  | exactly (n : Nat)
  | oneOrTwo
  | atLeastTwo
deriving DecidableEq

/-- The wording of an arity. -/
def Arity.text : Arity → String
  | exactly n => toString n
  | oneOrTwo => "1 or 2"
  | atLeastTwo => "at least 2"

/-- Why a well laid out text is no expression. -/
inductive FormError where
  | emptyText
  | noOperator
  | notALabel (text : String)
  | unknownOperator (operator : String)
  | exponentNotInteger
  | exponentTooLarge (exponent : Int)
deriving DecidableEq

/-- The wording of a form error. -/
def FormError.message : FormError → String
  | emptyText => "empty sexp"
  | noOperator => "expected (op ...)"
  | notALabel text => s!"expected a point label, got {text}"
  | unknownOperator operator => s!"unknown operator '{operator}'"
  | exponentNotInteger => "exponent must be an integer"
  | exponentTooLarge exponent => s!"exponent {exponent} is above 64"

/-- Why a text could not be read as an expression. -/
inductive ReadError where
  | layout (e : SExpr.LayoutError)
  | form (e : FormError)
  | label (name : String)
  | arity (operator : String) (expected : Arity) (got : Nat)
  | literal (text : String)
deriving DecidableEq

/-- The wording of a layout error. -/
def SExpr.LayoutError.message (e : SExpr.LayoutError) : String :=
  let cause := match e.cause with
    | .endOfText => "End of file reached"
    | .strayClose => "Unexpected )"
  s!"Parse(ParseError \x7b msg: \"{cause}\", line: {e.line}, col: {e.column} \x7d)"

/-- The wording of a read error. -/
def ReadError.message : ReadError → String
  | layout e => s!"S-expression parse error: {e.message}"
  | form e => s!"invalid expression: {e.message}"
  | label name => s!"unknown point label: {name}"
  | arity operator expected got =>
    s!"wrong number of arguments for '{operator}': expected {expected.text}, got {got}"
  | literal text => s!"invalid literal '{text}'"

/-- Why a step does not apply to an expression. -/
inductive Malformed where
  /-- A free point cannot be eliminated. -/
  | freePoint (p : Point)
  /-- A constructed point is left in a quantity that is read in the frame. -/
  | constructedPoint (p : Point) (q : Quantity)
  /-- A fraction stands where a polynomial is wanted. -/
  | fraction (e : Expr)
  /-- A negative exponent stands where a polynomial is wanted. -/
  | negativeExponent (e : Expr)
deriving DecidableEq

/-- The wording of a malformed expression. -/
def Malformed.message : Malformed → String
  | freePoint p => s!"cannot eliminate the free point {p.label}"
  | constructedPoint p q => s!"constructed point {p.label} left in {q.text}"
  | fraction e => s!"no sum of products for the fraction {e.text}"
  | negativeExponent e => s!"negative exponent in {e.text}"

/-- Why a point has no coordinates. -/
inductive Degeneracy where
  | parallelLines
  | degenerateLine
deriving DecidableEq

/-- The wording of a degeneracy. -/
def Degeneracy.message : Degeneracy → String
  | parallelLines => "parallel lines"
  | degenerateLine => "foot on a degenerate line"

/-- Why a computation failed. -/
inductive Fault where
  /-- The oracle could not decide a statement. -/
  | undecided (s : Statement)
  /-- The expression has a vanishing denominator. -/
  | divisionByZero (e : Expr)
  | malformed (m : Malformed)
  /-- Proof attempts are nested too deeply. -/
  | tooDeep (depth limit : Nat)
  /-- An expression has too many nodes. -/
  | tooLarge (size limit : Nat)
  /-- A proof attempt needs too many eliminations. -/
  | tooManyEliminations (limit : Nat)
  | unknownPoint (label : String)
  | duplicatePoint (label : String)
  | unreadable (e : ReadError)
  | degenerate (p : Point) (d : Degeneracy)
  /-- A file could not be loaded. -/
  | noFile
  /-- A text is not of the expected JSON form. -/
  | badJson
deriving DecidableEq

namespace Fault

/-- The wording of a fault. -/
def message : Fault → String
  | undecided s => s!"Could not decide the auxiliary statement: {s.text}"
  | divisionByZero e => s!"Division by zero in {e.text}"
  | malformed m => s!"Malformed expression: {m.message}"
  | tooDeep depth limit => s!"Nested oracle depth {depth} exceeds the budget of {limit}"
  | tooLarge size limit => s!"Expression grew to {size} nodes, above the limit of {limit}"
  | tooManyEliminations limit => s!"More than {limit} eliminations needed"
  | unknownPoint label => s!"Unknown point: {label}"
  | duplicatePoint label => s!"Point label already taken: {label}"
  | unreadable e => e.message
  | degenerate p d => s!"Degenerate numeric configuration: {p.label}: {d.message}"
  | noFile => "IO Error during file loading"
  | badJson => "Error during JSON parsing"

/-- A limit was hit; a larger one may help. -/
def isLimit : Fault → Bool
  | tooDeep .. => true
  | tooLarge .. => true
  | tooManyEliminations _ => true
  | _ => false

end Fault
end AreaMethod
