/-
# Reading expressions

Expressions are written as s-expressions with the operator first: integer
literals, the quantities `(S a b c)`, `(P a b c)` and `(R a b c d)` over the
points of a figure, and the operators `-`, `+`, `*`, `/` and `^`.

How a text is taken apart into s-expressions, and which texts are integers, is
left to a `TextReader`.

Key definitions: `TextReader`, `Expr.ofSExpr`, `Figure.readExprBy`, `Figure.readExpr`.
-/
import AreaMethod.Figure
import AreaMethod.Text.Numeral

namespace AreaMethod

/-- Reads s-expressions and integer literals. -/
structure TextReader where
  sexpr : String → Except SExpr.LayoutError (Option SExpr)
  integer? : List Char → Option Int

/-- The reader that is used. -/
def TextReader.standard : TextReader := ⟨SExpr.read, Text.integer?⟩

namespace Expr

/-- A power written as a product: from left to right, below one if the
exponent is negative. -/
def power (base : Expr) (exponent : Int) : Expr :=
  let magnitude := match List.replicate exponent.natAbs base with
    | [] => 1
    | e :: es => es.foldl product e
  if exponent < 0 then fraction 1 magnitude else magnitude

/-- The point of the figure that an argument names. -/
def readLabel (fig : Figure) : SExpr → Except ReadError Point
  | .atom name => if fig.has ⟨name⟩ then .ok ⟨name⟩ else .error (.label name)
  | e => .error (.form (.notALabel e.text))

/-- The exponent that an argument denotes. -/
def readExponent : SExpr → Except ReadError Int
  | .atom text =>
    match Text.exponent? text.toList with
    | none => .error (.literal text)
    | some n => if n.natAbs > 64 then .error (.form (.exponentTooLarge n)) else .ok n
  | .list _ => .error (.form .exponentNotInteger)

/-- Combines two or more operands from left to right. -/
def readChain (operator : String) (node : Expr → Expr → Expr) :
    List (Except ReadError Expr) → Except ReadError Expr
  | x :: y :: rest => do
    let first ← x
    (y :: rest).foldlM (fun acc operand => return node acc (← operand)) first
  | operands => .error (.arity operator .atLeastTwo operands.length)

/-- Applies an operator to its arguments. The second list holds the result of
reading each argument as an expression. -/
def apply (fig : Figure) (operator : String) (arguments : List SExpr)
    (operands : List (Except ReadError Expr)) : Except ReadError Expr :=
  let wrongArity := fun expected =>
    Except.error (ReadError.arity operator expected arguments.length)
  match operator with
  | "S" =>
    match arguments with
    | [a, b, c] => return area (← readLabel fig a) (← readLabel fig b) (← readLabel fig c)
    | _ => wrongArity (.exactly 3)
  | "P" =>
    match arguments with
    | [a, b, c] => return pythagoras (← readLabel fig a) (← readLabel fig b) (← readLabel fig c)
    | _ => wrongArity (.exactly 3)
  | "R" =>
    match arguments with
    | [a, b, c, d] =>
      return ratio (← readLabel fig a) (← readLabel fig b) (← readLabel fig c) (← readLabel fig d)
    | _ => wrongArity (.exactly 4)
  | "-" =>
    match operands with
    | [x] => return neg (← x)
    | [x, y] => return (← x) - (← y)
    | _ => wrongArity .oneOrTwo
  | "+" => readChain operator sum operands
  | "*" => readChain operator product operands
  | "/" =>
    match operands with
    | [x, y] => return fraction (← x) (← y)
    | _ => wrongArity (.exactly 2)
  | "^" =>
    match operands, arguments with
    | [x, _], [_, e] => return power (← x) (← readExponent e)
    | _, _ => wrongArity (.exactly 2)
  | _ => .error (.form (.unknownOperator operator))

mutual

/-- Reads an s-expression as an expression over the points of a figure. -/
def ofSExpr (reader : TextReader) (fig : Figure) : SExpr → Except ReadError Expr
  | .atom text =>
    match reader.integer? text.toList with
    | none => .error (.literal text)
    | some n => .ok (number n)
  | .list items =>
    match items, ofSExprs reader fig items with
    | .atom operator :: arguments, _ :: operands => apply fig operator arguments operands
    | _, _ => .error (.form .noOperator)

/-- Reads each s-expression of a list. -/
def ofSExprs (reader : TextReader) (fig : Figure) : List SExpr → List (Except ReadError Expr)
  | [] => []
  | e :: es => ofSExpr reader fig e :: ofSExprs reader fig es

end

end Expr

/-- Reads a text with a reader as an expression over the points of a figure. -/
def Figure.readExprBy (reader : TextReader) (fig : Figure) (text : String) :
    Except ReadError Expr :=
  match reader.sexpr text with
  | .error e => .error (.layout e)
  | .ok none => .error (.form .emptyText)
  | .ok (some e) => Expr.ofSExpr reader fig e

/-- Reads a text as an expression over the points of a figure. -/
def Figure.readExpr (fig : Figure) (text : String) : Except ReadError Expr :=
  fig.readExprBy .standard text

end AreaMethod
