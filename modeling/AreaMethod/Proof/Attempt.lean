/-
# Proof attempts

A theorem is a statement about the points of a figure. An attempt eliminates
the constructed points from the expression of the statement, the most recent
one first, expresses what is left in the reference frame, brings it to one
fraction and multiplies out. The statement holds where the denominators do not
vanish if and only if the numerator is the zero polynomial.

Key definitions: `Theorem`, `Limits`, `Attempt`, `Theorem.attempt`.
-/
import AreaMethod.Elimination
import AreaMethod.Expr.Expansion
import AreaMethod.Expr.SingleFraction
import AreaMethod.Frame

namespace AreaMethod

/-- A named statement about the points of a figure. -/
structure Theorem where
  name : String
  figure : Figure
  statement : Statement

/-- The limits of a proof attempt. -/
structure Limits where
  /-- How deep attempts may be nested. -/
  oracleDepth : Nat
  /-- How many nodes an expression may have. -/
  expressionSize : Nat
  /-- How many points may be eliminated. -/
  eliminations : Nat
deriving DecidableEq

/-- The limits that apply unless others are asked for. -/
def Limits.standard : Limits := ⟨3, 250000, 64⟩

/-- A point that was eliminated, and the size of the expression afterwards. -/
structure EliminationStep where
  point : Point
  size : Nat
deriving DecidableEq

/-- What a finished attempt found. -/
structure Attempt where
  steps : List EliminationStep
  /-- The numerator of the statement's expression, multiplied out. -/
  numerator : Polynomial
  /-- The denominator of the statement's expression, multiplied out. -/
  denominator : Polynomial
deriving DecidableEq

/-- The statement was proved; otherwise it was disproved. -/
def Attempt.holds (a : Attempt) : Bool := a.numerator.isZero

namespace Eliminator

variable {σ : Type}

/-- Fails if an expression has too many nodes. -/
def checkSize (limits : Limits) (e : Expr) : EliminateM σ Unit :=
  if e.size > limits.expressionSize then throw (.tooLarge e.size limits.expressionSize)
  else return ()

/-- Eliminates points one after the other, skipping those that do not occur.
`steps` holds the eliminations so far. -/
def eliminateAll (limits : Limits) (oracle : Oracle σ) (fig : Figure) :
    List Point → Expr → List EliminationStep → EliminateM σ (Expr × List EliminationStep)
  | [], e, steps => return (e, steps)
  | p :: ps, e, steps =>
    if !e.mentions p then eliminateAll limits oracle fig ps e steps
    else if limits.eliminations ≤ steps.length then throw (.tooManyEliminations limits.eliminations)
    else do
      let e ← eliminate oracle fig e p
      checkSize limits e
      eliminateAll limits oracle fig ps e (steps ++ [⟨p, e.size⟩])

/-- An expression over free points as a fraction of two polynomials in the
independent variables of the frame. Fails if the denominator vanishes. -/
def quotient (limits : Limits) (oracle : Oracle σ) (fig : Figure) (e : Expr) :
    EliminateM σ (Polynomial × Polynomial) := do
  let framed := (← toFrame oracle fig e).canonical .empty
  checkSize limits framed
  let single ← liftExcept framed.singleFraction
  let (above, below) := single.numDen
  let numerator ← liftExcept above.expand
  let denominator ← liftExcept below.expand
  if denominator.isZero then throw (.divisionByZero single)
  return (numerator, denominator)

end Eliminator

/-- Tries to prove a theorem, with an oracle for the questions on the way. -/
def Theorem.attempt {σ : Type} (thm : Theorem) (limits : Limits) (oracle : Oracle σ) :
    EliminateM σ Attempt := do
  let start ← liftExcept (thm.statement.zeroExpr.canonical .empty).simplify
  Eliminator.checkSize limits start
  let (e, steps) ← Eliminator.eliminateAll limits oracle thm.figure
    (thm.figure.constructed.map Prod.fst) start []
  let (numerator, denominator) ←
    Eliminator.quotient limits oracle thm.figure (← Eliminator.reduce e)
  return ⟨steps, numerator, denominator⟩

end AreaMethod
