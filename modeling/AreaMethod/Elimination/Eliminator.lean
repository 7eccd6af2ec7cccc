/-
# The eliminator

Elimination asks an oracle about collinear triples and keeps a record: the
triples found collinear, the lemmas used, the denominators that must not
vanish, and the questions with their answers. The record survives a failure,
with all that was learned before it.

Key definitions: `Decision`, `Oracle`, `Eliminator`, `EliminateM`,
`Eliminator.collinear`, `Eliminator.divide`.
-/
import AreaMethod.Elimination.Usage
import AreaMethod.Expr.Canonical

namespace AreaMethod

/-- The answer to a question about a figure. -/
inductive Decision where
  | holds
  | fails
  | unknown
deriving DecidableEq, Inhabited

/-- An oracle decides statements; it has a memory, which it may change with
every question, and may itself fail. -/
abbrev Oracle (σ : Type) := Statement → ExceptT Fault (StateM σ) Decision

/-- A question put to the oracle, with the answer or the oracle's failure. -/
structure Question where
  statement : Statement
  answer : Except Fault Decision

/-- The record of an elimination. -/
structure Eliminator (σ : Type) where
  /-- The memory of the oracle. -/
  oracle : σ
  /-- The triples that the oracle found collinear. -/
  known : Triples
  usage : LemmaUsage
  /-- The expressions that must not vanish, in the order of their appearance,
  each once. -/
  conditions : List Expr
  /-- The questions put to the oracle, in order. -/
  asked : List Question

/-- A computation with an eliminator, which keeps the record when it fails. -/
abbrev EliminateM (σ : Type) := ExceptT Fault (StateM (Eliminator σ))

namespace Eliminator

variable {σ : Type}

/-- The record before any elimination. -/
def start (memory : σ) : Eliminator σ := ⟨memory, .empty, .none, [], []⟩

/-- Records the use of the lemma for a shape and a construction. -/
def record (group : LemmaGroup) (how : Construction) : EliminateM σ Unit :=
  modify fun el => { el with usage := el.usage.record ⟨group, how.kind⟩ }

/-- Records that an expression must not vanish. -/
def require (e : Expr) : EliminateM σ Unit :=
  modify fun el =>
    let e := e.canonical .empty
    { el with conditions := if e ∈ el.conditions then el.conditions else el.conditions ++ [e] }

/-- A fraction whose denominator must not vanish. -/
def divide (numerator denominator : Expr) : EliminateM σ Expr := do
  require denominator
  return numerator / denominator

/-- Puts a question to the oracle. -/
def ask (oracle : Oracle σ) (s : Statement) : EliminateM σ Decision := fun el =>
  let (answer, memory) := oracle s el.oracle
  (answer, { el with oracle := memory, asked := el.asked ++ [⟨s, answer⟩] })

/-- Decides whether three points are collinear. Only triples that are not
settled by their points or by an earlier answer reach the oracle; without an
answer the computation fails. -/
def collinear (oracle : Oracle σ) (a b c : Point) : EliminateM σ Bool := do
  if (← get).known.decidesCollinear a b c then return true
  match ← ask oracle (.collinear a b c) with
  | .holds =>
    modify fun el => { el with known := el.known.insert a b c }
    return true
  | .fails => return false
  | .unknown => throw (.undecided (.collinear a b c))

end Eliminator
end AreaMethod
