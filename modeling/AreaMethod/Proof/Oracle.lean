/-
# Oracles

The oracle of the prover answers a question by a proof attempt of its own, on
the smallest figure that holds the points of the question. Questions of that
attempt go to a nested oracle; the nesting is bounded. Answers are remembered
under the key of the statement, by nested oracles too. Besides, there are
oracles that always give the same answer, or follow a script.

Key definitions: `Memory`, `Prover.decideWithin`, `Prover.oracle`,
`Oracle.constant`, `Oracle.scripted`.
-/
import AreaMethod.Proof.Attempt
import AreaMethod.Statement.Key

namespace AreaMethod

/-- What an oracle that makes proof attempts remembers. -/
structure Memory where
  /-- How deep the oracle itself is nested. -/
  depth : Nat
  /-- The decisions so far, by key. -/
  decided : List (String × Decision)
  /-- The lemmas used in finished attempts, at any depth below. -/
  usage : LemmaUsage
deriving DecidableEq

namespace Memory

/-- The memory before any question. -/
def blank : Memory := ⟨0, [], .none⟩

instance : Inhabited Memory := ⟨blank⟩

/-- Remembers a decision under a key, in place of an earlier one. -/
def learn (m : Memory) (key : String) (d : Decision) : Memory :=
  { m with decided := (key, d) :: m.decided.filter fun x => x.1 ≠ key }

end Memory

namespace Prover

/-- Answers a question by memory or by a proof attempt in the closure of its
points, with at most `remaining` levels of attempts. An attempt that met an
undecided question or a vanishing denominator decides nothing; other failures
are passed on. -/
def decideWithin (limits : Limits) : Nat → Figure → Oracle Memory
  | remaining, fig, s => fun m =>
    match m.decided.lookup s.key with
    | some d => (.ok d, m)
    | none =>
      match remaining with
      | 0 => (.error (.tooDeep (m.depth + 1) limits.oracleDepth), m)
      | deeper + 1 =>
        let closed := fig.closure s.points
        let thm : Theorem := ⟨s!"oracle: {s.text}", closed, s⟩
        let (outcome, el) := thm.attempt limits (decideWithin limits deeper closed)
          (Eliminator.start ⟨m.depth + 1, m.decided, .none⟩)
        let m : Memory := ⟨m.depth, el.oracle.decided, m.usage.merge el.oracle.usage⟩
        match outcome with
        | .ok a =>
          let m := { m with usage := m.usage.merge el.usage }
          let d := if a.holds then Decision.holds else Decision.fails
          (.ok d, m.learn s.key d)
        | .error (.undecided _) => (.ok .unknown, m.learn s.key .unknown)
        | .error (.divisionByZero _) => (.ok .unknown, m.learn s.key .unknown)
        | .error f => (.error f, m)

/-- The oracle that answers questions about a figure by proof attempts, down to
the depth that the limits allow. -/
def oracle (limits : Limits) (fig : Figure) : Oracle Memory := fun s m =>
  decideWithin limits (limits.oracleDepth - m.depth) fig s m

end Prover

namespace Oracle

/-- Gives the same answer to every question. -/
def constant (d : Decision) : Oracle Unit := fun _ => return d

/-- Answers in the order of a script, and nothing when it is used up. -/
def scripted : Oracle (List Decision) := fun _ script =>
  match script with
  | [] => (.ok .unknown, [])
  | d :: rest => (.ok d, rest)

end Oracle
end AreaMethod
