/-
# Outcomes of computations

A computation with an eliminator returns a value or fails, and leaves a record
behind in both cases. `Leads x el ok bad` says what holds then: `ok` of the
value and the record, `bad` of the fault and the record. It is computed from
the parts of `x`, so a statement about a procedure follows its text.

The record only grows. Questions and conditions are added at the end
(`Eliminator.Extends`), and the known triples are those that the oracle
affirmed (`Eliminator.Remembers`).

The oracle of the prover settles a question by a nested attempt
(`Prover.settle`), and a report is read off a finished attempt
(`Theorem.reportAll`).

Key definitions: `Leads`, `Eliminator.Extends`, `Eliminator.Remembers`,
`Prover.settle`, `Theorem.run`, `Theorem.reportAll`.
Key theorems: `leads_bind`, `Eliminator.leads_collinear`,
`Prover.decideWithin_succ`, `Theorem.prove_eq_ok`.
-/
import Mathlib
import AreaMethod.Proof.Report

namespace AreaMethod

/-! ### Computations that may fail -/

theorem bind_eq_ok {ε α β : Type} {x : Except ε α} {f : α → Except ε β} {b : β} :
    x >>= f = .ok b ↔ ∃ a, x = .ok a ∧ f a = .ok b := by
  cases x with
  | error g => exact ⟨fun h => (nomatch h), fun ⟨_, h, _⟩ => (nomatch h)⟩
  | ok a => exact ⟨fun h => ⟨a, rfl, h⟩, fun ⟨_, ha, h⟩ => by cases ha; exact h⟩

theorem bind_eq_error {ε α β : Type} {x : Except ε α} {f : α → Except ε β} {g : ε} :
    x >>= f = .error g ↔ x = .error g ∨ ∃ a, x = .ok a ∧ f a = .error g := by
  cases x with
  | error e =>
    constructor
    · intro h; cases h; exact .inl rfl
    · rintro (h | ⟨a, h, -⟩)
      · cases h; rfl
      · cases h
  | ok a =>
    constructor
    · exact fun h => .inr ⟨a, rfl, h⟩
    · rintro (h | ⟨a, ha, h⟩)
      · cases h
      · cases ha; exact h

/-! ### Computations with a record -/

section Leads

variable {σ α β : Type}

/-- Run from the record `el`, the computation returns a value and a record with
`ok`, or a fault and a record with `bad`. -/
def Leads (x : EliminateM σ α) (el : Eliminator σ) (ok : α → Eliminator σ → Prop)
    (bad : Fault → Eliminator σ → Prop) : Prop :=
  match x el with
  | (.ok a, el') => ok a el'
  | (.error f, el') => bad f el'

variable {x : EliminateM σ α} {el : Eliminator σ} {ok ok' : α → Eliminator σ → Prop}
  {bad bad' : Fault → Eliminator σ → Prop}

theorem Leads.mono (h : Leads x el ok bad) (hok : ∀ a el', ok a el' → ok' a el')
    (hbad : ∀ f el', bad f el' → bad' f el') : Leads x el ok' bad' := by
  unfold Leads at *
  split
  next heq => rw [heq] at h; exact hok _ _ h
  next heq => rw [heq] at h; exact hbad _ _ h

theorem Leads.and (h : Leads x el ok bad) (h' : Leads x el ok' bad') :
    Leads x el (fun a el' => ok a el' ∧ ok' a el') (fun f el' => bad f el' ∧ bad' f el') := by
  unfold Leads at *
  split
  next heq => rw [heq] at h h'; exact ⟨h, h'⟩
  next heq => rw [heq] at h h'; exact ⟨h, h'⟩

/-- A computation leads to what it leads to. -/
theorem leads_self (x : EliminateM σ α) (el : Eliminator σ) :
    Leads x el (fun a el' => x el = (.ok a, el')) fun f el' => x el = (.error f, el') := by
  unfold Leads
  split
  next heq => exact heq
  next heq => exact heq

theorem Leads.of_ok {a : α} {el' : Eliminator σ} (h : Leads x el ok bad)
    (heq : x el = (.ok a, el')) : ok a el' := by
  unfold Leads at h
  rw [heq] at h
  exact h

theorem Leads.of_error {f : Fault} {el' : Eliminator σ} (h : Leads x el ok bad)
    (heq : x el = (.error f, el')) : bad f el' := by
  unfold Leads at h
  rw [heq] at h
  exact h

@[simp]
theorem leads_pure (a : α) : Leads (pure a) el ok bad ↔ ok a el := Iff.rfl

@[simp]
theorem leads_throw (f : Fault) : Leads (throw f) el ok bad ↔ bad f el := Iff.rfl

@[simp]
theorem leads_bind {x : EliminateM σ β} {f : β → EliminateM σ α} :
    Leads (x >>= f) el ok bad ↔ Leads x el (fun a el' => Leads (f a) el' ok bad) bad := by
  change (match (x >>= f) el with
    | (.ok a, el') => ok a el'
    | (.error f, el') => bad f el') ↔ _
  unfold Leads
  simp only [bind, ExceptT.bind, ExceptT.mk, StateT.bind]
  rcases x el with ⟨a | a, el'⟩ <;> rfl

@[simp]
theorem leads_get {ok : Eliminator σ → Eliminator σ → Prop} : Leads get el ok bad ↔ ok el el := Iff.rfl

@[simp]
theorem leads_modify {ok : Unit → Eliminator σ → Prop} {g : Eliminator σ → Eliminator σ} :
    Leads (modify g) el ok bad ↔ ok () (g el) := Iff.rfl

theorem leads_liftExcept {y : Except Fault α} :
    Leads (liftExcept y) el ok bad ↔ (∀ a, y = .ok a → ok a el) ∧ ∀ f, y = .error f → bad f el := by
  cases y with
  | ok a =>
    change ok a el ↔ _
    simp
  | error f =>
    change bad f el ↔ _
    simp

theorem run_bind {x : EliminateM σ β} {f : β → EliminateM σ α} {b : β} {el' : Eliminator σ}
    (h : x el = (.ok b, el')) : (x >>= f) el = f b el' := by
  simp only [bind, ExceptT.bind, ExceptT.mk, StateT.bind]
  rw [h]
  rfl

theorem run_bind_error {x : EliminateM σ β} {f : β → EliminateM σ α} {g : Fault}
    {el' : Eliminator σ} (h : x el = (.error g, el')) : (x >>= f) el = (.error g, el') := by
  simp only [bind, ExceptT.bind, ExceptT.mk, StateT.bind]
  rw [h]
  rfl

theorem run_liftExcept {y : Except Fault α} {a : α} (h : y = .ok a) (el : Eliminator σ) :
    (liftExcept y : EliminateM σ α) el = (.ok a, el) := by
  rw [h]
  rfl

end Leads

/-! ### The record -/

namespace Eliminator

variable {σ : Type}

/-- The later record has all the questions and conditions of the earlier one,
before its own. -/
structure Extends (el el' : Eliminator σ) : Prop where
  asked : el.asked <+: el'.asked
  conditions : el.conditions <+: el'.conditions

theorem Extends.refl (el : Eliminator σ) : el.Extends el :=
  ⟨List.prefix_refl _, List.prefix_refl _⟩

theorem Extends.trans {el el' el'' : Eliminator σ} (h : el.Extends el') (h' : el'.Extends el'') :
    el.Extends el'' :=
  ⟨h.asked.trans h'.asked, h.conditions.trans h'.conditions⟩

/-- The known triples are those that the oracle affirmed. -/
def Remembers (el : Eliminator σ) : Prop :=
  ∀ t, t ∈ el.known.known ↔
    ∃ a b c, (⟨.collinear a b c, .ok .holds⟩ : Question) ∈ el.asked ∧ t = (sortThree a b c).1

theorem remembers_start (memory : σ) : (start memory).Remembers := by
  intro t
  simp [start, Triples.empty]

/-- The record after the oracle was asked. -/
def answered (el : Eliminator σ) (s : Statement) (answer : Except Fault Decision) (memory : σ) :
    Eliminator σ :=
  { el with oracle := memory, asked := el.asked ++ [⟨s, answer⟩] }

/-- The record after a triple was found collinear. -/
def learned (el : Eliminator σ) (a b c : Point) : Eliminator σ :=
  { el with known := el.known.insert a b c }

theorem extends_answered (el : Eliminator σ) (s : Statement) (answer : Except Fault Decision)
    (memory : σ) : el.Extends (el.answered s answer memory) :=
  ⟨List.prefix_append _ _, List.prefix_refl _⟩

theorem mem_insert {ts : Triples} {a b c : Point} {t : Point × Point × Point} :
    t ∈ (ts.insert a b c).known ↔ t = (sortThree a b c).1 ∨ t ∈ ts.known := by
  unfold Triples.insert Triples.has
  split_ifs with h
  · have hmem : (sortThree a b c).1 ∈ ts.known := by simpa using h
    constructor
    · exact .inr
    · rintro (heq | h')
      · rw [heq]; exact hmem
      · exact h'
  · simp

theorem Remembers.answered {el : Eliminator σ} (h : el.Remembers) {s : Statement}
    {answer : Except Fault Decision} (ha : answer ≠ .ok .holds) (memory : σ) :
    (el.answered s answer memory).Remembers := by
  intro t
  rw [show (el.answered s answer memory).known = el.known from rfl, h t]
  have hlast : ∀ a b c, (⟨.collinear a b c, .ok .holds⟩ : Question) ≠ ⟨s, answer⟩ :=
    fun a b c heq => ha (congrArg Question.answer heq).symm
  simp [Eliminator.answered, hlast]

theorem Remembers.learned {el : Eliminator σ} (h : el.Remembers) (a b c : Point) (memory : σ) :
    ((el.answered (.collinear a b c) (.ok .holds) memory).learned a b c).Remembers := by
  intro t
  change t ∈ (el.known.insert a b c).known ↔ _
  rw [mem_insert, h t]
  change _ ↔ ∃ a' b' c', _ ∈ el.asked ++ [_] ∧ _
  simp only [List.mem_append, List.mem_singleton, Question.mk.injEq, Statement.collinear.injEq,
    and_true]
  constructor
  · rintro (ht | ⟨a', b', c', hm, ht⟩)
    · exact ⟨a, b, c, .inr ⟨rfl, rfl, rfl⟩, ht⟩
    · exact ⟨a', b', c', .inl hm, ht⟩
  · rintro ⟨a', b', c', hm | ⟨rfl, rfl, rfl⟩, ht⟩
    · exact .inr ⟨a', b', c', hm, ht⟩
    · exact .inl ht

theorem leads_ask {oracle : Oracle σ} {s : Statement} {el : Eliminator σ}
    {ok : Decision → Eliminator σ → Prop} {bad : Fault → Eliminator σ → Prop}
    (hok : ∀ d m, oracle s el.oracle = (.ok d, m) → ok d (el.answered s (.ok d) m))
    (hbad : ∀ f m, oracle s el.oracle = (.error f, m) → bad f (el.answered s (.error f) m)) :
    Leads (ask oracle s) el ok bad := by
  unfold Leads ask
  rcases h : oracle s el.oracle with ⟨f | d, m⟩
  · exact hbad f m h
  · exact hok d m h

/-- What a question about three points leads to: nothing is asked if the answer
is known, and otherwise the answer of the oracle decides. -/
theorem leads_collinear {oracle : Oracle σ} {a b c : Point} {el : Eliminator σ}
    {ok : Bool → Eliminator σ → Prop} {bad : Fault → Eliminator σ → Prop}
    (hknown : el.known.decidesCollinear a b c = true → ok true el)
    (hholds : ∀ m, oracle (.collinear a b c) el.oracle = (.ok .holds, m) →
      ok true ((el.answered (.collinear a b c) (.ok .holds) m).learned a b c))
    (hfails : ∀ m, oracle (.collinear a b c) el.oracle = (.ok .fails, m) →
      ok false (el.answered (.collinear a b c) (.ok .fails) m))
    (hunknown : ∀ m, oracle (.collinear a b c) el.oracle = (.ok .unknown, m) →
      bad (.undecided (.collinear a b c)) (el.answered (.collinear a b c) (.ok .unknown) m))
    (herror : ∀ f m, oracle (.collinear a b c) el.oracle = (.error f, m) →
      bad f (el.answered (.collinear a b c) (.error f) m)) :
    Leads (collinear oracle a b c) el ok bad := by
  unfold collinear
  simp only [leads_bind, leads_get]
  split_ifs with h
  · exact hknown h
  · refine leads_bind.mpr (leads_ask (fun d m hm => ?_) herror)
    cases d with
    | holds => exact hholds m hm
    | fails => exact hfails m hm
    | unknown => exact hunknown m hm

theorem leads_checkSize {limits : Limits} {e : Expr} {el : Eliminator σ}
    {ok : Unit → Eliminator σ → Prop} {bad : Fault → Eliminator σ → Prop} :
    Leads (checkSize limits e) el ok bad ↔ (e.size ≤ limits.expressionSize → ok () el) ∧
      (limits.expressionSize < e.size → bad (.tooLarge e.size limits.expressionSize) el) := by
  unfold checkSize
  split_ifs with h
  · simp [h]
  · simp [h, not_lt.mp h]

end Eliminator

/-! ### The oracle of the prover -/

namespace Prover

variable {limits : Limits} {fig : Figure} {s : Statement} {m m' : Memory} {f : Fault}

/-- A question about a figure, as a theorem about the closure of its points. -/
def question (fig : Figure) (s : Statement) : Theorem :=
  ⟨s!"oracle: {s.text}", fig.closure s.points, s⟩

/-- The answer that an attempt gives to a question, and what is remembered. -/
def settle (m : Memory) (s : Statement) :
    Except Fault Attempt × Eliminator Memory → Except Fault Decision × Memory
  | (outcome, el) =>
    let m : Memory := ⟨m.depth, el.oracle.decided, m.usage.merge el.oracle.usage⟩
    match outcome with
    | .ok a =>
      let m := { m with usage := m.usage.merge el.usage }
      let d := if a.holds then Decision.holds else Decision.fails
      (.ok d, m.learn s.key d)
    | .error (.undecided _) => (.ok .unknown, m.learn s.key .unknown)
    | .error (.divisionByZero _) => (.ok .unknown, m.learn s.key .unknown)
    | .error f => (.error f, m)

theorem settle_eq_error {x : Except Fault Attempt × Eliminator Memory}
    (h : settle m s x = (.error f, m')) : x.1 = .error f := by
  obtain ⟨outcome, el⟩ := x
  cases outcome with
  | ok a => cases h
  | error g => cases g <;> cases h <;> rfl

theorem decideWithin_known (remaining : ℕ) {d : Decision} (h : m.decided.lookup s.key = some d) :
    decideWithin limits remaining fig s m = (.ok d, m) := by
  unfold decideWithin
  rw [h]

theorem decideWithin_zero (h : m.decided.lookup s.key = none) :
    decideWithin limits 0 fig s m = (.error (.tooDeep (m.depth + 1) limits.oracleDepth), m) := by
  unfold decideWithin
  rw [h]

theorem decideWithin_succ (deeper : ℕ) (h : m.decided.lookup s.key = none) :
    decideWithin limits (deeper + 1) fig s m = settle m s ((question fig s).attempt limits
      (decideWithin limits deeper (fig.closure s.points))
      (Eliminator.start ⟨m.depth + 1, m.decided, .none⟩)) := by
  rw [decideWithin]
  simp only [h]
  rfl

end Prover

/-! ### Reports -/

namespace Theorem

variable {σ : Type} {thm : Theorem} {settings : Settings} {r : Report}

/-- A report comes from a finished attempt. -/
theorem proveWith_eq_ok {oracle : Oracle σ} {memory : σ} {el : Eliminator σ} :
    thm.proveWith settings oracle memory = (.ok r, el) ↔
      ∃ a, thm.attempt settings.limits oracle (Eliminator.start memory) = (.ok a, el) ∧
        r = thm.report settings a el.usage el.conditions := by
  unfold proveWith
  rcases thm.attempt settings.limits oracle (Eliminator.start memory) with ⟨f | a, el'⟩
  · constructor
    · intro h
      cases h
    · rintro ⟨a, h, -⟩
      cases h
  · constructor
    · intro h
      cases h
      exact ⟨a, rfl, rfl⟩
    · rintro ⟨a', h, rfl⟩
      cases h
      rfl

/-- The record of a proof is that of its attempt. -/
theorem proveWith_snd {oracle : Oracle σ} {memory : σ} : (thm.proveWith settings oracle memory).2 =
    (thm.attempt settings.limits oracle (Eliminator.start memory)).2 := by
  unfold proveWith
  rcases thm.attempt settings.limits oracle (Eliminator.start memory) with ⟨f | a, el⟩ <;> rfl

/-- The attempt behind a proof, with the record it leaves. -/
def run (thm : Theorem) (limits : Limits) : Except Fault Attempt × Eliminator Memory :=
  thm.attempt limits (Prover.oracle limits thm.figure) (Eliminator.start .blank)

/-- The report on an attempt, with the lemmas that its oracle used. -/
def reportAll (thm : Theorem) (settings : Settings) (a : Attempt) (el : Eliminator Memory) :
    Report :=
  let r := thm.report settings a el.usage el.conditions
  { r with usage := r.usage.merge el.oracle.usage }

theorem verdict_reportAll {a : Attempt} {el : Eliminator Memory} :
    (thm.reportAll settings a el).verdict = if a.holds then .proved else .disproved := by
  rw [reportAll, report]

theorem prove_eq_ok : thm.prove settings = .ok r ↔
    ∃ a el, thm.run settings.limits = (.ok a, el) ∧ r = thm.reportAll settings a el := by
  unfold prove proveWith run
  rcases thm.attempt settings.limits (Prover.oracle settings.limits thm.figure)
    (Eliminator.start .blank) with ⟨f | a, el⟩
  · constructor
    · intro h
      cases h
    · rintro ⟨a, el', h, -⟩
      cases h
  · constructor
    · intro h
      cases h
      exact ⟨a, el, rfl, rfl⟩
    · rintro ⟨a', el', h, rfl⟩
      cases h
      rfl

theorem prove_eq_error {f : Fault} : thm.prove settings = .error f ↔
    ∃ el, thm.run settings.limits = (.error f, el) := by
  unfold prove proveWith run
  rcases thm.attempt settings.limits (Prover.oracle settings.limits thm.figure)
    (Eliminator.start .blank) with ⟨g | a, el⟩
  · constructor
    · intro h
      cases h
      exact ⟨el, rfl⟩
    · rintro ⟨el', h⟩
      cases h
      rfl
  · constructor
    · intro h
      cases h
    · rintro ⟨el', h⟩
      cases h

end Theorem
end AreaMethod
