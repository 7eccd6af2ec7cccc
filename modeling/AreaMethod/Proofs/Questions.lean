/-
# Answers are heeded

A proof attempt turns to its oracle in one way only: it asks whether three points
are collinear. `Asks oracle x` says this of a computation, by how it is put
together, and it is shown of every procedure of an attempt; for elimination it
follows from what is consulted there. All else about the questions follows from it
by induction, from what one question does.

The record lists the questions of a run with the answers that the oracle gave, in
order (`Inquiry`). An answer that decides nothing, or a failure of the oracle, is
the last one: the run ends there, with the fault that this question calls for
(`Fault.DueTo`). So a run that succeeds was given a decision every time, and no
question is taken to be decided that was not (`Oracle.answers_heeded`).

Key definitions: `Asks`, `Oracle.Answers`, `Inquiry`, `Orderly`, `Heeds`.
Key theorems: `Theorem.asks_attempt`, `Asks.orderly`, `Oracle.answers_heeded`.
-/
import Mathlib
import AreaMethod.Proofs.Consultation
import AreaMethod.Proofs.NormalForm

namespace AreaMethod

open Eliminator

/-! ### Computations that ask -/

section Asking

variable {σ α β : Type} {oracle : Oracle σ}

/-- The fault is not that of an undecided question. -/
def Fault.Definite (f : Fault) : Prop := ∀ s, f ≠ .undecided s

/-- The computation turns to the oracle only to ask whether points are collinear,
and does not fail by itself for want of an answer. -/
inductive Asks (oracle : Oracle σ) : {α : Type} → EliminateM σ α → Prop
  | pure {α : Type} (a : α) : Asks oracle (pure a)
  | throw {α : Type} {f : Fault} (hf : f.Definite) : Asks oracle (throw f : EliminateM σ α)
  | get : Asks oracle get
  | record (group : LemmaGroup) (how : Construction) : Asks oracle (record group how)
  | require (e : Expr) : Asks oracle (require e)
  | collinear (a b c : Point) : Asks oracle (collinear oracle a b c)
  | bind {α β : Type} {x : EliminateM σ α} {f : α → EliminateM σ β} (hx : Asks oracle x)
      (hf : ∀ a, Asks oracle (f a)) : Asks oracle (x >>= f)

theorem asks_liftExcept {y : Except Fault α} (h : ∀ f, y = .error f → f.Definite) :
    Asks oracle (liftExcept y) := by
  cases y with
  | ok a => exact .pure a
  | error f => exact .throw (h f rfl)

theorem asks_bindQuantities {f : Quantity → EliminateM σ Expr} (hf : ∀ q, Asks oracle (f q)) :
    ∀ e : Expr, Asks oracle (e.bindQuantities f)
  | .number _ => .pure _
  | .quantity q => hf q
  | .neg e => (asks_bindQuantities hf e).bind fun _ => .pure _
  | .sum a b => (asks_bindQuantities hf a).bind fun _ =>
      (asks_bindQuantities hf b).bind fun _ => .pure _
  | .product a b => (asks_bindQuantities hf a).bind fun _ =>
      (asks_bindQuantities hf b).bind fun _ => .pure _
  | .fraction a b => (asks_bindQuantities hf a).bind fun _ =>
      (asks_bindQuantities hf b).bind fun _ => .pure _
  | .term _ => .pure _
  | .polynomial _ => .pure _

end Asking

/-! ### Elimination -/

section Elimination

variable {σ : Type} {oracle : Oracle σ} {y : Point} {how : Construction}

theorem Consults.asks {α : Type} {T : Point → Point → Point → Prop} {x : EliminateM σ α}
    (h : Consults oracle T x) : Asks oracle x := by
  induction h with
  | pure a => exact .pure a
  | throw e => exact .throw fun _ => Fault.noConfusion
  | record group how => exact .record group how
  | require e => exact .require e
  | collinear h => exact .collinear _ _ _
  | bind _ _ ihx ihf => exact .bind ihx ihf

theorem AsksOnce.asks {α : Type} {x : EliminateM σ α} (h : AsksOnce oracle x) : Asks oracle x := by
  rcases h with h | ⟨_, _, _, h, -⟩
  · exact h.asks
  · exact h.asks

theorem asks_quantity (q : Quantity) : Asks oracle (quantity oracle y how q) := by
  cases q with
  | area a b c => exact (silent_area a b c).asks
  | pythagoras a b c => exact (silent_pythagoras a b c).asks
  | ratio a b c d => exact (asksOnce_ratio a b c d).asks

theorem asks_reduce (e : Expr) : Asks oracle (reduce e) := by
  refine Asks.get.bind fun el => asks_liftExcept fun f hf => ?_
  obtain ⟨d, rfl⟩ := Expr.divisionByZero_of_simplify hf
  exact fun _ => Fault.noConfusion

theorem asks_eliminate (fig : Figure) (e : Expr) (y : Point) :
    Asks oracle (eliminate oracle fig e y) := by
  unfold eliminate
  cases fig.construction? y with
  | none => exact .throw fun _ => Fault.noConfusion
  | some how =>
    refine (asks_bindQuantities (fun q => ?_) (e.expose y)).bind fun e => asks_reduce e
    split_ifs
    · exact asks_quantity q
    · exact .pure _

end Elimination

/-! ### Attempts -/

section Attempts

variable {σ : Type} {oracle : Oracle σ}

theorem asks_branch (a b c : Point) {x z : EliminateM σ Expr} (hx : Asks oracle x)
    (hz : Asks oracle z) : Asks oracle (do if ← collinear oracle a b c then x else z) := by
  refine (Asks.collinear a b c).bind fun answer => ?_
  cases answer with
  | true => exact hx
  | false => exact hz

theorem asks_toFrame (fig : Figure) (e : Expr) : Asks oracle (toFrame oracle fig e) := by
  refine asks_bindQuantities (fun q => ?_) e.unfold
  unfold quantityInFrame
  cases q.points.find? fun p => (fig.construction? p).isSome with
  | some p => exact .throw fun _ => Fault.noConfusion
  | none =>
    cases q with
    | area a b c => exact .pure _
    | pythagoras a b c => exact .pure _
    | ratio a b c d => exact asks_branch a c d (.pure _) (.pure _)

theorem asks_checkSize (limits : Limits) (e : Expr) : Asks oracle (checkSize limits e) := by
  unfold checkSize
  split_ifs
  · exact .throw fun _ => Fault.noConfusion
  · exact .pure _

theorem asks_eliminateAll (limits : Limits) (fig : Figure) :
    ∀ (ps : List Point) (e : Expr) (steps : List EliminationStep),
      Asks oracle (eliminateAll limits oracle fig ps e steps)
  | [], _, _ => .pure _
  | p :: ps, e, steps => by
    unfold eliminateAll
    split_ifs
    · exact asks_eliminateAll limits fig ps e steps
    · exact .throw fun _ => Fault.noConfusion
    · exact (asks_eliminate fig e p).bind fun e' => (asks_checkSize limits e').bind fun _ =>
        asks_eliminateAll limits fig ps e' _

theorem asks_quotient (limits : Limits) (fig : Figure) (e : Expr) :
    Asks oracle (quotient limits oracle fig e) := by
  have hexpand : ∀ (e : Expr) (f : Fault), e.expand = .error f → f.Definite := by
    intro e f hf
    obtain ⟨m, rfl⟩ := Expr.malformed_of_expand hf
    exact fun _ => Fault.noConfusion
  refine (asks_toFrame fig e).bind fun framed => (asks_checkSize limits _).bind fun _ => ?_
  refine (asks_liftExcept fun f hf => ?_).bind fun single => ?_
  · obtain ⟨d, rfl⟩ := Expr.divisionByZero_of_singleFraction hf
    exact fun _ => Fault.noConfusion
  refine (asks_liftExcept (hexpand _)).bind fun numerator => ?_
  refine (asks_liftExcept (hexpand _)).bind fun denominator => ?_
  split_ifs
  · exact .bind (.throw fun _ => Fault.noConfusion) fun _ => .pure _
  · exact .pure _

/-- **An attempt only asks.** -/
theorem Theorem.asks_attempt (thm : Theorem) (limits : Limits) :
    Asks oracle (thm.attempt limits oracle) := by
  refine (asks_liftExcept fun f hf => ?_).bind fun start => ?_
  · obtain ⟨d, rfl⟩ := Expr.divisionByZero_of_simplify hf
    exact fun _ => Fault.noConfusion
  refine (asks_checkSize limits start).bind fun _ => ?_
  refine (asks_eliminateAll limits thm.figure _ start []).bind fun ⟨e, steps⟩ => ?_
  refine (asks_reduce e).bind fun reduced => ?_
  exact (asks_quotient limits thm.figure reduced).bind fun _ => .pure _

end Attempts

/-! ### What a run asks -/

section Runs

variable {σ α β : Type} {oracle : Oracle σ}

/-- Asked these questions one after the other, the oracle gives these answers and
ends with the memory `m'`. -/
def Oracle.Answers (oracle : Oracle σ) : σ → List Question → σ → Prop
  | m, [], m' => m = m'
  | m, q :: qs, m' => ∃ m₁, oracle q.statement m = (q.answer, m₁) ∧ Answers oracle m₁ qs m'

theorem Oracle.Answers.append {m m' m'' : σ} {qs qs' : List Question} (h : oracle.Answers m qs m')
    (h' : oracle.Answers m' qs' m'') : oracle.Answers m (qs ++ qs') m'' := by
  induction qs generalizing m with
  | nil =>
    obtain rfl : m = m' := h
    exact h'
  | cons q qs ih =>
    obtain ⟨m₁, hq, hqs⟩ := h
    exact ⟨m₁, hq, ih hqs⟩

/-- Each answer on the list is one that the oracle gave. -/
theorem Oracle.Answers.of_mem {m m' : σ} {qs : List Question} (h : oracle.Answers m qs m')
    {q : Question} (hq : q ∈ qs) : ∃ m₁ m₂, oracle q.statement m₁ = (q.answer, m₂) := by
  induction qs generalizing m with
  | nil => cases hq
  | cons q' qs ih =>
    obtain ⟨m₁, hfirst, hrest⟩ := h
    rcases List.mem_cons.mp hq with rfl | hq
    · exact ⟨m, m₁, hfirst⟩
    · exact ih hrest hq

/-- Between the two records, the oracle was asked these questions and no others. -/
structure Inquiry (oracle : Oracle σ) (el : Eliminator σ) (qs : List Question)
    (el' : Eliminator σ) : Prop where
  asked : el'.asked = el.asked ++ qs
  answers : oracle.Answers el.oracle qs el'.oracle

theorem Inquiry.none {el el' : Eliminator σ} (hmemory : el'.oracle = el.oracle)
    (hasked : el'.asked = el.asked) : Inquiry oracle el [] el' :=
  ⟨by rw [hasked, List.append_nil], hmemory.symm⟩

theorem Inquiry.append {el el' el'' : Eliminator σ} {qs qs' : List Question}
    (h : Inquiry oracle el qs el') (h' : Inquiry oracle el' qs' el'') :
    Inquiry oracle el (qs ++ qs') el'' :=
  ⟨by rw [h'.asked, h.asked, List.append_assoc], h.answers.append h'.answers⟩

/-- The question was decided. -/
def Question.Settled (q : Question) : Prop := q.answer = .ok .holds ∨ q.answer = .ok .fails

/-- The fault that a question calls for that was not decided. -/
def Question.CallsFor (q : Question) (f : Fault) : Prop :=
  q.answer = .ok .unknown ∧ f = .undecided q.statement ∨ q.answer = .error f

/-- The questions explain the fault: all were decided and it has another cause, or
the last one was not decided and calls for it. -/
def Fault.DueTo (f : Fault) (qs : List Question) : Prop :=
  (f.Definite ∧ ∀ q ∈ qs, q.Settled) ∨
    ∃ before q, qs = before ++ [q] ∧ (∀ q' ∈ before, q'.Settled) ∧ q.CallsFor f

theorem Fault.DueTo.append {f : Fault} {qs qs' : List Question} (hqs : ∀ q ∈ qs, q.Settled)
    (h : f.DueTo qs') : f.DueTo (qs ++ qs') := by
  rcases h with ⟨hf, hqs'⟩ | ⟨before, q, rfl, hbefore, hq⟩
  · exact .inl ⟨hf, List.forall_mem_append.mpr ⟨hqs, hqs'⟩⟩
  · exact .inr ⟨qs ++ before, q, (List.append_assoc ..).symm,
      List.forall_mem_append.mpr ⟨hqs, hbefore⟩, hq⟩

/-- From every record, the computation returns a value after questions that were
all decided, or a fault that its questions explain. -/
def Orderly (oracle : Oracle σ) (x : EliminateM σ α) : Prop :=
  ∀ el, Leads x el (fun _ el' => ∃ qs, Inquiry oracle el qs el' ∧ ∀ q ∈ qs, q.Settled)
    fun f el' => ∃ qs, Inquiry oracle el qs el' ∧ f.DueTo qs

/-- One question. -/
theorem orderly_collinear (a b c : Point) : Orderly oracle (collinear oracle a b c) := by
  intro el
  have hone : ∀ {answer m}, oracle (.collinear a b c) el.oracle = (answer, m) →
      Inquiry oracle el [⟨.collinear a b c, answer⟩] (el.answered (.collinear a b c) answer m) :=
    fun hm => ⟨rfl, _, hm, rfl⟩
  have hfault : ∀ {q : Question} {f : Fault}, q.CallsFor f → f.DueTo [q] :=
    fun hq => .inr ⟨[], _, rfl, fun _ h => (nomatch h), hq⟩
  refine leads_collinear (fun _ => ⟨[], .none rfl rfl, fun _ h => (nomatch h)⟩) ?_ ?_ ?_ ?_
  · intro m hm
    refine ⟨_, ⟨rfl, _, hm, rfl⟩, ?_⟩
    exact List.forall_mem_singleton.mpr (.inl rfl)
  · intro m hm
    exact ⟨_, hone hm, List.forall_mem_singleton.mpr (.inr rfl)⟩
  · exact fun m hm => ⟨_, hone hm, hfault (.inl ⟨rfl, rfl⟩)⟩
  · exact fun f m hm => ⟨_, hone hm, hfault (.inr rfl)⟩

theorem Orderly.bind {x : EliminateM σ α} {f : α → EliminateM σ β} (hx : Orderly oracle x)
    (hf : ∀ a, Orderly oracle (f a)) : Orderly oracle (x >>= f) := by
  intro el
  refine leads_bind.mpr ((hx el).mono ?_ fun _ _ h => h)
  rintro a el' ⟨qs, hqs, hsettled⟩
  refine (hf a el').mono ?_ ?_
  · rintro b el'' ⟨qs', hqs', hsettled'⟩
    exact ⟨_, hqs.append hqs', List.forall_mem_append.mpr ⟨hsettled, hsettled'⟩⟩
  · rintro g el'' ⟨qs', hqs', hdue⟩
    exact ⟨_, hqs.append hqs', hdue.append hsettled⟩

/-- **Runs are orderly**: by induction on how the computation is put together. -/
theorem Asks.orderly {x : EliminateM σ α} (h : Asks oracle x) : Orderly oracle x := by
  have hnone : ∀ q ∈ ([] : List Question), q.Settled := fun _ h => (nomatch h)
  induction h with
  | pure a => exact fun el => ⟨[], .none rfl rfl, hnone⟩
  | throw hf => exact fun el => ⟨[], .none rfl rfl, .inl ⟨hf, hnone⟩⟩
  | get => exact fun el => ⟨[], .none rfl rfl, hnone⟩
  | record group how => exact fun el => ⟨[], .none rfl rfl, hnone⟩
  | require e => exact fun el => ⟨[], .none rfl rfl, hnone⟩
  | collinear a b c => exact orderly_collinear a b c
  | bind _ _ hx hf => exact hx.bind hf

end Runs

/-! ### The outcome of a run -/

section Outcomes

variable {σ α : Type} {oracle : Oracle σ}

/-- The oracle does not fail for want of a decision: it answers that it has
none. -/
def Oracle.Candid (oracle : Oracle σ) : Prop := ∀ s m s', (oracle s m).1 ≠ .error (.undecided s')

/-- How the outcome of a run depends on the answers to its questions. -/
structure Heeds (oracle : Oracle σ) (qs : List Question) (outcome : Except Fault α) : Prop where
  /-- A question without a decision is the last one, and the fault names it. -/
  unknown : ∀ before q after, qs = before ++ q :: after → q.answer = .ok .unknown →
    after = [] ∧ outcome = .error (.undecided q.statement)
  /-- A question at which the oracle fails is the last one, and the fault is the
  oracle's. -/
  failure : ∀ before q after f, qs = before ++ q :: after → q.answer = .error f →
    after = [] ∧ outcome = .error f
  success : ∀ a, outcome = .ok a → ∀ q ∈ qs, q.answer = .ok .holds ∨ q.answer = .ok .fails
  undecided : oracle.Candid → ∀ s, outcome = .error (.undecided s) →
    ∃ before q, qs = before ++ [q] ∧ q.answer = .ok .unknown ∧ q.statement = s

/-- The run put questions to the oracle, the record lists them, and the outcome
heeds the answers. -/
def Heeded (oracle : Oracle σ) (el : Eliminator σ) (result : Except Fault α × Eliminator σ) : Prop :=
  ∃ qs, Inquiry oracle el qs result.2 ∧ Heeds oracle qs result.1

theorem Question.Settled.ne_unknown {q : Question} (h : q.Settled) : q.answer ≠ .ok .unknown := by
  rcases h with h | h <;> rw [h] <;> exact fun heq => (nomatch heq)

theorem Question.Settled.ne_error {q : Question} (h : q.Settled) (f : Fault) :
    q.answer ≠ .error f := by
  rcases h with h | h <;> rw [h] <;> exact fun heq => (nomatch heq)

theorem Heeds.of_settled {qs : List Question} {outcome : Except Fault α}
    (hqs : ∀ q ∈ qs, q.Settled) (ho : ∀ s, outcome ≠ .error (.undecided s)) :
    Heeds oracle qs outcome where
  unknown := by
    rintro before q after rfl hq
    exact absurd hq (hqs q (List.mem_append_right _ (.head _))).ne_unknown
  failure := by
    rintro before q after f rfl hq
    exact absurd hq ((hqs q (List.mem_append_right _ (.head _))).ne_error f)
  success := fun _ _ => hqs
  undecided := fun _ s hs => absurd hs (ho s)

/-- A member of a list is the last one, or stands before it. -/
theorem last_or_mem_of_append {γ : Type} {xs before after : List γ} {x y : γ}
    (h : xs ++ [x] = before ++ y :: after) : (after = [] ∧ y = x) ∨ y ∈ xs := by
  rcases List.eq_nil_or_concat after with rfl | ⟨rest, z, rfl⟩
  · exact .inl ⟨rfl, (List.singleton_inj.mp (List.append_inj_right' h rfl)).symm⟩
  · have hxs : xs ++ [x] = (before ++ y :: rest) ++ [z] := by
      rw [h, List.concat_eq_append, List.append_assoc, List.cons_append]
    rw [List.append_inj_left' hxs rfl]
    exact .inr (List.mem_append_right _ (.head _))

theorem Heeds.of_callsFor {before : List Question} {q : Question} {f : Fault} {m m' : σ}
    (hanswers : oracle.Answers m (before ++ [q]) m') (hbefore : ∀ q' ∈ before, q'.Settled)
    (hq : q.CallsFor f) : Heeds oracle (before ++ [q]) (.error f : Except Fault α) where
  unknown := by
    intro before' q' after heq hunknown
    rcases last_or_mem_of_append heq with ⟨rfl, rfl⟩ | hmem
    · rcases hq with ⟨-, rfl⟩ | herror
      · exact ⟨rfl, rfl⟩
      · rw [herror] at hunknown
        cases hunknown
    · exact absurd hunknown (hbefore q' hmem).ne_unknown
  failure := by
    intro before' q' after g heq herror
    rcases last_or_mem_of_append heq with ⟨rfl, rfl⟩ | hmem
    · rcases hq with ⟨hunknown, -⟩ | herror'
      · rw [hunknown] at herror
        cases herror
      · rw [herror'] at herror
        exact ⟨rfl, congrArg _ (Except.error.inj herror)⟩
    · exact absurd herror ((hbefore q' hmem).ne_error g)
  success := fun _ h => (nomatch h)
  undecided := by
    intro hcandid s hs
    obtain rfl := Except.error.inj hs
    rcases hq with ⟨hunknown, hf⟩ | herror
    · exact ⟨before, q, rfl, hunknown, (Fault.undecided.inj hf).symm⟩
    · obtain ⟨m₁, m₂, hm⟩ := hanswers.of_mem (List.mem_append_right _ (.head _))
      refine absurd ?_ (hcandid q.statement m₁ s)
      rw [hm, herror]

theorem Orderly.heeded {x : EliminateM σ α} (h : Orderly oracle x) (el : Eliminator σ) :
    Heeded oracle el (x el) := by
  cases hrun : x el with
  | mk outcome el' =>
    cases outcome with
    | error f =>
      obtain ⟨qs, hqs, ⟨hf, hsettled⟩ | ⟨before, q, rfl, hbefore, hq⟩⟩ := (h el).of_error hrun
      · exact ⟨qs, hqs, .of_settled hsettled fun s hs => hf s (Except.error.inj hs)⟩
      · exact ⟨_, hqs, .of_callsFor hqs.answers hbefore hq⟩
    | ok a =>
      obtain ⟨qs, hqs, hsettled⟩ := (h el).of_ok hrun
      exact ⟨qs, hqs, .of_settled hsettled fun s hs => (nomatch hs)⟩

/-- A proof is an attempt, followed by the report on it. -/
theorem Theorem.proveWith_eq (thm : Theorem) (settings : Settings) (memory : σ) :
    thm.proveWith settings oracle memory = (do
      let a ← thm.attempt settings.limits oracle
      let el ← get
      return thm.report settings a el.usage el.conditions : EliminateM σ Report) (start memory) := by
  unfold proveWith
  cases hrun : thm.attempt settings.limits oracle (start memory) with
  | mk outcome el =>
    cases outcome with
    | error f => rw [run_bind_error hrun]
    | ok a =>
      rw [run_bind hrun]
      rfl

end Outcomes

/-! ### The oracle of the prover -/

namespace Prover

theorem settle_ne_undecided (m : Memory) (s s' : Statement)
    (x : Except Fault Attempt × Eliminator Memory) :
    (settle m s x).1 ≠ .error (.undecided s') := by
  obtain ⟨outcome, el⟩ := x
  cases outcome with
  | ok a => exact fun h => (nomatch h)
  | error f => cases f <;> exact fun h => (nomatch h)

theorem candid_oracle (limits : Limits) (fig : Figure) : (oracle limits fig).Candid := by
  intro s m s'
  unfold oracle
  generalize limits.oracleDepth - m.depth = remaining
  cases hm : m.decided.lookup s.key with
  | some d =>
    rw [decideWithin_known remaining hm]
    exact fun h => (nomatch h)
  | none =>
    cases remaining with
    | zero =>
      rw [decideWithin_zero hm]
      exact fun h => (nomatch h)
    | succ deeper =>
      rw [decideWithin_succ deeper hm]
      exact settle_ne_undecided m s s' _

end Prover

/-- **Answers are heeded.** With any oracle, an elimination, a reduction to the
frame and a proof end at the first question that is not decided, with the fault
that names it, or at the first failure of the oracle, with that failure; and the
oracle of the prover has no failure that names a question. -/
theorem Oracle.answers_heeded :
    (∀ {σ : Type} (oracle : Oracle σ),
      (∀ fig e y el, Heeded oracle el (eliminate oracle fig e y el)) ∧
      (∀ fig e el, Heeded oracle el (toFrame oracle fig e el)) ∧
      ∀ (thm : Theorem) settings memory,
        Heeded oracle (start memory) (thm.proveWith settings oracle memory)) ∧
    (∀ limits fig, (Prover.oracle limits fig).Candid) ∧
    ∀ s, (Fault.undecided s).message = "Could not decide the auxiliary statement: " ++ s.text := by
  refine ⟨fun {σ} oracle => ⟨?_, ?_, ?_⟩, Prover.candid_oracle, fun _ => rfl⟩
  · exact fun fig e y el => (asks_eliminate fig e y).orderly.heeded el
  · exact fun fig e el => (asks_toFrame fig e).orderly.heeded el
  · intro thm settings memory
    have hattempt : Asks oracle (thm.attempt settings.limits oracle) := thm.asks_attempt _
    rw [Theorem.proveWith_eq]
    refine (hattempt.bind fun a => Asks.get.bind fun el => ?_).orderly.heeded _
    exact .pure (thm.report settings a el.usage el.conditions)

end AreaMethod
