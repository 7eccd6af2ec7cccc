/-
# What the counters of lemmas count

A run of elimination records a lemma whenever it uses one, and asks its oracle
questions; the oracle of the prover answers a new question by a trial, a run of
its own, with questions of its own. `Traced` says what is recorded in a run,
step by step, and which trials are made for it at any depth, apart from all
counters. An answer that is remembered calls for no trial.

The counters of a run add up what is recorded in it (`Traced.adds_usage`). The
memory of the oracle adds up what is recorded in the trials that finished
(`Prover.TriesWithin.adds_usage`), by induction on the depth. Behind a decision
all trials finished, so the counts of a report are exact
(`Theorem.counts_prove`). A trial that fails leaves no count of its own lemmas
(`Prover.counts_decideAll`).

Key definitions: `LemmaUsage.Adds`, `LemmaUsage.Counts`, `Trial`, `Traced`,
`Prover.TriesWithin`, `Theorem.Records`, `Prover.TriesAll`.
Key theorems: `Theorem.counts_prove`, `Prover.counts_decideAll`,
`Prover.decideAll_pole`.
-/
import Mathlib
import AreaMethod.Proofs.Poles
import AreaMethod.Proofs.Questions

namespace AreaMethod

open Eliminator

/-! ### Counters -/

theorem LemmaGroup.index_bijective : Function.Bijective LemmaGroup.index :=
  Function.bijective_iff_has_inverse.mpr ⟨![area, linearPythagoras, middlePythagoras, ratio],
    fun g => by cases g <;> rfl, fun i => by fin_cases i <;> rfl⟩

theorem ConstructionKind.index_bijective : Function.Bijective ConstructionKind.index :=
  Function.bijective_iff_has_inverse.mpr ⟨![intersection, foot, pratio, tratio],
    fun k => by cases k <;> rfl, fun i => by fin_cases i <;> rfl⟩

/-- Every slot belongs to one lemma. -/
theorem Lemma.index_bijective : Function.Bijective Lemma.index := by
  refine ⟨fun l l' h => ?_, fun i => ?_⟩
  · obtain ⟨g, k⟩ := l
    obtain ⟨g', k'⟩ := l'
    have hsum : 4 * g.index.val + k.index.val = 4 * g'.index.val + k'.index.val := congrArg Fin.val h
    obtain ⟨hg, hk⟩ : g.index = g'.index ∧ k.index = k'.index := by omega
    rw [LemmaGroup.index_bijective.1 hg, ConstructionKind.index_bijective.1 hk]
  · obtain ⟨g, hg⟩ := LemmaGroup.index_bijective.2 ⟨i / 4, by omega⟩
    obtain ⟨k, hk⟩ := ConstructionKind.index_bijective.2 ⟨i % 4, by omega⟩
    refine ⟨⟨g, k⟩, Fin.ext ?_⟩
    simp only [index, hg, hk]
    omega

namespace LemmaUsage

variable {u u' u'' v : LemmaUsage} {ls ls' : List Lemma}

theorem count_none (l : Lemma) : none.count l = 0 := by simp [count, none]

theorem count_record (u : LemmaUsage) (l l' : Lemma) :
    (u.record l).count l' = u.count l' + [l].count l' := by
  by_cases h : l = l'
  · subst h
    simp [count, record]
  · have hindex : l.index.val ≠ l'.index.val := fun heq => h (Lemma.index_bijective.1 (Fin.ext heq))
    simp [count, record, h, Vector.getElem_set_ne _ _ hindex]

theorem count_merge (u v : LemmaUsage) (l : Lemma) : (u.merge v).count l = u.count l + v.count l := by
  simp [count, merge]

/-- Between the two counts, the lemmas of the list were used and no others. -/
def Adds (u : LemmaUsage) (ls : List Lemma) (u' : LemmaUsage) : Prop :=
  ∀ l, u'.count l = u.count l + ls.count l

theorem Adds.refl (u : LemmaUsage) : u.Adds [] u := fun _ => rfl

theorem Adds.trans (h : u.Adds ls u') (h' : u'.Adds ls' u'') : u.Adds (ls ++ ls') u'' := by
  intro l
  rw [h' l, h l, List.count_append, Nat.add_assoc]

theorem adds_record (u : LemmaUsage) (l : Lemma) : u.Adds [l] (u.record l) := count_record u l

theorem Adds.merge (h : none.Adds ls v) (u : LemmaUsage) : u.Adds ls (u.merge v) := by
  intro l
  rw [count_merge, h l, count_none, Nat.zero_add]

/-- The slot of every lemma holds the number of times that it stands in the list. -/
def Counts (u : LemmaUsage) (ls : List Lemma) : Prop := ∀ l, u.slot l.index = ls.count l

theorem slot_index (u : LemmaUsage) (l : Lemma) : u.slot l.index = u.count l := by
  simp [slot, count]

theorem Adds.counts (h : none.Adds ls u) : u.Counts ls := by
  intro l
  rw [slot_index, h l, count_none, Nat.zero_add]

end LemmaUsage

/-! ### Traces -/

/-- An attempt of the oracle: whether it finished, and the lemmas recorded in it. -/
structure Trial where
  finished : Bool
  recorded : List Lemma

namespace Trial

/-- The lemmas recorded in the trials. -/
def lemmas (ts : List Trial) : List Lemma := ts.flatMap recorded

/-- The lemmas recorded in the trials that finished. -/
def finishedLemmas (ts : List Trial) : List Lemma := lemmas (ts.filter finished)

variable {ts ts' : List Trial}

theorem finishedLemmas_append :
    finishedLemmas (ts ++ ts') = finishedLemmas ts ++ finishedLemmas ts' := by
  simp [finishedLemmas, lemmas]

theorem finishedLemmas_of_all (h : ∀ t ∈ ts, t.finished = true) : finishedLemmas ts = lemmas ts := by
  rw [finishedLemmas, List.filter_eq_self.mpr h]

/-- Counters of the finished trials count all trials if nothing was recorded in the
others. -/
theorem counts_lemmas_iff {u : LemmaUsage} (h : u.Counts (finishedLemmas ts)) :
    u.Counts (lemmas ts) ↔ ∀ t ∈ ts, t.finished = false → t.recorded = [] := by
  have hperm := (List.filter_append_perm finished ts).flatMap_right recorded
  rw [List.flatMap_append] at hperm
  have hcounts : u.Counts (lemmas ts) ↔
      ∀ l, l ∉ lemmas (ts.filter fun t => !t.finished) := by
    refine forall_congr' fun l => ?_
    have hl : u.slot l.index = (finishedLemmas ts).count l := h l
    have hsplit : _ = (lemmas ts).count l := hperm.count_eq l
    rw [List.count_append] at hsplit
    rw [hl, ← hsplit, ← List.count_eq_zero]
    exact left_eq_add
  rw [hcounts, ← List.eq_nil_iff_forall_not_mem, lemmas, List.flatMap_eq_nil_iff]
  simp [List.mem_filter]

end Trial

section Traces

variable {σ : Type}

/-- Run from the record `el`, the computation records the lemmas `ls`, in this
order, and the oracle makes the trials `ts` for it. `trials` says which trials the
oracle makes for a question. -/
inductive Traced (oracle : Oracle σ) (trials : Statement → σ → List Trial → Prop) :
    {α : Type} → EliminateM σ α → Eliminator σ → List Lemma → List Trial → Prop
  | pure {α : Type} (a : α) (el : Eliminator σ) : Traced oracle trials (pure a) el [] []
  | throw {α : Type} (f : Fault) (el : Eliminator σ) :
    Traced oracle trials (throw f : EliminateM σ α) el [] []
  | get (el : Eliminator σ) : Traced oracle trials get el [] []
  | record (group : LemmaGroup) (how : Construction) (el : Eliminator σ) :
    Traced oracle trials (record group how) el [⟨group, how.kind⟩] []
  | require (e : Expr) (el : Eliminator σ) : Traced oracle trials (require e) el [] []
  | known {a b c : Point} {el : Eliminator σ} (h : el.known.decidesCollinear a b c = true) :
    Traced oracle trials (collinear oracle a b c) el [] []
  | asked {a b c : Point} {el : Eliminator σ} {ts : List Trial}
      (h : el.known.decidesCollinear a b c = false) (hts : trials (.collinear a b c) el.oracle ts) :
    Traced oracle trials (collinear oracle a b c) el [] ts
  /-- What follows a failure is not run. -/
  | fail {α β : Type} {x : EliminateM σ α} {f : α → EliminateM σ β} {el el' : Eliminator σ}
      {g : Fault} {ls : List Lemma} {ts : List Trial} (hx : Traced oracle trials x el ls ts)
      (hrun : x el = (.error g, el')) : Traced oracle trials (x >>= f) el ls ts
  | bind {α β : Type} {x : EliminateM σ α} {f : α → EliminateM σ β} {el el' : Eliminator σ}
      {a : α} {ls ls' : List Lemma} {ts ts' : List Trial} (hx : Traced oracle trials x el ls ts)
      (hrun : x el = (.ok a, el')) (hf : Traced oracle trials (f a) el' ls' ts') :
    Traced oracle trials (x >>= f) el (ls ++ ls') (ts ++ ts')

variable {α : Type} {oracle : Oracle σ} {trials : Statement → σ → List Trial → Prop}
  {x : EliminateM σ α} {el el' : Eliminator σ} {ls : List Lemma} {ts : List Trial}

theorem usage_collinear (oracle : Oracle σ) (a b c : Point) (el : Eliminator σ) :
    (collinear oracle a b c el).2.usage = el.usage := by
  cases h : el.known.decidesCollinear a b c with
  | true => rw [run_collinear_known h]
  | false =>
    rw [run_collinear_unknown h rfl]
    rcases (oracle (.collinear a b c) el.oracle).1 with f | _ | _ | _ <;> rfl

theorem oracle_collinear (a b c : Point) (h : el.known.decidesCollinear a b c = false) :
    (collinear oracle a b c el).2.oracle = (oracle (.collinear a b c) el.oracle).2 := by
  rw [run_collinear_unknown h rfl]
  rcases (oracle (.collinear a b c) el.oracle).1 with f | _ | _ | _ <;> rfl

/-- The record counts the lemmas that a run records. -/
theorem Traced.adds_usage (h : Traced oracle trials x el ls ts) :
    el.usage.Adds ls (x el).2.usage := by
  induction h with
  | pure a el => exact .refl _
  | throw f el => exact .refl _
  | get el => exact .refl _
  | record group how el => exact LemmaUsage.adds_record _ _
  | require e el => exact .refl _
  | @known a b c el h | @asked a b c el _ h _ =>
    rw [usage_collinear]
    exact .refl _
  | fail hx hrun ih =>
    rw [hrun] at ih
    rwa [run_bind_error hrun]
  | bind hx hrun hf ihx ihf =>
    rw [hrun] at ihx
    rw [run_bind hrun]
    exact ihx.trans ihf

/-- If the memory of the oracle counts the lemmas of the finished trials for every
question, it does so for a run. -/
theorem Traced.adds_memory (h : Traced oracle trials x el ls ts) (usage : σ → LemmaUsage)
    (horacle : ∀ s m ts, trials s m ts →
      (usage m).Adds (Trial.finishedLemmas ts) (usage (oracle s m).2)) :
    (usage el.oracle).Adds (Trial.finishedLemmas ts) (usage (x el).2.oracle) := by
  induction h with
  | pure a el => exact .refl _
  | throw f el => exact .refl _
  | get el => exact .refl _
  | record group how el => exact .refl _
  | require e el => exact .refl _
  | known h =>
    rw [run_collinear_known h]
    exact .refl _
  | asked h hts =>
    rw [oracle_collinear _ _ _ h]
    exact horacle _ _ _ hts
  | fail hx hrun ih =>
    rw [hrun] at ih
    rwa [run_bind_error hrun]
  | bind hx hrun hf ihx ihf =>
    rw [hrun] at ihx
    rw [run_bind hrun, Trial.finishedLemmas_append]
    exact ihx.trans ihf

/-- If the trials behind every decision finished, so did those of a run that
succeeds. -/
theorem Traced.all_finished (h : Traced oracle trials x el ls ts)
    (horacle : ∀ s m ts d, trials s m ts → (oracle s m).1 = .ok d → d ≠ .unknown →
      ∀ t ∈ ts, t.finished = true) {a : α} (hrun : x el = (.ok a, el')) :
    ∀ t ∈ ts, t.finished = true := by
  induction h generalizing el' with
  | pure | throw | get | record | require | known => exact fun _ ht => absurd ht List.not_mem_nil
  | @asked p q r el ts h hts =>
    rw [run_collinear_unknown h rfl] at hrun
    cases hanswer : (oracle (.collinear p q r) el.oracle).1 with
    | error f =>
      rw [hanswer] at hrun
      cases hrun
    | ok d =>
      refine horacle _ _ _ d hts hanswer fun hd => ?_
      rw [hanswer, hd] at hrun
      cases hrun
  | fail hx hfail ih =>
    rw [run_bind_error hfail] at hrun
    cases hrun
  | bind hx hmid hf ihx ihf =>
    rw [run_bind hmid] at hrun
    exact List.forall_mem_append.mpr ⟨ihx hmid, ihf hrun⟩

/-- Every run has a trace if every question has its trials. -/
theorem Asks.exists_traced (htrials : ∀ s m, ∃ ts, trials s m ts) (h : Asks oracle x)
    (el : Eliminator σ) : ∃ ls ts, Traced oracle trials x el ls ts := by
  induction h generalizing el with
  | pure a => exact ⟨_, _, .pure a el⟩
  | throw hf => exact ⟨_, _, .throw _ el⟩
  | get => exact ⟨_, _, .get el⟩
  | record group how => exact ⟨_, _, .record group how el⟩
  | require e => exact ⟨_, _, .require e el⟩
  | collinear a b c =>
    cases hknown : el.known.decidesCollinear a b c with
    | true => exact ⟨_, _, .known hknown⟩
    | false =>
      obtain ⟨ts, hts⟩ := htrials (.collinear a b c) el.oracle
      exact ⟨_, _, .asked hknown hts⟩
  | @bind α β x f hx hf ihx ihf =>
    obtain ⟨ls, ts, htrace⟩ := ihx el
    cases hrun : x el with
    | mk outcome el' =>
      cases outcome with
      | error g => exact ⟨_, _, .fail htrace hrun⟩
      | ok a =>
        obtain ⟨ls', ts', hrest⟩ := ihf a el'
        exact ⟨_, _, .bind htrace hrun hrest⟩

end Traces

/-! ### The trials of the prover -/

/-- What a nested oracle starts with. -/
def Memory.nested (m : Memory) : Memory := ⟨m.depth + 1, m.decided, .none⟩

namespace Prover

variable {limits : Limits} {fig : Figure} {s : Statement} {m : Memory} {ts : List Trial}

/-- The attempt at a question, with at most `deeper` levels of attempts below it. -/
def tryQuestion (limits : Limits) (deeper : ℕ) (fig : Figure) (s : Statement) :
    EliminateM Memory Attempt :=
  (question fig s).attempt limits (decideWithin limits deeper (fig.closure s.points))

theorem decideWithin_new (deeper : ℕ) (h : m.decided.lookup s.key = none) :
    decideWithin limits (deeper + 1) fig s m =
      settle m s (tryQuestion limits deeper fig s (start m.nested)) := decideWithin_succ deeper h

/-- The trials, at any depth, that the oracle makes to answer a question: none if it
remembers the answer or may go no deeper, and otherwise those that its own attempt
calls for, followed by this attempt. -/
def TriesWithin (limits : Limits) : ℕ → Figure → Statement → Memory → List Trial → Prop
  | 0, _, _, _, ts => ts = []
  | deeper + 1, fig, s, m, ts =>
    (m.decided.lookup s.key).isSome = true ∧ ts = [] ∨
      m.decided.lookup s.key = none ∧ ∃ ls nested,
        Traced (decideWithin limits deeper (fig.closure s.points))
          (TriesWithin limits deeper (fig.closure s.points)) (tryQuestion limits deeper fig s)
          (start m.nested) ls nested ∧
        ts = nested ++ [⟨(tryQuestion limits deeper fig s (start m.nested)).1.isOk, ls⟩]

theorem exists_triesWithin (limits : Limits) : ∀ (remaining : ℕ) (fig : Figure) (s : Statement)
    (m : Memory), ∃ ts, TriesWithin limits remaining fig s m ts
  | 0, _, _, _ => ⟨[], rfl⟩
  | deeper + 1, fig, s, m => by
    cases hm : m.decided.lookup s.key with
    | some d => exact ⟨[], .inl ⟨by rw [hm]; rfl, rfl⟩⟩
    | none =>
      have hasks : Asks (decideWithin limits deeper (fig.closure s.points))
          (tryQuestion limits deeper fig s) := (question fig s).asks_attempt limits
      obtain ⟨ls, nested, htrace⟩ := hasks.exists_traced
        (exists_triesWithin limits deeper (fig.closure s.points)) (start m.nested)
      exact ⟨_, .inr ⟨hm, ls, nested, htrace, rfl⟩⟩

theorem usage_settle_ok (a : Attempt) (el : Eliminator Memory) :
    (settle m s (.ok a, el)).2.usage = (m.usage.merge el.oracle.usage).merge el.usage := rfl

theorem usage_settle_error (f : Fault) (el : Eliminator Memory) :
    (settle m s (.error f, el)).2.usage = m.usage.merge el.oracle.usage := by
  cases f <;> rfl

theorem isOk_of_settle {x : Except Fault Attempt × Eliminator Memory} {d : Decision}
    (h : (settle m s x).1 = .ok d) (hd : d ≠ .unknown) : x.1.isOk = true := by
  obtain ⟨outcome, el⟩ := x
  cases outcome with
  | ok a => rfl
  | error f => cases f <;> cases h <;> exact absurd rfl hd

/-- The memory counts the lemmas of the trials that finished. -/
theorem TriesWithin.adds_usage {remaining : ℕ} (h : TriesWithin limits remaining fig s m ts) :
    m.usage.Adds (Trial.finishedLemmas ts) (decideWithin limits remaining fig s m).2.usage := by
  induction remaining generalizing fig s m ts with
  | zero =>
    obtain rfl : ts = [] := h
    cases hm : m.decided.lookup s.key with
    | some d =>
      rw [decideWithin_known 0 hm]
      exact .refl _
    | none =>
      rw [decideWithin_zero hm]
      exact .refl _
  | succ deeper ih =>
    rcases h with ⟨hsome, rfl⟩ | ⟨hm, ls, nested, htrace, rfl⟩
    · obtain ⟨d, hm⟩ := Option.isSome_iff_exists.mp hsome
      rw [decideWithin_known _ hm]
      exact .refl _
    · have hnested := htrace.adds_memory Memory.usage fun _ _ _ hts => ih hts
      have hown := htrace.adds_usage
      rw [decideWithin_new deeper hm, Trial.finishedLemmas_append]
      cases hresult : tryQuestion limits deeper fig s (start m.nested) with
      | mk outcome el =>
        rw [hresult] at hnested hown
        cases outcome with
        | ok a =>
          -- the lemmas of the last trial alone are `ls ++ []`
          rw [usage_settle_ok]
          rw [← List.append_nil ls] at hown
          exact (hnested.merge _).trans (hown.merge _)
        | error f =>
          -- only what the nested oracle counted is kept
          rw [usage_settle_error]
          exact (hnested.merge _).trans (.refl _)

/-- Behind a decision, all trials finished. -/
theorem TriesWithin.all_finished {remaining : ℕ} (h : TriesWithin limits remaining fig s m ts)
    {d : Decision} (hanswer : (decideWithin limits remaining fig s m).1 = .ok d) (hd : d ≠ .unknown) :
    ∀ t ∈ ts, t.finished = true := by
  induction remaining generalizing fig s m ts d with
  | zero =>
    obtain rfl : ts = [] := h
    exact fun _ ht => absurd ht List.not_mem_nil
  | succ deeper ih =>
    rcases h with ⟨-, rfl⟩ | ⟨hm, ls, nested, htrace, rfl⟩
    · exact fun _ ht => absurd ht List.not_mem_nil
    · rw [decideWithin_new deeper hm] at hanswer
      have hok := isOk_of_settle hanswer hd
      cases hresult : tryQuestion limits deeper fig s (start m.nested) with
      | mk outcome el =>
        rw [hresult] at hok
        cases outcome with
        | error f => cases hok
        | ok a =>
          have hnested := htrace.all_finished (fun _ _ _ _ hts => ih hts) hresult
          exact List.forall_mem_append.mpr ⟨hnested, List.forall_mem_singleton.mpr rfl⟩

/-- The trials for a question to the oracle of the prover. -/
def Tries (limits : Limits) (fig : Figure) (s : Statement) (m : Memory) (ts : List Trial) : Prop :=
  TriesWithin limits (limits.oracleDepth - m.depth) fig s m ts

end Prover

/-! ### Proofs -/

/-- The attempt at a theorem records the lemmas `ls`, and the oracle makes the
trials `ts` for it. -/
def Theorem.Records (thm : Theorem) (limits : Limits) (ls : List Lemma) (ts : List Trial) : Prop :=
  Traced (Prover.oracle limits thm.figure) (Prover.Tries limits thm.figure)
    (thm.attempt limits (Prover.oracle limits thm.figure)) (start .blank) ls ts

theorem Theorem.exists_records (thm : Theorem) (limits : Limits) :
    ∃ ls ts, thm.Records limits ls ts := by
  have hasks : Asks (Prover.oracle limits thm.figure) _ := thm.asks_attempt limits
  exact hasks.exists_traced (fun s m => Prover.exists_triesWithin limits _ thm.figure s m) _

/-- **The counts of a report are exact.** Each slot belongs to one lemma, and holds
the number of times that this lemma was recorded in the attempt and in the trials
made for it, which all finished. -/
theorem Theorem.counts_prove (thm : Theorem) (settings : Settings) {r : Report}
    (hr : thm.prove settings = .ok r) :
    Function.Bijective Lemma.index ∧ (∃ ls ts, thm.Records settings.limits ls ts) ∧
    ∀ ls ts, thm.Records settings.limits ls ts →
      (∀ t ∈ ts, t.finished = true) ∧ r.usage.Counts (ls ++ Trial.lemmas ts) := by
  refine ⟨Lemma.index_bijective, thm.exists_records _, fun ls ts h => ?_⟩
  obtain ⟨a, el, hrun, rfl⟩ := prove_eq_ok.mp hr
  have hown := h.adds_usage
  have htrials := h.adds_memory Memory.usage fun _ _ _ hts => hts.adds_usage
  have hall : ∀ t ∈ ts, t.finished = true :=
    h.all_finished (fun _ _ _ _ hts => hts.all_finished) hrun
  rw [Trial.finishedLemmas_of_all hall] at htrials
  change thm.attempt settings.limits (Prover.oracle settings.limits thm.figure) (start .blank) =
    (.ok a, el) at hrun
  rw [hrun] at hown htrials
  exact ⟨hall, (hown.trans (htrials.merge _)).counts⟩

namespace OnSegment

open Letters

/-- The record of a trial after the midpoint was eliminated from an area. -/
def tried : Eliminator Memory :=
  ⟨Memory.blank.nested, .empty, LemmaUsage.none.record ⟨.area, .pratio⟩, [], []⟩

theorem try_collinear (deeper : ℕ) : Prover.tryQuestion .standard deeper figure (.collinear b a m)
    (start Memory.blank.nested) = (.ok ⟨[⟨m, 1⟩], .zero, .constant 1⟩, tried) := by
  have hclosure : figure.closure (Statement.collinear b a m).points = figure := by decide
  unfold Prover.tryQuestion Prover.question
  rw [hclosure]
  generalize Prover.decideWithin .standard deeper figure = oracle
  have hstart : ((Statement.collinear b a m).zeroExpr.canonical .empty).simplify =
      .ok (.neg (.area a b m)) := Expr.simplify_of_fixed rfl
  have hreplace : replace oracle m (.pratio a a b (1 / 2)) (.neg (.area a b m))
      (start Memory.blank.nested) = (.ok (.neg shifted), tried) := rfl
  have hreduce : reduce (.neg shifted) tried = (.ok 0, tried) := by
    refine run_liftExcept ?_ tried
    exact (Expr.simplify_of_pass (by decide +kernel) (by decide)).trans (Expr.simplify_of_fixed rfl)
  have hzero : reduce 0 tried = (.ok 0, tried) := run_liftExcept (Expr.simplify_of_fixed rfl) tried
  have heliminate : eliminate oracle figure (.neg (.area a b m)) m (start Memory.blank.nested) =
      (.ok 0, tried) := (run_bind hreplace).trans hreduce
  have hall : eliminateAll .standard oracle figure [m] (.neg (.area a b m)) []
      (start Memory.blank.nested) = (.ok (0, [⟨m, 1⟩]), tried) := (run_bind heliminate).trans rfl
  refine (run_bind (run_liftExcept hstart _)).trans ?_
  exact (run_bind (b := ()) rfl).trans ((run_bind hall).trans ((run_bind hzero).trans rfl))

/-- What the oracle remembers of the question whether the midpoint lies on the line. -/
def remembered : Memory :=
  ⟨0, [((Statement.collinear b a m).key, .holds)], (LemmaUsage.none.merge .none).merge tried.usage⟩

theorem oracle_midpoint : Prover.oracle .standard figure (.collinear b a m) .blank =
    (.ok .holds, remembered) := by
  change Prover.decideWithin .standard 3 figure (.collinear b a m) .blank = _
  rw [Prover.decideWithin_new 2 rfl, try_collinear]
  rfl

/-- The midpoint is half a segment from the one end, against its direction. -/
def halved : Theorem := built (.ratio b m a b) (.fraction (.number (-1)) 2)

/-- The record after the midpoint was eliminated from the ratio. -/
def divided : Eliminator Memory :=
  ⟨remembered, Triples.empty.insert b a m, LemmaUsage.none.record ⟨.ratio, .pratio⟩, [1],
    [⟨.collinear b a m, .ok .holds⟩]⟩

theorem run_halved :
    halved.run .standard = (.ok ⟨[⟨m, 1⟩], .zero, .constant 1⟩, divided) := by
  have hstart : (halved.statement.zeroExpr.canonical .empty).simplify =
      .ok (.sum (.ratio b m a b) (.fraction 1 2)) :=
    (Expr.simplify_of_pass (by decide +kernel) (by decide)).trans
      (Expr.simplify_of_fixed (by decide +kernel))
  have hcollinear : collinear (Prover.oracle .standard figure) b a m
      ⟨.blank, .empty, LemmaUsage.none.record ⟨.ratio, .pratio⟩, [], []⟩ =
      (.ok true, ⟨remembered, Triples.empty.insert b a m,
        LemmaUsage.none.record ⟨.ratio, .pratio⟩, [], [⟨.collinear b a m, .ok .holds⟩]⟩) :=
    (run_collinear_unknown rfl oracle_midpoint).trans rfl
  have hratio : quantity (Prover.oracle .standard figure) m (.pratio a a b (1 / 2))
      (.ratio b m a b) (start .blank) =
      (.ok (.fraction (.ratio b a a b + 1 / 2) (.ratio a b a b)), divided) := by
    refine (run_bind (b := ()) rfl).trans ((run_bind hcollinear).trans ?_)
    rfl
  have hreplace : replace (Prover.oracle .standard figure) m (.pratio a a b (1 / 2))
      (.sum (.ratio b m a b) (.fraction 1 2)) (start .blank) =
      (.ok (.sum (.fraction (.ratio b a a b + 1 / 2) (.ratio a b a b)) (.fraction 1 2)), divided) :=
    (run_bind hratio).trans rfl
  have hreduce : reduce (.sum (.fraction (.ratio b a a b + 1 / 2) (.ratio a b a b)) (.fraction 1 2))
      divided = (.ok 0, divided) := by
    refine run_liftExcept ?_ divided
    exact (Expr.simplify_of_pass (by decide +kernel) (by decide)).trans (Expr.simplify_of_fixed rfl)
  have heliminate : eliminate (Prover.oracle .standard figure) figure
      (.sum (.ratio b m a b) (.fraction 1 2)) m (start .blank) = (.ok 0, divided) :=
    (run_bind hreplace).trans hreduce
  refine run_built hstart rfl ?_
  exact (run_bind heliminate).trans rfl

end OnSegment

open OnSegment Letters in
/-- One lemma is recorded in the proof and one in the trial that it calls for. -/
theorem Theorem.counts_prove_halved : ∃ r, halved.prove .standard = .ok r ∧
    r.usage.counts.toList = [0, 0, 1, 0, 0, 0, 0, 0, 0, 0, 0, 0, 0, 0, 1, 0] ∧
    (∃ ls ts, halved.Records .standard ls ts) ∧
    ∀ ls ts, halved.Records .standard ls ts →
      (∀ t ∈ ts, t.finished = true) ∧ r.usage.Counts (ls ++ Trial.lemmas ts) := by
  have hprove : halved.prove .standard = .ok (halved.reportAll .standard
      ⟨[⟨m, 1⟩], .zero, .constant 1⟩ divided) := prove_eq_ok.mpr ⟨_, _, run_halved, rfl⟩
  obtain ⟨-, hexists, hcounts⟩ := halved.counts_prove .standard hprove
  exact ⟨_, hprove, by decide +kernel, hexists, hcounts⟩

/-! ### Decisions one after the other -/

namespace Prover

/-- What is remembered after a sequence of questions, each about its figure. -/
def decideAll (limits : Limits) : Memory → List (Figure × Statement) → Memory
  | m, [] => m
  | m, q :: qs => decideAll limits (oracle limits q.1 q.2 m).2 qs

/-- The trials for a sequence of questions. -/
def TriesAll (limits : Limits) : Memory → List (Figure × Statement) → List Trial → Prop
  | _, [], ts => ts = []
  | m, q :: qs, ts => ∃ first rest, Tries limits q.1 q.2 m first ∧
      TriesAll limits (oracle limits q.1 q.2 m).2 qs rest ∧ ts = first ++ rest

theorem exists_triesAll (limits : Limits) : ∀ (m : Memory) (qs : List (Figure × Statement)),
    ∃ ts, TriesAll limits m qs ts
  | _, [] => ⟨[], rfl⟩
  | m, q :: qs => by
    obtain ⟨first, hfirst⟩ := exists_triesWithin limits (limits.oracleDepth - m.depth) q.1 q.2 m
    obtain ⟨rest, hrest⟩ := exists_triesAll limits (oracle limits q.1 q.2 m).2 qs
    exact ⟨_, first, rest, hfirst, hrest, rfl⟩

theorem TriesAll.adds_usage {limits : Limits} {m : Memory} {qs : List (Figure × Statement)}
    {ts : List Trial} (h : TriesAll limits m qs ts) :
    m.usage.Adds (Trial.finishedLemmas ts) (decideAll limits m qs).usage := by
  induction qs generalizing m ts with
  | nil =>
    obtain rfl : ts = [] := h
    exact .refl _
  | cons q qs ih =>
    obtain ⟨first, rest, hfirst, hrest, rfl⟩ := h
    rw [Trial.finishedLemmas_append]
    exact hfirst.adds_usage.trans (ih hrest)

/-- **The memory counts the trials that finished.** After any questions, each slot
holds the number of times that its lemma was recorded in the trials that finished,
at any depth. So all trials are counted just if nothing was recorded in those that
failed. -/
theorem counts_decideAll (limits : Limits) (qs : List (Figure × Statement)) :
    (∃ ts, TriesAll limits .blank qs ts) ∧ ∀ ts, TriesAll limits .blank qs ts →
      (decideAll limits .blank qs).usage.Counts (Trial.finishedLemmas ts) ∧
      ((decideAll limits .blank qs).usage.Counts (Trial.lemmas ts) ↔
        ∀ t ∈ ts, t.finished = false → t.recorded = []) := by
  refine ⟨exists_triesAll limits .blank qs, fun ts h => ?_⟩
  have hcounts := h.adds_usage.counts
  exact ⟨hcounts, Trial.counts_lemmas_iff hcounts⟩

end Prover

namespace OnSegment

open Letters

theorem try_pole (deeper : ℕ) : Prover.tryQuestion .standard deeper figure (.equal pole 0)
    (start Memory.blank.nested) = (.error (.divisionByZero (.fraction 1 0)), tried) := by
  have hclosure : figure.closure (Statement.equal pole 0).points = figure := by decide
  unfold Prover.tryQuestion Prover.question
  rw [hclosure]
  generalize Prover.decideWithin .standard deeper figure = oracle
  have hstart : ((Statement.equal pole 0).zeroExpr.canonical .empty).simplify = .ok pole :=
    (Expr.simplify_of_pass rfl (by decide)).trans (Expr.simplify_of_fixed rfl)
  have hreplace : replace oracle m (.pratio a a b (1 / 2)) pole (start Memory.blank.nested) =
      (.ok (.fraction 1 shifted), tried) := rfl
  have hsimplify : ((Expr.fraction 1 shifted).canonical .empty).simplify =
      .error (.divisionByZero (.fraction 1 0)) := Expr.simplify_of_error (by decide +kernel)
  have hreduce : reduce (.fraction 1 shifted) tried =
      (.error (.divisionByZero (.fraction 1 0)), tried) := by
    refine (run_bind (b := tried) rfl).trans ?_
    change (liftExcept ((Expr.fraction 1 shifted).canonical .empty).simplify :
      EliminateM Memory Expr) tried = _
    rw [hsimplify]
    rfl
  have heliminate : eliminate oracle figure pole m (start Memory.blank.nested) =
      (.error (.divisionByZero (.fraction 1 0)), tried) := (run_bind hreplace).trans hreduce
  have hall : eliminateAll .standard oracle figure [m] pole [] (start Memory.blank.nested) =
      (.error (.divisionByZero (.fraction 1 0)), tried) := run_bind_error heliminate
  refine (run_bind (run_liftExcept hstart _)).trans ?_
  exact (run_bind (b := ()) rfl).trans (run_bind_error hall)

end OnSegment

open OnSegment Letters in
/-- **Trials that fail are not counted.** A lemma is recorded in the trial for one
over a vanishing area, which fails when it divides, and the counters stay at zero. -/
theorem Prover.decideAll_pole :
    (decideAll .standard .blank [(figure, .equal pole 0)]).usage = .none ∧
    (∃ ts, TriesAll .standard .blank [(figure, .equal pole 0)] ts) ∧
    ∀ ts, TriesAll .standard .blank [(figure, .equal pole 0)] ts →
      ⟨.area, .pratio⟩ ∈ Trial.lemmas ts ∧
      ¬ (decideAll .standard .blank [(figure, .equal pole 0)]).usage.Counts (Trial.lemmas ts) := by
  have hrun : (decideAll .standard .blank [(figure, .equal pole 0)]).usage = .none := by
    change (decideWithin .standard 3 figure (.equal pole 0) .blank).2.usage = .none
    rw [decideWithin_new 2 rfl, try_pole, usage_settle_error]
    decide +kernel
  refine ⟨hrun, exists_triesAll _ _ _, fun ts h => ?_⟩
  have hmem : ⟨.area, .pratio⟩ ∈ Trial.lemmas ts := by
    obtain ⟨first, rest, hfirst | ⟨-, ls, nested, htrace, rfl⟩, -, rfl⟩ := h
    · cases hfirst.1
    · have hadds := htrace.adds_usage
      rw [try_pole] at hadds
      have hls : tried.usage.count ⟨.area, .pratio⟩ =
          LemmaUsage.none.count ⟨.area, .pratio⟩ + ls.count ⟨.area, .pratio⟩ := hadds _
      have hused : tried.usage.count ⟨.area, .pratio⟩ = 1 := by decide
      rw [hused, LemmaUsage.count_none, Nat.zero_add] at hls
      have hmem : ⟨.area, .pratio⟩ ∈ ls := List.count_pos_iff.mp (hls ▸ Nat.one_pos)
      simp only [Trial.lemmas, List.flatMap_append, List.mem_append, List.mem_flatMap,
        List.mem_singleton]
      exact .inl (.inr ⟨_, rfl, hmem⟩)
  refine ⟨hmem, fun hcounts => ?_⟩
  have hzero := hcounts ⟨.area, .pratio⟩
  rw [hrun] at hzero
  exact absurd hmem (List.count_eq_zero.mp hzero.symm)

end AreaMethod
