/-
# Known triples

An eliminator remembers the triples that its oracle found collinear. It is shown
here that it remembers nothing else and forgets none of them, and does not ask about
them again: a question reaches the oracle only if its three points are different and
their triple is not known, and the triple becomes known just if the answer is that it
holds.

This is an invariant of the record (`Eliminator.Attentive`). One question keeps it,
whatever the answer is (`Eliminator.attentive_collinear`), hence every computation that
only asks keeps it, also if it fails (`Asks.attentive`), and hence every sequence of calls
does (`Call.attentive_runAll`).

Key definitions: `Question.About`, `Eliminator.Necessary`, `Eliminator.Attentive`, `Call`,
`Call.runAll`.
Key theorems: `Eliminator.Attentive.has_iff`, `Asks.attentive`, `Call.known_runAll`.
-/
import Mathlib
import AreaMethod.Proofs.CanonicalForm
import AreaMethod.Proofs.Questions

namespace AreaMethod

open Eliminator

/-! ### Questions -/

namespace Question

variable {q : Question} {a b c a' b' c' : Point}

/-- The question is whether these three points are collinear, in whatever order it names
them. -/
def About (q : Question) (a b c : Point) : Prop :=
  ∃ a' b' c', q.statement = .collinear a' b' c' ∧ [a', b', c'].Perm [a, b, c]

/-- The oracle answered that the statement holds. -/
def affirmed (q : Question) : Bool :=
  match q.answer with
  | .ok .holds => true
  | _ => false

theorem affirmed_iff : q.affirmed = true ↔ q.answer = .ok .holds := by
  unfold affirmed
  split
  next h => simp [h]
  next h => exact iff_of_false Bool.false_ne_true h

theorem About.of_perm (h : q.About a b c) (hperm : [a, b, c].Perm [a', b', c']) :
    q.About a' b' c' := by
  obtain ⟨x, y, z, hq, hxyz⟩ := h
  exact ⟨x, y, z, hq, hxyz.trans hperm⟩

theorem about_collinear {answer : Except Fault Decision} :
    (⟨.collinear a b c, answer⟩ : Question).About a' b' c' ↔ [a, b, c].Perm [a', b', c'] := by
  constructor
  · rintro ⟨x, y, z, hq, hxyz⟩
    cases hq
    exact hxyz
  · exact fun h => ⟨a, b, c, rfl, h⟩

end Question

/-! ### The record -/

namespace Eliminator

variable {σ : Type} {el el' : Eliminator σ} {oracle : Oracle σ} {a b c : Point}

/-- All questions are about three different points, and none about a triple that was
affirmed before. -/
structure Necessary (qs : List Question) : Prop where
  distinct : ∀ q ∈ qs, ∃ a b c, q.statement = .collinear a b c ∧ [a, b, c].Nodup
  once : qs.Pairwise fun q q' => q.affirmed = true → ∀ a b c, q.About a b c → ¬ q'.About a b c

/-- Only necessary questions were asked, and the known triples are those that were
affirmed, each once. -/
structure Attentive (el : Eliminator σ) : Prop where
  remembers : el.Remembers
  size : el.known.size = el.asked.countP (·.affirmed)
  necessary : Necessary el.asked

theorem attentive_start (memory : σ) : (start memory).Attentive where
  remembers := remembers_start memory
  size := rfl
  necessary := ⟨by simp [start], .nil⟩

theorem Attentive.of_eq (h : el.Attentive) (hknown : el'.known = el.known)
    (hasked : el'.asked = el.asked) : el'.Attentive where
  remembers t := by
    rw [hknown, hasked]
    exact h.remembers t
  size := by
    rw [hknown, hasked]
    exact h.size
  necessary := hasked ▸ h.necessary

/-- A triple is known just if a question about it was affirmed. -/
theorem Attentive.has_iff (h : el.Attentive) :
    el.known.has a b c = true ↔ ∃ q ∈ el.asked, q.affirmed = true ∧ q.About a b c := by
  rw [Triples.has, List.contains_iff_mem, h.remembers]
  constructor
  · rintro ⟨x, y, z, hmem, hsorted⟩
    obtain ⟨x', y', z', hstatement, hnodup⟩ := h.necessary.distinct _ hmem
    cases hstatement
    exact ⟨_, hmem, rfl, Question.about_collinear.mpr
      ((sortThree_eq_iff_perm hnodup).mp hsorted.symm)⟩
  · rintro ⟨⟨statement, answer⟩, hmem, haffirmed, x, y, z, hstatement, hperm⟩
    obtain rfl : answer = .ok .holds := Question.affirmed_iff.mp haffirmed
    obtain rfl : statement = .collinear x y z := hstatement
    obtain ⟨x', y', z', hsame, hnodup⟩ := h.necessary.distinct _ hmem
    cases hsame
    exact ⟨x, y, z, hmem, ((sortThree_eq_iff_perm hnodup).mpr hperm).symm⟩

/-- A question about three different points and a triple that is not known is necessary. -/
theorem Attentive.append (h : el.Attentive) (hnodup : [a, b, c].Nodup)
    (hnew : el.known.has a b c = false) (answer : Except Fault Decision) :
    Necessary (el.asked ++ [⟨.collinear a b c, answer⟩]) where
  distinct := by
    refine List.forall_mem_append.mpr ⟨h.necessary.distinct, ?_⟩
    exact List.forall_mem_singleton.mpr ⟨a, b, c, rfl, hnodup⟩
  once := by
    refine List.pairwise_append.mpr ⟨h.necessary.once, List.pairwise_singleton _ _, ?_⟩
    intro q hq q' hq' haffirmed x y z habout habout'
    obtain rfl := List.mem_singleton.mp hq'
    have hknown : el.known.has a b c = true :=
      h.has_iff.mpr ⟨q, hq, haffirmed, habout.of_perm (Question.about_collinear.mp habout').symm⟩
    rw [hnew] at hknown
    cases hknown

theorem Attentive.answered (h : el.Attentive) (hnodup : [a, b, c].Nodup)
    (hnew : el.known.has a b c = false) {answer : Except Fault Decision}
    (hanswer : answer ≠ .ok .holds) (memory : σ) :
    (el.answered (.collinear a b c) answer memory).Attentive where
  remembers := h.remembers.answered hanswer memory
  size := by
    have hnone : ¬ (⟨.collinear a b c, answer⟩ : Question).affirmed = true :=
      fun haffirmed => hanswer (Question.affirmed_iff.mp haffirmed)
    change el.known.size = (el.asked ++ [_]).countP _
    rw [List.countP_append, List.countP_singleton, if_neg hnone, h.size, Nat.add_zero]
  necessary := h.append hnodup hnew answer

theorem Attentive.learned (h : el.Attentive) (hnodup : [a, b, c].Nodup)
    (hnew : el.known.has a b c = false) (memory : σ) :
    ((el.answered (.collinear a b c) (.ok .holds) memory).learned a b c).Attentive where
  remembers := h.remembers.learned a b c memory
  size := by
    change (el.known.insert a b c).size = (el.asked ++ [_]).countP _
    rw [List.countP_append, ← h.size, Triples.insert, hnew]
    rfl
  necessary := h.append hnodup hnew (.ok .holds)

/-- **One question.** The oracle is asked only if the points do not decide the question
and the triple is not known. -/
theorem attentive_collinear (h : el.Attentive) (a b c : Point) :
    (collinear oracle a b c el).2.Attentive := by
  cases hdecided : el.known.decidesCollinear a b c with
  | true =>
    rw [run_collinear_known hdecided]
    exact h
  | false =>
    have hopen := Triples.decidesCollinear_iff.not.mp (Bool.eq_false_iff.mp hdecided)
    obtain ⟨hpoints, hnew⟩ := not_or.mp hopen
    have hnodup : [a, b, c].Nodup := by
      rw [nodup_three]
      tauto
    have hnew : el.known.has a b c = false := Bool.eq_false_iff.mpr hnew
    cases hanswer : oracle (.collinear a b c) el.oracle with
    | mk answer memory =>
      rw [run_collinear_unknown hdecided hanswer]
      cases answer with
      | error f => exact h.answered hnodup hnew (fun heq => by cases heq) memory
      | ok d =>
        cases d with
        | holds => exact h.learned hnodup hnew memory
        | fails => exact h.answered hnodup hnew (fun heq => by cases heq) memory
        | unknown => exact h.answered hnodup hnew (fun heq => by cases heq) memory

end Eliminator

/-- **Computations that only ask are attentive**, whether they succeed or fail: by
induction on how they are put together. -/
theorem Asks.attentive {σ α : Type} {oracle : Oracle σ} {x : EliminateM σ α} (h : Asks oracle x) :
    ∀ {el : Eliminator σ}, el.Attentive → (x el).2.Attentive := by
  induction h with
  | pure a => exact id
  | throw hf => exact id
  | get => exact id
  | record group how => exact fun hel => hel.of_eq rfl rfl
  | require e => exact fun hel => hel.of_eq rfl rfl
  | collinear a b c => exact fun hel => attentive_collinear hel a b c
  | @bind α β x f hx hf ihx ihf =>
    intro el hel
    have hfirst := ihx hel
    cases hrun : x el with
    | mk outcome el' =>
      rw [hrun] at hfirst
      cases outcome with
      | error g =>
        rw [run_bind_error hrun]
        exact hfirst
      | ok a =>
        rw [run_bind hrun]
        exact ihf a hfirst

/-! ### Sequences of calls -/

/-- What can be asked of an eliminator from outside. -/
inductive Call where
  | eliminate (fig : Figure) (e : Expr) (y : Point)
  | toFrame (fig : Figure) (e : Expr)
  | collinear (a b c : Point)

namespace Call

variable {σ : Type}

/-- The record after a call, whether it succeeds or fails. -/
def run (oracle : Oracle σ) : Call → Eliminator σ → Eliminator σ
  | eliminate fig e y, el => (Eliminator.eliminate oracle fig e y el).2
  | toFrame fig e, el => (Eliminator.toFrame oracle fig e el).2
  | collinear a b c, el => (Eliminator.collinear oracle a b c el).2

/-- The record after a sequence of calls. -/
def runAll (oracle : Oracle σ) : List Call → Eliminator σ → Eliminator σ
  | [], el => el
  | call :: calls, el => runAll oracle calls (call.run oracle el)

theorem exists_inquiry_run (oracle : Oracle σ) (call : Call) (el : Eliminator σ) :
    ∃ qs, Inquiry oracle el qs (call.run oracle el) := by
  have hasks : ∀ {α : Type} {x : EliminateM σ α}, Asks oracle x →
      ∃ qs, Inquiry oracle el qs (x el).2 := by
    intro α x hx
    obtain ⟨qs, hqs, -⟩ := hx.orderly.heeded el
    exact ⟨qs, hqs⟩
  cases call with
  | eliminate fig e y => exact hasks (asks_eliminate fig e y)
  | toFrame fig e => exact hasks (asks_toFrame fig e)
  | collinear a b c => exact hasks (.collinear a b c)

theorem exists_inquiry_runAll (oracle : Oracle σ) (calls : List Call) (el : Eliminator σ) :
    ∃ qs, Inquiry oracle el qs (runAll oracle calls el) := by
  induction calls generalizing el with
  | nil => exact ⟨[], .none rfl rfl⟩
  | cons call calls ih =>
    obtain ⟨qs, hqs⟩ := exists_inquiry_run oracle call el
    obtain ⟨qs', hqs'⟩ := ih (call.run oracle el)
    exact ⟨qs ++ qs', hqs.append hqs'⟩

theorem attentive_run (oracle : Oracle σ) (call : Call) {el : Eliminator σ} (h : el.Attentive) :
    (call.run oracle el).Attentive := by
  cases call with
  | eliminate fig e y => exact (asks_eliminate fig e y).attentive h
  | toFrame fig e => exact (asks_toFrame fig e).attentive h
  | collinear a b c => exact attentive_collinear h a b c

theorem attentive_runAll (oracle : Oracle σ) (calls : List Call) {el : Eliminator σ}
    (h : el.Attentive) : (runAll oracle calls el).Attentive := by
  induction calls generalizing el with
  | nil => exact h
  | cons call calls ih => exact ih (attentive_run oracle call h)

/-- **The known triples are what the oracle affirmed.** After any sequence of calls, of
which any may have failed, the record knows the triples about which a question was
affirmed, each once; all questions were about three different points; and after a triple
was affirmed there was no question about it, in any order of its points. -/
theorem known_runAll (oracle : Oracle σ) (memory : σ) (calls : List Call) :
    ∃ qs, Inquiry oracle (start memory) qs (runAll oracle calls (start memory)) ∧
      (∀ a b c, (runAll oracle calls (start memory)).known.has a b c = true ↔
        ∃ q ∈ qs, q.affirmed = true ∧ q.About a b c) ∧
      (runAll oracle calls (start memory)).known.size = qs.countP (·.affirmed) ∧
      (∀ q ∈ qs, ∃ a b c, q.statement = .collinear a b c ∧ a ≠ b ∧ b ≠ c ∧ a ≠ c) ∧
      ∀ before q after, qs = before ++ q :: after → q.affirmed = true →
        ∀ a b c, q.About a b c → ∀ q' ∈ after, ¬ q'.About a b c := by
  have hattentive := attentive_runAll oracle calls (attentive_start memory)
  obtain ⟨qs, hqs⟩ := exists_inquiry_runAll oracle calls (start memory)
  have hasked : (runAll oracle calls (start memory)).asked = qs := hqs.asked
  refine ⟨qs, hqs, fun a b c => ?_, ?_, ?_, ?_⟩
  · rw [hattentive.has_iff, hasked]
  · rw [hattentive.size, hasked]
  · intro q hq
    obtain ⟨a, b, c, hstatement, hnodup⟩ := hattentive.necessary.distinct q (hasked ▸ hq)
    exact ⟨a, b, c, hstatement, nodup_three.mp hnodup⟩
  · intro before q after hsplit haffirmed a b c habout q' hq'
    have honce := hattentive.necessary.once
    rw [hasked, hsplit] at honce
    have hafter := (List.pairwise_cons.mp (List.pairwise_append.mp honce).2.1).1
    exact hafter q' hq' haffirmed a b c habout

end Call

/-! ### A session -/

/-- What is left to do after the replacement does not change the record. -/
theorem Call.run_eliminate {σ : Type} {oracle : Oracle σ} {fig : Figure} {e e' : Expr} {y : Point}
    {how : Construction} {el el' : Eliminator σ} (hhow : fig.construction? y = some how)
    (hreplace : replace oracle y how e el = (.ok e', el')) :
    (Call.eliminate fig e y).run oracle el = el' := by
  have hreduce : (reduce e' el').2 = el' := by
    change ((liftExcept (e'.canonical el'.known).simplify : EliminateM σ Expr) el').2 = el'
    cases (e'.canonical el'.known).simplify <;> rfl
  change (Eliminator.eliminate oracle fig e y el).2 = el'
  unfold Eliminator.eliminate
  rw [hhow]
  exact (congrArg Prod.snd (run_bind hreplace)).trans hreduce

namespace Session

open Letters

/-- Four free points and the midpoint of two of them. -/
def figure : Figure :=
  ⟨[⟨m, some (.pratio a a b (1 / 2))⟩, ⟨d, none⟩, ⟨c, none⟩, ⟨b, none⟩, ⟨a, none⟩]⟩

/-- Knows only that the midpoint lies on the segment. -/
def oracle : Oracle Unit := fun s => pure (if s = .collinear b a m then .holds else .unknown)

/-- The oracle leaves `toFrame` undecided. Once it has affirmed the question of the first
call, the third call and the fourth need no question, nor does the last. -/
def calls : List Call :=
  [.eliminate figure (.ratio b m c d) m, .toFrame figure (.ratio a b c d), .collinear a m b,
    .eliminate figure (.ratio m b d c) m, .toFrame figure (.ratio a b c d), .collinear a a d]

def questions : List Question :=
  [⟨.collinear b a m, .ok .holds⟩, ⟨.collinear a c d, .ok .unknown⟩,
    ⟨.collinear a c d, .ok .unknown⟩]

theorem construction_m : figure.construction? m = some (.pratio a a b (1 / 2)) := rfl

theorem asked_runAll : (Call.runAll oracle calls (start ())).asked = questions := by
  have hfirst : (Call.eliminate figure (.ratio b m c d) m).run oracle (start ()) = _ :=
    Call.run_eliminate construction_m rfl
  simp only [calls, Call.runAll]
  rw [hfirst, Call.run_eliminate construction_m rfl]
  rfl

end Session

open Session Letters in
theorem Call.known_runAll_session :
    Inquiry oracle (start ()) questions (runAll oracle calls (start ())) ∧
      (runAll oracle calls (start ())).known.has a m b = true ∧
      (runAll oracle calls (start ())).known.size = 1 ∧
      ∀ q ∈ questions.tail, ¬ q.About a m b := by
  obtain ⟨qs, hqs, hknown, hsize, -, honce⟩ := Call.known_runAll oracle () calls
  obtain rfl : questions = qs := asked_runAll.symm.trans hqs.asked
  have habout : (⟨.collinear b a m, .ok .holds⟩ : Question).About a m b :=
    Question.about_collinear.mpr (by decide)
  exact ⟨hqs, (hknown a m b).mpr ⟨_, .head _, rfl, habout⟩, hsize,
    honce [] _ _ rfl rfl a m b habout⟩

end AreaMethod
