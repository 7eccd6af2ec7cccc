/-
# What elimination consults

An elimination writes its record and hardly reads it. Areas and Pythagoras
differences lose a point without any question (`silent_area`,
`silent_pythagoras`). The formula for a ratio depends on the answer to at most
one question (`asksOnce_ratio`). What was asked before, which conditions were
recorded and which lemmas were used makes no difference.

`Consults oracle T x` says that the computation `x` reads nothing but answers
about the triples in `T`. By induction on how `x` is put together, its runs from
two records that give the same answers have the same outcome, put the same
questions and record the same conditions (`Consults.sameCourse`).

Key definitions: `Consults`, `Silent`, `AsksOnce`, `Eliminator.Adds`,
`Eliminator.Alike`, `SameCourse`.
Key theorems: `Consults.sameCourse`, `asksOnce_ratio`.
-/
import Mathlib
import AreaMethod.Elimination
import AreaMethod.Proofs.Outcome
import AreaMethod.Proofs.Value

namespace AreaMethod

open Eliminator

/-! ### Computations that consult -/

section Consulting

variable {σ α β : Type} {oracle : Oracle σ} {T T' : Point → Point → Point → Prop}

/-- Of the record, the computation reads only answers about triples in `T`. By
itself it fails only where it would divide by zero. -/
inductive Consults (oracle : Oracle σ) (T : Point → Point → Point → Prop) :
    {α : Type} → EliminateM σ α → Prop
  | pure {α : Type} (a : α) : Consults oracle T (pure a)
  | throw {α : Type} (e : Expr) : Consults oracle T (throw (.divisionByZero e) : EliminateM σ α)
  | record (group : LemmaGroup) (how : Construction) : Consults oracle T (record group how)
  | require (e : Expr) : Consults oracle T (require e)
  | collinear {a b c : Point} (h : T a b c) : Consults oracle T (collinear oracle a b c)
  | bind {α β : Type} {x : EliminateM σ α} {f : α → EliminateM σ β} (hx : Consults oracle T x)
      (hf : ∀ a, Consults oracle T (f a)) : Consults oracle T (x >>= f)

/-- The computation reads nothing and puts no question. -/
abbrev Silent (oracle : Oracle σ) (x : EliminateM σ α) : Prop :=
  Consults oracle (fun _ _ _ => False) x

theorem Consults.mono {x : EliminateM σ α} (h : Consults oracle T x)
    (hT : ∀ a b c, T a b c → T' a b c) : Consults oracle T' x := by
  induction h with
  | pure a => exact .pure a
  | throw e => exact .throw e
  | record group how => exact .record group how
  | require e => exact .require e
  | collinear h => exact .collinear (hT _ _ _ h)
  | bind _ _ ihx ihf => exact .bind ihx ihf

theorem Silent.consults {x : EliminateM σ α} (h : Silent oracle x) : Consults oracle T x :=
  h.mono fun _ _ _ => False.elim

theorem consults_bindQuantities {Q : Quantity → Prop} {f : Quantity → EliminateM σ Expr}
    (hf : ∀ q, Q q → Consults oracle T (f q)) :
    ∀ e : Expr, e.All Q → Consults oracle T (e.bindQuantities f)
  | .number _, _ => .pure _
  | .quantity q, he => hf q (Expr.all_quantity.mp he)
  | .neg e, he => (consults_bindQuantities hf e he).bind fun _ => .pure _
  | .sum a b, he => (consults_bindQuantities hf a (Expr.all_sum.mp he).1).bind fun _ =>
      (consults_bindQuantities hf b (Expr.all_sum.mp he).2).bind fun _ => .pure _
  | .product a b, he => (consults_bindQuantities hf a (Expr.all_product.mp he).1).bind fun _ =>
      (consults_bindQuantities hf b (Expr.all_product.mp he).2).bind fun _ => .pure _
  | .fraction a b, he => (consults_bindQuantities hf a (Expr.all_fraction.mp he).1).bind fun _ =>
      (consults_bindQuantities hf b (Expr.all_fraction.mp he).2).bind fun _ => .pure _
  | .term _, _ => .pure _
  | .polynomial _, _ => .pure _

end Consulting

/-! ### Areas and Pythagoras differences -/

section Linear

variable {σ : Type} {oracle : Oracle σ} {y : Point} {how : Construction}

theorem silent_divide (num den : Expr) : Silent oracle (divide num den) :=
  .bind (.require den) fun _ => .pure _

theorem silent_linear (group : LemmaGroup) (how : Construction) (g : Point → Expr)
    (perpendicular : Point → Point → Expr → Expr) :
    Silent oracle (linear group how g perpendicular) := by
  refine .bind (.record group how) fun _ => ?_
  cases how with
  | intersection u v p q => exact silent_divide _ _
  | foot p u v => exact silent_divide _ _
  | pratio w u v r => exact .pure _
  | tratio p q r => exact .pure _

theorem silent_area (a b c : Point) : Silent oracle (area y how a b c) := by
  unfold area
  generalize (if c = y then (a, b) else if a = y then (b, c) else (c, a)) = turned
  simp only
  split_ifs
  · exact .pure _
  · exact silent_linear _ _ _ _

theorem silent_middle (a b : Point) : Silent oracle (middle how a b) := by
  refine .bind (.record _ how) fun _ => ?_
  cases how with
  | intersection u v p q => exact .bind (silent_divide _ _) fun _ => .pure _
  | foot p u v => exact .bind (silent_divide _ _) fun _ => .pure _
  | pratio w u v r => exact .pure _
  | tratio p q r => exact .pure _

theorem silent_pythagoras (a b c : Point) : Silent oracle (pythagoras y how a b c) := by
  unfold pythagoras
  split_ifs
  · exact .pure _
  · exact silent_middle a c
  · exact silent_middle b b
  · exact silent_linear _ _ _ _
  · exact silent_linear _ _ _ _

theorem silent_areas (e : Expr) : Silent oracle (areas y how e) := by
  refine consults_bindQuantities (Q := fun _ => True) (fun q _ => ?_) e fun _ _ => trivial
  cases q with
  | area a b c =>
    simp only
    split_ifs
    · exact silent_area a b c
    · exact .pure _
  | pythagoras a b c => exact .pure _
  | ratio a b c d => exact .pure _

end Linear

/-! ### The course of a run -/

namespace Eliminator

variable {σ : Type} {el el' el'' : Eliminator σ}

/-- The later record has these questions and conditions in addition. Without a
question, nothing is learned. -/
structure Adds (el : Eliminator σ) (qs : List Question) (cs : List Expr) (el' : Eliminator σ) :
    Prop where
  asked : el'.asked = el.asked ++ qs
  conditions : ∀ e, e ∈ el'.conditions ↔ e ∈ el.conditions ∨ e ∈ cs
  quiet : qs = [] → el'.oracle = el.oracle ∧ el'.known = el.known

theorem Adds.refl (el : Eliminator σ) : el.Adds [] [] el :=
  ⟨(List.append_nil _).symm, fun e => by simp, fun _ => ⟨rfl, rfl⟩⟩

theorem Adds.trans {qs qs' : List Question} {cs cs' : List Expr} (h : el.Adds qs cs el')
    (h' : el'.Adds qs' cs' el'') : el.Adds (qs ++ qs') (cs ++ cs') el'' where
  asked := by rw [h'.asked, h.asked, List.append_assoc]
  conditions e := by rw [h'.conditions, h.conditions, List.mem_append, or_assoc]
  quiet hnil := by
    obtain ⟨rfl, rfl⟩ := List.append_eq_nil_iff.mp hnil
    obtain ⟨hmemory, hknown⟩ := h.quiet rfl
    obtain ⟨hmemory', hknown'⟩ := h'.quiet rfl
    exact ⟨hmemory'.trans hmemory, hknown'.trans hknown⟩

/-- The two records give the same answers about triples in `T`. -/
structure Alike (T : Point → Point → Point → Prop) (el el' : Eliminator σ) : Prop where
  memory : el.oracle = el'.oracle
  known : ∀ a b c, T a b c → el.known.decidesCollinear a b c = el'.known.decidesCollinear a b c

end Eliminator

theorem Triples.decidesCollinear_iff {known : Triples} {a b c : Point} :
    known.decidesCollinear a b c = true ↔ (a = b ∨ b = c ∨ a = c) ∨ known.has a b c = true := by
  simp only [decidesCollinear, Quantity.canonical, decide_eq_true_eq]
  split_ifs with h
  · simpa [or_assoc] using h
  · simpa [or_assoc] using h

theorem Triples.decidesCollinear_insert {known : Triples} {a b c p q r : Point} :
    (known.insert p q r).decidesCollinear a b c = true ↔
      (sortThree a b c).1 = (sortThree p q r).1 ∨ known.decidesCollinear a b c = true := by
  have hmem : ∀ known : Triples, known.has a b c = true ↔ (sortThree a b c).1 ∈ known.known :=
    fun known => by simp [has]
  rw [decidesCollinear_iff, decidesCollinear_iff, hmem, hmem, mem_insert, or_left_comm]

/-- Two runs of a computation: they have the same outcome, put the same questions
and record the same conditions. -/
structure SameCourse {σ α : Type} (T : Point → Point → Point → Prop) (el₁ el₂ : Eliminator σ)
    (run₁ run₂ : Except Fault α × Eliminator σ) : Prop where
  outcome : run₁.1 = run₂.1
  alike : Alike T run₁.2 run₂.2
  added : ∃ qs cs, el₁.Adds qs cs run₁.2 ∧ el₂.Adds qs cs run₂.2

section Courses

variable {σ α β : Type} {oracle : Oracle σ} {T : Point → Point → Point → Prop}
  {el₁ el₂ : Eliminator σ}

theorem adds_record (el : Eliminator σ) (group : LemmaGroup) (how : Construction) :
    el.Adds [] [] (record group how el).2 :=
  ⟨(Adds.refl el).asked, (Adds.refl el).conditions, fun _ => ⟨rfl, rfl⟩⟩

theorem adds_require (el : Eliminator σ) (e : Expr) :
    el.Adds [] [e.canonical .empty] (require e el).2 where
  asked := (List.append_nil _).symm
  conditions d := by
    change d ∈ (if e.canonical .empty ∈ el.conditions then el.conditions else
      el.conditions ++ [e.canonical .empty]) ↔ _
    split_ifs with hmem
    · rw [List.mem_singleton]
      exact ⟨.inl, fun h => h.elim id fun heq => heq ▸ hmem⟩
    · exact List.mem_append
  quiet _ := ⟨rfl, rfl⟩

theorem adds_answered (el : Eliminator σ) (q : Question) (memory : σ) :
    el.Adds [q] [] (el.answered q.statement q.answer memory) :=
  ⟨rfl, fun e => by simp [answered], fun h => absurd h (List.cons_ne_nil _ _)⟩

theorem Eliminator.Adds.learned {el el' : Eliminator σ} {q : Question} {qs : List Question}
    {cs : List Expr} (h : el.Adds (q :: qs) cs el') (a b c : Point) :
    el.Adds (q :: qs) cs (el'.learned a b c) :=
  ⟨h.asked, h.conditions, fun hnil => absurd hnil (List.cons_ne_nil q qs)⟩

theorem Eliminator.Alike.learned (h : Alike T el₁ el₂) (a b c : Point) :
    Alike T (el₁.learned a b c) (el₂.learned a b c) where
  memory := h.memory
  known p q r ht := by
    change (el₁.known.insert a b c).decidesCollinear p q r =
      (el₂.known.insert a b c).decidesCollinear p q r
    rw [Bool.eq_iff_iff, Triples.decidesCollinear_insert, Triples.decidesCollinear_insert,
      h.known p q r ht]

/-- What is concluded from the answer to a question about three points. -/
def Eliminator.told (el : Eliminator σ) (a b c : Point) (answer : Except Fault Decision)
    (memory : σ) : Except Fault Bool × Eliminator σ :=
  match answer with
  | .ok .holds => (.ok true, (el.answered (.collinear a b c) answer memory).learned a b c)
  | .ok .fails => (.ok false, el.answered (.collinear a b c) answer memory)
  | .ok .unknown =>
    (.error (.undecided (.collinear a b c)), el.answered (.collinear a b c) answer memory)
  | .error f => (.error f, el.answered (.collinear a b c) answer memory)

theorem run_collinear_known {el : Eliminator σ} {a b c : Point}
    (h : el.known.decidesCollinear a b c = true) : collinear oracle a b c el = (.ok true, el) := by
  refine (run_bind (b := el) rfl).trans ?_
  rw [if_pos h]
  rfl

theorem run_collinear_unknown {el : Eliminator σ} {a b c : Point}
    (h : el.known.decidesCollinear a b c = false) {answer : Except Fault Decision} {m : σ}
    (hanswer : oracle (.collinear a b c) el.oracle = (answer, m)) :
    collinear oracle a b c el = el.told a b c answer m := by
  have hask : ask oracle (.collinear a b c) el =
      (answer, el.answered (.collinear a b c) answer m) := by
    unfold ask
    rw [hanswer]
    rfl
  refine (run_bind (b := el) rfl).trans ?_
  rw [if_neg (by simp [h])]
  cases answer with
  | error f => exact run_bind_error hask
  | ok d => cases d <;> exact run_bind hask

/-- One question. -/
theorem sameCourse_collinear {a b c : Point} (ht : T a b c) (h : Alike T el₁ el₂) :
    SameCourse T el₁ el₂ (collinear oracle a b c el₁) (collinear oracle a b c el₂) := by
  have hsame := h.known a b c ht
  cases hknown : el₁.known.decidesCollinear a b c with
  | true =>
    rw [run_collinear_known hknown, run_collinear_known (hsame.symm.trans hknown)]
    exact ⟨rfl, h, [], [], .refl _, .refl _⟩
  | false =>
    -- both ask, and the oracle has the same memory
    obtain ⟨answer, m, hanswer⟩ : ∃ answer m, oracle (.collinear a b c) el₁.oracle = (answer, m) :=
      ⟨_, _, rfl⟩
    rw [run_collinear_unknown hknown hanswer,
      run_collinear_unknown (hsame.symm.trans hknown) (h.memory ▸ hanswer)]
    have hlike : Alike T (el₁.answered (.collinear a b c) answer m)
        (el₂.answered (.collinear a b c) answer m) := ⟨rfl, h.known⟩
    have hadds : ∀ el : Eliminator σ, el.Adds [⟨.collinear a b c, answer⟩] []
        (el.answered (.collinear a b c) answer m) := fun el => adds_answered el ⟨_, answer⟩ m
    rcases answer with f | d
    · exact ⟨rfl, hlike, _, _, hadds el₁, hadds el₂⟩
    · cases d with
      | holds =>
        exact ⟨rfl, hlike.learned a b c, _, _, (hadds el₁).learned a b c,
          (hadds el₂).learned a b c⟩
      | fails => exact ⟨rfl, hlike, _, _, hadds el₁, hadds el₂⟩
      | unknown => exact ⟨rfl, hlike, _, _, hadds el₁, hadds el₂⟩

theorem SameCourse.bind {x : EliminateM σ α} {f : α → EliminateM σ β}
    (hx : SameCourse T el₁ el₂ (x el₁) (x el₂))
    (hf : ∀ a {el₁ el₂}, Alike T el₁ el₂ → SameCourse T el₁ el₂ (f a el₁) (f a el₂)) :
    SameCourse T el₁ el₂ ((x >>= f) el₁) ((x >>= f) el₂) := by
  obtain ⟨houtcome, hlike, qs, cs, hadds₁, hadds₂⟩ := hx
  cases hrun₁ : x el₁ with
  | mk outcome₁ el₁' =>
    cases hrun₂ : x el₂ with
    | mk outcome₂ el₂' =>
      rw [hrun₁, hrun₂] at houtcome hlike
      rw [hrun₁] at hadds₁
      rw [hrun₂] at hadds₂
      obtain rfl : outcome₁ = outcome₂ := houtcome
      cases outcome₁ with
      | error g =>
        rw [run_bind_error hrun₁, run_bind_error hrun₂]
        exact ⟨rfl, hlike, qs, cs, hadds₁, hadds₂⟩
      | ok a =>
        rw [run_bind hrun₁, run_bind hrun₂]
        obtain ⟨houtcome, hlike', qs', cs', hadds₁', hadds₂'⟩ := hf a hlike
        exact ⟨houtcome, hlike', _, _, hadds₁.trans hadds₁', hadds₂.trans hadds₂'⟩

/-- **Runs from like records take the same course.** -/
theorem Consults.sameCourse {x : EliminateM σ α} (h : Consults oracle T x) :
    ∀ {el₁ el₂ : Eliminator σ}, Alike T el₁ el₂ → SameCourse T el₁ el₂ (x el₁) (x el₂) := by
  induction h with
  | pure a => exact fun hlike => ⟨rfl, hlike, [], [], .refl _, .refl _⟩
  | throw e => exact fun hlike => ⟨rfl, hlike, [], [], .refl _, .refl _⟩
  | record group how =>
    exact fun hlike => ⟨rfl, ⟨hlike.memory, hlike.known⟩, _, _, adds_record _ group how,
      adds_record _ group how⟩
  | require e =>
    exact fun hlike => ⟨rfl, ⟨hlike.memory, hlike.known⟩, _, _, adds_require _ e, adds_require _ e⟩
  | collinear ht => exact sameCourse_collinear ht
  | bind _ _ ihx ihf => exact fun hlike => (ihx hlike).bind fun a => ihf a

end Courses

/-! ### Ratios -/

section Ratios

variable {σ α β : Type} {oracle : Oracle σ} {y : Point} {how : Construction} {p u v : Point}

/-- Unless the record has the answer, the question about the triple is put to the
oracle. -/
def Raises (p u v : Point) (x : EliminateM σ α) : Prop :=
  ∀ el, el.known.decidesCollinear p u v = false →
    ∃ answer, (⟨.collinear p u v, answer⟩ : Question) ∈ (x el).2.asked

/-- The computation puts no question, or a single one, which it cannot do without. -/
def AsksOnce (oracle : Oracle σ) (x : EliminateM σ α) : Prop :=
  Silent oracle x ∨ ∃ p u v, Consults oracle (fun a b c => (a, b, c) = (p, u, v)) x ∧
    Raises p u v x

theorem raises_collinear (oracle : Oracle σ) (p u v : Point) :
    Raises p u v (collinear oracle p u v) := by
  intro el hunknown
  obtain ⟨answer, m, hanswer⟩ : ∃ answer m, oracle (.collinear p u v) el.oracle = (answer, m) :=
    ⟨_, _, rfl⟩
  refine ⟨answer, ?_⟩
  have hlast : (⟨.collinear p u v, answer⟩ : Question) ∈
      (el.answered (.collinear p u v) answer m).asked := List.mem_append_right _ (.head _)
  rw [run_collinear_unknown hunknown hanswer]
  rcases answer with f | d
  · exact hlast
  · cases d <;> exact hlast

/-- A question that was put stays on record. -/
theorem Raises.bind {x : EliminateM σ α} {f : α → EliminateM σ β} (h : Raises p u v x)
    (hf : ∀ a, Silent oracle (f a)) : Raises p u v (x >>= f) := by
  intro el hunknown
  obtain ⟨answer, hmem⟩ := h el hunknown
  refine ⟨answer, ?_⟩
  cases hrun : x el with
  | mk outcome el' =>
    rw [hrun] at hmem
    cases outcome with
    | error g =>
      rw [run_bind_error hrun]
      exact hmem
    | ok a =>
      rw [run_bind hrun]
      have hself : Alike (fun _ _ _ => False) el' el' := ⟨rfl, fun _ _ _ _ => rfl⟩
      obtain ⟨qs, cs, hadds, -⟩ := ((hf a).sameCourse hself).added
      rw [hadds.asked]
      exact List.mem_append_left _ hmem

theorem AsksOnce.bind {x : EliminateM σ α} {f : α → EliminateM σ β} (h : AsksOnce oracle x)
    (hf : ∀ a, Silent oracle (f a)) : AsksOnce oracle (x >>= f) := by
  rcases h with h | ⟨p, u, v, hx, hraises⟩
  · exact .inl (h.bind hf)
  · exact .inr ⟨p, u, v, hx.bind fun a => (hf a).consults, hraises.bind hf⟩

/-- The answer to one question decides between two formulas. -/
theorem asksOnce_branch (group : LemmaGroup) (how : Construction) {x z : EliminateM σ Expr}
    (hx : Silent oracle x) (hz : Silent oracle z) :
    AsksOnce oracle (do
      record group how
      if ← collinear oracle p u v then x else z) := by
  have hif : ∀ answer, Silent oracle (if answer = true then x else z) := by
    intro answer
    split_ifs
    · exact hx
    · exact hz
  refine .inr ⟨p, u, v, ?_, ?_⟩
  · exact .bind (.record group how) fun _ => .bind (.collinear rfl) fun a => (hif a).consults
  · exact fun el hunknown => (raises_collinear oracle p u v).bind hif _ hunknown

theorem asksOnce_plainRatio (a c d : Point) : AsksOnce oracle (plainRatio oracle y how a c d) := by
  cases how with
  | intersection u v p q => exact asksOnce_branch _ _ (silent_divide _ _) (silent_divide _ _)
  | foot p u v => exact asksOnce_branch _ _ (silent_divide _ _) (silent_divide _ _)
  | pratio w u v r => exact asksOnce_branch _ _ (silent_divide _ _) (silent_divide _ _)
  | tratio p q r =>
    exact asksOnce_branch _ _ (silent_divide _ _) (.bind (silent_divide _ _) silent_areas)

theorem asksOnce_sharedRatio (a c : Point) : AsksOnce oracle (sharedRatio oracle y how a c) := by
  unfold sharedRatio
  split_ifs
  · exact .inl (.pure _)
  cases how with
  | intersection u v p q => exact asksOnce_branch _ _ (silent_divide _ _) (silent_divide _ _)
  | foot p u v => exact asksOnce_branch _ _ (silent_divide _ _) (silent_divide _ _)
  | pratio w u v r => exact asksOnce_branch _ _ (silent_divide _ _) (silent_divide _ _)
  | tratio p q r =>
    exact asksOnce_branch _ _ (silent_divide _ _) (.bind (silent_divide _ _) silent_areas)

theorem asksOnce_ratioFrom (a c d : Point) : AsksOnce oracle (ratioFrom oracle y how a c d) := by
  unfold ratioFrom
  split_ifs
  · exact (asksOnce_sharedRatio a d).bind fun _ => .pure _
  · exact asksOnce_sharedRatio a c
  · exact asksOnce_plainRatio a c d

theorem asksOnce_ratioAbove (a b c d : Point) :
    AsksOnce oracle (ratioAbove oracle y how a b c d) := by
  unfold ratioAbove
  split_ifs
  · exact (asksOnce_ratioFrom b c d).bind fun _ => .pure _
  · exact asksOnce_ratioFrom a c d

/-- **Ratios.** A point is eliminated with one question at most. -/
theorem asksOnce_ratio (a b c d : Point) : AsksOnce oracle (ratio oracle y how a b c d) := by
  unfold ratio
  split_ifs
  · exact .inl (.pure _)
  · exact .inl (.throw _)
  · exact asksOnce_ratioAbove a b c d
  · exact (asksOnce_ratioAbove c d a b).bind fun _ => silent_divide _ _

end Ratios

end AreaMethod
