/-
# What the oracle remembers

The oracle of the prover hands its memory to the attempt at a question, which
may ask questions of its own, and takes it back whatever becomes of the attempt.
So nothing is forgotten: a decision that was remembered before a question is
remembered after it, also if the attempt fails, at any depth
(`Prover.decideWithin_keeps`).

An attempt turns to the memory only through questions. What every answer keeps of
it, an attempt keeps, and it fails by itself only with shallow faults, which say
nothing about the nesting (`Theorem.keeps_attempt`). Both parts of the statement
follow by induction on the depth.

Key definitions: `Fault.Shallow`, `Oracle.Keeps`, `Memory.Keeps`,
`Fault.AtBottom`.
Key theorems: `Theorem.keeps_attempt`, `Prover.decideWithin_keeps`,
`Prover.oracle_remembers`.
-/
import Mathlib
import AreaMethod.Proofs.Accounts
import AreaMethod.Proofs.Yields

namespace AreaMethod

open Eliminator

/-! ### What questions keep, attempts keep -/

/-- The fault does not say that attempts are nested too deeply. -/
def Fault.Shallow (f : Fault) : Prop := ∀ depth limit, f ≠ .tooDeep depth limit

/-- Asked with a memory in `R`, the oracle ends with a memory in `R`, and it fails
only with faults in `E`. -/
def Oracle.Keeps {σ : Type} (oracle : Oracle σ) (R : σ → Prop) (E : Fault → Prop) : Prop :=
  ∀ s m, R m → R (oracle s m).2 ∧ ∀ f, (oracle s m).1 = .error f → E f

section Runs

variable {σ α : Type} {oracle : Oracle σ} {R : σ → Prop} {E : Fault → Prop}
  (ho : oracle.Keeps R E) (hE : ∀ f, f.Shallow → E f)

include ho hE

theorem yields_collinear_of_keeps (a b c : Point) :
    Yields (fun el => R el.oracle) E (collinear oracle a b c) fun _ => True := by
  intro el hel
  have hkeeps : ∀ {answer m}, oracle (.collinear a b c) el.oracle = (answer, m) → R m :=
    fun h => by simpa [h] using (ho (.collinear a b c) el.oracle hel).1
  refine leads_collinear (fun _ => ⟨hel, trivial⟩) (fun m hm => ⟨hkeeps hm, trivial⟩)
    (fun m hm => ⟨hkeeps hm, trivial⟩) (fun m hm => ⟨hkeeps hm, hE _ fun _ _ => Fault.noConfusion⟩)
    fun f m hm => ⟨hkeeps hm, ?_⟩
  exact (ho (.collinear a b c) el.oracle hel).2 f (congrArg Prod.fst hm)

theorem Consults.yields {T : Point → Point → Point → Prop} {x : EliminateM σ α}
    (h : Consults oracle T x) : Yields (fun el => R el.oracle) E x fun _ => True := by
  induction h with
  | pure a => exact yields_pure trivial
  | throw e => exact yields_throw (hE _ fun _ _ => Fault.noConfusion)
  | record group how => exact fun el hel => ⟨hel, trivial⟩
  | require e => exact fun el hel => ⟨hel, trivial⟩
  | collinear h => exact yields_collinear_of_keeps ho hE _ _ _
  | bind _ _ ihx ihf => exact ihx.bind fun a _ => ihf a

theorem yields_quantity_of_keeps (y : Point) (how : Construction) (q : Quantity) :
    Yields (fun el => R el.oracle) E (quantity oracle y how q) fun _ => True := by
  cases q with
  | area a b c => exact (silent_area a b c).yields ho hE
  | pythagoras a b c => exact (silent_pythagoras a b c).yields ho hE
  | ratio a b c d =>
    have hratio : AsksOnce oracle (ratio oracle y how a b c d) := asksOnce_ratio a b c d
    rcases hratio with h | ⟨_, _, _, h, -⟩
    · exact h.yields ho hE
    · exact h.yields ho hE

omit ho in
theorem yields_reduce_of_shallow (e : Expr) :
    Yields (fun el => R el.oracle) E (reduce e : EliminateM σ Expr) fun _ => True := by
  refine yields_get fun el _ => yields_liftExcept (fun _ _ => trivial) fun f hf => ?_
  obtain ⟨d, rfl⟩ := Expr.divisionByZero_of_simplify hf
  exact hE _ fun _ _ => Fault.noConfusion

theorem yields_eliminate_of_keeps (fig : Figure) (e : Expr) (y : Point) :
    Yields (fun el => R el.oracle) E (eliminate oracle fig e y) fun _ => True := by
  unfold eliminate
  cases fig.construction? y with
  | none => exact yields_throw (hE _ fun _ _ => Fault.noConfusion)
  | some how =>
    have hquantity : ∀ q, True → q.mentions y = true →
        Yields (fun el => R el.oracle) E (quantity oracle y how q) (·.All fun _ => True) :=
      fun q _ _ => (yields_quantity_of_keeps ho hE y how q).mono fun _ _ _ _ => trivial
    have hreplace := yields_replace (e := e) hquantity (fun _ _ _ => trivial) fun _ _ => trivial
    exact hreplace.bind fun e' _ => yields_reduce_of_shallow hE e'

theorem yields_toFrame_of_keeps (fig : Figure) (e : Expr) :
    Yields (fun el => R el.oracle) E (toFrame oracle fig e) fun _ => True := by
  have hall : e.unfold.All fun _ => True := fun _ _ => trivial
  have hquantity : ∀ q, (Expr.quantity q).All (fun _ => True) →
      Yields (fun el => R el.oracle) E (quantityInFrame oracle fig q) (·.All fun _ => True) := by
    intro q _
    unfold quantityInFrame
    cases q.points.find? fun p => (fig.construction? p).isSome with
    | some p => exact yields_throw (hE _ fun _ _ => Fault.noConfusion)
    | none =>
      cases q with
      | area a b c => exact yields_pure fun _ _ => trivial
      | pythagoras a b c => exact yields_pure fun _ _ => trivial
      | ratio a b c d =>
        refine (yields_collinear_of_keeps ho hE a c d).bind fun answer _ => ?_
        cases answer with
        | true => exact yields_pure fun _ _ => trivial
        | false => exact yields_pure fun _ _ => trivial
  exact (yields_bindQuantities (Expr.leafwise_all _) (Expr.leafwise_all _) hquantity
    (fun _ h => h) (fun _ h => h) hall).mono fun _ _ => trivial

theorem yields_quotient_of_keeps (limits : Limits) (fig : Figure) (e : Expr) :
    Yields (fun el => R el.oracle) E (quotient limits oracle fig e) fun _ => True := by
  have hexpand : ∀ e : Expr, Yields (fun el => R el.oracle) E
      (liftExcept e.expand : EliminateM σ Polynomial) fun _ => True := by
    intro e
    refine yields_liftExcept (fun _ _ => trivial) fun f hf => ?_
    obtain ⟨m, rfl⟩ := Expr.malformed_of_expand hf
    exact hE _ fun _ _ => Fault.noConfusion
  refine (yields_toFrame_of_keeps ho hE fig e).bind fun framed _ => ?_
  refine (yields_checkSize (fun _ => hE _ fun _ _ => Fault.noConfusion) _).bind fun _ _ => ?_
  refine (yields_liftExcept (P := fun _ => True) (fun _ _ => trivial) fun f hf => ?_).bind
    fun single _ => ?_
  · obtain ⟨d, rfl⟩ := Expr.divisionByZero_of_singleFraction hf
    exact hE _ fun _ _ => Fault.noConfusion
  refine (hexpand _).bind fun numerator _ => (hexpand _).bind fun denominator _ => ?_
  split_ifs
  · exact yields_throw (hE _ fun _ _ => Fault.noConfusion)
  · exact yields_pure trivial

/-- **What questions keep, attempts keep.** -/
theorem Theorem.keeps_attempt (thm : Theorem) (limits : Limits) :
    Yields (fun el => R el.oracle) E (thm.attempt limits oracle) fun _ => True := by
  have hlarge : ∀ n, E (.tooLarge n limits.expressionSize) :=
    fun _ => hE _ fun _ _ => Fault.noConfusion
  refine (yields_liftExcept (P := fun _ => True) (fun _ _ => trivial) fun f hf => ?_).bind
    fun start _ => ?_
  · obtain ⟨d, rfl⟩ := Expr.divisionByZero_of_simplify hf
    exact hE _ fun _ _ => Fault.noConfusion
  refine (yields_checkSize hlarge start).bind fun _ _ => ?_
  have hskip : ∀ (p : Point) (_ : List Point) (e : Expr), True → e.mentions p = false → True :=
    fun _ _ _ h _ => h
  refine (yields_eliminateAll hskip (fun p _ e _ => yields_eliminate_of_keeps ho hE thm.figure e p)
    hlarge (hE _ fun _ _ => Fault.noConfusion) _ start [] trivial (Nat.zero_le _)).bind
      fun r _ => ?_
  refine (yields_reduce_of_shallow hE r.1).bind fun e _ => ?_
  exact (yields_quotient_of_keeps ho hE limits thm.figure e).bind fun _ _ => yields_pure trivial

end Runs

/-! ### Memories -/

namespace Memory

variable {m m' m'' : Memory} {key k : String} {d : Decision}

/-- The later memory is at the same depth, and has the decisions of the earlier
one. -/
structure Keeps (m m' : Memory) : Prop where
  depth : m'.depth = m.depth
  decided : ∀ k d, m.decided.lookup k = some d → m'.decided.lookup k = some d

theorem Keeps.refl (m : Memory) : m.Keeps m := ⟨rfl, fun _ _ => id⟩

theorem Keeps.trans (h : m.Keeps m') (h' : m'.Keeps m'') : m.Keeps m'' :=
  ⟨h'.depth.trans h.depth, fun k d hk => h'.decided k d (h.decided k d hk)⟩

theorem lookup_learn_self (m : Memory) (key : String) (d : Decision) :
    (m.learn key d).decided.lookup key = some d := by simp [learn]

theorem lookup_filter_of_ne (h : k ≠ key) : ∀ xs : List (String × Decision),
    (xs.filter fun x => x.1 ≠ key).lookup k = xs.lookup k
  | [] => rfl
  | (l, e) :: xs => by
    by_cases hl : l = key
    · have hkl : (k == l) = false := beq_eq_false_iff_ne.mpr (hl ▸ h)
      rw [List.filter_cons_of_neg (by simpa using hl), List.lookup_cons, hkl]
      exact lookup_filter_of_ne h xs
    · rw [List.filter_cons_of_pos (by simpa using hl), List.lookup_cons, List.lookup_cons,
        lookup_filter_of_ne h xs]

/-- A new decision replaces only one under its own key. -/
theorem lookup_learn_of_ne (m : Memory) (d : Decision) (h : k ≠ key) :
    (m.learn key d).decided.lookup k = m.decided.lookup k := by
  rw [learn, List.lookup_cons, beq_eq_false_iff_ne.mpr h]
  exact lookup_filter_of_ne h _

/-- Learning under a key that the earlier memory does not have. -/
theorem Keeps.learn (h : m.Keeps m') (hnew : m.decided.lookup key = none) (d : Decision) :
    m.Keeps (m'.learn key d) where
  depth := h.depth
  decided k e hk := by
    have hne : k ≠ key := by
      rintro rfl
      rw [hnew] at hk
      cases hk
    rw [lookup_learn_of_ne m' d hne]
    exact h.decided k e hk

end Memory

/-! ### The oracle of the prover -/

/-- The fault can say that attempts are nested too deeply only for one level beyond
the limit. -/
def Fault.AtBottom (limits : Limits) (f : Fault) : Prop :=
  ∀ depth limit, f = .tooDeep depth limit → limit = limits.oracleDepth ∧ depth = limit + 1

namespace Prover

variable {limits : Limits} {fig : Figure} {s : Statement} {m : Memory} {d : Decision}

/-- Whatever became of the attempt at a new question, its oracle's memory is taken
over. -/
theorem keeps_settle (hnew : m.decided.lookup s.key = none) (outcome : Except Fault Attempt)
    {el : Eliminator Memory} (h : m.nested.Keeps el.oracle) :
    m.Keeps (settle m s (outcome, el)).2 := by
  have hback : ∀ usage, m.Keeps ⟨m.depth, el.oracle.decided, usage⟩ := fun _ => ⟨rfl, h.decided⟩
  cases outcome with
  | ok a => exact (hback _).learn hnew _
  | error f =>
    cases f with
    | undecided s' => exact (hback _).learn hnew _
    | divisionByZero e => exact (hback _).learn hnew _
    | _ => exact hback _

theorem lookup_of_settle {x : Except Fault Attempt × Eliminator Memory}
    (h : (settle m s x).1 = .ok d) : (settle m s x).2.decided.lookup s.key = some d := by
  obtain ⟨outcome, el⟩ := x
  cases outcome with
  | ok a =>
    obtain rfl := Except.ok.inj h
    exact Memory.lookup_learn_self _ _ _
  | error f =>
    cases f with
    | undecided s' | divisionByZero e =>
      obtain rfl := Except.ok.inj h
      exact Memory.lookup_learn_self _ _ _
    | _ => cases h

/-- **Nothing is forgotten**, and attempts that are nested too deeply are just below
the limit. -/
theorem decideWithin_keeps (limits : Limits) : ∀ (remaining : ℕ) (fig : Figure) (s : Statement)
    (m : Memory), m.Keeps (decideWithin limits remaining fig s m).2 ∧
      (m.depth + remaining = limits.oracleDepth →
        ∀ f, (decideWithin limits remaining fig s m).1 = .error f → f.AtBottom limits) := by
  intro remaining
  induction remaining with
  | zero =>
    intro fig s m
    cases hm : m.decided.lookup s.key with
    | some d =>
      rw [decideWithin_known 0 hm]
      exact ⟨.refl m, fun _ f hf => by cases hf⟩
    | none =>
      rw [decideWithin_zero hm]
      refine ⟨.refl m, fun hdepth f hf depth limit hdeep => ?_⟩
      cases hf
      cases hdeep
      exact ⟨rfl, by rw [← hdepth, Nat.add_zero]⟩
  | succ deeper ih =>
    intro fig s m
    cases hm : m.decided.lookup s.key with
    | some d =>
      rw [decideWithin_known _ hm]
      exact ⟨.refl m, fun _ f hf => by cases hf⟩
    | none =>
      -- the nested oracle is one level deeper, and has one level less below it
      have ho : (decideWithin limits deeper (fig.closure s.points)).Keeps m.nested.Keeps
          fun f => m.depth + (deeper + 1) = limits.oracleDepth → f.AtBottom limits := by
        intro s' m' hm'
        obtain ⟨hkeeps, hbottom⟩ := ih (fig.closure s.points) s' m'
        refine ⟨hm'.trans hkeeps, fun f hf hdepth => hbottom ?_ f hf⟩
        rw [hm'.depth, ← hdepth]
        exact Nat.add_right_comm m.depth 1 deeper
      have hshallow : ∀ f : Fault, f.Shallow →
          m.depth + (deeper + 1) = limits.oracleDepth → f.AtBottom limits :=
        fun f hf _ depth limit hdeep => absurd hdeep (hf depth limit)
      have hrun := (question fig s).keeps_attempt ho hshallow limits (start m.nested) (.refl _)
      rw [decideWithin_new deeper hm]
      change Leads (tryQuestion limits deeper fig s) _ _ _ at hrun
      cases hresult : tryQuestion limits deeper fig s (start m.nested) with
      | mk outcome el =>
        cases outcome with
        | ok a =>
          refine ⟨keeps_settle hm _ (hrun.of_ok hresult).1, fun _ f hf => ?_⟩
          cases settle_eq_error (Prod.ext hf rfl)
        | error g =>
          obtain ⟨hkeeps, hg⟩ := hrun.of_error hresult
          refine ⟨keeps_settle hm _ hkeeps, fun hdepth f hf => ?_⟩
          cases settle_eq_error (Prod.ext hf rfl)
          exact hg hdepth

theorem lookup_of_decideWithin (remaining : ℕ)
    (h : (decideWithin limits remaining fig s m).1 = .ok d) :
    (decideWithin limits remaining fig s m).2.decided.lookup s.key = some d := by
  cases hm : m.decided.lookup s.key with
  | some d' =>
    rw [decideWithin_known remaining hm] at h ⊢
    obtain rfl := Except.ok.inj h
    exact hm
  | none =>
    cases remaining with
    | zero =>
      rw [decideWithin_zero hm] at h
      cases h
    | succ deeper =>
      rw [decideWithin_new deeper hm] at h ⊢
      exact lookup_of_settle h

theorem keeps_decideAll : ∀ (m : Memory) (qs : List (Figure × Statement)),
    m.Keeps (decideAll limits m qs)
  | m, [] => .refl m
  | m, q :: qs => (decideWithin_keeps limits _ q.1 q.2 m).1.trans (keeps_decideAll _ qs)

/-- **The memory survives every outcome.** After a question, decided or not or
failed at any depth, every decision that was remembered before is remembered, and
the depth is the same. An answer is remembered under the key of its question: asked
again, whatever was asked in between, a question with this key gets the same answer,
and nothing changes. If attempts are nested too deeply, then by one level. -/
theorem oracle_remembers (limits : Limits) (fig : Figure) (s : Statement) (m : Memory) :
    (∀ k d, m.decided.lookup k = some d →
      (oracle limits fig s m).2.decided.lookup k = some d) ∧
    (∀ d, (oracle limits fig s m).1 = .ok d →
      (oracle limits fig s m).2.decided.lookup s.key = some d ∧
      ∀ qs fig' s', s'.key = s.key →
        oracle limits fig' s' (decideAll limits (oracle limits fig s m).2 qs) =
          (.ok d, decideAll limits (oracle limits fig s m).2 qs)) ∧
    (oracle limits fig s m).2.depth = m.depth ∧
    (m.depth ≤ limits.oracleDepth → ∀ depth limit,
      (oracle limits fig s m).1 = .error (.tooDeep depth limit) →
        limit = limits.oracleDepth ∧ depth = limit + 1) := by
  obtain ⟨hkeeps, hbottom⟩ := decideWithin_keeps limits (limits.oracleDepth - m.depth) fig s m
  refine ⟨hkeeps.decided, fun d hd => ?_, hkeeps.depth, fun hdepth depth limit hdeep => ?_⟩
  · have hlookup := lookup_of_decideWithin _ hd
    refine ⟨hlookup, fun qs fig' s' hkey => decideWithin_known _ ?_⟩
    rw [hkey]
    exact (keeps_decideAll _ qs).decided _ _ hlookup
  · exact hbottom (Nat.add_sub_of_le hdepth) _ hdeep depth limit rfl

end Prover
end AreaMethod
