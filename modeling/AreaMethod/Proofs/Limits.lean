/-
# Limits only cut short

A run with small limits and a run with larger ones take the same steps, until
the first one hits a limit. `Agrees x x'` says this of two computations: `x`
fails with a limit, or both end alike, with the same record. No part of a proof
attempt catches the fault of a limit, so agreement passes from the parts to
the whole (`Agrees.bind`), and through the oracle, which may be nested more
deeply in the second run, by induction on the depth (`Prover.agrees_decideWithin`).

Key definitions: `Agrees`, `Oracle.Agrees`, `Limits.Within`.
Key theorems: `Theorem.agrees_attempt`, `Prover.agrees_decideWithin`,
`Theorem.prove_of_within`.
-/
import Mathlib
import AreaMethod.Proofs.Simplification

namespace AreaMethod

open Eliminator

/-! ### Agreement -/

section Agreement

variable {σ α β : Type}

/-- From every record, the first computation fails with a limit, or both end
alike. -/
def Agrees (x x' : EliminateM σ α) : Prop :=
  ∀ el, (∃ f el', x el = (.error f, el') ∧ f.isLimit = true) ∨ x el = x' el

/-- To every question, the first oracle fails with a limit, or both answer
alike. -/
def Oracle.Agrees (o o' : Oracle σ) : Prop :=
  ∀ s m, (∃ f m', o s m = (.error f, m') ∧ f.isLimit = true) ∨ o s m = o' s m

theorem Agrees.refl (x : EliminateM σ α) : Agrees x x := fun _ => .inr rfl

theorem agrees_throw {f : Fault} (h : f.isLimit = true) (x' : EliminateM σ α) :
    Agrees (throw f) x' := fun el => .inl ⟨f, el, rfl, h⟩

theorem Agrees.bind {x x' : EliminateM σ α} {f f' : α → EliminateM σ β} (hx : Agrees x x')
    (hf : ∀ a, Agrees (f a) (f' a)) : Agrees (x >>= f) (x' >>= f') := by
  intro el
  rcases hx el with ⟨g, el', hg, hlimit⟩ | heq
  · exact .inl ⟨g, el', run_bind_error hg, hlimit⟩
  · cases hrun : x el with
    | mk outcome el' =>
      cases outcome with
      | error g =>
        refine .inr ?_
        rw [run_bind_error hrun, run_bind_error (heq.symm.trans hrun)]
      | ok a =>
        rw [run_bind hrun, run_bind (heq.symm.trans hrun)]
        exact hf a el'

theorem agrees_bindQuantities {f f' : Quantity → EliminateM σ Expr} (hf : ∀ q, Agrees (f q) (f' q)) :
    ∀ e : Expr, Agrees (e.bindQuantities f) (e.bindQuantities f')
  | .number _ => .refl _
  | .quantity q => hf q
  | .neg e => (agrees_bindQuantities hf e).bind fun _ => .refl _
  | .sum a b => (agrees_bindQuantities hf a).bind fun _ =>
      (agrees_bindQuantities hf b).bind fun _ => .refl _
  | .product a b => (agrees_bindQuantities hf a).bind fun _ =>
      (agrees_bindQuantities hf b).bind fun _ => .refl _
  | .fraction a b => (agrees_bindQuantities hf a).bind fun _ =>
      (agrees_bindQuantities hf b).bind fun _ => .refl _
  | .term _ => .refl _
  | .polynomial _ => .refl _

end Agreement

/-! ### Elimination with two oracles -/

section Elimination

variable {σ : Type} {o o' : Oracle σ} {y : Point} {how : Construction}

theorem agrees_ask (ho : o.Agrees o') (s : Statement) : Agrees (ask o s) (ask o' s) := by
  intro el
  unfold ask
  rcases ho s el.oracle with ⟨f, m, hf, hlimit⟩ | heq
  · exact .inl ⟨f, _, by rw [hf], hlimit⟩
  · exact .inr (by rw [heq])

theorem agrees_collinear (ho : o.Agrees o') (a b c : Point) :
    Agrees (collinear o a b c) (collinear o' a b c) := by
  refine (Agrees.refl get).bind fun el => ?_
  split_ifs
  · exact .refl _
  · exact (agrees_ask ho _).bind fun _ => .refl _

theorem agrees_branch (ho : o.Agrees o') (a b c : Point) (x z : EliminateM σ Expr) :
    Agrees (do if ← collinear o a b c then x else z) (do if ← collinear o' a b c then x else z) :=
  (agrees_collinear ho a b c).bind fun _ => .refl _

theorem agrees_plainRatio (ho : o.Agrees o') (a c d : Point) :
    Agrees (plainRatio o y how a c d) (plainRatio o' y how a c d) := by
  refine (Agrees.refl (record .ratio how)).bind fun _ => ?_
  cases how <;> exact agrees_branch ho _ _ _ _ _

theorem agrees_sharedRatio (ho : o.Agrees o') (a c : Point) :
    Agrees (sharedRatio o y how a c) (sharedRatio o' y how a c) := by
  unfold sharedRatio
  split_ifs
  · exact .refl _
  · refine (Agrees.refl (record .ratio how)).bind fun _ => ?_
    cases how <;> exact agrees_branch ho _ _ _ _ _

theorem agrees_ratioFrom (ho : o.Agrees o') (a c d : Point) :
    Agrees (ratioFrom o y how a c d) (ratioFrom o' y how a c d) := by
  unfold ratioFrom
  split_ifs
  · exact (agrees_sharedRatio ho a d).bind fun _ => .refl _
  · exact agrees_sharedRatio ho a c
  · exact agrees_plainRatio ho a c d

theorem agrees_ratioAbove (ho : o.Agrees o') (a b c d : Point) :
    Agrees (ratioAbove o y how a b c d) (ratioAbove o' y how a b c d) := by
  unfold ratioAbove
  split_ifs
  · exact (agrees_ratioFrom ho b c d).bind fun _ => .refl _
  · exact agrees_ratioFrom ho a c d

theorem agrees_ratio (ho : o.Agrees o') (a b c d : Point) :
    Agrees (ratio o y how a b c d) (ratio o' y how a b c d) := by
  unfold ratio
  split_ifs
  · exact .refl _
  · exact .refl _
  · exact agrees_ratioAbove ho a b c d
  · exact (agrees_ratioAbove ho c d a b).bind fun _ => .refl _

theorem agrees_quantity (ho : o.Agrees o') (q : Quantity) :
    Agrees (quantity o y how q) (quantity o' y how q) := by
  cases q with
  | area a b c => exact .refl _
  | pythagoras a b c => exact .refl _
  | ratio a b c d => exact agrees_ratio ho a b c d

theorem agrees_replace (ho : o.Agrees o') (e : Expr) :
    Agrees (replace o y how e) (replace o' y how e) := by
  refine agrees_bindQuantities (fun q => ?_) (e.expose y)
  split_ifs
  · exact agrees_quantity ho q
  · exact .refl _

theorem agrees_eliminate (ho : o.Agrees o') (fig : Figure) (e : Expr) (p : Point) :
    Agrees (eliminate o fig e p) (eliminate o' fig e p) := by
  unfold eliminate
  split
  · exact .refl _
  · exact (agrees_replace ho e).bind fun _ => .refl _

theorem agrees_quantityInFrame (ho : o.Agrees o') (fig : Figure) (q : Quantity) :
    Agrees (quantityInFrame o fig q) (quantityInFrame o' fig q) := by
  unfold quantityInFrame
  split
  · exact .refl _
  · cases q with
    | area a b c => exact .refl _
    | pythagoras a b c => exact .refl _
    | ratio a b c d => exact agrees_branch ho _ _ _ _ _

end Elimination

/-! ### Attempts with two limits -/

/-- Each limit is at most the other one. -/
structure Limits.Within (limits limits' : Limits) : Prop where
  oracleDepth : limits.oracleDepth ≤ limits'.oracleDepth
  expressionSize : limits.expressionSize ≤ limits'.expressionSize
  eliminations : limits.eliminations ≤ limits'.eliminations

section Attempts

variable {σ : Type} {limits limits' : Limits} {o o' : Oracle σ}

theorem agrees_checkSize (h : limits.Within limits') (e : Expr) :
    Agrees (checkSize limits e : EliminateM σ Unit) (checkSize limits' e) := by
  unfold checkSize
  by_cases hsize : e.size > limits.expressionSize
  · rw [if_pos hsize]
    exact agrees_throw rfl _
  · rw [if_neg hsize, if_neg fun hsize' => hsize (h.expressionSize.trans_lt hsize')]
    exact .refl _

theorem agrees_eliminateAll (h : limits.Within limits') (ho : o.Agrees o') (fig : Figure) :
    ∀ (ps : List Point) (e : Expr) (steps : List EliminationStep),
      Agrees (eliminateAll limits o fig ps e steps) (eliminateAll limits' o' fig ps e steps)
  | [], _, _ => .refl _
  | p :: ps, e, steps => by
    unfold eliminateAll
    by_cases hmem : !e.mentions p
    · rw [if_pos hmem, if_pos hmem]
      exact agrees_eliminateAll h ho fig ps e steps
    rw [if_neg hmem, if_neg hmem]
    by_cases hlimit : limits.eliminations ≤ steps.length
    · rw [if_pos hlimit]
      exact agrees_throw rfl _
    · rw [if_neg hlimit, if_neg fun hlimit' => hlimit (h.eliminations.trans hlimit')]
      refine (agrees_eliminate ho fig e p).bind fun e' => ?_
      refine (agrees_checkSize h e').bind fun _ => ?_
      exact agrees_eliminateAll h ho fig ps e' _

theorem agrees_quotient (h : limits.Within limits') (ho : o.Agrees o') (fig : Figure) (e : Expr) :
    Agrees (quotient limits o fig e) (quotient limits' o' fig e) := by
  refine (agrees_bindQuantities (agrees_quantityInFrame ho fig) e.unfold).bind fun framed => ?_
  exact (agrees_checkSize h _).bind fun _ => .refl _

/-- **Attempts.** -/
theorem Theorem.agrees_attempt (thm : Theorem) (h : limits.Within limits') (ho : o.Agrees o') :
    Agrees (thm.attempt limits o) (thm.attempt limits' o') := by
  refine (Agrees.refl _).bind fun start => ?_
  refine (agrees_checkSize h start).bind fun _ => ?_
  refine (agrees_eliminateAll h ho thm.figure _ start []).bind fun r => ?_
  refine (Agrees.refl (reduce r.1)).bind fun e => ?_
  exact (agrees_quotient h ho thm.figure e).bind fun _ => .refl _

end Attempts

namespace Prover

variable {limits limits' : Limits}

/-- A limit is not caught. -/
theorem settle_of_isLimit {f : Fault} (h : f.isLimit = true) (m : Memory) (s : Statement)
    (el : Eliminator Memory) : ∃ m', settle m s (.error f, el) = (.error f, m') := by
  cases f <;> first | exact ⟨_, rfl⟩ | cases h

/-- **The oracle, at any depth.** -/
theorem agrees_decideWithin (h : limits.Within limits') : ∀ {n n' : ℕ} (_ : n ≤ n') (fig : Figure),
    (decideWithin limits n fig).Agrees (decideWithin limits' n' fig) := by
  intro n
  induction n with
  | zero =>
    intro n' _ fig s m
    cases hm : m.decided.lookup s.key with
    | some d => exact .inr (by rw [decideWithin_known 0 hm, decideWithin_known n' hm])
    | none => exact .inl ⟨_, m, decideWithin_zero hm, rfl⟩
  | succ n ih =>
    intro n' hn fig s m
    obtain ⟨n', rfl⟩ := Nat.exists_eq_add_of_le' (Nat.one_le_of_lt hn)
    cases hm : m.decided.lookup s.key with
    | some d => exact .inr (by rw [decideWithin_known _ hm, decideWithin_known _ hm])
    | none =>
      rw [decideWithin_succ n hm, decideWithin_succ n' hm]
      have hattempt := (question fig s).agrees_attempt h
        (ih (Nat.le_of_succ_le_succ hn) (fig.closure s.points))
      rcases hattempt (Eliminator.start ⟨m.depth + 1, m.decided, .none⟩) with
        ⟨f, el, hf, hlimit⟩ | heq
      · obtain ⟨m', hm'⟩ := settle_of_isLimit hlimit m s el
        exact .inl ⟨f, m', by rw [hf, hm'], hlimit⟩
      · exact .inr (by rw [heq])

theorem agrees_oracle (h : limits.Within limits') (fig : Figure) :
    (oracle limits fig).Agrees (oracle limits' fig) := fun s m =>
  agrees_decideWithin h (Nat.sub_le_sub_right h.oracleDepth m.depth) fig s m

end Prover

/-- **Limits only cut short.** If a proof does not fail with a limit, it ends
with the same report or the same fault under all larger limits. Only the value
at random coordinates follows the settings. -/
theorem Theorem.prove_of_within (thm : Theorem) {settings settings' : Settings}
    (h : settings.limits.Within settings'.limits) :
    (∀ f, thm.prove settings = .error f → f.isLimit = false → thm.prove settings' = .error f) ∧
    ∀ r, thm.prove settings = .ok r → thm.prove settings' = .ok { r with
      numericValue := if settings'.numericCheck then thm.valueAtRandom settings'.seed else none } := by
  have hrun : (∃ f el, thm.run settings.limits = (.error f, el) ∧ f.isLimit = true) ∨
      thm.run settings.limits = thm.run settings'.limits :=
    thm.agrees_attempt h (Prover.agrees_oracle h thm.figure) _
  constructor
  · intro f hf hlimit
    obtain ⟨el, hel⟩ := prove_eq_error.mp hf
    rcases hrun with ⟨g, el', hg, hlimit'⟩ | heq
    · cases hel.symm.trans hg
      rw [hlimit] at hlimit'
      cases hlimit'
    · exact prove_eq_error.mpr ⟨el, heq.symm.trans hel⟩
  · intro r hr
    obtain ⟨a, el, hel, rfl⟩ := prove_eq_ok.mp hr
    rcases hrun with ⟨g, el', hg, -⟩ | heq
    · cases hel.symm.trans hg
    · exact prove_eq_ok.mpr ⟨a, el, heq.symm.trans hel, rfl⟩

namespace Parallelogram

open Letters

/-- If `cd` is `ab` moved to `c`, then `ab` and `cd` are parallel. -/
def built : Theorem :=
  ⟨"parallelogram", ⟨[⟨d, some (.pratio c a b 1)⟩, ⟨c, none⟩, ⟨b, none⟩, ⟨a, none⟩]⟩,
    .parallel a b c d⟩

/-- Limits under which the statement is proved. -/
def limits : Limits := ⟨0, 4, 1⟩

/-- The record after `d` was eliminated. -/
def found : Eliminator Memory :=
  ⟨.blank, .empty, LemmaUsage.none.record ⟨.area, .pratio⟩, [], []⟩

theorem run_built : built.run limits = (.ok ⟨[⟨d, 1⟩], .zero, .constant 1⟩, found) := by
  have hsimplify : (built.statement.zeroExpr.canonical .empty).simplify =
      .ok (.sum (.neg (.area a b c)) (.area a b d)) := Expr.simplify_of_fixed rfl
  have hreplace : replace (Prover.oracle limits built.figure) d (.pratio c a b 1)
      (.sum (.neg (.area a b c)) (.area a b d)) (Eliminator.start .blank) =
      (.ok (.sum (.neg (.area a b c)) (.area a b c + 1 * (.area a b b - .area a b a))), found) := rfl
  have hreduce : reduce (.sum (.neg (.area a b c)) (.area a b c + 1 * (.area a b b - .area a b a)))
      found = (.ok 0, found) := by
    have hpass := Expr.simplify_of_pass (e := (Expr.sum (.neg (.area a b c))
      (.area a b c + 1 * (.area a b b - .area a b a))).canonical .empty) rfl (by decide)
    exact run_liftExcept (hpass.trans (Expr.simplify_of_fixed rfl)) found
  have hzero : reduce 0 found = (.ok 0, found) :=
    run_liftExcept (Expr.simplify_of_fixed rfl) found
  have heliminate : eliminate (Prover.oracle limits built.figure) built.figure
      (.sum (.neg (.area a b c)) (.area a b d)) d (Eliminator.start .blank) = (.ok 0, found) :=
    (run_bind hreplace).trans hreduce
  have hall : eliminateAll limits (Prover.oracle limits built.figure) built.figure [d]
      (.sum (.neg (.area a b c)) (.area a b d)) [] (Eliminator.start .blank) =
      (.ok (0, [⟨d, 1⟩]), found) := (run_bind heliminate).trans rfl
  refine (run_bind (run_liftExcept hsimplify _)).trans ?_
  exact (run_bind (b := ()) rfl).trans ((run_bind hall).trans ((run_bind hzero).trans rfl))

end Parallelogram

open Parallelogram Letters in
theorem Theorem.prove_parallelogram : ∃ r, limits.Within .standard ∧
    built.prove ⟨limits, false, 0⟩ = .ok r ∧ r.verdict = .proved ∧
    built.prove ⟨.standard, true, 2024⟩ =
      .ok { r with numericValue := built.valueAtRandom 2024 } := by
  let settings : Settings := ⟨limits, false, 0⟩
  let settings' : Settings := ⟨.standard, true, 2024⟩
  have hlimits : settings.limits.Within settings'.limits := ⟨by decide, by decide, by decide⟩
  have hprove : built.prove settings = .ok (built.reportAll settings
      ⟨[⟨d, 1⟩], .zero, .constant 1⟩ found) := Theorem.prove_eq_ok.mpr ⟨_, _, run_built, rfl⟩
  have hlarger := (Theorem.prove_of_within built hlimits).2 _ hprove
  rw [if_pos rfl] at hlarger
  exact ⟨_, hlimits, hprove, by rw [Theorem.reportAll, Theorem.report]; rfl, hlarger⟩

end AreaMethod
