/-
# Keys and values

The oracle remembers its answers under the keys of statements. If no label of
the figure has a blank, statements with one key have the same value up to sign
wherever both have one (`Statement.value_of_key_eq`), so the answer to one of
them answers the other. A label with a blank can make two statements share a
key that have nothing to do with each other (`Statement.key_collision`).

Key theorems: `Statement.exists_of_key`, `Statement.value_of_key_eq`,
`Statement.key_collision`.
-/
import Mathlib
import AreaMethod.Proofs.LinearElimination
import AreaMethod.Proofs.Printing
import AreaMethod.Proofs.Simplification

namespace AreaMethod

/-! ### Normal expressions -/

theorem Canonical.readable_toExpr {c : Canonical}
    (h : c.toExpr.All (Quantity.On Point.OneWord)) : c.toExpr.Readable := by
  cases c with
  | zero => trivial
  | unit negative => cases negative <;> trivial
  | signed q negative => cases negative <;> exact Expr.all_quantity.mp h

theorem Expr.Readable.unpacked {e : Expr} (h : e.Readable) : e.Unpacked := by
  induction e with
  | number _ | quantity _ => trivial
  | neg _ ih => exact ih h
  | sum _ _ iha ihb | product _ _ iha ihb | fraction _ _ iha ihb => exact ⟨iha h.1, ihb h.2⟩
  | term _ | polynomial _ => exact h.elim

theorem Expr.readable_canonical (known : Triples) {e : Expr} (h : e.Readable) :
    (e.canonical known).Readable :=
  leafwise_readable.holds_mapLeaves leafwise_readable
    (fun q hq => Canonical.readable_toExpr (q.on_canonical known hq)) (fun _ ht => ht.elim)
    (fun _ hp => hp.elim) h

namespace Statement

variable {s s' : Statement}

theorem normalExpr_of_simplify {e : Expr} (h : (s.zeroExpr.canonical .empty).simplify = .ok e) :
    s.normalExpr = e := by
  simp only [normalExpr, h]

theorem readable_normalExpr (h : s.zeroExpr.Readable) : s.normalExpr.Readable := by
  have hcanonical := Expr.readable_canonical .empty h
  cases hsimplify : (s.zeroExpr.canonical .empty).simplify with
  | ok e =>
    rw [normalExpr_of_simplify hsimplify]
    exact Expr.leafwise_readable.holds_simplify hsimplify hcanonical
  | error f =>
    simp only [normalExpr, hsimplify]
    exact hcanonical

theorem value_normalExpr (hs : s.zeroExpr.Unpacked) {ρ : Coordinates} {x : ℚ}
    (h : s.zeroExpr.value (reading ρ) = some x) : s.normalExpr.value (reading ρ) = some x := by
  have hcanonical := Expr.value_canonical (Triples.holdAt_empty ρ) hs.fits h
  obtain ⟨e, he, hx⟩ := Expr.simplify_of_value hcanonical
  rw [normalExpr_of_simplify he, hx]

/-! ### Keys -/

theorem key_cases (s : Statement) :
    ∃ e : Expr, s.key = e.text ∧ (s.normalExpr = e ∨ s.normalExpr = .neg e) := by
  unfold key
  cases s.normalExpr with
  | neg e => exact ⟨e, rfl, .inr rfl⟩
  | _ => exact ⟨_, rfl, .inl rfl⟩

/-- The key is the text of an expression that has the value of the statement, or
its negative. -/
theorem exists_of_key (hs : s.zeroExpr.Readable) : ∃ e : Expr, e.Readable ∧ s.key = e.text ∧
    ∀ {ρ : Coordinates} {x : ℚ}, s.zeroExpr.value (reading ρ) = some x →
      ∃ y, e.value (reading ρ) = some y ∧ (x = y ∨ x = -y) := by
  have hreadable := readable_normalExpr hs
  obtain ⟨e, hkey, hnormal | hnormal⟩ := s.key_cases
  · rw [hnormal] at hreadable
    refine ⟨e, hreadable, hkey, fun {ρ x} hx => ⟨x, ?_, .inl rfl⟩⟩
    rw [← hnormal, value_normalExpr hs.unpacked hx]
  · rw [hnormal] at hreadable
    refine ⟨e, hreadable, hkey, fun hx => ?_⟩
    have hneg := value_normalExpr hs.unpacked hx
    rw [hnormal] at hneg
    obtain ⟨y, hy, rfl⟩ := Expr.value_neg_eq_some.mp hneg
    exact ⟨y, hy, .inr rfl⟩

/-- **A key stands for one statement up to sign.** In a figure whose labels have no
blank, two goals with one key have the same value up to sign at all coordinates
that give both of them a value. -/
theorem value_of_key_eq {fig : Figure} (hlabels : ∀ p, fig.has p = true → p.OneWord)
    {goal goal' : Goal} (hs : goal.resolve fig = .ok s) (hs' : goal'.resolve fig = .ok s')
    (hkey : s.key = s'.key) {ρ : Coordinates} {x x' : ℚ}
    (hx : s.zeroExpr.value (reading ρ) = some x) (hx' : s'.zeroExpr.value (reading ρ) = some x') :
    x = x' ∨ x = -x' := by
  have hquantity : ∀ q : Quantity, (q.On fun p => fig.has p = true) →
      (Expr.quantity q).Readable := fun q hq p hp => hlabels p (hq p hp)
  obtain ⟨e, he, htext, hvalue⟩ :=
    exists_of_key (Goal.holds_resolve Expr.leafwise_readable hquantity hs)
  obtain ⟨e', he', htext', hvalue'⟩ :=
    exists_of_key (Goal.holds_resolve Expr.leafwise_readable hquantity hs')
  obtain rfl : e = e' := Expr.eq_of_text_eq he he' (by rw [← htext, ← htext', hkey])
  obtain ⟨y, hy, hxy⟩ := hvalue hx
  obtain ⟨y', hy', hxy'⟩ := hvalue' hx'
  obtain rfl : y = y' := Option.some.inj (hy.symm.trans hy')
  rcases hxy with rfl | rfl
  · rcases hxy' with rfl | rfl
    · exact .inl rfl
    · exact .inr (neg_neg _).symm
  · rcases hxy' with rfl | rfl
    · exact .inr rfl
    · exact .inl rfl

theorem key_collinear {a b c : Point} (q : Quantity) (negative : Bool)
    (h : (Quantity.area a b c).canonical .empty = .signed q negative) :
    (collinear a b c).key = q.text := by
  have hexpr : (collinear a b c).zeroExpr.canonical .empty = (Canonical.signed q negative).toExpr :=
    congrArg Canonical.toExpr h
  have hnormal : (collinear a b c).normalExpr = (Canonical.signed q negative).toExpr := by
    apply normalExpr_of_simplify
    rw [hexpr]
    cases negative <;> exact Expr.simplify_of_fixed rfl
  rw [key, hnormal]
  cases negative <;> rfl

end Statement

namespace Triangle

open Letters

/-- Three free points. -/
def figure : Figure := ⟨[⟨c, none⟩, ⟨b, none⟩, ⟨a, none⟩]⟩

/-- The coordinates of the points. -/
def located : Coordinates := fun p => if p = b then (2, 0) else if p = c then (0, 3) else (0, 0)

theorem oneWord_of_has (p : Point) (h : figure.has p = true) : p.OneWord := by
  have hall : ∀ z ∈ figure.placed, z.point.OneWord := by decide
  obtain ⟨z, hz, rfl⟩ := Figure.has_iff.mp h
  exact hall z hz

theorem key_swapped : (Statement.collinear a b c).key = (Statement.collinear b a c).key := by
  rw [Statement.key_collinear (.area a b c) false rfl, Statement.key_collinear (.area a b c) true rfl]

theorem located_points : located a = (0, 0) ∧ located b = (2, 0) ∧ located c = (0, 3) :=
  ⟨rfl, rfl, rfl⟩

theorem value_collinear : (Statement.collinear a b c).zeroExpr.value (reading located) = some 3 := by
  change reading located (.area a b c) = _
  norm_num [reading, located_points, Vec.cross]

theorem value_swapped :
    (Statement.collinear b a c).zeroExpr.value (reading located) = some (-3) := by
  change reading located (.area b a c) = _
  norm_num [reading, located_points, Vec.cross]

end Triangle

open Triangle Letters in
theorem Statement.value_of_key_triangle :
    ∃ x x' : ℚ, (Goal.collinear "A" "B" "C").resolve figure = .ok (collinear a b c) ∧
      (Goal.collinear "B" "A" "C").resolve figure = .ok (collinear b a c) ∧
      (collinear a b c).key = (collinear b a c).key ∧
      (collinear a b c).zeroExpr.value (reading located) = some x ∧
      (collinear b a c).zeroExpr.value (reading located) = some x' ∧ x ≠ x' ∧
      (x = x' ∨ x = -x') := by
  have hs : (Goal.collinear "A" "B" "C").resolve figure = .ok (collinear a b c) := rfl
  have hs' : (Goal.collinear "B" "A" "C").resolve figure = .ok (collinear b a c) := rfl
  exact ⟨3, -3, hs, hs', key_swapped, value_collinear, value_swapped, by norm_num,
    Statement.value_of_key_eq oneWord_of_has hs hs' key_swapped value_collinear value_swapped⟩

/-! ### Labels with blanks -/

namespace BlankLabels

open Letters

/-- One point, not two. -/
def bc : Point := ⟨"B C"⟩

/-- One point, not two. -/
def ab : Point := ⟨"A B"⟩

/-- The midpoint of a segment, which lies on it, and two more points. -/
def problem : Problem :=
  ⟨"midpoint", [.free "A", .free "D", .midpoint "B C" "A" "D", .free "A B", .free "C"],
    .collinear "A" "B C" "D"⟩

/-- The theorem of the problem. -/
def built : Theorem :=
  ⟨"midpoint", ⟨[⟨c, none⟩, ⟨ab, none⟩, ⟨bc, some (.pratio a a d (1 / 2))⟩, ⟨d, none⟩, ⟨a, none⟩]⟩,
    .collinear a bc d⟩

theorem build_problem : problem.build = .ok built := rfl

theorem key_eq : (Statement.collinear a bc d).key = (Statement.collinear ab c d).key := by
  rw [Statement.key_collinear (.area a bc d) false rfl, Statement.key_collinear (.area ab c d) false rfl]
  rfl

/-- The midpoint lies on the segment, wherever the free points are. -/
theorem value_midpoint {free ρ : Coordinates} (h : built.figure.locate free = some ρ) :
    (Statement.collinear a bc d).zeroExpr.value (reading ρ) = some 0 := by
  have hbc : (Construction.pratio a a d (1 / 2)).locate ρ = some (ρ bc) :=
    Figure.locate_construction (Problem.proper_build build_problem).ordered h rfl
  obtain ⟨k, -, hk⟩ := located_pratio hbc
  have hzero : (ρ bc - ρ a).cross (ρ d - ρ a) = 0 := by
    rw [hk, add_sub_cancel_left, Vec.smul_cross]
    simp only [Vec.cross]
    ring
  change some ((ρ bc - ρ a).cross (ρ d - ρ a) / 2) = _
  rw [hzero, zero_div]

/-- The coordinates of the free points. -/
def free : Coordinates := fun p => if p = d then (2, 0) else if p = c then (0, 3) else (0, 0)

/-- The coordinates of all points. -/
def located : Coordinates := Function.update free bc (1, 0)

theorem locate_built : built.figure.locate free = some located := by
  have hpoints : free a = (0, 0) ∧ free d = (2, 0) := ⟨rfl, rfl⟩
  have hratio : Expr.value (reading free) (1 / 2) = some (1 / 2) :=
    Expr.value_fraction rfl rfl two_ne_zero
  have hbc : (Construction.pratio a a d (1 / 2)).locate free = some (1, 0) := by
    norm_num [Construction.locate, hratio, hpoints]
  have holder : Figure.locateAll free
      [⟨bc, some (.pratio a a d (1 / 2))⟩, ⟨d, none⟩, ⟨a, none⟩] = some located :=
    Figure.locateAll_cons_eq_some.mpr ⟨free, rfl, (1, 0), hbc, rfl⟩
  exact Figure.locateAll_cons_eq_some.mpr
    ⟨located, Figure.locateAll_cons_eq_some.mpr ⟨located, holder, rfl⟩, rfl⟩

theorem value_triangle :
    (Statement.collinear ab c d).zeroExpr.value (reading located) = some (-3) := by
  change reading located (.area ab c d) = _
  have hpoints : located ab = (0, 0) ∧ located c = (0, 3) ∧ located d = (2, 0) := ⟨rfl, rfl, rfl⟩
  norm_num [reading, hpoints, Vec.cross]

end BlankLabels

open BlankLabels Letters in
/-- **Labels with blanks make keys collide.** The midpoint `B C` of `A` and `D` is
always collinear with them, the points `A B`, `C` and `D` are not; the two
statements have one key, so the oracle gives the answer to the first for the
second. -/
theorem Statement.key_collision :
    problem.build = .ok built ∧
    (Goal.collinear "A B" "C" "D").resolve built.figure = .ok (collinear ab c d) ∧
    built.statement.key = (collinear ab c d).key ∧
    (∀ free ρ, built.figure.locate free = some ρ →
      built.statement.zeroExpr.value (reading ρ) = some 0) ∧
    (∃ free ρ, built.figure.locate free = some ρ ∧
      (collinear ab c d).zeroExpr.value (reading ρ) = some (-3)) ∧
    ∀ limits m answer, m.decided.lookup built.statement.key = some answer →
      Prover.oracle limits built.figure (collinear ab c d) m = (.ok answer, m) := by
  refine ⟨build_problem, rfl, key_eq, fun _ _ => value_midpoint,
    ⟨free, located, locate_built, value_triangle⟩, fun limits m answer h => ?_⟩
  rw [show built.statement.key = _ from key_eq] at h
  exact Prover.decideWithin_known _ h

end AreaMethod
