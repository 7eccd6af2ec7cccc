/-
# Soundness of proof attempts

A proof attempt turns the expression of a statement into a fraction of two
polynomials. Take coordinates at which no construction degenerates, the
expression has a value, the ratios on the way are those of parallel segments,
the oracle was right and no recorded condition vanishes. There the denominator
is not zero and the fraction has the value of the expression
(`Theorem.attempt_sound`). In particular, what was proved is true there
(`Theorem.proveWith_sound`).

The invariant of the run is that the expression keeps its value. It holds
initially, as canonical quantities and simplification keep values, and passes
over each elimination (`keeps_eliminateAll`) and on to the frame
(`computes_quotient_frame`).

Key definitions: `Eliminator.handed`, `Theorem.handed`.
Key theorems: `Theorem.attempt_sound`, `Theorem.proveWith_sound`.
-/
import Mathlib
import AreaMethod.Proof.Report
import AreaMethod.Proofs.Fractions
import AreaMethod.Proofs.FrameValue

namespace AreaMethod

namespace Eliminator

variable {σ : Type}

/-- The expressions that a run hands on, as long as it is not cut short by a
limit: to the elimination of each point that occurs, and at last, reduced, to
the frame. -/
def handed (oracle : Oracle σ) (fig : Figure) : List Point → Expr → Eliminator σ → List Expr
  | [], e, el =>
    match reduce e el with
    | (.ok e', _) => [e']
    | (.error _, _) => []
  | p :: ps, e, el =>
    if !e.mentions p then handed oracle fig ps e el
    else e ::
      match eliminate oracle fig e p el with
      | (.ok e', el') => handed oracle fig ps e' el'
      | (.error _, _) => []

end Eliminator

/-- The expressions that an attempt hands to the elimination of a point or to
the frame. -/
def Theorem.handed {σ : Type} (thm : Theorem) (oracle : Oracle σ) (memory : σ) : List Expr :=
  match (thm.statement.zeroExpr.canonical .empty).simplify with
  | .ok e =>
    Eliminator.handed oracle thm.figure (thm.figure.constructed.map Prod.fst) e
      (Eliminator.start memory)
  | .error _ => []

open Eliminator

section Run

variable {σ : Type} {ρ : Coordinates} {fig : Figure} {free : Coordinates}

theorem computes_checkSize (limits : Limits) (e : Expr) :
    Computes ρ (checkSize limits e : EliminateM σ Unit) fun _ => True := by
  unfold checkSize
  split_ifs
  · exact computes_throw _ _
  · exact computes_pure trivial

theorem computes_liftExcept {α : Type} {y : Except Fault α} {P : α → Prop}
    (h : ∀ a, y = .ok a → P a) : Computes ρ (liftExcept y : EliminateM σ α) P :=
  fun el hr => leads_liftExcept.mpr ⟨fun a ha => ⟨Extends.refl el, hr, fun _ => h a ha⟩,
    fun _ _ => trivial⟩

/-- **Eliminations keep the value**, if the ratios that are handed on are those
of parallel segments. -/
theorem keeps_eliminateAll (limits : Limits) (oracle : Oracle σ)
    (ho : Figure.Ordered fig.placed) (hu : fig.Unpacked) (hρ : fig.locate free = some ρ) :
    ∀ (ps : List Point) (e : Expr) (steps : List EliminationStep) (el : Eliminator σ),
      e.Unpacked → el.Remembers → Leads (eliminateAll limits oracle fig ps e steps) el
        (fun r el' => el.Extends el' ∧ el'.Remembers ∧ r.1.Unpacked ∧
          (∀ f ∈ handed oracle fig [] r.1 el', f ∈ handed oracle fig ps e el) ∧
          (TrueAt ρ el' → (∀ f ∈ handed oracle fig ps e el, f.All (Quantity.ParallelAt ρ)) →
            Keeps ρ e r.1))
        fun _ _ => True
  | [], e, steps, el, he, hr => ⟨Extends.refl el, hr, he, fun _ => id, fun _ _ => .refl ρ e⟩
  | p :: ps, e, steps, el, he, hr => by
    unfold eliminateAll handed
    split_ifs
    · exact keeps_eliminateAll limits oracle ho hu hρ ps e steps el he hr
    · trivial
    · have hunpacked := yields_eliminate_unpacked oracle hu he p el trivial
      refine leads_bind.mpr ((((leads_self _ el).and
        (computes_eliminate oracle ho hu hρ he p el hr)).and hunpacked).mono
        (fun e' el' hstep => ?_) fun _ _ _ => trivial)
      obtain ⟨⟨hrun, hext, hr', hkeep⟩, -, he'⟩ := hstep
      refine leads_bind.mpr (leads_checkSize.mpr ⟨fun _ => ?_, fun _ => trivial⟩)
      rw [hrun]
      refine (keeps_eliminateAll limits oracle ho hu hρ ps e' _ el' he' hr').mono
        (fun r el'' hrest => ?_) fun _ _ => id
      obtain ⟨hext', hr'', hend, hlast, hkeep'⟩ := hrest
      refine ⟨hext.trans hext', hr'', hend, fun f hf => .tail _ (hlast f hf), fun ht hpar => ?_⟩
      obtain ⟨hhead, htail⟩ := List.forall_mem_cons.mp hpar
      exact (hkeep (ht.of_extends hext') hhead).trans (hkeep' ht htail)

/-- **The quotient has the value of the expression.** -/
theorem computes_quotient_frame (limits : Limits) (oracle : Oracle σ) (hs : Frame.Square ρ)
    (e : Expr) :
    Computes ρ (quotient limits oracle fig e) fun nd => e.All (Quantity.ParallelAt ρ) →
      ∀ x, e.value (reading ρ) = some x →
        ∃ n d, nd.1.value (reading ρ) = some n ∧ nd.2.value (reading ρ) = some d ∧ d ≠ 0 ∧
          x = n / d := by
  have hframe := (computes_toFrame oracle fig hs e).and_yields (yields_toFrame_unpacked oracle fig e)
  refine hframe.bind fun framed => ?_
  refine (computes_checkSize limits _).bind fun _ => ?_
  refine (computes_liftExcept fun single hsingle => hsingle).bind fun single => ?_
  refine (computes_liftExcept fun n hn => hn).bind fun numerator => ?_
  refine (computes_liftExcept fun d hd => hd).bind fun denominator => ?_
  split_ifs
  · exact computes_throw _ _
  · refine computes_pure fun hden hnum hsingle _ ⟨hreplaces, hunpacked⟩ hpar x hx => ?_
    rw [← Expr.value_unfold] at hx
    have haligned : e.All (Quantity.AlignedAt ρ) := hpar.mono fun _ hq => hq.alignedAt
    have hframed := Expr.value_canonical (Triples.holdAt_empty ρ) hunpacked.fits
      ((hreplaces haligned).keeps x hx)
    obtain ⟨e', he', hvalue⟩ := Expr.singleFraction_of_value hframed
    obtain rfl : single = e' := Except.ok.inj (hsingle.symm.trans he')
    obtain ⟨n, d, hn, hd, h0, hx⟩ := Expr.value_numDen hvalue
    exact ⟨n, d, Expr.value_of_expand hnum hn, Expr.value_of_expand hden hd, h0, hx⟩

end Run

/-! ### Attempts -/

/-- **Soundness of an attempt.** The fraction that an attempt arrives at has the
value of the statement's expression, and its denominator does not vanish. -/
theorem Theorem.attempt_sound {σ : Type} {thm : Theorem} {limits : Limits} {oracle : Oracle σ}
    {memory : σ} {a : Attempt} {el : Eliminator σ} {free ρ : Coordinates} {x : ℚ}
    (hthm : thm.Proper)
    (hrun : thm.attempt limits oracle (Eliminator.start memory) = (.ok a, el))
    (hsquare : Frame.Square free) (hρ : thm.figure.locate free = some ρ)
    (hx : thm.statement.zeroExpr.value (reading ρ) = some x)
    (hpar : ∀ e ∈ thm.handed oracle memory, e.All (Quantity.ParallelAt ρ))
    (htrue : TrueAt ρ el) :
    ∃ n d, a.numerator.value (reading ρ) = some n ∧ a.denominator.value (reading ρ) = some d ∧
      d ≠ 0 ∧ x = n / d := by
  have hs := Figure.square_locate hthm.apart hρ hsquare
  have hlead : Leads (thm.attempt limits oracle) (Eliminator.start memory)
      (fun a el => TrueAt ρ el → ∃ n d, a.numerator.value (reading ρ) = some n ∧
        a.denominator.value (reading ρ) = some d ∧ d ≠ 0 ∧ x = n / d) fun _ _ => True := by
    refine leads_bind.mpr (leads_liftExcept.mpr ⟨fun start hstart => ?_, fun _ _ => trivial⟩)
    refine leads_bind.mpr (leads_checkSize.mpr ⟨fun _ => ?_, fun _ => trivial⟩)
    have hvalue : start.value (reading ρ) = some x :=
      Expr.value_of_simplify hstart
        (Expr.value_canonical (Triples.holdAt_empty ρ) hthm.unpacked.fits hx)
    have hunpacked : start.Unpacked :=
      Expr.leafwise_unpacked.holds_simplify hstart (hthm.unpacked.canonical .empty)
    unfold Theorem.handed at hpar
    rw [hstart] at hpar
    refine leads_bind.mpr ((keeps_eliminateAll limits oracle hthm.ordered hthm.constructions hρ _
      start [] _ hunpacked (remembers_start memory)).mono
      (fun r el₁ ⟨_, hr₁, hlastUnpacked, hlast, hkeep⟩ => ?_) fun _ _ => id)
    have hkeeps : Computes ρ (reduce r.1 : EliminateM σ Expr) fun e => Keeps ρ r.1 e :=
      (computes_reduce r.1).mono fun _ h => h hlastUnpacked
    refine leads_bind.mpr (((leads_self _ el₁).and (hkeeps el₁ hr₁)).mono
      (fun e el₂ ⟨hreduce, hext₂, hr₂, hreduced⟩ => ?_) fun _ _ _ => trivial)
    refine leads_bind.mpr ((computes_quotient_frame limits oracle hs e el₂ hr₂).mono
      (fun nd el₃ ⟨hext₃, _, hquotient⟩ => ?_) fun _ _ => id)
    refine fun ht => hquotient ht (hpar e (hlast e ?_)) x ?_
    · unfold Eliminator.handed
      rw [hreduce]
      exact .head _
    · have ht₂ := ht.of_extends hext₃
      exact hreduced ht₂ x (hkeep (ht₂.of_extends hext₂) hpar x hvalue)
  exact hlead.of_ok hrun htrue

/-! ### Reports -/

/-- **Soundness of a report, for every oracle.** Take coordinates of the free
points at which no construction degenerates, the statement's expression has the
value `x`, the ratios handed on are those of parallel segments, each answer of
the oracle is right and no recorded condition vanishes. In the frame with axes
of length one, the final denominator is not zero there and `x` is the final
fraction. If the verdict is that the statement was proved, `x` is zero. -/
theorem Theorem.proveWith_sound {σ : Type} {p : Problem} {thm : Theorem} {settings : Settings}
    {oracle : Oracle σ} {memory : σ} {r : Report} {el : Eliminator σ} {free ρ : Coordinates} {x : ℚ}
    (hbuild : p.build = .ok thm)
    (hrun : thm.proveWith settings oracle memory = (.ok r, el))
    (hρ : thm.figure.locate (Frame.place 1 free) = some ρ)
    (hx : thm.statement.zeroExpr.value (reading ρ) = some x)
    (hpar : ∀ e ∈ thm.handed oracle memory, e.All (Quantity.ParallelAt ρ))
    (hanswers : ∀ q ∈ el.asked, q.RightAt ρ)
    (hconditions : ∀ e ∈ el.conditions, e.NonzeroAt ρ) :
    ∃ a n d, thm.attempt settings.limits oracle (Eliminator.start memory) = (.ok a, el) ∧
      a.numerator.value (reading ρ) = some n ∧ a.denominator.value (reading ρ) = some d ∧
      d ≠ 0 ∧ x = n / d ∧ (r.verdict = .proved → x = 0) := by
  obtain ⟨a, hattempt, rfl⟩ := Theorem.proveWith_eq_ok.mp hrun
  obtain ⟨n, d, hn, hd, h0, rfl⟩ := attempt_sound (Problem.proper_build hbuild) hattempt
    (Frame.square_place one_ne_zero free) hρ hx hpar ⟨hanswers, hconditions⟩
  refine ⟨a, n, d, hattempt, hn, hd, h0, rfl, fun hverdict => ?_⟩
  have hholds : a.holds = true := by
    by_contra hfails
    simp [Theorem.report, hfails] at hverdict
  have hvalue : a.numerator.value (reading ρ) = some 0 :=
    Polynomial.value_of_isZero hholds
  obtain rfl : n = 0 := Option.some.inj (hn.symm.trans hvalue)
  exact zero_div d

namespace CoSide

open Letters

/-- The lines `cd` and `ab` meet in `y`; the ratio `ay / by` is that of the
triangles over `cd`. -/
def problem : Problem :=
  ⟨"co-side", [.free "A", .free "B", .free "C", .free "D", .intersection "Y" "C" "D" "A" "B"],
    .equal "(* (R A Y B Y) (S B C D))" "(S A C D)"⟩

/-- The theorem of the problem. -/
def built : Theorem :=
  ⟨"co-side", ⟨[⟨y, some (.intersection c d a b)⟩, ⟨d, none⟩, ⟨c, none⟩, ⟨b, none⟩, ⟨a, none⟩]⟩,
    .equal (.product (.ratio a y b y) (.area b c d)) (.area a c d)⟩

set_option maxRecDepth 4000 in
theorem read_left : SExpr.read "(* (R A Y B Y) (S B C D))" = .ok (some (.list [.atom "*",
    .list [.atom "R", .atom "A", .atom "Y", .atom "B", .atom "Y"],
    .list [.atom "S", .atom "B", .atom "C", .atom "D"]])) := rfl

theorem read_right : SExpr.read "(S A C D)" = .ok (some (.list
    [.atom "S", .atom "A", .atom "C", .atom "D"])) := rfl

theorem build_problem : problem.build = .ok built := by
  have hfigure : problem.steps.foldlM (fun fig step => step.apply fig) Figure.empty =
      .ok built.figure := rfl
  have hleft : built.figure.expression "(* (R A Y B Y) (S B C D))" =
      .ok (.product (.ratio a y b y) (.area b c d)) :=
    Figure.expression_of_read read_left (by simp only [Expr.ofSExpr, Expr.ofSExprs]; rfl)
  have hright : built.figure.expression "(S A C D)" = .ok (.area a c d) :=
    Figure.expression_of_read read_right (by simp only [Expr.ofSExpr, Expr.ofSExprs]; rfl)
  have hgoal : problem.goal.resolve built.figure = .ok built.statement := by
    simp only [problem, Goal.resolve, hleft, hright]
    rfl
  exact bind_eq_ok.mpr ⟨_, hfigure, bind_eq_ok.mpr ⟨_, hgoal, rfl⟩⟩

/-- The expression of the statement. -/
def difference : Expr := .sum (.product (.ratio a y b y) (.area b c d)) (.neg (.area a c d))

/-- The record after `y` was eliminated, with an oracle that denies. -/
def found : Eliminator Unit :=
  ⟨(), .empty, LemmaUsage.none.record ⟨.ratio, .intersection⟩, [.area b c d],
    [⟨.collinear a c d, .ok .fails⟩]⟩

theorem simplify_difference : (built.statement.zeroExpr.canonical .empty).simplify = .ok difference :=
  Expr.simplify_of_fixed rfl

theorem eliminate_difference :
    eliminate (Oracle.constant .fails) built.figure difference y (Eliminator.start ()) =
      (.ok 0, found) := by
  have hreplace : replace (Oracle.constant .fails) y (.intersection c d a b) difference
      (Eliminator.start ()) = (.ok (.sum (.product (.fraction (.area a c d) (.area b c d))
        (.area b c d)) (.neg (.area a c d))), found) := rfl
  refine (run_bind hreplace).trans (run_liftExcept ?_ found)
  have hpass := Expr.simplify_of_pass (e := .sum (.product (.fraction (.area a c d) (.area b c d))
    (.area b c d)) (.neg (.area a c d))) rfl (by decide)
  exact hpass.trans (Expr.simplify_of_fixed rfl)

theorem reduce_zero : reduce 0 found = (.ok 0, found) :=
  run_liftExcept (Expr.simplify_of_fixed rfl) found

theorem attempt_built : built.attempt .standard (Oracle.constant .fails) (Eliminator.start ()) =
    (.ok ⟨[⟨y, 1⟩], .zero, .constant 1⟩, found) := by
  have hall : eliminateAll .standard (Oracle.constant .fails) built.figure [y] difference []
      (Eliminator.start ()) = (.ok (0, [⟨y, 1⟩]), found) :=
    (run_bind eliminate_difference).trans rfl
  refine (run_bind (run_liftExcept simplify_difference _)).trans ?_
  refine (run_bind (b := ()) rfl).trans ((run_bind hall).trans ((run_bind reduce_zero).trans rfl))

theorem handed_built : built.handed (Oracle.constant .fails) () = [difference, 0] := by
  have hlast : Eliminator.handed (Oracle.constant .fails) built.figure [] 0 found = [0] := by
    rw [Eliminator.handed, reduce_zero]
  rw [Theorem.handed, simplify_difference]
  change Eliminator.handed (Oracle.constant .fails) built.figure [y] difference (Eliminator.start ()) = _
  rw [Eliminator.handed, if_neg (by decide), eliminate_difference]
  exact congrArg (difference :: ·) hlast

/-- Coordinates at which `y` is a third of the way from `a` to `b`. -/
def free : Coordinates := fun p =>
  if p = a then (0, 0) else if p = b then (3, 0) else if p = c then (1, 1) else (1, -1)

/-- The coordinates of all points. -/
def located : Coordinates := Function.update (Frame.place 1 free) y (1, 0)

theorem located_points : located a = (0, 0) ∧ located b = (3, 0) ∧ located c = (1, 1) ∧
    located d = (1, -1) ∧ located y = (1, 0) := ⟨rfl, rfl, rfl, rfl, rfl⟩

theorem locate_built : built.figure.locate (Frame.place 1 free) = some located := by
  have hpoints : Frame.place 1 free a = (0, 0) ∧ Frame.place 1 free b = (3, 0) ∧
      Frame.place 1 free c = (1, 1) ∧ Frame.place 1 free d = (1, -1) := ⟨rfl, rfl, rfl, rfl⟩
  obtain ⟨ha, hb, hc, hd⟩ := hpoints
  have hy : (Construction.intersection c d a b).locate (Frame.place 1 free) = some (1, 0) := by
    norm_num [Construction.locate, ha, hb, hc, hd, Vec.cross]
  exact Figure.locateAll_cons_eq_some.mpr ⟨_, rfl, (1, 0), hy, rfl⟩

theorem value_bcd : Expr.value (reading located) (.area b c d) = some 2 := by
  obtain ⟨-, hb, hc, hd, -⟩ := located_points
  change reading located (.area b c d) = _
  norm_num [reading, hb, hc, hd, Vec.cross]

theorem value_acd : Expr.value (reading located) (.area a c d) = some (-1) := by
  obtain ⟨ha, -, hc, hd, -⟩ := located_points
  change reading located (.area a c d) = _
  norm_num [reading, ha, hc, hd, Vec.cross]

theorem parallel_ayby : Parallel located a y b y (-1 / 2) := by
  obtain ⟨ha, hb, -, -, hy⟩ := located_points
  refine ⟨by rw [hb, hy]; decide, by norm_num, ?_⟩
  rw [ha, hb, hy]
  norm_num

theorem value_zeroExpr : built.statement.zeroExpr.value (reading located) = some 0 := by
  have hratio : Expr.value (reading located) (.ratio a y b y) = some (-1 / 2) :=
    parallel_ayby.reading_ratio
  have h := Expr.value_sub (Expr.value_product hratio value_bcd) value_acd
  norm_num at h
  exact h

end CoSide

open CoSide Letters in
theorem Theorem.proveWith_sound_coSide :
    ∃ r a n d, problem.build = .ok built ∧
      built.proveWith ⟨.standard, false, 0⟩ (Oracle.constant .fails) () = (.ok r, found) ∧
      r.verdict = .proved ∧
      built.attempt .standard (Oracle.constant .fails) (Eliminator.start ()) = (.ok a, found) ∧
      a.numerator.value (reading located) = some n ∧
      a.denominator.value (reading located) = some d ∧ d ≠ 0 ∧ 0 = n / d := by
  have hrun : built.proveWith ⟨.standard, false, 0⟩ (Oracle.constant .fails) () =
      (.ok (built.report ⟨.standard, false, 0⟩ ⟨[⟨y, 1⟩], .zero, .constant 1⟩ found.usage
        found.conditions), found) :=
    Theorem.proveWith_eq_ok.mpr ⟨_, attempt_built, rfl⟩
  have hpar : ∀ e ∈ built.handed (Oracle.constant .fails) (), e.All (Quantity.ParallelAt located) := by
    rw [handed_built]
    have hdifference : difference.All (Quantity.ParallelAt located) :=
      Expr.all_sum.mpr ⟨Expr.all_product.mpr
        ⟨Expr.all_quantity.mpr fun _ => ⟨_, parallel_ayby⟩, Expr.all_quantity.mpr trivial⟩,
        Expr.all_neg.mpr (Expr.all_quantity.mpr trivial)⟩
    exact List.forall_mem_cons.mpr ⟨hdifference, List.forall_mem_singleton.mpr (Expr.all_number 0)⟩
  have hanswers : ∀ q ∈ found.asked, q.RightAt located := by
    refine List.forall_mem_singleton.mpr fun hzero => ?_
    have h := value_acd.symm.trans hzero
    norm_num at h
  have hconditions : ∀ e ∈ found.conditions, e.NonzeroAt located :=
    List.forall_mem_singleton.mpr ⟨2, value_bcd, two_ne_zero⟩
  obtain ⟨a, n, d, hattempt, hn, hd, h0, hx, -⟩ := Theorem.proveWith_sound build_problem hrun
    locate_built value_zeroExpr hpar hanswers hconditions
  exact ⟨_, a, n, d, build_problem, hrun, by rw [Theorem.report]; rfl, hattempt, hn, hd, h0, hx⟩

end AreaMethod
