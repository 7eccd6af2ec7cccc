/-
# Theorems without ratios are decided

The variables of the frame are independent: whatever values they are given,
as long as that of the frame itself is half a square, there are coordinates of
the free points with these areas (`Frame.recover`). So a polynomial in these
variables that vanishes at all coordinates near some vanishes on a box, and has
no terms (`Figure.isZero_of_eventually`).

Near coordinates at which the statement has a value it has one too, so a
statement that is true wherever it has a value has a numerator without terms.
Together with the values of attempts (`Theorem.yields_attempt`) this shows that
a theorem without ratios is proved if and only if it is true
(`Problem.prove_decides`).

Key definitions: `Frame.valueIn`, `Frame.recover`.
Key theorems: `Frame.reading_variable`, `Figure.isZero_of_eventually`,
`Theorem.eq_zero_of_holds`, `Theorem.holds_of_forall_eq_zero`,
`Problem.prove_decides`.
-/
import Mathlib
import AreaMethod.Proofs.Regularity
import AreaMethod.Proofs.PolynomialIdentity

open Topology

namespace AreaMethod

/-! ### Coordinates with given areas -/

namespace Frame

variable {fig : Figure} {ρ : Coordinates} {s : ℚ} {w : Quantity → ℚ} {q : Quantity}

/-- The value of a quantity whose representative has the value given by `w`. -/
def valueIn (w : Quantity → ℚ) (q : Quantity) : ℚ :=
  match q.canonical .empty with
  | .zero => 0
  | .unit odd => sign odd
  | .signed q' odd => sign odd * w q'

/-- Coordinates in a frame with axes of length `s`, at which the variables of the
frame have the values given by `w`. -/
def recover (s : ℚ) (w : Quantity → ℚ) : Coordinates :=
  place s fun p => (-2 * valueIn w (.area o v p) / s, 2 * valueIn w (.area o u p) / s)

theorem continuous_valueIn (q : Quantity) : Continuous fun w => valueIn w q := by
  unfold valueIn
  cases q.canonical .empty with
  | zero => exact continuous_const
  | unit odd => exact continuous_const
  | signed q' odd => fun_prop

theorem continuousAt_recover (hs : s ≠ 0) :
    ContinuousAt (fun y : ℚ × (Quantity → ℚ) => recover y.1 y.2) (s, w) := by
  have hvalue : ∀ q, ContinuousAt (fun y : ℚ × (Quantity → ℚ) => valueIn y.2 q) (s, w) :=
    fun q => ((continuous_valueIn q).comp continuous_snd).continuousAt
  refine continuousAt_pi.mpr fun p => ?_
  unfold recover place
  split_ifs
  · exact continuousAt_const
  · exact continuousAt_fst.prodMk continuousAt_const
  · exact continuousAt_const.prodMk continuousAt_fst
  · exact ((continuousAt_const.mul (hvalue _)).div continuousAt_fst hs).prodMk
      ((continuousAt_const.mul (hvalue _)).div continuousAt_fst hs)

/-- The values at given coordinates are those of the representatives. -/
theorem valueIn_reading {x : ℚ} (h : reading ρ q = some x) :
    valueIn (fun q => (reading ρ q).getD 0) q = x := by
  have hvalue := Quantity.value_canonical (Triples.holdAt_empty ρ) h
  unfold valueIn
  cases hq : q.canonical .empty with
  | zero =>
    rw [hq] at hvalue
    exact Option.some.inj hvalue
  | unit odd =>
    rw [hq, Canonical.value_unit] at hvalue
    exact Option.some.inj hvalue
  | signed q' odd =>
    rw [hq] at hvalue
    simp only [reading_of_value_signed hvalue, Option.getD_some]
    exact sign_mul_cancel odd x

theorem reading_area_x (free : Coordinates) (p : Point) : reading (place s free) (.area o u p) =
    some (s * (place s free p).2 / 2) := by
  obtain ⟨ho, hu, -⟩ := place_frame s free
  simp [reading, ho, hu, Vec.cross]

theorem reading_area_y (free : Coordinates) (p : Point) : reading (place s free) (.area o v p) =
    some (-(s * (place s free p).1) / 2) := by
  obtain ⟨ho, -, hv⟩ := place_frame s free
  simp [reading, ho, hv, Vec.cross]

/-- Coordinates are recovered from their areas. -/
theorem recover_reading (hs : s ≠ 0) (free : Coordinates) :
    recover s (fun q => (reading (place s free) q).getD 0) = place s free := by
  funext p
  unfold recover
  rw [place]
  split_ifs with ho hu hv
  · rw [ho, (place_frame s free).1]
  · rw [hu, (place_frame s free).2.1]
  · rw [hv, (place_frame s free).2.2]
  · rw [valueIn_reading (reading_area_x free p), valueIn_reading (reading_area_y free p)]
    refine Prod.ext ?_ ?_ <;> field_simp

theorem valueIn_unit (w : Quantity → ℚ) : valueIn w (.area o u v) = w (.area o u v) := by
  have hcanonical : (Quantity.area o u v).canonical .empty = .signed (.area o u v) false := by decide
  rw [valueIn, hcanonical]
  exact one_mul _

/-- The areas at the recovered coordinates, wherever the constructed points are. -/
theorem reading_raw (hs : s ≠ 0) (hunit : w (.area o u v) = s ^ 2 / 2)
    (hρ : ∀ p, p.label ∈ frameLabels ∨ fig.Free p → ρ p = recover s w p) (hq : Raw fig q) :
    reading ρ q = some (valueIn w q) := by
  have hframe : ∀ p, p.label ∈ frameLabels → ρ p = recover s w p := fun p hp => hρ p (.inl hp)
  have hagree : reading ρ q = reading (recover s w) q := by
    refine reading_congr ?_
    have ho := hframe o (by decide)
    have hu := hframe u (by decide)
    have hv := hframe v (by decide)
    rcases hq with rfl | ⟨p, hp, rfl | rfl⟩
    · exact Quantity.on_area.mpr ⟨ho, hu, hv⟩
    · exact Quantity.on_area.mpr ⟨ho, hu, hρ p (.inr hp)⟩
    · exact Quantity.on_area.mpr ⟨ho, hv, hρ p (.inr hp)⟩
  rw [hagree]
  unfold recover
  rcases hq with rfl | ⟨p, hp, rfl | rfl⟩
  · rw [reading_area_x, (place_frame s _).2.2, valueIn_unit, hunit, sq]
  · rw [reading_area_x, place_of_apart hp.2]
    congr 1
    field_simp
  · rw [reading_area_y, place_of_apart hp.2]
    congr 1
    field_simp

/-- **Independence.** The variables of the frame have the given values. -/
theorem reading_variable (hs : s ≠ 0) (hunit : w (.area o u v) = s ^ 2 / 2)
    (hρ : ∀ p, p.label ∈ frameLabels ∨ fig.Free p → ρ p = recover s w p)
    (hq : Variable fig q) : reading ρ q = some (w q) := by
  obtain ⟨q₀, odd, hraw, hcanonical⟩ := hq
  have hvalue := Quantity.value_canonical (Triples.holdAt_empty ρ) (reading_raw hs hunit hρ hraw)
  rw [hcanonical] at hvalue
  rw [reading_of_value_signed hvalue, valueIn, hcanonical]
  exact congrArg some (sign_mul_cancel odd (w q))

/-- A neighbourhood of a frame of length one contains a box, up to the value of
the frame, which is determined by its length. -/
theorem exists_box {P : ℚ → (Quantity → ℚ) → Prop} (hunit : w (.area o u v) = 1 / 2)
    (h : ∀ᶠ y in 𝓝 ((1 : ℚ), w), P y.1 y.2) :
    ∃ S : Quantity → Set ℚ, (∀ q, (S q).Infinite) ∧ ∀ w', (∀ q, w' q ∈ S q) →
      ∃ s, s ≠ 0 ∧ w' (.area o u v) = s ^ 2 / 2 ∧ P s w' := by
  rw [nhds_prod_eq, Filter.eventually_prod_iff] at h
  obtain ⟨near, hnear, nearby, hnearby, hP⟩ := h
  rw [nhds_pi, Filter.Eventually, Filter.mem_pi] at hnearby
  obtain ⟨I, -, t, ht, hsub⟩ := hnearby
  -- the lengths whose half squares are among the values of the frame
  let lengths : Set ℚ := {s | near s ∧ 0 < s ∧ s ^ 2 / 2 ∈ t (.area o u v)}
  have hlengths : lengths ∈ 𝓝 (1 : ℚ) := by
    have hhalf : ContinuousAt (fun s : ℚ => s ^ 2 / 2) 1 := by fun_prop
    have hval : t (.area o u v) ∈ 𝓝 ((1 : ℚ) ^ 2 / 2) := by
      rw [one_pow, ← hunit]
      exact ht _
    filter_upwards [hnear, lt_mem_nhds (zero_lt_one' ℚ), hhalf.eventually_mem hval] with s h₁ h₂ h₃
    exact ⟨h₁, h₂, h₃⟩
  have hinj : Set.InjOn (fun s : ℚ => s ^ 2 / 2) lengths := by
    intro s hs s' hs' heq
    have hsq : s ^ 2 = s' ^ 2 := by simpa using heq
    exact (sq_eq_sq₀ hs.2.1.le hs'.2.1.le).mp hsq
  refine ⟨Function.update t (.area o u v) ((fun s => s ^ 2 / 2) '' lengths), fun q => ?_,
    fun w' hw' => ?_⟩
  · by_cases hq : q = .area o u v
    · rw [hq, Function.update_self]
      exact (infinite_of_mem_nhds 1 hlengths).image hinj
    · rw [Function.update_of_ne hq]
      exact infinite_of_mem_nhds (w q) (ht q)
  · have hframe := hw' (.area o u v)
    rw [Function.update_self] at hframe
    obtain ⟨s, ⟨hs, hpos, hmem⟩, heq⟩ := hframe
    refine ⟨s, hpos.ne', heq.symm, hP hs (hsub fun q _ => ?_)⟩
    by_cases hq : q = .area o u v
    · rw [hq, ← heq]
      exact hmem
    · have hother := hw' q
      rwa [Function.update_of_ne hq] at hother

end Frame

/-- Points of the frame and free points stay where they are. -/
theorem Figure.locate_of_free {fig : Figure} {free ρ : Coordinates} (ho : Ordered fig.placed)
    (ha : fig.Apart) (h : fig.locate free = some ρ) {p : Point}
    (hp : p.label ∈ frameLabels ∨ fig.Free p) : ρ p = free p := by
  refine locateAll_of_not_mem h fun c hc => ?_
  rcases hp with hp | ⟨hnone, -⟩
  · exact ha _ hc hp
  · rw [construction?_of_mem ho hc] at hnone
    cases hnone

/-- A polynomial in the variables of the frame that vanishes near some coordinates,
in all square frames, has no terms. -/
theorem Figure.isZero_of_eventually {fig : Figure} {p : Polynomial} {free : Coordinates}
    (ho : Ordered fig.placed) (ha : fig.Apart)
    (hp : p.AllPowers fun y => Frame.Variable fig y.1 ∧ 0 < y.2)
    (h : ∀ᶠ free' in 𝓝 (Frame.place 1 free), Frame.Square free' →
      ∃ ρ, fig.locate free' = some ρ ∧ p.value (reading ρ) = some 0) : p.isZero := by
  -- the coordinates are recovered from their own areas, and those nearby from areas nearby
  let w : Quantity → ℚ := fun q => (reading (Frame.place 1 free) q).getD 0
  have hrecover : Frame.recover 1 w = Frame.place 1 free := Frame.recover_reading one_ne_zero free
  have hunit : w (.area Frame.o Frame.u Frame.v) = 1 / 2 := by
    simp only [w]
    rw [Frame.reading_area_x, (Frame.place_frame 1 free).2.2, Option.getD_some, one_mul]
  rw [← hrecover] at h
  obtain ⟨S, hS, hbox⟩ := Frame.exists_box hunit
    (P := fun s w => Frame.Square (Frame.recover s w) →
      ∃ ρ, fig.locate (Frame.recover s w) = some ρ ∧ p.value (reading ρ) = some 0)
    ((Frame.continuousAt_recover one_ne_zero).eventually h)
  refine Polynomial.isZero_of_forall_value_eq_zero (fun k hk y hy => (hp k hk y hy).2) hS
    fun w' hw' => ?_
  obtain ⟨s, hs, hframe, hnear⟩ := hbox w' hw'
  obtain ⟨ρ, hρ, hzero⟩ := hnear (Frame.square_place hs _)
  have hkept : ∀ q, q.label ∈ frameLabels ∨ fig.Free q → ρ q = Frame.recover s w' q :=
    fun _ hq => locate_of_free ho ha hρ hq
  rw [← hzero]
  refine Polynomial.value_congr fun k hk y hy => ?_
  exact (Frame.reading_variable hs hframe hkept (hp k hk y hy).1).symm

/-! ### Attempts -/

namespace Theorem

variable {thm : Theorem} {free : Coordinates} {x : ℚ}

/-- The frame can be put anywhere: the quantities of the statement stay the same. -/
theorem locate_place (hthm : thm.Proper) (s : ℚ) {ρ : Coordinates}
    (hρ : thm.figure.locate free = some ρ) :
    ∃ ρ', thm.figure.locate (Frame.place s free) = some ρ' ∧
      thm.statement.zeroExpr.All fun q => reading ρ q = reading ρ' q := by
  obtain ⟨ρ', hρ', hagree⟩ := Figure.locate_congr hthm.ordered
    (fun z hz => (Frame.place_of_apart (hthm.apart z hz) s free).symm) hρ
  refine ⟨ρ', hρ', hthm.within.mono fun q hq => reading_congr fun p hp => ?_⟩
  obtain ⟨z, hz, rfl⟩ := Figure.has_iff.mp (hq p hp)
  exact hagree z hz

theorem valueAt_place (hthm : thm.Proper) (s : ℚ) (hx : thm.valueAt free = some x) :
    thm.valueAt (Frame.place s free) = some x := by
  obtain ⟨ρ, hρ, hvalue⟩ := valueAt_eq_some.mp hx
  obtain ⟨ρ', hρ', hagree⟩ := locate_place hthm s hρ
  exact valueAt_eq_some.mpr ⟨ρ', hρ', (Expr.value_congr hagree).symm.trans hvalue⟩

variable {limits : Limits} {a : Attempt} {el : Eliminator Memory}

/-- What an attempt arrived at is right in all square frames. -/
theorem settles_of_run (hthm : thm.Proper) (hfree : thm.RatioFree)
    (hrun : thm.run limits = (.ok a, el)) (hsquare : Frame.Square free)
    (hx : thm.valueAt free = some x) :
    ∃ ρ, thm.figure.locate free = some ρ ∧
      Settles thm.figure ρ x a.numerator a.denominator := by
  obtain ⟨ρ, hρ, hvalue⟩ := valueAt_eq_some.mp hx
  exact ⟨ρ, hρ, ((yields_attempt hthm hfree hsquare hρ hvalue limits _
    (quiet_start _)).of_ok hrun).2⟩

/-- If the numerator has no terms, the statement is true. -/
theorem eq_zero_of_holds (hthm : thm.Proper) (hfree : thm.RatioFree)
    (hrun : thm.run limits = (.ok a, el)) (hholds : a.holds = true)
    (hx : thm.valueAt free = some x) : x = 0 := by
  obtain ⟨ρ, -, ⟨n, d, hn, -, -, rfl⟩, -⟩ := settles_of_run hthm hfree hrun
    (Frame.square_place one_ne_zero free) (valueAt_place hthm 1 hx)
  have hzero : n = 0 := Option.some.inj (hn.symm.trans
    (Polynomial.value_of_isZero hholds))
  rw [hzero, zero_div]

/-- If the statement is true wherever it has a value, and it has one somewhere,
the numerator has no terms. -/
theorem holds_of_forall_eq_zero (hthm : thm.Proper) (hfree : thm.RatioFree)
    (hrun : thm.run limits = (.ok a, el)) (hx : thm.valueAt free = some x)
    (htrue : ∀ free x, thm.valueAt free = some x → x = 0) : a.holds = true := by
  have hbase := valueAt_place hthm 1 hx
  obtain ⟨-, -, -, hpowers⟩ :=
    settles_of_run hthm hfree hrun (Frame.square_place one_ne_zero free) hbase
  refine Figure.isZero_of_eventually hthm.ordered hthm.apart hpowers
    ((eventually_valueAt hthm hfree hbase).mono ?_)
  rintro free' ⟨x', hx'⟩ hsquare
  obtain ⟨ρ, hρ, ⟨n, d, hn, -, hd, hnd⟩, -⟩ := settles_of_run hthm hfree hrun hsquare hx'
  rw [htrue _ _ hx'] at hnd
  have hzero : n = 0 := (div_eq_zero_iff.mp hnd.symm).resolve_right hd
  exact ⟨ρ, hρ, hzero ▸ hn⟩

end Theorem

/-- **Decision.** If a theorem without ratios has a value anywhere, the oracle is
never asked, and there is a report unless a limit on the size is hit. The
theorem is proved if its statement is true at all coordinates at which it has a
value, and disproved otherwise. -/
theorem Problem.prove_decides {p : Problem} {thm : Theorem} (hbuild : p.build = .ok thm)
    (hfree : thm.RatioFree) (hsome : ∃ free x, thm.valueAt free = some x) (settings : Settings) :
    (thm.proveWith settings (Prover.oracle settings.limits thm.figure) .blank).2.asked = [] ∧
    ((∃ r, thm.prove settings = .ok r ∧ (r.verdict = .proved ∨ r.verdict = .disproved) ∧
        (r.verdict = .proved ↔ ∀ free x, thm.valueAt free = some x → x = 0)) ∨
      (∃ size limit, thm.prove settings = .error (.tooLarge size limit)) ∨
      ∃ limit, thm.prove settings = .error (.tooManyEliminations limit)) := by
  have hthm := Problem.proper_build hbuild
  obtain ⟨free, x, hx⟩ := hsome
  obtain ⟨ρ, hρ, hvalue⟩ := Theorem.valueAt_eq_some.mp (Theorem.valueAt_place hthm 1 hx)
  have hyields : Yields (Eliminator.Quiet ρ) Fault.OnSize
      (thm.attempt settings.limits (Prover.oracle settings.limits thm.figure))
      fun a => Settles thm.figure ρ x a.numerator a.denominator :=
    Theorem.yields_attempt hthm hfree (Frame.square_place one_ne_zero free) hρ hvalue settings.limits
  have hrun := hyields _ (quiet_start .blank)
  rw [Theorem.proveWith_snd]
  change (thm.run settings.limits).2.asked = [] ∧ _
  rcases hattempt : thm.run settings.limits with ⟨f | a, el⟩
  · obtain ⟨hquiet, hsize⟩ := hrun.of_error hattempt
    have herror := Theorem.prove_eq_error.mpr ⟨el, hattempt⟩
    refine ⟨hquiet.asked, .inr ?_⟩
    cases f with
    | tooLarge size limit => exact .inl ⟨size, limit, herror⟩
    | tooManyEliminations limit => exact .inr ⟨limit, herror⟩
    | _ => exact absurd hsize id
  · obtain ⟨hquiet, -⟩ := hrun.of_ok hattempt
    refine ⟨hquiet.asked, .inl ⟨_, Theorem.prove_eq_ok.mpr ⟨a, el, hattempt, rfl⟩, ?_⟩⟩
    rw [Theorem.verdict_reportAll]
    by_cases hholds : a.holds = true
    · rw [if_pos hholds]
      exact ⟨.inl rfl, fun _ _ _ => Theorem.eq_zero_of_holds hthm hfree hattempt hholds,
        fun _ => rfl⟩
    · rw [if_neg hholds]
      refine ⟨.inr rfl, fun h => (nomatch h), fun htrue => ?_⟩
      exact absurd (Theorem.holds_of_forall_eq_zero hthm hfree hattempt hx htrue) hholds

namespace Altitude

open Letters

/-- The foot `h` of an altitude: `ab` and `ch` are perpendicular. -/
def problem : Problem :=
  ⟨"altitude", [.free "A", .free "B", .free "C", .foot "H" "C" "A" "B"],
    .perpendicular "A" "B" "C" "H"⟩

/-- The theorem of the problem. -/
def built : Theorem :=
  ⟨"altitude", ⟨[⟨h, some (.foot c a b)⟩, ⟨c, none⟩, ⟨b, none⟩, ⟨a, none⟩]⟩,
    .perpendicular a b c h⟩

theorem build_problem : problem.build = .ok built := rfl

theorem ratioFree_built : built.RatioFree := by
  refine ⟨by simp [built, Statement.zeroExpr, Quantity.RatioFree], fun p how hhow => ?_⟩
  have hmem := Figure.mem_of_construction? hhow
  simp only [built, List.mem_cons, Placed.mk.injEq, List.not_mem_nil, reduceCtorEq, and_false,
    or_false, Option.some.injEq] at hmem
  rw [hmem.2]
  trivial

theorem value_zeroExpr {free : Coordinates} {z : Vec}
    (hz : (Construction.foot c a b).locate free = some z) :
    built.statement.zeroExpr.value (reading (Function.update free h z)) = some 0 := by
  obtain ⟨h0, rfl⟩ := located_foot hz
  obtain ⟨ha, hb, hc⟩ : a ≠ h ∧ b ≠ h ∧ c ≠ h := by decide
  have hscale := div_mul_cancel₀ ((free c - free a).dot (free b - free a)) h0
  set t := (free c - free a).dot (free b - free a) / (free b - free a).dot (free b - free a)
  refine (Expr.value_sub rfl rfl).trans (congrArg some ?_)
  simp only [Function.update_self, Function.update_of_ne ha, Function.update_of_ne hb,
    Function.update_of_ne hc]
  simp only [Vec.dot, Prod.fst_sub, Prod.snd_sub, Prod.fst_add, Prod.snd_add, Prod.smul_fst,
    Prod.smul_snd, smul_eq_mul] at hscale ⊢
  linear_combination (-2) * hscale

theorem valueAt_built {free : Coordinates} {x : ℚ} :
    built.valueAt free = some x ↔ free a ≠ free b ∧ x = 0 := by
  rw [Theorem.valueAt_eq_some]
  constructor
  · rintro ⟨ρ, hρ, hx⟩
    obtain ⟨_, hfree, z, hz, rfl⟩ := Figure.locateAll_cons_eq_some.mp hρ
    cases hfree
    exact ⟨Vec.dot_sub_self_ne_zero.mp (located_foot hz).1,
      Option.some.inj (hx.symm.trans (value_zeroExpr hz))⟩
  · rintro ⟨hab, rfl⟩
    exact ⟨_, Figure.locateAll_cons_eq_some.mpr ⟨free, rfl, _, if_neg hab, rfl⟩,
      value_zeroExpr (if_neg hab)⟩

end Altitude

open Altitude Letters in
theorem Problem.prove_decides_altitude :
    problem.build = .ok built ∧ built.RatioFree ∧
    built.valueAt (fun p => if p = b then (3, 0) else if p = c then (1, 2) else (0, 0)) = some 0 ∧
    (built.proveWith .standard (Prover.oracle .standard built.figure) .blank).2.asked = [] ∧
    ((∃ r, built.prove .standard = .ok r ∧ r.verdict = .proved) ∨
      (∃ size limit, built.prove .standard = .error (.tooLarge size limit)) ∨
      ∃ limit, built.prove .standard = .error (.tooManyEliminations limit)) := by
  have hsome : built.valueAt (fun p => if p = b then (3, 0) else if p = c then (1, 2) else (0, 0)) =
      some 0 := valueAt_built.mpr ⟨by decide, rfl⟩
  have htrue : ∀ free x, built.valueAt free = some x → x = 0 :=
    fun _ _ hx => (valueAt_built.mp hx).2
  obtain ⟨hasked, houtcome⟩ :=
    Problem.prove_decides build_problem ratioFree_built ⟨_, _, hsome⟩ .standard
  refine ⟨build_problem, ratioFree_built, hsome, hasked, houtcome.imp_left ?_⟩
  rintro ⟨r, hr, -, hiff⟩
  exact ⟨r, hr, hiff.mpr htrue⟩

end AreaMethod
