/-
# What eliminating one point does to a value

Elimination starts from whatever record is at hand: questions were asked before,
conditions were recorded, triples are known. None of this has to be right for the
elimination of one point to be right. What a run reads of the record is known
(`Consults`), so it takes the same course from a record that has only right answers
about the triples it reads, and there the values are those of `Computes`
(`Consults.of_known`).

A point that occurs in areas and Pythagoras differences only is eliminated without
a question, and the value stays (`Eliminator.eliminate_of_ratioFree`). What is put
in place of a ratio of parallel segments has the value of the ratio, if the answer
that the formula depends on is right and the denominators that this run records do
not vanish (`Eliminator.ratio_of_parallel`).

Key definitions: `Eliminator.afresh`, `Eliminator.oblivious`, `Eliminator.informed`,
`Triples.HoldFor`.
Key theorems: `Expr.value_canonical_of_holdFor`, `Consults.of_known`, `AsksOnce.of_computes`,
`Eliminator.eliminate_of_ratioFree`, `Eliminator.ratio_of_parallel`.
-/
import Mathlib
import AreaMethod.Proofs.Consultation
import AreaMethod.Proofs.RatioFree

namespace AreaMethod

/-! ### Known triples that matter

The canonical form of an expression depends on what is known about its areas, and
on nothing else that is known. -/

section Known

variable {known known' : Triples} {ρ : Coordinates}

theorem Term.canonical_congr {t : Term}
    (h : (Expr.term t).All fun q => q.canonical known = q.canonical known') :
    t.canonical known = t.canonical known' := by
  have hentry : ∀ x ∈ t.powers.entries, x.1.canonical known = x.1.canonical known' :=
    fun x hx => h x.1 (mem_quantities.mpr ⟨x, hx, rfl⟩)
  have hany : (t.powers.entries.any fun x => decide (0 < x.2) && x.1.canonical known = .zero) =
      t.powers.entries.any fun x => decide (0 < x.2) && x.1.canonical known' = .zero := by
    rw [Bool.eq_iff_iff, List.any_eq_true, List.any_eq_true]
    refine exists_congr fun x => and_congr_right fun hx => ?_
    rw [hentry x hx]
  unfold canonical canonicalBy
  rw [hany, List.foldl_ext _ _ _ fun s x hx => ?_]
  unfold timesCanonical
  rw [hentry x hx]

theorem Polynomial.canonical_congr {p : Polynomial}
    (h : (Expr.polynomial p).All fun q => q.canonical known = q.canonical known') :
    p.canonical known = p.canonical known' := by
  unfold canonical Sparse.sumMap
  rw [List.foldl_ext _ _ _ fun bins t ht => ?_]
  exact congrArg (fun s => Sparse.carry (ofTerm s) bins) (Term.canonical_congr (all_iff.mp h t ht))

theorem Expr.canonical_congr {e : Expr}
    (h : e.All fun q => q.canonical known = q.canonical known') :
    e.canonical known = e.canonical known' := by
  unfold canonical
  induction e with
  | number n => rfl
  | quantity q => exact congrArg Canonical.toExpr (all_quantity.mp h)
  | neg e ih => exact congrArg neg (ih (all_neg.mp h))
  | sum a b iha ihb => exact congrArg₂ sum (iha (all_sum.mp h).1) (ihb (all_sum.mp h).2)
  | product a b iha ihb =>
    exact congrArg₂ product (iha (all_product.mp h).1) (ihb (all_product.mp h).2)
  | fraction a b iha ihb =>
    exact congrArg₂ fraction (iha (all_fraction.mp h).1) (ihb (all_fraction.mp h).2)
  | term t => exact congrArg term (Term.canonical_congr h)
  | polynomial p => exact congrArg polynomial (Polynomial.canonical_congr h)

/-- What is known about the areas of the expression holds. -/
def Triples.HoldFor (ρ : Coordinates) (known : Triples) (e : Expr) : Prop :=
  ∀ a b c, .area a b c ∈ e.quantities → known.has a b c = true → Collinear ρ a b c

open Classical in
/-- The triples that are collinear. -/
noncomputable def Triples.right (known : Triples) (ρ : Coordinates) : Triples :=
  ⟨known.known.filter fun t => Collinear ρ t.1 t.2.1 t.2.2⟩

theorem Triples.holdAt_right (known : Triples) (ρ : Coordinates) : (known.right ρ).HoldAt ρ := by
  intro t ht
  simpa using (List.mem_filter.mp ht).2

theorem Triples.has_right {a b c : Point} :
    (known.right ρ).has a b c = true ↔ known.has a b c = true ∧ Collinear ρ a b c := by
  rw [← collinear_sortThree]
  simp [has, right]

/-- **Canonical forms keep values**, even if triples are known that are not
collinear, as long as no area of the expression is about one of them. -/
theorem Expr.value_canonical_of_holdFor {e : Expr} {x : ℚ} (hk : known.HoldFor ρ e)
    (hu : e.Unpacked) (hx : e.value (reading ρ) = some x) : (e.canonical known).value (reading ρ) = some x := by
  have hsame : e.canonical known = e.canonical (known.right ρ) := by
    refine canonical_congr fun q hq => ?_
    cases q with
    | area a b c =>
      have hhas : known.has a b c = (known.right ρ).has a b c := by
        rw [Bool.eq_iff_iff, Triples.has_right]
        exact ⟨fun h => ⟨h, hk a b c hq h⟩, And.left⟩
      simp only [Quantity.canonical, hhas]
    | pythagoras a b c => rfl
    | ratio a b c d => rfl
  rw [hsame]
  exact value_canonical (known.holdAt_right ρ) hu.fits hx

end Known

open Eliminator

/-! ### Runs from any record -/

section Records

variable {σ α : Type} {oracle : Oracle σ} {ρ : Coordinates} {el el' : Eliminator σ}

/-- The same knowledge, with nothing on record. -/
def Eliminator.afresh (el : Eliminator σ) : Eliminator σ := { el with conditions := [], asked := [] }

/-- Nothing on record and nothing known. -/
def Eliminator.oblivious (el : Eliminator σ) : Eliminator σ := { el.afresh with known := .empty }

/-- What a run adds to a record is what it adds to an empty one. -/
theorem Consults.adds_afresh {x : EliminateM σ α} (h : Consults oracle (fun _ _ _ => True) x)
    (el : Eliminator σ) : el.Adds (x el.afresh).2.asked (x el.afresh).2.conditions (x el).2 := by
  have hlike : Alike (fun _ _ _ => True) el el.afresh := ⟨rfl, fun _ _ _ _ => rfl⟩
  obtain ⟨qs, cs, hadds, hfresh⟩ := (h.sameCourse hlike).added
  have hasked : (x el.afresh).2.asked = qs := hfresh.asked
  have hconditions : ∀ e, e ∈ (x el.afresh).2.conditions ↔ e ∈ cs := by
    intro e
    rw [hfresh.conditions e]
    exact or_iff_right List.not_mem_nil
  rw [hasked]
  refine ⟨hadds.asked, fun e => ?_, hadds.quiet⟩
  rw [hadds.conditions e, hconditions e]

/-- A run from a true record that is like `el` gives what is computed. What the run
itself adds to the record is what it adds to an empty one. -/
theorem Consults.of_computes {T : Point → Point → Point → Prop} {x : EliminateM σ α} {P : α → Prop}
    (h : Consults oracle T x) (hx : Computes ρ x P) {el₀ : Eliminator σ} (hlike : Alike T el₀ el)
    (hremembers : el₀.Remembers) (htrue : TrueAt ρ el₀) {a : α} (hrun : x el = (.ok a, el'))
    (hown : TrueAt ρ (x el.afresh).2) : P a := by
  have houtcome : (x el₀).1 = .ok a := by rw [(h.sameCourse hlike).outcome, hrun]
  have hfresh : Alike T el₀ el.afresh := ⟨hlike.memory, hlike.known⟩
  obtain ⟨qs, cs, hadds₀, hadds⟩ := (h.sameCourse hfresh).added
  have hend : TrueAt ρ (x el₀).2 := by
    constructor
    · rw [hadds₀.asked]
      refine List.forall_mem_append.mpr ⟨htrue.answers, fun q hq => hown.answers q ?_⟩
      rw [hadds.asked]
      exact List.mem_append_right _ hq
    · intro e he
      rcases (hadds₀.conditions e).mp he with he | he
      · exact htrue.conditions e he
      · exact hown.conditions e ((hadds.conditions e).mpr (.inr he))
  exact ((hx el₀ hremembers).of_ok (Prod.ext houtcome rfl)).2.2 hend

/-- Nothing on record but questions about these triples, all of them affirmed. -/
def Eliminator.informed (memory : σ) (ts : List (Point × Point × Point)) : Eliminator σ :=
  { start memory with
    known := ⟨ts.map fun t => (sortThree t.1 t.2.1 t.2.2).1⟩
    asked := ts.map fun t => ⟨.collinear t.1 t.2.1 t.2.2, .ok .holds⟩ }

theorem remembers_informed (memory : σ) (ts : List (Point × Point × Point)) :
    (informed memory ts).Remembers := by
  intro t
  simp only [informed, List.mem_map, Question.mk.injEq, Statement.collinear.injEq, and_true]
  constructor
  · rintro ⟨s, hs, rfl⟩
    exact ⟨s.1, s.2.1, s.2.2, ⟨s, hs, rfl, rfl, rfl⟩, rfl⟩
  · rintro ⟨a, b, c, ⟨s, hs, rfl, rfl, rfl⟩, rfl⟩
    exact ⟨s, hs, rfl⟩

theorem rightAt_collinear {p u v : Point} (h : Collinear ρ p u v) :
    (⟨.collinear p u v, .ok .holds⟩ : Question).RightAt ρ := by
  change some ((ρ u - ρ p).cross (ρ v - ρ p) / 2) = some 0
  rw [h, zero_div]

/-- **Known triples.** Of what is known before, only the triples matter that the run
consults. -/
theorem Consults.of_known {T : Point → Point → Point → Prop} {x : EliminateM σ α} {P : α → Prop}
    (h : Consults oracle T x) (hx : Computes ρ x P) (ts : List (Point × Point × Point))
    (hts : ∀ t ∈ ts, el.known.has t.1 t.2.1 t.2.2 = true ∧ Collinear ρ t.1 t.2.1 t.2.2)
    (hknown : ∀ a b c, T a b c → el.known.has a b c = true → (a, b, c) ∈ ts) {a : α}
    (hrun : x el = (.ok a, el')) (hown : TrueAt ρ (x el.afresh).2) : P a := by
  have hlike : Alike T (informed el.oracle ts) el := by
    refine ⟨rfl, fun a b c ht => ?_⟩
    have hhas : (informed el.oracle ts).known.has a b c = true ↔
        ∃ t ∈ ts, (sortThree t.1 t.2.1 t.2.2).1 = (sortThree a b c).1 := by
      simp [informed, Triples.has]
    rw [Bool.eq_iff_iff, Triples.decidesCollinear_iff, Triples.decidesCollinear_iff, hhas]
    refine or_congr_right ⟨?_, fun hhas => ⟨(a, b, c), hknown a b c ht hhas, rfl⟩⟩
    rintro ⟨t, ht, heq⟩
    rw [Triples.has, ← heq]
    exact (hts t ht).1
  refine h.of_computes hx hlike (remembers_informed _ _) ⟨?_, List.forall_mem_nil _⟩ hrun hown
  refine List.forall_mem_map.mpr fun t ht => ?_
  exact rightAt_collinear (hts t ht).2

/-- **One question.** Of what is known before, only the answer matters that the run
would otherwise have to ask for. -/
theorem AsksOnce.of_computes {x : EliminateM σ α} {P : α → Prop} (h : AsksOnce oracle x)
    (hx : Computes ρ x P) {a : α} (hrun : x el = (.ok a, el')) (hown : TrueAt ρ (x el.afresh).2)
    (hknown : ∀ q ∈ (x el.oblivious).2.asked, ∀ p u v, q.statement = .collinear p u v →
      el.known.has p u v = true → Collinear ρ p u v) : P a := by
  rcases h with hsilent | ⟨p, u, v, hconsults, hraises⟩
  · exact hsilent.of_known hx [] (List.forall_mem_nil _) (fun _ _ _ => False.elim) hrun hown
  by_cases hhas : el.known.has p u v = true
  · have hcol : Collinear ρ p u v := by
      cases hempty : Triples.empty.decidesCollinear p u v with
      | true => exact collinear_of_decidesCollinear (Triples.holdAt_empty ρ) hempty
      | false =>
        obtain ⟨answer, hmem⟩ := hraises el.oblivious hempty
        exact hknown _ hmem p u v rfl hhas
    exact hconsults.of_known hx [(p, u, v)] (List.forall_mem_singleton.mpr ⟨hhas, hcol⟩)
      (fun a b c htriple _ => List.mem_singleton.mpr htriple) hrun hown
  · refine hconsults.of_known hx [] (List.forall_mem_nil _) ?_ hrun hown
    rintro _ _ _ ⟨⟩ h
    exact absurd h hhas

end Records

/-! ### Areas and Pythagoras differences -/

section Metric

variable {σ : Type} {oracle : Oracle σ} {ρ : Coordinates} {y : Point} {how : Construction} {e : Expr}

/-- The result of a reduction, where there is a value. -/
theorem run_reduce {el : Eliminator σ} {x : ℚ}
    (hx : (e.canonical el.known).value (reading ρ) = some x) :
    ∃ e', reduce e el = (.ok e', el) ∧ e'.value (reading ρ) = some x := by
  obtain ⟨e', he', hvalue⟩ := Expr.simplify_of_value hx
  exact ⟨e', (run_bind (b := el) rfl).trans (run_liftExcept he' el), hvalue⟩

theorem run_eliminate {fig : Figure} (hhow : fig.construction? y = some how) (el : Eliminator σ) :
    eliminate oracle fig e y el = (replace oracle y how e >>= reduce) el := by
  unfold eliminate
  rw [hhow]

end Metric

namespace MedianFoot

open Letters

/-- The midpoint `m` of `ab`, and the foot `h` of the perpendicular from `c` on `ab`. -/
def figure : Figure :=
  ⟨[⟨h, some (.foot c a b)⟩, ⟨m, some (.midpoint a b)⟩, ⟨c, none⟩, ⟨b, none⟩, ⟨a, none⟩]⟩

theorem built_figure : figure.Built :=
  ⟨[.free "A", .free "B", .free "C", .midpoint "M" "A" "B", .foot "H" "C" "A" "B"], rfl⟩

def free : Coordinates := fun p => if p = b then (4, 0) else if p = c then (1, 3) else (0, 0)

/-- The coordinates of all points. -/
def located : Coordinates := Function.update (Function.update free m (2, 0)) h (1, 0)

theorem located_points : located a = (0, 0) ∧ located b = (4, 0) ∧ located c = (1, 3) ∧
    located m = (2, 0) ∧ located h = (1, 0) := ⟨rfl, rfl, rfl, rfl, rfl⟩

theorem locate_figure : figure.locate free = some located := by
  have hfree : free a = (0, 0) ∧ free b = (4, 0) := ⟨rfl, rfl⟩
  have hm : (Construction.midpoint a b).locate free = some (2, 0) := by
    have hhalf : Expr.value (reading free) (1 / 2) = some (1 / 2) :=
      Expr.value_fraction (value_ofNat 1) (value_ofNat 2) two_ne_zero
    norm_num [Construction.midpoint, Construction.locate, hhalf, hfree]
  have hpoints : Function.update free m (2, 0) a = (0, 0) ∧
      Function.update free m (2, 0) b = (4, 0) ∧ Function.update free m (2, 0) c = (1, 3) :=
    ⟨rfl, rfl, rfl⟩
  have hh : (Construction.foot c a b).locate (Function.update free m (2, 0)) = some (1, 0) := by
    norm_num [Construction.locate, hpoints, Vec.dot]
  exact Figure.locateAll_cons_eq_some.mpr
    ⟨_, Figure.locateAll_cons_eq_some.mpr ⟨_, rfl, (2, 0), hm, rfl⟩, (1, 0), hh, rfl⟩

/-- A record that knows that `m` lies on `ab`. An answer in it is wrong, and a
condition vanishes. -/
def earlier : Eliminator Unit :=
  ⟨(), Triples.empty.insert a b m, .none, [0], [⟨.collinear a b c, .ok .holds⟩]⟩

/-- The record after `h` was eliminated from the ratio `mh / ab`. -/
def later : Eliminator Unit :=
  ⟨(), Triples.empty.insert a b m, LemmaUsage.none.record ⟨.ratio, .foot⟩, [0, .pythagoras a b a],
    [⟨.collinear a b c, .ok .holds⟩]⟩

theorem collinear_mab : Collinear located m a b := by
  obtain ⟨ha, hb, -, hm, -⟩ := located_points
  norm_num [Collinear, ha, hb, hm, Vec.cross]

/-- `3 S(A, C, H) P(A, H, B)` in one term. -/
def withFoot : Term :=
  ⟨3, (Powers.one.timesPower (.area a c h) 1).timesPower (.pythagoras a h b) 1⟩

/-- `S(A, B, C) S(B, C, A)` in one term. -/
def withoutFoot : Term :=
  ⟨1, (Powers.one.timesPower (.area a b c) 1).timesPower (.area b c a) 1⟩

/-- Packed products with `h` and without it, and a ratio without `h`. -/
def expr : Expr := .sum (.sum (.term withFoot) (.ratio m a a b)) (.term withoutFoot)

theorem value_expr : expr.value (reading located) = some (125 / 2) := by
  obtain ⟨ha, hb, hc, hm, hh⟩ := located_points
  have hach : reading located (.area a c h) = some (-3 / 2) := by
    norm_num [reading, ha, hc, hh, Vec.cross]
  have hahb : reading located (.pythagoras a h b) = some (-6) := by
    norm_num [reading, ha, hb, hh, Vec.dot]
  have hratio : reading located (.ratio m a a b) = some (-1 / 2) := by
    norm_num [reading, ha, hb, hm, Vec.dot]
  have habc : reading located (.area a b c) = some 6 := by
    norm_num [reading, ha, hb, hc, Vec.cross]
  have hbca : reading located (.area b c a) = some 6 := by
    norm_num [reading, ha, hb, hc, Vec.cross]
  have hone : ∀ {x : ℚ}, power? x 1 = some x := by simp [power?]
  have hwith : withFoot.value (reading located) = some 27 :=
    Term.value_eq_some.mpr ⟨_, Powers.value_timesPower (Powers.value_timesPower Powers.value_one hach
      hone) hahb hone, by norm_num [withFoot]⟩
  have hwithout : withoutFoot.value (reading located) = some 36 :=
    Term.value_eq_some.mpr ⟨_, Powers.value_timesPower (Powers.value_timesPower Powers.value_one habc
      hone) hbca hone, by norm_num [withoutFoot]⟩
  have hsum : Expr.value (reading located) (.sum (.term withFoot) (.ratio m a a b)) =
      some (53 / 2) := Expr.value_sum_eq_some.mpr ⟨27, -1 / 2, hwith, hratio, by norm_num⟩
  exact Expr.value_sum_eq_some.mpr ⟨53 / 2, 36, hsum, hwithout, by norm_num⟩

end MedianFoot

namespace Packed

open Letters

/-- The midpoint `m` of `ab`. -/
def figure : Figure := ⟨[⟨m, some (.midpoint a b)⟩, ⟨c, none⟩, ⟨b, none⟩, ⟨a, none⟩]⟩

theorem built_figure : figure.Built :=
  ⟨[.free "A", .free "B", .free "C", .midpoint "M" "A" "B"], rfl⟩

theorem locate_figure : figure.locate origin = some origin := by
  have hm : (Construction.midpoint a b).locate origin = some (origin m) := by
    have hhalf : Expr.value (reading origin) (1 / 2) = some (1 / 2) :=
      Expr.value_fraction (value_ofNat 1) (value_ofNat 2) two_ne_zero
    simp [Construction.midpoint, Construction.locate, hhalf, origin]
  exact Figure.locateAll_cons_eq_some.mpr
    ⟨origin, rfl, origin m, hm, (Function.update_eq_self m origin).symm⟩

end Packed

section Ratios

variable {σ : Type} {oracle : Oracle σ} {ρ : Coordinates} {y : Point} {how : Construction}

theorem AsksOnce.consults {α : Type} {x : EliminateM σ α} (h : AsksOnce oracle x) :
    Consults oracle (fun _ _ _ => True) x := by
  rcases h with h | ⟨p, u, v, h, -⟩
  · exact h.consults
  · exact h.mono fun _ _ _ _ => trivial

theorem run_replace_ratio {a b c d : Point} (hy : (Quantity.ratio a b c d).mentions y = true)
    (el : Eliminator σ) :
    replace oracle y how (.ratio a b c d) el = ratio oracle y how a b c d el := by
  change (if (Quantity.ratio a b c d).mentions y = true then ratio oracle y how a b c d
    else return .ratio a b c d) el = _
  rw [if_pos hy]

/-- **Ratio elimination is correct.** Take a constructed point, a ratio that mentions
it in any place, and coordinates at which no construction degenerates and the
segments of the ratio are parallel, `b - a = k (d - c)`. Let its elimination from
some record succeed, with any oracle. What it adds to the record is what it puts on
an empty one. If the answers of the oracle in there are right and none of the
conditions in there vanishes, and if the triple that would have to be asked for is
collinear in case it is known, the result has the value `k`. Canonical quantities and
simplification keep this, if what is known about areas of the result holds. -/
theorem Eliminator.ratio_of_parallel {fig : Figure} (hfig : fig.Built)
    (hhow : fig.construction? y = some how) {a b c d : Point}
    (hy : (Quantity.ratio a b c d).mentions y = true) {free : Coordinates}
    (hρ : fig.locate free = some ρ) {k : ℚ} (hk : Parallel ρ a b c d k) {el el' : Eliminator σ}
    {e : Expr} (hrun : ratio oracle y how a b c d el = (.ok e, el'))
    (hown : TrueAt ρ (ratio oracle y how a b c d el.afresh).2)
    (hknown : ∀ q ∈ (ratio oracle y how a b c d el.oblivious).2.asked, ∀ p u v,
      q.statement = .collinear p u v → el.known.has p u v = true → Collinear ρ p u v) :
    el.Adds (ratio oracle y how a b c d el.afresh).2.asked
      (ratio oracle y how a b c d el.afresh).2.conditions el' ∧
    e.value (reading ρ) = some k ∧
    (el'.known.HoldFor ρ e → ∃ e', eliminate oracle fig (.ratio a b c d) y el = (.ok e', el') ∧
      e'.value (reading ρ) = some k) := by
  have hlocate := Figure.locate_construction hfig.ordered_apart.1 hρ hhow
  have hu := hfig.unpacked.of_construction? hhow
  have honce : AsksOnce oracle (ratio oracle y how a b c d) := asksOnce_ratio a b c d
  have hvalue : e.value (reading ρ) = some k := by
    have hkeeps := honce.of_computes (computes_ratio oracle hu hlocate hy) hrun hown hknown
    exact hkeeps (fun _ => ⟨k, hk⟩) k hk.reading_ratio
  refine ⟨?_, hvalue, fun hfor => ?_⟩
  · have hadds := honce.consults.adds_afresh el
    rw [hrun] at hadds
    exact hadds
  · have hratio : Yields (fun _ => True) (fun _ => True) (ratio oracle y how a b c d) Expr.Unpacked :=
      yields_ratio (spansRatios_of_leaves Expr.leafwise_unpacked fun _ => trivial)
        oracle.failsWithin_true hu (fun _ => trivial) (fun _ => trivial) (fun _ => trivial)
        fun _ => trivial
    have hunpacked : e.Unpacked := ((hratio el trivial).of_ok hrun).2
    obtain ⟨e', hreduce, hvalue'⟩ :=
      run_reduce (Expr.value_canonical_of_holdFor hfor hunpacked hvalue)
    refine ⟨e', ?_, hvalue'⟩
    rw [run_eliminate hhow]
    exact (run_bind ((run_replace_ratio hy el).trans hrun)).trans hreduce

end Ratios

open MedianFoot Letters in
theorem Eliminator.ratio_of_parallel_medianFoot :
    figure.Built ∧ figure.locate free = some located ∧ Parallel located m h a b (-1 / 4) ∧
      ratio (Oracle.constant .fails) h (.foot c a b) m h a b earlier =
        (.ok (.fraction (.pythagoras4 c a m b) (.pythagoras a b a)), later) ∧
      (Expr.fraction (.pythagoras4 c a m b) (.pythagoras a b a)).value (reading located) =
        some (-1 / 4) ∧
      ∃ e', eliminate (Oracle.constant .fails) figure (.ratio m h a b) h earlier = (.ok e', later) ∧
        e'.value (reading located) = some (-1 / 4) := by
  obtain ⟨ha, hb, -, hm, hh⟩ := located_points
  have hpar : Parallel located m h a b (-1 / 4) := by
    refine ⟨by rw [ha, hb]; decide, by norm_num, ?_⟩
    rw [ha, hb, hm, hh]
    norm_num
  have hrun : ratio (Oracle.constant .fails) h (.foot c a b) m h a b earlier =
      (.ok (.fraction (.pythagoras4 c a m b) (.pythagoras a b a)), later) := rfl
  have hown : TrueAt located
      (ratio (Oracle.constant .fails) h (.foot c a b) m h a b earlier.afresh).2 := by
    have hvalue : Expr.value (reading located) (.pythagoras a b a) = some 32 := by
      change reading located (.pythagoras a b a) = _
      norm_num [reading, ha, hb, Vec.dot]
    exact ⟨List.forall_mem_nil _, List.forall_mem_singleton.mpr ⟨32, hvalue, by norm_num⟩⟩
  have hknown : ∀ q ∈ (ratio (Oracle.constant .fails) h (.foot c a b) m h a b
      earlier.oblivious).2.asked, ∀ p u v, q.statement = .collinear p u v →
        earlier.known.has p u v = true → Collinear located p u v := by
    refine List.forall_mem_singleton.mpr ?_
    rintro _ _ _ ⟨⟩ -
    exact collinear_mab
  obtain ⟨-, hvalue, heliminate⟩ := ratio_of_parallel built_figure rfl rfl locate_figure hpar hrun
    hown hknown
  refine ⟨built_figure, locate_figure, hpar, hrun, hvalue, heliminate ?_⟩
  have hquantities : (Expr.fraction (.pythagoras4 c a m b) (.pythagoras a b a)).quantities =
      [.pythagoras c a b, .pythagoras m a b, .pythagoras a b a] := rfl
  intro p q r hmem
  simp [hquantities] at hmem

end AreaMethod
