/-
# Reduction to the frame from any record

An expression over free points is written in the frame at the end of an attempt,
with a record that elimination left behind. As for elimination, none of this record
has to be right. The reduction reads the answer about one triple per ratio and
records no condition (`consults_toFrame`, `toFrame_conditions`). So what it returns
is an identity at all coordinates at which these answers are right, for every
position and size of the frame (`Eliminator.toFrame_of_free`).

Key definitions: `Quantity.line?`, `Oracle.Declines`.
Key theorems: `consults_toFrame`, `Eliminator.toFrame_of_free`.
-/
import Mathlib
import AreaMethod.Proofs.EliminationValue

namespace AreaMethod

/-- The points whose position tells which formula is used for a ratio. -/
def Quantity.line? : Quantity → Option (Point × Point × Point)
  | .ratio a _ c d => some (a, c, d)
  | _ => none

theorem Quantity.line?_eq_some {q : Quantity} {a c d : Point} :
    q.line? = some (a, c, d) ↔ ∃ b, q = .ratio a b c d := by
  cases q <;> simp [line?]

/-- The oracle does not decide, or fails with this fault. -/
def Oracle.Declines {σ : Type} (oracle : Oracle σ) (f : Fault) : Prop :=
  (∃ s, f = .undecided s) ∨ ∃ s memory, (oracle s memory).1 = .error f

open Eliminator

section Reduction

variable {σ : Type} {oracle : Oracle σ} {fig : Figure} {e : Expr}

theorem consults_quantityInFrame {q : Quantity} (h : q.On fun p => fig.construction? p = none) :
    Consults oracle (fun a c d => q.line? = some (a, c, d)) (quantityInFrame oracle fig q) := by
  unfold quantityInFrame
  rw [find?_constructed h]
  cases q with
  | area a b c => exact .pure _
  | pythagoras a b c => exact .pure _
  | ratio a b c d =>
    refine .bind (.collinear rfl) fun answer => ?_
    cases answer with
    | true => exact .pure _
    | false => exact .pure _

/-- The reduction reads answers about the lines of its ratios. -/
theorem consults_toFrame (hfree : ∀ p ∈ e.points, fig.construction? p = none) :
    Consults oracle (fun a c d => (a, c, d) ∈ e.quantities.filterMap Quantity.line?)
      (toFrame oracle fig e) := by
  refine consults_bindQuantities (Q := (· ∈ e.quantities)) (fun q hq => ?_) e.unfold
    (Expr.all_unfold fun _ => id)
  exact (consults_quantityInFrame (Expr.all_on.mpr hfree q hq)).mono
    fun a c d hline => List.mem_filterMap.mpr ⟨q, hq, hline⟩

/-- The reduction records no condition, and fails only if the oracle does not
answer. -/
theorem leads_toFrame (hfree : ∀ p ∈ e.points, fig.construction? p = none) (el : Eliminator σ) :
    Leads (toFrame oracle fig e) el
      (fun r el' => el'.conditions = el.conditions ∧ r.All (Frame.Over (· ∈ e.points)))
      fun f el' => el'.conditions = el.conditions ∧ oracle.Declines f := by
  refine yields_toFrame (I := (·.conditions = el.conditions)) hfree (fun a b c d _ => ?_) el rfl
  refine yields_collinear (fun _ _ hsame h => hsame.trans h) ?_ (fun s => .inl ⟨s, rfl⟩) a c d
  exact fun s m f m' hf => .inr ⟨s, m, congrArg Prod.fst hf⟩

theorem toFrame_conditions (hfree : ∀ p ∈ e.points, fig.construction? p = none)
    (el : Eliminator σ) : (toFrame oracle fig e el).2.conditions = el.conditions := by
  have h : Leads (toFrame oracle fig e) el _ _ := leads_toFrame hfree el
  cases hrun : toFrame oracle fig e el with
  | mk outcome el' =>
    cases outcome with
    | error f => exact (h.of_error hrun).1
    | ok r => exact (h.of_ok hrun).1

/-- **Reduction to the frame is an identity.** Take an expression over free points,
any oracle and any record. The reduction fails only if the oracle does not answer.
What it returns is made of the areas of the points over the axes, and of the area of
the frame. Take coordinates at which the axes are orthogonal and equally long, the
expression has a value, each numerator of a ratio is a multiple of its denominator,
and the answers are right that were used: those that this run added to the record,
and those that were known before about the line of a ratio. There the result has the
same value. -/
theorem Eliminator.toFrame_of_free (hfree : ∀ p ∈ e.points, fig.construction? p = none)
    {el el' : Eliminator σ} {outcome : Except Fault Expr}
    (hrun : toFrame oracle fig e el = (outcome, el')) :
    (∀ f, outcome = .error f → oracle.Declines f) ∧
    ∀ r, outcome = .ok r →
      (∀ q ∈ r.quantities, q = .area Frame.o Frame.u Frame.v ∨
        ∃ p ∈ e.points, q = .area Frame.o Frame.u p ∨ q = .area Frame.o Frame.v p) ∧
      ∃ qs, el'.asked = el.asked ++ qs ∧
        ∀ ρ x, Frame.Square ρ → e.value (reading ρ) = some x →
          (∀ q ∈ e.quantities, q.AlignedAt ρ) → (∀ q ∈ qs, q.RightAt ρ) →
          (∀ a b c d, .ratio a b c d ∈ e.quantities → el.known.has a c d = true →
            Collinear ρ a c d) →
          r.value (reading ρ) = some x := by
  have hleads : Leads (toFrame oracle fig e) el _ _ := leads_toFrame hfree el
  have hconsults : Consults oracle _ (toFrame oracle fig e) := consults_toFrame hfree
  refine ⟨?_, ?_⟩
  · rintro f rfl
    exact (hleads.of_error hrun).2
  rintro r rfl
  refine ⟨(hleads.of_ok hrun).2, (toFrame oracle fig e el.afresh).2.asked, ?_, ?_⟩
  · have hadds := (hconsults.mono fun _ _ _ _ => trivial).adds_afresh el
    rw [hrun] at hadds
    exact hadds.asked
  intro ρ x hs hx haligned hright hknown
  have hown : TrueAt ρ (toFrame oracle fig e el.afresh).2 := by
    refine ⟨hright, ?_⟩
    rw [toFrame_conditions hfree]
    exact List.forall_mem_nil _
  -- the lines of ratios that are known
  have hts : ∀ t ∈ (e.quantities.filterMap Quantity.line?).filter
      fun t => el.known.has t.1 t.2.1 t.2.2,
      el.known.has t.1 t.2.1 t.2.2 = true ∧ Collinear ρ t.1 t.2.1 t.2.2 := by
    intro t ht
    obtain ⟨hline, hhas⟩ := List.mem_filter.mp ht
    obtain ⟨q, hq, hline⟩ := List.mem_filterMap.mp hline
    obtain ⟨b, rfl⟩ := Quantity.line?_eq_some.mp hline
    exact ⟨hhas, hknown _ b _ _ hq hhas⟩
  have hreplaces := hconsults.of_known (computes_toFrame oracle fig hs e) _ hts
    (fun a c d hline hhas => List.mem_filter.mpr ⟨hline, hhas⟩) hrun hown
  refine (hreplaces haligned).keeps x ?_
  rw [Expr.value_unfold, hx]

end Reduction

namespace Trapezium

open Letters

/-- `ab` and `cd` are to be parallel, and `e` is to lie on `ab`. Nothing below is
about the midpoint `m`. -/
def figure : Figure :=
  ⟨[⟨m, some (.midpoint a b)⟩, ⟨e, none⟩, ⟨d, none⟩, ⟨c, none⟩, ⟨b, none⟩, ⟨a, none⟩]⟩

/-- The frame is turned by a right angle, and its axes have length two. -/
def located : Coordinates := fun p =>
  if p = b then (2, 0) else if p = c then (0, 1) else if p = d then (1, 1)
  else if p = e then (4, 0) else if p = Frame.o then (5, 0) else if p = Frame.u then (5, 2)
  else if p = Frame.v then (3, 0) else (0, 0)

/-- `ab / cd + 3 / S(A, B, C) + eb / ab`, with the second summand in one term. -/
def expr : Expr :=
  .sum (.sum (.ratio a b c d) (.term ⟨3, Powers.one.timesPower (.area a b c) (-1)⟩))
    (.ratio e b a b)

/-- The line of the last ratio is known. Another triple is known that is not
collinear, and an answer in the record is wrong. -/
def earlier : Eliminator Unit :=
  ⟨(), (Triples.empty.insert a b e).insert a b c, .none, [0], [⟨.collinear a b c, .ok .holds⟩]⟩

/-- The expression in the frame. -/
def framed : Expr :=
  .sum (.sum (.fraction (Frame.area a c b) (Frame.area a c d)) (.fraction 3 (Frame.area a b c)))
    ((Frame.pythagoras b a b - Frame.pythagoras e a b) / Frame.pythagoras a b a)

/-- The record after the reduction. -/
def later : Eliminator Unit :=
  { earlier with asked := earlier.asked ++ [⟨.collinear a c d, .ok .fails⟩] }

theorem points_expr : expr.points = [a, b, c, d, e] := by decide

theorem located_points : located a = (0, 0) ∧ located b = (2, 0) ∧ located c = (0, 1) ∧
    located d = (1, 1) ∧ located e = (4, 0) := ⟨rfl, rfl, rfl, rfl, rfl⟩

theorem square_located : Frame.Square located := by
  have hframe : located Frame.o = (5, 0) ∧ located Frame.u = (5, 2) ∧ located Frame.v = (3, 0) :=
    ⟨rfl, rfl, rfl⟩
  obtain ⟨ho, hu, hv⟩ := hframe
  refine ⟨?_, ?_⟩
  · rw [ho, hu]
    decide
  · rw [ho, hu, hv]
    norm_num [Vec.turn]

theorem value_expr : expr.value (reading located) = some 4 := by
  obtain ⟨ha, hb, hc, hd, he⟩ := located_points
  have habc : reading located (.area a b c) = some 1 := by norm_num [reading, ha, hb, hc, Vec.cross]
  have hratio : reading located (.ratio a b c d) = some 2 := by
    norm_num [reading, ha, hb, hc, hd, Vec.dot]
  have hratio' : reading located (.ratio e b a b) = some (-1) := by
    norm_num [reading, ha, hb, he, Vec.dot]
  have hterm : (Expr.term ⟨3, Powers.one.timesPower (.area a b c) (-1)⟩).value (reading located) =
      some 3 :=
    Term.value_eq_some.mpr ⟨_, Powers.value_timesPower Powers.value_one habc
      (y := 1) (by norm_num [power?]), by norm_num⟩
  refine Expr.value_sum_eq_some.mpr ⟨5, -1, ?_, hratio', by norm_num⟩
  exact Expr.value_sum_eq_some.mpr ⟨2, 3, hratio, hterm, by norm_num⟩

theorem quantities_expr : expr.quantities = [.ratio a b c d, .area a b c, .ratio e b a b] := rfl

end Trapezium

open Trapezium Letters in
theorem Eliminator.toFrame_of_free_trapezium :
    (∀ p ∈ expr.points, figure.construction? p = none) ∧ Frame.Square located ∧
      expr.value (reading located) = some 4 ∧
      toFrame (Oracle.constant .fails) figure expr earlier = (.ok framed, later) ∧
      framed.value (reading located) = some 4 := by
  have hfree : ∀ p ∈ expr.points, figure.construction? p = none := by
    rw [points_expr]
    decide
  have hrun : toFrame (Oracle.constant .fails) figure expr earlier = (.ok framed, later) := rfl
  obtain ⟨ha, hb, hc, hd, he⟩ := located_points
  obtain ⟨-, qs, hasked, hvalue⟩ := (toFrame_of_free hfree hrun).2 framed rfl
  refine ⟨hfree, square_located, value_expr, hrun,
    hvalue located 4 square_located value_expr ?_ ?_ ?_⟩
  · rw [quantities_expr]
    refine List.forall_mem_cons.mpr ⟨⟨2, ?_⟩, List.forall_mem_cons.mpr ⟨trivial,
      List.forall_mem_singleton.mpr ⟨-1, ?_⟩⟩⟩
    · norm_num [ha, hb, hc, hd]
    · norm_num [ha, hb, he]
  · obtain rfl : qs = [⟨.collinear a c d, .ok .fails⟩] := (List.append_cancel_left hasked).symm
    refine List.forall_mem_singleton.mpr ?_
    change some _ ≠ some 0
    norm_num [ha, hc, hd, Vec.cross]
  · intro p q r s hmem hhas
    simp only [quantities_expr, List.mem_cons, Quantity.ratio.injEq, List.not_mem_nil, or_false,
      reduceCtorEq, false_or] at hmem
    rcases hmem with ⟨rfl, rfl, rfl, rfl⟩ | ⟨rfl, rfl, rfl, rfl⟩
    · exact absurd hhas (by decide)
    · norm_num [Collinear, ha, hb, he, Vec.cross]

end AreaMethod
