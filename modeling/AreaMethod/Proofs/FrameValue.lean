/-
# Values in the reference frame

Written in the frame, an expression over free points is made of the areas of its
points over the axes, and of the area of the frame (`yields_toFrame`).

The formulas that express quantities of free points by these areas hold in every
frame whose axes are orthogonal and equally long. So an expression keeps its
value (`computes_toFrame`), if the answers of the oracle are right and each
numerator of a ratio is a multiple of the denominator.

Key definitions: `Frame.Over`, `Quantity.AlignedAt`.
Key theorems: `yields_toFrame`, `Frame.value_area`, `Frame.value_pythagoras`,
`computes_toFrame`.
-/
import Mathlib
import AreaMethod.Proofs.RatioElimination
import AreaMethod.Proofs.Yields

namespace AreaMethod

open Eliminator

/-! ### Areas over the axes -/

namespace Frame

variable {K K' : Point → Prop}

/-- The area of the frame, or the area of a point with the property `K` over an axis. -/
def Over (K : Point → Prop) (q : Quantity) : Prop :=
  q = .area o u v ∨ ∃ p : Point, K p ∧ (q = .area o u p ∨ q = .area o v p)

theorem Over.mono {q : Quantity} (h : Over K q) (hK : ∀ p, K p → K' p) : Over K' q := by
  rcases h with rfl | ⟨p, hp, hq⟩
  · exact .inl rfl
  · exact .inr ⟨p, hK p hp, hq⟩

theorem over_unit : Over K (.area o u v) := .inl rfl

theorem over_x {p : Point} (h : K p) : Over K (.area o u p) := .inr ⟨p, h, .inl rfl⟩

theorem over_y {p : Point} (h : K p) : Over K (.area o v p) := .inr ⟨p, h, .inr rfl⟩

theorem all_over_area {a b c : Point} (ha : K a) (hb : K b) (hc : K c) :
    (area a b c).All (Over K) := by
  simp [area, dx, dy, x, y, unit, over_x, over_y, over_unit, *]

theorem all_over_pythagoras {a b c : Point} (ha : K a) (hb : K b) (hc : K c) :
    (pythagoras a b c).All (Over K) := by
  simp [pythagoras, dx, dy, x, y, unit, over_x, over_y, over_unit, *]

end Frame

section Areas

variable {σ : Type} {I : Eliminator σ → Prop} {E : Fault → Prop} {oracle : Oracle σ} {fig : Figure}
  {K : Point → Prop}

theorem find?_constructed {q : Quantity} (h : q.On fun p => fig.construction? p = none) :
    (q.points.find? fun p => (fig.construction? p).isSome) = none :=
  List.find?_eq_none.mpr fun p hp => by simp [h p hp]

theorem yields_quantityInFrame {q : Quantity} (hfree : q.On fun p => fig.construction? p = none)
    (hq : q.On K)
    (hasks : ∀ a b c d, q = .ratio a b c d → Yields I E (collinear oracle a c d) fun _ => True) :
    Yields I E (quantityInFrame oracle fig q) (·.All (Frame.Over K)) := by
  unfold quantityInFrame
  rw [find?_constructed hfree]
  cases q with
  | area a b c =>
    obtain ⟨ha, hb, hc⟩ := Quantity.on_area.mp hq
    exact yields_pure (Frame.all_over_area ha hb hc)
  | pythagoras a b c =>
    obtain ⟨ha, hb, hc⟩ := Quantity.on_pythagoras.mp hq
    exact yields_pure (Frame.all_over_pythagoras ha hb hc)
  | ratio a b c d =>
    obtain ⟨ha, hb, hc, hd⟩ := Quantity.on_ratio.mp hq
    refine (hasks a b c d rfl).bind fun answer _ => ?_
    cases answer with
    | true =>
      refine yields_pure (Expr.all_div.mpr ⟨Expr.all_sub.mpr ⟨?_, ?_⟩, ?_⟩)
      · exact Frame.all_over_pythagoras hb hc hd
      · exact Frame.all_over_pythagoras ha hc hd
      · exact Frame.all_over_pythagoras hc hd hc
    | false =>
      exact yields_pure (Expr.all_div.mpr
        ⟨Frame.all_over_area ha hc hb, Frame.all_over_area ha hc hd⟩)

/-- **Writing an expression in the frame** leaves areas of its points over the axes.
Only questions about ratios are asked. -/
theorem yields_toFrame {e : Expr} (hfree : ∀ p ∈ e.points, fig.construction? p = none)
    (hasks : ∀ a b c d, .ratio a b c d ∈ e.quantities →
      Yields I E (collinear oracle a c d) fun _ => True) :
    Yields I E (toFrame oracle fig e) (·.All (Frame.Over (· ∈ e.points))) := by
  refine yields_bindQuantities ((Expr.leafwise_all (· ∈ e.quantities)).and Expr.leafwise_unpacked)
    (Expr.leafwise_all _) (fun q hq => ?_) (fun _ h => h.2.elim) (fun _ h => h.2.elim)
    ⟨Expr.all_unfold fun _ => id, e.unpacked_unfold⟩
  have hq : q ∈ e.quantities := Expr.all_quantity.mp hq.1
  refine yields_quantityInFrame (Expr.all_on.mpr hfree q hq) (Expr.all_on.mpr (fun _ => id) q hq) ?_
  rintro a b c d rfl
  exact hasks a b c d hq

theorem Frame.unpacked_area (a b c : Point) : (Frame.area a b c).Unpacked := by
  repeat' constructor

theorem Frame.unpacked_pythagoras (a b c : Point) : (Frame.pythagoras a b c).Unpacked := by
  repeat' constructor

theorem yields_toFrame_unpacked (oracle : Oracle σ) (fig : Figure) (e : Expr) :
    Yields (fun _ => True) (fun _ => True) (toFrame oracle fig e) Expr.Unpacked := by
  refine yields_bindQuantities Expr.leafwise_unpacked Expr.leafwise_unpacked (fun q _ => ?_)
    (fun _ => id) (fun _ => id) e.unpacked_unfold
  unfold quantityInFrame
  cases q.points.find? fun p => (fig.construction? p).isSome with
  | some p => exact yields_throw trivial
  | none =>
    cases q with
    | area a b c => exact yields_pure (Frame.unpacked_area a b c)
    | pythagoras a b c => exact yields_pure (Frame.unpacked_pythagoras a b c)
    | ratio a b c d =>
      refine (yields_true (collinear oracle a c d)).bind fun answer _ => ?_
      cases answer with
      | true =>
        exact yields_pure ⟨⟨Frame.unpacked_pythagoras b c d, Frame.unpacked_pythagoras a c d⟩,
          Frame.unpacked_pythagoras c d c⟩
      | false => exact yields_pure ⟨Frame.unpacked_area a c b, Frame.unpacked_area a c d⟩

end Areas

/-! ### Values -/

namespace Frame

variable {ρ : Coordinates}

theorem value_dx (a b : Point) :
    (dx a b).value (reading ρ) = some ((ρ u - ρ o).cross (ρ a - ρ b) / 2) := by
  refine (Expr.value_sub (AreaMethod.value_area o u a) (AreaMethod.value_area o u b)).trans
    (congrArg some ?_)
  simp only [Vec.cross, Prod.fst_sub, Prod.snd_sub]
  ring

theorem value_dy (hs : Square ρ) (a b : Point) :
    (dy a b).value (reading ρ) = some (-(ρ u - ρ o).dot (ρ a - ρ b) / 2) := by
  refine (Expr.value_sub (AreaMethod.value_area o v a) (AreaMethod.value_area o v b)).trans
    (congrArg some ?_)
  rw [hs.2]
  simp only [Vec.cross, Vec.dot, Vec.turn, Prod.fst_sub, Prod.snd_sub]
  ring

theorem value_unit (hs : Square ρ) :
    unit.value (reading ρ) = some ((ρ u - ρ o).dot (ρ u - ρ o) / 2) := by
  refine (AreaMethod.value_area o u v).trans (congrArg some ?_)
  rw [hs.2]
  simp only [Vec.cross, Vec.dot, Vec.turn]
  ring

theorem unit_ne_zero (hs : Square ρ) : (ρ u - ρ o).dot (ρ u - ρ o) / 2 ≠ 0 :=
  div_ne_zero (Vec.dot_sub_self_ne_zero.mpr hs.1.symm) two_ne_zero

/-- **Areas in the frame.** -/
theorem value_area (hs : Square ρ) (a b c : Point) :
    (area a b c).value (reading ρ) = some ((ρ b - ρ a).cross (ρ c - ρ a) / 2) := by
  refine (Expr.value_fraction (Expr.value_sub
    (Expr.value_product (value_dy hs c a) (value_dx b a))
    (Expr.value_product (value_dy hs b a) (value_dx c a))) (value_unit hs)
    (unit_ne_zero hs)).trans (congrArg some ?_)
  rw [div_eq_iff (unit_ne_zero hs)]
  simp only [Vec.cross, Vec.dot]
  ring

/-- **Pythagoras differences in the frame.** -/
theorem value_pythagoras (hs : Square ρ) (a b c : Point) :
    (pythagoras a b c).value (reading ρ) = some (2 * (ρ a - ρ b).dot (ρ c - ρ b)) := by
  refine (Expr.value_fraction (Expr.value_product (value_ofNat 4) (Expr.value_sum
    (Expr.value_product (value_dy hs a b) (value_dy hs c b))
    (Expr.value_product (value_dx a b) (value_dx c b)))) (value_unit hs)
    (unit_ne_zero hs)).trans (congrArg some ?_)
  rw [div_eq_iff (unit_ne_zero hs)]
  simp only [Vec.cross, Vec.dot, Nat.cast_ofNat]
  ring

end Frame

/-- The numerator of a ratio is a multiple of its denominator, as a vector. -/
def Quantity.AlignedAt (ρ : Coordinates) : Quantity → Prop
  | .ratio a b c d => ∃ k : ℚ, ρ b - ρ a = k • (ρ d - ρ c)
  | _ => True

theorem Quantity.ParallelAt.alignedAt {ρ : Coordinates} {q : Quantity} (h : q.ParallelAt ρ) :
    q.AlignedAt ρ := by
  cases q with
  | area a b c => trivial
  | pythagoras a b c => trivial
  | ratio a b c d =>
    by_cases hab : a = b
    · exact ⟨0, by rw [hab, sub_self, zero_smul]⟩
    · obtain ⟨k, hk⟩ := h hab
      exact ⟨k, hk.eq⟩

section ToFrame

variable {σ : Type} {ρ : Coordinates}

theorem computes_quantityInFrame (oracle : Oracle σ) (fig : Figure) (hs : Frame.Square ρ)
    (q : Quantity) :
    Computes ρ (quantityInFrame oracle fig q) fun e =>
      q.AlignedAt ρ → Keeps ρ (.quantity q) e := by
  unfold quantityInFrame
  split
  · exact computes_throw _ _
  · cases q with
    | area a b c =>
      refine computes_pure fun _ x hx => ?_
      rw [Frame.value_area hs, ← hx]
      rfl
    | pythagoras a b c =>
      refine computes_pure fun _ x hx => ?_
      rw [Frame.value_pythagoras hs, ← hx]
      rfl
    | ratio a b c d =>
      refine (computes_collinear oracle a c d).bind fun answer => ?_
      have hvalue : ∀ x, (Expr.quantity (.ratio a b c d)).value (reading ρ) = some x →
          ρ c ≠ ρ d ∧ x = (ρ b - ρ a).dot (ρ d - ρ c) / (ρ d - ρ c).dot (ρ d - ρ c) := by
        intro x hx
        have hx : reading ρ (.ratio a b c d) = some x := hx
        rw [reading] at hx
        split_ifs at hx with hcd
        exact ⟨hcd, (Option.some.inj hx).symm⟩
      cases answer with
      | true =>
        refine computes_pure fun _ _ x hx => ?_
        obtain ⟨hcd, rfl⟩ := hvalue x hx
        have hd : (ρ c - ρ d).dot (ρ c - ρ d) ≠ 0 := Vec.dot_sub_self_ne_zero.mpr hcd.symm
        refine (Expr.value_fraction (Expr.value_sub (Frame.value_pythagoras hs b c d)
          (Frame.value_pythagoras hs a c d)) (Frame.value_pythagoras hs c d c)
          (mul_ne_zero two_ne_zero hd)).trans (congrArg some ?_)
        have hsplit : 2 * (ρ b - ρ c).dot (ρ d - ρ c) - 2 * (ρ a - ρ c).dot (ρ d - ρ c) =
            2 * (ρ b - ρ a).dot (ρ d - ρ c) := by
          simp only [Vec.dot, Prod.fst_sub, Prod.snd_sub]
          ring
        rw [hsplit, Vec.dot_sub_comm (ρ c), mul_div_mul_left _ _ two_ne_zero]
      | false =>
        refine computes_pure fun hcol haligned x hx => ?_
        obtain ⟨k, hk⟩ := haligned
        have hden : (ρ c - ρ a).cross (ρ d - ρ a) / 2 ≠ 0 :=
          div_ne_zero (fun h => Bool.false_ne_true (hcol.mpr h)) two_ne_zero
        obtain ⟨hcd, rfl⟩ := hvalue x hx
        refine (Expr.value_fraction (Frame.value_area hs a c b) (Frame.value_area hs a c d)
          hden).trans (congrArg some ?_)
        rw [hk, Vec.smul_dot, mul_div_assoc, div_self (Vec.dot_sub_self_ne_zero.mpr hcd), mul_one,
          div_eq_iff hden]
        simp only [Vec.cross, Prod.fst_sub, Prod.snd_sub, Prod.smul_fst, Prod.smul_snd,
          smul_eq_mul]
        ring

/-- **Writing an expression in the frame** keeps its value, as it replaces its
quantities. -/
theorem computes_toFrame (oracle : Oracle σ) (fig : Figure) (hs : Frame.Square ρ) (e : Expr) :
    Computes ρ (toFrame oracle fig e) fun e' =>
      e.All (Quantity.AlignedAt ρ) → Replaces ρ e.unfold e' :=
  (computes_bindQuantities (computes_quantityInFrame oracle fig hs) e.unfold).mono
    fun _ he haligned => he (Expr.all_unfold haligned)

end ToFrame
end AreaMethod
