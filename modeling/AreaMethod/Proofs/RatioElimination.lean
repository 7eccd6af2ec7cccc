/-
# Eliminating a point from ratios

At coordinates where two segments are parallel, `y - a = k (d - c)`, what is
put in place of the ratio `ay / cd` has the value `k`, provided that the
oracle was right and the recorded denominators do not vanish
(`computes_ratio`). Most formulas read off `k` from areas over a line through
`y`; whether the other end of the numerator lies on that line matters for the
foot of a perpendicular only, and otherwise decides which denominator must not
vanish.

Key definitions: `Parallel`, `Quantity.ParallelAt`.
Key theorems: `computes_plainRatio`, `computes_sharedRatio`, `computes_ratio`,
`computes_eliminate`.
-/
import Mathlib
import AreaMethod.Elimination
import AreaMethod.Proofs.LinearElimination
import AreaMethod.Proofs.Simplification
import AreaMethod.Proofs.Yields

namespace AreaMethod

open Eliminator

/-- The segment `ab` is `k` times the segment `cd`, and neither is a single
point. -/
structure Parallel (ρ : Coordinates) (a b c d : Point) (k : ℚ) : Prop where
  line : ρ c ≠ ρ d
  factor : k ≠ 0
  eq : ρ b - ρ a = k • (ρ d - ρ c)

section Ratios

variable {σ : Type} {ρ : Coordinates} {a b c d : Point} {k : ℚ}

theorem Parallel.reading_ratio (h : Parallel ρ a b c d k) :
    reading ρ (.ratio a b c d) = some k := by
  rw [reading, if_neg h.line, h.eq, Vec.smul_dot, mul_div_assoc,
    div_self (Vec.dot_sub_self_ne_zero.mpr h.line), mul_one]

/-- Turning the numerator. -/
theorem Parallel.swap_left (h : Parallel ρ a b c d k) : Parallel ρ b a c d (-k) where
  line := h.line
  factor := neg_ne_zero.mpr h.factor
  eq := by rw [← neg_sub, h.eq, neg_smul]

/-- Turning the denominator. -/
theorem Parallel.swap_right (h : Parallel ρ a b c d k) : Parallel ρ a b d c (-k) where
  line := h.line.symm
  factor := neg_ne_zero.mpr h.factor
  eq := by rw [h.eq, ← neg_sub (ρ c), smul_neg, neg_smul]

/-- The inverse ratio. -/
theorem Parallel.inv (h : Parallel ρ a b c d k) : Parallel ρ c d a b k⁻¹ where
  line := by
    have hba : ρ b - ρ a ≠ 0 := by
      rw [h.eq]
      exact smul_ne_zero h.factor (sub_ne_zero.mpr h.line.symm)
    exact (sub_ne_zero.mp hba).symm
  factor := inv_ne_zero h.factor
  eq := by rw [h.eq, smul_smul, inv_mul_cancel₀ h.factor, one_smul]

/-! ### Quotients -/

/-- A quotient of two values that are in the ratio `k`. -/
theorem computes_quotient (n d : Expr) :
    Computes ρ (divide n d : EliminateM σ Expr) fun e => d.Unpacked → ∀ {x y k : ℚ},
      n.value (reading ρ) = some x → d.value (reading ρ) = some y → x = k * y →
        e.value (reading ρ) = some k := by
  refine (computes_divide n d).mono ?_
  rintro e ⟨rfl, z, hz, hz0⟩ hu x y k hn hd rfl
  have hy : y = z := Option.some.inj
    ((Expr.value_canonical (Triples.holdAt_empty ρ) hu.fits hd).symm.trans hz)
  subst hy
  rw [Expr.value_fraction hn hd hz0, mul_div_cancel_right₀ k hz0]

/-- A ratio whose representative has a value has a proper denominator, unless
its numerator is a single point. -/
theorem ne_of_value_canonical_ratio {known : Triples} {u v : Point} {x : ℚ}
    (h : ((Quantity.ratio c d u v).canonical known).toExpr.value (reading ρ) = some x)
    (hcd : ρ c ≠ ρ d) : ρ u ≠ ρ v := by
  intro huv
  have hzero : ρ (sortTwo u v).1.2 - ρ (sortTwo u v).1.1 = 0 := by
    rw [sub_sortTwo, huv, sub_self, smul_zero]
  simp only [Quantity.canonical] at h
  split_ifs at h with heq hunit
  · exact hcd (by rw [heq])
  · rw [← hunit.1, ← hunit.2, sub_sortTwo, smul_eq_zero, sub_eq_zero] at hzero
    rcases hzero with hsign | hdc
    · exact left_ne_zero_of_mul_eq_one (sign_mul_self _) hsign
    · exact hcd hdc.symm
  · have hnone := reading_of_value_signed h
    rw [reading, if_pos (sub_eq_zero.mp hzero).symm] at hnone
    cases hnone

/-! ### Lines through the point -/

variable {y : Point} {how : Construction}

theorem on_lines_of_intersection {u v p q : Point}
    (hy : (Construction.intersection u v p q).locate ρ = some (ρ y)) :
    (ρ y - ρ u).cross (ρ v - ρ u) = 0 ∧ (ρ y - ρ p).cross (ρ q - ρ p) = 0 := by
  obtain ⟨hd, hz⟩ := located_intersection hy
  constructor
  · rw [hz, add_sub_cancel_left, Vec.smul_cross]
    simp only [Vec.cross]
    ring
  · have hsplit : (ρ y - ρ p).cross (ρ q - ρ p) =
        (ρ y - ρ u).cross (ρ q - ρ p) - (ρ p - ρ u).cross (ρ q - ρ p) := by
      simp only [Vec.cross, Prod.fst_sub, Prod.snd_sub]
      ring
    rw [hsplit, hz, add_sub_cancel_left, Vec.smul_cross, div_mul_cancel₀ _ hd, sub_self]

theorem on_lines_of_foot {p u v : Point}
    (hy : (Construction.foot p u v).locate ρ = some (ρ y)) :
    (ρ y - ρ u).cross (ρ v - ρ u) = 0 ∧ (ρ p - ρ y).dot (ρ v - ρ u) = 0 := by
  obtain ⟨hd, hz⟩ := located_foot hy
  constructor
  · rw [hz, add_sub_cancel_left, Vec.smul_cross]
    simp only [Vec.cross]
    ring
  · have hsplit : (ρ p - ρ y).dot (ρ v - ρ u) =
        (ρ p - ρ u).dot (ρ v - ρ u) - (ρ y - ρ u).dot (ρ v - ρ u) := by
      simp only [Vec.dot, Prod.fst_sub, Prod.snd_sub]
      ring
    rw [hsplit, hz, add_sub_cancel_left, Vec.smul_dot, div_mul_cancel₀ _ hd, sub_self]

theorem cross_pratio {w u v : Point} {r : Expr}
    (hy : (Construction.pratio w u v r).locate ρ = some (ρ y)) (a : Vec) :
    (ρ w - a).cross (ρ v - ρ u) = (ρ y - a).cross (ρ v - ρ u) := by
  obtain ⟨k, -, hz⟩ := located_pratio hy
  rw [hz]
  simp only [Vec.cross, Prod.fst_add, Prod.snd_add, Prod.fst_sub, Prod.snd_sub, Prod.smul_fst,
    Prod.smul_snd, smul_eq_mul]
  ring

theorem value_ratio_add {w u v : Point} {r : Expr}
    (hy : (Construction.pratio w u v r).locate ρ = some (ρ y)) (huv : ρ u ≠ ρ v) (a : Point) :
    (Expr.ratio a w u v + r).value (reading ρ) =
      some ((ρ y - ρ a).dot (ρ v - ρ u) / (ρ v - ρ u).dot (ρ v - ρ u)) := by
  obtain ⟨k, hk, hz⟩ := located_pratio hy
  have hratio : (Expr.ratio a w u v).value (reading ρ) =
      some ((ρ w - ρ a).dot (ρ v - ρ u) / (ρ v - ρ u).dot (ρ v - ρ u)) := if_neg huv
  have hd : (ρ v - ρ u).dot (ρ v - ρ u) ≠ 0 := Vec.dot_sub_self_ne_zero.mpr huv
  have hsplit : (ρ y - ρ a).dot (ρ v - ρ u) =
      (ρ w - ρ a).dot (ρ v - ρ u) + k * (ρ v - ρ u).dot (ρ v - ρ u) := by
    rw [hz]
    simp only [Vec.dot, Prod.fst_add, Prod.snd_add, Prod.fst_sub, Prod.snd_sub, Prod.smul_fst,
      Prod.smul_snd, smul_eq_mul]
    ring
  refine (Expr.value_sum hratio hk).trans (congrArg some ?_)
  rw [hsplit, add_div, mul_div_cancel_right₀ k hd]

theorem value_shiftedArea {p q : Point} {r : Expr}
    (hy : (Construction.tratio p q r).locate ρ = some (ρ y)) (a : Point) :
    (shiftedArea a p q r).value (reading ρ) = some ((ρ y - ρ a).cross (ρ q - ρ p) / 2) := by
  obtain ⟨k, hk, hz⟩ := located_tratio hy
  refine (Expr.value_sub (value_area a p q) (Expr.value_product
    (Expr.value_fraction hk (value_ofNat 4) (by norm_num)) (value_pythagoras p q p))).trans
    (congrArg some ?_)
  rw [hz]
  simp only [Vec.cross, Vec.dot, Vec.turn, Prod.fst_add, Prod.snd_add, Prod.fst_sub,
    Prod.snd_sub, Prod.smul_fst, Prod.smul_snd, smul_eq_mul, Nat.cast_ofNat]
  ring

theorem computes_areas (hy : how.locate ρ = some (ρ y)) (e : Expr) :
    Computes ρ (areas y how e : EliminateM σ Expr) fun e' => Keeps ρ e e' := by
  refine (computes_bindQuantities (Q := fun _ => True) (fun q => ?_) e).mono
    fun e' he => (he fun _ _ => trivial).keeps
  cases q with
  | area a b c =>
    simp only
    split_ifs with hm
    · have hmem : a = y ∨ b = y ∨ c = y := by
        simpa [Quantity.points, eq_comm] using Quantity.mentions_iff.mp hm
      refine (computes_area hy hmem).mono fun e he _ x hx => ?_
      rw [he, ← hx]
      rfl
    · exact computes_pure fun _ => .refl ρ _
  | pythagoras a b c => exact computes_pure fun _ => .refl ρ _
  | ratio a b c d => exact computes_pure fun _ => .refl ρ _

/-! ### The formulas -/

/-- What the oracle is asked about decides between two formulas. -/
theorem computes_branch {oracle : Oracle σ} {x x' : EliminateM σ Expr} {P : Expr → Prop}
    {u v w : Point} (h : Computes ρ x fun e => Collinear ρ u v w → P e) (h' : Computes ρ x' P) :
    Computes ρ (do if ← collinear oracle u v w then x else x') P := by
  refine (computes_collinear oracle u v w).bind fun answer => ?_
  cases answer with
  | true => exact h.mono fun e he hcol => he (hcol.mp rfl)
  | false => exact h'.mono fun e he _ => he

/-- Two areas over one line, from the ends of parallel segments. -/
theorem half_cross_eq {z w z' p : Vec} {k : ℚ} (h : z = k • z') : z.cross (w - p) / 2 =
    k * (z'.cross (w - p) / 2) := by
  rw [h, Vec.smul_cross, mul_div_assoc]

theorem computes_plainRatio (oracle : Oracle σ) (a c d : Point) (hy : how.locate ρ = some (ρ y)) :
    Computes ρ (plainRatio oracle y how a c d) fun e => ∀ k, Parallel ρ a y c d k →
      e.value (reading ρ) = some k := by
  refine (computes_record .ratio how).bind fun _ => ?_
  cases how with
  | intersection u v p q =>
    obtain ⟨huv, hpq⟩ := on_lines_of_intersection hy
    refine computes_branch ?_ ?_
    · refine (computes_quotient _ _).mono fun e he _ _ k hk => ?_
      refine he ⟨trivial, trivial⟩ (value_area a p q) (value_area4 c p d q) ?_
      rw [Vec.cross_of_on_line hpq]
      exact half_cross_eq hk.eq
    · refine (computes_quotient _ _).mono fun e he _ k hk => ?_
      refine he ⟨trivial, trivial⟩ (value_area a u v) (value_area4 c u d v) ?_
      rw [Vec.cross_of_on_line huv]
      exact half_cross_eq hk.eq
  | foot p u v =>
    obtain ⟨huv, hp⟩ := on_lines_of_foot hy
    refine computes_branch ?_ ?_
    · refine (computes_quotient _ _).mono fun e he hcol _ k hk => ?_
      refine he trivial (value_pythagoras4 p c a d) (value_pythagoras c d c) ?_
      -- the numerator lies on the line, so the perpendicular is orthogonal to `cd`
      have hline : (ρ y - ρ a).cross (ρ v - ρ u) = 0 := by
        rw [← Vec.cross_of_on_line huv]
        exact hcol
      have hya : (ρ p - ρ y).dot (ρ y - ρ a) = 0 :=
        Vec.dot_eq_zero_of_parallel (located_foot hy).1 hline hp
      have hcd : (ρ p - ρ y).dot (ρ d - ρ c) = 0 := by
        rw [hk.eq, Vec.dot_smul] at hya
        exact (mul_eq_zero.mp hya).resolve_left hk.factor
      have hsplit : (ρ p - ρ a).dot (ρ d - ρ c) =
          (ρ p - ρ y).dot (ρ d - ρ c) + (ρ y - ρ a).dot (ρ d - ρ c) := by
        simp only [Vec.dot, Prod.fst_sub, Prod.snd_sub]
        ring
      rw [hsplit, hcd, zero_add, hk.eq, Vec.smul_dot, Vec.dot_sub_comm (ρ c)]
      ring
    · refine (computes_quotient _ _).mono fun e he _ k hk => ?_
      refine he ⟨trivial, trivial⟩ (value_area a u v) (value_area4 c u d v) ?_
      rw [Vec.cross_of_on_line huv]
      exact half_cross_eq hk.eq
  | pratio w u v r =>
    refine computes_branch ?_ ?_
    · refine (computes_divide _ _).mono ?_
      rintro e ⟨rfl, x, hx, hx0⟩ - - k hk
      have huv : ρ u ≠ ρ v := ne_of_value_canonical_ratio hx hk.line
      have hden : (Expr.ratio c d u v).value (reading ρ) =
          some ((ρ d - ρ c).dot (ρ v - ρ u) / (ρ v - ρ u).dot (ρ v - ρ u)) := if_neg huv
      have hne : (ρ d - ρ c).dot (ρ v - ρ u) / (ρ v - ρ u).dot (ρ v - ρ u) ≠ 0 := by
        have hfits : (Expr.ratio c d u v).Fits .empty := trivial
        have := (Expr.value_canonical (Triples.holdAt_empty ρ) hfits hden).symm.trans hx
        rw [Option.some.inj this]
        exact hx0
      rw [Expr.value_fraction (value_ratio_add hy huv a) hden hne, hk.eq, Vec.smul_dot,
        mul_div_assoc, mul_div_cancel_right₀ k hne]
    · refine (computes_quotient _ _).mono fun e he _ k hk => ?_
      refine he ⟨trivial, trivial⟩ (value_area4 a u w v) (value_area4 c u d v) ?_
      rw [cross_pratio hy]
      exact half_cross_eq hk.eq
  | tratio p q r =>
    refine computes_branch ?_ ?_
    · refine (computes_quotient _ _).mono fun e he _ _ k hk => ?_
      refine he ⟨trivial, trivial⟩ (value_shiftedArea hy a) (value_area4 c p d q) ?_
      exact half_cross_eq hk.eq
    · refine (computes_quotient _ _).bind fun e => ?_
      refine (computes_areas hy e).mono fun e' he' he _ k hk => he' k ?_
      refine he ⟨trivial, trivial⟩ (value_area a p y) (value_area4 c p d y) ?_
      rw [Vec.cross_of_on_line (z := ρ y) (by simp only [Vec.cross]; ring)]
      exact half_cross_eq hk.eq

theorem computes_sharedRatio (oracle : Oracle σ) (a c : Point) (hu : how.Unpacked)
    (hy : how.locate ρ = some (ρ y)) :
    Computes ρ (sharedRatio oracle y how a c) fun e => ∀ k, Parallel ρ a y c y k →
      e.value (reading ρ) = some k := by
  unfold sharedRatio
  split_ifs with hac
  · refine computes_pure fun k hk => ?_
    have hone : k = 1 := by
      have hself : (1 : ℚ) • (ρ y - ρ c) = k • (ρ y - ρ c) := by rw [one_smul, ← hk.eq, hac]
      exact (smul_left_injective ℚ (sub_ne_zero.mpr hk.line.symm) hself).symm
    rw [hone]
    exact value_ofNat 1
  refine (computes_record .ratio how).bind fun _ => ?_
  cases how with
  | intersection u v p q =>
    obtain ⟨huv, hpq⟩ := on_lines_of_intersection hy
    refine computes_branch ?_ ?_
    · refine (computes_quotient _ _).mono fun e he _ _ k hk => ?_
      refine he trivial (value_area a p q) (value_area c p q) ?_
      rw [Vec.cross_of_on_line hpq, Vec.cross_of_on_line hpq]
      exact half_cross_eq hk.eq
    · refine (computes_quotient _ _).mono fun e he _ k hk => ?_
      refine he trivial (value_area a u v) (value_area c u v) ?_
      rw [Vec.cross_of_on_line huv, Vec.cross_of_on_line huv]
      exact half_cross_eq hk.eq
  | foot p u v =>
    obtain ⟨huv, hp⟩ := on_lines_of_foot hy
    refine computes_branch ?_ ?_
    · refine (computes_quotient _ _).mono fun e he _ _ k hk => ?_
      refine he ⟨trivial, trivial⟩ (value_pythagoras4 a u p v) (value_pythagoras4 c u p v) ?_
      have hsplit : ∀ z : Vec, (z - ρ p).dot (ρ v - ρ u) =
          -(ρ y - z).dot (ρ v - ρ u) - (ρ p - ρ y).dot (ρ v - ρ u) := by
        intro z
        simp only [Vec.dot, Prod.fst_sub, Prod.snd_sub]
        ring
      rw [hsplit, hsplit, hp, hk.eq, Vec.smul_dot]
      ring
    · refine (computes_quotient _ _).mono fun e he _ k hk => ?_
      refine he trivial (value_area a u v) (value_area c u v) ?_
      rw [Vec.cross_of_on_line huv, Vec.cross_of_on_line huv]
      exact half_cross_eq hk.eq
  | pratio w u v r =>
    refine computes_branch ?_ ?_
    · refine (computes_divide _ _).mono ?_
      rintro e ⟨rfl, x, hx, hx0⟩ - - k hk
      have huv : ρ u ≠ ρ v := by
        by_cases hcw : ρ c = ρ w
        · -- otherwise the point would not differ from `w`
          intro huv
          obtain ⟨s, -, hz⟩ := located_pratio hy
          rw [huv, sub_self, smul_zero, add_zero] at hz
          exact hk.line (hcw.trans hz.symm)
        · obtain ⟨x₁, x₂, hx₁, -, -⟩ := Expr.value_sum_eq_some.mp hx
          exact ne_of_value_canonical_ratio hx₁ hcw
      have hden := value_ratio_add hy huv c
      have hne : (ρ y - ρ c).dot (ρ v - ρ u) / (ρ v - ρ u).dot (ρ v - ρ u) ≠ 0 := by
        have hfits : (Expr.ratio c w u v + r).Fits .empty := ⟨trivial, hu.2.2.2.fits⟩
        have := (Expr.value_canonical (Triples.holdAt_empty ρ) hfits hden).symm.trans hx
        rw [Option.some.inj this]
        exact hx0
      rw [Expr.value_fraction (value_ratio_add hy huv a) hden hne, hk.eq, Vec.smul_dot,
        mul_div_assoc, mul_div_cancel_right₀ k hne]
    · refine (computes_quotient _ _).mono fun e he _ k hk => ?_
      refine he ⟨trivial, trivial⟩ (value_area4 a u w v) (value_area4 c u w v) ?_
      rw [cross_pratio hy, cross_pratio hy]
      exact half_cross_eq hk.eq
  | tratio p q r =>
    refine computes_branch ?_ ?_
    · refine (computes_quotient _ _).mono fun e he _ _ k hk => ?_
      refine he ⟨trivial, ⟨hu.2.2, trivial⟩, trivial⟩ (value_shiftedArea hy a) (value_shiftedArea hy c) ?_
      exact half_cross_eq hk.eq
    · refine (computes_quotient _ _).bind fun e => ?_
      refine (computes_areas hy e).mono fun e' he' he _ k hk => he' k ?_
      refine he trivial (value_area a p y) (value_area c p y) ?_
      have hself : (ρ y - ρ p).cross (ρ y - ρ p) = 0 := by simp only [Vec.cross]; ring
      rw [Vec.cross_of_on_line hself, Vec.cross_of_on_line hself]
      exact half_cross_eq hk.eq

/-! ### Positions of the point -/

theorem computes_ratioFrom (oracle : Oracle σ) (a c d : Point) (hu : how.Unpacked)
    (hy : how.locate ρ = some (ρ y)) :
    Computes ρ (ratioFrom oracle y how a c d) fun e => ∀ k, Parallel ρ a y c d k →
      e.value (reading ρ) = some k := by
  unfold ratioFrom
  split_ifs with hc hd
  · refine (computes_sharedRatio oracle a d hu hy).bind fun e => computes_pure fun he k hk => ?_
    rw [hc] at hk
    exact Expr.value_neg_eq_some.mpr ⟨-k, he (-k) hk.swap_right, neg_neg k⟩
  · refine (computes_sharedRatio oracle a c hu hy).mono fun e he k hk => ?_
    rw [hd] at hk
    exact he k hk
  · exact computes_plainRatio oracle a c d hy

theorem computes_ratioAbove (oracle : Oracle σ) {a b : Point} (c d : Point) (hu : how.Unpacked)
    (hy : how.locate ρ = some (ρ y)) (hmem : a = y ∨ b = y) :
    Computes ρ (ratioAbove oracle y how a b c d) fun e => ∀ k, Parallel ρ a b c d k →
      e.value (reading ρ) = some k := by
  unfold ratioAbove
  split_ifs with ha
  · refine (computes_ratioFrom oracle b c d hu hy).bind fun e => computes_pure fun he k hk => ?_
    rw [ha] at hk
    exact Expr.value_neg_eq_some.mpr ⟨-k, he (-k) hk.swap_left, neg_neg k⟩
  · rw [hmem.resolve_left ha]
    exact computes_ratioFrom oracle a c d hu hy

/-- The two segments of a ratio are parallel, unless its numerator is a single
point. -/
def Quantity.ParallelAt (ρ : Coordinates) : Quantity → Prop
  | .ratio a b c d => a ≠ b → ∃ k, Parallel ρ a b c d k
  | _ => True

/-- **Ratios.** What is put in place of a ratio of parallel segments has its
value. -/
theorem computes_ratio (oracle : Oracle σ) {a b c d : Point} (hu : how.Unpacked)
    (hy : how.locate ρ = some (ρ y)) (hmem : (Quantity.ratio a b c d).mentions y) :
    Computes ρ (ratio oracle y how a b c d) fun e =>
      (Quantity.ratio a b c d).ParallelAt ρ → Keeps ρ (.ratio a b c d) e := by
  unfold ratio
  split_ifs with hab hcd habove
  · refine computes_pure fun _ x hx => ?_
    have hx : reading ρ (.ratio a b c d) = some x := hx
    rw [reading, hab] at hx
    split_ifs at hx
    obtain rfl : (0 : ℚ) = x := by simpa [Vec.dot] using hx
    exact value_ofNat 0
  · exact computes_throw _ _
  · refine (computes_ratioAbove oracle c d hu hy habove).mono fun e he hpar x hx => ?_
    obtain ⟨k, hk⟩ := hpar hab
    rw [he k hk, ← hx]
    exact hk.reading_ratio.symm
  · have hbelow : c = y ∨ d = y := by
      have hpoints := Quantity.mentions_iff.mp hmem
      simp only [Quantity.points, List.mem_cons, List.not_mem_nil, or_false] at hpoints
      tauto
    refine (computes_ratioAbove oracle a b hu hy hbelow).bind fun e => ?_
    refine (computes_divide _ _).mono ?_
    rintro e' ⟨rfl, -⟩ he hpar x hx
    obtain ⟨k, hk⟩ := hpar hab
    have hx : some k = some x := hk.reading_ratio.symm.trans hx
    rw [Expr.value_fraction (value_ofNat 1) (he k⁻¹ hk.inv) hk.inv.factor, ← hx, Nat.cast_one,
      one_div, inv_inv]

end Ratios

/-! ### Elimination -/

section Elimination

variable {σ : Type} {ρ : Coordinates} {y : Point} {how : Construction}

theorem computes_quantity (oracle : Oracle σ) {q : Quantity} (hu : how.Unpacked)
    (hy : how.locate ρ = some (ρ y)) (hmem : q.mentions y) :
    Computes ρ (quantity oracle y how q) fun e => q.ParallelAt ρ → Keeps ρ (.quantity q) e := by
  cases q with
  | area a b c =>
    have hpoints : a = y ∨ b = y ∨ c = y := by
      simpa [Quantity.points, eq_comm] using Quantity.mentions_iff.mp hmem
    refine (computes_area hy hpoints).mono fun e he _ x hx => ?_
    rw [he, ← hx]
    rfl
  | pythagoras a b c =>
    have hpoints : a = y ∨ b = y ∨ c = y := by
      simpa [Quantity.points, eq_comm] using Quantity.mentions_iff.mp hmem
    refine (computes_pythagoras hy hpoints).mono fun e he _ x hx => ?_
    rw [he, ← hx]
    rfl
  | ratio a b c d => exact computes_ratio oracle hu hy hmem

theorem computes_replace (oracle : Oracle σ) (e : Expr) (hu : how.Unpacked)
    (hy : how.locate ρ = some (ρ y)) :
    Computes ρ (replace oracle y how e) fun e' =>
      (e.All fun q => q.mentions y = true → q.ParallelAt ρ) → Replaces ρ (e.expose y) e' := by
  refine (computes_bindQuantities (Q := fun q => q.mentions y = true → q.ParallelAt ρ) (fun q => ?_)
    (e.expose y)).mono fun e' he hpar => he (Expr.all_expose y hpar)
  split_ifs with hmem
  · exact (computes_quantity oracle hu hy hmem).mono fun e he hpar => he (hpar hmem)
  · exact computes_pure fun _ => .refl ρ _

/-- The canonical form with what is known keeps values, and so does its
simplification. -/
theorem computes_reduce (e : Expr) :
    Computes ρ (reduce e : EliminateM σ Expr) fun e' => e.Unpacked → Keeps ρ e e' := by
  intro el hr
  refine leads_bind.mpr (leads_get.mpr (leads_liftExcept.mpr ⟨fun e' he' => ?_, fun _ _ => trivial⟩))
  exact ⟨Extends.refl el, hr, fun ht hu x hx =>
    Expr.value_of_simplify he' (Expr.value_canonical (ht.holdAt hr) hu.fits hx)⟩

theorem Expr.Unpacked.canonical {e : Expr} (h : e.Unpacked) (known : Triples) :
    (e.canonical known).Unpacked := by
  refine leafwise_unpacked.holds_mapLeaves leafwise_unpacked (fun q _ => ?_) (fun _ ht => ht.elim)
    (fun _ hp => hp.elim) h
  cases q.canonical known with
  | zero => trivial
  | unit odd => cases odd <;> trivial
  | signed q' odd => cases odd <;> trivial

theorem yields_reduce_unpacked {e : Expr} (he : e.Unpacked) :
    Yields (fun _ => True) (fun _ => True) (reduce e : EliminateM σ Expr) Expr.Unpacked :=
  yields_get fun el _ => yields_liftExcept
    (fun _ he' => Expr.leafwise_unpacked.holds_simplify he' (he.canonical el.known)) fun _ _ => trivial

theorem yields_replace_unpacked (oracle : Oracle σ) (hu : how.Unpacked) {e : Expr}
    (he : e.Unpacked) :
    Yields (fun _ => True) (fun _ => True) (replace oracle y how e) Expr.Unpacked :=
  yields_replace_of_over Expr.leafwise_unpacked (fun _ => trivial) hu
    (Expr.leafwise_unpacked.holds_expose (fun _ => trivial) he)

/-- No packed nodes appear. -/
theorem yields_eliminate_unpacked (oracle : Oracle σ) {fig : Figure} (hu : fig.Unpacked) {e : Expr}
    (he : e.Unpacked) (y : Point) :
    Yields (fun _ => True) (fun _ => True) (eliminate oracle fig e y) Expr.Unpacked := by
  unfold eliminate
  split
  · exact yields_throw trivial
  next how hhow =>
    exact (yields_replace_unpacked oracle (hu.of_construction? hhow) he).bind
      fun _ => yields_reduce_unpacked

/-- **Elimination keeps values.** -/
theorem computes_eliminate (oracle : Oracle σ) {fig : Figure} {free : Coordinates}
    (ho : Figure.Ordered fig.placed) (hu : fig.Unpacked) (hρ : fig.locate free = some ρ) {e : Expr}
    (he : e.Unpacked) (y : Point) :
    Computes ρ (eliminate oracle fig e y) fun e' =>
      e.All (Quantity.ParallelAt ρ) → Keeps ρ e e' := by
  unfold eliminate
  split
  · exact computes_throw _ _
  next how hhow =>
    have hy := Figure.locate_construction ho hρ hhow
    have hunpacked := hu.of_construction? hhow
    have hreplace := (computes_replace oracle e hunpacked hy).and_yields
      (yields_replace_unpacked oracle hunpacked he)
    refine hreplace.bind fun e' => ?_
    refine (computes_reduce e').mono fun e'' h ⟨hreplaces, he'⟩ hpar x hx => h he' x ?_
    refine (hreplaces (hpar.mono fun _ hq _ => hq)).keeps x ?_
    rw [Expr.value_expose]
    exact hx

end Elimination
end AreaMethod
