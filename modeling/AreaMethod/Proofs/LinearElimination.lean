/-
# Eliminating a point from areas and Pythagoras differences

The formulas for areas and Pythagoras differences hold wherever the
construction of the point does not degenerate: what is put in place of the
quantity has its value. `S(a, b, y)` and `P(a, b, y)` are affine in `y`, and
one computation serves both.

Key definition: `Affine`.
Key theorems: `computes_linear`, `computes_middle`, `computes_area`,
`computes_pythagoras`.
-/
import Mathlib
import AreaMethod.Elimination.Linear
import AreaMethod.Proofs.Computation

namespace AreaMethod

open Eliminator

/-! ### Where a construction puts its point -/

section Located

variable {ρ : Coordinates} {u v w p q : Point} {r : Expr} {z : Vec}

theorem located_intersection (h : (Construction.intersection u v p q).locate ρ = some z) :
    (ρ v - ρ u).cross (ρ q - ρ p) ≠ 0 ∧
      z = ρ u + ((ρ p - ρ u).cross (ρ q - ρ p) / (ρ v - ρ u).cross (ρ q - ρ p)) • (ρ v - ρ u) := by
  simp only [Construction.locate] at h
  split_ifs at h with hd
  exact ⟨hd, (Option.some.inj h).symm⟩

theorem located_foot (h : (Construction.foot p u v).locate ρ = some z) :
    (ρ v - ρ u).dot (ρ v - ρ u) ≠ 0 ∧
      z = ρ u + ((ρ p - ρ u).dot (ρ v - ρ u) / (ρ v - ρ u).dot (ρ v - ρ u)) • (ρ v - ρ u) := by
  simp only [Construction.locate] at h
  split_ifs at h with hd
  exact ⟨Vec.dot_sub_self_ne_zero.mpr hd, (Option.some.inj h).symm⟩

theorem located_pratio (h : (Construction.pratio w u v r).locate ρ = some z) :
    ∃ k, r.value (reading ρ) = some k ∧ z = ρ w + k • (ρ v - ρ u) := by
  obtain ⟨k, hk, rfl⟩ := Option.map_eq_some_iff.mp h
  exact ⟨k, hk, rfl⟩

theorem located_tratio (h : (Construction.tratio u v r).locate ρ = some z) :
    ∃ k, r.value (reading ρ) = some k ∧ z = ρ u + k • (ρ v - ρ u).turn := by
  obtain ⟨k, hk, rfl⟩ := Option.map_eq_some_iff.mp h
  exact ⟨k, hk, rfl⟩

end Located

/-! ### Affine functions of a point -/

/-- The function grows along a line in proportion. -/
def Affine (L : Vec → ℚ) : Prop := ∀ (z a b : Vec) (k : ℚ), L (z + k • (b - a)) = L z + k * (L b - L a)

theorem affine_cross (a b : Vec) : Affine fun z => (b - a).cross (z - a) / 2 := by
  intro z c d k
  simp only [Vec.cross, Prod.fst_add, Prod.snd_add, Prod.fst_sub, Prod.snd_sub, Prod.smul_fst,
    Prod.smul_snd, smul_eq_mul]
  ring

theorem affine_dot (a b : Vec) : Affine fun z => 2 * (a - b).dot (z - b) := by
  intro z c d k
  simp only [Vec.dot, Prod.fst_add, Prod.snd_add, Prod.fst_sub, Prod.snd_sub, Prod.smul_fst,
    Prod.smul_snd, smul_eq_mul]
  ring

section Values

variable {σ : Type} {ρ : Coordinates} {y : Point} {how : Construction}

theorem value_area (a b c : Point) :
    (Expr.area a b c).value (reading ρ) = some ((ρ b - ρ a).cross (ρ c - ρ a) / 2) := rfl

theorem value_pythagoras (a b c : Point) :
    (Expr.pythagoras a b c).value (reading ρ) = some (2 * (ρ a - ρ b).dot (ρ c - ρ b)) := rfl

theorem value_ofNat (n : ℕ) : (OfNat.ofNat n : Expr).value (reading ρ) = some (n : ℚ) := by
  change some (((n : ℤ) : ℚ)) = _
  rw [Int.cast_natCast]

/-- The area of a quadrangle is half the cross product of its diagonals. -/
theorem value_area4 (a b c d : Point) :
    (Expr.area4 a b c d).value (reading ρ) = some ((ρ c - ρ a).cross (ρ d - ρ b) / 2) := by
  refine (Expr.value_sum (value_area a b c) (value_area a c d)).trans (congrArg some ?_)
  simp only [Vec.cross, Prod.fst_sub, Prod.snd_sub]
  ring

/-- The Pythagoras difference of a quadrangle is twice the scalar product of
its diagonals. -/
theorem value_pythagoras4 (a b c d : Point) :
    (Expr.pythagoras4 a b c d).value (reading ρ) = some (2 * (ρ a - ρ c).dot (ρ d - ρ b)) := by
  refine (Expr.value_sub (value_pythagoras a b d) (value_pythagoras c b d)).trans
    (congrArg some ?_)
  simp only [Vec.dot, Prod.fst_sub, Prod.snd_sub]
  ring

/-- **Affine functions.** The formula for a function that is affine in the
constructed point gives its value there. -/
theorem computes_linear (group : LemmaGroup) {g : Point → Expr} {L : Vec → ℚ}
    {perpendicular : Point → Point → Expr → Expr} (hL : Affine L)
    (hg : ∀ p, (g p).value (reading ρ) = some (L (ρ p)))
    (hperp : ∀ u v r k, r.value (reading ρ) = some k →
      (perpendicular u v r).value (reading ρ) = some (L (ρ u + k • (ρ v - ρ u).turn)))
    (hy : how.locate ρ = some (ρ y)) :
    Computes ρ (linear group how g perpendicular : EliminateM σ Expr) fun e =>
      e.value (reading ρ) = some (L (ρ y)) := by
  refine (computes_record group how).bind fun _ => ?_
  cases how with
  | intersection u v p q =>
    obtain ⟨hd, hz⟩ := located_intersection hy
    refine (computes_divide _ _).mono ?_
    rintro e ⟨rfl, -⟩ -
    have hden : (ρ v - ρ u).cross (ρ q - ρ p) / 2 ≠ 0 := div_ne_zero hd two_ne_zero
    refine (Expr.value_fraction (Expr.value_sub (Expr.value_product (value_area u p q) (hg v))
      (Expr.value_product (value_area v p q) (hg u))) (value_area4 u p v q) hden).trans
      (congrArg some ?_)
    rw [hz, hL, Vec.cross_sub_right (ρ p), Vec.cross_sub_shift (ρ p) (ρ q) (ρ u) (ρ v)]
    field_simp
    ring
  | foot p u v =>
    obtain ⟨hd, hz⟩ := located_foot hy
    refine (computes_divide _ _).mono ?_
    rintro e ⟨rfl, -⟩ -
    have hden : 2 * (ρ u - ρ v).dot (ρ u - ρ v) ≠ 0 := by
      rw [Vec.dot_sub_comm]
      exact mul_ne_zero two_ne_zero hd
    refine (Expr.value_fraction (Expr.value_sum (Expr.value_product (value_pythagoras p u v) (hg v))
      (Expr.value_product (value_pythagoras p v u) (hg u))) (value_pythagoras u v u) hden).trans
      (congrArg some ?_)
    rw [hz, hL, Vec.dot_sub_comm (ρ u) (ρ v), Vec.dot_sub_shift (ρ p) (ρ u) (ρ v)]
    field_simp
    ring
  | pratio w u v r =>
    obtain ⟨k, hk, hz⟩ := located_pratio hy
    refine computes_pure fun _ => ?_
    refine (Expr.value_sum (hg w) (Expr.value_product hk (Expr.value_sub (hg v) (hg u)))).trans ?_
    rw [hz, hL]
  | tratio u v r =>
    obtain ⟨k, hk, hz⟩ := located_tratio hy
    refine computes_pure fun _ => ?_
    rw [hz]
    exact hperp u v r k hk

/-! ### Areas -/

/-- **Areas.** What is put in place of an area has its value. -/
theorem computes_area {a b c : Point} (hy : how.locate ρ = some (ρ y))
    (hmem : a = y ∨ b = y ∨ c = y) :
    Computes ρ (area y how a b c : EliminateM σ Expr) fun e =>
      e.value (reading ρ) = some ((ρ b - ρ a).cross (ρ c - ρ a) / 2) := by
  -- the point comes last
  have hlast : ∀ a b : Point, Computes ρ
      (if a = y ∨ b = y then return 0
        else linear .area how (fun x => .area a b x)
          fun p q r => .area a b p - r / 4 * Expr.pythagoras4 p a q b : EliminateM σ Expr)
      fun e => e.value (reading ρ) = some ((ρ b - ρ a).cross (ρ y - ρ a) / 2) := by
    intro a b
    split_ifs with hzero
    · refine computes_pure ?_
      have : (ρ b - ρ a).cross (ρ y - ρ a) = 0 := by
        rcases hzero with rfl | rfl
        · simp [Vec.cross]
        · simp only [Vec.cross]
          ring
      rw [this, zero_div]
      rfl
    · refine computes_linear .area (affine_cross (ρ a) (ρ b)) (value_area a b) ?_ hy
      intro u v r k hk
      refine (Expr.value_sub (value_area a b u) (Expr.value_product
        (Expr.value_fraction hk (value_ofNat 4) (by norm_num)) (value_pythagoras4 u a v b))).trans
        (congrArg some ?_)
      simp only [Vec.cross, Vec.dot, Vec.turn, Prod.fst_add, Prod.snd_add, Prod.fst_sub,
        Prod.snd_sub, Prod.smul_fst, Prod.smul_snd, smul_eq_mul, Nat.cast_ofNat]
      ring
  have hturn : ∀ a b c : Point, (ρ c - ρ b).cross (ρ a - ρ b) = (ρ b - ρ a).cross (ρ c - ρ a) := by
    intro a b c
    simp only [Vec.cross, Prod.fst_sub, Prod.snd_sub]
    ring
  unfold area
  split_ifs with hc ha
  · rw [← hc]
    rw [← hc] at hlast
    exact hlast a b
  · rw [← hturn]
    rw [← ha] at hlast ⊢
    exact hlast b c
  · have hb : b = y := by tauto
    rw [← hturn, ← hturn]
    rw [← hb] at hlast ⊢
    exact hlast c a

/-! ### Pythagoras differences -/

/-- The Pythagoras difference at a point of a line, from those at two points of
the line. -/
theorem dot_between (a b u v : Vec) (t : ℚ) :
    2 * (a - (u + t • (v - u))).dot (b - (u + t • (v - u))) =
      t * (2 * (a - v).dot (b - v)) + (1 - t) * (2 * (a - u).dot (b - u)) -
        t * (1 - t) * (2 * (u - v).dot (u - v)) := by
  simp only [Vec.dot, Prod.fst_add, Prod.snd_add, Prod.fst_sub, Prod.snd_sub, Prod.smul_fst,
    Prod.smul_snd, smul_eq_mul]
  ring

theorem computes_middle (a b : Point) (hy : how.locate ρ = some (ρ y)) :
    Computes ρ (middle how a b : EliminateM σ Expr) fun e =>
      e.value (reading ρ) = some (2 * (ρ a - ρ y).dot (ρ b - ρ y)) := by
  refine (computes_record .middlePythagoras how).bind fun _ => ?_
  cases how with
  | intersection u v p q =>
    obtain ⟨hd, hz⟩ := located_intersection hy
    refine (computes_divide _ _).bind fun first => computes_pure ?_
    rintro ⟨rfl, -⟩ -
    have hden : (ρ v - ρ u).cross (ρ q - ρ p) / 2 ≠ 0 := div_ne_zero hd two_ne_zero
    refine (Expr.value_sum
      (Expr.value_fraction (Expr.value_sub
        (Expr.value_product (value_area u p q) (value_pythagoras a v b))
        (Expr.value_product (value_area v p q) (value_pythagoras a u b)))
        (value_area4 u p v q) hden)
      (Expr.value_fraction (Expr.value_product (Expr.value_product (value_area u p q)
        (value_area v p q)) (value_pythagoras u v u))
        (Expr.value_product (value_area4 u p v q) (value_area4 u p v q))
        (mul_ne_zero hden hden))).trans (congrArg some ?_)
    rw [hz, dot_between, Vec.cross_sub_right (ρ p), Vec.cross_sub_shift (ρ p) (ρ q) (ρ u) (ρ v)]
    field_simp
    ring
  | foot p u v =>
    obtain ⟨hd, hz⟩ := located_foot hy
    refine (computes_divide _ _).bind fun first => computes_pure ?_
    rintro ⟨rfl, -⟩ -
    have hden : 2 * (ρ u - ρ v).dot (ρ u - ρ v) ≠ 0 := by
      rw [Vec.dot_sub_comm]
      exact mul_ne_zero two_ne_zero hd
    refine (Expr.value_sub
      (Expr.value_fraction (Expr.value_sum
        (Expr.value_product (value_pythagoras p u v) (value_pythagoras a v b))
        (Expr.value_product (value_pythagoras p v u) (value_pythagoras a u b)))
        (value_pythagoras u v u) hden)
      (Expr.value_fraction (Expr.value_product (value_pythagoras p u v) (value_pythagoras p v u))
        (value_pythagoras u v u) hden)).trans (congrArg some ?_)
    rw [hz, dot_between, Vec.dot_sub_comm (ρ u) (ρ v), Vec.dot_sub_shift (ρ p) (ρ u) (ρ v)]
    field_simp
  | pratio w u v r =>
    obtain ⟨k, hk, hz⟩ := located_pratio hy
    refine computes_pure fun _ => ?_
    refine (Expr.value_sub (Expr.value_sum (value_pythagoras a w b) (Expr.value_product hk
      (Expr.value_sum (Expr.value_sub (value_pythagoras a v b) (value_pythagoras a u b))
        (Expr.value_product (value_ofNat 2) (value_pythagoras w u v)))))
      (Expr.value_product (Expr.value_product hk (Expr.value_sub (value_ofNat 1) hk))
        (value_pythagoras u v u))).trans (congrArg some ?_)
    rw [hz]
    simp only [Vec.dot, Prod.fst_add, Prod.snd_add, Prod.fst_sub, Prod.snd_sub, Prod.smul_fst,
      Prod.smul_snd, smul_eq_mul, Nat.cast_ofNat, Nat.cast_one]
    ring
  | tratio p q r =>
    obtain ⟨k, hk, hz⟩ := located_tratio hy
    refine computes_pure fun _ => ?_
    refine (Expr.value_sub (Expr.value_sum (value_pythagoras a p b) (Expr.value_product
      (Expr.value_product hk hk) (value_pythagoras p q p)))
      (Expr.value_product (Expr.value_product (value_ofNat 4) hk)
        (Expr.value_sum (value_area a p q) (value_area b p q)))).trans (congrArg some ?_)
    rw [hz]
    simp only [Vec.cross, Vec.dot, Vec.turn, Prod.fst_add, Prod.snd_add, Prod.fst_sub,
      Prod.snd_sub, Prod.smul_fst, Prod.smul_snd, smul_eq_mul, Nat.cast_ofNat]
    ring

/-- **Pythagoras differences.** What is put in place of a Pythagoras difference
has its value. -/
theorem computes_pythagoras {a b c : Point} (hy : how.locate ρ = some (ρ y))
    (hmem : a = y ∨ b = y ∨ c = y) :
    Computes ρ (pythagoras y how a b c : EliminateM σ Expr) fun e =>
      e.value (reading ρ) = some (2 * (ρ a - ρ b).dot (ρ c - ρ b)) := by
  have hlast : ∀ a b : Point, Computes ρ
      (linear .linearPythagoras how (fun x => .pythagoras a b x)
        fun p q r => .pythagoras a b p - 4 * r * Expr.area4 p a q b : EliminateM σ Expr)
      fun e => e.value (reading ρ) = some (2 * (ρ a - ρ b).dot (ρ y - ρ b)) := by
    intro a b
    refine computes_linear .linearPythagoras (affine_dot (ρ a) (ρ b)) (value_pythagoras a b) ?_ hy
    intro u v r k hk
    refine (Expr.value_sub (value_pythagoras a b u) (Expr.value_product
      (Expr.value_product (value_ofNat 4) hk) (value_area4 u a v b))).trans (congrArg some ?_)
    simp only [Vec.cross, Vec.dot, Vec.turn, Prod.fst_add, Prod.snd_add, Prod.fst_sub,
      Prod.snd_sub, Prod.smul_fst, Prod.smul_snd, smul_eq_mul, Nat.cast_ofNat]
    ring
  unfold pythagoras
  split_ifs with hb hac hac hc
  · refine computes_pure ?_
    have : (ρ a - ρ b).dot (ρ c - ρ b) = 0 := by
      rcases hac with rfl | rfl <;> rw [hb] <;> simp [Vec.dot]
    rw [this, mul_zero]
    rfl
  · rw [hb]
    exact computes_middle a c hy
  · obtain ⟨rfl, rfl⟩ := hac
    refine (computes_middle b b hy).mono fun e he => he.trans (congrArg some ?_)
    simp only [Vec.dot, Prod.fst_sub, Prod.snd_sub]
    ring
  · rw [hc]
    exact hlast a b
  · have ha : a = y := by tauto
    rw [ha]
    refine (hlast c b).mono fun e he => he.trans (congrArg some ?_)
    simp only [Vec.dot]
    ring

end Values
end AreaMethod
