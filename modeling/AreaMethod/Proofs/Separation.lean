/-
# Telling quantities apart

Two quantities with the same value at all coordinates have the same
representative, so the canonical form finds every identity between two areas or
Pythagoras differences. For this, different representatives must be told apart
by some coordinates.

Each representative has a value other than zero somewhere, and loses it if any of
its points is moved to the right place (`Quantity.exists_reading_ne_zero`). So
representatives of equal value have the same points
(`Quantity.Equals.mem_points`). For areas, whose points are in ascending order,
this is all. A Pythagoras difference is also told by its middle point: if all
points but one lie together it vanishes, unless that one is the middle point or
both ends (`Quantity.middle_of_apart`); and areas vanish then.

Key definitions: `triangle`, `apart`, `Quantity.Equals`, `Canonical.withSign`,
`Canonical.Proper`.
Key theorems: `Quantity.Equals.eq`, `Canonical.eq_of_value_eq`,
`Quantity.canonical_eq_withSign_iff`, `Expr.canonical_separates`.
-/
import Mathlib
import AreaMethod.Proofs.CanonicalForm
import AreaMethod.Proofs.RatioFree
import AreaMethod.Proofs.Signs

namespace AreaMethod

/-! ### Placements -/

/-- `a` at the origin, `b` on the first axis and all other points at one place of
the second. -/
def triangle (a b : Point) : Coordinates := fun p =>
  if p = a then 0 else if p = b then (1, 0) else (0, 1)

/-- `b` at the origin and all other points at one place of the first axis. -/
def apart (b : Point) : Coordinates := fun p => if p = b then 0 else (1, 0)

section Placements

variable {ρ : Coordinates} {a b c p r : Point}

theorem update_onto (h : p ≠ r) :
    Function.update ρ p (ρ r) p = Function.update ρ p (ρ r) r := by
  rw [Function.update_self, Function.update_of_ne h.symm]

theorem apart_of_ne (h : p ≠ b) : apart b p = (1, 0) := if_neg h

theorem snd_apart (b p : Point) : (apart b p).2 = 0 := by
  unfold apart
  split_ifs <;> rfl

theorem reading_area_triangle (hab : a ≠ b) (hbc : b ≠ c) (hac : a ≠ c) :
    reading (triangle a b) (.area a b c) = some (1 / 2) := by
  simp [reading, triangle, Vec.cross, hab.symm, hbc.symm, hac.symm]

theorem reading_area_eq_zero (h : ρ a = ρ b ∨ ρ b = ρ c ∨ ρ c = ρ a) :
    reading ρ (.area a b c) = some 0 := by
  have hcross : (ρ b - ρ a).cross (ρ c - ρ a) = 0 := by
    rcases h with h | h | h
    · simp [h, Vec.cross]
    · rw [h, Vec.cross]
      ring
    · simp [h, Vec.cross]
  rw [reading, hcross, zero_div]

theorem reading_area_apart (p a b c : Point) : reading (apart p) (.area a b c) = some 0 := by
  simp [reading, Vec.cross, snd_apart]

theorem reading_pythagoras_apart (hab : a ≠ b) (hbc : b ≠ c) :
    reading (apart b) (.pythagoras a b c) = some 2 := by
  simp [reading, apart, Vec.dot, hab, hbc.symm]

theorem reading_pythagoras_eq_zero (h : ρ a = ρ b ∨ ρ c = ρ b) :
    reading ρ (.pythagoras a b c) = some 0 := by
  rcases h with h | h <;> simp [reading, h, Vec.dot]

end Placements

/-! ### Representatives -/

theorem sign_ne_zero (odd : Bool) : sign odd ≠ 0 := by cases odd <;> norm_num [sign]

namespace Quantity

variable {q q' : Quantity} {known known' : Triples} {odd : Bool} {ρ : Coordinates} {x : ℚ}

/-- A representative has a value other than zero somewhere, and becomes zero if any
of its points is moved to the right place. -/
theorem exists_reading_ne_zero (h : q.Represents known) (hq : q.RatioFree) :
    ∃ ρ x, reading ρ q = some x ∧ x ≠ 0 ∧
      ∀ p ∈ q.points, ∃ z, reading (Function.update ρ p z) q = some 0 := by
  cases q with
  | area a b c =>
    obtain ⟨hab, hbc, -⟩ := h
    have hac := Point.ne_of_before (Point.before_trans hab hbc)
    replace hab := Point.ne_of_before hab
    replace hbc := Point.ne_of_before hbc
    refine ⟨triangle a b, 1 / 2, reading_area_triangle hab hbc hac, by norm_num, fun p hp => ?_⟩
    simp only [points, List.mem_cons, List.not_mem_nil, or_false] at hp
    rcases hp with rfl | rfl | rfl
    · exact ⟨_, reading_area_eq_zero (.inl (update_onto hab))⟩
    · exact ⟨_, reading_area_eq_zero (.inr (.inl (update_onto hbc)))⟩
    · exact ⟨_, reading_area_eq_zero (.inr (.inr (update_onto hac.symm)))⟩
  | pythagoras a b c =>
    obtain ⟨hab, hbc, -⟩ := h
    refine ⟨apart b, 2, reading_pythagoras_apart hab hbc, two_ne_zero, fun p hp => ?_⟩
    simp only [points, List.mem_cons, List.not_mem_nil, or_false] at hp
    rcases hp with rfl | rfl | rfl
    · exact ⟨_, reading_pythagoras_eq_zero (.inl (update_onto hab))⟩
    · exact ⟨_, reading_pythagoras_eq_zero (.inl (update_onto hab.symm).symm)⟩
    · exact ⟨_, reading_pythagoras_eq_zero (.inr (update_onto hbc.symm))⟩
  | ratio a b c d => exact hq.elim

/-- At all coordinates, `q` has the value of `q'`, or minus this value if `odd`. -/
def Equals (odd : Bool) (q q' : Quantity) : Prop :=
  ∀ ρ, reading ρ q = (reading ρ q').map fun x => sign odd * x

theorem Equals.symm (h : Equals odd q q') : Equals odd q' q := by
  intro ρ
  rw [h ρ, Option.map_map]
  simp [Function.comp_def, sign_mul_cancel]

theorem Equals.reading_ne_zero (h : Equals odd q q') (hx : reading ρ q = some x) (h0 : x ≠ 0) :
    reading ρ q' ≠ some 0 := by
  intro hzero
  rw [h ρ, hzero, Option.map_some, mul_zero] at hx
  exact h0 (Option.some.inj hx).symm

/-- A point that occurs in one of two equal quantities only could be moved. -/
theorem Equals.mem_points (h : Equals odd q q') (hrep : q.Represents known) (hq : q.RatioFree)
    {p : Point} (hp : p ∈ q.points) : p ∈ q'.points := by
  obtain ⟨ρ, x, hx, h0, hmove⟩ := exists_reading_ne_zero hrep hq
  obtain ⟨z, hz⟩ := hmove p hp
  by_contra hp'
  have hsame : reading (Function.update ρ p z) q' = reading ρ q' := by
    refine reading_congr fun r hr => Function.update_of_ne ?_ _ _
    exact fun heq => hp' (heq ▸ hr)
  refine h0 (Option.some.inj ?_)
  calc some x
    _ = (reading ρ q').map fun x => sign odd * x := by rw [← hx, h ρ]
    _ = some 0 := by rw [← hsame, ← h, hz]

/-- If all points but `p` lie together, a Pythagoras difference with a value other
than zero has `p` in the middle, or at both ends. -/
theorem middle_of_apart {a b c p : Point} (h : reading (apart p) (.pythagoras a b c) ≠ some 0) :
    b = p ∨ a = p ∧ c = p := by
  by_cases hb : b = p
  · exact .inl hb
  · refine .inr ⟨?_, ?_⟩
    · by_contra ha
      exact h (reading_pythagoras_eq_zero (.inl ((apart_of_ne ha).trans (apart_of_ne hb).symm)))
    · by_contra hc
      exact h (reading_pythagoras_eq_zero (.inr ((apart_of_ne hc).trans (apart_of_ne hb).symm)))

theorem Equals.middle {a b c a' b' c' : Point}
    (h : Equals odd (pythagoras a b c) (pythagoras a' b' c'))
    (hrep : (pythagoras a b c).Represents known) (hrep' : (pythagoras a' b' c').Represents known') :
    b = b' := by
  have hmiddle := middle_of_apart
    (h.reading_ne_zero (reading_pythagoras_apart hrep.1 hrep.2.1) two_ne_zero)
  have hmiddle' := middle_of_apart
    (h.symm.reading_ne_zero (reading_pythagoras_apart hrep'.1 hrep'.2.1) two_ne_zero)
  rcases hmiddle with hb | ⟨ha', hc'⟩
  · exact hb.symm
  · rcases hmiddle' with hb | ⟨ha, hc⟩
    · exact hb
    · -- two squares of one length, each with its first point before the second
      have hlt := hrep.2.2.2 (ha.trans hc.symm)
      have hlt' := hrep'.2.2.2 (ha'.trans hc'.symm)
      rw [ha] at hlt
      rw [ha'] at hlt'
      exact absurd hlt (Point.not_before_of_before hlt')

theorem eq_of_middle {a b c a' c' : Point} (hrep : (pythagoras a b c).Represents known)
    (hrep' : (pythagoras a' b c').Represents known')
    (h : ∀ p, p ∈ (pythagoras a b c).points ↔ p ∈ (pythagoras a' b c').points) :
    a = a' ∧ c = c' := by
  obtain ⟨hab, hbc, hac, -⟩ := hrep
  obtain ⟨hab', hbc', hac', -⟩ := hrep'
  have hends : ∀ p, p ≠ b → (p = a ∨ p = c ↔ p = a' ∨ p = c') := by
    intro p hp
    simpa [points, hp] using h p
  have ha := (hends a hab).mp (.inl rfl)
  have hc := (hends c hbc.symm).mp (.inr rfl)
  by_cases heq : a = c
  · have ha' := (hends a' hab').mpr (.inl rfl)
    have hc' := (hends c' hbc'.symm).mpr (.inr rfl)
    rw [← heq, or_self] at ha' hc'
    exact ⟨ha'.symm, heq.symm.trans hc'.symm⟩
  · rcases ha with ha | ha
    · exact ⟨ha, hc.resolve_left fun hc => heq (ha.trans hc.symm)⟩
    · -- crosswise, the order of the ends would be wrong in one of the two
      have hc := hc.resolve_right fun hc => heq (ha.trans hc.symm)
      rw [← ha, ← hc] at hac'
      exact absurd (Point.before_of_ne heq hac) hac'

theorem pairwise_points {a b c : Point} (h : (area a b c).Represents known) :
    (area a b c).points.Pairwise fun p r => p.before r := by
  obtain ⟨hab, hbc, -⟩ := h
  simp [points, hab, hbc, Point.before_trans hab hbc]

/-- **Representatives are told apart.** If one has the value of the other up to a
sign, they are the same, and so is the sign. -/
theorem Equals.eq (h : Equals odd q q') (hrep : q.Represents known) (hq : q.RatioFree)
    (hrep' : q'.Represents known') (hq' : q'.RatioFree) : q = q' ∧ odd = false := by
  have hmem : ∀ p, p ∈ q.points ↔ p ∈ q'.points :=
    fun p => ⟨h.mem_points hrep hq, h.symm.mem_points hrep' hq'⟩
  have heq : q = q' := by
    cases q with
    | area a b c =>
      cases q' with
      | area a' b' c' =>
        exact eq_of_rank_of_points rfl
          (Point.eq_of_pairwise_before (pairwise_points hrep) (pairwise_points hrep') hmem)
      | pythagoras a' b' c' =>
        have hread := reading_pythagoras_apart hrep'.1 hrep'.2.1
        exact absurd (reading_area_apart b' a b c) (h.symm.reading_ne_zero hread two_ne_zero)
      | ratio => exact hq'.elim
    | pythagoras a b c =>
      cases q' with
      | area a' b' c' =>
        have hread := reading_pythagoras_apart hrep.1 hrep.2.1
        exact absurd (reading_area_apart b a' b' c') (h.reading_ne_zero hread two_ne_zero)
      | pythagoras a' b' c' =>
        obtain rfl := h.middle hrep hrep'
        obtain ⟨rfl, rfl⟩ := eq_of_middle hrep hrep' hmem
        rfl
      | ratio => exact hq'.elim
    | ratio => exact hq.elim
  refine ⟨heq, ?_⟩
  subst heq
  obtain ⟨ρ, x, hx, h0, -⟩ := exists_reading_ne_zero hrep hq
  have hsign := h ρ
  rw [hx, Option.map_some, Option.some.injEq] at hsign
  cases odd with
  | false => rfl
  | true =>
    rw [sign, if_pos rfl, neg_one_mul, self_eq_neg] at hsign
    exact absurd hsign h0

end Quantity

/-! ### Canonical forms -/

namespace Canonical

/-- The representative, or its negation if `odd`. -/
def withSign (odd : Bool) : Canonical → Canonical
  | zero => zero
  | unit negative => unit (odd ^^ negative)
  | signed q negative => signed q (odd ^^ negative)

/-- Zero, or a representative other than a ratio. -/
def Proper : Canonical → Prop
  | zero => True
  | unit _ => False
  | signed q _ => q.Represents .empty ∧ q.RatioFree

variable {c c' : Canonical} {odd : Bool}

theorem Proper.withSign (h : c.Proper) (odd : Bool) : (c.withSign odd).Proper := by
  cases c with
  | zero => trivial
  | unit => exact h
  | signed => exact h

theorem withSign_false (c : Canonical) : c.withSign false = c := by
  cases c <;> simp [Canonical.withSign]

theorem value_toExpr_signed (v : Reading) (q : Quantity) (odd : Bool) :
    (signed q odd).toExpr.value v = (v q).map fun x => sign odd * x := by
  cases odd <;> cases h : v q <;> simp [toExpr, Expr.value, sign, h]

theorem value_withSign (ρ : Coordinates) (c : Canonical) (odd : Bool) :
    (c.withSign odd).toExpr.value (reading ρ) =
      (c.toExpr.value (reading ρ)).map fun x => sign odd * x := by
  cases c with
  | zero => simp [withSign, toExpr, Expr.value]
  | unit negative =>
    rw [withSign, value_unit, value_unit, Option.map_some, sign_xor]
  | signed q negative =>
    simp [withSign, value_toExpr_signed, Option.map_map, Function.comp_def, sign_xor, mul_assoc]

theorem toExpr_injective : Function.Injective toExpr := by
  rintro (_ | (_ | _) | ⟨q, _ | _⟩) (_ | (_ | _) | ⟨q', _ | _⟩) h <;> cases h <;> rfl

theorem fixed_toExpr (c : Canonical) : c.toExpr.Fixed := by
  cases c with
  | zero => rfl
  | unit negative => cases negative <;> rfl
  | signed q negative => cases negative <;> rfl

theorem negRule_toExpr (c : Canonical) : c.toExpr.negRule = (c.withSign true).toExpr := by
  cases c with
  | zero => rfl
  | unit negative => cases negative <;> rfl
  | signed q negative => cases negative <;> rfl

theorem exists_value_ne_zero {q : Quantity} (h : (signed q odd).Proper) :
    ∃ ρ, (signed q odd).toExpr.value (reading ρ) ≠ zero.toExpr.value (reading ρ) := by
  obtain ⟨ρ, x, hx, h0, -⟩ := Quantity.exists_reading_ne_zero h.1 h.2
  refine ⟨ρ, fun hzero => ?_⟩
  rw [value_toExpr_signed, hx, Option.map_some] at hzero
  have hmul : sign odd * x = 0 := Option.some.inj (hzero.trans (congrArg some Int.cast_zero))
  exact h0 ((mul_eq_zero.mp hmul).resolve_left (sign_ne_zero odd))

/-- **Equal values, equal representatives.** -/
theorem eq_of_value_eq (hc : c.Proper) (hc' : c'.Proper)
    (h : ∀ ρ, c.toExpr.value (reading ρ) = c'.toExpr.value (reading ρ)) : c = c' := by
  cases c with
  | zero =>
    cases c' with
    | zero => rfl
    | unit => exact hc'.elim
    | signed q' odd' =>
      obtain ⟨ρ, hρ⟩ := exists_value_ne_zero hc'
      exact absurd (h ρ).symm hρ
  | unit => exact hc.elim
  | signed q odd =>
    cases c' with
    | zero =>
      obtain ⟨ρ, hρ⟩ := exists_value_ne_zero hc
      exact absurd (h ρ) hρ
    | unit => exact hc'.elim
    | signed q' odd' =>
      have hequals : Quantity.Equals (odd ^^ odd') q q' := by
        intro ρ
        have hvalue := congrArg (Option.map fun x => sign odd * x) (h ρ)
        simpa [value_toExpr_signed, Option.map_map, Function.comp_def, sign_mul_cancel, sign_xor,
          mul_assoc] using hvalue
      obtain ⟨rfl, hsign⟩ := hequals.eq hc.1 hc.2 hc'.1 hc'.2
      obtain rfl : odd = odd' := by simpa using hsign
      rfl

end Canonical

namespace Quantity

variable {q q' : Quantity}

theorem value_canonical_empty (hq : q.RatioFree) (ρ : Coordinates) :
    (q.canonical .empty).toExpr.value (reading ρ) = reading ρ q := by
  cases hread : reading ρ q with
  | some x => exact value_canonical (Triples.holdAt_empty ρ) hread
  | none =>
    cases q with
    | ratio => exact hq.elim
    | _ => cases hread

theorem proper_canonical (hq : q.RatioFree) : (q.canonical .empty).Proper := by
  cases hc : q.canonical .empty with
  | zero => trivial
  | unit negative =>
    cases q with
    | area a b c =>
      simp only [canonical] at hc
      split_ifs at hc
    | pythagoras a b c =>
      simp only [canonical] at hc
      split_ifs at hc
    | ratio => exact hq.elim
  | signed r negative =>
    refine ⟨represents_of_canonical hc, ?_⟩
    cases q with
    | area a b c =>
      simp only [canonical] at hc
      split_ifs at hc
      cases hc
      trivial
    | pythagoras a b c =>
      simp only [canonical] at hc
      split_ifs at hc <;> cases hc <;> trivial
    | ratio => exact hq.elim

/-- **Representatives decide equality**, up to a sign. -/
theorem canonical_eq_withSign_iff (hq : q.RatioFree) (hq' : q'.RatioFree) (odd : Bool) :
    q.canonical .empty = (q'.canonical .empty).withSign odd ↔ Equals odd q q' := by
  constructor
  · intro h ρ
    rw [← value_canonical_empty hq, h, Canonical.value_withSign, value_canonical_empty hq']
  · intro h
    refine Canonical.eq_of_value_eq (proper_canonical hq) ((proper_canonical hq').withSign odd)
      fun ρ => ?_
    rw [value_canonical_empty hq, Canonical.value_withSign, value_canonical_empty hq']
    exact h ρ

end Quantity

namespace Expr

/-- **The canonical form finds all identities between two quantities.** Two areas or
Pythagoras differences have the same canonical form exactly if they have the same
value at all coordinates. The form of one and the negated form of the other
simplify to the same exactly if the values are opposite at all coordinates. -/
theorem canonical_separates {q q' : Quantity} (hq : q.RatioFree) (hq' : q'.RatioFree) :
    ((quantity q).canonical .empty = (quantity q').canonical .empty ↔
      ∀ ρ, (quantity q).value (reading ρ) = (quantity q').value (reading ρ)) ∧
    ∃ r r', ((quantity q).canonical .empty).simplify = .ok r ∧
      (neg ((quantity q').canonical .empty)).simplify = .ok r' ∧
      (r = r' ↔ ∀ ρ, (quantity q).value (reading ρ) = (neg (quantity q')).value (reading ρ)) := by
  have hsimplify : (neg ((quantity q').canonical .empty)).simplify =
      .ok ((q'.canonical .empty).withSign true).toExpr := by
    rw [simplify_neg, ← Canonical.negRule_toExpr]
    exact congrArg _ (simplify_of_fixed (Canonical.fixed_toExpr _))
  have hsame := Quantity.canonical_eq_withSign_iff hq hq' false
  have hopposite := Quantity.canonical_eq_withSign_iff hq hq' true
  rw [Canonical.withSign_false] at hsame
  refine ⟨?_, _, _, simplify_of_fixed (Canonical.fixed_toExpr _), hsimplify, ?_⟩
  · refine (Canonical.toExpr_injective.eq_iff.trans hsame).trans (forall_congr' fun ρ => ?_)
    simp [value, sign]
  · refine (Canonical.toExpr_injective.eq_iff.trans hopposite).trans (forall_congr' fun ρ => ?_)
    cases h : reading ρ q' <;> simp [value, sign, h]

end Expr

namespace Separation

open Letters

/-- The square of a length, from either end. -/
def there : Quantity := .pythagoras b a b

def back : Quantity := .pythagoras a b a

/-- A triangle, from either side. -/
def front : Quantity := .area a b c

def reverse : Quantity := .area a c b

theorem reading_triangle_ab : reading (triangle a b) there = some 2 ∧
    reading (triangle a b) back = some 2 ∧ reading (triangle a b) front = some (1 / 2) ∧
    reading (triangle a b) reverse = some (-1 / 2) := by
  have hpoints : triangle a b a = (0, 0) ∧ triangle a b b = (1, 0) ∧ triangle a b c = (0, 1) :=
    ⟨rfl, rfl, rfl⟩
  norm_num [reading, there, back, front, reverse, Vec.dot, Vec.cross, hpoints]

end Separation

open Separation Letters in
/-- The square of a length is the same from either end and is not its own opposite; the area
of a triangle is the opposite from the other side and is not the same. -/
theorem Expr.canonical_separates_lengths :
    ((quantity there).canonical .empty = (quantity back).canonical .empty ∧
      (∀ ρ, (quantity there).value (reading ρ) = (quantity back).value (reading ρ)) ∧
      ∃ r r', ((quantity there).canonical .empty).simplify = .ok r ∧
        (neg ((quantity back).canonical .empty)).simplify = .ok r' ∧ r ≠ r') ∧
    (quantity front).canonical .empty ≠ (quantity reverse).canonical .empty ∧
      ∃ r, ((quantity front).canonical .empty).simplify = .ok r ∧
        (neg ((quantity reverse).canonical .empty)).simplify = .ok r := by
  obtain ⟨hthere, hback, hfront, hreverse⟩ := reading_triangle_ab
  obtain ⟨hsame, r, r', hr, hr', hopposite⟩ := @canonical_separates there back trivial trivial
  obtain ⟨hsides, s, s', hs, hs', hturned⟩ := @canonical_separates front reverse trivial trivial
  refine ⟨⟨rfl, hsame.mp rfl, r, r', hr, hr', fun heq => ?_⟩, fun heq => ?_, s, hs, ?_⟩
  · have hvalue := hopposite.mp heq (triangle a b)
    norm_num [value, hthere, hback] at hvalue
  · have hvalue := hsides.mp heq (triangle a b)
    norm_num [value, hfront, hreverse] at hvalue
  · have hforms : s = s' := hturned.mpr fun ρ => by
      change some (_ : ℚ) = some (-_)
      simp only [Vec.cross]
      congr 1
      ring
    rw [hforms]
    exact hs'

end AreaMethod
