/-
# Values nearby and almost everywhere

Where a construction does not degenerate, the new point has coordinates that are
quotients of polynomials in those of the others. Where an expression without ratios
has a value, this is such a quotient too (`Expr.regularAt_value`). `RegularAt f ρ`
says that the partial function has the values of a quotient of polynomials wherever
its denominator does not vanish, and that it does not vanish at `ρ`.

A polynomial that does not vanish at some coordinates does not vanish nearby. So if
the statement of a theorem has a value, it has one at all coordinates of the free
points that are close (`Theorem.eventually_valueAt`). And it does not vanish almost
everywhere: two polynomials, neither of them zero, have coordinates at which both do
not vanish. So expressions that have a value at some coordinates each, have values at
the same ones (`Theorem.exists_common`).

Key definitions: `polynomials`, `around`, `generically`, `RegularAt`,
`Theorem.valueAt`, `Frame.straighten`.
Key theorems: `RegularAt.comp`, `Expr.regularAt_value`, `Theorem.regularAt_locate`,
`Theorem.eventually_valueAt`, `Theorem.exists_common`.
-/
import Mathlib
import AreaMethod.Proofs.RatioFree

open Topology

namespace AreaMethod

/-! ### Polynomials in the coordinates -/

/-- The second of the two coordinates, or the first one. -/
def Vec.entry (second : Bool) (z : Vec) : ℚ := if second then z.2 else z.1

namespace Vec

variable (s : Bool) (x y : Vec)

theorem entry_add : (x + y).entry s = x.entry s + y.entry s := by cases s <;> rfl

theorem entry_sub : (x - y).entry s = x.entry s - y.entry s := by cases s <;> rfl

theorem entry_smul (k : ℚ) : (k • x).entry s = k * x.entry s := by cases s <;> rfl

end Vec

/-- One coordinate of a point. -/
def coordinate (i : Point × Bool) (ρ : Coordinates) : ℚ := (ρ i.1).entry i.2

/-- The polynomials in the coordinates of the points, as functions. -/
def polynomials : Subalgebra ℚ (Coordinates → ℚ) := Algebra.adjoin ℚ (Set.range coordinate)

section Polynomials

variable {f g : Coordinates → ℚ} {ρ : Coordinates}

theorem coordinate_mem (i : Point × Bool) : coordinate i ∈ polynomials :=
  Algebra.subset_adjoin ⟨i, rfl⟩

theorem fst_mem (p : Point) : (fun ρ : Coordinates => (ρ p).1) ∈ polynomials :=
  coordinate_mem (p, false)

theorem snd_mem (p : Point) : (fun ρ : Coordinates => (ρ p).2) ∈ polynomials :=
  coordinate_mem (p, true)

theorem entry_mem (s : Bool) (p : Point) :
    (fun ρ : Coordinates => (ρ p).entry s) ∈ polynomials := coordinate_mem (p, s)

theorem cross_mem (a b c d : Point) :
    (fun ρ : Coordinates => (ρ b - ρ a).cross (ρ d - ρ c)) ∈ polynomials :=
  sub_mem (mul_mem (sub_mem (fst_mem b) (fst_mem a)) (sub_mem (snd_mem d) (snd_mem c)))
    (mul_mem (sub_mem (snd_mem b) (snd_mem a)) (sub_mem (fst_mem d) (fst_mem c)))

theorem dot_mem (a b c d : Point) :
    (fun ρ : Coordinates => (ρ b - ρ a).dot (ρ d - ρ c)) ∈ polynomials :=
  add_mem (mul_mem (sub_mem (fst_mem b) (fst_mem a)) (sub_mem (fst_mem d) (fst_mem c)))
    (mul_mem (sub_mem (snd_mem b) (snd_mem a)) (sub_mem (snd_mem d) (snd_mem c)))

theorem const_mem (k : ℚ) : (fun _ : Coordinates => k) ∈ polynomials := polynomials.algebraMap_mem k

theorem continuous_of_mem (hf : f ∈ polynomials) : Continuous f := by
  induction hf using Algebra.adjoin_induction with
  | mem f hf =>
    obtain ⟨⟨p, s⟩, rfl⟩ := hf
    cases s with
    | false => exact continuous_fst.comp (continuous_apply p)
    | true => exact continuous_snd.comp (continuous_apply p)
  | algebraMap k => exact continuous_const
  | add f g _ _ hf hg => exact hf.add hg
  | mul f g _ _ hf hg => exact hf.mul hg

/-- A polynomial with its variables for the coordinates. -/
theorem exists_eval (hf : f ∈ polynomials) : ∃ P : MvPolynomial (Point × Bool) ℚ,
    ∀ ρ, f ρ = MvPolynomial.eval (fun i => coordinate i ρ) P := by
  rw [polynomials, Algebra.adjoin_range_eq_range_aeval] at hf
  obtain ⟨P, rfl⟩ := hf
  refine ⟨P, fun ρ => ?_⟩
  exact MvPolynomial.comp_aeval_apply coordinate (Pi.evalAlgHom ℚ (fun _ => ℚ) ρ) P

/-- Polynomials are not zero divisors. -/
theorem mul_ne_zero_of_mem (hf : f ∈ polynomials) (hg : g ∈ polynomials) (hf0 : f ≠ 0) (hg0 : g ≠ 0) :
    f * g ≠ 0 := by
  obtain ⟨P, hP⟩ := exists_eval hf
  obtain ⟨Q, hQ⟩ := exists_eval hg
  have hne : ∀ {f : Coordinates → ℚ} {P : MvPolynomial (Point × Bool) ℚ}, f ≠ 0 →
      (∀ ρ, f ρ = MvPolynomial.eval (fun i => coordinate i ρ) P) → P ≠ 0 := by
    rintro f P hf0 hP rfl
    exact hf0 (funext fun ρ => by rw [hP, map_zero, Pi.zero_apply])
  intro hzero
  refine mul_ne_zero (hne hf0 hP) (hne hg0 hQ) (MvPolynomial.funext fun a => ?_)
  -- any values of the variables are those at some coordinates
  have hvalues : (fun i => coordinate i fun p => (a (p, false), a (p, true))) = a := by
    funext ⟨p, s⟩
    cases s <;> rfl
  rw [← hvalues, map_mul, ← hP, ← hQ, map_zero]
  exact congrFun hzero _

end Polynomials

/-! ### Almost everywhere -/

/-- The sets that contain all coordinates at which some function in `M` does not
vanish. -/
def offZeros (M : Submonoid (Coordinates → ℚ)) : Filter Coordinates where
  sets := {s | ∃ d ∈ M, ∀ ρ, d ρ ≠ 0 → ρ ∈ s}
  univ_sets := ⟨1, M.one_mem, fun _ _ => trivial⟩
  sets_of_superset := fun ⟨d, hd, h⟩ hst => ⟨d, hd, fun ρ hρ => hst (h ρ hρ)⟩
  inter_sets := fun ⟨d, hd, h⟩ ⟨c, hc, h'⟩ => ⟨d * c, M.mul_mem hd hc, fun ρ hρ =>
    ⟨h ρ (left_ne_zero_of_mul hρ), h' ρ (right_ne_zero_of_mul hρ)⟩⟩

/-- Off the zeros of a polynomial that does not vanish at `ρ`. -/
def around (ρ : Coordinates) : Filter Coordinates := offZeros
  { carrier := {d | d ∈ polynomials ∧ d ρ ≠ 0}
    one_mem' := ⟨one_mem _, one_ne_zero⟩
    mul_mem' := fun ⟨hd, hd0⟩ ⟨hc, hc0⟩ => ⟨mul_mem hd hc, mul_ne_zero hd0 hc0⟩ }

/-- Off the zeros of a polynomial. -/
def generically : Filter Coordinates := offZeros
  { carrier := {d | d ∈ polynomials ∧ d ≠ 0}
    one_mem' := ⟨one_mem _, one_ne_zero⟩
    mul_mem' := fun ⟨hd, hd0⟩ ⟨hc, hc0⟩ => ⟨mul_mem hd hc, mul_ne_zero_of_mem hd hc hd0 hc0⟩ }

theorem nhds_le_around (ρ : Coordinates) : 𝓝 ρ ≤ around ρ := by
  rintro s ⟨d, ⟨hd, hd0⟩, hs⟩
  exact ((continuous_of_mem hd).continuousAt.eventually_ne hd0).mono hs

theorem generically_le_around (ρ : Coordinates) : generically ≤ around ρ := by
  rintro s ⟨d, ⟨hd, hd0⟩, hs⟩
  exact ⟨d, ⟨hd, fun h => hd0 (congrFun h ρ)⟩, hs⟩

instance : generically.NeBot := by
  refine Filter.neBot_iff.mpr fun hbot => ?_
  obtain ⟨d, ⟨-, hd0⟩, hempty⟩ := Filter.empty_mem_iff_bot.mpr hbot
  exact hd0 (funext fun ρ => by_contra fun h => hempty ρ h)

/-! ### Quotients of polynomials -/

/-- The partial function has the values of a quotient of polynomials where its
denominator does not vanish, as at `ρ`. -/
def RegularAt (f : Coordinates → Option ℚ) (ρ : Coordinates) : Prop :=
  ∃ n ∈ polynomials, ∃ d ∈ polynomials, d ρ ≠ 0 ∧ ∀ z, d z ≠ 0 → f z = some (n z / d z)

namespace RegularAt

variable {f g : Coordinates → Option ℚ} {a b n d : Coordinates → ℚ} {ρ x : Coordinates}

theorem congr (hf : RegularAt f ρ) (h : ∀ z, f z = g z) : RegularAt g ρ := funext h ▸ hf

theorem eventually (h : RegularAt f ρ) : ∀ᶠ z in around ρ, ∃ y, f z = some y := by
  obtain ⟨n, -, d, hd, hd0, hf⟩ := h
  exact ⟨d, ⟨hd, hd0⟩, fun z hz => ⟨_, hf z hz⟩⟩

theorem of_mem (hn : n ∈ polynomials) : RegularAt (fun z => some (n z)) ρ :=
  ⟨n, hn, 1, one_mem _, one_ne_zero, fun z _ => by rw [Pi.one_apply, div_one]⟩

/-- What does not vanish can be divided by. -/
theorem quotient (hn : n ∈ polynomials) (hd : d ∈ polynomials) (h0 : d ρ ≠ 0) :
    RegularAt (fun z => if d z = 0 then none else some (n z / d z)) ρ :=
  ⟨n, hn, d, hd, h0, fun _ hz => if_neg hz⟩

/-- A linear function of the value, with polynomials for coefficients. -/
theorem linear (hf : RegularAt f ρ) (ha : a ∈ polynomials) (hb : b ∈ polynomials) :
    RegularAt (fun z => (f z).map fun k => a z + k * b z) ρ := by
  obtain ⟨n, hn, d, hd, hd0, hf⟩ := hf
  refine ⟨a * d + n * b, add_mem (mul_mem ha hd) (mul_mem hn hb), d, hd, hd0, fun z hz => ?_⟩
  simp only [hf z hz, Option.map_some, Pi.add_apply, Pi.mul_apply]
  congr 1
  field_simp

theorem add (hf : RegularAt f ρ) (hg : RegularAt g ρ) :
    RegularAt (fun z => (f z).bind fun y => (g z).bind fun w => some (y + w)) ρ := by
  obtain ⟨n, hn, d, hd, hd0, hf⟩ := hf
  obtain ⟨m, hm, c, hc, hc0, hg⟩ := hg
  refine ⟨n * c + d * m, add_mem (mul_mem hn hc) (mul_mem hd hm), d * c, mul_mem hd hc,
    mul_ne_zero hd0 hc0, fun z hz => ?_⟩
  obtain ⟨hdz, hcz⟩ := mul_ne_zero_iff.mp hz
  simp only [hf z hdz, hg z hcz, Option.bind_some]
  exact congrArg some (div_add_div _ _ hdz hcz)

theorem mul (hf : RegularAt f ρ) (hg : RegularAt g ρ) :
    RegularAt (fun z => (f z).bind fun y => (g z).bind fun w => some (y * w)) ρ := by
  obtain ⟨n, hn, d, hd, hd0, hf⟩ := hf
  obtain ⟨m, hm, c, hc, hc0, hg⟩ := hg
  refine ⟨n * m, mul_mem hn hm, d * c, mul_mem hd hc, mul_ne_zero hd0 hc0, fun z hz => ?_⟩
  obtain ⟨hdz, hcz⟩ := mul_ne_zero_iff.mp hz
  simp only [hf z hdz, hg z hcz, Option.bind_some]
  exact congrArg some (div_mul_div_comm _ _ _ _)

theorem div (hf : RegularAt f ρ) (hg : RegularAt g ρ) (h0 : g ρ ≠ some 0) :
    RegularAt (fun z => (f z).bind fun y => (g z).bind fun w =>
      if w = 0 then none else some (y / w)) ρ := by
  obtain ⟨n, hn, d, hd, hd0, hf⟩ := hf
  obtain ⟨m, hm, c, hc, hc0, hg⟩ := hg
  have hm0 : m ρ ≠ 0 := fun h => h0 (by rw [hg ρ hc0, h, zero_div])
  refine ⟨n * c * c, mul_mem (mul_mem hn hc) hc, d * m * c, mul_mem (mul_mem hd hm) hc,
    mul_ne_zero (mul_ne_zero hd0 hm0) hc0, fun z hz => ?_⟩
  obtain ⟨hdm, hcz⟩ := mul_ne_zero_iff.mp hz
  obtain ⟨hdz, hmz⟩ := mul_ne_zero_iff.mp hdm
  simp only [hf z hdz, hg z hcz, Option.bind_some, if_neg (div_ne_zero hmz hcz), Pi.mul_apply]
  congr 1
  field_simp

variable {F : Coordinates → Option Coordinates}

theorem map_of_mem (hF : ∀ i, RegularAt (fun z => (F z).map (coordinate i)) x)
    (hn : n ∈ polynomials) : RegularAt (fun z => (F z).map n) x := by
  induction hn using Algebra.adjoin_induction with
  | mem n hn =>
    obtain ⟨i, rfl⟩ := hn
    exact hF i
  | algebraMap k =>
    refine ((hF (Frame.o, false)).linear (const_mem k) (const_mem 0)).congr fun z => ?_
    rw [Option.map_map]
    simp only [Function.comp_def, mul_zero, add_zero]
    rfl
  | add f g _ _ hf hg => exact (hf.add hg).congr fun z => by cases F z <;> rfl
  | mul f g _ _ hf hg => exact (hf.mul hg).congr fun z => by cases F z <;> rfl

/-- **One after the other.** -/
theorem comp (hF : ∀ i, RegularAt (fun z => (F z).map (coordinate i)) x) (hx : F x = some ρ)
    (hg : RegularAt g ρ) : RegularAt (fun z => (F z).bind g) x := by
  obtain ⟨n, hn, d, hd, hd0, hg⟩ := hg
  have hzero : (F x).map d ≠ some 0 := by simpa [hx] using hd0
  obtain ⟨m, hm, c, hc, hc0, hquotient⟩ := (map_of_mem hF hn).div (map_of_mem hF hd) hzero
  refine ⟨m, hm, c, hc, hc0, fun z hz => ?_⟩
  have hvalue := hquotient z hz
  cases hFz : F z with
  | none => simp [hFz] at hvalue
  | some ρ' =>
    simp only [hFz, Option.map_some, Option.bind_some] at hvalue ⊢
    split_ifs at hvalue with h0
    rw [hg ρ' h0, hvalue]

end RegularAt

/-! ### Expressions -/

section Values

variable {ρ : Coordinates}

theorem regularAt_reading {q : Quantity} (h : q.RatioFree) :
    RegularAt (fun ρ' : Coordinates => reading ρ' q) ρ := by
  cases q with
  | area a b c =>
    refine (RegularAt.of_mem (mul_mem (cross_mem a b a c) (const_mem 2⁻¹))).congr fun z => ?_
    rw [reading, div_eq_mul_inv]
    rfl
  | pythagoras a b c => exact RegularAt.of_mem (mul_mem (const_mem 2) (dot_mem b a b c))
  | ratio a b c d => exact absurd h id

/-- The case of an expression without packed nodes. -/
theorem Expr.regularAt_value_of_unpacked : ∀ {e : Expr}, e.All Quantity.RatioFree →
    e.Unpacked → ∀ {x : ℚ}, e.value (reading ρ) = some x →
      RegularAt (fun ρ' : Coordinates => e.value (reading ρ')) ρ
  | number n, _, _, _, _ => .of_mem (const_mem n)
  | quantity q, h, _, _, _ => regularAt_reading (all_quantity.mp h)
  | neg e, h, hp, x, hx => by
    obtain ⟨y, hy, -⟩ := value_neg_eq_some.mp hx
    refine ((regularAt_value_of_unpacked (e := e) h hp hy).linear (const_mem 0)
      (const_mem (-1))).congr fun z => ?_
    rw [value]
    cases e.value (reading z) with
    | none => rfl
    | some y => simp
  | sum a b, h, hp, x, hx => by
    obtain ⟨y, z, hy, hz, -⟩ := value_sum_eq_some.mp hx
    obtain ⟨ha, hb⟩ := all_sum.mp h
    exact (regularAt_value_of_unpacked ha hp.1 hy).add (regularAt_value_of_unpacked hb hp.2 hz)
  | product a b, h, hp, x, hx => by
    obtain ⟨y, z, hy, hz, -⟩ := value_product_eq_some.mp hx
    obtain ⟨ha, hb⟩ := all_product.mp h
    exact (regularAt_value_of_unpacked ha hp.1 hy).mul (regularAt_value_of_unpacked hb hp.2 hz)
  | fraction a b, h, hp, x, hx => by
    obtain ⟨y, z, hy, hz, h0, -⟩ := value_fraction_eq_some.mp hx
    obtain ⟨ha, hb⟩ := all_fraction.mp h
    refine (regularAt_value_of_unpacked ha hp.1 hy).div (regularAt_value_of_unpacked hb hp.2 hz) ?_
    rw [hz]
    exact fun heq => h0 (Option.some.inj heq)

/-- Where an expression without ratios has a value, this is a quotient of
polynomials. -/
theorem Expr.regularAt_value {e : Expr} (h : e.All Quantity.RatioFree) {x : ℚ}
    (hx : e.value (reading ρ) = some x) :
    RegularAt (fun ρ' : Coordinates => e.value (reading ρ')) ρ := by
  simp only [← value_unfold _ e] at hx ⊢
  exact regularAt_value_of_unpacked (all_unfold h) e.unpacked_unfold hx

end Values

/-! ### Figures -/

section Points

variable {ρ free : Coordinates}

/-- A point that divides `uv` by a quotient. -/
theorem regularAt_divide {n d : Coordinates → ℚ} (hn : n ∈ polynomials) (hd : d ∈ polynomials)
    (h0 : d ρ ≠ 0) (u v : Point) (s : Bool) :
    RegularAt (fun ρ' => (if d ρ' = 0 then none
      else some (ρ' u + (n ρ' / d ρ') • (ρ' v - ρ' u))).map (Vec.entry s)) ρ := by
  refine ((RegularAt.quotient hn hd h0).linear (entry_mem s u)
    (sub_mem (entry_mem s v) (entry_mem s u))).congr fun z => ?_
  split_ifs
  · rfl
  · simp [Vec.entry_add, Vec.entry_smul, Vec.entry_sub]

/-- Where a construction gives a point, its coordinates are quotients of
polynomials. -/
theorem Construction.regularAt_locate {c : Construction} (h : c.RatioFree) {z : Vec}
    (hz : c.locate ρ = some z) (s : Bool) :
    RegularAt (fun ρ' => (c.locate ρ').map (Vec.entry s)) ρ := by
  cases c with
  | intersection u v p q =>
    exact regularAt_divide (cross_mem u p p q) (cross_mem u v p q) (located_intersection hz).1 u v s
  | foot p u v =>
    have hfoot := regularAt_divide (dot_mem u p u v) (dot_mem u v u v) (located_foot hz).1 u v s
    simpa only [locate, ← not_iff_not.mp Vec.dot_sub_self_ne_zero] using hfoot
  | pratio w u v r =>
    obtain ⟨k, hk, -⟩ := located_pratio hz
    refine ((Expr.regularAt_value h hk).linear (entry_mem s w)
      (sub_mem (entry_mem s v) (entry_mem s u))).congr fun ρ' => ?_
    rw [locate, Option.map_map]
    congr 1
    funext k
    simp [Vec.entry_add, Vec.entry_smul, Vec.entry_sub]
  | tratio u v r =>
    obtain ⟨k, hk, -⟩ := located_tratio hz
    have hturn : (fun ρ' : Coordinates => ((ρ' v - ρ' u).turn).entry s) ∈ polynomials := by
      cases s with
      | false => exact neg_mem (sub_mem (snd_mem v) (snd_mem u))
      | true => exact sub_mem (fst_mem v) (fst_mem u)
    refine ((Expr.regularAt_value h hk).linear (entry_mem s u) hturn).congr fun ρ' => ?_
    rw [locate, Option.map_map]
    congr 1
    funext k
    simp [Vec.entry_add, Vec.entry_smul]

theorem Figure.regularAt_locateAll : ∀ {placed : List Placed},
    (∀ x ∈ placed, ∀ c ∈ x.construction?, c.RatioFree) → ∀ {ρ : Coordinates},
      locateAll free placed = some ρ →
        ∀ i, RegularAt (fun free' => (locateAll free' placed).map (coordinate i)) free
  | [], _, _, _, i => .of_mem (coordinate_mem i)
  | x :: older, h, ρ, hρ, i => by
    obtain ⟨ρ', hρ', hx⟩ := locateAll_cons_eq_some.mp hρ
    have holder := regularAt_locateAll (fun y hy => h y (.tail _ hy)) hρ'
    cases hc : x.construction? with
    | none => exact (holder i).congr fun free' => by simp [locateAll, hc]
    | some c =>
      rw [hc] at hx
      obtain ⟨z, hz, -⟩ := hx
      have hpoint := Construction.regularAt_locate (h x (.head _) c hc) hz i.2
      -- the coordinates of the new point, or those of another one
      have hstep : RegularAt (fun ρ => (c.locate ρ).map fun z =>
          coordinate i (Function.update ρ x.point z)) ρ' := by
        by_cases hi : i.1 = x.point
        · refine hpoint.congr fun ρ => ?_
          simp [coordinate, hi]
        · refine (hpoint.linear (coordinate_mem i) (const_mem 0)).congr fun ρ => ?_
          rw [Option.map_map]
          congr 1
          funext z
          simp [coordinate, Function.update_of_ne hi]
      refine (RegularAt.comp holder hρ' hstep).congr fun free' => ?_
      cases hfree' : locateAll free' older with
      | none => simp [locateAll, hfree']
      | some ρ'' =>
        simp only [locateAll, hfree', hc, Option.bind_some, Option.bind_eq_bind]
        cases c.locate ρ'' <;> rfl

end Points

/-- The value of the statement, given coordinates for the free points. -/
def Theorem.valueAt (thm : Theorem) (free : Coordinates) : Option ℚ := do
  let ρ ← thm.figure.locate free
  thm.statement.zeroExpr.value (reading ρ)

section Theorems

variable {thm : Theorem} {free ρ : Coordinates} {x : ℚ}

theorem Theorem.valueAt_eq_some : thm.valueAt free = some x ↔
    ∃ ρ, thm.figure.locate free = some ρ ∧ thm.statement.zeroExpr.value (reading ρ) = some x :=
  Option.bind_eq_some_iff

theorem Theorem.regularAt_locate (hthm : thm.Proper) (hfree : thm.RatioFree)
    (hρ : thm.figure.locate free = some ρ) (i : Point × Bool) :
    RegularAt (fun free' => (thm.figure.locate free').map (coordinate i)) free := by
  refine Figure.regularAt_locateAll (fun y hy c hc => ?_) hρ i
  exact hfree.constructions y.point c ((Figure.construction?_of_mem hthm.ordered hy).trans hc)

/-- The value of an expression, given coordinates for the free points. -/
theorem Theorem.regularAt_value (hthm : thm.Proper) (hfree : thm.RatioFree) {e : Expr}
    (he : e.All Quantity.RatioFree) (hρ : thm.figure.locate free = some ρ)
    (hx : e.value (reading ρ) = some x) :
    RegularAt (fun free' => (thm.figure.locate free').bind fun ρ => e.value (reading ρ)) free :=
  .comp (regularAt_locate hthm hfree hρ) hρ (Expr.regularAt_value he hx)

/-- **Values nearby.** If the statement has a value, it has one at all
coordinates of the free points that are close. -/
theorem Theorem.eventually_valueAt (hthm : thm.Proper) (hfree : thm.RatioFree)
    (hx : thm.valueAt free = some x) : ∀ᶠ free' in 𝓝 free, ∃ x', thm.valueAt free' = some x' := by
  obtain ⟨ρ, hρ, hvalue⟩ := valueAt_eq_some.mp hx
  exact (regularAt_value hthm hfree hfree.statement hρ hvalue).eventually.filter_mono
    (nhds_le_around free)

end Theorems

/-! ### Square frames -/

namespace Frame

/-- The third point of the frame is moved, so that the frame is square. -/
def straighten (ρ : Coordinates) : Coordinates :=
  Function.update ρ v (ρ o + (ρ u - ρ o).turn)

theorem straighten_of_square {ρ : Coordinates} (h : Square ρ) : straighten ρ = ρ := by
  rw [straighten, ← h.2, add_sub_cancel]
  exact Function.update_eq_self v ρ

theorem square_straighten {ρ : Coordinates} (h : ρ u ≠ ρ o) : Square (straighten ρ) := by
  obtain ⟨ho, hu⟩ : o ≠ v ∧ u ≠ v := by decide
  rw [Square, straighten, Function.update_self, Function.update_of_ne ho, Function.update_of_ne hu]
  exact ⟨h, add_sub_cancel_left _ _⟩

theorem regularAt_straighten (ρ : Coordinates) (i : Point × Bool) :
    RegularAt (fun z => (some (straighten z)).map (coordinate i)) ρ := by
  obtain ⟨p, s⟩ := i
  by_cases hp : p = v
  · have hentry : (fun z : Coordinates => (z o + (z u - z o).turn).entry s) ∈ polynomials := by
      cases s with
      | false => exact add_mem (fst_mem o) (neg_mem (sub_mem (snd_mem u) (snd_mem o)))
      | true => exact add_mem (snd_mem o) (sub_mem (fst_mem u) (fst_mem o))
    refine (RegularAt.of_mem hentry).congr fun z => ?_
    simp [coordinate, straighten, hp]
  · refine (RegularAt.of_mem (coordinate_mem (p, s))).congr fun z => ?_
    simp [coordinate, straighten, Function.update_of_ne hp]

theorem generically_square : ∀ᶠ z in generically, Square (straighten z) := by
  refine ⟨_, ⟨dot_mem o u o u, fun h => ?_⟩, fun z hz => ?_⟩
  · have hone := congrFun h (place 1 0)
    obtain ⟨ho, hu, -⟩ := place_frame 1 0
    simp [ho, hu, Vec.dot] at hone
  · exact square_straighten fun h => hz (by simp [h, Vec.dot])

end Frame

/-- **Common values.** Expressions that have a value each, at some coordinates in a
square frame, have values at the same coordinates in a square frame. -/
theorem Theorem.exists_common {thm : Theorem} (hthm : thm.Proper) (hfree : thm.RatioFree)
    (es : List Expr) (hes : ∀ e ∈ es, e.All Quantity.RatioFree ∧ ∃ free ρ x,
      Frame.Square free ∧ thm.figure.locate free = some ρ ∧ e.value (reading ρ) = some x) :
    ∃ free, Frame.Square free ∧
      ∀ e ∈ es, ∃ ρ x, thm.figure.locate free = some ρ ∧ e.value (reading ρ) = some x := by
  have hvalue : ∀ e ∈ es, ∀ᶠ z in generically, ∃ ρ x,
      thm.figure.locate (Frame.straighten z) = some ρ ∧ e.value (reading ρ) = some x := by
    intro e he
    obtain ⟨hratio, free, ρ, x, hsquare, hρ, hx⟩ := hes e he
    have hregular := RegularAt.comp (Frame.regularAt_straighten free)
      (congrArg some (Frame.straighten_of_square hsquare))
      (regularAt_value hthm hfree hratio hρ hx)
    refine (hregular.eventually.filter_mono (generically_le_around free)).mono ?_
    rintro z ⟨y, hy⟩
    obtain ⟨ρ', hρ', hy'⟩ : ∃ ρ', thm.figure.locate (Frame.straighten z) = some ρ' ∧ _ :=
      Option.bind_eq_some_iff.mp hy
    exact ⟨ρ', y, hρ', hy'⟩
  obtain ⟨z, hsquare, hz⟩ := (Frame.generically_square.and
    ((Filter.eventually_all_finite es.finite_toSet).mpr hvalue)).exists
  exact ⟨_, hsquare, hz⟩

end AreaMethod
