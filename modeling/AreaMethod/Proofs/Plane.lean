/-
# The rational plane

Coordinates put the points of a figure into the plane over the rationals. They
give every area and Pythagoras difference a value, and every ratio whose
denominator is not a single point. Given coordinates for the free points, the
constructions of a figure determine the rest, as long as none of them
degenerates (`Figure.locate`).

In an ordered figure each constructed point lies where its construction puts
it among the final coordinates (`Figure.locate_construction`).

Key definitions: `Vec`, `Coordinates`, `reading`, `Construction.locate`,
`Figure.locate`, `Frame.Square`, `Frame.place`.
Key theorems: `Figure.locate_construction`, `Figure.locate_congr`.
-/
import Mathlib
import AreaMethod.Frame
import AreaMethod.Proofs.Figures

namespace AreaMethod

/-- A point or vector of the rational plane. -/
abbrev Vec := ℚ × ℚ

namespace Vec

/-- The scalar product. -/
def dot (a b : Vec) : ℚ := a.1 * b.1 + a.2 * b.2

/-- The signed area of the parallelogram of two vectors. -/
def cross (a b : Vec) : ℚ := a.1 * b.2 - a.2 * b.1

/-- Turns by a right angle counter-clockwise. -/
def turn (a : Vec) : Vec := (-a.2, a.1)

theorem smul_dot (k : ℚ) (a b : Vec) : (k • a).dot b = k * a.dot b := by
  simp only [dot, Prod.smul_fst, Prod.smul_snd, smul_eq_mul]
  ring

theorem dot_smul (k : ℚ) (a b : Vec) : a.dot (k • b) = k * a.dot b := by
  simp only [dot, Prod.smul_fst, Prod.smul_snd, smul_eq_mul]
  ring

theorem cross_sub_right (p q u : Vec) : (p - u).cross (q - u) = (p - u).cross (q - p) := by
  simp only [cross, Prod.fst_sub, Prod.snd_sub]
  ring

theorem cross_sub_shift (p q u v : Vec) :
    (p - v).cross (q - v) = (p - u).cross (q - p) - (v - u).cross (q - p) := by
  simp only [cross, Prod.fst_sub, Prod.snd_sub]
  ring

theorem dot_sub_comm (u v : Vec) : (u - v).dot (u - v) = (v - u).dot (v - u) := by
  simp only [dot, Prod.fst_sub, Prod.snd_sub]
  ring

theorem dot_sub_shift (p u v : Vec) :
    (p - v).dot (u - v) = (v - u).dot (v - u) - (p - u).dot (v - u) := by
  simp only [dot, Prod.fst_sub, Prod.snd_sub]
  ring

theorem smul_cross (k : ℚ) (a b : Vec) : (k • a).cross b = k * a.cross b := by
  simp only [cross, Prod.smul_fst, Prod.smul_snd, smul_eq_mul]
  ring

/-- Twice the area of the triangle `apq`, by way of any point `z` on `pq`. -/
theorem cross_of_on_line {z p q : Vec} (h : (z - p).cross (q - p) = 0) (a : Vec) :
    (p - a).cross (q - a) = (z - a).cross (q - p) := by
  have hsplit : (p - a).cross (q - a) = (z - a).cross (q - p) - (z - p).cross (q - p) := by
    simp only [cross, Prod.fst_sub, Prod.snd_sub]
    ring
  rw [hsplit, h, sub_zero]

/-- What is orthogonal to a line is orthogonal to its parallels. -/
theorem dot_eq_zero_of_parallel {a b w : Vec} (hw : w.dot w ≠ 0) (hb : b.cross w = 0)
    (ha : a.dot w = 0) : a.dot b = 0 := by
  have hsplit : a.dot b * w.dot w = a.dot w * b.dot w + a.cross w * b.cross w := by
    simp only [dot, cross]
    ring
  rw [ha, hb, zero_mul, mul_zero, add_zero] at hsplit
  exact (mul_eq_zero.mp hsplit).resolve_right hw

theorem dot_self_eq_zero {a : Vec} : a.dot a = 0 ↔ a = 0 := by
  unfold dot
  rw [mul_self_add_mul_self_eq_zero, Prod.ext_iff]
  rfl

theorem dot_sub_self_ne_zero {a b : Vec} : (b - a).dot (b - a) ≠ 0 ↔ a ≠ b := by
  rw [Ne, dot_self_eq_zero, sub_eq_zero, eq_comm]

end Vec

/-- A place in the plane for every point. -/
abbrev Coordinates := Point → Vec

/-- The values of the quantities at given coordinates. -/
def reading (ρ : Coordinates) : Reading
  | .area a b c => some ((ρ b - ρ a).cross (ρ c - ρ a) / 2)
  | .pythagoras a b c => some (2 * (ρ a - ρ b).dot (ρ c - ρ b))
  | .ratio a b c d =>
    if ρ c = ρ d then none
    else some ((ρ b - ρ a).dot (ρ d - ρ c) / (ρ d - ρ c).dot (ρ d - ρ c))

/-- Where a construction puts its point; nowhere if it degenerates. -/
def Construction.locate (ρ : Coordinates) : Construction → Option Vec
  | intersection u v p q =>
    if (ρ v - ρ u).cross (ρ q - ρ p) = 0 then none
    else some (ρ u +
      ((ρ p - ρ u).cross (ρ q - ρ p) / (ρ v - ρ u).cross (ρ q - ρ p)) • (ρ v - ρ u))
  | foot p u v =>
    if ρ u = ρ v then none
    else some (ρ u +
      ((ρ p - ρ u).dot (ρ v - ρ u) / (ρ v - ρ u).dot (ρ v - ρ u)) • (ρ v - ρ u))
  | pratio w u v r => (r.value (reading ρ)).map fun k => ρ w + k • (ρ v - ρ u)
  | tratio u v r => (r.value (reading ρ)).map fun k => ρ u + k • (ρ v - ρ u).turn

namespace Figure

/-- The coordinates of all points: constructed points where their construction
puts them, one after the other, and all others as in `free`. -/
def locateAll (free : Coordinates) : List Placed → Option Coordinates
  | [] => some free
  | x :: older => do
    let ρ ← locateAll free older
    match x.construction? with
    | none => return ρ
    | some c => return Function.update ρ x.point (← c.locate ρ)

/-- The coordinates of all points of a figure, if no construction
degenerates. -/
def locate (fig : Figure) (free : Coordinates) : Option Coordinates := locateAll free fig.placed

end Figure

/-! ### What coordinates depend on -/

section Congruence

variable {ρ ρ' : Coordinates}

theorem reading_congr {q : Quantity} (h : q.On fun p => ρ p = ρ' p) :
    reading ρ q = reading ρ' q := by
  cases q with
  | area a b c =>
    obtain ⟨ha, hb, hc⟩ := Quantity.on_area.mp h
    simp only [reading, ha, hb, hc]
  | pythagoras a b c =>
    obtain ⟨ha, hb, hc⟩ := Quantity.on_pythagoras.mp h
    simp only [reading, ha, hb, hc]
  | ratio a b c d =>
    obtain ⟨ha, hb, hc, hd⟩ := Quantity.on_ratio.mp h
    simp only [reading, ha, hb, hc, hd]

theorem Expr.value_reading_congr {e : Expr} (h : e.All (Quantity.On fun p => ρ p = ρ' p)) :
    e.value (reading ρ) = e.value (reading ρ') :=
  value_congr (h.mono fun _ => reading_congr)

theorem Construction.locate_congr {c : Construction} (h : c.On fun p => ρ p = ρ' p) :
    c.locate ρ = c.locate ρ' := by
  cases c with
  | intersection u v p q =>
    obtain ⟨hu, hv, hp, hq⟩ := on_intersection.mp h
    simp only [locate, hu, hv, hp, hq]
  | foot p u v =>
    obtain ⟨hp, hu, hv⟩ := on_foot.mp h
    simp only [locate, hp, hu, hv]
  | pratio w u v r =>
    obtain ⟨hw, hu, hv, hr⟩ := on_pratio.mp h
    simp only [locate, hw, hu, hv, Expr.value_reading_congr hr]
  | tratio u v r =>
    obtain ⟨hu, hv, hr⟩ := on_tratio.mp h
    simp only [locate, hu, hv, Expr.value_reading_congr hr]

end Congruence

namespace Figure

variable {fig : Figure} {free free' ρ : Coordinates}

/-- One more point: it is free, or it is put where its construction says. -/
theorem locateAll_cons_eq_some {x : Placed} {older : List Placed} :
    locateAll free (x :: older) = some ρ ↔ ∃ ρ', locateAll free older = some ρ' ∧
      match x.construction? with
      | none => ρ = ρ'
      | some c => ∃ z, c.locate ρ' = some z ∧ ρ = Function.update ρ' x.point z := by
  rw [locateAll, Option.bind_eq_bind, Option.bind_eq_some_iff]
  refine exists_congr fun ρ' => and_congr_right fun _ => ?_
  split
  · exact ⟨fun h => (Option.some.inj h).symm, fun h => congrArg some h.symm⟩
  · rw [Option.bind_eq_bind, Option.bind_eq_some_iff]
    refine exists_congr fun z => and_congr_right fun _ => ?_
    exact ⟨fun h => (Option.some.inj h).symm, fun h => congrArg some h.symm⟩

/-- Points that are not constructed stay where they are. -/
theorem locateAll_of_not_mem {p : Point} : ∀ {placed : List Placed} {ρ : Coordinates},
    locateAll free placed = some ρ → (∀ c, (⟨p, some c⟩ : Placed) ∉ placed) → ρ p = free p
  | [], ρ, h, _ => by
    cases h
    rfl
  | ⟨q, how⟩ :: older, ρ, h, hp => by
    obtain ⟨ρ', hρ', h⟩ := locateAll_cons_eq_some.mp h
    have hold : ρ' p = free p := locateAll_of_not_mem hρ' fun c hc => hp c (.tail _ hc)
    cases how with
    | none =>
      cases h
      exact hold
    | some c =>
      obtain ⟨z, -, rfl⟩ := h
      have hne : p ≠ q := fun heq => hp c (heq ▸ .head _)
      rw [Function.update_of_ne hne, hold]

/-- **Constructed points are where they belong.** Among the final coordinates,
the construction of each point puts it where it is. -/
theorem locate_construction (ho : Ordered fig.placed) (h : fig.locate free = some ρ) {p : Point}
    {c : Construction} (hc : fig.construction? p = some c) : c.locate ρ = some (ρ p) := by
  have hall : ∀ {placed : List Placed} {ρ : Coordinates}, Ordered placed →
      locateAll free placed = some ρ → ∀ {p : Point} {c : Construction},
        (⟨p, some c⟩ : Placed) ∈ placed → c.locate ρ = some (ρ p) := by
    intro placed ρ ho
    induction ho generalizing ρ with
    | nil => intro _ p c hc; cases hc
    | @cons x older hnew hdeps hold ih =>
      intro h p c hc
      obtain ⟨ρ', hρ', h⟩ := locateAll_cons_eq_some.mp h
      obtain ⟨q, how⟩ := x
      cases how with
      | none =>
        cases h
        rcases List.mem_cons.mp hc with hc | hc
        · cases hc
        · exact ih hρ' hc
      | some c' =>
        obtain ⟨z, hz, rfl⟩ := h
        -- the new point is none of those that older constructions refer to
        have hkeep : ∀ {c : Construction}, (c.On fun d => ∃ z ∈ older, z.point = d) →
            c.locate (Function.update ρ' q z) = c.locate ρ' := by
          intro c hon
          refine Construction.locate_congr (hon.mono fun d ⟨w, hw, hwd⟩ => ?_)
          exact Function.update_of_ne (fun heq => hnew w hw (hwd.trans heq)) _ _
        rcases List.mem_cons.mp hc with hc | hc
        · cases hc
          rw [hkeep (hdeps c rfl), hz, Function.update_self]
        · have hne : p ≠ q := fun heq => hnew _ hc heq
          rw [hkeep (on_construction hold hc), ih hρ' hc, Function.update_of_ne hne]
  exact hall ho h (mem_of_construction? hc)

/-- Only the places of the points of the figure matter. -/
theorem locate_congr (ho : Ordered fig.placed) (hfree : ∀ z ∈ fig.placed, free z.point = free' z.point)
    (h : fig.locate free = some ρ) :
    ∃ ρ', fig.locate free' = some ρ' ∧ ∀ z ∈ fig.placed, ρ z.point = ρ' z.point := by
  obtain ⟨placed⟩ := fig
  unfold locate at *
  simp only at *
  induction ho generalizing ρ with
  | nil => exact ⟨free', rfl, fun z hz => (nomatch hz)⟩
  | @cons x older hnew hdeps hold ih =>
    obtain ⟨ρ₁, hρ₁, h⟩ := locateAll_cons_eq_some.mp h
    obtain ⟨ρ₂, hρ₂, heq⟩ := ih (fun z hz => hfree z (.tail _ hz)) hρ₁
    have hnone : ∀ {σ τ : Coordinates}, locateAll σ older = some τ → τ x.point = σ x.point :=
      fun h => locateAll_of_not_mem h fun c hc => hnew _ hc rfl
    cases hx : x.construction? with
    | none =>
      simp only [hx] at h
      subst h
      refine ⟨ρ₂, locateAll_cons_eq_some.mpr ⟨ρ₂, hρ₂, by rw [hx]⟩, ?_⟩
      refine List.forall_mem_cons.mpr ⟨?_, heq⟩
      rw [hnone hρ₁, hnone hρ₂, hfree x (.head _)]
    | some c =>
      simp only [hx] at h
      obtain ⟨z, hz, rfl⟩ := h
      have hz' : c.locate ρ₂ = some z := by
        rw [← hz]
        refine Construction.locate_congr ((hdeps c hx).mono fun d ⟨w, hw, hwd⟩ => ?_)
        exact hwd ▸ (heq w hw).symm
      refine ⟨Function.update ρ₂ x.point z, locateAll_cons_eq_some.mpr
        ⟨ρ₂, hρ₂, by simp only [hx]; exact ⟨z, hz', rfl⟩⟩, ?_⟩
      refine List.forall_mem_cons.mpr ⟨by simp, fun w hw => ?_⟩
      rw [Function.update_of_ne (hnew w hw), Function.update_of_ne (hnew w hw), heq w hw]

end Figure

/-! ### The reference frame -/

namespace Frame

/-- The axes of the frame are orthogonal and equally long: the second is the
first one turned. -/
def Square (ρ : Coordinates) : Prop := ρ u ≠ ρ o ∧ ρ v - ρ o = (ρ u - ρ o).turn

/-- The frame at the origin, with axes of length `s`, and all other points as
in `free`. -/
def place (s : ℚ) (free : Coordinates) : Coordinates := fun p =>
  if p = o then (0, 0) else if p = u then (s, 0) else if p = v then (0, s) else free p

theorem ne_of_apart {p : Point} (h : p.label ∉ frameLabels) : p ≠ o ∧ p ≠ u ∧ p ≠ v := by
  refine ⟨?_, ?_, ?_⟩ <;> rintro rfl <;> exact h (by decide)

theorem place_of_apart {p : Point} (h : p.label ∉ frameLabels) (s : ℚ) (free : Coordinates) :
    place s free p = free p := by
  obtain ⟨ho, hu, hv⟩ := ne_of_apart h
  simp only [place, ho, hu, hv, if_false]

theorem place_frame (s : ℚ) (free : Coordinates) :
    place s free o = (0, 0) ∧ place s free u = (s, 0) ∧ place s free v = (0, s) := by
  have huo : u ≠ o := by decide
  have hvo : v ≠ o := by decide
  have hvu : v ≠ u := by decide
  simp [place, huo, hvo, hvu]

theorem square_place {s : ℚ} (hs : s ≠ 0) (free : Coordinates) : Square (place s free) := by
  obtain ⟨ho, hu, hv⟩ := place_frame s free
  simp [Square, ho, hu, hv, hs, Vec.turn]

end Frame

/-- A figure without points of the frame leaves the frame in place. -/
theorem Figure.square_locate {fig : Figure} {free ρ : Coordinates} (ha : fig.Apart)
    (h : fig.locate free = some ρ) (hs : Frame.Square free) : Frame.Square ρ := by
  have hkeep : ∀ p : Point, p.label ∈ frameLabels → ρ p = free p := fun p hp =>
    locateAll_of_not_mem h fun c hc => ha _ hc hp
  unfold Frame.Square
  rw [hkeep Frame.o (by decide), hkeep Frame.u (by decide), hkeep Frame.v (by decide)]
  exact hs

end AreaMethod
