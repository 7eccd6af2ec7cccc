/-
# Figures that are built in order

In an ordered figure all points are different and each is built from points
before it. The steps of a problem build such a figure, without points of the
reference frame, and its goal is about points of the figure
(`Problem.proper_build`). The closure of a figure, which lists the points in
another order, is ordered again (`Figure.ordered_closure`).

Key definitions: `Quantity.On`, `Construction.On`, `Figure.Ordered`,
`Theorem.Proper`.
Key theorems: `Figure.ordered_closure`, `Problem.proper_build`.
-/
import Mathlib
import AreaMethod.Problem
import AreaMethod.Proofs.Outcome
import AreaMethod.Proofs.Value

namespace AreaMethod

/-! ### Points of expressions -/

theorem Point.mem_insertInto {p q : Point} {ps : List Point} :
    q ∈ insertInto p ps ↔ q = p ∨ q ∈ ps := by
  induction ps with
  | nil => simp [insertInto]
  | cons r ps ih =>
    unfold insertInto
    split
    · simp
    next h =>
      obtain rfl := Std.LawfulEqOrd.eq_of_compare h
      simp
    · simp only [List.mem_cons, ih]
      tauto

theorem Point.mem_ascending {p : Point} {ps : List Point} : p ∈ ascending ps ↔ p ∈ ps := by
  unfold ascending
  induction ps with
  | nil => simp
  | cons q ps ih => simp [mem_insertInto, ih]

/-- All points of the quantity have the property `K`. -/
def Quantity.On (K : Point → Prop) (q : Quantity) : Prop := ∀ p ∈ q.points, K p

namespace Quantity

variable {K : Point → Prop} {a b c d : Point}

@[simp]
theorem on_area : (area a b c).On K ↔ K a ∧ K b ∧ K c := by simp [On, points]

@[simp]
theorem on_pythagoras : (pythagoras a b c).On K ↔ K a ∧ K b ∧ K c := by simp [On, points]

@[simp]
theorem on_ratio : (ratio a b c d).On K ↔ K a ∧ K b ∧ K c ∧ K d := by simp [On, points]

theorem mentions_iff {q : Quantity} {p : Point} : q.mentions p = true ↔ p ∈ q.points := by
  simp [mentions]

end Quantity

namespace Expr

variable {e : Expr} {p : Point} {K : Point → Prop}

theorem mem_points : p ∈ e.points ↔ ∃ q ∈ e.quantities, p ∈ q.points := by
  simp [points, Point.mem_ascending]

theorem all_on : e.All (Quantity.On K) ↔ ∀ p ∈ e.points, K p := by
  simp only [mem_points]
  exact ⟨fun h p ⟨q, hq, hp⟩ => h q hq p hp, fun h q hq p hp => h p ⟨q, hq, hp⟩⟩

theorem mentions_eq_false : e.mentions p = false ↔ e.All (Quantity.On (· ≠ p)) := by
  unfold mentions
  rw [List.any_eq_false]
  refine forall₂_congr fun q _ => ?_
  rw [Quantity.mentions_iff]
  exact ⟨fun h r hr heq => h (heq ▸ hr), fun h hp => h p hp rfl⟩

end Expr

/-! ### Constructions -/

/-- All points that the construction refers to have the property `K`. -/
def Construction.On (K : Point → Prop) (c : Construction) : Prop := ∀ d ∈ c.dependencies, K d

namespace Construction

variable {K K' : Point → Prop} {u v w p q : Point} {r : Expr}

@[simp]
theorem on_intersection : (intersection u v p q).On K ↔ K u ∧ K v ∧ K p ∧ K q := by
  simp [On, dependencies]

@[simp]
theorem on_foot : (foot p u v).On K ↔ K p ∧ K u ∧ K v := by simp [On, dependencies]

@[simp]
theorem on_pratio : (pratio w u v r).On K ↔ K w ∧ K u ∧ K v ∧ r.All (Quantity.On K) := by
  simp [On, dependencies, Expr.all_on]

@[simp]
theorem on_tratio : (tratio u v r).On K ↔ K u ∧ K v ∧ r.All (Quantity.On K) := by
  simp [On, dependencies, Expr.all_on]

theorem On.mono {c : Construction} (h : c.On K) (hK : ∀ p, K p → K' p) : c.On K' :=
  fun d hd => hK d (h d hd)

/-- The points of the construction have the property `K`, and its ratio the property
`P`. -/
def Over (K : Point → Prop) (P : Expr → Prop) : Construction → Prop
  | intersection u v p q => K u ∧ K v ∧ K p ∧ K q
  | foot p u v => K p ∧ K u ∧ K v
  | pratio w u v r => K w ∧ K u ∧ K v ∧ P r
  | tratio u v r => K u ∧ K v ∧ P r

theorem on_iff_over {c : Construction} : c.On K ↔ c.Over K (·.All (Quantity.On K)) := by
  cases c with
  | intersection u v p q => exact on_intersection
  | foot p u v => exact on_foot
  | pratio w u v r => exact on_pratio
  | tratio u v r => exact on_tratio

theorem Over.mono {P P' : Expr → Prop} {c : Construction} (h : c.Over K P) (hK : ∀ p, K p → K' p)
    (hP : ∀ e, P e → P' e) : c.Over K' P' := by
  cases c with
  | intersection u v p q => exact ⟨hK _ h.1, hK _ h.2.1, hK _ h.2.2.1, hK _ h.2.2.2⟩
  | foot p u v => exact ⟨hK _ h.1, hK _ h.2.1, hK _ h.2.2⟩
  | pratio w u v r => exact ⟨hK _ h.1, hK _ h.2.1, hK _ h.2.2.1, hP _ h.2.2.2⟩
  | tratio u v r => exact ⟨hK _ h.1, hK _ h.2.1, hP _ h.2.2⟩

/-- The ratio has no packed nodes. -/
abbrev Unpacked (c : Construction) : Prop := c.Over (fun _ => True) Expr.Unpacked

/-- The construction refers to the point, as one of its own or inside its ratio. -/
inductive Uses : Construction → Point → Prop
  | intersection {u v p q d : Point} (h : d ∈ [u, v, p, q]) : Uses (intersection u v p q) d
  | foot {p u v d : Point} (h : d ∈ [p, u, v]) : Uses (foot p u v) d
  | pratio {w u v d : Point} {r : Expr} (h : d ∈ [w, u, v]) : Uses (pratio w u v r) d
  | pratioInside {w u v d : Point} {r : Expr} {q : Quantity} (hq : q ∈ r.quantities)
      (hd : d ∈ q.points) : Uses (pratio w u v r) d
  | tratio {u v d : Point} {r : Expr} (h : d ∈ [u, v]) : Uses (tratio u v r) d
  | tratioInside {u v d : Point} {r : Expr} {q : Quantity} (hq : q ∈ r.quantities)
      (hd : d ∈ q.points) : Uses (tratio u v r) d

theorem mem_dependencies {c : Construction} {d : Point} : d ∈ c.dependencies ↔ c.Uses d := by
  constructor
  · intro h
    cases c with
    | intersection u v p q => exact .intersection h
    | foot p u v => exact .foot h
    | pratio w u v r =>
      rcases List.mem_append.mp (show d ∈ [w, u, v] ++ r.points from h) with h | h
      · exact .pratio h
      · obtain ⟨q, hq, hd⟩ := Expr.mem_points.mp h
        exact .pratioInside hq hd
    | tratio u v r =>
      rcases List.mem_append.mp (show d ∈ [u, v] ++ r.points from h) with h | h
      · exact .tratio h
      · obtain ⟨q, hq, hd⟩ := Expr.mem_points.mp h
        exact .tratioInside hq hd
  · intro h
    cases h with
    | intersection h => exact h
    | foot h => exact h
    | @pratio w u v _ r h => exact List.mem_append_left r.points h
    | @pratioInside w u v _ r q hq hd =>
      exact List.mem_append_right [w, u, v] (Expr.mem_points.mpr ⟨q, hq, hd⟩)
    | @tratio u v _ r h => exact List.mem_append_left r.points h
    | @tratioInside u v _ r q hq hd =>
      exact List.mem_append_right [u, v] (Expr.mem_points.mpr ⟨q, hq, hd⟩)

end Construction

/-! ### Ordered figures -/

namespace Figure

/-- The first point is new and built from the others, which are ordered. -/
inductive Ordered : List Placed → Prop
  | nil : Ordered []
  | cons {x : Placed} {older : List Placed} (hnew : ∀ z ∈ older, z.point ≠ x.point)
      (hdeps : ∀ c, x.construction? = some c → c.On fun d => ∃ z ∈ older, z.point = d)
      (hold : Ordered older) : Ordered (x :: older)

variable {fig : Figure} {p : Point} {c : Construction}

theorem has_iff : fig.has p = true ↔ ∃ z ∈ fig.placed, z.point = p := by
  simp [has]

theorem mem_constructed {placed : List Placed} :
    (p, c) ∈ constructed ⟨placed⟩ ↔ (⟨p, some c⟩ : Placed) ∈ placed := by
  simp only [constructed, List.mem_filterMap, Option.map_eq_some_iff, Prod.mk.injEq]
  constructor
  · rintro ⟨⟨_, _⟩, hx, _, rfl, rfl, rfl⟩
    exact hx
  · exact fun h => ⟨_, h, c, rfl, rfl, rfl⟩

theorem mem_of_construction? (h : fig.construction? p = some c) :
    (⟨p, some c⟩ : Placed) ∈ fig.placed := by
  obtain ⟨⟨q, how⟩, hx, hc⟩ := Option.bind_eq_some_iff.mp h
  obtain rfl : how = some c := hc
  have hq : q = p := by simpa using List.find?_some hx
  exact hq ▸ List.mem_of_find?_eq_some hx

theorem construction?_of_mem {placed : List Placed} (ho : Ordered placed) {x : Placed}
    (h : x ∈ placed) : construction? ⟨placed⟩ x.point = x.construction? := by
  induction ho with
  | nil => cases h
  | @cons z older hnew hdeps hold ih =>
    unfold construction?
    rcases List.mem_cons.mp h with rfl | h
    · simp
    · have hne : z.point ≠ x.point := fun heq => hnew _ h heq.symm
      rw [List.find?_cons_of_neg (by simpa using hne)]
      exact ih h

/-- Constructions refer to points of the figure. -/
theorem on_construction {placed : List Placed} (ho : Ordered placed)
    (h : (⟨p, some c⟩ : Placed) ∈ placed) : c.On fun d => ∃ z ∈ placed, z.point = d := by
  induction ho with
  | nil => cases h
  | @cons x older hnew hdeps hold ih =>
    have holder : c.On fun d => ∃ z ∈ older, z.point = d := by
      rcases List.mem_cons.mp h with rfl | h
      · exact hdeps c rfl
      · exact ih h
    exact holder.mono fun d ⟨z, hz, hzd⟩ => ⟨z, .tail _ hz, hzd⟩

theorem mem_points : p ∈ fig.points ↔ ∃ z ∈ fig.placed, z.point = p := by simp [points]

theorem points_append (newer : List Placed) (x : Placed) (older : List Placed) :
    points ⟨newer ++ x :: older⟩ = points ⟨older⟩ ++ x.point :: points ⟨newer⟩ := by simp [points]

theorem Ordered.of_append {newer older : List Placed} (h : Ordered (newer ++ older)) :
    Ordered older := by
  induction newer with
  | nil => exact h
  | cons x newer ih =>
    cases h with
    | cons hnew hdeps hold => exact ih hold

/-- All points of an ordered figure are different. -/
theorem nodup_points {placed : List Placed} (ho : Ordered placed) : (points ⟨placed⟩).Nodup := by
  unfold points
  rw [List.nodup_reverse]
  induction ho with
  | nil => exact List.nodup_nil
  | @cons x older hnew hdeps hold ih =>
    refine List.nodup_cons.mpr ⟨fun hmem => ?_, ih⟩
    obtain ⟨z, hz, heq⟩ := List.mem_map.mp hmem
    exact hnew z hz heq

/-- In an ordered figure, the points of a construction stand before the point that
it gives. -/
theorem older_of_mem_dependencies {newer older : List Placed} {d : Point}
    (ho : Ordered (newer ++ ⟨p, some c⟩ :: older)) (hd : d ∈ c.dependencies) :
    d ∈ points ⟨older⟩ ∧ (points ⟨newer ++ ⟨p, some c⟩ :: older⟩).idxOf d <
      (points ⟨newer ++ ⟨p, some c⟩ :: older⟩).idxOf p := by
  have hlast : d ∈ points ⟨older⟩ ∧ p ∉ points ⟨older⟩ := by
    cases ho.of_append with
    | cons hnew hdeps hold =>
      refine ⟨mem_points.mpr (hdeps c rfl d hd), fun hmem => ?_⟩
      obtain ⟨z, hz, heq⟩ := mem_points.mp hmem
      exact hnew z hz heq
  obtain ⟨hd, hp⟩ := hlast
  rw [points_append, List.idxOf_append_of_mem hd, List.idxOf_append_of_notMem hp]
  exact ⟨hd, (List.idxOf_lt_length_of_mem hd).trans_le (Nat.le_add_right _ _)⟩

/-- The constructed points of an ordered figure are different. -/
theorem nodup_constructed {placed : List Placed} (ho : Ordered placed) :
    ((constructed ⟨placed⟩).map Prod.fst).Nodup := by
  induction ho with
  | nil => exact List.nodup_nil
  | @cons x older hnew hdeps hold ih =>
    obtain ⟨q, how⟩ := x
    cases how with
    | none => exact ih
    | some c =>
      refine List.nodup_cons.mpr ⟨fun hmem => ?_, ih⟩
      obtain ⟨⟨q', c'⟩, hc', rfl⟩ := List.mem_map.mp hmem
      exact hnew _ (mem_constructed.mp hc') rfl

/-- While the points `ps` are still to be eliminated, `p` may occur: if it is
constructed, it is one of them. -/
def Pending (fig : Figure) (ps : List Point) (p : Point) : Prop :=
  ∀ c, fig.construction? p = some c → p ∈ ps

/-- Each of the points is constructed from points that may occur after its
elimination. -/
def Descending (fig : Figure) : List Point → Prop
  | [] => True
  | p :: ps => (∃ c, fig.construction? p = some c ∧ c.On (fig.Pending ps)) ∧ fig.Descending ps

theorem pending_constructed (fig : Figure) (p : Point) :
    fig.Pending (fig.constructed.map Prod.fst) p :=
  fun _ hc => List.mem_map.mpr ⟨(p, _), mem_constructed.mpr (mem_of_construction? hc), rfl⟩

/-- **One pass suffices.** The constructed points of an ordered figure, the most
recent one first, can be eliminated one after the other. -/
theorem descending_constructed (ho : Ordered fig.placed) :
    fig.Descending (fig.constructed.map Prod.fst) := by
  have hall : ∀ {placed : List Placed}, Ordered placed → (∀ z ∈ placed, z ∈ fig.placed) →
      fig.Descending ((constructed ⟨placed⟩).map Prod.fst) := by
    intro placed hp
    induction hp with
    | nil => exact fun _ => trivial
    | @cons x older hnew hdeps hold ih =>
      intro hsub
      have hrest := ih fun z hz => hsub z (.tail _ hz)
      obtain ⟨q, how⟩ := x
      cases how with
      | none => exact hrest
      | some c =>
        refine ⟨⟨c, construction?_of_mem ho (hsub _ (.head _)), (hdeps c rfl).mono ?_⟩, hrest⟩
        rintro d ⟨⟨_, how⟩, hz, rfl⟩ c' hc'
        obtain rfl : how = some c' :=
          (construction?_of_mem ho (hsub _ (.tail _ hz))).symm.trans hc'
        exact List.mem_map.mpr ⟨(_, c'), mem_constructed.mpr hz, rfl⟩
  exact hall ho fun _ => id

/-! ### Closures -/

/-- `fig'` is an ordered figure that holds all of `fig` and the points `ps`, and
other points only as far as there are candidates for them. -/
structure Visited (candidates : List Placed) (fig : Figure) (ps : List Point) (fig' : Figure) :
    Prop where
  ordered : Ordered fig'.placed
  held : ∀ z ∈ fig.placed, z ∈ fig'.placed
  found : ∀ p ∈ ps, ∃ z ∈ fig'.placed, z.point = p
  origin : ∀ z ∈ fig'.placed, z ∈ fig.placed ∨ z.point ∈ ps ∨ ∃ x ∈ candidates, x.point = z.point

theorem Visited.refl {candidates : List Placed} (ho : Ordered fig.placed) {ps : List Point}
    (h : ∀ p ∈ ps, ∃ z ∈ fig.placed, z.point = p) : Visited candidates fig ps fig :=
  ⟨ho, fun _ => id, h, fun _ => .inl⟩

/-- Adding a new point on top. -/
theorem Visited.cons {candidates : List Placed} {fig' : Figure} {ps : List Point} {x : Placed}
    (h : Visited candidates fig ps fig') (hnew : ∀ z ∈ fig'.placed, z.point ≠ x.point)
    (hdeps : ∀ c, x.construction? = some c → c.On fun d => d ∈ ps)
    (hps : ∀ p ∈ ps, ∃ z ∈ candidates, z.point = p) :
    Visited candidates fig [x.point] ⟨x :: fig'.placed⟩ where
  ordered := .cons hnew (fun c hc => (hdeps c hc).mono h.found) h.ordered
  held z hz := .tail _ (h.held z hz)
  found p hp := ⟨x, .head _, (List.mem_singleton.mp hp).symm⟩
  origin z hz := by
    rcases List.mem_cons.mp hz with rfl | hz
    · exact .inr (.inl (.head _))
    · rcases h.origin z hz with hz | hz | hz
      · exact .inl hz
      · exact .inr (.inr (hps _ hz))
      · exact .inr (.inr hz)

theorem Visited.weaken {candidates candidates' : List Placed} {fig' : Figure} {ps : List Point}
    (h : Visited candidates fig ps fig') (hsub : ∀ x ∈ candidates, x ∈ candidates') :
    Visited candidates' fig ps fig' :=
  { h with
    origin := fun z hz => (h.origin z hz).imp id (Or.imp id fun ⟨x, hx, heq⟩ => ⟨x, hsub x hx, heq⟩) }

theorem visited_foldl {candidates : List Placed} {g : Figure → Point → Figure}
    (hg : ∀ fig p, Ordered fig.placed → Visited candidates fig [p] (g fig p)) :
    ∀ (ps : List Point) (fig : Figure), Ordered fig.placed →
      Visited candidates fig ps (ps.foldl g fig)
  | [], fig, ho => .refl ho fun _ hp => (nomatch hp)
  | p :: ps, fig, ho => by
    have hp := hg fig p ho
    have hps := visited_foldl hg ps (g fig p) hp.ordered
    refine ⟨hps.ordered, fun z hz => hps.held z (hp.held z hz), fun q hq => ?_, fun z hz => ?_⟩
    · rcases List.mem_cons.mp hq with rfl | hq
      · obtain ⟨z, hz, hzp⟩ := hp.found q (.head _)
        exact ⟨z, hps.held z hz, hzp⟩
      · exact hps.found q hq
    · rcases hps.origin z hz with hz | hz | hz
      · rcases hp.origin z hz with hz | hz | hz
        · exact .inl hz
        · exact .inr (.inl (List.mem_singleton.mp hz ▸ .head _))
        · exact .inr (.inr hz)
      · exact .inr (.inl (.tail _ hz))
      · exact .inr (.inr hz)

theorem visited_visit {candidates : List Placed} (hc : Ordered candidates) :
    ∀ (fig : Figure) (p : Point), Ordered fig.placed →
      Visited candidates fig [p] (visit candidates fig p) := by
  have hpresent : ∀ (candidates : List Placed) (fig : Figure) (p : Point), Ordered fig.placed →
      fig.has p → Visited candidates fig [p] fig := by
    intro candidates fig p ho hp
    exact .refl ho fun q hq => List.mem_singleton.mp hq ▸ has_iff.mp hp
  have hnothing : ∀ (candidates : List Placed) (fig : Figure), Ordered fig.placed →
      Visited candidates fig [] fig := fun _ _ ho => .refl ho fun _ h => (nomatch h)
  have habsent : ∀ (fig : Figure) (p : Point), ¬ fig.has p → ∀ z ∈ fig.placed, z.point ≠ p :=
    fun fig p hp z hz heq => hp (has_iff.mpr ⟨z, hz, heq⟩)
  induction hc with
  | nil =>
    intro fig p ho
    unfold visit
    split_ifs with hp
    · exact hpresent [] fig p ho hp
    · exact Visited.cons (x := ⟨p, none⟩) (hnothing [] fig ho) (habsent fig p hp)
        (fun _ h => (nomatch h)) fun _ h => (nomatch h)
  | @cons x older hnew hdeps hold ih =>
    intro fig p ho
    unfold visit
    split_ifs with hx hp
    · exact hpresent _ fig p ho hp
    · subst hx
      split
      next hnone =>
        exact (hnothing _ fig ho).cons (habsent fig _ hp)
          (fun c hc => by rw [hnone] at hc; cases hc) fun _ h => (nomatch h)
      next c hsome =>
        have hc := hdeps c hsome
        have hfold := visited_foldl ih c.dependencies fig ho
        refine (hfold.weaken fun z hz => .tail x hz).cons (fun z hz => ?_) ?_ ?_
        · rcases hfold.origin z hz with hz | hz | ⟨w, hw, hwz⟩
          · exact habsent fig _ hp z hz
          · obtain ⟨w, hw, hwz⟩ := hc _ hz
            exact hwz ▸ hnew w hw
          · exact hwz ▸ hnew w hw
        · intro c' hc' d hd
          rw [hsome] at hc'
          cases hc'
          exact hd
        · intro d hd
          obtain ⟨w, hw, hwd⟩ := hc d hd
          exact ⟨w, .tail _ hw, hwd⟩
    · exact (ih fig p ho).weaken fun z hz => .tail _ hz

/-- **Closures are ordered.** -/
theorem ordered_closure (ho : Ordered fig.placed) (roots : List Point) :
    Ordered (fig.closure roots).placed :=
  (visited_foldl (visited_visit ho) roots empty .nil).ordered

end Figure

/-! ### Reading expressions -/

namespace Expr

variable {fig : Figure}

/-- Every quantity is about points of the figure. -/
abbrev Within (fig : Figure) (e : Expr) : Prop := e.All (Quantity.On fun p => fig.has p = true)

theorem has_of_readLabel {s : SExpr} {p : Point} (h : readLabel fig s = .ok p) :
    fig.has p = true := by
  cases s with
  | atom name =>
    simp only [readLabel] at h
    split_ifs at h with hp
    cases h
    exact hp
  | list items => cases h

/-! The reader makes no packed nodes, so what is decided at the leaves holds of
an expression that was read if it holds of the quantities over points of the
figure. -/

section Leaves

variable {P : Expr → Prop} (hP : Leafwise P)
  (hq : ∀ q, q.On (fun p => fig.has p = true) → P (quantity q))

include hP

omit hq in
theorem Leafwise.holds_power {e : Expr} (he : P e) (n : ℤ) : P (power e n) := by
  unfold power
  cases h : List.replicate n.natAbs e with
  | nil =>
    simp only
    split_ifs
    · exact hP.on_fraction.mpr ⟨hP.on_number 1, hP.on_number 1⟩
    · exact hP.on_number 1
  | cons f fs =>
    have hmem : ∀ g ∈ f :: fs, P g := by
      intro g hg
      rw [← h] at hg
      exact List.eq_of_mem_replicate hg ▸ he
    have hproduct : P (fs.foldl product f) :=
      List.foldlRecOn fs product (hmem f (.head _)) fun _ hd g hg =>
        hP.on_product.mpr ⟨hd, hmem g (.tail _ hg)⟩
    simp only
    split_ifs
    · exact hP.on_fraction.mpr ⟨hP.on_number 1, hproduct⟩
    · exact hproduct

/-- The operands that could be read have the property `P`. -/
def OperandsHave (P : Expr → Prop) (operands : List (Except ReadError Expr)) : Prop :=
  ∀ x ∈ operands, ∀ e, x = .ok e → P e

omit hP in
theorem holds_readChain {operator : String} {node : Expr → Expr → Expr}
    {operands : List (Except ReadError Expr)} {e : Expr} (hnode : ∀ a b, P a → P b → P (node a b))
    (hops : OperandsHave P operands) (h : readChain operator node operands = .ok e) : P e := by
  have hfold : ∀ (xs : List (Except ReadError Expr)) (a : Expr), OperandsHave P xs → P a →
      xs.foldlM (fun acc operand => do return node acc (← operand)) a = .ok e → P e := by
    intro xs
    induction xs with
    | nil => intro a _ ha h; cases h; exact ha
    | cons x xs ih =>
      intro a hxs ha h
      obtain ⟨b, hb, h⟩ := bind_eq_ok.mp h
      obtain ⟨c, hc, hb⟩ := bind_eq_ok.mp hb
      cases hb
      exact ih _ (fun y hy => hxs y (.tail _ hy)) (hnode a c ha (hxs x (.head _) c hc)) h
  match operands, hops, h with
  | x :: y :: rest, hops, h =>
    obtain ⟨a, ha, h⟩ := bind_eq_ok.mp h
    exact hfold (y :: rest) a (fun z hz => hops z (.tail _ hz)) (hops x (.head _) a ha) h
  | [], _, h => cases h
  | [_], _, h => cases h

include hq

theorem Leafwise.holds_apply {operator : String} {arguments : List SExpr}
    {operands : List (Except ReadError Expr)} {e : Expr} (hops : OperandsHave P operands)
    (h : apply fig operator arguments operands = .ok e) : P e := by
  unfold apply at h
  simp only at h
  split at h
  · split at h
    next a b c =>
      obtain ⟨a, ha, h⟩ := bind_eq_ok.mp h
      obtain ⟨b, hb, h⟩ := bind_eq_ok.mp h
      obtain ⟨c, hc, h⟩ := bind_eq_ok.mp h
      cases h
      exact hq _ (Quantity.on_area.mpr
        ⟨has_of_readLabel ha, has_of_readLabel hb, has_of_readLabel hc⟩)
    · cases h
  · split at h
    next a b c =>
      obtain ⟨a, ha, h⟩ := bind_eq_ok.mp h
      obtain ⟨b, hb, h⟩ := bind_eq_ok.mp h
      obtain ⟨c, hc, h⟩ := bind_eq_ok.mp h
      cases h
      exact hq _ (Quantity.on_pythagoras.mpr
        ⟨has_of_readLabel ha, has_of_readLabel hb, has_of_readLabel hc⟩)
    · cases h
  · split at h
    next a b c d =>
      obtain ⟨a, ha, h⟩ := bind_eq_ok.mp h
      obtain ⟨b, hb, h⟩ := bind_eq_ok.mp h
      obtain ⟨c, hc, h⟩ := bind_eq_ok.mp h
      obtain ⟨d, hd, h⟩ := bind_eq_ok.mp h
      cases h
      exact hq _ (Quantity.on_ratio.mpr
        ⟨has_of_readLabel ha, has_of_readLabel hb, has_of_readLabel hc, has_of_readLabel hd⟩)
    · cases h
  · split at h
    next x =>
      obtain ⟨a, ha, h⟩ := bind_eq_ok.mp h
      cases h
      exact hP.on_neg.mpr (hops _ (.head _) a ha)
    next x y =>
      obtain ⟨a, ha, h⟩ := bind_eq_ok.mp h
      obtain ⟨b, hb, h⟩ := bind_eq_ok.mp h
      cases h
      exact hP.on_sum.mpr
        ⟨hops _ (.head _) a ha, hP.on_neg.mpr (hops _ (.tail _ (.head _)) b hb)⟩
    · cases h
  · exact holds_readChain (fun _ _ ha hb => hP.on_sum.mpr ⟨ha, hb⟩) hops h
  · exact holds_readChain (fun _ _ ha hb => hP.on_product.mpr ⟨ha, hb⟩) hops h
  · split at h
    next x y =>
      obtain ⟨a, ha, h⟩ := bind_eq_ok.mp h
      obtain ⟨b, hb, h⟩ := bind_eq_ok.mp h
      cases h
      exact hP.on_fraction.mpr ⟨hops _ (.head _) a ha, hops _ (.tail _ (.head _)) b hb⟩
    · cases h
  · split at h
    next x y _ n =>
      obtain ⟨a, ha, h⟩ := bind_eq_ok.mp h
      obtain ⟨n, _, h⟩ := bind_eq_ok.mp h
      cases h
      exact hP.holds_power (hops _ (.head _) a ha) n
    · cases h
  · cases h

end Leaves

mutual

theorem Leafwise.holds_ofSExpr {reader : TextReader} {P : Expr → Prop} (hP : Leafwise P)
    (hq : ∀ q, q.On (fun p => fig.has p = true) → P (quantity q)) :
    ∀ {s : SExpr} {e : Expr}, ofSExpr reader fig s = .ok e → P e
  | .atom text, e, h => by
    unfold ofSExpr at h
    split at h
    · cases h
    · cases h
      exact hP.on_number _
  | .list [], e, h => by cases h
  | .list (.list _ :: _), e, h => by cases h
  | .list (.atom operator :: arguments), e, h =>
    hP.holds_apply hq (hP.operandsHave_ofSExprs hq arguments) h

theorem Leafwise.operandsHave_ofSExprs {reader : TextReader} {P : Expr → Prop} (hP : Leafwise P)
    (hq : ∀ q, q.On (fun p => fig.has p = true) → P (quantity q)) :
    ∀ ss : List SExpr, OperandsHave P (ofSExprs reader fig ss)
  | [], x, hx => (nomatch hx)
  | s :: ss, x, hx => by
    intro e he
    rcases List.mem_cons.mp hx with rfl | hx
    · exact hP.holds_ofSExpr hq he
    · exact hP.operandsHave_ofSExprs hq ss x hx e he

end

end Expr

/-! ### Problems -/

namespace Figure

variable {fig : Figure}

theorem has_of_point {label : String} {p : Point} (h : fig.point label = .ok p) :
    fig.has p = true := by
  unfold point at h
  split_ifs at h with hp
  cases h
  exact hp

theorem expression_of_read {text : String} {s : SExpr} {e : Expr}
    (hread : SExpr.read text = .ok (some s)) (he : Expr.ofSExpr .standard fig s = .ok e) :
    fig.expression text = .ok e := by
  have hsexpr : TextReader.standard.sexpr text = .ok (some s) := hread
  simp only [expression, readExpr, readExprBy, hsexpr, he]
  rfl

theorem holds_expression {P : Expr → Prop} (hP : Expr.Leafwise P)
    (hq : ∀ q, q.On (fun p => fig.has p = true) → P (.quantity q)) {text : String} {e : Expr}
    (h : fig.expression text = .ok e) : P e := by
  unfold expression readExpr readExprBy at h
  cases hread : TextReader.standard.sexpr text with
  | error f => rw [hread] at h; cases h
  | ok s? =>
    rw [hread] at h
    cases s? with
    | none => cases h
    | some s =>
      cases hs : Expr.ofSExpr .standard fig s with
      | error f => simp only [hs] at h; cases h
      | ok e' =>
        simp only [hs] at h
        cases h
        exact hP.holds_ofSExpr hq hs

/-- No point of the figure belongs to the reference frame. -/
def Apart (fig : Figure) : Prop := ∀ z ∈ fig.placed, z.point.label ∉ frameLabels

/-- The ratios of the constructions have no packed nodes. -/
def Unpacked (fig : Figure) : Prop :=
  ∀ z ∈ fig.placed, ∀ c, z.construction? = some c → c.Unpacked

end Figure

/-! ### Steps -/

theorem Figure.run_add (fig : Figure) (p : Point) (c : Option Construction) :
    add p c fig = if fig.has p || frameLabels.contains p.label then
      (.error (.duplicatePoint p.label), fig) else (.ok p, ⟨⟨p, c⟩ :: fig.placed⟩) := by
  change (if fig.has p || frameLabels.contains p.label then throw (.duplicatePoint p.label) else
    (do set (Figure.mk (⟨p, c⟩ :: fig.placed)); return p) : FigureM Point) fig = _
  split_ifs <;> rfl

namespace Step

variable {fig fig' : Figure} {step : Step}

/-- A step looks up what its point is built from in the figure as it is. -/
theorem run_take (step : Step) (fig : Figure) :
    step.take fig = match step.construction fig with
      | .ok c => Figure.add step.point c fig
      | .error f => (.error f, fig) := by
  change (liftExcept (step.construction fig) >>= Figure.add step.point : FigureM Point) fig = _
  cases step.construction fig <;> rfl

/-- **Steps that do not fail.** -/
theorem apply_eq_ok : step.apply fig = .ok fig' ↔ ∃ c, step.construction fig = .ok c ∧
    fig.has step.point = false ∧ step.point.label ∉ frameLabels ∧
    fig' = ⟨⟨step.point, c⟩ :: fig.placed⟩ := by
  unfold apply
  rw [run_take]
  cases step.construction fig with
  | error f => simp
  | ok c =>
    simp only [Figure.run_add, Except.ok.injEq, exists_eq_left']
    by_cases hnew : fig.has step.point = false ∧ step.point.label ∉ frameLabels
    · simp [hnew, eq_comm]
    · have htaken : (fig.has step.point || frameLabels.contains step.point.label) = true := by
        simpa [Classical.or_iff_not_imp_left] using hnew
      rw [if_pos htaken]
      simp only [reduceCtorEq, false_iff]
      exact fun h => hnew ⟨h.1, h.2.1⟩

/-- What a point is built from is in the figure already, and so is what its ratio
mentions. -/
theorem over_construction {P : Expr → Prop} (hP : Expr.Leafwise P)
    (hq : ∀ q, q.On (fun p => fig.has p = true) → P (.quantity q)) {c : Construction}
    (h : step.construction fig = .ok (some c)) : c.Over (fun p => fig.has p = true) P := by
  cases step with
  | free label => cases h
  | intersection label u v p q =>
    obtain ⟨u, hu, h⟩ := bind_eq_ok.mp h
    obtain ⟨v, hv, h⟩ := bind_eq_ok.mp h
    obtain ⟨p, hp, h⟩ := bind_eq_ok.mp h
    obtain ⟨q, hq, h⟩ := bind_eq_ok.mp h
    cases h
    exact ⟨Figure.has_of_point hu, Figure.has_of_point hv, Figure.has_of_point hp,
      Figure.has_of_point hq⟩
  | foot label p u v =>
    obtain ⟨p, hp, h⟩ := bind_eq_ok.mp h
    obtain ⟨u, hu, h⟩ := bind_eq_ok.mp h
    obtain ⟨v, hv, h⟩ := bind_eq_ok.mp h
    cases h
    exact ⟨Figure.has_of_point hp, Figure.has_of_point hu, Figure.has_of_point hv⟩
  | pratio label w u v r =>
    obtain ⟨w, hw, h⟩ := bind_eq_ok.mp h
    obtain ⟨u, hu, h⟩ := bind_eq_ok.mp h
    obtain ⟨v, hv, h⟩ := bind_eq_ok.mp h
    obtain ⟨r, hr, h⟩ := bind_eq_ok.mp h
    cases h
    exact ⟨Figure.has_of_point hw, Figure.has_of_point hu, Figure.has_of_point hv,
      Figure.holds_expression hP hq hr⟩
  | tratio label u v r =>
    obtain ⟨u, hu, h⟩ := bind_eq_ok.mp h
    obtain ⟨v, hv, h⟩ := bind_eq_ok.mp h
    obtain ⟨r, hr, h⟩ := bind_eq_ok.mp h
    cases h
    exact ⟨Figure.has_of_point hu, Figure.has_of_point hv, Figure.holds_expression hP hq hr⟩
  | midpoint label a b =>
    obtain ⟨a, ha, h⟩ := bind_eq_ok.mp h
    obtain ⟨b, hb, h⟩ := bind_eq_ok.mp h
    cases h
    exact ⟨Figure.has_of_point ha, Figure.has_of_point ha, Figure.has_of_point hb,
      hP.on_fraction.mpr ⟨hP.on_number 1, hP.on_number 2⟩⟩

theorem ordered_apply (h : step.apply fig = .ok fig')
    (ho : Figure.Ordered fig.placed) (ha : fig.Apart) :
    Figure.Ordered fig'.placed ∧ fig'.Apart := by
  obtain ⟨c?, hc, hnew, hlabel, rfl⟩ := apply_eq_ok.mp h
  refine ⟨.cons (fun z hz heq => ?_) ?_ ho, List.forall_mem_cons.mpr ⟨hlabel, ha⟩⟩
  · rw [Figure.has_iff.mpr ⟨z, hz, heq⟩] at hnew
    cases hnew
  · intro c hsome
    rw [show c? = some c from hsome] at hc
    have hon := Construction.on_iff_over.mpr
      (over_construction (Expr.leafwise_all _) (fun _ => Expr.all_quantity.mpr) hc)
    exact hon.mono fun p => Figure.has_iff.mp

end Step

/-- A theorem about points of an ordered figure without points of the
frame, with plain nodes only. -/
structure Theorem.Proper (thm : Theorem) : Prop where
  ordered : Figure.Ordered thm.figure.placed
  apart : thm.figure.Apart
  within : thm.statement.zeroExpr.Within thm.figure
  unpacked : thm.statement.zeroExpr.Unpacked
  constructions : thm.figure.Unpacked

/-- What is decided at the leaves holds of the expression of a goal if it holds of
the quantities over points of the figure. -/
theorem Goal.holds_resolve {P : Expr → Prop} (hP : Expr.Leafwise P) {fig : Figure}
    (hq : ∀ q, q.On (fun p => fig.has p = true) → P (.quantity q)) {goal : Goal} {s : Statement}
    (h : goal.resolve fig = .ok s) : P s.zeroExpr := by
  have hfour : ∀ {a b c d : String} {statement : Point → Point → Point → Point → Statement},
      fourPoints fig a b c d statement = .ok s →
      ∃ a b c d, s = statement a b c d ∧
        fig.has a = true ∧ fig.has b = true ∧ fig.has c = true ∧ fig.has d = true := by
    intro a b c d statement h
    obtain ⟨a, ha, h⟩ := bind_eq_ok.mp h
    obtain ⟨b, hb, h⟩ := bind_eq_ok.mp h
    obtain ⟨c, hc, h⟩ := bind_eq_ok.mp h
    obtain ⟨d, hd, h⟩ := bind_eq_ok.mp h
    cases h
    exact ⟨a, b, c, d, rfl, Figure.has_of_point ha, Figure.has_of_point hb,
      Figure.has_of_point hc, Figure.has_of_point hd⟩
  cases goal with
  | collinear a b c =>
    obtain ⟨a, ha, h⟩ := bind_eq_ok.mp h
    obtain ⟨b, hb, h⟩ := bind_eq_ok.mp h
    obtain ⟨c, hc, h⟩ := bind_eq_ok.mp h
    cases h
    exact hq _ (Quantity.on_area.mpr
      ⟨Figure.has_of_point ha, Figure.has_of_point hb, Figure.has_of_point hc⟩)
  | parallel =>
    obtain ⟨a, b, c, d, rfl, ha, hb, hc, hd⟩ := hfour h
    exact hP.on_sum.mpr ⟨hq _ (Quantity.on_area.mpr ⟨ha, hc, hb⟩),
      hq _ (Quantity.on_area.mpr ⟨ha, hb, hd⟩)⟩
  | perpendicular =>
    obtain ⟨a, b, c, d, rfl, ha, hb, hc, hd⟩ := hfour h
    exact hP.on_sum.mpr ⟨hq _ (Quantity.on_pythagoras.mpr ⟨ha, hc, hd⟩),
      hP.on_neg.mpr (hq _ (Quantity.on_pythagoras.mpr ⟨hb, hc, hd⟩))⟩
  | equalLength =>
    obtain ⟨a, b, c, d, rfl, ha, hb, hc, hd⟩ := hfour h
    exact hP.on_sum.mpr ⟨hq _ (Quantity.on_pythagoras.mpr ⟨ha, hb, ha⟩),
      hP.on_neg.mpr (hq _ (Quantity.on_pythagoras.mpr ⟨hc, hd, hc⟩))⟩
  | equal left right =>
    obtain ⟨left, hl, h⟩ := bind_eq_ok.mp h
    obtain ⟨right, hr, h⟩ := bind_eq_ok.mp h
    cases h
    exact hP.on_sum.mpr ⟨Figure.holds_expression hP hq hl,
      hP.on_neg.mpr (Figure.holds_expression hP hq hr)⟩

theorem Goal.within_resolve {fig : Figure} {goal : Goal} {s : Statement}
    (h : goal.resolve fig = .ok s) : s.zeroExpr.Within fig :=
  holds_resolve (Expr.leafwise_all _) (fun _ => Expr.all_quantity.mpr) h

/-- The figure is the result of steps, taken one after the other. -/
def Figure.Built (fig : Figure) : Prop :=
  ∃ steps : List Step, steps.foldlM (fun fig step => step.apply fig) Figure.empty = .ok fig

namespace Figure

variable {fig : Figure}

/-- **What each step preserves** holds of the figure in the end. -/
theorem Built.preserved {P : Figure → Prop} (h : fig.Built) (hempty : P empty)
    (hstep : ∀ (step : Step) (fig fig' : Figure), step.apply fig = .ok fig' → P fig → P fig') :
    P fig := by
  have hsteps : ∀ (steps : List Step) (fig fig' : Figure),
      steps.foldlM (fun fig step => step.apply fig) fig = .ok fig' → P fig → P fig' := by
    intro steps
    induction steps with
    | nil => intro fig fig' h hP; cases h; exact hP
    | cons step steps ih =>
      intro fig fig' h hP
      obtain ⟨next, hnext, h⟩ := bind_eq_ok.mp h
      exact ih next fig' h (hstep step fig next hnext hP)
  obtain ⟨steps, hfig⟩ := h
  exact hsteps steps .empty fig hfig hempty

theorem Built.ordered_apart (h : fig.Built) : Ordered fig.placed ∧ fig.Apart :=
  h.preserved (P := fun fig => Ordered fig.placed ∧ fig.Apart) ⟨.nil, fun _ hz => (nomatch hz)⟩
    fun _ _ _ hstep h => Step.ordered_apply hstep h.1 h.2

/-- Ratios are read from texts, so they have plain nodes only. -/
theorem Built.unpacked (h : fig.Built) : fig.Unpacked := by
  refine h.preserved (fun _ hz => (nomatch hz)) fun step fig fig' hstep hfig => ?_
  obtain ⟨c?, hc, -, -, rfl⟩ := Step.apply_eq_ok.mp hstep
  refine List.forall_mem_cons.mpr ⟨fun c hsome => ?_, hfig⟩
  rw [show c? = some c from hsome] at hc
  exact (Step.over_construction Expr.leafwise_unpacked (fun _ _ => trivial) hc).mono
    (fun _ _ => trivial) fun _ => id

theorem Unpacked.of_construction? (h : fig.Unpacked) {p : Point} {c : Construction}
    (hc : fig.construction? p = some c) : c.Unpacked := h _ (mem_of_construction? hc) c rfl

end Figure

/-- **Problems build proper theorems.** -/
theorem Problem.proper_build {p : Problem} {thm : Theorem} (h : p.build = .ok thm) :
    thm.Proper := by
  obtain ⟨fig, hfig, h⟩ := bind_eq_ok.mp h
  obtain ⟨s, hs, h⟩ := bind_eq_ok.mp h
  cases h
  have hbuilt : fig.Built := ⟨p.steps, hfig⟩
  exact ⟨hbuilt.ordered_apart.1, hbuilt.ordered_apart.2, Goal.within_resolve hs,
    Goal.holds_resolve Expr.leafwise_unpacked (fun _ _ => trivial) hs, hbuilt.unpacked⟩

end AreaMethod
