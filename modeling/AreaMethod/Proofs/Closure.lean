/-
# What a closure holds

The closure of a figure over some of its points, the roots, is the least part
of the figure that holds them and everything that they are built from. A point
is built from the points that its construction refers to, those inside its
ratio among them.

The closure visits the roots depth first, and what a root needs comes before
it. The invariant of the visit (`Figure.Reached`) says that whatever is added
is a point of the figure that some root reaches. Nothing is missing, since a
closure is ordered.

Key definitions: `Figure.DependsOn`, `Figure.Reaches`.
Key theorems: `Figure.mem_closure_iff`, `Figure.closure_exact`.
-/
import Mathlib
import AreaMethod.Proofs.Figures

namespace AreaMethod
namespace Figure

/-! ### Reaching points -/

/-- The point is constructed, and its construction refers to the other one. -/
def DependsOn (fig : Figure) (p d : Point) : Prop :=
  ∃ c, fig.construction? p = some c ∧ c.Uses d

/-- The points that `p` is built from, directly or through others, and `p` itself. -/
abbrev Reaches (fig : Figure) : Point → Point → Prop := Relation.ReflTransGen fig.DependsOn

variable {fig : Figure} {p : Point}

theorem Reaches.older {x : Placed} {older : List Placed} (ho : Ordered (x :: older)) {p q : Point}
    (h : Reaches ⟨older⟩ p q) : Reaches ⟨x :: older⟩ p q := by
  refine Relation.ReflTransGen.mono ?_ _ _ h
  rintro p d ⟨c, hc, hd⟩
  have hmem : (⟨p, some c⟩ : Placed) ∈ x :: older := .tail _ (mem_of_construction? hc)
  exact ⟨c, construction?_of_mem ho hmem, hd⟩

/-! ### Visiting -/

/-- What `fig'` holds beyond `fig` are candidates that the points `ps` reach. -/
def Reached (candidates : List Placed) (fig : Figure) (ps : List Point) (fig' : Figure) : Prop :=
  ∀ z ∈ fig'.placed, z ∈ fig.placed ∨ z ∈ candidates ∧ ∃ p ∈ ps, Reaches ⟨candidates⟩ p z.point

theorem reached_foldl {candidates : List Placed} {g : Figure → Point → Figure}
    (hg : ∀ fig p, (∃ x ∈ candidates, x.point = p) → Reached candidates fig [p] (g fig p)) :
    ∀ (ps : List Point) (fig : Figure), (∀ p ∈ ps, ∃ x ∈ candidates, x.point = p) →
      Reached candidates fig ps (ps.foldl g fig)
  | [], _, _ => fun _ hz => .inl hz
  | p :: ps, fig, hps => by
    intro z hz
    rcases reached_foldl hg ps (g fig p) (fun q hq => hps q (.tail _ hq)) z hz with
      hz | ⟨hz, q, hq, hreach⟩
    · refine (hg fig p (hps p (.head _)) z hz).imp id fun h => ?_
      obtain ⟨hz, q, hq, hreach⟩ := h
      exact ⟨hz, q, List.mem_singleton.mp hq ▸ .head _, hreach⟩
    · exact .inr ⟨hz, q, .tail _ hq, hreach⟩

theorem reached_visit {candidates : List Placed} (hc : Ordered candidates) :
    ∀ (fig : Figure) (p : Point), (∃ x ∈ candidates, x.point = p) →
      Reached candidates fig [p] (visit candidates fig p) := by
  -- along the list of candidates, as the visit goes: what a point is built from stands
  -- further down
  induction hc with
  | nil => rintro fig p ⟨x, hx, -⟩; cases hx
  | @cons x older hnew hdeps hold ih =>
    have ho : Ordered (x :: older) := .cons hnew hdeps hold
    rintro fig p ⟨w, hw, hwp⟩
    unfold visit
    split_ifs with hx hp
    · exact fun z hz => .inl hz
    · subst hx
      have hself : x ∈ x :: older ∧ ∃ p ∈ [x.point], Reaches ⟨x :: older⟩ p x.point :=
        ⟨.head _, x.point, .head _, .refl⟩
      split
      · exact List.forall_mem_cons.mpr ⟨.inr hself, fun z hz => .inl hz⟩
      next c hsome =>
        refine List.forall_mem_cons.mpr ⟨.inr hself, fun z hz => ?_⟩
        rcases reached_foldl ih c.dependencies fig (hdeps c hsome) z hz with hz | ⟨hz, d, hd, hreach⟩
        · exact .inl hz
        · have hstep : DependsOn ⟨x :: older⟩ x.point d :=
            ⟨c, (construction?_of_mem ho (.head _)).trans hsome, Construction.mem_dependencies.mp hd⟩
          exact .inr ⟨.tail _ hz, x.point, .head _, .head hstep (hreach.older ho)⟩
    · have hw : w ∈ older := (List.mem_cons.mp hw).resolve_left fun heq => hx (heq ▸ hwp)
      intro z hz
      refine (ih fig p ⟨w, hw, hwp⟩ z hz).imp id fun h => ?_
      obtain ⟨hz, q, hq, hreach⟩ := h
      exact ⟨.tail _ hz, q, hq, hreach.older ho⟩

/-- The closure holds points of the figure as they stand there, and only points that
the roots reach. -/
theorem reached_closure (ho : Ordered fig.placed) {roots : List Point}
    (hroots : ∀ p ∈ roots, fig.has p = true) {z : Placed} (hz : z ∈ (fig.closure roots).placed) :
    z ∈ fig.placed ∧ ∃ p ∈ roots, fig.Reaches p z.point := by
  have hpoints : ∀ p ∈ roots, ∃ x ∈ fig.placed, x.point = p := fun p hp => has_iff.mp (hroots p hp)
  exact (reached_foldl (reached_visit ho) roots empty hpoints z hz).resolve_left List.not_mem_nil

/-- The closure and the figure construct a point alike. -/
theorem construction?_closure (ho : Ordered fig.placed) {roots : List Point}
    (hroots : ∀ p ∈ roots, fig.has p = true) (hp : p ∈ (fig.closure roots).points) :
    (fig.closure roots).construction? p = fig.construction? p := by
  obtain ⟨z, hz, rfl⟩ := mem_points.mp hp
  have hfig := (reached_closure ho hroots hz).1
  exact (construction?_of_mem (ordered_closure ho roots) hz).trans (construction?_of_mem ho hfig).symm

/-- **The closure holds what the roots reach**, and nothing else. -/
theorem mem_closure_iff (ho : Ordered fig.placed) {roots : List Point}
    (hroots : ∀ p ∈ roots, fig.has p = true) {q : Point} :
    q ∈ (fig.closure roots).points ↔ ∃ p ∈ roots, fig.Reaches p q := by
  constructor
  · intro hq
    obtain ⟨z, hz, rfl⟩ := mem_points.mp hq
    exact (reached_closure ho hroots hz).2
  · rintro ⟨p, hp, hreach⟩
    induction hreach with
    | refl => exact mem_points.mpr ((visited_foldl (visited_visit ho) roots empty .nil).found p hp)
    | @tail q d hpq hstep ih =>
      -- a closure is ordered, so it holds what its points are built from
      obtain ⟨c, hc, hd⟩ := hstep
      have hmem := mem_of_construction? ((construction?_closure ho hroots ih).trans hc)
      have hon := on_construction (ordered_closure ho roots) hmem
      exact mem_points.mpr (hon d (Construction.mem_dependencies.mpr hd))

/-! ### Closing again -/

theorem visit_of_has {candidates : List Placed} (h : fig.has p = true) :
    visit candidates fig p = fig := by
  induction candidates with
  | nil => rw [visit, if_pos h]
  | cons x older ih =>
    rw [visit, if_pos h, ih]
    split_ifs <;> rfl

theorem foldl_visit_of_has {candidates : List Placed} :
    ∀ ps : List Point, (∀ p ∈ ps, fig.has p = true) → ps.foldl (visit candidates) fig = fig
  | [], _ => rfl
  | p :: ps, h => by
    rw [List.foldl_cons, visit_of_has (h p (.head _))]
    exact foldl_visit_of_has ps fun q hq => h q (.tail _ hq)

/-- A new point that is built from points of the figure is added alone. -/
theorem visit_of_new {candidates : List Placed} (hc : Ordered candidates) {x : Placed}
    (hx : x ∈ candidates) (hnew : ¬ fig.has x.point = true)
    (hdeps : ∀ c, x.construction? = some c → c.On fun d => fig.has d = true) :
    visit candidates fig x.point = ⟨x :: fig.placed⟩ := by
  induction hc with
  | nil => cases hx
  | @cons z older hz _ hold ih =>
    rw [visit]
    rcases List.mem_cons.mp hx with rfl | hx
    · rw [if_pos rfl, if_neg hnew]
      split
      · rfl
      next c hsome => rw [foldl_visit_of_has _ (hdeps c hsome)]
    · rw [if_neg fun heq => hz x hx heq.symm]
      exact ih hx

/-- Visited in the order in which they stand, the points of an ordered figure come out
in this order. -/
theorem foldl_visit_points {candidates placed : List Placed} (hc : Ordered candidates)
    (ho : Ordered placed) (hsub : ∀ z ∈ placed, z ∈ candidates) :
    (points ⟨placed⟩).foldl (visit candidates) empty = ⟨placed⟩ := by
  induction ho with
  | nil => rfl
  | @cons x older hnew hdeps hold ih =>
    have hpoints : points ⟨x :: older⟩ = points ⟨older⟩ ++ [x.point] := points_append [] x older
    rw [hpoints, List.foldl_append, ih fun z hz => hsub z (.tail _ hz)]
    refine visit_of_new hc (hsub x (.head _)) ?_ fun c hsome => ?_
    · intro hhas
      obtain ⟨z, hz, heq⟩ := has_iff.mp hhas
      exact hnew z hz heq
    · exact (hdeps c hsome).mono fun d => has_iff.mpr

/-- **Closures are exact.** The closure of a figure over some of its points holds
the points that these reach, each of them once, with the construction that it has
in the figure, and after everything that it is built from. Closing over the points
of a closure gives the closure again, in the closure as in the figure. -/
theorem closure_exact (hfig : fig.Built) {roots : List Point}
    (hroots : ∀ p ∈ roots, fig.has p = true) :
    (∀ q, q ∈ (fig.closure roots).points ↔ ∃ p ∈ roots, fig.Reaches p q) ∧
    (fig.closure roots).points.Nodup ∧
    (∀ q ∈ (fig.closure roots).points,
      (fig.closure roots).construction? q = fig.construction? q) ∧
    (∀ q ∈ (fig.closure roots).points, ∀ d, fig.DependsOn q d →
      (fig.closure roots).points.idxOf d < (fig.closure roots).points.idxOf q) ∧
    (fig.closure roots).closure (fig.closure roots).points = fig.closure roots ∧
    fig.closure (fig.closure roots).points = fig.closure roots := by
  have ho := hfig.ordered_apart.1
  have hclosed := ordered_closure ho roots
  refine ⟨fun q => mem_closure_iff ho hroots, nodup_points hclosed,
    fun q => construction?_closure ho hroots, ?_, ?_, ?_⟩
  · rintro q hq d ⟨c, hc, hd⟩
    have hmem := mem_of_construction? ((construction?_closure ho hroots hq).trans hc)
    obtain ⟨newer, older, hsplit⟩ := List.append_of_mem hmem
    have hdep : d ∈ c.dependencies := Construction.mem_dependencies.mpr hd
    have hlt := (older_of_mem_dependencies (hsplit ▸ hclosed) hdep).2
    rwa [← hsplit] at hlt
  · exact foldl_visit_points hclosed hclosed fun _ => id
  · exact foldl_visit_points ho hclosed fun z hz => (reached_closure ho hroots hz).1

end Figure

namespace HiddenPoint

open Letters

/-- `D` occurs only in the ratio of `N`, and `E` does not occur at all. -/
def steps : List Step :=
  [.free "E", .free "D", .free "C", .free "B", .free "A", .midpoint "M" "A" "B",
    .pratio "N" "C" "A" "M" "(S A B D)"]

def before : Figure :=
  ⟨[⟨m, some (.pratio a a b (1 / 2))⟩, ⟨a, none⟩, ⟨b, none⟩, ⟨c, none⟩, ⟨d, none⟩, ⟨e, none⟩]⟩

def figure : Figure := ⟨⟨n, some (.pratio c a m (.area a b d))⟩ :: before.placed⟩

theorem built_figure : figure.Built := by
  have hbefore : (steps.take 6).foldlM (fun fig step => step.apply fig) Figure.empty = .ok before :=
    rfl
  have hratio : before.expression "(S A B D)" = .ok (.area a b d) :=
    Figure.expression_of_read
      (s := .list [.atom "S", .atom "A", .atom "B", .atom "D"]) rfl
      (by simp only [Expr.ofSExpr, Expr.ofSExprs]; rfl)
  have hconstruction : (Step.pratio "N" "C" "A" "M" "(S A B D)").construction before =
      .ok (some (.pratio c a m (.area a b d))) := by
    simp only [Step.construction, hratio]
    rfl
  have hlast : (Step.pratio "N" "C" "A" "M" "(S A B D)").apply before = .ok figure :=
    Step.apply_eq_ok.mpr ⟨_, hconstruction, rfl, by decide, rfl⟩
  refine ⟨steps, ?_⟩
  rw [← List.take_append_drop 6 steps, List.foldlM_append, hbefore]
  exact bind_eq_ok.mpr ⟨_, rfl, bind_eq_ok.mpr ⟨_, hlast, rfl⟩⟩

end HiddenPoint

open HiddenPoint Letters in
/-- The closure over `N` and `M` brings in `D` and leaves out `E`. -/
theorem Figure.closure_exact_hiddenPoint :
    figure.Built ∧ (∀ p ∈ [n, m, n], figure.has p = true) ∧
    (figure.closure [n, m, n]).points = [c, a, b, m, d, n] ∧
    (∀ q, q ∈ [c, a, b, m, d, n] ↔ ∃ p ∈ [n, m, n], figure.Reaches p q) ∧
    (figure.closure [n, m, n]).closure [c, a, b, m, d, n] = figure.closure [n, m, n] := by
  have hroots : ∀ p ∈ [n, m, n], figure.has p = true := by decide
  have hpoints : (figure.closure [n, m, n]).points = [c, a, b, m, d, n] := by decide
  obtain ⟨hmem, -, -, -, hagain, -⟩ := figure.closure_exact built_figure hroots
  rw [hpoints] at hmem hagain
  exact ⟨built_figure, hroots, hpoints, hmem, hagain⟩

end AreaMethod
