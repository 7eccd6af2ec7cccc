/-
# What computations yield

`Yields I E x P` says that the computation `x` keeps the property `I` of the
record, whether it fails or not, returns a value with the property `P`, and
fails only with faults in `E`.

For elimination, `P` is a property that the leaves of an expression decide about:
what its quantities are, or that it has no packed nodes. What is put in place of an
area or a Pythagoras difference that mentions the eliminated point is made of areas
and Pythagoras differences of points that its construction refers to, and of the
ratio of the construction. No question is asked on the way, and only the denominator
of the construction is recorded (`yields_area`, `yields_pythagoras`). For ratios,
questions are asked and other denominators recorded, but the parts are the same
(`yields_ratio`).

Key definitions: `Yields`, `Expr.PackedAll`, `Spans`, `SpansRatios`, `Tolerates`,
`Oracle.FailsWithin`, `Remains`.
Key theorems: `Yields.bind`, `yields_area`, `yields_pythagoras`, `yields_ratio`,
`yields_replace`, `yields_replace_of_over`, `yields_eliminateAll`.
-/
import Mathlib
import AreaMethod.Proofs.Computation

namespace AreaMethod

open Eliminator

section Rules

variable {σ α β : Type} {I : Eliminator σ → Prop} {E : Fault → Prop} {P : α → Prop}

/-- From a record with `I` the computation leads to a record with `I`, and
returns a value with `P` or fails with a fault in `E`. -/
def Yields (I : Eliminator σ → Prop) (E : Fault → Prop) (x : EliminateM σ α) (P : α → Prop) : Prop :=
  ∀ el, I el → Leads x el (fun a el' => I el' ∧ P a) fun f el' => I el' ∧ E f

theorem yields_pure {a : α} (h : P a) : Yields I E (pure a : EliminateM σ α) P :=
  fun _ hI => ⟨hI, h⟩

theorem yields_throw {f : Fault} (h : E f) : Yields I E (throw f : EliminateM σ α) P :=
  fun _ hI => ⟨hI, h⟩

theorem yields_liftExcept {y : Except Fault α} (hok : ∀ a, y = .ok a → P a)
    (hbad : ∀ f, y = .error f → E f) : Yields I E (liftExcept y : EliminateM σ α) P :=
  fun _ hI => leads_liftExcept.mpr ⟨fun a ha => ⟨hI, hok a ha⟩, fun f hf => ⟨hI, hbad f hf⟩⟩

/-- The record that is looked at has the property. -/
theorem yields_get {f : Eliminator σ → EliminateM σ α} (h : ∀ el, I el → Yields I E (f el) P) :
    Yields I E (get >>= f) P :=
  fun el hI => leads_bind.mpr (leads_get.mpr (h el hI el hI))

theorem Yields.mono {x : EliminateM σ α} {P' : α → Prop} (h : Yields I E x P)
    (hP : ∀ a, P a → P' a) : Yields I E x P' :=
  fun el hI => (h el hI).mono (fun a _ ⟨hI', ha⟩ => ⟨hI', hP a ha⟩) fun _ _ => id

/-- Two properties of what is returned; the second is shown without regard to the record
and to faults. -/
theorem Yields.and {x : EliminateM σ α} {P' : α → Prop} (h : Yields I E x P)
    (h' : Yields (fun _ => True) (fun _ => True) x P') : Yields I E x fun a => P a ∧ P' a :=
  fun el hI => ((h el hI).and (h' el trivial)).mono
    (fun _ _ ⟨⟨hI', ha⟩, _, ha'⟩ => ⟨hI', ha, ha'⟩) fun _ _ h => h.1

theorem Yields.bind {x : EliminateM σ α} {f : α → EliminateM σ β} {R : β → Prop}
    (hx : Yields I E x P) (hf : ∀ a, P a → Yields I E (f a) R) : Yields I E (x >>= f) R :=
  fun el hI => leads_bind.mpr
    ((hx el hI).mono (fun a el' ⟨hI', ha⟩ => hf a ha el' hI') fun _ _ => id)

/-- Nothing is asked of the record and of faults, so nothing is known. -/
theorem yields_true (x : EliminateM σ α) :
    Yields (fun _ => True) (fun _ => True) x fun _ => True :=
  fun el _ => (leads_self x el).mono (fun _ _ _ => ⟨trivial, trivial⟩)
    fun _ _ _ => ⟨trivial, trivial⟩

/-- A question records no condition. It fails only if the oracle does, or does not
decide. -/
theorem yields_collinear {oracle : Oracle σ}
    (hI : ∀ el el' : Eliminator σ, el'.conditions = el.conditions → I el → I el')
    (horacle : ∀ s m f m', oracle s m = (.error f, m') → E f) (hundecided : ∀ s, E (.undecided s))
    (a b c : Point) : Yields I E (collinear oracle a b c) fun _ => True :=
  fun el h => leads_collinear (fun _ => ⟨h, trivial⟩) (fun _ _ => ⟨hI el _ rfl h, trivial⟩)
    (fun _ _ => ⟨hI el _ rfl h, trivial⟩) (fun _ _ => ⟨hI el _ rfl h, hundecided _⟩)
    fun f m hf => ⟨hI el _ rfl h, horacle _ _ f m hf⟩

/-- If `I` makes records true at `ρ`, what is computed there is yielded. -/
theorem Yields.and_computes {ρ : Coordinates} {x : EliminateM σ α} {P' : α → Prop}
    (h : Yields I E x P) (hx : Computes ρ x P')
    (hI : ∀ el, I el → el.Remembers ∧ TrueAt ρ el) : Yields I E x fun a => P a ∧ P' a :=
  fun el hel => ((h el hel).and (hx el (hI el hel).1)).mono
    (fun _ el' ⟨⟨hI', ha⟩, _, _, ha'⟩ => ⟨hI', ha, ha' (hI el' hI').2⟩) fun _ _ h => h.1

/-- What is yielded, whatever the record, is computed. -/
theorem Computes.and_yields {ρ : Coordinates} {x : EliminateM σ α} {P' : α → Prop}
    (hx : Computes ρ x P) (h : Yields (fun _ => True) (fun _ => True) x P') :
    Computes ρ x fun a => P a ∧ P' a :=
  fun el hr => ((hx el hr).and (h el trivial)).mono
    (fun _ _ ⟨⟨hext, hr', ha⟩, _, ha'⟩ => ⟨hext, hr', fun ht => ⟨ha ht, ha'⟩⟩) fun _ _ _ => trivial

end Rules

/-! ### Quantities of packed nodes -/

namespace Expr

/-- All quantities of packed nodes have the property `Q`. -/
def PackedAll (Q : Quantity → Prop) : Expr → Prop
  | number _ => True
  | quantity _ => True
  | neg e => e.PackedAll Q
  | sum a b => a.PackedAll Q ∧ b.PackedAll Q
  | product a b => a.PackedAll Q ∧ b.PackedAll Q
  | fraction a b => a.PackedAll Q ∧ b.PackedAll Q
  | term t => (term t).All Q
  | polynomial p => (polynomial p).All Q

variable {Q : Quantity → Prop}

theorem leafwise_packedAll (Q : Quantity → Prop) : Leafwise (PackedAll Q) :=
  ⟨fun _ => trivial, Iff.rfl, Iff.rfl, Iff.rfl, Iff.rfl⟩

end Expr

/-- A term in plain nodes has no packed nodes inside. -/
theorem Term.packedAll_toExpr {Q : Quantity → Prop} (t : Term) : t.toExpr.PackedAll Q :=
  (holds_toExpr (Expr.leafwise_packedAll Q)).mpr fun _ _ => trivial

theorem Polynomial.packedAll_toExpr {Q : Quantity → Prop} (p : Polynomial) :
    p.toExpr.PackedAll Q :=
  (holds_toExpr (Expr.leafwise_packedAll Q)).mpr fun _ _ => trivial

namespace Expr

variable {Q Q' : Quantity → Prop}

theorem packedAll_mapLeaves {onTerm : Term → Expr} {onPolynomial : Polynomial → Expr}
    (ht : ∀ t, (term t).All Q → (onTerm t).PackedAll Q')
    (hp : ∀ p, (polynomial p).All Q → (onPolynomial p).PackedAll Q') {e : Expr} (h : e.All Q) :
    (e.mapLeaves quantity onTerm onPolynomial).PackedAll Q' := by
  induction e with
  | number n => trivial
  | quantity q => trivial
  | neg e ih => exact ih h
  | sum a b iha ihb => exact ⟨iha (all_sum.mp h).1, ihb (all_sum.mp h).2⟩
  | product a b iha ihb => exact ⟨iha (all_product.mp h).1, ihb (all_product.mp h).2⟩
  | fraction a b iha ihb => exact ⟨iha (all_fraction.mp h).1, ihb (all_fraction.mp h).2⟩
  | term t => exact ht t h
  | polynomial p => exact hp p h

/-- Packed nodes that are left do not mention the exposed point. -/
theorem packedAll_expose (p : Point) {e : Expr} (h : e.All Q)
    (hQ : ∀ q, Q q → q.mentions p = false → Q' q) : (e.expose p).PackedAll Q' := by
  have hleaf : ∀ {e : Expr}, e.All Q → ¬ e.mentions p → e.All Q' := by
    intro e he hp q hq
    refine hQ q (he q hq) (Bool.eq_false_iff.mpr fun hqp => hp ?_)
    exact List.any_eq_true.mpr ⟨q, hq, hqp⟩
  refine packedAll_mapLeaves (fun t ht => ?_) (fun q hq => ?_) h
  · split_ifs with hmem
    · exact t.packedAll_toExpr
    · exact hleaf ht hmem
  · split_ifs with hmem
    · exact q.packedAll_toExpr
    · exact hleaf hq hmem

end Expr

section Replacement

variable {σ : Type} {I : Eliminator σ → Prop} {E : Fault → Prop} {oracle : Oracle σ} {y : Point}
  {how : Construction} {e : Expr}

/-- **Replacing quantities.** -/
theorem yields_bindQuantities {V W : Expr → Prop} (hV : Expr.Leafwise V) (hW : Expr.Leafwise W)
    {f : Quantity → EliminateM σ Expr} (hf : ∀ q, V (.quantity q) → Yields I E (f q) W)
    (ht : ∀ t, V (.term t) → W (.term t)) (hp : ∀ p, V (.polynomial p) → W (.polynomial p)) :
    ∀ {e : Expr}, V e → Yields I E (e.bindQuantities f) W
  | .number n, _ => yields_pure (hW.on_number n)
  | .quantity q, he => hf q he
  | .neg _, he => (yields_bindQuantities hV hW hf ht hp (hV.on_neg.mp he)).bind fun _ h =>
      yields_pure (hW.on_neg.mpr h)
  | .sum _ _, he =>
    (yields_bindQuantities hV hW hf ht hp (hV.on_sum.mp he).1).bind fun _ ha =>
      (yields_bindQuantities hV hW hf ht hp (hV.on_sum.mp he).2).bind fun _ hb =>
        yields_pure (hW.on_sum.mpr ⟨ha, hb⟩)
  | .product _ _, he =>
    (yields_bindQuantities hV hW hf ht hp (hV.on_product.mp he).1).bind fun _ ha =>
      (yields_bindQuantities hV hW hf ht hp (hV.on_product.mp he).2).bind fun _ hb =>
        yields_pure (hW.on_product.mpr ⟨ha, hb⟩)
  | .fraction _ _, he =>
    (yields_bindQuantities hV hW hf ht hp (hV.on_fraction.mp he).1).bind fun _ ha =>
      (yields_bindQuantities hV hW hf ht hp (hV.on_fraction.mp he).2).bind fun _ hb =>
        yields_pure (hW.on_fraction.mpr ⟨ha, hb⟩)
  | .term t, he => yields_pure (ht t he)
  | .polynomial p, he => yields_pure (hp p he)

theorem Quantity.on_of_mentions_eq_false {K : Point → Prop} {q : Quantity}
    (h : q.On fun p => p = y ∨ K p) (hy : q.mentions y = false) : q.On K := by
  refine fun p hp => (h p hp).resolve_left fun heq => ?_
  rw [mentions_iff.mpr (heq ▸ hp)] at hy
  cases hy

/-- Replacing the quantities that mention `y`, seen from the quantities. -/
theorem yields_replace {Q Q' : Quantity → Prop}
    (hq : ∀ q, Q q → q.mentions y = true → Yields I E (quantity oracle y how q) (·.All Q'))
    (hQ : ∀ q, Q q → q.mentions y = false → Q' q) (he : e.All Q) :
    Yields I E (replace oracle y how e) (·.All Q') := by
  refine yields_bindQuantities ((Expr.leafwise_all Q).and (Expr.leafwise_packedAll Q'))
    (Expr.leafwise_all Q') (fun q h => ?_) (fun t h => h.2) (fun p h => h.2)
    ⟨Expr.all_expose y he, Expr.packedAll_expose y he hQ⟩
  have hQq : Q q := Expr.all_quantity.mp h.1
  split_ifs with hmem
  · exact hq q hQq hmem
  · exact yields_pure (Expr.all_quantity.mpr (hQ q hQq (Bool.eq_false_iff.mpr hmem)))

/-- A property that says nothing about quantities is not lost by unfolding packed nodes. -/
theorem Expr.Leafwise.holds_expose {P : Expr → Prop} (hP : Expr.Leafwise P)
    (hleaf : ∀ q, P (.quantity q)) (he : P e) : P (e.expose y) := by
  refine hP.holds_mapLeaves hP (fun q _ => hleaf q) (fun t ht => ?_) (fun p hp => ?_) he
  · split_ifs
    · exact (Term.holds_toExpr hP).mpr fun q _ => hleaf q
    · exact ht
  · split_ifs
    · exact (Polynomial.holds_toExpr hP).mpr fun q _ => hleaf q
    · exact hp

/-- Replacing the quantities that mention `y`, seen from the packed nodes that are left:
the property says nothing about quantities. -/
theorem yields_replace_of_leaves {P : Expr → Prop} (hP : Expr.Leafwise P)
    (hleaf : ∀ q, P (.quantity q))
    (hq : ∀ q, q.mentions y = true → Yields I E (quantity oracle y how q) P)
    (he : P (e.expose y)) : Yields I E (replace oracle y how e) P := by
  refine yields_bindQuantities hP hP (fun q _ => ?_) (fun _ => id) (fun _ => id) he
  split_ifs with hmem
  · exact hq q hmem
  · exact yields_pure (hleaf q)

end Replacement

/-! ### Areas and Pythagoras differences -/

/-- The expression that must not vanish for a construction to give a point. -/
def Construction.denominator? : Construction → Option Expr
  | intersection u v p q => some (.area4 u p v q)
  | foot _ u v => some (.pythagoras u v u)
  | pratio .. => none
  | tratio .. => none

/-- The leaves decide about the property `P`, and areas and Pythagoras differences of
points with `K` have it. -/
structure Spans (K : Point → Prop) (P : Expr → Prop) : Prop where
  leafwise : Expr.Leafwise P
  area : ∀ {a b c}, K a → K b → K c → P (.area a b c)
  pythagoras : ∀ {a b c}, K a → K b → K c → P (.pythagoras a b c)

/-- Ratios of points with `K` have the property, too. -/
structure SpansRatios (K : Point → Prop) (P : Expr → Prop) : Prop extends Spans K P where
  ratio : ∀ {a b c d}, K a → K b → K c → K d → P (.ratio a b c d)

namespace Eliminator

variable {σ : Type}

/-- The record after an expression was required not to vanish. -/
def required (el : Eliminator σ) (d : Expr) : Eliminator σ :=
  let e := d.canonical .empty
  { el with conditions := if e ∈ el.conditions then el.conditions else el.conditions ++ [e] }

/-- The property `I` of the record outlasts the use of lemmas, and the
requirement that the construction gives a point. -/
structure Tolerates (I : Eliminator σ → Prop) (how : Construction) : Prop where
  usage : ∀ el usage, I el → I { el with usage := usage }
  condition : ∀ d, how.denominator? = some d → ∀ el, I el → I (el.required d)

theorem tolerates_true (how : Construction) : Tolerates (fun _ : Eliminator σ => True) how :=
  ⟨fun _ _ => id, fun _ _ _ => id⟩

end Eliminator

section Lemmas

variable {σ : Type} {I : Eliminator σ → Prop} {E : Fault → Prop} {K : Point → Prop}
  {P : Expr → Prop} {how : Construction}

theorem yields_record (ht : Tolerates I how) (group : LemmaGroup) :
    Yields I E (record group how : EliminateM σ Unit) fun _ => True :=
  fun el hI => leads_modify.mpr ⟨ht.usage el _ hI, trivial⟩

theorem yields_divide (hP : Expr.Leafwise P) {n d : Expr} (hcondition : ∀ el, I el → I (el.required d))
    (hn : P n) (hd : P d) : Yields I E (divide n d : EliminateM σ Expr) P :=
  fun el hI => leads_bind.mpr (leads_modify.mpr ⟨hcondition el hI, hP.on_div.mpr ⟨hn, hd⟩⟩)

theorem yields_linear (hs : Spans K P) (ht : Tolerates I how) (hc : how.Over K P)
    {group : LemmaGroup} {g : Point → Expr} (hg : ∀ x, K x → P (g x))
    {perpendicular : Point → Point → Expr → Expr}
    (hp : ∀ p q r, K p → K q → P r → P (perpendicular p q r)) :
    Yields I E (linear group how g perpendicular : EliminateM σ Expr) P := by
  refine (yields_record ht group).bind fun _ _ => ?_
  cases how with
  | intersection u v p q =>
    obtain ⟨hu, hv, hp, hq⟩ := hc
    refine yields_divide hs.leafwise (ht.condition _ rfl) ?_ ?_
    · simp [hs.leafwise.arithmetic, hs.area, *]
    · simp [Expr.area4, hs.leafwise.arithmetic, hs.area, *]
  | foot p u v =>
    obtain ⟨hp, hu, hv⟩ := hc
    refine yields_divide hs.leafwise (ht.condition _ rfl) ?_ ?_
    · simp [hs.leafwise.arithmetic, hs.pythagoras, *]
    · simp [hs.pythagoras, *]
  | pratio w u v r =>
    obtain ⟨hw, hu, hv, hr⟩ := hc
    exact yields_pure (by simp [hs.leafwise.arithmetic, *])
  | tratio u v r =>
    obtain ⟨hu, hv, hr⟩ := hc
    exact yields_pure (hp u v r hu hv hr)

/-- **Areas.** -/
theorem yields_area (hs : Spans K P) (ht : Tolerates I how) (hc : how.Over K P) {y a b c : Point}
    (ha : a ≠ y → K a) (hb : b ≠ y → K b) (hc' : c ≠ y → K c) :
    Yields I E (area y how a b c : EliminateM σ Expr) P := by
  unfold area
  generalize hab : (if c = y then (a, b) else if a = y then (b, c) else (c, a)) = ab
  obtain ⟨a', b'⟩ := ab
  have hrest : (a' ≠ y → K a') ∧ (b' ≠ y → K b') := by
    split_ifs at hab <;> cases hab
    · exact ⟨ha, hb⟩
    · exact ⟨hb, hc'⟩
    · exact ⟨hc', ha⟩
  simp only
  split_ifs with h
  · exact yields_pure (hs.leafwise.on_ofNat 0)
  · obtain ⟨ha', hb'⟩ := not_or.mp h
    have hKa := hrest.1 ha'
    have hKb := hrest.2 hb'
    refine yields_linear hs ht hc (fun x hx => hs.area hKa hKb hx) fun p q r hp hq hr => ?_
    simp [Expr.pythagoras4, hs.leafwise.arithmetic, hs.area, hs.pythagoras, *]

theorem yields_middle (hs : Spans K P) (ht : Tolerates I how) (hc : how.Over K P) {a b : Point}
    (ha : K a) (hb : K b) : Yields I E (middle how a b : EliminateM σ Expr) P := by
  refine (yields_record ht .middlePythagoras).bind fun _ _ => ?_
  cases how with
  | intersection u v p q =>
    obtain ⟨hu, hv, hp, hq⟩ := hc
    refine (yields_divide (P := P) hs.leafwise (ht.condition _ rfl) ?_ ?_).bind
      fun first hfirst => yields_pure ?_
    · simp [hs.leafwise.arithmetic, hs.area, hs.pythagoras, *]
    · simp [Expr.area4, hs.leafwise.arithmetic, hs.area, *]
    · simp [Expr.area4, hs.leafwise.arithmetic, hs.area, hs.pythagoras, *]
  | foot p u v =>
    obtain ⟨hp, hu, hv⟩ := hc
    refine (yields_divide (P := P) hs.leafwise (ht.condition _ rfl) ?_ ?_).bind
      fun first hfirst => yields_pure ?_
    · simp [hs.leafwise.arithmetic, hs.pythagoras, *]
    · simp [hs.pythagoras, *]
    · simp [hs.leafwise.arithmetic, hs.pythagoras, *]
  | pratio w u v r =>
    obtain ⟨hw, hu, hv, hr⟩ := hc
    exact yields_pure (by simp [hs.leafwise.arithmetic, hs.pythagoras, *])
  | tratio u v r =>
    obtain ⟨hu, hv, hr⟩ := hc
    exact yields_pure (by simp [hs.leafwise.arithmetic, hs.area, hs.pythagoras, *])

/-- **Pythagoras differences.** -/
theorem yields_pythagoras (hs : Spans K P) (ht : Tolerates I how) (hc : how.Over K P)
    {y a b c : Point} (ha : a ≠ y → K a) (hb : b ≠ y → K b) (hc' : c ≠ y → K c) :
    Yields I E (pythagoras y how a b c : EliminateM σ Expr) P := by
  unfold pythagoras
  split_ifs with hby hends hboth hcy
  · exact yields_pure (hs.leafwise.on_ofNat 0)
  · obtain ⟨hay, hcy⟩ := not_or.mp hends
    exact yields_middle hs ht hc (ha hay) (hc' hcy)
  · exact yields_middle hs ht hc (hb hby) (hb hby)
  · have hKa := ha fun hay => hboth ⟨hay, hcy⟩
    have hKb := hb hby
    refine yields_linear hs ht hc (fun x hx => hs.pythagoras hKa hKb hx) fun p q r hp hq hr => ?_
    simp [Expr.area4, hs.leafwise.arithmetic, hs.area, hs.pythagoras, *]
  · have hKc := hc' hcy
    have hKb := hb hby
    refine yields_linear hs ht hc (fun x hx => hs.pythagoras hKc hKb hx) fun p q r hp hq hr => ?_
    simp [Expr.area4, hs.leafwise.arithmetic, hs.area, hs.pythagoras, *]

end Lemmas

/-! ### Ratios

This does not depend on the oracle. Whatever its answers are, each formula names
the other points of the quantity and points of the construction. One formula brings
the point back before it is gone: the areas over a perpendicular, from which it is
then eliminated in turn (`yields_areas_divide`). -/

/-- The faults that an elimination with this oracle may meet are in `E`. -/
structure Oracle.FailsWithin {σ : Type} (oracle : Oracle σ) (E : Fault → Prop) : Prop where
  oracle : ∀ s m f m', oracle s m = (.error f, m') → E f
  undecided : ∀ s, E (.undecided s)
  divisionByZero : ∀ e, E (.divisionByZero e)

theorem Oracle.failsWithin_true {σ : Type} (oracle : Oracle σ) : oracle.FailsWithin fun _ => True :=
  ⟨fun _ _ _ _ _ => trivial, fun _ => trivial, fun _ => trivial⟩

section Ratios

variable {σ : Type} {oracle : Oracle σ} {E : Fault → Prop} {K : Point → Prop} {P : Expr → Prop}
  {y : Point} {how : Construction}

theorem Oracle.FailsWithin.collinear (ho : oracle.FailsWithin E) (a b c : Point) :
    Yields (fun _ => True) E (collinear oracle a b c) fun _ => True :=
  yields_collinear (fun _ _ _ => id) ho.oracle ho.undecided a b c

theorem yields_branch (ho : oracle.FailsWithin E) {a b c : Point} {x z : EliminateM σ Expr}
    (hx : Yields (fun _ => True) E x P) (hz : Yields (fun _ => True) E z P) :
    Yields (fun _ => True) E (do if ← collinear oracle a b c then x else z) P := by
  refine (ho.collinear a b c).bind fun answer _ => ?_
  cases answer with
  | true => exact hx
  | false => exact hz

theorem yields_quotient_of (hP : Expr.Leafwise P) {n d : Expr} (hn : P n) (hd : P d) :
    Yields (fun _ => True) E (divide n d : EliminateM σ Expr) P :=
  yields_divide hP (fun _ => id) hn hd

/-- A quotient of areas of which `y` is the last point loses `y`. -/
theorem yields_areas_divide (hs : Spans K P) (hc : how.Over K P) {n d : Expr}
    (he : (n / d).All fun q => ∃ a b c, q = .area a b c ∧ q.On fun p => p = y ∨ K p)
    (hunpacked : (n / d).Unpacked) :
    Yields (fun _ => True) E (do areas y how (← divide n d) : EliminateM σ Expr) P := by
  have hdivide : Yields (fun _ => True) E (divide n d : EliminateM σ Expr) (· = n / d) :=
    fun _ _ => ⟨trivial, rfl⟩
  refine hdivide.bind ?_
  rintro _ rfl
  refine yields_bindQuantities ((Expr.leafwise_all _).and Expr.leafwise_unpacked) hs.leafwise
    (fun q h => ?_) (fun _ h => h.2.elim) (fun _ h => h.2.elim) ⟨he, hunpacked⟩
  obtain ⟨a, b, c, rfl, hon⟩ := Expr.all_quantity.mp h.1
  obtain ⟨ha, hb, hc'⟩ := Quantity.on_area.mp hon
  simp only
  split_ifs with hmem
  · exact yields_area hs (tolerates_true how) hc ha.resolve_left hb.resolve_left hc'.resolve_left
  · obtain ⟨ha, hb, hc'⟩ := Quantity.on_area.mp
      (Quantity.on_of_mentions_eq_false hon (Bool.eq_false_iff.mpr hmem))
    exact yields_pure (hs.area ha hb hc')

theorem yields_plainRatio (hs : SpansRatios K P) (ho : oracle.FailsWithin E) (hc : how.Over K P)
    {a c d : Point} (ha : K a) (hc' : K c) (hd : K d) :
    Yields (fun _ => True) E (plainRatio oracle y how a c d) P := by
  refine (yields_record (tolerates_true how) .ratio).bind fun _ _ => ?_
  cases how with
  | intersection u v p q =>
    obtain ⟨hu, hv, hp, hq⟩ := hc
    refine yields_branch ho (yields_quotient_of hs.leafwise ?_ ?_)
      (yields_quotient_of hs.leafwise ?_ ?_) <;>
      simp [Expr.area4, hs.leafwise.arithmetic, hs.area, *]
  | foot p u v =>
    obtain ⟨hp, hu, hv⟩ := hc
    refine yields_branch ho (yields_quotient_of hs.leafwise ?_ ?_)
      (yields_quotient_of hs.leafwise ?_ ?_) <;>
      simp [Expr.area4, Expr.pythagoras4, hs.leafwise.arithmetic, hs.area, hs.pythagoras, *]
  | pratio w u v r =>
    obtain ⟨hw, hu, hv, hr⟩ := hc
    refine yields_branch ho (yields_quotient_of hs.leafwise ?_ ?_)
      (yields_quotient_of hs.leafwise ?_ ?_) <;>
      simp [Expr.area4, hs.leafwise.arithmetic, hs.area, hs.ratio, *]
  | tratio p q r =>
    have ⟨hp, hq, hr⟩ := hc
    refine yields_branch ho (yields_quotient_of hs.leafwise ?_ ?_)
      (yields_areas_divide hs.toSpans hc ?_ ⟨trivial, trivial, trivial⟩)
    · simp [shiftedArea, hs.leafwise.arithmetic, hs.area, hs.pythagoras, *]
    · simp [Expr.area4, hs.leafwise.arithmetic, hs.area, *]
    · simp [Expr.area4, *]

theorem yields_sharedRatio (hs : SpansRatios K P) (ho : oracle.FailsWithin E) (hc : how.Over K P)
    {a c : Point} (ha : K a) (hc' : K c) :
    Yields (fun _ => True) E (sharedRatio oracle y how a c) P := by
  unfold sharedRatio
  split_ifs
  · exact yields_pure (hs.leafwise.on_ofNat 1)
  refine (yields_record (tolerates_true how) .ratio).bind fun _ _ => ?_
  cases how with
  | intersection u v p q =>
    obtain ⟨hu, hv, hp, hq⟩ := hc
    refine yields_branch ho (yields_quotient_of hs.leafwise ?_ ?_)
      (yields_quotient_of hs.leafwise ?_ ?_) <;> simp [hs.area, *]
  | foot p u v =>
    obtain ⟨hp, hu, hv⟩ := hc
    refine yields_branch ho (yields_quotient_of hs.leafwise ?_ ?_)
      (yields_quotient_of hs.leafwise ?_ ?_) <;>
      simp [Expr.pythagoras4, hs.leafwise.arithmetic, hs.area, hs.pythagoras, *]
  | pratio w u v r =>
    obtain ⟨hw, hu, hv, hr⟩ := hc
    refine yields_branch ho (yields_quotient_of hs.leafwise ?_ ?_)
      (yields_quotient_of hs.leafwise ?_ ?_) <;>
      simp [Expr.area4, hs.leafwise.arithmetic, hs.area, hs.ratio, *]
  | tratio p q r =>
    have ⟨hp, hq, hr⟩ := hc
    refine yields_branch ho (yields_quotient_of hs.leafwise ?_ ?_)
      (yields_areas_divide hs.toSpans hc ?_ ⟨trivial, trivial⟩)
    · simp [shiftedArea, hs.leafwise.arithmetic, hs.area, hs.pythagoras, *]
    · simp [shiftedArea, hs.leafwise.arithmetic, hs.area, hs.pythagoras, *]
    · simp [*]

theorem yields_ratioFrom (hs : SpansRatios K P) (ho : oracle.FailsWithin E) (hc : how.Over K P)
    {a c d : Point} (ha : K a) (hc' : c ≠ y → K c) (hd : d ≠ y → K d) (hcd : c ≠ d) :
    Yields (fun _ => True) E (ratioFrom oracle y how a c d) P := by
  unfold ratioFrom
  split_ifs with hcy hdy
  · have hKd : K d := hd fun hdy => hcd (hcy.trans hdy.symm)
    refine (yields_sharedRatio hs ho hc ha hKd).bind ?_
    exact fun e he => yields_pure (hs.leafwise.on_neg.mpr he)
  · exact yields_sharedRatio hs ho hc ha (hc' hcy)
  · exact yields_plainRatio hs ho hc ha (hc' hcy) (hd hdy)

theorem yields_ratioAbove (hs : SpansRatios K P) (ho : oracle.FailsWithin E) (hc : how.Over K P)
    {a b c d : Point} (ha : a ≠ y → K a) (hb : b ≠ y → K b) (hab : a ≠ b) (hc' : c ≠ y → K c)
    (hd : d ≠ y → K d) (hcd : c ≠ d) :
    Yields (fun _ => True) E (ratioAbove oracle y how a b c d) P := by
  unfold ratioAbove
  split_ifs with hay
  · have hKb : K b := hb fun hby => hab (hay.trans hby.symm)
    refine (yields_ratioFrom hs ho hc hKb hc' hd hcd).bind ?_
    exact fun e he => yields_pure (hs.leafwise.on_neg.mpr he)
  · exact yields_ratioFrom hs ho hc (ha hay) hc' hd hcd

/-- **Ratios.** -/
theorem yields_ratio (hs : SpansRatios K P) (ho : oracle.FailsWithin E) (hc : how.Over K P)
    {a b c d : Point} (ha : a ≠ y → K a) (hb : b ≠ y → K b) (hc' : c ≠ y → K c)
    (hd : d ≠ y → K d) : Yields (fun _ => True) E (ratio oracle y how a b c d) P := by
  unfold ratio
  split_ifs with hab hcd habove
  · exact yields_pure (hs.leafwise.on_ofNat 0)
  · exact yields_throw (ho.divisionByZero _)
  · exact yields_ratioAbove hs ho hc ha hb hab hc' hd hcd
  · refine (yields_ratioAbove hs ho hc hc' hd hcd ha hb hab).bind fun e he => ?_
    exact yields_quotient_of hs.leafwise (hs.leafwise.on_ofNat 1) he

/-- **Quantities.** What is put in place of a quantity is made of its other points and
of the construction. -/
theorem yields_quantity (hs : SpansRatios K P) (ho : oracle.FailsWithin E) (hc : how.Over K P)
    {q : Quantity} (hq : q.On fun p => p ≠ y → K p) :
    Yields (fun _ => True) E (quantity oracle y how q) P := by
  cases q with
  | area a b c =>
    obtain ⟨ha, hb, hc'⟩ := Quantity.on_area.mp hq
    exact yields_area hs.toSpans (tolerates_true how) hc ha hb hc'
  | pythagoras a b c =>
    obtain ⟨ha, hb, hc'⟩ := Quantity.on_pythagoras.mp hq
    exact yields_pythagoras hs.toSpans (tolerates_true how) hc ha hb hc'
  | ratio a b c d =>
    obtain ⟨ha, hb, hc', hd⟩ := Quantity.on_ratio.mp hq
    exact yields_ratio hs ho hc ha hb hc' hd

theorem spansRatios_of_leaves (hP : Expr.Leafwise P) (hleaf : ∀ q, P (.quantity q)) :
    SpansRatios (fun _ => True) P :=
  ⟨⟨hP, fun _ _ _ => hleaf _, fun _ _ _ => hleaf _⟩, fun _ _ _ _ => hleaf _⟩

/-- What is put in place of quantities brings in no packed nodes but those of the
construction. -/
theorem yields_replace_of_over (hP : Expr.Leafwise P) (hleaf : ∀ q, P (.quantity q))
    (hc : how.Over (fun _ => True) P) {e : Expr} (he : P (e.expose y)) :
    Yields (fun _ => True) (fun _ => True) (replace oracle y how e) P :=
  yields_replace_of_leaves hP hleaf (fun _ _ => yields_quantity (spansRatios_of_leaves hP hleaf)
    oracle.failsWithin_true hc fun _ _ _ => trivial) he

end Ratios

/-! ### Runs -/

section Runs

variable {σ : Type} {I : Eliminator σ → Prop} {E : Fault → Prop} {limits : Limits}

theorem yields_checkSize (hlarge : ∀ n, E (.tooLarge n limits.expressionSize)) (e : Expr) :
    Yields I E (checkSize limits e : EliminateM σ Unit) fun _ => True :=
  fun _ hI => leads_checkSize.mpr ⟨fun _ => ⟨hI, trivial⟩, fun _ => ⟨hI, hlarge _⟩⟩

/-- The points `ps` can be eliminated one after the other, and no other
constructed point occurs. -/
def Remains (fig : Figure) (ps : List Point) (e : Expr) : Prop :=
  fig.Descending ps ∧ e.All (Quantity.On (fig.Pending ps))

theorem Remains.skip {fig : Figure} {e : Expr} {p : Point} {ps : List Point}
    (h : Remains fig (p :: ps) e) (hp : e.mentions p = false) : Remains fig ps e := by
  refine ⟨h.1.2, fun q hq r hr c hc => ?_⟩
  rcases List.mem_cons.mp (h.2 q hq r hr c hc) with heq | hmem
  · exact absurd heq (Expr.mentions_eq_false.mp hp q hq r hr)
  · exact hmem

/-- **What holds after all eliminations.** `Good ps e` is an invariant of the
expression `e` while the points `ps` are still to be eliminated. The points
that were eliminated are among these, in the same order, and not more than the
limit allows. -/
theorem yields_eliminateAll {oracle : Oracle σ} {fig : Figure} {Good : List Point → Expr → Prop}
    (hskip : ∀ p ps e, Good (p :: ps) e → e.mentions p = false → Good ps e)
    (hstep : ∀ p ps e, Good (p :: ps) e → Yields I E (eliminate oracle fig e p) (Good ps))
    (hlarge : ∀ n, E (.tooLarge n limits.expressionSize))
    (hmany : E (.tooManyEliminations limits.eliminations)) :
    ∀ (ps : List Point) (e : Expr) (steps : List EliminationStep), Good ps e →
      steps.length ≤ limits.eliminations →
      Yields I E (eliminateAll limits oracle fig ps e steps) fun r => Good [] r.1 ∧
        (∃ rest, r.2 = steps ++ rest ∧ (rest.map EliminationStep.point).Sublist ps) ∧
        r.2.length ≤ limits.eliminations
  | [], e, steps, he, hlen =>
    yields_pure ⟨he, ⟨[], (List.append_nil steps).symm, List.Sublist.refl _⟩, hlen⟩
  | p :: ps, e, steps, he, hlen => by
    unfold eliminateAll
    split_ifs with hmem hlimit
    · refine (yields_eliminateAll hskip hstep hlarge hmany ps e steps
        (hskip p ps e he (by simpa using hmem)) hlen).mono ?_
      rintro r ⟨hgood, ⟨rest, hrest, hsub⟩, hr⟩
      exact ⟨hgood, ⟨rest, hrest, hsub.cons p⟩, hr⟩
    · exact yields_throw hmany
    · refine (hstep p ps e he).bind fun e' he' => ?_
      refine (yields_checkSize hlarge e').bind fun _ _ => ?_
      refine (yields_eliminateAll hskip hstep hlarge hmany ps e' (steps ++ [⟨p, e'.size⟩]) he' ?_).mono
        ?_
      · rw [List.length_append, List.length_singleton]
        exact not_le.mp hlimit
      · rintro r ⟨hgood, ⟨rest, hrest, hsub⟩, hr⟩
        refine ⟨hgood, ⟨⟨p, e'.size⟩ :: rest, ?_, hsub.cons_cons p⟩, hr⟩
        rw [hrest, List.append_assoc, List.singleton_append]

end Runs
end AreaMethod
