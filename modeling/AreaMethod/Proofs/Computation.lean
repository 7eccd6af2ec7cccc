/-
# Computations at given coordinates

A record is true at coordinates if every answer in it is right there and no
condition in it vanishes. `Computes ρ x P` says that the value of `x` has the
property `P` whenever the record that `x` leaves behind is true at `ρ`. As
records only grow, a record that is true at the end was true at every point
on the way, so what the parts of a computation achieve can be put together
(`Computes.bind`).

Key definitions: `Question.RightAt`, `Eliminator.TrueAt`, `Keeps`, `Replaces`,
`Computes`.
Key theorems: `Computes.bind`, `computes_collinear`, `computes_divide`,
`computes_bindQuantities`.
-/
import Mathlib
import AreaMethod.Proofs.CanonicalValue

namespace AreaMethod

/-- The answer, if there is one, is right. -/
def Question.RightAt (ρ : Coordinates) (q : Question) : Prop :=
  match q.answer with
  | .ok .holds => q.statement.zeroExpr.value (reading ρ) = some 0
  | .ok .fails => q.statement.zeroExpr.value (reading ρ) ≠ some 0
  | _ => True

/-- The expression has a value other than zero. -/
def Expr.NonzeroAt (ρ : Coordinates) (e : Expr) : Prop := ∃ x, e.value (reading ρ) = some x ∧ x ≠ 0

namespace Eliminator

variable {σ : Type} {ρ : Coordinates} {el el' : Eliminator σ}

/-- All answers of the record are right and no condition vanishes. -/
structure TrueAt (ρ : Coordinates) (el : Eliminator σ) : Prop where
  answers : ∀ q ∈ el.asked, q.RightAt ρ
  conditions : ∀ e ∈ el.conditions, e.NonzeroAt ρ

theorem TrueAt.of_extends (h : el.Extends el') (ht : TrueAt ρ el') : TrueAt ρ el :=
  ⟨fun q hq => ht.answers q (h.asked.subset hq), fun e he => ht.conditions e (h.conditions.subset he)⟩

/-- The triples that a true record knows are collinear. -/
theorem TrueAt.holdAt (ht : TrueAt ρ el) (hr : el.Remembers) : el.known.HoldAt ρ := by
  intro t hmem
  obtain ⟨a, b, c, hq, heq⟩ := (hr t).mp hmem
  have hright : some ((ρ b - ρ a).cross (ρ c - ρ a) / 2) = some 0 := ht.answers _ hq
  have habc : Collinear ρ a b c := by simpa [Collinear] using hright
  rw [heq]
  exact (collinear_sortThree ρ a b c).mpr habc

end Eliminator

/-! ### Expressions that keep a value -/

/-- If the first expression has a value, the second has the same. -/
def Keeps (ρ : Coordinates) (e e' : Expr) : Prop :=
  ∀ x, e.value (reading ρ) = some x → e'.value (reading ρ) = some x

namespace Keeps

variable {ρ : Coordinates} {a a' b b' e e' e'' : Expr}

theorem refl (ρ : Coordinates) (e : Expr) : Keeps ρ e e := fun _ => id

theorem trans (h : Keeps ρ e e') (h' : Keeps ρ e' e'') : Keeps ρ e e'' := fun x hx => h' x (h x hx)

theorem neg (h : Keeps ρ e e') : Keeps ρ (.neg e) (.neg e') := fun x hx => by
  obtain ⟨y, hy, rfl⟩ := Expr.value_neg_eq_some.mp hx
  exact Expr.value_neg_eq_some.mpr ⟨y, h y hy, rfl⟩

theorem sum (ha : Keeps ρ a a') (hb : Keeps ρ b b') : Keeps ρ (.sum a b) (.sum a' b') :=
  fun x hx => by
    obtain ⟨y, z, hy, hz, rfl⟩ := Expr.value_sum_eq_some.mp hx
    exact Expr.value_sum_eq_some.mpr ⟨y, z, ha y hy, hb z hz, rfl⟩

theorem product (ha : Keeps ρ a a') (hb : Keeps ρ b b') : Keeps ρ (.product a b) (.product a' b') :=
  fun x hx => by
    obtain ⟨y, z, hy, hz, rfl⟩ := Expr.value_product_eq_some.mp hx
    exact Expr.value_product_eq_some.mpr ⟨y, z, ha y hy, hb z hz, rfl⟩

theorem fraction (ha : Keeps ρ a a') (hb : Keeps ρ b b') :
    Keeps ρ (.fraction a b) (.fraction a' b') :=
  fun x hx => by
    obtain ⟨y, z, hy, hz, h0, rfl⟩ := Expr.value_fraction_eq_some.mp hx
    exact Expr.value_fraction_eq_some.mpr ⟨y, z, ha y hy, hb z hz, h0, rfl⟩

end Keeps

/-- The second expression is the first one with other expressions in place of
leaves, each of which keeps the value of its leaf. -/
inductive Replaces (ρ : Coordinates) : Expr → Expr → Prop
  | refl (e : Expr) : Replaces ρ e e
  | quantity {q : Quantity} {e : Expr} (h : Keeps ρ (.quantity q) e) : Replaces ρ (.quantity q) e
  | term {t : Term} {e : Expr} (h : Keeps ρ (.term t) e) : Replaces ρ (.term t) e
  | polynomial {p : Polynomial} {e : Expr} (h : Keeps ρ (.polynomial p) e) :
    Replaces ρ (.polynomial p) e
  | neg {e e' : Expr} (h : Replaces ρ e e') : Replaces ρ (.neg e) (.neg e')
  | sum {a a' b b' : Expr} (ha : Replaces ρ a a') (hb : Replaces ρ b b') :
    Replaces ρ (.sum a b) (.sum a' b')
  | product {a a' b b' : Expr} (ha : Replaces ρ a a') (hb : Replaces ρ b b') :
    Replaces ρ (.product a b) (.product a' b')
  | fraction {a a' b b' : Expr} (ha : Replaces ρ a a') (hb : Replaces ρ b b') :
    Replaces ρ (.fraction a b) (.fraction a' b')

namespace Replaces

variable {ρ : Coordinates} {e e' : Expr}

/-- The whole keeps its value. -/
theorem keeps (h : Replaces ρ e e') : Keeps ρ e e' := by
  induction h with
  | refl e => exact .refl ρ e
  | quantity h => exact h
  | term h => exact h
  | polynomial h => exact h
  | neg _ ih => exact ih.neg
  | sum _ _ iha ihb => exact iha.sum ihb
  | product _ _ iha ihb => exact iha.product ihb
  | fraction _ _ iha ihb => exact iha.fraction ihb

theorem mapLeaves {P : Expr → Prop} (hP : Expr.Leafwise P) {onQuantity : Quantity → Expr}
    {onTerm : Term → Expr} {onPolynomial : Polynomial → Expr}
    (hq : ∀ q, Keeps ρ (.quantity q) (onQuantity q))
    (ht : ∀ t, P (.term t) → Keeps ρ (.term t) (onTerm t))
    (hp : ∀ p, P (.polynomial p) → Keeps ρ (.polynomial p) (onPolynomial p)) {e : Expr} (h : P e) :
    Replaces ρ e (e.mapLeaves onQuantity onTerm onPolynomial) := by
  induction e with
  | number n => exact refl _
  | quantity q => exact quantity (hq q)
  | neg e ih => exact (ih (hP.on_neg.mp h)).neg
  | sum a b iha ihb => exact (iha (hP.on_sum.mp h).1).sum (ihb (hP.on_sum.mp h).2)
  | product a b iha ihb => exact (iha (hP.on_product.mp h).1).product (ihb (hP.on_product.mp h).2)
  | fraction a b iha ihb =>
    exact (iha (hP.on_fraction.mp h).1).fraction (ihb (hP.on_fraction.mp h).2)
  | term t => exact term (ht t h)
  | polynomial p => exact polynomial (hp p h)

theorem canonical {known : Triples} (hk : known.HoldAt ρ) (he : e.Fits known) :
    Replaces ρ e (e.canonical known) := by
  refine mapLeaves (Expr.leafwise_fits known) (fun q x => ?_) (fun t ht x => ?_)
    (fun p hp x => ?_) he
  · exact Quantity.value_canonical hk
  · exact Term.value_canonical hk ht
  · exact Polynomial.value_canonical hk hp

theorem unfold (ρ : Coordinates) (e : Expr) : Replaces ρ e e.unfold :=
  mapLeaves (Expr.leafwise_all fun _ => True) (fun _ => Keeps.refl ρ _)
    (fun t _ _ hx => (Term.value_toExpr _ t).trans hx)
    (fun p _ _ hx => (Polynomial.value_toExpr _ p).trans hx) fun _ _ => trivial

theorem expose (ρ : Coordinates) (y : Point) (e : Expr) : Replaces ρ e (e.expose y) := by
  refine mapLeaves (Expr.leafwise_all fun _ => True) (fun _ => Keeps.refl ρ _) (fun t _ => ?_)
    (fun p _ => ?_) fun _ _ => trivial
  · split_ifs
    · exact fun _ hx => (Term.value_toExpr _ t).trans hx
    · exact Keeps.refl ρ _
  · split_ifs
    · exact fun _ hx => (Polynomial.value_toExpr _ p).trans hx
    · exact Keeps.refl ρ _

end Replaces

open Eliminator

/-! ### Computations -/

section Computes

variable {σ α β : Type} {ρ : Coordinates}

/-- The value of the computation has the property `P`, provided that the record
is true at the end. The record grows, and remembers what was affirmed. -/
def Computes (ρ : Coordinates) (x : EliminateM σ α) (P : α → Prop) : Prop :=
  ∀ el : Eliminator σ, el.Remembers →
    Leads x el (fun a el' => el.Extends el' ∧ el'.Remembers ∧ (TrueAt ρ el' → P a)) fun _ _ => True

theorem computes_pure {a : α} {P : α → Prop} (h : P a) :
    Computes ρ (pure a : EliminateM σ α) P :=
  fun el hr => ⟨Extends.refl el, hr, fun _ => h⟩

theorem computes_throw (f : Fault) (P : α → Prop) : Computes ρ (throw f : EliminateM σ α) P :=
  fun _ _ => trivial

theorem Computes.mono {x : EliminateM σ α} {P P' : α → Prop} (h : Computes ρ x P)
    (hP : ∀ a, P a → P' a) : Computes ρ x P' := fun el hr =>
  (h el hr).mono (fun a _ ⟨hext, hr', ha⟩ => ⟨hext, hr', fun ht => hP a (ha ht)⟩) fun _ _ => id

/-- What the first part achieves is at the disposal of the second. -/
theorem Computes.bind {x : EliminateM σ α} {f : α → EliminateM σ β} {P : α → Prop} {R : β → Prop}
    (hx : Computes ρ x P) (hf : ∀ a, Computes ρ (f a) fun b => P a → R b) :
    Computes ρ (x >>= f) R := by
  intro el hr
  refine leads_bind.mpr ((hx el hr).mono (fun a el' ⟨hext, hr', ha⟩ => ?_) fun _ _ => id)
  refine (hf a el' hr').mono (fun b el'' ⟨hext', hr'', hb⟩ => ?_) fun _ _ => id
  exact ⟨hext.trans hext', hr'', fun ht => hb ht (ha (ht.of_extends hext'))⟩

theorem computes_record (group : LemmaGroup) (how : Construction) :
    Computes ρ (record group how : EliminateM σ Unit) fun _ => True :=
  fun _ hr => leads_modify.mpr ⟨⟨List.prefix_refl _, List.prefix_refl _⟩, hr, fun _ => trivial⟩

theorem computes_require (e : Expr) :
    Computes ρ (require e : EliminateM σ Unit) fun _ => (e.canonical .empty).NonzeroAt ρ := by
  intro el hr
  refine leads_modify.mpr ⟨⟨List.prefix_refl _, ?_⟩, hr, fun ht => ht.conditions _ ?_⟩
  · simp only
    split_ifs
    · exact List.prefix_refl _
    · exact List.prefix_append _ _
  · simp only
    split_ifs with hmem
    · exact hmem
    · exact List.mem_append_right _ (.head _)

theorem computes_divide (n d : Expr) :
    Computes ρ (divide n d : EliminateM σ Expr) fun e =>
      e = .fraction n d ∧ (d.canonical .empty).NonzeroAt ρ :=
  (computes_require d).bind fun _ => computes_pure fun h => ⟨rfl, h⟩

theorem collinear_of_decidesCollinear {known : Triples} (hk : known.HoldAt ρ) {a b c : Point}
    (h : known.decidesCollinear a b c) : Collinear ρ a b c := by
  have hzero : (Quantity.area a b c).canonical known = .zero := by
    simpa [Triples.decidesCollinear] using h
  have hvalue := Quantity.value_canonical hk (q := .area a b c) rfl
  rw [hzero] at hvalue
  have hcross : (0 : ℚ) = (ρ b - ρ a).cross (ρ c - ρ a) / 2 := by
    simpa [Canonical.toExpr, Expr.value] using hvalue
  simpa [Collinear] using hcross.symm

theorem computes_collinear (oracle : Oracle σ) (a b c : Point) :
    Computes ρ (collinear oracle a b c) fun answer => (answer = true ↔ Collinear ρ a b c) := by
  intro el hr
  have hright : ∀ {d : Decision} {el' : Eliminator σ},
      (⟨.collinear a b c, .ok d⟩ : Question) ∈ el'.asked → TrueAt ρ el' →
        (d = .holds → Collinear ρ a b c) ∧ (d = .fails → ¬ Collinear ρ a b c) := by
    intro d el' hmem ht
    have h := ht.answers _ hmem
    constructor
    · rintro rfl
      have h0 : some ((ρ b - ρ a).cross (ρ c - ρ a) / 2) = some 0 := h
      simpa [Collinear] using h0
    · rintro rfl hcol
      refine h ?_
      change some ((ρ b - ρ a).cross (ρ c - ρ a) / 2) = some 0
      rw [hcol, zero_div]
  refine leads_collinear (fun hknown => ?_) (fun m _ => ?_) (fun m _ => ?_) (fun _ _ => trivial)
    fun _ _ _ => trivial
  · refine ⟨Extends.refl el, hr, fun ht => ?_⟩
    exact ⟨fun _ => collinear_of_decidesCollinear (ht.holdAt hr) hknown, fun _ => rfl⟩
  · refine ⟨⟨List.prefix_append _ _, List.prefix_refl _⟩, hr.learned a b c m, fun ht => ?_⟩
    exact ⟨fun _ => (hright (List.mem_append_right _ (.head _)) ht).1 rfl, fun _ => rfl⟩
  · refine ⟨extends_answered _ _ _ _, hr.answered (by simp) m, fun ht => ?_⟩
    exact ⟨fun h => absurd h Bool.false_ne_true,
      fun h => absurd h ((hright (List.mem_append_right _ (.head _)) ht).2 rfl)⟩

/-- **Replacing quantities by equal values.** -/
theorem computes_bindQuantities {f : Quantity → EliminateM σ Expr} {Q : Quantity → Prop}
    (hf : ∀ q, Computes ρ (f q) fun e => Q q → Keeps ρ (.quantity q) e) :
    ∀ e : Expr, Computes ρ (e.bindQuantities f) fun e' => e.All Q → Replaces ρ e e'
  | .number _ => computes_pure fun _ => .refl _
  | .quantity q => (hf q).mono fun _ he hQ => .quantity (he (Expr.all_quantity.mp hQ))
  | .neg e => (computes_bindQuantities hf e).bind fun _ => computes_pure fun he hQ =>
      (he (Expr.all_neg.mp hQ)).neg
  | .sum a b => (computes_bindQuantities hf a).bind fun _ =>
      (computes_bindQuantities hf b).bind fun _ => computes_pure fun hb ha hQ =>
        (ha (Expr.all_sum.mp hQ).1).sum (hb (Expr.all_sum.mp hQ).2)
  | .product a b => (computes_bindQuantities hf a).bind fun _ =>
      (computes_bindQuantities hf b).bind fun _ => computes_pure fun hb ha hQ =>
        (ha (Expr.all_product.mp hQ).1).product (hb (Expr.all_product.mp hQ).2)
  | .fraction a b => (computes_bindQuantities hf a).bind fun _ =>
      (computes_bindQuantities hf b).bind fun _ => computes_pure fun hb ha hQ =>
        (ha (Expr.all_fraction.mp hQ).1).fraction (hb (Expr.all_fraction.mp hQ).2)
  | .term _ => computes_pure fun _ => .refl _
  | .polynomial _ => computes_pure fun _ => .refl _

end Computes
end AreaMethod
