/-
# Signs in front of expressions

An expression may have negations in front, and a number has a sign of its own.
Whether their number is odd is all that simplification makes of them: the
negation of an expression simplifies to the negation of what the expression
simplifies to (`Expr.simplify_neg`), so two expressions that are equal up to
signs have equal simplifications up to one sign (`Expr.simplify_signed_congr`).

A pass of the rules may remove signs that it finds below a negation, and so
change how many there are, but it does the same to two expressions that are equal
up to signs: they stay equal up to signs, and stay opposite or not
(`Expr.unsigned_simplifyStep`).

Key definitions: `Expr.unsigned`, `Expr.isNegative`, `Expr.signed`,
`Expr.Opposite`.
Key theorems: `Expr.simplify_neg`, `Expr.simplify_signed_congr`,
`Expr.unsigned_simplifyStep`.
-/
import Mathlib
import AreaMethod.Proofs.SimplifiedForm

namespace AreaMethod
namespace Expr

/-- The expression without the negations in front, and without the sign of a
number. -/
def unsigned : Expr → Expr
  | number n => number n.natAbs
  | neg e => e.unsigned
  | e => e

/-- The signs that `unsigned` drops are odd in number. -/
def isNegative : Expr → Bool
  | number n => decide (n < 0)
  | neg e => !e.isNegative
  | _ => false

/-- The expression, or its negation if `negative`. -/
def signed (negative : Bool) (e : Expr) : Expr := if negative then neg e else e

/-- One expression has a sign more than the other, and that is all. -/
def Opposite (x a : Expr) : Prop := x.unsigned = a.unsigned ∧ x.isNegative = !a.isNegative

variable {a b d e x : Expr}

/-! ### Simplification of a negation -/

theorem simplify_of_step {e' : Expr} (h : e.simplifyStep = .ok e') : e.simplify = e'.simplify := by
  by_cases heq : e' = e
  · rw [heq]
  · exact simplify_of_pass h heq

theorem fixed_negRule (h : e.Fixed) : e.negRule.Fixed := by
  cases e with
  | number n => exact rfl
  | neg x => exact (fixed_neg.mp h).1
  | _ => exact fixed_neg.mpr ⟨h, rfl⟩

theorem negRule_negRule (h : e.Fixed) : e.negRule.negRule = e := by
  cases e with
  | number n => exact congrArg number (neg_neg n)
  | neg x => exact (fixed_neg.mp h).2
  | _ => rfl

theorem map_negRule_map_negRule (e : Expr) : negRule <$> negRule <$> e.simplify = e.simplify := by
  cases h : e.simplify with
  | error f => rfl
  | ok r => exact congrArg Except.ok (negRule_negRule (fixed_of_simplify h))

theorem rank_lt_rank_neg (e : Expr) : e.rank < (neg e).rank := by
  rw [rank, rank, Prod.Lex.toLex_lt_toLex]
  exact .inl (by simp [weight])

/-- **The negation of an expression simplifies to the negation.** -/
theorem simplify_neg (e : Expr) : (neg e).simplify = negRule <$> e.simplify := by
  induction hr : e.rank using WellFoundedLT.induction generalizing e with
  | ind r ih =>
    cases hs : e.simplifyStep with
    | error f =>
      have hneg : (neg e).simplifyStep = .error f := by rw [simplifyStep, hs]; rfl
      rw [simplify_of_error hneg, simplify_of_error hs]
      rfl
    | ok e' =>
      have hneg : (neg e).simplifyStep = .ok e'.negRule := by rw [simplifyStep, hs]; rfl
      rw [simplify_of_step hneg, simplify_of_step hs]
      by_cases heq : e' = e
      · have hfixed : e'.Fixed := by rw [heq]; exact heq ▸ hs
        rw [simplify_of_fixed (fixed_negRule hfixed), simplify_of_fixed hfixed]
        rfl
      · have hlt : e'.rank < r := hr ▸ rank_lt_of_simplifyStep hs heq
        cases e' with
        | number n => rw [simplify_of_fixed rfl, negRule, simplify_of_fixed rfl]; rfl
        | neg x =>
          -- the two negations cancel, and what is below them is lighter
          rw [ih _ ((rank_lt_rank_neg x).trans hlt) x rfl, map_negRule_map_negRule]
          rfl
        | _ => exact ih _ hlt _ rfl

theorem simplify_signed (s : Bool) (e : Expr) :
    (signed s e).simplify = if s then negRule <$> e.simplify else e.simplify := by
  cases s with
  | false => rfl
  | true => exact simplify_neg e

theorem simplify_signed_signed (s t : Bool) (e : Expr) :
    (signed s (signed t e)).simplify = (signed (s ^^ t) e).simplify := by
  cases s with
  | false => rw [Bool.false_xor]; rfl
  | true =>
    cases t with
    | false => rfl
    | true =>
      change (neg (neg e)).simplify = e.simplify
      rw [simplify_neg, simplify_neg, map_negRule_map_negRule]

/-- The signs of an expression can be put into one. -/
theorem simplify_eq_signed : ∀ e : Expr, e.simplify = (signed e.isNegative e.unsigned).simplify
  | number n => by
    by_cases h : n < 0
    · have hn : -(n.natAbs : ℤ) = n := by omega
      have hstep : (neg (number n.natAbs)).simplifyStep = .ok (number n) :=
        congrArg (fun k => Except.ok (number k)) hn
      simp only [isNegative, h, decide_true, unsigned, signed, if_true]
      rw [simplify_of_step hstep]
    · have hn : (n.natAbs : ℤ) = n := by omega
      simp [isNegative, h, unsigned, signed, hn]
  | neg x => by
    calc (neg x).simplify
      _ = negRule <$> (signed x.isNegative x.unsigned).simplify := by
        rw [simplify_neg, simplify_eq_signed x]
      _ = (signed true (signed x.isNegative x.unsigned)).simplify := (simplify_neg _).symm
      _ = (signed (neg x).isNegative (neg x).unsigned).simplify := by
        rw [simplify_signed_signed, Bool.true_xor]
        rfl
  | quantity _ | sum _ _ | product _ _ | fraction _ _ | term _ | polynomial _ => rfl

/-- **Only the parity of the signs matters.** -/
theorem simplify_signed_congr {s t : Bool} (h : a.unsigned = b.unsigned)
    (hs : (s ^^ a.isNegative) = (t ^^ b.isNegative)) :
    (signed s a).simplify = (signed t b).simplify := by
  have hall : ∀ (s : Bool) (e : Expr),
      (signed s e).simplify = (signed (s ^^ e.isNegative) e.unsigned).simplify := by
    intro s e
    rw [simplify_signed, simplify_eq_signed e, ← simplify_signed, simplify_signed_signed]
  rw [hall s a, hall t b, h, hs]

/-! ### Signs and passes -/

theorem unsigned_negRule (e : Expr) : e.negRule.unsigned = e.unsigned := by
  cases e with
  | number n => simp [negRule, unsigned]
  | _ => rfl

theorem isNegative_negRule (h : e.unsigned ≠ number 0) : e.negRule.isNegative = !e.isNegative := by
  cases e with
  | number n =>
    have hn : n ≠ 0 := by simpa [unsigned] using h
    simp only [negRule, isNegative, ← decide_not, decide_eq_decide]
    omega
  | neg x => simp [negRule, isNegative]
  | _ => rfl

/-- A pass over an expression does to the signs in front what they ask for, and to
the rest what a pass over the rest does. -/
theorem exists_simplifyStep_unsigned : ∀ {e e' : Expr}, e.simplifyStep = .ok e' →
    ∃ c, e.unsigned.simplifyStep = .ok c ∧ e'.unsigned = c.unsigned ∧
      (c.unsigned ≠ number 0 → e'.isNegative = (e.isNegative ^^ c.isNegative))
  | number n, e', h => by
    cases h
    have hmagnitude : (number n.natAbs).isNegative = false := decide_eq_false (by omega)
    exact ⟨number n.natAbs, rfl, by simp [unsigned], fun _ => by rw [hmagnitude, Bool.xor_false]⟩
  | neg x, e', h => by
    obtain ⟨x', hx, h⟩ := bind_eq_ok.mp h
    cases h
    obtain ⟨c, hc, hunsigned, hnegative⟩ := exists_simplifyStep_unsigned hx
    refine ⟨c, hc, (unsigned_negRule x').trans hunsigned, fun h0 => ?_⟩
    rw [isNegative_negRule (hunsigned ▸ h0), hnegative h0]
    simp [isNegative]
  | quantity _, e', h | sum _ _, e', h | product _ _, e', h | fraction _ _, e', h | term _, e', h
  | polynomial _, e', h => ⟨e', h, rfl, fun _ => (Bool.false_xor _).symm⟩

/-- **Passes go side by side.** Two expressions that are equal up to signs stay so,
and unless they vanish they stay opposite or not. -/
theorem unsigned_simplifyStep {a' b' : Expr} (ha : a.simplifyStep = .ok a')
    (hb : b.simplifyStep = .ok b') (h : a.unsigned = b.unsigned) :
    a'.unsigned = b'.unsigned ∧ (b'.unsigned ≠ number 0 →
      (a'.isNegative ^^ b'.isNegative) = (a.isNegative ^^ b.isNegative)) := by
  obtain ⟨c, hc, hca, hsa⟩ := exists_simplifyStep_unsigned ha
  obtain ⟨c', hc', hcb, hsb⟩ := exists_simplifyStep_unsigned hb
  rw [h, hc'] at hc
  obtain rfl := Except.ok.inj hc
  refine ⟨hca.trans hcb.symm, fun h0 => ?_⟩
  rw [hcb] at h0
  rw [hsa h0, hsb h0]
  cases a.isNegative <;> cases b.isNegative <;> cases c'.isNegative <;> rfl

/-! ### Taking out a sign -/

theorem opposite_of_negated? (h : a.negated? = some x) : Opposite x a := by
  rw [eq_neg_of_negated? h]
  exact ⟨rfl, (Bool.not_not _).symm⟩

theorem opposite_of_magnitude? (h : a.magnitude? = some x) : Opposite x a := by
  cases a with
  | number n =>
    simp only [magnitude?] at h
    split_ifs at h with hn
    cases h
    refine ⟨by simp [unsigned], ?_⟩
    simp only [isNegative, ← decide_not, decide_eq_decide]
    omega
  | _ => cases h

/-- One of the operands loses a sign. -/
theorem opposite_of_signOut? {node : Expr → Expr → Expr} (h : signOut? node a b = some e) :
    ∃ x y, e = node x y ∧ (Opposite x a ∧ y = b ∨ x = a ∧ Opposite y b) := by
  unfold signOut? at h
  split at h
  next x hx =>
    cases h
    exact ⟨x, b, rfl, .inl ⟨opposite_of_negated? hx, rfl⟩⟩
  · split at h
    next y hy =>
      cases h
      exact ⟨a, y, rfl, .inr ⟨rfl, opposite_of_negated? hy⟩⟩
    · split at h
      next x hx =>
        cases h
        exact ⟨x, b, rfl, .inl ⟨opposite_of_magnitude? hx, rfl⟩⟩
      · obtain ⟨y, hy, rfl⟩ := Option.map_eq_some_iff.mp h
        exact ⟨a, y, rfl, .inr ⟨rfl, opposite_of_magnitude? hy⟩⟩

/-- With no sign on the left, it is the right operand that loses one. -/
theorem exists_opposite_of_signOut? {node : Expr → Expr → Expr} (hn : a.negated? = none)
    (hm : a.magnitude? = none) (h : signOut? node a b = some e) :
    ∃ y, e = node a y ∧ Opposite y b := by
  simp only [signOut?, hn, hm] at h
  split at h
  next y hy =>
    cases h
    exact ⟨y, rfl, opposite_of_negated? hy⟩
  · obtain ⟨y, hy, rfl⟩ := Option.map_eq_some_iff.mp h
    exact ⟨y, rfl, opposite_of_magnitude? hy⟩

/-- An expression without a sign to take out. -/
theorem unsigned_eq_self (hn : e.negated? = none) (hm : e.magnitude? = none) :
    e.unsigned = e := by
  cases e with
  | number n =>
    have := nonneg_of_magnitude? hm
    exact congrArg number (by omega)
  | neg x => cases hn
  | _ => rfl

end Expr
end AreaMethod
