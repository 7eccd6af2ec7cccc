/-
# The form of simplified expressions

Simplification ends at an expression that a pass of the rules does not change.
Then no part of it changes either: a pass replaces each operand by one that is
equal or lighter, and a lighter operand makes the whole lighter, so the rule at
the root could not bring the old expression back (`Expr.fixed_product` and its
like). A node whose operands are fixed and that its own rule leaves alone has no
operand that the rule would have taken up, such as a zero or a sign
(`Expr.Tidy`).

Key definitions: `Expr.subtrees`, `Expr.Fixed`, `Expr.Tidy`.
Key theorems: `Expr.fixed_of_mem_subtrees`, `Expr.tidy_of_fixed`,
`Expr.simplify_settles`.
-/
import Mathlib
import AreaMethod.Proofs.Simplification

namespace AreaMethod
namespace Expr

/-- The expression and all expressions inside it. -/
def subtrees : Expr → List Expr
  | neg e => neg e :: e.subtrees
  | sum a b => sum a b :: (a.subtrees ++ b.subtrees)
  | product a b => product a b :: (a.subtrees ++ b.subtrees)
  | fraction a b => fraction a b :: (a.subtrees ++ b.subtrees)
  | e => [e]

/-- A pass of the rules leaves the expression as it is. -/
def Fixed (e : Expr) : Prop := e.simplifyStep = .ok e

/-- The numerator and the denominator of a fraction. -/
def fraction? : Expr → Option (Expr × Expr)
  | fraction a b => some (a, b)
  | _ => none

/-- No operand of the node is a zero, a one or a sign in a place where a rule takes
it up. Numbers below a bar and in a product are at least two, and above a bar at
least one; a fraction does not stand above or below a bar, and a packed node is no
constant. -/
def Tidy : Expr → Prop
  | number _ => True
  | quantity _ => True
  | neg e => e.negated? = none ∧ e.number? = none
  | sum a b => a.isZero = false ∧ b.isZero = false ∧ (a.negated? = none ∨ b.negated? = none)
  | product a b => ∀ f ∈ [a, b],
    f.isZero = false ∧ f.negated? = none ∧ ∀ k, f.number? = some k → 1 < k
  | fraction n d => n ≠ d ∧
    (n.isZero = false ∧ n.negated? = none ∧ n.fraction? = none ∧ ∀ k, n.number? = some k → 0 < k) ∧
    d.isZero = false ∧ d.negated? = none ∧ d.fraction? = none ∧ ∀ k, d.number? = some k → 1 < k
  | term t => t.isZero = false ∧ t.powers.isOne = false
  | polynomial p => p.constant? = none

variable {a b d e n : Expr}

/-! ### Parts of fixed expressions -/

theorem Lighter.irrefl (e : Expr) : ¬ Lighter e e := by
  unfold Lighter
  omega

/-- Two expressions are equal if neither has become heavier. -/
theorem eq_of_eq_or_lighter (h : a = b ∨ Lighter a b) (h' : b = a ∨ Lighter b a) : a = b := by
  rcases h with h | h
  · exact h
  · rcases h' with h' | h'
    · exact h'.symm
    · exact absurd (h.trans h') (Lighter.irrefl a)

theorem fixed_neg : (neg e).Fixed ↔ e.Fixed ∧ e.negRule = neg e := by
  unfold Fixed
  constructor
  · intro h
    obtain ⟨e', he, h⟩ := bind_eq_ok.mp h
    have hrule : e'.negRule = neg e := Except.ok.inj h
    have hup : neg e = neg e' ∨ Lighter (neg e) (neg e') := by
      rw [← hrule]
      exact (negRule_lighter e').imp id .inl
    have hsame := eq_of_eq_or_lighter (neg_lighter (eq_or_lighter_of_simplifyStep he)) hup
    obtain rfl := neg.inj hsame
    exact ⟨he, hrule⟩
  · rintro ⟨he, hrule⟩
    rw [simplifyStep, he]
    exact congrArg Except.ok hrule

/-- A node with two operands is fixed exactly if its operands are and its rule
leaves it alone, provided that a rule never makes a node heavier and lighter
operands make it lighter. -/
theorem fixed_node {node : Expr → Expr → Expr} (rule : Expr → Expr → Except Fault Expr)
    (hstep : ∀ a b, (node a b).simplifyStep = do rule (← a.simplifyStep) (← b.simplifyStep))
    (hrule : ∀ {a b e}, rule a b = .ok e → e = node a b ∨ Lighter e (node a b))
    (hnode : ∀ {a b a' b'}, a' = a ∨ Lighter a' a → b' = b ∨ Lighter b' b →
      node a' b' = node a b ∨ Lighter (node a' b') (node a b))
    (hinj : ∀ {a b a' b'}, node a b = node a' b' → a = a' ∧ b = b') :
    (node a b).Fixed ↔ a.Fixed ∧ b.Fixed ∧ rule a b = .ok (node a b) := by
  unfold Fixed
  rw [hstep]
  constructor
  · intro h
    obtain ⟨a', ha, h⟩ := bind_eq_ok.mp h
    obtain ⟨b', hb, h⟩ := bind_eq_ok.mp h
    have hdown := hnode (eq_or_lighter_of_simplifyStep ha) (eq_or_lighter_of_simplifyStep hb)
    obtain ⟨rfl, rfl⟩ := hinj (eq_of_eq_or_lighter hdown (hrule h))
    exact ⟨ha, hb, h⟩
  · rintro ⟨ha, hb, h⟩
    rw [ha, hb]
    exact h

theorem fixed_sum : (sum a b).Fixed ↔ a.Fixed ∧ b.Fixed ∧ sumRule a b = sum a b := by
  have h := fixed_node (a := a) (b := b) (fun a b => .ok (sumRule a b)) (fun _ _ => rfl)
    (fun {a b _} h => Except.ok.inj h ▸ (sumRule_lighter a b).imp id .inl) sum_lighter sum.inj
  rw [h, Except.ok.injEq]

theorem fixed_product :
    (product a b).Fixed ↔ a.Fixed ∧ b.Fixed ∧ productRule a b = product a b := by
  have h := fixed_node (a := a) (b := b) (fun a b => .ok (productRule a b))
    (fun _ _ => rfl) (fun {a b _} h => Except.ok.inj h ▸ (productRule_lighter a b).imp id .inl)
    product_lighter product.inj
  rw [h, Except.ok.injEq]

theorem fixed_fraction :
    (fraction a b).Fixed ↔ a.Fixed ∧ b.Fixed ∧ fractionRule a b = .ok (fraction a b) :=
  fixed_node fractionRule (fun _ _ => rfl) fractionRule_lighter fraction_lighter fraction.inj

/-- **No part of a fixed expression changes.** -/
theorem fixed_of_mem_subtrees : ∀ {e s : Expr}, e.Fixed → s ∈ e.subtrees → s.Fixed
  | neg e, s, he, hs => by
    rcases List.mem_cons.mp hs with rfl | hs
    · exact he
    · exact fixed_of_mem_subtrees (fixed_neg.mp he).1 hs
  | sum a b, s, he, hs => by
    rcases List.mem_cons.mp hs with rfl | hs
    · exact he
    · obtain ⟨ha, hb, -⟩ := fixed_sum.mp he
      rcases List.mem_append.mp hs with hs | hs
      · exact fixed_of_mem_subtrees ha hs
      · exact fixed_of_mem_subtrees hb hs
  | product a b, s, he, hs => by
    rcases List.mem_cons.mp hs with rfl | hs
    · exact he
    · obtain ⟨ha, hb, -⟩ := fixed_product.mp he
      rcases List.mem_append.mp hs with hs | hs
      · exact fixed_of_mem_subtrees ha hs
      · exact fixed_of_mem_subtrees hb hs
  | fraction a b, s, he, hs => by
    rcases List.mem_cons.mp hs with rfl | hs
    · exact he
    · obtain ⟨ha, hb, -⟩ := fixed_fraction.mp he
      rcases List.mem_append.mp hs with hs | hs
      · exact fixed_of_mem_subtrees ha hs
      · exact fixed_of_mem_subtrees hb hs
  | number _, s, he, hs | quantity _, s, he, hs | term _, s, he, hs | polynomial _, s, he, hs => by
    rw [List.mem_singleton.mp hs]
    exact he

/-! ### Rules that leave a node alone -/

theorem ofRat_ne_sum (r : ℚ) : ofRat r ≠ sum a b := by
  unfold ofRat
  split_ifs <;> exact fun h => nomatch h

theorem ofRat_ne_product (r : ℚ) : ofRat r ≠ product a b := by
  unfold ofRat
  split_ifs <;> exact fun h => nomatch h

/-- No sign can be taken out of two operands without signs. -/
theorem signOut?_eq_none {node : Expr → Expr → Expr} (h : signOut? node a b = none) :
    a.negated? = none ∧ b.negated? = none ∧ a.magnitude? = none ∧ b.magnitude? = none := by
  unfold signOut? at h
  cases ha : a.negated? with
  | some x => simp [ha] at h
  | none =>
    cases hb : b.negated? with
    | some y => simp [ha, hb] at h
    | none =>
      cases ha' : a.magnitude? with
      | some x => simp [ha, hb, ha'] at h
      | none => exact ⟨rfl, rfl, rfl, by simpa [ha, hb, ha'] using h⟩

theorem eq_neg_of_negated? {x : Expr} (h : e.negated? = some x) : e = neg x := by
  cases e <;> cases h
  rfl

theorem eq_number_of_number? {k : ℤ} (h : e.number? = some k) : e = number k := by
  cases e <;> cases h
  rfl

theorem nonneg_of_magnitude? {k : ℤ} (h : (number k).magnitude? = none) : 0 ≤ k := by
  simp only [magnitude?] at h
  split_ifs at h with hneg
  omega

theorem tidy_neg (h : e.negRule = neg e) : (neg e).Tidy := by
  cases e with
  | number n => cases h
  | neg x => cases h
  | _ => exact ⟨rfl, rfl⟩

theorem tidy_sum (h : sumRule a b = sum a b) : (sum a b).Tidy := by
  unfold sumRule at h
  split_ifs at h with ha hb
  · cases h
  · cases h
  · refine ⟨by simpa using ha, by simpa using hb, ?_⟩
    by_contra hsigns
    obtain ⟨hx, hy⟩ := not_or.mp hsigns
    obtain ⟨x, hx⟩ := Option.ne_none_iff_exists'.mp hx
    obtain ⟨y, hy⟩ := Option.ne_none_iff_exists'.mp hy
    split at h
    · exact absurd h (ofRat_ne_sum _)
    · rw [eq_neg_of_negated? hx, eq_neg_of_negated? hy] at h
      cases h

theorem tidy_product (h : productRule a b = product a b) : (product a b).Tidy := by
  unfold productRule at h
  split_ifs at h with hzero hone hone'
  · cases h
  · cases h
  · split at h
    · exact absurd h (ofRat_ne_product _)
    · unfold productSigns at h
      split at h
      · cases h
      next hsigns =>
        obtain ⟨hna, hnb, hma, hmb⟩ := signOut?_eq_none hsigns
        simp only [Bool.or_eq_true, not_or, Bool.not_eq_true] at hzero
        have hbig : ∀ {f : Expr}, f.isZero = false → ¬ f.isOne → f.magnitude? = none →
            ∀ k, f.number? = some k → 1 < k := by
          intro f h0 h1 hm k hk
          obtain rfl := eq_number_of_number? hk
          have := nonneg_of_magnitude? hm
          have h0' : k ≠ 0 := by simpa [isZero] using h0
          have h1' : k ≠ 1 := by simpa [isOne] using h1
          omega
        simp only [Tidy, List.forall_mem_cons]
        exact ⟨⟨hzero.1, hna, hbig hzero.1 hone hma⟩, ⟨hzero.2, hnb, hbig hzero.2 hone' hmb⟩,
          List.forall_mem_nil _⟩

/-- A constant in lowest terms that is a fraction has a positive numerator, unless it
is zero, and a denominator above one. -/
theorem eq_numbers_of_ofRat {r : ℚ} (h : ofRat r = fraction n d) :
    ∃ k l : ℤ, n = number k ∧ d = number l ∧ 0 ≤ k ∧ 1 < l := by
  unfold ofRat at h
  split_ifs at h with hden hnum
  obtain ⟨rfl, rfl⟩ := fraction.inj h
  have := r.den_pos
  exact ⟨r.num, r.den, rfl, rfl, by omega, by omega⟩

/-- The rule for fractions of operands that are not both constants leaves the node
alone only if it has no signs and no fractions inside. -/
theorem eq_none_of_fractionSigns (h : fractionSigns n d = fraction n d) :
    (n.negated? = none ∧ n.magnitude? = none ∧ n.fraction? = none) ∧
      d.negated? = none ∧ d.magnitude? = none ∧ d.fraction? = none := by
  unfold fractionSigns at h
  split at h
  · cases h
  next hsigns =>
    obtain ⟨hsn, hsd, hmn, hmd⟩ := signOut?_eq_none hsigns
    split at h
    · cases h
    next hd =>
      have hfd : d.fraction? = none := by
        cases d with
        | fraction x y => exact absurd rfl (hd x y)
        | _ => rfl
      split at h
      · cases h
      next hn =>
        have hfn : n.fraction? = none := by
          cases n with
          | fraction x y => exact absurd rfl (hn x y)
          | _ => rfl
        exact ⟨⟨hsn, hmn, hfn⟩, hsd, hmd, hfd⟩

theorem tidy_fraction (h : fractionRule n d = .ok (fraction n d)) : (fraction n d).Tidy := by
  unfold fractionRule at h
  split_ifs at h with hd hn heq hone hminus
  · cases h
  · cases h
  · cases h
  · cases h
  · have hd0 : d.isZero = false := by simpa using hd
    have hn0 : n.isZero = false := by simpa using hn
    have hnum : ∀ k, n = number k → k ≠ 0 := by
      rintro k rfl
      simpa [isZero] using hn0
    have hden : ∀ k, d = number k → k ≠ 0 ∧ k ≠ 1 := by
      rintro k rfl
      exact ⟨by simpa [isZero] using hd0, by simpa [isOne] using hone⟩
    split at h
    · -- two constants, in lowest terms
      obtain ⟨k, l, rfl, rfl, hk, hl⟩ := eq_numbers_of_ofRat (Except.ok.inj h)
      have hk0 := hnum k rfl
      refine ⟨heq, ⟨hn0, rfl, rfl, ?_⟩, hd0, rfl, rfl, ?_⟩
      · rintro m hm
        cases hm
        omega
      · rintro m hm
        cases hm
        exact hl
    · obtain ⟨⟨hsn, hmn, hfn⟩, hsd, hmd, hfd⟩ := eq_none_of_fractionSigns (Except.ok.inj h)
      refine ⟨heq, ⟨hn0, hsn, hfn, fun k hk => ?_⟩, hd0, hsd, hfd, fun k hk => ?_⟩
      · obtain rfl := eq_number_of_number? hk
        have := nonneg_of_magnitude? hmn
        have := hnum k rfl
        omega
      · obtain rfl := eq_number_of_number? hk
        have := nonneg_of_magnitude? hmd
        have := hden k rfl
        omega

/-- **A fixed expression is tidy.** -/
theorem tidy_of_fixed (h : e.Fixed) : e.Tidy := by
  cases e with
  | number n => trivial
  | quantity q => trivial
  | neg e => exact tidy_neg (fixed_neg.mp h).2
  | sum a b => exact tidy_sum (fixed_sum.mp h).2.2
  | product a b => exact tidy_product (fixed_product.mp h).2.2
  | fraction a b => exact tidy_fraction (fixed_fraction.mp h).2.2
  | term t =>
    have h := Except.ok.inj h
    split_ifs at h with hzero hone
    exact ⟨by simpa using hzero, by simpa using hone⟩
  | polynomial p =>
    have h := Except.ok.inj h
    cases hp : p.constant? with
    | none => exact hp
    | some n => rw [hp] at h; cases h

/-! ### Simplified expressions -/

theorem fixed_of_simplify {r : Expr} (h : e.simplify = .ok r) : r.Fixed := by
  obtain ⟨e', -, heq, hfix⟩ := simplify_run e
  have hr := heq.symm.trans h
  obtain rfl := hfix r hr
  exact hr

/-- **Simplified expressions are settled.** Every part of what simplification returns
is left alone by a pass, so by simplification, and its root is tidy. -/
theorem simplify_settles {e r : Expr} (h : e.simplify = .ok r) :
    ∀ s ∈ r.subtrees, s.simplifyStep = .ok s ∧ s.simplify = .ok s ∧ s.Tidy := by
  intro s hs
  have hfixed : s.Fixed := fixed_of_mem_subtrees (fixed_of_simplify h) hs
  exact ⟨hfixed, simplify_of_fixed hfixed, tidy_of_fixed hfixed⟩

end Expr

namespace Untidy

def x : Expr := .area Letters.a Letters.b Letters.c

def y : Expr := .area Letters.a Letters.b Letters.d

/-- `(-6 x) / (-y (1 t)) - 0`, with the constant `4` packed in `t`. -/
def expr : Expr := (.number (-6) * x) / (-y * (1 * .term ⟨4, Powers.one⟩)) - 0

/-- After one pass there are still two signs. -/
def between : Expr := -((6 * x) / -(y * 4))

def simplified : Expr := (6 * x) / (y * 4)

theorem simplify_expr : expr.simplify = .ok simplified := by
  have hfirst : expr.simplifyStep = .ok between := by rfl
  have hsecond : between.simplifyStep = .ok simplified := by rfl
  have hlast : simplified.simplifyStep = .ok simplified := by rfl
  rw [Expr.simplify_of_pass hfirst (by decide), Expr.simplify_of_pass hsecond (by decide),
    Expr.simplify_of_fixed hlast]

end Untidy

open Untidy in
theorem Expr.simplify_settles_quotient : expr.simplify = .ok simplified ∧
    ∀ s ∈ simplified.subtrees, s.simplifyStep = .ok s ∧ s.simplify = .ok s ∧ s.Tidy :=
  ⟨simplify_expr, simplify_settles simplify_expr⟩

end AreaMethod
