/-
# Exponents stay small

The expression in the frame is brought to one fraction, and numerator and
denominator are multiplied out. Bringing it to one fraction multiplies crosswise,
so numerator and denominator can be much larger than the expression itself. But
each factor of a product, above and below the bar, comes from a quantity of the
expression, and no quantity is used twice for one product. So the degree is at
most the number of quantities, and with it every exponent that occurs while
multiplying out is at most the size of the expression
(`Theorem.exponents_within`). The size is checked, so additions of exponents are
exact in 32 bits.

Key definitions: `Powers.total`, `Powers.Bounded`, `Expr.DegreeAtMost`, `Expr.Multiplies`,
`Expr.Summand`, `Expr.Forms`, `Theorem.framed`.
Key theorems: `Expr.degreeAtMost_toFractional`, `Expr.DegreeAtMost.exists_forms`,
`Expr.DegreeAtMost.forms`, `Theorem.attempt_eq_framed`, `Theorem.exponents_within`.
-/
import Mathlib
import AreaMethod.Proofs.FrameValue
import AreaMethod.Proofs.PolynomialText
import AreaMethod.Proofs.SimplifiedForm

namespace AreaMethod

open Eliminator

/-! ### Degrees of products and polynomials -/

namespace Powers

variable {p q : Powers} {m n : ℕ}

/-- The exact sum of the exponents. -/
def total (p : Powers) : ℤ := (p.entries.map Prod.snd).sum

/-- Exponents are added, so their sums are. -/
theorem total_add (p q : Powers) : (p + q).total = p.total + q.total :=
  Sparse.sumOver_add (fun _ => AddMonoidHom.id ℤ) p q

/-- All exponents are positive, and their sum is at most `n`. -/
structure Bounded (n : ℕ) (p : Powers) : Prop where
  positive : ∀ x ∈ p.entries, 1 ≤ x.2
  total_le : p.total ≤ n

theorem bounded_one (n : ℕ) : one.Bounded n :=
  ⟨fun _ hx => absurd hx List.not_mem_nil, by simp [total, one, Sparse.zero]⟩

theorem bounded_ofQuantity (x : Quantity) (hn : 1 ≤ n) : (Term.ofQuantity x).powers.Bounded n := by
  refine ⟨fun y hy => ?_, Int.ofNat_le.mpr hn⟩
  rw [List.mem_singleton.mp hy]

theorem Bounded.mono (h : p.Bounded m) (hmn : m ≤ n) : p.Bounded n :=
  ⟨h.positive, h.total_le.trans (Int.ofNat_le.mpr hmn)⟩

theorem Bounded.add (hp : p.Bounded m) (hq : q.Bounded n) : (p + q).Bounded (m + n) where
  positive := Sparse.forall_mem_merge_of_both (P := fun x => 1 ≤ x.2)
    (fun _ a b ha hb _ => by simp only at ha hb ⊢; omega) _ _ hp.positive hq.positive
  total_le := by
    rw [total_add, Nat.cast_add]
    exact add_le_add hp.total_le hq.total_le

theorem Bounded.le (h : p.Bounded n) {x : Quantity × ℤ} (hx : x ∈ p.entries) : x.2 ≤ n := by
  have hsingle : x.2 ≤ p.total := by
    refine List.single_le_sum (fun k hk => ?_) x.2 (List.mem_map_of_mem hx)
    obtain ⟨y, hy, rfl⟩ := List.mem_map.mp hk
    exact zero_le_one.trans (h.positive y hy)
  exact hsingle.trans h.total_le

theorem Bounded.get_mem (h : p.Bounded n) (x : Quantity) : 0 ≤ p.get x ∧ p.get x ≤ n := by
  by_cases hx : p.get x = 0
  · rw [hx]
    exact ⟨le_rfl, Int.natCast_nonneg n⟩
  · have hmem : (x, p.get x) ∈ p.entries := Sparse.mem_entries_iff.mpr ⟨hx, rfl⟩
    exact ⟨zero_le_one.trans (h.positive _ hmem), h.le hmem⟩

end Powers

namespace Polynomial

variable {p q : Polynomial} {m n : ℕ}

/-- All products of the polynomial have positive exponents with a sum of at most
`n`. -/
def Bounded (n : ℕ) (p : Polynomial) : Prop := ∀ x ∈ p.entries, x.1.Bounded n

theorem Bounded.mono (h : p.Bounded m) (hmn : m ≤ n) : p.Bounded n :=
  fun x hx => (h x hx).mono hmn

theorem Bounded.term (h : p.Bounded n) {t : Term} (ht : t ∈ p.terms) : t.powers.Bounded n := by
  obtain ⟨x, hx, rfl⟩ := List.mem_map.mp ht
  exact h x hx

theorem bounded_ofTerm {t : Term} (h : t.powers.Bounded n) : (ofTerm t).Bounded n := by
  intro x hx
  rw [(Sparse.mem_entries_single hx).1]
  exact h

theorem Bounded.neg (h : p.Bounded n) : (-p).Bounded n := by
  intro x hx
  obtain ⟨y, hy, rfl⟩ := List.mem_map.mp (List.mem_filter.mp hx).1
  exact h y hy

theorem Bounded.add (hp : p.Bounded n) (hq : q.Bounded n) : (p + q).Bounded n :=
  Sparse.forall_add (P := fun x : Powers × ℤ => x.1.Bounded n) (fun _ _ _ h _ => h) hp hq

theorem Bounded.mul (hp : p.Bounded m) (hq : q.Bounded n) : (p * q).Bounded (m + n) := by
  refine Sparse.forall_sumMap (P := fun k : Powers => k.Bounded (m + n)) p.terms fun s hs => ?_
  refine Sparse.forall_sumMap (P := fun k : Powers => k.Bounded (m + n)) q.terms fun t ht => ?_
  exact bounded_ofTerm ((hp.term hs).add (hq.term ht))

/-- The sum of terms, added one after the other. -/
def ofTerms (ts : List Term) : Polynomial := ts.foldl addTerm zero

theorem bounded_ofTerms {ts : List Term} (h : ∀ t ∈ ts, t.powers.Bounded n) :
    (ofTerms ts).Bounded n := by
  have hzero : zero.Bounded n := fun _ hx => absurd hx List.not_mem_nil
  exact List.foldlRecOn ts addTerm hzero fun p hp t ht => hp.add (bounded_ofTerm (h t ht))

theorem laurent_ofTerms (ts : List Term) : (ofTerms ts).laurent = (ts.map Term.laurent).sum := by
  rw [ofTerms, laurent_foldl_addTerm, laurent_zero, zero_add]

theorem add_eq_ofTerms (p q : Polynomial) : p + q = ofTerms (p.terms ++ q.terms) := by
  apply laurent_injective
  rw [laurent_add, laurent_ofTerms, List.map_append, List.sum_append, ← laurent_eq_sum,
    ← laurent_eq_sum]

theorem mul_eq_ofTerms (p q : Polynomial) :
    p * q = ofTerms (p.terms.flatMap fun s => q.terms.map (s * ·)) := by
  have hrow : ∀ s : Term, ((q.terms.map (s * ·)).map Term.laurent).sum = s.laurent * q.laurent := by
    intro s
    rw [laurent_eq_sum, List.map_map, ← List.sum_map_mul_left]
    exact congrArg List.sum (List.map_congr_left fun t _ => Term.laurent_mul s t)
  -- products are added up in bins, not in the order of the list, so only the sums are compared
  apply laurent_injective
  calc (p * q).laurent
      = (p.terms.map fun s => s.laurent * q.laurent).sum := by
        rw [laurent_mul, List.sum_map_mul_right, ← laurent_eq_sum]
    _ = (p.terms.map fun s => ((q.terms.map (s * ·)).map Term.laurent).sum).sum := by
        simp only [hrow]
    _ = (ofTerms (p.terms.flatMap fun s => q.terms.map (s * ·))).laurent := by
        rw [laurent_ofTerms, List.map_flatMap, List.flatMap_def, List.sum_flatten, List.map_map]
        rfl

end Polynomial

/-! ### Degrees of expressions -/

namespace Expr

/-- There are no fractions and no packed nodes in the expression, and its products
have at most `n` factors when it is multiplied out. -/
inductive DegreeAtMost : ℕ → Expr → Prop
  | number {n : ℕ} (k : ℤ) : DegreeAtMost n (number k)
  | quantity {n : ℕ} (q : Quantity) (hn : 1 ≤ n) : DegreeAtMost n (quantity q)
  | neg {n : ℕ} {e : Expr} (he : DegreeAtMost n e) : DegreeAtMost n (neg e)
  | sum {n : ℕ} {a b : Expr} (ha : DegreeAtMost n a) (hb : DegreeAtMost n b) :
      DegreeAtMost n (sum a b)
  | product {k m n : ℕ} {a b : Expr} (ha : DegreeAtMost k a) (hb : DegreeAtMost m b)
      (hn : k + m ≤ n) : DegreeAtMost n (product a b)

variable {e a b : Expr} {m n : ℕ}

theorem DegreeAtMost.mono (h : e.DegreeAtMost m) (hmn : m ≤ n) : e.DegreeAtMost n := by
  induction h generalizing n with
  | number k => exact .number k
  | quantity q hm => exact .quantity q (hm.trans hmn)
  | neg _ ih => exact .neg (ih hmn)
  | sum _ _ iha ihb => exact .sum (iha hmn) (ihb hmn)
  | product ha hb hm _ _ => exact .product ha hb (hm.trans hmn)

theorem DegreeAtMost.subtree (h : e.DegreeAtMost n) (ha : a ∈ e.subtrees) : a.DegreeAtMost n := by
  induction h with
  | number k =>
    rw [List.mem_singleton.mp ha]
    exact .number k
  | quantity q hn =>
    rw [List.mem_singleton.mp ha]
    exact .quantity q hn
  | neg he ih =>
    rcases List.mem_cons.mp ha with rfl | ha
    · exact .neg he
    · exact ih ha
  | sum hb hc ihb ihc =>
    rcases List.mem_cons.mp ha with rfl | ha
    · exact .sum hb hc
    · rcases List.mem_append.mp ha with ha | ha
      · exact ihb ha
      · exact ihc ha
  | product hb hc hn ihb ihc =>
    rcases List.mem_cons.mp ha with rfl | ha
    · exact .product hb hc hn
    · rcases List.mem_append.mp ha with ha | ha
      · exact (ihb ha).mono (by omega)
      · exact (ihc ha).mono (by omega)

/-- **Multiplying out keeps the degree.** -/
theorem DegreeAtMost.exists_expand (h : e.DegreeAtMost n) :
    ∃ p, e.expand = .ok p ∧ p.Bounded n := by
  induction h with
  | number k => exact ⟨_, rfl, Polynomial.bounded_ofTerm (Powers.bounded_one _)⟩
  | quantity q hn =>
    exact ⟨_, rfl, Polynomial.bounded_ofTerm (Powers.bounded_ofQuantity q hn)⟩
  | neg _ ih =>
    obtain ⟨p, hp, hbounded⟩ := ih
    exact ⟨-p, expand_neg hp, hbounded.neg⟩
  | sum _ _ iha ihb =>
    obtain ⟨p, hp, hpb⟩ := iha
    obtain ⟨q, hq, hqb⟩ := ihb
    exact ⟨p + q, expand_sum hp hq, hpb.add hqb⟩
  | product _ _ hn iha ihb =>
    obtain ⟨p, hp, hpb⟩ := iha
    obtain ⟨q, hq, hqb⟩ := ihb
    exact ⟨p * q, expand_product hp hq, (hpb.mul hqb).mono hn⟩

theorem DegreeAtMost.expand (h : e.DegreeAtMost n) {p : Polynomial} (hp : e.expand = .ok p) :
    p.Bounded n := by
  obtain ⟨q, hq, hbounded⟩ := h.exists_expand
  rw [hp] at hq
  exact Except.ok.inj hq ▸ hbounded

/-! ### What is formed on the way -/

/-- The terms `s` and `t` are multiplied with each other at this product. -/
def Multiplies (e : Expr) (s t : Term) : Prop :=
  ∃ a b p q, e = product a b ∧ a.expand = .ok p ∧ b.expand = .ok q ∧ s ∈ p.terms ∧ t ∈ q.terms

/-- The terms that are added up at this node. -/
inductive Summand : Expr → Term → Prop
  | number (n : ℤ) : Summand (number n) (.constant n)
  | quantity (q : Quantity) : Summand (quantity q) (.ofQuantity q)
  | neg {a : Expr} {p : Polynomial} {t : Term} (ha : a.expand = .ok p) (ht : t ∈ (-p).terms) :
      Summand (neg a) t
  | left {a b : Expr} {p : Polynomial} {t : Term} (ha : a.expand = .ok p) (ht : t ∈ p.terms) :
      Summand (sum a b) t
  | right {a b : Expr} {q : Polynomial} {t : Term} (hb : b.expand = .ok q) (ht : t ∈ q.terms) :
      Summand (sum a b) t
  | product {e : Expr} {s t : Term} (h : e.Multiplies s t) : Summand e (s * t)

/-- The polynomials that can be formed at this node: the sums of some of the terms,
in any order. -/
def Forms (e : Expr) (p : Polynomial) : Prop :=
  ∃ ts : List Term, (∀ t ∈ ts, e.Summand t) ∧ p = .ofTerms ts

/-- **The result is formed from the terms that are added up.** -/
theorem DegreeAtMost.exists_forms (h : e.DegreeAtMost n) : ∃ p, e.expand = .ok p ∧ e.Forms p := by
  cases h with
  | number k =>
    refine ⟨_, rfl, [.constant k], fun t ht => ?_, rfl⟩
    rw [List.mem_singleton.mp ht]
    exact .number k
  | quantity q _ =>
    refine ⟨_, rfl, [.ofQuantity q], fun t ht => ?_, rfl⟩
    rw [List.mem_singleton.mp ht]
    exact .quantity q
  | neg he =>
    obtain ⟨p, hp, -⟩ := he.exists_expand
    refine ⟨-p, expand_neg hp, (-p).terms, fun t ht => .neg hp ht, ?_⟩
    exact (-p).foldl_addTerm_terms.symm
  | sum ha hb =>
    obtain ⟨p, hp, -⟩ := ha.exists_expand
    obtain ⟨q, hq, -⟩ := hb.exists_expand
    refine ⟨p + q, expand_sum hp hq, p.terms ++ q.terms, fun t ht => ?_, p.add_eq_ofTerms q⟩
    rcases List.mem_append.mp ht with ht | ht
    · exact .left hp ht
    · exact .right hq ht
  | product ha hb _ =>
    obtain ⟨p, hp, -⟩ := ha.exists_expand
    obtain ⟨q, hq, -⟩ := hb.exists_expand
    refine ⟨p * q, expand_product hp hq, _, fun r hr => ?_, p.mul_eq_ofTerms q⟩
    obtain ⟨s, hs, hr⟩ := List.mem_flatMap.mp hr
    obtain ⟨t, ht, rfl⟩ := List.mem_map.mp hr
    exact .product ⟨_, _, p, q, rfl, hp, hq, hs, ht⟩

theorem DegreeAtMost.multiplies (h : e.DegreeAtMost n) {s t : Term} (hst : e.Multiplies s t) :
    ∃ k m, s.powers.Bounded k ∧ t.powers.Bounded m ∧ k + m ≤ n := by
  obtain ⟨a, b, p, q, rfl, hp, hq, hs, ht⟩ := hst
  cases h with
  | product ha hb hn => exact ⟨_, _, (ha.expand hp).term hs, (hb.expand hq).term ht, hn⟩

theorem DegreeAtMost.summand (h : e.DegreeAtMost n) {t : Term} (ht : e.Summand t) :
    t.powers.Bounded n := by
  cases ht with
  | number k => exact Powers.bounded_one n
  | quantity q =>
    cases h with
    | quantity _ hn => exact Powers.bounded_ofQuantity q hn
  | neg ha ht =>
    cases h with
    | neg hda => exact (hda.expand ha).neg.term ht
  | left ha ht =>
    cases h with
    | sum hda _ => exact (hda.expand ha).term ht
  | right hb ht =>
    cases h with
    | sum _ hdb => exact (hdb.expand hb).term ht
  | product hst =>
    obtain ⟨k, m, hs, ht, hn⟩ := h.multiplies hst
    exact (hs.add ht).mono hn

/-- **Whatever is formed has the degree of the expression.** -/
theorem DegreeAtMost.forms (h : e.DegreeAtMost n) {p : Polynomial} (hp : e.Forms p) :
    p.Bounded n := by
  obtain ⟨ts, hts, rfl⟩ := hp
  exact Polynomial.bounded_ofTerms fun t ht => h.summand (hts t ht)

/-- **Additions of exponents are exact in 32 bits** if the degree fits. -/
theorem DegreeAtMost.toInt_add (h : e.DegreeAtMost n) (hn : n ≤ 2147483647) {s t : Term}
    (hst : e.Multiplies s t) (x : Quantity) :
    (Int32.ofInt (s.powers.get x) + Int32.ofInt (t.powers.get x)).toInt =
      s.powers.get x + t.powers.get x := by
  obtain ⟨k, m, hs, ht, hkm⟩ := h.multiplies hst
  have hsx := hs.get_mem x
  have htx := ht.get_mem x
  rw [← Int32.ofInt_add, Int32.toInt_ofInt_of_le (by omega) (by omega)]

end Expr

/-! ### One fraction -/

namespace Fractional

variable {x y : Fractional} {m n : ℕ}

/-- Numerator and denominator have products of at most `n` factors. -/
structure DegreeAtMost (n : ℕ) (x : Fractional) : Prop where
  num : x.num.DegreeAtMost n
  den : ∀ d, x.den? = some d → d.DegreeAtMost n

theorem degreeAtMost_ofExpr {e : Expr} (h : e.DegreeAtMost n) : (ofExpr e).DegreeAtMost n :=
  ⟨h, fun _ hd => by cases hd⟩

theorem DegreeAtMost.neg (hx : x.DegreeAtMost n) : x.neg.DegreeAtMost n := ⟨.neg hx.num, hx.den⟩

theorem degreeAtMost_scale {e : Expr} {d? : Option Expr} (he : e.DegreeAtMost m)
    (hd : ∀ d, d? = some d → d.DegreeAtMost n) : (scale e d?).DegreeAtMost (m + n) := by
  cases d? with
  | none => exact he.mono (Nat.le_add_right m n)
  | some d => exact .product he (hd d rfl) le_rfl

theorem degreeAtMost_mulDen {c? d? : Option Expr} (hc : ∀ c, c? = some c → c.DegreeAtMost m)
    (hd : ∀ d, d? = some d → d.DegreeAtMost n) :
    ∀ d, mulDen c? d? = some d → d.DegreeAtMost (m + n) := by
  intro d h
  cases c? with
  | none => exact (hd d h).mono (Nat.le_add_left n m)
  | some c =>
    cases d? with
    | none => exact (hc d h).mono (Nat.le_add_right m n)
    | some d' =>
      cases h
      exact .product (hc c rfl) (hd d' rfl) le_rfl

theorem DegreeAtMost.mul (hx : x.DegreeAtMost m) (hy : y.DegreeAtMost n) :
    (x.mul y).DegreeAtMost (m + n) :=
  ⟨.product hx.num hy.num le_rfl, degreeAtMost_mulDen hx.den hy.den⟩

theorem DegreeAtMost.div (hx : x.DegreeAtMost m) (hy : y.DegreeAtMost n) :
    (x.div y).DegreeAtMost (m + n) := by
  refine ⟨degreeAtMost_scale hx.num hy.den, fun d hd => ?_⟩
  cases hd
  rw [Nat.add_comm]
  exact degreeAtMost_scale hy.num hx.den

/-- **Cross-multiplication.** A numerator is multiplied by the other denominator only,
so the degrees of both sides are added. -/
theorem DegreeAtMost.add (hx : x.DegreeAtMost m) (hy : y.DegreeAtMost n) :
    (x.add y).DegreeAtMost (m + n) := by
  obtain ⟨a, c?⟩ := x
  obtain ⟨b, d?⟩ := y
  have hm : m ≤ m + n := Nat.le_add_right m n
  have hn : n ≤ m + n := Nat.le_add_left n m
  have hnm : n + m ≤ m + n := (Nat.add_comm n m).le
  cases c? with
  | none =>
    cases d? with
    | none => exact ⟨.sum (hx.num.mono hm) (hy.num.mono hn), fun _ h => by cases h⟩
    | some d =>
      refine ⟨.sum (.product hx.num (hy.den d rfl) le_rfl) (hy.num.mono hn), fun e he => ?_⟩
      exact (hy.den e he).mono hn
  | some c =>
    cases d? with
    | none =>
      refine ⟨.sum (hx.num.mono hm) (.product hy.num (hx.den c rfl) hnm), fun e he => ?_⟩
      exact (hx.den e he).mono hm
    | some d =>
      -- equal denominators are kept as they are; only different ones are multiplied
      unfold Fractional.add
      simp only
      split_ifs
      · exact ⟨.sum (hx.num.mono hm) (hy.num.mono hn), fun e he => (hx.den e he).mono hm⟩
      · refine ⟨.sum (.product hx.num (hy.den d rfl) le_rfl) (.product hy.num (hx.den c rfl) hnm),
          fun e he => ?_⟩
        cases he
        exact .product (hx.den c rfl) (hy.den d rfl) le_rfl

end Fractional

namespace Expr

theorem length_quantities_le_size : ∀ {e : Expr}, e.Unpacked → e.quantities.length ≤ e.size
  | number _, _ => Nat.zero_le _
  | quantity _, _ => le_rfl
  | neg e, h => by
    have he := length_quantities_le_size (e := e) h
    simp only [quantities, size]
    omega
  | sum a b, h | product a b, h | fraction a b, h => by
    have ha := length_quantities_le_size h.1
    have hb := length_quantities_le_size h.2
    simp only [quantities, size, List.length_append]
    omega

/-- **Bringing to one fraction** uses each quantity once for the numerator and once
for the denominator. -/
theorem degreeAtMost_toFractional : ∀ {e : Expr} {x : Fractional}, e.Unpacked →
    e.toFractional = .ok x → x.DegreeAtMost e.quantities.length
  | number n, _, _, h => by
    cases h
    exact Fractional.degreeAtMost_ofExpr (.number n)
  | quantity q, _, _, h => by
    cases h
    exact Fractional.degreeAtMost_ofExpr (.quantity q le_rfl)
  | neg e, _, he, h => by
    obtain ⟨y, hy, h⟩ := bind_eq_ok.mp h
    cases h
    exact (degreeAtMost_toFractional (e := e) he hy).neg
  | sum a b, _, he, h => by
    obtain ⟨y, hy, h⟩ := bind_eq_ok.mp h
    obtain ⟨z, hz, h⟩ := bind_eq_ok.mp h
    cases h
    rw [quantities, List.length_append]
    exact (degreeAtMost_toFractional he.1 hy).add (degreeAtMost_toFractional he.2 hz)
  | product a b, _, he, h => by
    obtain ⟨y, hy, h⟩ := bind_eq_ok.mp h
    obtain ⟨z, hz, h⟩ := bind_eq_ok.mp h
    cases h
    rw [quantities, List.length_append]
    exact (degreeAtMost_toFractional he.1 hy).mul (degreeAtMost_toFractional he.2 hz)
  | fraction a b, _, he, h => by
    obtain ⟨y, hy, h⟩ := bind_eq_ok.mp h
    obtain ⟨z, hz, h⟩ := bind_eq_ok.mp h
    split_ifs at h
    cases h
    rw [quantities, List.length_append]
    exact (degreeAtMost_toFractional he.1 hy).div (degreeAtMost_toFractional he.2 hz)

theorem DegreeAtMost.numDen {n : ℕ} : ∀ {e : Expr}, e.DegreeAtMost n →
    e.numDen.1.DegreeAtMost n ∧ e.numDen.2.DegreeAtMost n
  | _, .neg he => ⟨.neg he.numDen.1, he.numDen.2⟩
  | _, .number k => ⟨.number k, .number 1⟩
  | _, .quantity q hn => ⟨.quantity q hn, .number 1⟩
  | _, .sum ha hb => ⟨.sum ha hb, .number 1⟩
  | _, .product ha hb hn => ⟨.product ha hb hn, .number 1⟩

/-- **Numerator and denominator.** -/
theorem degreeAtMost_singleFraction {e single : Expr} (he : e.Unpacked)
    (h : e.singleFraction = .ok single) :
    single.numDen.1.DegreeAtMost e.size ∧ single.numDen.2.DegreeAtMost e.size := by
  obtain ⟨⟨num, den?⟩, hx, h⟩ := bind_eq_ok.mp h
  obtain ⟨hnum, hden⟩ := degreeAtMost_toFractional he hx
  have hsize := length_quantities_le_size he
  cases den? with
  | none =>
    cases h
    exact (hnum.mono hsize).numDen
  | some d =>
    simp only at h
    split_ifs at h
    cases h
    exact ⟨hnum.mono hsize, (hden d rfl).mono hsize⟩

end Expr

/-! ### What is multiplied out -/

section Framed

variable {σ : Type} {I : Eliminator σ → Prop} {E : Fault → Prop}

theorem yields_checkSize_le (limits : Limits) (e : Expr) :
    Yields (fun _ => True) (fun _ => True) (checkSize limits e : EliminateM σ Unit)
      fun _ => e.size ≤ limits.expressionSize :=
  fun _ _ => leads_checkSize.mpr ⟨fun h => ⟨trivial, h⟩, fun _ => ⟨trivial, trivial⟩⟩

/-- The numerator and the denominator of an expression in the frame, multiplied out. -/
def Eliminator.expandFramed (framed : Expr) : EliminateM σ (Polynomial × Polynomial) := do
  let single ← liftExcept framed.singleFraction
  let numerator ← liftExcept single.numDen.1.expand
  let denominator ← liftExcept single.numDen.2.expand
  if denominator.isZero then throw (.divisionByZero single)
  return (numerator, denominator)

namespace Theorem

variable {limits : Limits} {oracle : Oracle σ} {thm : Theorem}

/-- The first part of an attempt: the eliminations, and the expression in the frame
after its size was checked. -/
def framed (thm : Theorem) (limits : Limits) (oracle : Oracle σ) :
    EliminateM σ (List EliminationStep × Expr) := do
  let start ← liftExcept (thm.statement.zeroExpr.canonical .empty).simplify
  checkSize limits start
  let r ← eliminateAll limits oracle thm.figure (thm.figure.constructed.map Prod.fst) start []
  let e ← reduce r.1
  let e ← toFrame oracle thm.figure e
  checkSize limits (e.canonical .empty)
  return (r.2, e.canonical .empty)

/-- **The two parts of an attempt.** What is left after the first part is to multiply
out. -/
theorem attempt_eq_framed (thm : Theorem) (limits : Limits) (oracle : Oracle σ) :
    thm.attempt limits oracle = (do
      let r ← thm.framed limits oracle
      let x ← expandFramed r.2
      return ⟨r.1, x.1, x.2⟩) := by
  have hquotient : ∀ e, quotient limits oracle thm.figure e = (do
      let e ← toFrame oracle thm.figure e
      checkSize limits (e.canonical .empty)
      expandFramed (e.canonical .empty)) := fun _ => rfl
  have hattempt : thm.attempt limits oracle = (do
      let start ← liftExcept (thm.statement.zeroExpr.canonical .empty).simplify
      checkSize limits start
      let r ← eliminateAll limits oracle thm.figure (thm.figure.constructed.map Prod.fst) start []
      let e ← reduce r.1
      let x ← quotient limits oracle thm.figure e
      return ⟨r.2, x.1, x.2⟩) := rfl
  rw [hattempt]
  simp only [hquotient, framed, bind_assoc, pure_bind]

/-- The expression in the frame has no packed nodes, and its size was checked. -/
theorem yields_framed (thm : Theorem) (limits : Limits) (oracle : Oracle σ) :
    Yields (fun _ => True) (fun _ => True) (thm.framed limits oracle) fun r =>
      r.2.Unpacked ∧ r.2.size ≤ limits.expressionSize := by
  refine (yields_true _).bind fun start _ => (yields_true _).bind fun _ _ => ?_
  refine (yields_true _).bind fun r _ => (yields_true _).bind fun e _ => ?_
  refine (yields_toFrame_unpacked oracle thm.figure e).bind fun e' he' => ?_
  exact (yields_checkSize_le limits _).bind fun _ hsize => yields_pure ⟨he'.canonical .empty, hsize⟩

/-- The outcome of the second part, if the denominator and the numerator can be
multiplied out. -/
theorem attempt_of_framed {el el' : Eliminator σ} {steps : List EliminationStep}
    {framed single : Expr} {p q : Polynomial}
    (hframed : thm.framed limits oracle el = (.ok (steps, framed), el'))
    (hsingle : framed.singleFraction = .ok single) (hp : single.numDen.1.expand = .ok p)
    (hq : single.numDen.2.expand = .ok q) : thm.attempt limits oracle el =
      (if q.isZero then .error (.divisionByZero single) else .ok ⟨steps, p, q⟩, el') := by
  have hexpand : (expandFramed framed : EliminateM σ _) el' =
      (if q.isZero then .error (.divisionByZero single) else .ok (p, q), el') := by
    refine (run_bind (run_liftExcept hsingle el')).trans ?_
    refine (run_bind (run_liftExcept hp el')).trans ((run_bind (run_liftExcept hq el')).trans ?_)
    by_cases hzero : q.isZero = true
    · rw [if_pos hzero, if_pos hzero]
      rfl
    · rw [if_neg hzero, if_neg hzero]
      rfl
  -- the zero test is the last thing that can fail, and it leaves the record alone
  rw [attempt_eq_framed]
  refine (run_bind hframed).trans ?_
  by_cases hzero : q.isZero = true
  · rw [if_pos hzero] at hexpand ⊢
    exact run_bind_error hexpand
  · rw [if_neg hzero] at hexpand ⊢
    exact (run_bind hexpand).trans rfl

/-- **Exponents stay small.** Let an attempt come to the point where the expression in
the frame is one fraction. Then numerator and denominator are multiplied out, and
this decides the attempt. At every node of the two a polynomial is formed by adding
up terms, and in all sums of some of these terms the exponents are between 1 and the
size of the expression in the frame, which is within the limit. So where two terms
are multiplied, exponents can be added in 32 bits. -/
theorem exponents_within {el el' : Eliminator σ} {steps : List EliminationStep}
    {framed single : Expr} (hlimits : limits.expressionSize ≤ 2147483647)
    (hframed : thm.framed limits oracle el = (.ok (steps, framed), el'))
    (hsingle : framed.singleFraction = .ok single) :
    framed.size ≤ limits.expressionSize ∧
    (∃ p q, single.numDen.1.expand = .ok p ∧ single.numDen.2.expand = .ok q ∧
      thm.attempt limits oracle el =
        (if q.isZero then .error (.divisionByZero single) else .ok ⟨steps, p, q⟩, el')) ∧
    ∀ e ∈ single.numDen.1.subtrees ++ single.numDen.2.subtrees,
      (∃ r, e.expand = .ok r ∧ e.Forms r) ∧
      (∀ p, e.Forms p → p.AllPowers fun x => 1 ≤ x.2 ∧ x.2 ≤ framed.size) ∧
      ∀ s t, e.Multiplies s t → ∀ x,
        (Int32.ofInt (s.powers.get x) + Int32.ofInt (t.powers.get x)).toInt =
          s.powers.get x + t.powers.get x := by
  obtain ⟨-, hunpacked, hsize⟩ := (yields_framed thm limits oracle el trivial).of_ok hframed
  obtain ⟨hnum, hden⟩ := Expr.degreeAtMost_singleFraction hunpacked hsingle
  obtain ⟨p, hp, -⟩ := hnum.exists_expand
  obtain ⟨q, hq, -⟩ := hden.exists_expand
  refine ⟨hsize, ⟨p, q, hp, hq, attempt_of_framed hframed hsingle hp hq⟩, fun e he => ?_⟩
  have hdegree : e.DegreeAtMost framed.size := by
    rcases List.mem_append.mp he with he | he
    · exact hnum.subtree he
    · exact hden.subtree he
  refine ⟨hdegree.exists_forms, ?_, ?_⟩
  · intro r hr k hk x hx
    have hbounded : k.1.Bounded framed.size := hdegree.forms hr k hk
    exact ⟨hbounded.positive x hx, hbounded.le hx⟩
  · intro s t hst x
    exact hdegree.toInt_add (hsize.trans hlimits) hst x

end Theorem

end Framed

namespace EqualSegments

open Letters

/-- The segments `ab` and `cd` of four free points are equal, as a ratio. -/
def built : Theorem :=
  ⟨"segments", ⟨[⟨d, none⟩, ⟨c, none⟩, ⟨b, none⟩, ⟨a, none⟩]⟩, .equal (.ratio a b c d) 1⟩

/-- The expression of the statement. -/
def start : Expr := .sum (.ratio a b c d) (.number (-1))

/-- The expression in the frame, if `a` lies on `cd`: a fraction of fractions. -/
def inFrame : Expr :=
  (Expr.sum ((Frame.pythagoras b c d - Frame.pythagoras a c d) / Frame.pythagoras c d c)
    (.number (-1))).canonical .empty

/-- The record after the question about `a`, `c` and `d`. -/
def found : Eliminator Unit :=
  (collinear (Oracle.constant .holds) a c d (Eliminator.start ())).2

theorem framed_built : built.framed .standard (Oracle.constant .holds) (Eliminator.start ()) =
    (.ok ([], inFrame), found) := by
  have hsimplify : (built.statement.zeroExpr.canonical .empty).simplify = .ok start :=
    (Expr.simplify_of_pass rfl (by decide)).trans (Expr.simplify_of_fixed rfl)
  have hreduce : reduce start (Eliminator.start ()) = (.ok start, Eliminator.start ()) :=
    run_liftExcept (Expr.simplify_of_fixed rfl) _
  refine (run_bind (run_liftExcept hsimplify _)).trans ((run_bind (b := ()) rfl).trans ?_)
  exact (run_bind (b := (start, [])) rfl).trans ((run_bind hreduce).trans rfl)

end EqualSegments

open EqualSegments Letters in
/-- Squares occur in the numerator for four free points. -/
theorem Theorem.exponents_within_equalSegments : ∃ single p,
    built.framed .standard (Oracle.constant .holds) (Eliminator.start ()) =
      (.ok ([], inFrame), found) ∧
    inFrame.singleFraction = .ok single ∧ single.numDen.1.expand = .ok p ∧
    (p.entries.any fun k => k.1.entries.any fun x => decide (x.2 = 2)) = true ∧
    p.AllPowers fun x => 1 ≤ x.2 ∧ x.2 ≤ inFrame.size := by
  have hsingle : ∃ single p, inFrame.singleFraction = .ok single ∧
      single.numDen.1.expand = .ok p ∧
      (p.entries.any fun k => k.1.entries.any fun x => decide (x.2 = 2)) = true :=
    ⟨_, _, rfl, rfl, by decide +kernel⟩
  obtain ⟨single, p, hsingle, hp, hsquare⟩ := hsingle
  obtain ⟨-, -, hnodes⟩ := Theorem.exponents_within (by decide) framed_built hsingle
  have hroot : single.numDen.1 ∈ single.numDen.1.subtrees := by
    cases single.numDen.1 <;> exact .head _
  obtain ⟨⟨r, hr, hforms⟩, hpowers, -⟩ := hnodes _ (List.mem_append_left _ hroot)
  rw [hp] at hr
  cases hr
  exact ⟨single, p, framed_built, hsingle, hp, hsquare, hpowers p hforms⟩

end AreaMethod
