/-
# The simplification rules make progress

Every pass of the rules leaves an expression as it is or makes it
lighter, where an expression is lighter than another if its weight is smaller,
or its weight is the same and its numbers add up to less. The weight makes a
negation heavier inside a product or a fraction than around it, and a negative
number heavier than the negation sign saves, so moving a sign outwards is
progress; nested fractions weigh more than flat ones.

Key definitions: `Expr.weight`, `Expr.magnitude`, `Expr.Lighter`.
Key theorem: `Expr.eq_or_lighter_of_simplifyStep`.
-/
import AreaMethod.Expr.Rules

namespace AreaMethod
namespace Expr

/-- The weight of an expression; at least three. -/
def weight : Expr → Nat
  | number n => if n < 0 then 4 else 3
  | quantity _ => 3
  | neg e => e.weight + 2
  | sum a b => a.weight + b.weight + 1
  | product a b => a.weight * b.weight
  | fraction a b => 2 * (a.weight * b.weight)
  | term _ => 5
  | polynomial _ => 5

/-- The sum of the magnitudes of all numbers. -/
def magnitude : Expr → Nat
  | number n => n.natAbs
  | quantity _ => 0
  | neg e => e.magnitude
  | sum a b => a.magnitude + b.magnitude
  | product a b => a.magnitude + b.magnitude
  | fraction a b => a.magnitude + b.magnitude
  | term _ => 0
  | polynomial _ => 0

/-- Smaller weight, or the same weight and smaller numbers. -/
def Lighter (a b : Expr) : Prop :=
  a.weight < b.weight ∨ a.weight = b.weight ∧ a.magnitude < b.magnitude

theorem three_le_weight (e : Expr) : 3 ≤ e.weight := by
  induction e with
  | number n => simp only [weight]; split <;> omega
  | product a b iha ihb => exact Nat.le_trans (by decide) (Nat.mul_le_mul iha ihb)
  | fraction a b iha ihb =>
    have := Nat.mul_le_mul iha ihb
    simp only [weight]; omega
  | _ => simp only [weight]; omega

theorem weight_zero : (0 : Expr).weight = 3 := rfl

theorem weight_one : (1 : Expr).weight = 3 := rfl

theorem nine_le_mul (a b : Expr) : 9 ≤ a.weight * b.weight :=
  Nat.mul_le_mul (three_le_weight a) (three_le_weight b)

theorem le_mul_weight (k : Nat) (e : Expr) : 3 * k ≤ k * e.weight := by
  rw [Nat.mul_comm]; exact Nat.mul_le_mul_left k (three_le_weight e)

/-! ### Constants -/

theorem weight_number_le (n : Int) : (number n).weight ≤ 4 := by
  simp only [weight]; split <;> omega

theorem weight_number_of_nonneg {n : Int} (h : 0 ≤ n) : (number n).weight = 3 := by
  simp only [weight]; split <;> omega

theorem weight_ofRat_le (r : Rat) : (ofRat r).weight ≤ 20 := by
  unfold ofRat
  split
  · have := weight_number_le r.num; omega
  · split
    · exact Nat.le_of_eq (by
        rw [weight, weight, weight_number_of_nonneg (by omega), weight_number_of_nonneg (by omega)])
    · exact Nat.le_trans (Nat.le_of_eq (by
        rw [weight, weight_number_of_nonneg (by omega), weight_number_of_nonneg (by omega)]))
        (by decide : 2 * (3 * 3) ≤ 20)

theorem weight_ofRat_of_den_eq_one {r : Rat} (h : r.den = 1) : (ofRat r).weight ≤ 4 := by
  rw [ofRat, if_pos h]; exact weight_number_le _

/-- A constant that is no integer has a fraction in it. -/
theorem den_eq_one_or_of_rational? : ∀ {e : Expr} {r : Rat}, e.rational? = some r →
    r.den = 1 ∨ 18 ≤ e.weight
  | number n, r, h => by
    simp only [rational?, Option.some.injEq] at h
    subst h; exact .inl (Rat.den_intCast n)
  | fraction (number n) (number d), r, _ => by
    have := nine_le_mul (number n) (number d)
    right; simp only [weight] at *; omega
  | neg e, r, h => by
    simp only [rational?, Option.map_eq_some_iff] at h
    obtain ⟨s, hs, rfl⟩ := h
    rcases den_eq_one_or_of_rational? hs with h | h
    · exact .inl (by simpa using h)
    · right; simp only [weight]; omega

theorem den_add_eq_one {x y : Rat} (hx : x.den = 1) (hy : y.den = 1) : (x + y).den = 1 := by
  rw [Rat.den_add, hx, hy]; simp

theorem den_mul_eq_one {x y : Rat} (hx : x.den = 1) (hy : y.den = 1) : (x * y).den = 1 := by
  rw [Rat.den_mul, hx, hy]; simp

/-! ### Negations and sums -/

theorem negRule_lighter (e : Expr) :
    e.negRule = neg e ∨ e.negRule.weight < (neg e).weight := by
  cases e with
  | number n =>
    right
    have := weight_number_le (-n)
    have := three_le_weight (number n)
    simp only [negRule, weight] at *
    split <;> split <;> omega
  | neg e => right; simp only [negRule, weight]; omega
  | _ => exact .inl rfl

theorem sumSigns_lighter (a b : Expr) :
    sumSigns a b = sum a b ∨ (sumSigns a b).weight < (sum a b).weight := by
  have ha := three_le_weight a
  have hb := three_le_weight b
  unfold sumSigns
  split
  · right; simp only [weight]; omega
  · split
    · right; rw [weight_zero]; simp only [weight] at *; omega
    · exact .inl rfl
  · split
    · right; rw [weight_zero]; simp only [weight] at *; omega
    · exact .inl rfl
  · exact .inl rfl

theorem sumRule_lighter (a b : Expr) :
    sumRule a b = sum a b ∨ (sumRule a b).weight < (sum a b).weight := by
  have ha := three_le_weight a
  have hb := three_le_weight b
  unfold sumRule
  split
  · right; simp only [weight]; omega
  · split
    · right; simp only [weight]; omega
    · split
      next x y hx hy =>
        right
        simp only [weight]
        rcases den_eq_one_or_of_rational? hx with h | h
        · rcases den_eq_one_or_of_rational? hy with h' | h'
          · have := weight_ofRat_of_den_eq_one (den_add_eq_one h h'); omega
          · have := weight_ofRat_le (x + y); omega
        · have := weight_ofRat_le (x + y); omega
      · exact sumSigns_lighter a b

/-! ### Signs -/

theorem weight_of_negated? {e x : Expr} (h : e.negated? = some x) : e.weight = x.weight + 2 := by
  cases e <;> simp_all [negated?, weight]

theorem weight_of_magnitude? {e x : Expr} (h : e.magnitude? = some x) :
    e.weight = 4 ∧ x.weight = 3 := by
  cases e with
  | number n =>
    simp only [magnitude?] at h
    split at h
    next hn =>
      cases h
      exact ⟨by simp [weight, hn], weight_number_of_nonneg (by omega)⟩
    · cases h
  | _ => cases h

/-- Taking a sign out of a product of weights saves more than two. -/
theorem signOut?_lighter {node : Expr → Expr → Expr} {a b e : Expr}
    (h : signOut? node a b = some e) :
    ∃ x y, e = node x y ∧ x.weight * y.weight + 2 < a.weight * b.weight := by
  have ha := three_le_weight a
  have hb := three_le_weight b
  unfold signOut? at h
  split at h
  next x hx =>
    cases h
    refine ⟨x, b, rfl, ?_⟩
    rw [weight_of_negated? hx, Nat.add_mul]; omega
  · split at h
    next y hy =>
      cases h
      refine ⟨a, y, rfl, ?_⟩
      rw [weight_of_negated? hy, Nat.mul_add]; omega
    · split at h
      next x hx =>
        cases h
        refine ⟨x, b, rfl, ?_⟩
        obtain ⟨h4, h3⟩ := weight_of_magnitude? hx
        rw [h4, h3]; omega
      · obtain ⟨y, hy, rfl⟩ := Option.map_eq_some_iff.mp h
        refine ⟨a, y, rfl, ?_⟩
        obtain ⟨h4, h3⟩ := weight_of_magnitude? hy
        rw [h4, h3]; omega

/-! ### Products -/

theorem weight_of_over? {e d n : Expr} (h : e.over? d = some n) :
    e.weight = 2 * (n.weight * d.weight) := by
  cases e with
  | fraction a b =>
    simp only [over?] at h
    split at h
    next hb => cases h; subst hb; rfl
    · cases h
  | _ => cases h

theorem weight_lt_of_over? {e d n : Expr} (h : e.over? d = some n) :
    n.weight < e.weight * d.weight := by
  rw [weight_of_over? h]
  have hn := three_le_weight n
  have := le_mul_weight n.weight d
  have := le_mul_weight (2 * (n.weight * d.weight)) d
  omega

theorem productSigns_lighter (a b : Expr) :
    productSigns a b = product a b ∨ (productSigns a b).weight < (product a b).weight := by
  unfold productSigns
  split
  next e he =>
    right
    obtain ⟨x, y, rfl, hw⟩ := signOut?_lighter he
    simp only [weight]; omega
  · split
    next n hn =>
      right
      have := weight_lt_of_over? hn
      simp only [weight]; rw [Nat.mul_comm]; exact this
    · cases h : a.over? b with
      | none => exact .inl rfl
      | some n => right; exact weight_lt_of_over? h

theorem productRule_lighter (a b : Expr) :
    productRule a b = product a b ∨ (productRule a b).weight < (product a b).weight := by
  have ha := three_le_weight a
  have hb := three_le_weight b
  have hab := nine_le_mul a b
  have h3a : 3 * a.weight ≤ a.weight * b.weight := le_mul_weight a.weight b
  have h3b : 3 * b.weight ≤ a.weight * b.weight := by
    rw [Nat.mul_comm a.weight]; exact le_mul_weight b.weight a
  unfold productRule
  split
  · right; rw [weight_zero]; simp only [weight]; omega
  split
  · right; simp only [weight]; omega
  split
  · right; simp only [weight]; omega
  split
  · right; simp only [weight]; omega
  split
  · right; simp only [weight]; omega
  split
  next x y hx hy =>
    right
    simp only [weight]
    rcases den_eq_one_or_of_rational? hx with h | h
    · rcases den_eq_one_or_of_rational? hy with h' | h'
      · have := weight_ofRat_of_den_eq_one (den_mul_eq_one h h'); omega
      · have := weight_ofRat_le (x * y); omega
    · have := weight_ofRat_le (x * y); omega
  · exact productSigns_lighter a b

/-! ### Lists of factors -/

/-- The weight of a product of factors. -/
def weights : List Expr → Nat
  | [] => 1
  | e :: es => e.weight * weights es

/-- The magnitude of a product of factors. -/
def magnitudes : List Expr → Nat
  | [] => 0
  | e :: es => e.magnitude + magnitudes es

theorem weights_append (xs ys : List Expr) : weights (xs ++ ys) = weights xs * weights ys := by
  induction xs with
  | nil => simp [weights]
  | cons e es ih => simp [weights, ih, Nat.mul_assoc]

theorem magnitudes_append (xs ys : List Expr) :
    magnitudes (xs ++ ys) = magnitudes xs + magnitudes ys := by
  induction xs with
  | nil => simp [magnitudes]
  | cons e es ih => simp [magnitudes, ih, Nat.add_assoc]

theorem one_le_weights (es : List Expr) : 1 ≤ weights es := by
  induction es with
  | nil => exact Nat.le_refl 1
  | cons e es ih => exact Nat.mul_pos (Nat.lt_of_lt_of_le (by decide) (three_le_weight e)) ih

theorem weights_factors (e : Expr) : weights e.factors = e.weight := by
  induction e with
  | product a b iha ihb => simp [factors, weights_append, iha, ihb, weight]
  | _ => simp [factors, weights]

theorem magnitudes_factors (e : Expr) : magnitudes e.factors = e.magnitude := by
  induction e with
  | product a b iha ihb => simp [factors, magnitudes_append, iha, ihb, magnitude]
  | _ => simp [factors, magnitudes]

theorem weight_foldl_product (es : List Expr) (e : Expr) :
    (es.foldl product e).weight = e.weight * weights es := by
  induction es generalizing e with
  | nil => simp [weights]
  | cons x xs ih => simp [ih, weights, weight, Nat.mul_assoc]

theorem magnitude_foldl_product (es : List Expr) (e : Expr) :
    (es.foldl product e).magnitude = e.magnitude + magnitudes es := by
  induction es generalizing e with
  | nil => simp [magnitudes]
  | cons x xs ih => simp [ih, magnitudes, magnitude, Nat.add_assoc]

theorem weight_ofFactors_cons (e : Expr) (es : List Expr) :
    (ofFactors (e :: es)).weight = weights (e :: es) := by
  simp [ofFactors, leftProduct?, weight_foldl_product, weights]

theorem magnitude_ofFactors_cons (e : Expr) (es : List Expr) :
    (ofFactors (e :: es)).magnitude = magnitudes (e :: es) := by
  simp [ofFactors, leftProduct?, magnitude_foldl_product, magnitudes]

/-! ### Cancelling numbers -/

/-- Dividing by the greatest common divisor keeps the weight of a number. -/
theorem weight_number_div_gcd (m k : Int) (hk : 0 < k) :
    (number (m / Int.gcd m k)).weight = (number m).weight := by
  have hg : (0 : Int) < Int.gcd m k := by
    have := Int.gcd_pos_of_ne_zero_right m (b := k) (by omega)
    omega
  simp only [weight]
  by_cases hm : m < 0
  · rw [if_pos hm, if_pos (Int.ediv_neg_of_neg_of_pos hm hg)]
  · rw [if_neg hm, if_neg]
    have := Int.ediv_nonneg (a := m) (b := Int.gcd m k) (by omega) (by omega)
    omega

/-- Cancelling a number makes the divisor smaller and the factors no
heavier. -/
theorem cancelNumber?_lighter {k : Int} (hk : 0 < k) : ∀ {es : List Expr} {x : List Expr × Int},
    cancelNumber? k es = some x →
    x.1 ≠ [] ∧ weights x.1 = weights es ∧ magnitudes x.1 ≤ magnitudes es ∧ 0 < x.2 ∧ x.2 < k
  | [], x, h => by cases h
  | e :: rest, x, h => by
    by_cases he : ∃ m, e = number m
    · obtain ⟨m, rfl⟩ := he
      simp only [cancelNumber?] at h
      split at h
      · cases h
      next hg =>
        cases h
        have hg0 : 0 < Int.gcd m k := Int.gcd_pos_of_ne_zero_right m (by omega)
        have hdvd : (Int.gcd m k : Int) ∣ k := Int.gcd_dvd_right ..
        have hle : (Int.gcd m k : Int) ≤ k := Int.le_of_dvd hk hdvd
        refine ⟨by simp, ?_, ?_, ?_, ?_⟩
        · simp only [weights, weight_number_div_gcd m k hk]
        · simp only [magnitudes, magnitude, Nat.add_le_add_iff_right]
          rw [Int.natAbs_ediv_of_dvd (Int.gcd_dvd_left ..)]
          exact Nat.div_le_self ..
        · exact Int.ediv_pos_of_pos_of_dvd hk (by omega) hdvd
        · exact Int.ediv_lt_self_of_pos_of_ne_one hk (by omega)
    · have h' : (cancelNumber? k rest).map (fun x => (e :: x.1, x.2)) = some x := by
        cases e <;> simp_all [cancelNumber?]
      obtain ⟨y, hy, rfl⟩ := Option.map_eq_some_iff.mp h'
      obtain ⟨_, hw, hm, hp, hl⟩ := cancelNumber?_lighter hk hy
      exact ⟨by simp, by simp [weights, hw], by simpa [magnitudes] using hm, hp, hl⟩

/-! ### Cancelling factors -/

theorem weights_erase {f : Expr} {den : List Expr} (h : f ∈ den) :
    weights den = f.weight * weights (den.erase f) := by
  induction den with
  | nil => cases h
  | cons x xs ih =>
    by_cases hx : x = f
    · subst hx; simp [weights]
    · have hm : f ∈ xs := by
        rcases List.mem_cons.mp h with rfl | h
        · exact absurd rfl hx
        · exact h
      rw [List.erase_cons_tail (by simpa using hx), weights, weights, ih hm, Nat.mul_left_comm]

/-- Cancelling changes nothing, or divides both weights by at least three. -/
theorem cancelCommon_lighter : ∀ num den : List Expr,
    cancelCommon num den = (num, den) ∨
      3 * weights (cancelCommon num den).1 ≤ weights num ∧
      3 * weights (cancelCommon num den).2 ≤ weights den
  | [], den => .inl rfl
  | f :: num, den => by
    unfold cancelCommon
    split
    next hm =>
      right
      have hf := three_le_weight f
      rw [weights_erase hm, weights]
      rcases cancelCommon_lighter num (den.erase f) with h | ⟨h1, h2⟩
      · rw [h]
        exact ⟨Nat.mul_le_mul_right _ hf, Nat.mul_le_mul_right _ hf⟩
      · exact ⟨Nat.mul_le_mul hf (by omega), Nat.mul_le_mul hf (by omega)⟩
    · rcases cancelCommon_lighter num den with h | ⟨h1, h2⟩
      · left; simp [h]
      · right
        refine ⟨?_, h2⟩
        simp only [weights]
        rw [Nat.mul_left_comm]
        exact Nat.mul_le_mul_left _ h1

theorem weight_ofFactors_le (es : List Expr) : (ofFactors es).weight ≤ 3 * weights es := by
  cases es with
  | nil => exact Nat.le_refl 3
  | cons e es => rw [weight_ofFactors_cons]; omega

theorem cancelProducts_lighter (a b d : Expr) :
    cancelProducts (product a b) d = fraction (product a b) d ∨
      (cancelProducts (product a b) d).weight < (fraction (product a b) d).weight := by
  unfold cancelProducts
  dsimp only
  split
  · exact .inl rfl
  next hlen =>
    right
    rcases cancelCommon_lighter (product a b).factors d.factors with h | ⟨h1, h2⟩
    · exact absurd (by rw [h]) hlen
    · rw [weights_factors] at h1 h2
      simp only [weight]
      have hn : (ofFactors (cancelCommon (product a b).factors d.factors).1).weight <
          a.weight * b.weight := by
        have := nine_le_mul a b
        cases hc : (cancelCommon (product a b).factors d.factors).1 with
        | nil => exact Nat.lt_of_lt_of_le (by decide) this
        | cons e es =>
          rw [weight_ofFactors_cons, ← hc]
          have := one_le_weights (cancelCommon (product a b).factors d.factors).1
          simp only [weight] at h1
          omega
      have hd := Nat.le_trans (weight_ofFactors_le _) h2
      have := Nat.mul_lt_mul_of_lt_of_le hn hd (Nat.lt_of_lt_of_le (by decide) (three_le_weight d))
      omega

theorem weight_of_cofactor? {e f x : Expr} (h : e.cofactor? f = some x) :
    e.weight = x.weight * f.weight := by
  cases e with
  | product a b =>
    simp only [cofactor?] at h
    split at h
    next hb => cases h; subst hb; rfl
    · split at h
      next ha => cases h; subst ha; exact Nat.mul_comm ..
      · cases h
  | _ => cases h

/-- Cancelling is progress; the denominator is no number below one. -/
theorem cancelFactors_lighter (n d : Expr) (hd : ∀ k, d = number k → 0 < k) :
    cancelFactors n d = fraction n d ∨ Lighter (cancelFactors n d) (fraction n d) := by
  have hn3 := three_le_weight n
  have hd3 := three_le_weight d
  unfold cancelFactors
  split
  next e he =>
    right; left
    have hw := weight_of_cofactor? he
    have h1 := le_mul_weight e.weight d
    have h2 := le_mul_weight (e.weight * d.weight) d
    simp only [weight]; rw [hw]; have := three_le_weight e; omega
  split
  next e he =>
    right; left
    have hw := weight_of_cofactor? he
    have h1 := le_mul_weight e.weight n
    have h2 := le_mul_weight (e.weight * n.weight) n
    rw [weight, weight_one, weight, hw, Nat.mul_comm n.weight]
    have := three_le_weight e
    omega
  split
  next k _ _ =>
    split
    next x hx =>
      right; right
      obtain ⟨hne, hw, hm, hp, hl⟩ := cancelNumber?_lighter (hd k rfl) hx
      obtain ⟨es, k'⟩ := x
      cases es with
      | nil => exact absurd rfl hne
      | cons e es =>
        rw [weights_factors] at hw
        rw [magnitudes_factors] at hm
        refine ⟨?_, ?_⟩
        · simp only [weight, weight_ofFactors_cons, hw]
          rw [if_neg (by simp only at hp; omega), if_neg (by have := hd k rfl; omega)]
        · simp only [magnitude, magnitude_ofFactors_cons] at *
          omega
    · exact .inl rfl
  · split
    · exact (cancelProducts_lighter _ _ _).imp id .inl
    · exact .inl rfl
  · exact .inl rfl

/-! ### Fractions -/

theorem number_of_weight_eq_three {e : Expr} {r : Rat} (h : e.rational? = some r)
    (hw : e.weight = 3) : ∃ n : Int, 0 ≤ n ∧ e = number n ∧ r = n := by
  cases e with
  | number n =>
    simp only [rational?, Option.some.injEq] at h
    refine ⟨n, ?_, rfl, h.symm⟩
    simp only [weight] at hw
    split at hw <;> omega
  | neg e => have := three_le_weight e; simp only [weight] at hw; omega
  | fraction a b => have := nine_le_mul a b; simp only [weight] at hw; omega
  | _ => simp [rational?] at h

/-- Reducing a fraction of two positive integers leaves it as it is or makes
its numbers smaller. -/
theorem ofRat_divInt_lighter {a b : Int} (ha : 0 ≤ a) (hb : 0 < b) :
    ofRat (Rat.divInt a b) = fraction (number a) (number b) ∨
      Lighter (ofRat (Rat.divInt a b)) (fraction (number a) (number b)) := by
  have hg0 : 0 < Int.gcd b a := Int.gcd_pos_of_ne_zero_left a (by omega)
  have hnum : (Rat.divInt a b).num = a / Int.gcd b a := by
    rw [Rat.num_divInt, Int.sign_eq_one_of_pos hb, Int.one_mul]
  have hden : ((Rat.divInt a b).den : Int) = b / Int.gcd b a := by
    rw [Rat.den_divInt, if_neg (by omega), Int.natCast_ediv]
    congr 1
    omega
  have hnn : 0 ≤ (Rat.divInt a b).num := by rw [hnum]; exact Int.ediv_nonneg ha (by omega)
  unfold ofRat
  split
  · right; left
    have := weight_number_le (Rat.divInt a b).num
    have := nine_le_mul (number a) (number b)
    simp only [weight] at *; omega
  · rw [if_neg (by omega), hnum, hden]
    by_cases hg : Int.gcd b a = 1
    · left; simp [hg]
    · right; right
      have hdvd : (Int.gcd b a : Int) ∣ b := Int.gcd_dvd_left ..
      have hb' : 0 < b / Int.gcd b a := Int.ediv_pos_of_pos_of_dvd hb (by omega) hdvd
      have hlt : b / Int.gcd b a < b := Int.ediv_lt_self_of_pos_of_ne_one hb (by omega)
      have ha' : 0 ≤ a / Int.gcd b a := by rw [← hnum]; exact hnn
      have hle : a / Int.gcd b a ≤ a := Int.ediv_le_self _ ha
      constructor
      · simp only [weight]
        rw [if_neg (by omega), if_neg (by omega), if_neg (by omega), if_neg (by omega)]
      · simp only [magnitude]; omega

theorem ofRat_quotient?_lighter {n d : Expr} {r : Rat} (h : quotient? n d = some r) :
    ofRat r = fraction n d ∨ Lighter (ofRat r) (fraction n d) := by
  unfold quotient? at h
  split at h
  next x y hx hy =>
    split at h
    · cases h
    next hy0 =>
      cases h
      have hn3 := three_le_weight n
      have hd3 := three_le_weight d
      by_cases hw : n.weight = 3 ∧ d.weight = 3
      · obtain ⟨a, ha, rfl, rfl⟩ := number_of_weight_eq_three hx hw.1
        obtain ⟨b, hb, rfl, rfl⟩ := number_of_weight_eq_three hy hw.2
        rw [← Rat.divInt_eq_div]
        refine ofRat_divInt_lighter ha ?_
        have : b ≠ 0 := fun h0 => hy0 (by rw [h0]; rfl)
        omega
      · right; left
        have := weight_ofRat_le (x / y)
        have h12 : 12 ≤ n.weight * d.weight := by
          by_cases hn4 : 4 ≤ n.weight
          · exact Nat.mul_le_mul hn4 hd3
          · exact Nat.mul_le_mul hn3 (by omega : 4 ≤ d.weight)
        simp only [weight]; omega
  · cases h

theorem fractionSigns_lighter (n d : Expr) (hd0 : d.isZero = false) :
    fractionSigns n d = fraction n d ∨ Lighter (fractionSigns n d) (fraction n d) := by
  have hn3 := three_le_weight n
  have hd3 := three_le_weight d
  unfold fractionSigns
  split
  next e he =>
    right; left
    obtain ⟨x, y, rfl, hw⟩ := signOut?_lighter he
    simp only [weight]; omega
  next hs =>
    split
    next x y =>
      right; left
      have := nine_le_mul n (product x y)
      simp only [weight] at *
      have : n.weight * (2 * (x.weight * y.weight)) = 2 * (n.weight * y.weight * x.weight) := by
        rw [Nat.mul_left_comm, Nat.mul_comm x.weight, Nat.mul_assoc]
      have : n.weight * (x.weight * y.weight) = n.weight * y.weight * x.weight := by
        rw [Nat.mul_comm x.weight, Nat.mul_assoc]
      omega
    · split
      next x y =>
        right; left
        have := nine_le_mul x (product y d)
        simp only [weight] at *
        have : 2 * (x.weight * y.weight) * d.weight = 2 * (x.weight * (y.weight * d.weight)) := by
          rw [Nat.mul_assoc, Nat.mul_assoc]
        omega
      · refine cancelFactors_lighter n d fun k hk => ?_
        subst hk
        simp only [isZero, beq_eq_false_iff_ne] at hd0
        simp only [signOut?, negated?, magnitude?] at hs
        split at hs
        · cases hs
        · split at hs
          · cases hs
          · by_cases hneg : k < 0
            · simp [hneg] at hs
            · omega

theorem fractionRule_lighter {n d e : Expr} (h : fractionRule n d = .ok e) :
    e = fraction n d ∨ Lighter e (fraction n d) := by
  have hn3 := three_le_weight n
  have h3n := le_mul_weight n.weight d
  have hnd := nine_le_mul n d
  unfold fractionRule at h
  split at h
  · cases h
  next hd0 =>
    split at h
    · cases h; right; left; rw [weight_zero]; simp only [weight]; omega
    split at h
    · cases h; right; left; rw [weight_one]; simp only [weight]; omega
    split at h
    · cases h; right; left; simp only [weight]; omega
    split at h
    · cases h; right; left; simp only [weight]; omega
    split at h
    next r hr => cases h; exact ofRat_quotient?_lighter hr
    · cases h; exact fractionSigns_lighter n d (by simpa using hd0)

/-! ### Whole passes -/

theorem Lighter.trans {a b c : Expr} (h : Lighter a b) (h' : Lighter b c) : Lighter a c := by
  unfold Lighter at *; omega

theorem eq_or_lighter_trans {a b c : Expr} (h : a = b ∨ Lighter a b) (h' : b = c ∨ Lighter b c) :
    a = c ∨ Lighter a c := by
  rcases h with rfl | h
  · exact h'
  · rcases h' with rfl | h'
    · exact .inr h
    · exact .inr (h.trans h')

theorem neg_lighter {a b : Expr} (h : a = b ∨ Lighter a b) : neg a = neg b ∨ Lighter (neg a) (neg b) := by
  rcases h with rfl | h
  · exact .inl rfl
  · right; unfold Lighter at *; simp only [weight, magnitude]; omega

theorem sum_lighter {a b a' b' : Expr} (ha : a' = a ∨ Lighter a' a) (hb : b' = b ∨ Lighter b' b) :
    sum a' b' = sum a b ∨ Lighter (sum a' b') (sum a b) := by
  unfold Lighter at *
  rcases ha with rfl | ha <;> rcases hb with rfl | hb
  · exact .inl rfl
  all_goals right; simp only [weight, magnitude]; omega

/-- A product of two positive weights is monotone, and strictly so in each
factor. -/
theorem mul_lighter {a b a' b' : Expr} (ha : a' = a ∨ Lighter a' a) (hb : b' = b ∨ Lighter b' b) :
    a' = a ∧ b' = b ∨ a'.weight * b'.weight < a.weight * b.weight ∨
      a'.weight * b'.weight = a.weight * b.weight ∧
        a'.magnitude + b'.magnitude < a.magnitude + b.magnitude := by
  have pos : ∀ e : Expr, 0 < e.weight := fun e => Nat.lt_of_lt_of_le (by decide) (three_le_weight e)
  rcases ha with rfl | ha | ⟨ha, hma⟩ <;> rcases hb with rfl | hb | ⟨hb, hmb⟩
  · exact .inl ⟨rfl, rfl⟩
  · exact .inr (.inl (Nat.mul_lt_mul_of_pos_left hb (pos _)))
  · right; right; rw [hb]; exact ⟨rfl, by omega⟩
  · exact .inr (.inl (Nat.mul_lt_mul_of_pos_right ha (pos _)))
  · exact .inr (.inl (Nat.mul_lt_mul_of_lt_of_le ha (Nat.le_of_lt hb) (pos _)))
  · right; left; rw [hb]; exact Nat.mul_lt_mul_of_pos_right ha (pos _)
  · right; right; rw [ha]; exact ⟨rfl, by omega⟩
  · right; left; rw [ha]; exact Nat.mul_lt_mul_of_pos_left hb (pos _)
  · right; right; rw [ha, hb]; exact ⟨rfl, by omega⟩

theorem product_lighter {a b a' b' : Expr} (ha : a' = a ∨ Lighter a' a)
    (hb : b' = b ∨ Lighter b' b) : product a' b' = product a b ∨ Lighter (product a' b') (product a b) := by
  rcases mul_lighter ha hb with ⟨rfl, rfl⟩ | h
  · exact .inl rfl
  · exact .inr h

theorem fraction_lighter {a b a' b' : Expr} (ha : a' = a ∨ Lighter a' a)
    (hb : b' = b ∨ Lighter b' b) :
    fraction a' b' = fraction a b ∨ Lighter (fraction a' b') (fraction a b) := by
  rcases mul_lighter ha hb with ⟨rfl, rfl⟩ | h
  · exact .inl rfl
  · right; unfold Lighter; simp only [weight, magnitude]; omega

/-- **A pass of the rules changes nothing or makes the expression lighter.** -/
theorem eq_or_lighter_of_simplifyStep : ∀ {e e' : Expr}, e.simplifyStep = .ok e' →
    e' = e ∨ Lighter e' e
  | number n, e', h => by cases h; exact .inl rfl
  | quantity q, e', h => by cases h; exact .inl rfl
  | neg e, e', h => by
    cases he : e.simplifyStep with
    | error f => simp [simplifyStep, he, bind, Except.bind] at h
    | ok x =>
      simp only [simplifyStep, he, bind, Except.bind, pure, Except.pure, Except.ok.injEq] at h
      subst h
      exact eq_or_lighter_trans ((negRule_lighter x).imp id .inl)
        (neg_lighter (eq_or_lighter_of_simplifyStep he))
  | sum a b, e', h => by
    cases ha : a.simplifyStep with
    | error f => simp [simplifyStep, ha, bind, Except.bind] at h
    | ok x =>
      cases hb : b.simplifyStep with
      | error f => simp [simplifyStep, ha, hb, bind, Except.bind] at h
      | ok y =>
        simp only [simplifyStep, ha, hb, bind, Except.bind, pure, Except.pure, Except.ok.injEq] at h
        subst h
        exact eq_or_lighter_trans ((sumRule_lighter x y).imp id .inl)
          (sum_lighter (eq_or_lighter_of_simplifyStep ha) (eq_or_lighter_of_simplifyStep hb))
  | product a b, e', h => by
    cases ha : a.simplifyStep with
    | error f => simp [simplifyStep, ha, bind, Except.bind] at h
    | ok x =>
      cases hb : b.simplifyStep with
      | error f => simp [simplifyStep, ha, hb, bind, Except.bind] at h
      | ok y =>
        simp only [simplifyStep, ha, hb, bind, Except.bind, pure, Except.pure, Except.ok.injEq] at h
        subst h
        exact eq_or_lighter_trans ((productRule_lighter x y).imp id .inl)
          (product_lighter (eq_or_lighter_of_simplifyStep ha) (eq_or_lighter_of_simplifyStep hb))
  | fraction a b, e', h => by
    cases ha : a.simplifyStep with
    | error f => simp [simplifyStep, ha, bind, Except.bind] at h
    | ok x =>
      cases hb : b.simplifyStep with
      | error f => simp [simplifyStep, ha, hb, bind, Except.bind] at h
      | ok y =>
        simp only [simplifyStep, ha, hb, bind, Except.bind] at h
        exact eq_or_lighter_trans (fractionRule_lighter h)
          (fraction_lighter (eq_or_lighter_of_simplifyStep ha) (eq_or_lighter_of_simplifyStep hb))
  | term t, e', h => by
    simp only [simplifyStep, Except.ok.injEq] at h
    subst h
    split
    · right; left; exact (by decide : 3 < 5)
    · split
      · right; left
        have := weight_number_le t.coefficient
        simp only [weight] at *; omega
      · exact .inl rfl
  | polynomial p, e', h => by
    simp only [simplifyStep, Except.ok.injEq] at h
    subst h
    split
    next n _ =>
      right; left
      have := weight_number_le n
      simp only [weight] at *; omega
    · exact .inl rfl

end Expr
end AreaMethod
