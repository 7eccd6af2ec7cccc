/-
# Values of expressions

A reading gives the quantities rational values; a quantity may have none. An
expression has a value if all its quantities do, no denominator is zero and
no zero stands under a negative exponent: one part without a value leaves the
whole without one, whatever it is multiplied by.

The packed nodes are sums and products over the entries of a sparse function.
`Sparse.total` is the common form, and `Sparse.total_merge` says that adding
sparse functions combines their totals. Unfolding a packed node changes
nothing: it has a value exactly when its plain form has, and it is the same.

Key definitions: `Reading`, `power?`, `Powers.value`, `Term.value`,
`Polynomial.value`, `Expr.value`, `Expr.Leafwise`, `Expr.All`.
Key theorems: `Sparse.total_merge`, `Expr.value_unfold`, `Expr.value_expose`,
`Expr.Leafwise.holds_mapLeaves`.
-/
import Mathlib
import AreaMethod.Expr.Basic

namespace AreaMethod

/-- The values of the quantities, as far as they have one. -/
abbrev Reading := Quantity → Option ℚ

/-- An integer power; zero has no negative powers. -/
def power? (x : ℚ) (n : ℤ) : Option ℚ := if x = 0 ∧ n < 0 then none else some (x ^ n)

namespace Sparse

variable {κ M : Type}

/-- Combines what `f` gives for each entry. -/
def total (op : M → M → M) (unit : M) (f : κ → ℤ → Option M) : List (κ × ℤ) → Option M
  | [] => some unit
  | (k, n) :: rest => do return op (← f k n) (← total op unit f rest)

end Sparse

/-- The value of a product of powers. -/
def Powers.value (v : Reading) (p : Powers) : Option ℚ :=
  Sparse.total (· * ·) 1 (fun q n => (v q).bind fun x => power? x n) p.entries

/-- The value of a term. -/
def Term.value (v : Reading) (t : Term) : Option ℚ :=
  (t.powers.value v).map fun x => t.coefficient * x

/-- The value of a polynomial. -/
def Polynomial.value (v : Reading) (p : Polynomial) : Option ℚ :=
  Sparse.total (· + ·) 0 (fun (k : Powers) n => (k.value v).map fun x => n * x) p.entries

/-- The value of an expression. -/
-- With the tag its equations are derived here, not by all the lemmas below at once.
@[grind =]
def Expr.value (v : Reading) : Expr → Option ℚ
  | number n => some n
  | quantity q => v q
  | neg e => do return -(← e.value v)
  | sum a b => do return (← a.value v) + (← b.value v)
  | product a b => do return (← a.value v) * (← b.value v)
  | fraction a b => do
    let x ← a.value v
    let y ← b.value v
    if y = 0 then none else return x / y
  | term t => t.value v
  | polynomial p => p.value v

/-! ### Powers of a rational -/

theorem power?_eq_some {x y : ℚ} {n : ℤ} :
    power? x n = some y ↔ (n < 0 → x ≠ 0) ∧ x ^ n = y := by
  unfold power?
  split_ifs with h
  · simp [h]
  · simp only [Option.some.injEq, iff_and_self]
    intro _ hn hx
    exact h ⟨hx, hn⟩

/-- Exponents add up, also under a zero base: then neither is negative. -/
theorem power?_add {x y z : ℚ} {a b : ℤ} (hy : power? x a = some y) (hz : power? x b = some z) :
    power? x (a + b) = some (y * z) := by
  obtain ⟨ha, rfl⟩ := power?_eq_some.mp hy
  obtain ⟨hb, rfl⟩ := power?_eq_some.mp hz
  refine power?_eq_some.mpr ⟨fun h => ?_, ?_⟩
  · by_cases h' : a < 0
    · exact ha h'
    · exact hb (by omega)
  · by_cases hx : x = 0
    · have ha' : 0 ≤ a := by by_contra h; exact ha (by omega) hx
      have hb' : 0 ≤ b := by by_contra h; exact hb (by omega) hx
      lift a to ℕ using ha'
      lift b to ℕ using hb'
      exact_mod_cast pow_add x a b
    · exact zpow_add₀ hx a b

/-! ### Totals over the entries of a sparse function -/

namespace Sparse

variable {κ M : Type} {op : M → M → M} {unit : M} {f : κ → ℤ → Option M}

theorem total_cons_eq_some {k : κ} {n : ℤ} {rest : List (κ × ℤ)} {x : M} :
    total op unit f ((k, n) :: rest) = some x ↔
      ∃ y z, f k n = some y ∧ total op unit f rest = some z ∧ op y z = x := by
  simp [total, Option.bind_eq_some_iff]

theorem total_congr {g : κ → ℤ → Option M} : ∀ {entries : List (κ × ℤ)},
    (∀ x ∈ entries, f x.1 x.2 = g x.1 x.2) → total op unit f entries = total op unit g entries
  | [], _ => rfl
  | (k, n) :: rest, h => by
    rw [total, total, h (k, n) (.head _), total_congr fun x hx => h x (.tail _ hx)]

/-- What holds of the merge of two entries at one key holds of the merge of
two lists: their totals are combined. -/
theorem total_merge [Ord κ] [Std.LawfulEqOrd κ] [Std.Associative op] [Std.Commutative op]
    [Std.LawfulIdentity op unit]
    (hf : ∀ k a b x y, f k a = some x → f k b = some y →
      if a + b = 0 then op x y = unit else f k (a + b) = some (op x y)) :
    ∀ (xs ys : List (κ × ℤ)) (x y : M), total op unit f xs = some x →
      total op unit f ys = some y → total op unit f (merge xs ys) = some (op x y)
  | [], ys, x, y, hx, hy => by
    obtain rfl : unit = x := by simpa [total] using hx
    rw [merge_nil_left, hy]
    exact congrArg some (Std.LawfulLeftIdentity.left_id y).symm
  | (k, a) :: xs, [], x, y, hx, hy => by
    obtain rfl : unit = y := by simpa [total] using hy
    rw [merge_nil_right, hx]
    exact congrArg some (Std.LawfulRightIdentity.right_id x).symm
  | (k, a) :: xs, (l, b) :: ys, x, y, hx, hy => by
    obtain ⟨x₁, x₂, hx₁, hx₂, rfl⟩ := total_cons_eq_some.mp hx
    obtain ⟨y₁, y₂, hy₁, hy₂, rfl⟩ := total_cons_eq_some.mp hy
    rw [merge_cons_cons]
    split
    · refine total_cons_eq_some.mpr ⟨x₁, _, hx₁, total_merge hf xs _ _ _ hx₂ hy, ?_⟩
      ac_rfl
    next h =>
      obtain rfl := Std.LawfulEqOrd.eq_of_compare h
      have hrest := total_merge hf xs ys _ _ hx₂ hy₂
      have hhead := hf k a b x₁ y₁ hx₁ hy₁
      have hswap : op (op x₁ x₂) (op y₁ y₂) = op (op x₁ y₁) (op x₂ y₂) := by ac_rfl
      split_ifs at hhead ⊢ with hab
      · rw [hrest, hswap, hhead]
        exact congrArg some (Std.LawfulLeftIdentity.left_id _).symm
      · exact total_cons_eq_some.mpr ⟨_, _, hhead, hrest, hswap.symm⟩
    · refine total_cons_eq_some.mpr ⟨y₁, _, hy₁, total_merge hf _ ys _ _ hx hy₂, ?_⟩
      ac_rfl

end Sparse

/-! ### Products and sums of lists -/

/-- The value of a product of expressions. -/
def productValue (v : Reading) : List Expr → Option ℚ
  | [] => some 1
  | e :: es => do return (← e.value v) * (← productValue v es)

/-- The value of a sum of expressions. -/
def sumValue (v : Reading) : List Expr → Option ℚ
  | [] => some 0
  | e :: es => do return (← e.value v) + (← sumValue v es)

namespace Expr

variable {v : Reading} {a b e : Expr} {x : ℚ}

theorem value_neg_eq_some : (neg e).value v = some x ↔ ∃ y, e.value v = some y ∧ -y = x := by
  simp [value, Option.bind_eq_some_iff]

theorem value_sum_eq_some : (sum a b).value v = some x ↔
    ∃ y z, a.value v = some y ∧ b.value v = some z ∧ y + z = x := by
  simp [value, Option.bind_eq_some_iff]

theorem value_product_eq_some : (product a b).value v = some x ↔
    ∃ y z, a.value v = some y ∧ b.value v = some z ∧ y * z = x := by
  simp [value, Option.bind_eq_some_iff]

theorem value_fraction_eq_some : (fraction a b).value v = some x ↔
    ∃ y z, a.value v = some y ∧ b.value v = some z ∧ z ≠ 0 ∧ y / z = x := by
  simp only [value, Option.bind_eq_bind, Option.bind_eq_some_iff]
  constructor
  · rintro ⟨y, hy, z, hz, h⟩
    split_ifs at h with h0
    exact ⟨y, z, hy, hz, h0, by simpa using h⟩
  · rintro ⟨y, z, hy, hz, h0, rfl⟩
    exact ⟨y, hy, z, hz, by simp [h0]⟩

variable {y : ℚ}

theorem value_sum (ha : a.value v = some x) (hb : b.value v = some y) :
    (sum a b).value v = some (x + y) := value_sum_eq_some.mpr ⟨x, y, ha, hb, rfl⟩

theorem value_sub (ha : a.value v = some x) (hb : b.value v = some y) :
    (a - b).value v = some (x - y) :=
  value_sum_eq_some.mpr ⟨x, -y, ha, value_neg_eq_some.mpr ⟨y, hb, rfl⟩, (sub_eq_add_neg x y).symm⟩

theorem value_product (ha : a.value v = some x) (hb : b.value v = some y) :
    (product a b).value v = some (x * y) := value_product_eq_some.mpr ⟨x, y, ha, hb, rfl⟩

theorem value_fraction (ha : a.value v = some x) (hb : b.value v = some y) (h0 : y ≠ 0) :
    (fraction a b).value v = some (x / y) := value_fraction_eq_some.mpr ⟨x, y, ha, hb, h0, rfl⟩

end Expr

theorem productValue_cons_eq_some {v : Reading} {e : Expr} {es : List Expr} {x : ℚ} :
    productValue v (e :: es) = some x ↔
      ∃ y z, e.value v = some y ∧ productValue v es = some z ∧ y * z = x := by
  simp [productValue, Option.bind_eq_some_iff]

theorem productValue_append (v : Reading) (es fs : List Expr) :
    productValue v (es ++ fs) = do return (← productValue v es) * (← productValue v fs) := by
  induction es with
  | nil => cases h : productValue v fs <;> simp [productValue, h]
  | cons e es ih =>
    simp only [List.cons_append, productValue, ih]
    cases e.value v <;> cases productValue v es <;> cases productValue v fs <;> simp [mul_assoc]

theorem value_foldl_product (v : Reading) (e : Expr) (es : List Expr) :
    (es.foldl Expr.product e).value v = productValue v (e :: es) := by
  induction es generalizing e with
  | nil => cases h : e.value v <;> simp [productValue, h]
  | cons f es ih =>
    rw [List.foldl_cons, ih]
    simp only [productValue, Expr.value]
    cases e.value v <;> cases f.value v <;> cases productValue v es <;> simp [mul_assoc]

theorem value_of_leftProduct? {v : Reading} {es : List Expr} {e : Expr}
    (h : Expr.leftProduct? es = some e) : e.value v = productValue v es := by
  cases es with
  | nil => cases h
  | cons f es =>
    simp only [Expr.leftProduct?, Option.some.injEq] at h
    rw [← h, value_foldl_product]

theorem value_foldl_sum (v : Reading) (e : Expr) (es : List Expr) :
    (es.foldl Expr.sum e).value v = sumValue v (e :: es) := by
  induction es generalizing e with
  | nil => cases h : e.value v <;> simp [sumValue, h]
  | cons f es ih =>
    rw [List.foldl_cons, ih]
    simp only [sumValue, Expr.value]
    cases e.value v <;> cases f.value v <;> cases sumValue v es <;> simp [add_assoc]

/-! ### Unfolding packed nodes -/

theorem productValue_replicate {v : Reading} {q : Quantity} {x : ℚ} (h : v q = some x) (n : ℕ) :
    productValue v (List.replicate n (.quantity q)) = some (x ^ n) := by
  induction n with
  | zero => simp [productValue]
  | succ n ih => simp [List.replicate_succ, productValue, Expr.value, h, ih, pow_succ, mul_comm]

theorem productValue_replicate_none {v : Reading} {q : Quantity} (h : v q = none) {n : ℕ}
    (hn : 0 < n) : productValue v (List.replicate n (.quantity q)) = none := by
  obtain ⟨m, rfl⟩ := Nat.exists_eq_succ_of_ne_zero hn.ne'
  simp [List.replicate_succ, productValue, Expr.value, h]

/-- The product of the powers of the entries is the product of the quantities
above the bar over the product of those below. -/
theorem total_power_eq (v : Reading) : ∀ entries : List (Quantity × ℤ), (∀ x ∈ entries, x.2 ≠ 0) →
    Sparse.total (· * ·) 1 (fun q n => (v q).bind fun x => power? x n) entries = (do
      let x ← productValue v
        ((entries.flatMap fun x => List.replicate x.2.toNat x.1).map .quantity)
      let y ← productValue v
        ((entries.flatMap fun x => List.replicate (-x.2).toNat x.1).map .quantity)
      if y = 0 then none else return x / y)
  | [], _ => by simp [Sparse.total, productValue]
  | (q, n) :: rest, hn => by
    have ih := total_power_eq v rest fun x hx => hn x (.tail _ hx)
    simp only [Sparse.total, ih, List.flatMap_cons, List.map_append, List.map_replicate,
      productValue_append]
    generalize productValue v ((rest.flatMap fun x => List.replicate x.2.toNat x.1).map .quantity) = X
    generalize productValue v
      ((rest.flatMap fun x => List.replicate (-x.2).toNat x.1).map .quantity) = Y
    rcases lt_or_gt_of_ne (hn _ (.head _)) with h | h
    · -- the quantity stands below the bar
      obtain ⟨k, rfl⟩ : ∃ k : ℕ, n = -(k : ℤ) := ⟨n.natAbs, by simp only at h; omega⟩
      have hk : 0 < k := by simp only at h; omega
      simp only [Int.toNat_neg_natCast, neg_neg, Int.toNat_natCast, List.replicate_zero]
      cases hq : v q with
      | none => cases X <;> simp [productValue, productValue_replicate_none hq hk]
      | some x =>
        rw [productValue_replicate hq]
        by_cases hx : x = 0
        · subst hx
          have hp : power? 0 (-k) = none := if_pos ⟨rfl, h⟩
          cases X <;> cases Y <;> simp [productValue, hp, hk.ne']
        · have hp : power? x (-k) = some (x ^ k)⁻¹ := by simp [power?, hx]
          cases X <;> cases Y <;> simp only [productValue, Option.bind_eq_bind, Option.bind_some,
            hp, Option.bind_none, Option.pure_def, one_mul, mul_eq_zero, pow_eq_zero_iff hk.ne', hx, false_or]
          split_ifs
          · rfl
          · rw [Option.bind_some, ← div_eq_inv_mul, div_div, mul_comm (x ^ k)]
    · -- the quantity stands above the bar
      obtain ⟨k, rfl⟩ : ∃ k : ℕ, n = (k : ℤ) := ⟨n.toNat, by simp only at h; omega⟩
      have hk : 0 < k := by simp only at h; omega
      simp only [Int.toNat_neg_natCast, Int.toNat_natCast, List.replicate_zero]
      cases hq : v q with
      | none => simp [productValue_replicate_none hq hk]
      | some x =>
        have hp : power? x k = some (x ^ k) := by simp [power?]
        rw [productValue_replicate hq]
        cases X <;> cases Y <;> simp only [productValue, Option.bind_eq_bind, Option.bind_some,
          hp, Option.bind_none, Option.pure_def, one_mul]
        split_ifs
        · rfl
        · rw [Option.bind_some, mul_div_assoc]

theorem Powers.value_eq (v : Reading) (p : Powers) : p.value v = (do
    let x ← productValue v (p.upper.map .quantity)
    let y ← productValue v (p.lower.map .quantity)
    if y = 0 then none else return x / y) :=
  total_power_eq v p.entries p.nonzero

namespace Term

variable (v : Reading) (t : Term)

theorem value_numerator : t.numerator.value v =
    (productValue v (t.powers.upper.map .quantity)).map fun x => (t.coefficient.natAbs : ℚ) * x := by
  unfold numerator
  split
  next h =>
    have hnil : t.powers.upper.map Expr.quantity = [] := by
      cases hl : t.powers.upper.map Expr.quantity <;> simp_all [Expr.leftProduct?]
    simp [hnil, productValue, Expr.value]
  next e h =>
    rw [← value_of_leftProduct? h]
    split_ifs with h1
    · simp [h1]
    · cases h : e.value v <;> simp [Expr.value, h]

theorem denominator?_eq_none {t : Term} (h : t.denominator? = none) :
    t.powers.lower.map Expr.quantity = [] := by
  unfold denominator? at h
  cases hl : t.powers.lower.map Expr.quantity with
  | nil => rfl
  | cons e es => rw [hl] at h; cases h

/-- Giving an expression the sign of the term. -/
theorem value_signed {u : Expr}
    (hu : u.value v = (t.powers.value v).map fun x => (t.coefficient.natAbs : ℚ) * x) :
    (if t.coefficient < 0 then .neg u else u).value v = t.value v := by
  have hmag : ((t.coefficient.natAbs : ℕ) : ℚ) = |(t.coefficient : ℚ)| := by
    rw [Nat.cast_natAbs, Int.cast_abs]
  unfold value
  split_ifs with h
  · rw [Expr.value, hu, hmag, abs_of_neg (by exact_mod_cast h)]
    cases t.powers.value v <;> simp
  · rw [hu, hmag, abs_of_nonneg (by exact_mod_cast not_lt.mp h)]

theorem value_toExpr : t.toExpr.value v = t.value v := by
  unfold toExpr
  cases hd : t.denominator? with
  | none =>
    apply value_signed
    rw [value_numerator, Powers.value_eq, denominator?_eq_none hd]
    cases productValue v (t.powers.upper.map .quantity) <;> simp [productValue]
  | some d =>
    apply value_signed
    rw [Powers.value_eq, ← value_of_leftProduct? hd, Expr.value, value_numerator]
    cases productValue v (t.powers.upper.map .quantity) <;> cases d.value v <;>
      simp only [Option.map_none, Option.map_some, Option.bind_eq_bind, Option.bind_none,
        Option.bind_some]
    split_ifs <;> simp [mul_div_assoc]

end Term

theorem sumValue_map_toExpr (v : Reading) : ∀ entries : List (Powers × ℤ),
    sumValue v ((entries.map fun x => (⟨x.2, x.1⟩ : Term)).map Term.toExpr) =
      Sparse.total (· + ·) 0 (fun (k : Powers) n => (k.value v).map fun x : ℚ => n * x) entries
  | [] => rfl
  | x :: rest => by
    simp only [List.map_cons, sumValue, Sparse.total, sumValue_map_toExpr v rest, Term.value_toExpr,
      Term.value]

theorem Polynomial.value_of_isZero {v : Reading} {p : Polynomial} (h : p.isZero) :
    p.value v = some 0 := by
  have hnil : p.entries = [] := by simpa [Sparse.isZero] using h
  rw [value, hnil]
  rfl

theorem Polynomial.value_toExpr (v : Reading) (p : Polynomial) : p.toExpr.value v = p.value v := by
  unfold Polynomial.value
  rw [← sumValue_map_toExpr]
  unfold toExpr Polynomial.terms
  split
  next h => simp [h, sumValue, Expr.value]
  next e es h => rw [h, value_foldl_sum]

namespace Expr

theorem value_mapLeaves {v : Reading} {onQuantity : Quantity → Expr} {onTerm : Term → Expr}
    {onPolynomial : Polynomial → Expr} (hq : ∀ q, (onQuantity q).value v = v q)
    (ht : ∀ t, (onTerm t).value v = t.value v) (hp : ∀ p, (onPolynomial p).value v = p.value v)
    (e : Expr) : (e.mapLeaves onQuantity onTerm onPolynomial).value v = e.value v := by
  induction e with
  | number n => rfl
  | quantity q => exact hq q
  | neg e ih => simp only [mapLeaves, value, ih]
  | sum a b iha ihb => simp only [mapLeaves, value, iha, ihb]
  | product a b iha ihb => simp only [mapLeaves, value, iha, ihb]
  | fraction a b iha ihb => simp only [mapLeaves, value, iha, ihb]
  | term t => exact ht t
  | polynomial p => exact hp p

/-- **Unfolding changes no value.** The unfolded expression has a value exactly
when the expression has one, and they are the same. -/
theorem value_unfold (v : Reading) (e : Expr) : e.unfold.value v = e.value v :=
  value_mapLeaves (fun _ => rfl) (Term.value_toExpr v) (Polynomial.value_toExpr v) e

theorem value_expose (v : Reading) (p : Point) (e : Expr) : (e.expose p).value v = e.value v := by
  refine value_mapLeaves (fun _ => rfl) (fun t => ?_) (fun q => ?_) e
  · split_ifs
    · exact Term.value_toExpr v t
    · rfl
  · split_ifs
    · exact Polynomial.value_toExpr v q
    · rfl

/-! ### Properties of the leaves -/

/-- A property that numbers have, and an inner node exactly if its operands have
it: the quantities and packed nodes decide. -/
structure Leafwise (P : Expr → Prop) : Prop where
  on_number : ∀ n, P (number n)
  on_neg : ∀ {e}, P (neg e) ↔ P e
  on_sum : ∀ {a b}, P (sum a b) ↔ P a ∧ P b
  on_product : ∀ {a b}, P (product a b) ↔ P a ∧ P b
  on_fraction : ∀ {a b}, P (fraction a b) ↔ P a ∧ P b

namespace Leafwise

variable {P P' : Expr → Prop} {a b : Expr}

theorem on_add (hP : Leafwise P) : P (a + b) ↔ P a ∧ P b := hP.on_sum

theorem on_sub (hP : Leafwise P) : P (a - b) ↔ P a ∧ P b :=
  hP.on_sum.trans (and_congr_right fun _ => hP.on_neg)

theorem on_mul (hP : Leafwise P) : P (a * b) ↔ P a ∧ P b := hP.on_product

theorem on_div (hP : Leafwise P) : P (a / b) ↔ P a ∧ P b := hP.on_fraction

theorem on_ofNat (hP : Leafwise P) (n : ℕ) : P (ofNat(n) : Expr) := hP.on_number n

/-- All rules at once, to take a formula apart. -/
theorem arithmetic (hP : Leafwise P) : (∀ n : ℕ, P (ofNat(n) : Expr)) ∧
    (∀ e, P (-e) ↔ P e) ∧ (∀ a b, P (a + b) ↔ P a ∧ P b) ∧ (∀ a b, P (a - b) ↔ P a ∧ P b) ∧
    (∀ a b, P (a * b) ↔ P a ∧ P b) ∧ ∀ a b, P (a / b) ↔ P a ∧ P b :=
  ⟨hP.on_ofNat, fun _ => hP.on_neg, fun _ _ => hP.on_add, fun _ _ => hP.on_sub,
    fun _ _ => hP.on_mul, fun _ _ => hP.on_div⟩

theorem and (hP : Leafwise P) (hP' : Leafwise P') : Leafwise fun e => P e ∧ P' e where
  on_number n := ⟨hP.on_number n, hP'.on_number n⟩
  on_neg := and_congr hP.on_neg hP'.on_neg
  on_sum := (and_congr hP.on_sum hP'.on_sum).trans and_and_and_comm
  on_product := (and_congr hP.on_product hP'.on_product).trans and_and_and_comm
  on_fraction := (and_congr hP.on_fraction hP'.on_fraction).trans and_and_and_comm

end Leafwise

/-- Replacing leaves passes a property on if it does so at each leaf. -/
theorem Leafwise.holds_mapLeaves {P P' : Expr → Prop} (hP : Leafwise P) (hP' : Leafwise P')
    {onQuantity : Quantity → Expr} {onTerm : Term → Expr} {onPolynomial : Polynomial → Expr}
    (hq : ∀ q, P (.quantity q) → P' (onQuantity q)) (ht : ∀ t, P (.term t) → P' (onTerm t))
    (hp : ∀ p, P (.polynomial p) → P' (onPolynomial p)) {e : Expr} (h : P e) :
    P' (e.mapLeaves onQuantity onTerm onPolynomial) := by
  induction e with
  | number n => exact hP'.on_number n
  | quantity q => exact hq q h
  | neg e ih => exact hP'.on_neg.mpr (ih (hP.on_neg.mp h))
  | sum a b iha ihb => exact hP'.on_sum.mpr ⟨iha (hP.on_sum.mp h).1, ihb (hP.on_sum.mp h).2⟩
  | product a b iha ihb =>
    exact hP'.on_product.mpr ⟨iha (hP.on_product.mp h).1, ihb (hP.on_product.mp h).2⟩
  | fraction a b iha ihb =>
    exact hP'.on_fraction.mpr ⟨iha (hP.on_fraction.mp h).1, ihb (hP.on_fraction.mp h).2⟩
  | term t => exact ht t h
  | polynomial p => exact hp p h

/-- Replacing leaves by expressions with the same values, where they have one and the
property holds, keeps the value of the whole. -/
theorem Leafwise.value_mapLeaves {P : Expr → Prop} (hP : Leafwise P) {v w : Reading}
    {onQuantity : Quantity → Expr} {onTerm : Term → Expr} {onPolynomial : Polynomial → Expr}
    (hq : ∀ q x, v q = some x → (onQuantity q).value w = some x)
    (ht : ∀ t x, P (.term t) → t.value v = some x → (onTerm t).value w = some x)
    (hp : ∀ p x, P (.polynomial p) → p.value v = some x → (onPolynomial p).value w = some x)
    {e : Expr} (h : P e) {x : ℚ} (hx : e.value v = some x) :
    (e.mapLeaves onQuantity onTerm onPolynomial).value w = some x := by
  induction e generalizing x with
  | number n => exact hx
  | quantity q => exact hq q x hx
  | neg e ih =>
    obtain ⟨y, hy, rfl⟩ := value_neg_eq_some.mp hx
    exact value_neg_eq_some.mpr ⟨y, ih (hP.on_neg.mp h) hy, rfl⟩
  | sum a b iha ihb =>
    obtain ⟨y, z, hy, hz, rfl⟩ := value_sum_eq_some.mp hx
    obtain ⟨ha, hb⟩ := hP.on_sum.mp h
    exact value_sum_eq_some.mpr ⟨y, z, iha ha hy, ihb hb hz, rfl⟩
  | product a b iha ihb =>
    obtain ⟨y, z, hy, hz, rfl⟩ := value_product_eq_some.mp hx
    obtain ⟨ha, hb⟩ := hP.on_product.mp h
    exact value_product_eq_some.mpr ⟨y, z, iha ha hy, ihb hb hz, rfl⟩
  | fraction a b iha ihb =>
    obtain ⟨y, z, hy, hz, h0, rfl⟩ := value_fraction_eq_some.mp hx
    obtain ⟨ha, hb⟩ := hP.on_fraction.mp h
    exact value_fraction_eq_some.mpr ⟨y, z, iha ha hy, ihb hb hz, h0, rfl⟩
  | term t => exact ht t x h hx
  | polynomial p => exact hp p x h hx

theorem holds_foldl {P : Expr → Prop} {node : Expr → Expr → Expr}
    (hnode : ∀ {a b}, P (node a b) ↔ P a ∧ P b) :
    ∀ (es : List Expr) (e : Expr), P (es.foldl node e) ↔ ∀ f ∈ e :: es, P f
  | [], e => by simp
  | f :: es, e => by
    rw [List.foldl_cons, holds_foldl hnode es, List.forall_mem_cons, hnode, List.forall_mem_cons,
      List.forall_mem_cons, and_assoc]

theorem Leafwise.holds_leftProduct? {P : Expr → Prop} (hP : Leafwise P) {es : List Expr} {e : Expr}
    (h : leftProduct? es = some e) : P e ↔ ∀ f ∈ es, P f := by
  cases es with
  | nil => cases h
  | cons f es =>
    cases h
    exact holds_foldl hP.on_product es f

/-- There are no packed nodes in the expression. -/
def Unpacked : Expr → Prop
  | number _ | quantity _ => True
  | neg e => e.Unpacked
  | sum a b | product a b | fraction a b => a.Unpacked ∧ b.Unpacked
  | term _ | polynomial _ => False

theorem leafwise_unpacked : Leafwise Unpacked :=
  ⟨fun _ => trivial, Iff.rfl, Iff.rfl, Iff.rfl, Iff.rfl⟩

/-! ### The quantities of an expression -/

/-- Every quantity of the expression has the property `Q`. -/
def All (Q : Quantity → Prop) (e : Expr) : Prop := ∀ q ∈ e.quantities, Q q

variable {Q : Quantity → Prop} {a b e : Expr}

@[simp]
theorem all_number (n : ℤ) : (number n).All Q := by simp [All, quantities]

@[simp]
theorem all_quantity {q : Quantity} : (quantity q).All Q ↔ Q q := by simp [All, quantities]

@[simp]
theorem all_neg : (neg e).All Q ↔ e.All Q := Iff.rfl

@[simp]
theorem all_sum : (sum a b).All Q ↔ a.All Q ∧ b.All Q := List.forall_mem_append

@[simp]
theorem all_product : (product a b).All Q ↔ a.All Q ∧ b.All Q := List.forall_mem_append

@[simp]
theorem all_fraction : (fraction a b).All Q ↔ a.All Q ∧ b.All Q := List.forall_mem_append

@[simp]
theorem all_add : (a + b).All Q ↔ a.All Q ∧ b.All Q := all_sum

@[simp]
theorem all_sub : (a - b).All Q ↔ a.All Q ∧ b.All Q := all_sum

@[simp]
theorem all_mul : (a * b).All Q ↔ a.All Q ∧ b.All Q := all_product

@[simp]
theorem all_div : (a / b).All Q ↔ a.All Q ∧ b.All Q := all_fraction

@[simp]
theorem all_ofNat (n : ℕ) : (ofNat(n) : Expr).All Q := all_number n

@[simp]
theorem all_area {p q r : Point} : (area p q r).All Q ↔ Q (.area p q r) := all_quantity

@[simp]
theorem all_pythagoras {p q r : Point} : (pythagoras p q r).All Q ↔ Q (.pythagoras p q r) :=
  all_quantity

@[simp]
theorem all_ratio {p q r s : Point} : (ratio p q r s).All Q ↔ Q (.ratio p q r s) := all_quantity

theorem leafwise_all (Q : Quantity → Prop) : Leafwise (All Q) :=
  ⟨all_number, all_neg, all_sum, all_product, all_fraction⟩

theorem All.mono {Q' : Quantity → Prop} (h : e.All Q) (hQ : ∀ q, Q q → Q' q) : e.All Q' :=
  fun q hq => hQ q (h q hq)

end Expr

namespace Term

variable {Q : Quantity → Prop} {t : Term}

theorem mem_quantities {q : Quantity} :
    q ∈ (Expr.term t).quantities ↔ ∃ x ∈ t.powers.entries, x.1 = q := by
  simp [Expr.quantities, Powers.quantities]

theorem mem_quantities_iff {q : Quantity} :
    q ∈ (Expr.term t).quantities ↔ q ∈ t.powers.upper ∨ q ∈ t.powers.lower := by
  simp only [mem_quantities, Powers.upper, Powers.lower, List.mem_flatMap, List.mem_replicate]
  constructor
  · rintro ⟨x, hx, rfl⟩
    have h0 := t.powers.nonzero x hx
    by_cases hpos : 0 < x.2
    · exact .inl ⟨x, hx, by omega, rfl⟩
    · exact .inr ⟨x, hx, by omega, rfl⟩
  · rintro (⟨x, hx, -, rfl⟩ | ⟨x, hx, -, rfl⟩) <;> exact ⟨x, hx, rfl⟩

theorem mem_of_mem_upper {q : Quantity} (h : q ∈ t.powers.upper) :
    q ∈ (Expr.term t).quantities := mem_quantities_iff.mpr (.inl h)

theorem mem_of_mem_lower {q : Quantity} (h : q ∈ t.powers.lower) :
    q ∈ (Expr.term t).quantities := mem_quantities_iff.mpr (.inr h)

section Leaves

variable {P : Expr → Prop} (hP : Expr.Leafwise P)
include hP

theorem holds_numerator : P t.numerator ↔ ∀ q ∈ t.powers.upper, P (.quantity q) := by
  unfold numerator
  simp only
  split
  next h =>
    have hnil : t.powers.upper = [] := by
      cases hl : t.powers.upper with
      | nil => rfl
      | cons q qs => rw [hl] at h; cases h
    simp [hnil, hP.on_number]
  next e h =>
    have hall : P e ↔ ∀ q ∈ t.powers.upper, P (.quantity q) := by
      rw [hP.holds_leftProduct? h, List.forall_mem_map]
    split_ifs
    · exact hall
    · rw [hP.on_product, hall]
      exact and_iff_right (hP.on_number _)

theorem holds_denominator? {d : Expr} (hd : t.denominator? = some d) :
    P d ↔ ∀ q ∈ t.powers.lower, P (.quantity q) := by
  rw [hP.holds_leftProduct? hd, List.forall_mem_map]

/-- In plain nodes, a term has the quantities that it had packed, and no other
leaves that matter. -/
theorem holds_toExpr : P t.toExpr ↔ ∀ q ∈ (Expr.term t).quantities, P (.quantity q) := by
  have hsigned : ∀ u, P (if t.coefficient < 0 then .neg u else u) ↔ P u := by
    intro u
    split_ifs
    · exact hP.on_neg
    · exact Iff.rfl
  have hquantities : (∀ q ∈ (Expr.term t).quantities, P (.quantity q)) ↔
      P t.numerator ∧ ∀ q ∈ t.powers.lower, P (.quantity q) := by
    rw [holds_numerator hP]
    simp only [mem_quantities_iff, or_imp, forall_and]
  unfold toExpr
  rw [hquantities, hsigned]
  cases hd : t.denominator? with
  | none => simp [List.map_eq_nil_iff.mp (denominator?_eq_none hd)]
  | some d => rw [← holds_denominator? hP hd, hP.on_fraction]

end Leaves

theorem all_toExpr (h : (Expr.term t).All Q) : t.toExpr.All Q :=
  (holds_toExpr (Expr.leafwise_all Q)).mpr fun q hq => Expr.all_quantity.mpr (h q hq)

end Term

namespace Polynomial

variable {Q : Quantity → Prop} {p : Polynomial}

theorem all_iff : (Expr.polynomial p).All Q ↔ ∀ t ∈ p.terms, (Expr.term t).All Q := by
  unfold Expr.All
  simp only [Expr.quantities, List.mem_flatMap]
  exact ⟨fun h t ht q hq => h q ⟨t, ht, hq⟩, fun h q ⟨t, ht, hq⟩ => h t ht q hq⟩

theorem holds_toExpr {P : Expr → Prop} (hP : Expr.Leafwise P) :
    P p.toExpr ↔ ∀ q ∈ (Expr.polynomial p).quantities, P (.quantity q) := by
  have hquantities : (∀ q ∈ (Expr.polynomial p).quantities, P (.quantity q)) ↔
      ∀ e ∈ p.terms.map Term.toExpr, P e := by
    simp only [List.forall_mem_map, Term.holds_toExpr hP]
    exact List.forall_mem_flatMap
  rw [hquantities]
  unfold toExpr
  split
  next h => simp [h, hP.on_number]
  next e es h => rw [h, Expr.holds_foldl hP.on_sum]

theorem all_toExpr (h : (Expr.polynomial p).All Q) : p.toExpr.All Q :=
  (holds_toExpr (Expr.leafwise_all Q)).mpr fun q hq => Expr.all_quantity.mpr (h q hq)

end Polynomial

namespace Expr

variable {Q Q' : Quantity → Prop}

theorem all_mapLeaves {onQuantity : Quantity → Expr} {onTerm : Term → Expr}
    {onPolynomial : Polynomial → Expr} (hq : ∀ q, Q q → (onQuantity q).All Q')
    (ht : ∀ t, (term t).All Q → (onTerm t).All Q')
    (hp : ∀ p, (polynomial p).All Q → (onPolynomial p).All Q') {e : Expr} (h : e.All Q) :
    (e.mapLeaves onQuantity onTerm onPolynomial).All Q' :=
  (leafwise_all Q).holds_mapLeaves (leafwise_all Q') (fun q h => hq q (all_quantity.mp h)) ht hp h

theorem all_unfold {e : Expr} (h : e.All Q) : e.unfold.All Q :=
  all_mapLeaves (fun _ => all_quantity.mpr) (fun _ => Term.all_toExpr) (fun _ => Polynomial.all_toExpr) h

theorem unpacked_unfold (e : Expr) : e.unfold.Unpacked := by
  have hany : e.All fun _ => True := fun _ _ => trivial
  refine (leafwise_all _).holds_mapLeaves leafwise_unpacked (fun q _ => ?_) (fun t _ => ?_)
    (fun p _ => ?_) hany
  · trivial
  · exact (Term.holds_toExpr leafwise_unpacked).mpr fun _ _ => trivial
  · exact (Polynomial.holds_toExpr leafwise_unpacked).mpr fun _ _ => trivial

theorem all_expose (p : Point) {e : Expr} (h : e.All Q) : (e.expose p).All Q := by
  refine all_mapLeaves (fun _ => all_quantity.mpr) (fun t ht => ?_) (fun q hq => ?_) h
  · split_ifs
    · exact Term.all_toExpr ht
    · exact ht
  · split_ifs
    · exact Polynomial.all_toExpr hq
    · exact hq

end Expr

/-! ### Readings that agree -/

theorem Powers.value_congr {v w : Reading} {p : Powers} (h : ∀ x ∈ p.entries, v x.1 = w x.1) :
    p.value v = p.value w :=
  Sparse.total_congr fun x hx => by rw [h x hx]

theorem Polynomial.value_congr {v w : Reading} {p : Polynomial}
    (h : ∀ k ∈ p.entries, ∀ x ∈ k.1.entries, v x.1 = w x.1) : p.value v = p.value w :=
  Sparse.total_congr fun k hk => by rw [Powers.value_congr (h k hk)]

/-- The value depends on the quantities of the expression only. -/
theorem Expr.value_congr {v w : Reading} : ∀ {e : Expr}, (e.All fun q => v q = w q) →
    e.value v = e.value w
  | number _, _ => rfl
  | quantity _, h => all_quantity.mp h
  | neg e, h => by rw [value, value, value_congr (all_neg.mp h)]
  | sum a b, h => by
    rw [value, value, value_congr (all_sum.mp h).1, value_congr (all_sum.mp h).2]
  | product a b, h => by
    rw [value, value, value_congr (all_product.mp h).1, value_congr (all_product.mp h).2]
  | fraction a b, h => by
    rw [value, value, value_congr (all_fraction.mp h).1, value_congr (all_fraction.mp h).2]
  | term t, h => by
    rw [value, value, Term.value, Term.value, Powers.value_congr fun x hx =>
      h x.1 (Term.mem_quantities.mpr ⟨x, hx, rfl⟩)]
  | polynomial p, h => by
    refine Polynomial.value_congr fun k hk x hx => ?_
    exact Polynomial.all_iff.mp h ⟨k.2, k.1⟩ (List.mem_map.mpr ⟨k, hk, rfl⟩) _
      (Term.mem_quantities.mpr ⟨x, hx, rfl⟩)

/-! ### Points of the examples -/

namespace Letters

def a : Point := ⟨"A"⟩

def b : Point := ⟨"B"⟩

def c : Point := ⟨"C"⟩

def d : Point := ⟨"D"⟩

def e : Point := ⟨"E"⟩

def f : Point := ⟨"F"⟩

def h : Point := ⟨"H"⟩

def m : Point := ⟨"M"⟩

def n : Point := ⟨"N"⟩

def x : Point := ⟨"X"⟩

def y : Point := ⟨"Y"⟩

end Letters
end AreaMethod
