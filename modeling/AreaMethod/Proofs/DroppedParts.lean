/-
# Dropped parts

Simplification keeps values, but it may give a value to an expression that has
none: `0 * e`, `e - e` and `d / d` become numbers whether or not `e` has a value and
`d` is different from zero, and of `n / (x / y)` only `n * y / x` is left. Here each of
these rules comes with a list of what it drops (`Expr.passDrops`, `Expr.drops`). The
same happens where everything is brought to one fraction (`Expr.flattenDrops`).
Nothing else is lost: if the result and all dropped parts have a value, so has the
expression (`Expr.defined_of_simplify`, `Expr.defined_of_toFractional`).

Key definitions: `Expr.Defined`, `Expr.passDrops`, `Expr.drops`, `Expr.flattenDrops`.
Key theorems: `Expr.defined_of_simplifyStep`, `Expr.defined_of_simplify`,
`Expr.defined_of_toFractional`.
-/
import Mathlib
import AreaMethod.Proofs.Fractions

namespace AreaMethod
namespace Expr

variable {v : Reading} {a b d e e' f n : Expr}

/-! ### Expressions that have a value -/

/-- The expression has a value. -/
def Defined (v : Reading) (e : Expr) : Prop := ∃ x, e.value v = some x

/-- The expression has a value other than zero. -/
def Nonzero (v : Reading) (e : Expr) : Prop := ∃ x, e.value v = some x ∧ x ≠ 0

theorem Nonzero.defined (h : e.Nonzero v) : e.Defined v := h.imp fun _ => And.left

theorem defined_number (n : ℤ) : (number n).Defined v := ⟨n, rfl⟩

theorem defined_of_isZero (h : e.isZero) : e.Defined v := ⟨0, value_of_isZero h⟩

theorem defined_of_isOne (h : e.isOne) : e.Defined v := ⟨1, value_of_isOne h⟩

theorem defined_of_rational? {r : ℚ} (h : e.rational? = some r) : e.Defined v :=
  ⟨r, value_of_rational? h⟩

theorem defined_neg : (neg e).Defined v ↔ e.Defined v := by
  constructor
  · rintro ⟨x, hx⟩
    obtain ⟨y, hy, -⟩ := value_neg_eq_some.mp hx
    exact ⟨y, hy⟩
  · rintro ⟨x, hx⟩
    exact ⟨-x, value_neg_eq_some.mpr ⟨x, hx, rfl⟩⟩

theorem nonzero_neg : (neg e).Nonzero v ↔ e.Nonzero v := by
  constructor
  · rintro ⟨x, hx, h0⟩
    obtain ⟨y, hy, rfl⟩ := value_neg_eq_some.mp hx
    exact ⟨y, hy, neg_ne_zero.mp h0⟩
  · rintro ⟨x, hx, h0⟩
    exact ⟨-x, value_neg_eq_some.mpr ⟨x, hx, rfl⟩, neg_ne_zero.mpr h0⟩

theorem defined_sum : (sum a b).Defined v ↔ a.Defined v ∧ b.Defined v := by
  constructor
  · rintro ⟨x, hx⟩
    obtain ⟨y, z, hy, hz, -⟩ := value_sum_eq_some.mp hx
    exact ⟨⟨y, hy⟩, ⟨z, hz⟩⟩
  · rintro ⟨⟨y, hy⟩, ⟨z, hz⟩⟩
    exact ⟨y + z, value_sum hy hz⟩

theorem defined_product : (product a b).Defined v ↔ a.Defined v ∧ b.Defined v := by
  constructor
  · rintro ⟨x, hx⟩
    obtain ⟨y, z, hy, hz, -⟩ := value_product_eq_some.mp hx
    exact ⟨⟨y, hy⟩, ⟨z, hz⟩⟩
  · rintro ⟨⟨y, hy⟩, ⟨z, hz⟩⟩
    exact ⟨y * z, value_product hy hz⟩

theorem nonzero_product : (product a b).Nonzero v ↔ a.Nonzero v ∧ b.Nonzero v := by
  constructor
  · rintro ⟨x, hx, h0⟩
    obtain ⟨y, z, hy, hz, rfl⟩ := value_product_eq_some.mp hx
    obtain ⟨hy0, hz0⟩ := mul_ne_zero_iff.mp h0
    exact ⟨⟨y, hy, hy0⟩, ⟨z, hz, hz0⟩⟩
  · rintro ⟨⟨y, hy, hy0⟩, ⟨z, hz, hz0⟩⟩
    exact ⟨y * z, value_product hy hz, mul_ne_zero hy0 hz0⟩

theorem defined_fraction : (fraction n d).Defined v ↔ n.Defined v ∧ d.Nonzero v := by
  constructor
  · rintro ⟨x, hx⟩
    obtain ⟨y, z, hy, hz, h0, -⟩ := value_fraction_eq_some.mp hx
    exact ⟨⟨y, hy⟩, ⟨z, hz, h0⟩⟩
  · rintro ⟨⟨y, hy⟩, ⟨z, hz, h0⟩⟩
    exact ⟨y / z, value_fraction hy hz h0⟩

theorem nonzero_fraction : (fraction n d).Nonzero v ↔ n.Nonzero v ∧ d.Nonzero v := by
  constructor
  · rintro ⟨x, hx, h0⟩
    obtain ⟨y, z, hy, hz, hz0, rfl⟩ := value_fraction_eq_some.mp hx
    exact ⟨⟨y, hy, (div_ne_zero_iff.mp h0).1⟩, ⟨z, hz, hz0⟩⟩
  · rintro ⟨⟨y, hy, hy0⟩, ⟨z, hz, hz0⟩⟩
    exact ⟨y / z, value_fraction hy hz hz0, div_ne_zero hy0 hz0⟩

theorem nonzero_of_reciprocal (h : (fraction 1 d).Defined v) : d.Nonzero v := (defined_fraction.mp h).2

/-- A product has a value if its factors have, and is zero only if one of them is. -/
theorem defined_of_factors : ∀ {e : Expr}, (∀ f ∈ e.factors, f.Defined v) → e.Defined v
  | product _ _, h => defined_product.mpr
      ⟨defined_of_factors fun f hf => h f (List.mem_append_left _ hf),
        defined_of_factors fun f hf => h f (List.mem_append_right _ hf)⟩
  | number _, h | quantity _, h | neg _, h | sum _ _, h | fraction _ _, h | term _, h
  | polynomial _, h => h _ (List.mem_singleton_self _)

theorem nonzero_of_factors : ∀ {e : Expr}, (∀ f ∈ e.factors, f.Nonzero v) → e.Nonzero v
  | product _ _, h => nonzero_product.mpr
      ⟨nonzero_of_factors fun f hf => h f (List.mem_append_left _ hf),
        nonzero_of_factors fun f hf => h f (List.mem_append_right _ hf)⟩
  | number _, h | quantity _, h | neg _, h | sum _ _, h | fraction _ _, h | term _, h
  | polynomial _, h => h _ (List.mem_singleton_self _)

theorem defined_ofFactors {es : List Expr} (h : (ofFactors es).Defined v) : ∀ f ∈ es, f.Defined v := by
  obtain ⟨x, hx⟩ := h
  rw [value_ofFactors] at hx
  induction es generalizing x with
  | nil => exact fun f hf => nomatch hf
  | cons e es ih =>
    obtain ⟨y, z, hy, hz, -⟩ := productValue_cons_eq_some.mp hx
    exact List.forall_mem_cons.mpr ⟨⟨y, hy⟩, ih z hz⟩

theorem nonzero_ofFactors {es : List Expr} (h : (ofFactors es).Nonzero v) : ∀ f ∈ es, f.Nonzero v := by
  obtain ⟨x, hx, h0⟩ := h
  rw [value_ofFactors] at hx
  induction es generalizing x with
  | nil => exact fun f hf => nomatch hf
  | cons e es ih =>
    obtain ⟨y, z, hy, hz, rfl⟩ := productValue_cons_eq_some.mp hx
    obtain ⟨hy0, hz0⟩ := mul_ne_zero_iff.mp h0
    exact List.forall_mem_cons.mpr ⟨⟨y, hy, hy0⟩, ih z hz hz0⟩

/-! ### Sums and products -/

theorem defined_of_negRule (h : e.negRule.Defined v) : e.Defined v := by
  cases e with
  | number n => exact defined_number n
  | neg e => exact defined_neg.mpr h
  | _ => exact defined_neg.mp h

/-- What the rules for sums drop: an expression that is subtracted from itself. -/
def sumDrops (a b : Expr) : List Expr := if b = neg a ∨ a = neg b then [a] else []

theorem defined_of_sumSigns (h : (sumSigns a b).Defined v)
    (hdrops : ∀ d ∈ sumDrops a b, d.Defined v) : a.Defined v ∧ b.Defined v := by
  have hsame : ∀ {e : Expr}, a = e ∧ b = neg e ∨ a = neg e ∧ b = e → a.Defined v ∧ b.Defined v := by
    rintro e (⟨rfl, rfl⟩ | ⟨rfl, rfl⟩)
    · have ha := hdrops a (by simp [sumDrops])
      exact ⟨ha, defined_neg.mpr ha⟩
    · have hb := hdrops (neg b) (by simp [sumDrops])
      exact ⟨hb, defined_neg.mp hb⟩
  unfold sumSigns at h
  split at h
  · rw [defined_neg, defined_sum] at h
    exact ⟨defined_neg.mpr h.1, defined_neg.mpr h.2⟩
  · split_ifs at h with heq
    · exact hsame (.inl ⟨heq, rfl⟩)
    · exact defined_sum.mp h
  · split_ifs at h with heq
    · exact hsame (.inr ⟨rfl, heq.symm⟩)
    · exact defined_sum.mp h
  · exact defined_sum.mp h

theorem defined_of_sumRule (h : (sumRule a b).Defined v)
    (hdrops : ∀ d ∈ sumDrops a b, d.Defined v) : (sum a b).Defined v := by
  rw [defined_sum]
  unfold sumRule at h
  split_ifs at h with ha hb
  · exact ⟨defined_of_isZero ha, h⟩
  · exact ⟨h, defined_of_isZero hb⟩
  · split at h
    next r s hr hs => exact ⟨defined_of_rational? hr, defined_of_rational? hs⟩
    · exact defined_of_sumSigns h hdrops

theorem defined_of_negated? (h : e.negated? = some e') : e.Defined v ↔ e'.Defined v := by
  cases e <;> cases h
  exact defined_neg

theorem nonzero_of_negated? (h : e.negated? = some e') : e.Nonzero v ↔ e'.Nonzero v := by
  cases e <;> cases h
  exact nonzero_neg

theorem nonzero_of_magnitude? (h : e.magnitude? = some e') : e.Nonzero v := by
  cases e with
  | number m =>
    simp only [magnitude?] at h
    split_ifs at h with hm
    exact ⟨m, rfl, by exact_mod_cast hm.ne⟩
  | _ => cases h

/-- Signs that are taken out drop nothing. -/
theorem defined_of_signOut? {node : Expr → Expr → Expr} {Q : Expr → Prop}
    (hnode : ∀ {a b : Expr}, (node a b).Defined v ↔ a.Defined v ∧ Q b)
    (hneg : ∀ {b b' : Expr}, b.negated? = some b' → (Q b ↔ Q b'))
    (hmagnitude : ∀ {b b' : Expr}, b.magnitude? = some b' → Q b)
    (h : signOut? node a b = some e) (he : e.Defined v) : (node a b).Defined v := by
  rw [hnode]
  unfold signOut? at h
  split at h
  next a' ha =>
    cases h
    obtain ⟨ha', hb⟩ := hnode.mp he
    exact ⟨(defined_of_negated? ha).mpr ha', hb⟩
  · split at h
    next b' hb =>
      cases h
      obtain ⟨ha, hb'⟩ := hnode.mp he
      exact ⟨ha, (hneg hb).mpr hb'⟩
    · split at h
      next a' ha =>
        cases h
        exact ⟨(nonzero_of_magnitude? ha).defined, (hnode.mp he).2⟩
      · obtain ⟨b', hb, rfl⟩ := Option.map_eq_some_iff.mp h
        exact ⟨(hnode.mp he).1, hmagnitude hb⟩

/-- What the rules for products drop: the factors of zero, and a denominator with
which the product is multiplied. -/
def productDrops (a b : Expr) : List Expr :=
  if a.isZero || b.isZero then [a, b]
  else if (signOut? product a b).isSome then []
  else if (b.over? a).isSome then [fraction 1 a]
  else if (a.over? b).isSome then [fraction 1 b]
  else []

theorem defined_of_productSigns (hzero : ¬ (a.isZero || b.isZero)) (h : (productSigns a b).Defined v)
    (hdrops : ∀ d ∈ productDrops a b, d.Defined v) : (product a b).Defined v := by
  unfold productSigns at h
  simp only [productDrops, if_neg hzero] at hdrops
  cases hsign : signOut? product a b with
  | some e =>
    rw [hsign] at h
    exact defined_of_signOut? defined_product defined_of_negated?
      (fun hb => (nonzero_of_magnitude? hb).defined) hsign (defined_neg.mp h)
  | none =>
    rw [hsign] at h hdrops
    rw [defined_product]
    cases hb : b.over? a with
    | some n =>
      rw [hb] at h hdrops
      have ha := nonzero_of_reciprocal (hdrops (fraction 1 a) (by simp))
      rw [eq_fraction_of_over? hb, defined_fraction]
      exact ⟨ha.defined, h, ha⟩
    | none =>
      rw [hb] at h hdrops
      cases ha : a.over? b with
      | some n =>
        rw [ha] at h hdrops
        have hb := nonzero_of_reciprocal (hdrops (fraction 1 b) (by simp))
        rw [eq_fraction_of_over? ha, defined_fraction]
        exact ⟨⟨h, hb⟩, hb.defined⟩
      | none =>
        rw [ha] at h
        exact defined_product.mp h

theorem defined_of_productRule (h : (productRule a b).Defined v)
    (hdrops : ∀ d ∈ productDrops a b, d.Defined v) : (product a b).Defined v := by
  unfold productRule at h
  split_ifs at h with h0 h1 h2 h3 h4
  · rw [productDrops, if_pos h0] at hdrops
    exact defined_product.mpr ⟨hdrops a (by simp), hdrops b (by simp)⟩
  · exact defined_product.mpr ⟨defined_of_isOne h1, h⟩
  · exact defined_product.mpr ⟨h, defined_of_isOne h2⟩
  · exact defined_product.mpr ⟨h3 ▸ defined_number _, defined_neg.mp h⟩
  · exact defined_product.mpr ⟨defined_neg.mp h, h4 ▸ defined_number _⟩
  · split at h
    next r s hr hs => exact defined_product.mpr ⟨defined_of_rational? hr, defined_of_rational? hs⟩
    · exact defined_of_productSigns h0 h hdrops

/-! ### Fractions -/

/-- The factors above the bar that are below it, too. -/
def commonFactors (n d : Expr) : List Expr := n.factors.filter (· ∈ d.factors)

/-- What is dropped from a fraction without signs: the denominator of its denominator,
or the factors that cancel. -/
def unsignedDrops (n d : Expr) : List Expr :=
  match d with
  | fraction _ y => [fraction 1 y]
  | _ =>
    match n with
    | fraction _ _ => []
    | _ => if cancelFactors n d = fraction n d then [] else (commonFactors n d).map (fraction 1)

/-- What the rules for fractions drop. The denominator of zero and one that is equal
to the numerator are dropped as a whole. -/
def fractionDrops (n d : Expr) : List Expr :=
  if n.isZero ∨ n = d then [fraction 1 d]
  else if (signOut? fraction n d).isSome then []
  else unsignedDrops n d

theorem factors_of_cofactor? (h : e.cofactor? f = some a) :
    (e.Defined v ↔ a.Defined v ∧ f.Defined v) ∧ (e.Nonzero v ↔ a.Nonzero v ∧ f.Nonzero v) ∧
      ∀ g ∈ f.factors, g ∈ e.factors := by
  cases e with
  | product b c =>
    simp only [cofactor?] at h
    split_ifs at h with hc hb
    · cases h
      cases hc
      exact ⟨defined_product, nonzero_product, fun g hg => List.mem_append_right _ hg⟩
    · cases h
      cases hb
      exact ⟨defined_product.trans and_comm, nonzero_product.trans and_comm,
        fun g hg => List.mem_append_left _ hg⟩
  | _ => cases h

/-- Numbers that are cancelled have values. -/
theorem defined_of_cancelNumber? : ∀ {es fs : List Expr} {k l : ℤ}, cancelNumber? k es = some (fs, l) →
    (∀ f ∈ fs, f.Defined v) → l ≠ 0 → (∀ e ∈ es, e.Defined v) ∧ k ≠ 0
  | [], _, _, _, h, _, _ => by cases h
  | e :: es, fs, k, l, h, hfs, hl => by
    unfold cancelNumber? at h
    split at h
    · cases h
    next m rest heq =>
      obtain ⟨rfl, rfl⟩ := List.cons.inj heq
      split_ifs at h with hg
      cases h
      refine ⟨List.forall_mem_cons.mpr ⟨defined_number m, fun f hf => hfs f (.tail _ hf)⟩, ?_⟩
      rintro rfl
      exact hl (Int.zero_ediv _)
    next rest f heq =>
      obtain ⟨rfl, rfl⟩ := List.cons.inj heq
      obtain ⟨w, hw, hfs'⟩ := Option.map_eq_some_iff.mp h
      cases hfs'
      obtain ⟨hhead, htail⟩ := List.forall_mem_cons.mp hfs
      obtain ⟨hes, hk⟩ := defined_of_cancelNumber? hw htail hl
      exact ⟨List.forall_mem_cons.mpr ⟨hhead, hes⟩, hk⟩

/-- A factor stays, or it is on both sides. -/
theorem mem_cancelCommon : ∀ num den : List Expr,
    (∀ f ∈ num, f ∈ (cancelCommon num den).1 ∨ f ∈ den) ∧
      ∀ f ∈ den, f ∈ (cancelCommon num den).2 ∨ f ∈ num
  | [], den => ⟨fun _ hf => (nomatch hf), fun _ hf => .inl hf⟩
  | g :: num, den => by
    unfold cancelCommon
    split_ifs with hg
    · obtain ⟨habove, hbelow⟩ := mem_cancelCommon num (den.erase g)
      refine ⟨fun f hf => ?_, fun f hf => ?_⟩
      · rcases List.mem_cons.mp hf with rfl | hf
        · exact .inr hg
        · exact (habove f hf).imp_right List.mem_of_mem_erase
      · by_cases heq : f = g
        · exact .inr (heq ▸ .head _)
        · exact (hbelow f ((List.mem_erase_of_ne heq).mpr hf)).imp_right (.tail _)
    · obtain ⟨habove, hbelow⟩ := mem_cancelCommon num den
      refine ⟨fun f hf => ?_, fun f hf => (hbelow f hf).imp_right (.tail _)⟩
      rcases List.mem_cons.mp hf with rfl | hf
      · exact .inl (.head _)
      · exact (habove f hf).imp_left (.tail _)

theorem defined_of_cancelProducts (h : (cancelProducts n d).Defined v)
    (hcommon : ∀ f ∈ n.factors, f ∈ d.factors → f.Nonzero v) : (fraction n d).Defined v := by
  unfold cancelProducts at h
  simp only at h
  split_ifs at h
  · exact h
  · obtain ⟨habove, hbelow⟩ := mem_cancelCommon n.factors d.factors
    obtain ⟨hn, hd⟩ := defined_fraction.mp h
    refine defined_fraction.mpr ⟨defined_of_factors fun f hf => ?_, nonzero_of_factors fun f hf => ?_⟩
    · exact (habove f hf).elim (defined_ofFactors hn f) fun hfd => (hcommon f hf hfd).defined
    · exact (hbelow f hf).elim (nonzero_ofFactors hd f) fun hfn => hcommon f hfn hf

theorem defined_of_cancelFactors (h : (cancelFactors n d).Defined v)
    (hcommon : cancelFactors n d ≠ fraction n d → ∀ f ∈ n.factors, f ∈ d.factors → f.Nonzero v) :
    (fraction n d).Defined v := by
  by_cases hsame : cancelFactors n d = fraction n d
  · rwa [hsame] at h
  have hcommon := hcommon hsame
  unfold cancelFactors at h
  split at h
  next e he =>
    obtain ⟨hdefined, -, hsub⟩ := factors_of_cofactor? (v := v) he
    have hd : d.Nonzero v := nonzero_of_factors fun f hf => hcommon f (hsub f hf) hf
    exact defined_fraction.mpr ⟨hdefined.mpr ⟨h, hd.defined⟩, hd⟩
  · split at h
    next e he =>
      obtain ⟨-, hnonzero, hsub⟩ := factors_of_cofactor? (v := v) he
      have hn : n.Nonzero v := nonzero_of_factors fun f hf => hcommon f hf (hsub f hf)
      exact defined_fraction.mpr ⟨hn.defined, hnonzero.mpr ⟨(defined_fraction.mp h).2, hn⟩⟩
    · split at h
      · split at h
        next c hc =>
          obtain ⟨habove, l, hl, hl0⟩ := defined_fraction.mp h
          have hl0' : c.2 ≠ 0 := by
            rintro hc0
            rw [hc0] at hl
            exact hl0 (by simpa [value] using hl.symm)
          obtain ⟨hfactors, hk⟩ := defined_of_cancelNumber? hc (defined_ofFactors habove) hl0'
          exact defined_fraction.mpr
            ⟨defined_of_factors hfactors, _, rfl, Int.cast_ne_zero.mpr hk⟩
        · exact h
      · split at h
        · exact defined_of_cancelProducts h hcommon
        · exact h
      · exact h

theorem defined_of_fractionSigns (h : (fractionSigns n d).Defined v)
    (hdrops : signOut? fraction n d = none → ∀ e ∈ unsignedDrops n d, e.Defined v) :
    (fraction n d).Defined v := by
  unfold fractionSigns at h
  cases hsign : signOut? fraction n d with
  | some e =>
    rw [hsign] at h
    exact defined_of_signOut? defined_fraction nonzero_of_negated? nonzero_of_magnitude? hsign
      (defined_neg.mp h)
  | none =>
    simp only [hsign] at h
    have hdrops := hdrops hsign
    unfold unsignedDrops at hdrops
    split at h
    next x y =>
      have hy := nonzero_of_reciprocal (hdrops _ (List.mem_singleton_self _))
      obtain ⟨hproduct, hx⟩ := defined_fraction.mp h
      exact defined_fraction.mpr ⟨(defined_product.mp hproduct).1, nonzero_fraction.mpr ⟨hx, hy⟩⟩
    next hd =>
      split at h
      next x y =>
        obtain ⟨hx, hproduct⟩ := defined_fraction.mp h
        obtain ⟨hy, hd⟩ := nonzero_product.mp hproduct
        exact defined_fraction.mpr ⟨defined_fraction.mpr ⟨hx, hy⟩, hd⟩
      next hn =>
        refine defined_of_cancelFactors h fun hne f hfn hfd => ?_
        refine nonzero_of_reciprocal (hdrops _ ?_)
        split
        · exact absurd rfl (hd _ _)
        · split
          · exact absurd rfl (hn _ _)
          · rw [if_neg hne]
            exact List.mem_map_of_mem (List.mem_filter.mpr ⟨hfn, decide_eq_true hfd⟩)

theorem defined_of_fractionRule (hrule : fractionRule n d = .ok e) (h : e.Defined v)
    (hdrops : ∀ f ∈ fractionDrops n d, f.Defined v) : (fraction n d).Defined v := by
  unfold fractionRule at hrule
  split_ifs at hrule with h1 h2 h3 h4 h5
  · rw [fractionDrops, if_pos (.inl h2)] at hdrops
    exact defined_fraction.mpr
      ⟨defined_of_isZero h2, nonzero_of_reciprocal (hdrops _ (List.mem_singleton_self _))⟩
  · rw [fractionDrops, if_pos (.inr h3)] at hdrops
    have hd := nonzero_of_reciprocal (hdrops _ (List.mem_singleton_self _))
    exact defined_fraction.mpr ⟨h3 ▸ hd.defined, hd⟩
  · cases hrule
    exact defined_fraction.mpr ⟨h, 1, value_of_isOne h4, one_ne_zero⟩
  · cases hrule
    exact defined_fraction.mpr ⟨defined_neg.mp h, -1, by simp [h5, value], by norm_num⟩
  · split at hrule
    next r hr =>
      unfold quotient? at hr
      split at hr
      next s t hs ht =>
        split_ifs at hr with h0
        exact defined_fraction.mpr ⟨defined_of_rational? hs, t, value_of_rational? ht, h0⟩
      · cases hr
    · cases hrule
      refine defined_of_fractionSigns h fun hsign => ?_
      rwa [fractionDrops, if_neg (not_or.mpr ⟨h2, h3⟩), hsign, if_neg (by decide)] at hdrops

/-! ### Passes -/

/-- What a rule drops at a node, whose operands are simplified before. -/
def nodeDrops (rule : Expr → Expr → List Expr) (a b : Expr) : List Expr :=
  match a.simplifyStep, b.simplifyStep with
  | .ok a', .ok b' => rule a' b'
  | _, _ => []

/-- What one pass of the rules drops from an expression without packed nodes. -/
def passDrops : Expr → List Expr
  | neg e => e.passDrops
  | sum a b => a.passDrops ++ b.passDrops ++ nodeDrops sumDrops a b
  | product a b => a.passDrops ++ b.passDrops ++ nodeDrops productDrops a b
  | fraction a b => a.passDrops ++ b.passDrops ++ nodeDrops fractionDrops a b
  | number _ | quantity _ | term _ | polynomial _ => []

theorem forall_mem_nodeDrops {P : Expr → Prop} {rule : Expr → Expr → List Expr} {a' b' : Expr}
    (ha : a.simplifyStep = .ok a') (hb : b.simplifyStep = .ok b') :
    (∀ d ∈ a.passDrops ++ b.passDrops ++ nodeDrops rule a b, P d) ↔
      (∀ d ∈ a.passDrops, P d) ∧ (∀ d ∈ b.passDrops, P d) ∧ ∀ d ∈ rule a' b', P d := by
  simp only [nodeDrops, ha, hb, List.forall_mem_append, and_assoc]

/-- Where an operand has a value, it has the one that it is simplified to. -/
theorem Nonzero.of_simplifyStep (h : e'.Nonzero v) (hs : e.simplifyStep = .ok e')
    (he : e.Defined v) : e.Nonzero v := by
  obtain ⟨x, hx⟩ := he
  obtain ⟨d, hd, hdx⟩ := simplifyStep_of_value hx
  obtain rfl := Except.ok.inj (hs.symm.trans hd)
  obtain ⟨y, hy, h0⟩ := h
  obtain rfl := Option.some.inj (hy.symm.trans hdx)
  exact ⟨y, hx, h0⟩

/-- **Nothing else is lost.** If the result of a pass and all that it drops have a
value, so has the expression. -/
theorem defined_of_simplifyStep : ∀ {e e' : Expr}, e.Unpacked → e.simplifyStep = .ok e' →
    e'.Defined v → (∀ d ∈ e.passDrops, d.Defined v) → e.Defined v
  | number _, _, _, h, he', _ | quantity _, _, _, h, he', _ => by
    cases h
    exact he'
  | neg e, _, hu, h, he', hdrops => by
    obtain ⟨d, hd, h⟩ := bind_eq_ok.mp h
    cases h
    exact defined_neg.mpr (defined_of_simplifyStep (e := e) hu hd (defined_of_negRule he') hdrops)
  | sum a b, _, hu, h, he', hdrops => by
    obtain ⟨a', ha, h⟩ := bind_eq_ok.mp h
    obtain ⟨b', hb, h⟩ := bind_eq_ok.mp h
    cases h
    obtain ⟨hleft, hright, hnode⟩ := (forall_mem_nodeDrops ha hb).mp hdrops
    obtain ⟨ha', hb'⟩ := defined_sum.mp (defined_of_sumRule he' hnode)
    exact defined_sum.mpr ⟨defined_of_simplifyStep hu.1 ha ha' hleft,
      defined_of_simplifyStep hu.2 hb hb' hright⟩
  | product a b, _, hu, h, he', hdrops => by
    obtain ⟨a', ha, h⟩ := bind_eq_ok.mp h
    obtain ⟨b', hb, h⟩ := bind_eq_ok.mp h
    cases h
    obtain ⟨hleft, hright, hnode⟩ := (forall_mem_nodeDrops ha hb).mp hdrops
    obtain ⟨ha', hb'⟩ := defined_product.mp (defined_of_productRule he' hnode)
    exact defined_product.mpr ⟨defined_of_simplifyStep hu.1 ha ha' hleft,
      defined_of_simplifyStep hu.2 hb hb' hright⟩
  | fraction a b, _, hu, h, he', hdrops => by
    obtain ⟨a', ha, h⟩ := bind_eq_ok.mp h
    obtain ⟨b', hb, h⟩ := bind_eq_ok.mp h
    obtain ⟨hleft, hright, hnode⟩ := (forall_mem_nodeDrops ha hb).mp hdrops
    obtain ⟨ha', hb'⟩ := defined_fraction.mp (defined_of_fractionRule h he' hnode)
    exact defined_fraction.mpr ⟨defined_of_simplifyStep hu.1 ha ha' hleft,
      hb'.of_simplifyStep hb (defined_of_simplifyStep hu.2 hb hb'.defined hright)⟩

/-- What the passes of a simplification drop. -/
def drops (e : Expr) : List Expr :=
  e.passDrops ++
    match _hs : e.simplifyStep with
    | .error _ => []
    | .ok e' => if e' = e then [] else drops e'
termination_by (e.weight, e.magnitude)
decreasing_by
  rename_i hne
  rcases eq_or_lighter_of_simplifyStep _hs with heq | hl | ⟨hw, hm⟩
  · exact absurd heq hne
  · exact Prod.Lex.left _ _ hl
  · rw [hw]; exact Prod.Lex.right _ hm

theorem drops_of_error {f : Fault} (h : e.simplifyStep = .error f) : e.drops = e.passDrops := by
  rw [drops]
  split
  · exact List.append_nil _
  next e' he => rw [h] at he; cases he

theorem drops_of_fixed (h : e.simplifyStep = .ok e) : e.drops = e.passDrops := by
  rw [drops]
  split
  · exact List.append_nil _
  next e' he =>
    obtain rfl := Except.ok.inj (h.symm.trans he)
    rw [if_pos rfl, List.append_nil]

theorem drops_of_pass (h : e.simplifyStep = .ok e') (hne : e' ≠ e) :
    e.drops = e.passDrops ++ e'.drops := by
  rw [drops]
  split
  next f hf => rw [h] at hf; cases hf
  next d hd =>
    obtain rfl := Except.ok.inj (h.symm.trans hd)
    rw [if_neg hne]

/-- The same for the whole simplification. -/
theorem defined_of_simplify (hu : e.Unpacked) (hs : e.simplify = .ok e') (he' : e'.Defined v)
    (hdrops : ∀ d ∈ e.drops, d.Defined v) : e.Defined v := by
  induction e using simplify.induct with
  | case1 e f hf =>
    rw [simplify_of_error hf] at hs
    cases hs
  | case2 e hfixed =>
    rw [simplify_of_fixed hfixed] at hs
    rwa [Except.ok.inj hs]
  | case3 e d hpass hne ih =>
    rw [simplify_of_pass hpass hne] at hs
    rw [drops_of_pass hpass hne, List.forall_mem_append] at hdrops
    exact defined_of_simplifyStep hu hpass
      (ih (leafwise_unpacked.holds_simplifyStep hpass hu) hs hdrops.2) hdrops.1

/-! ### Leaves -/

section Leaves

variable {P : Expr → Prop} (hP : Leafwise P)

include hP

theorem Leafwise.holds_reciprocal (hd : P d) : P (fraction 1 d) :=
  hP.on_fraction.mpr ⟨hP.on_number 1, hd⟩

omit hP in
theorem forall_mem_sumDrops (ha : P a) : ∀ d ∈ sumDrops a b, P d := by
  unfold sumDrops
  split_ifs
  · exact List.forall_mem_singleton.mpr ha
  · exact List.forall_mem_nil P

theorem Leafwise.holds_productDrops (ha : P a) (hb : P b) : ∀ d ∈ productDrops a b, P d := by
  unfold productDrops
  split_ifs
  · exact List.forall_mem_cons.mpr ⟨ha, List.forall_mem_singleton.mpr hb⟩
  · exact List.forall_mem_nil P
  · exact List.forall_mem_singleton.mpr (hP.holds_reciprocal ha)
  · exact List.forall_mem_singleton.mpr (hP.holds_reciprocal hb)
  · exact List.forall_mem_nil P

theorem Leafwise.holds_fractionDrops (hn : P n) (hd : P d) : ∀ e ∈ fractionDrops n d, P e := by
  unfold fractionDrops
  split_ifs
  · exact List.forall_mem_singleton.mpr (hP.holds_reciprocal hd)
  · exact List.forall_mem_nil P
  · unfold unsignedDrops
    split
    · exact List.forall_mem_singleton.mpr (hP.holds_reciprocal (hP.on_fraction.mp hd).2)
    · split
      · exact List.forall_mem_nil P
      · split_ifs
        · exact List.forall_mem_nil P
        · refine List.forall_mem_map.mpr fun f hf => hP.holds_reciprocal ?_
          exact hP.holds_factors hn f (List.mem_of_mem_filter hf)

theorem Leafwise.holds_nodeDrops {rule : Expr → Expr → List Expr}
    (hrule : ∀ {a b : Expr}, P a → P b → ∀ d ∈ rule a b, P d) (ha : P a) (hb : P b) :
    ∀ d ∈ nodeDrops rule a b, P d := by
  unfold nodeDrops
  split
  next a' b' ha' hb' => exact hrule (hP.holds_simplifyStep ha' ha) (hP.holds_simplifyStep hb' hb)
  · exact List.forall_mem_nil P

theorem Leafwise.holds_passDrops : ∀ {e : Expr}, P e → ∀ d ∈ e.passDrops, P d
  | neg e, he => Leafwise.holds_passDrops (e := e) (hP.on_neg.mp he)
  | sum a b, he => by
    obtain ⟨ha, hb⟩ := hP.on_sum.mp he
    exact List.forall_mem_append.mpr ⟨List.forall_mem_append.mpr ⟨holds_passDrops ha,
      holds_passDrops hb⟩, hP.holds_nodeDrops (fun ha _ => forall_mem_sumDrops ha) ha hb⟩
  | product a b, he => by
    obtain ⟨ha, hb⟩ := hP.on_product.mp he
    exact List.forall_mem_append.mpr ⟨List.forall_mem_append.mpr ⟨holds_passDrops ha,
      holds_passDrops hb⟩, hP.holds_nodeDrops hP.holds_productDrops ha hb⟩
  | fraction a b, he => by
    obtain ⟨ha, hb⟩ := hP.on_fraction.mp he
    exact List.forall_mem_append.mpr ⟨List.forall_mem_append.mpr ⟨holds_passDrops ha,
      holds_passDrops hb⟩, hP.holds_nodeDrops hP.holds_fractionDrops ha hb⟩
  | number _, _ | quantity _, _ | term _, _ | polynomial _, _ => List.forall_mem_nil P

/-- What is decided at the leaves is true of all parts that are dropped. -/
theorem Leafwise.holds_drops (he : P e) : ∀ d ∈ e.drops, P d := by
  induction e using simplify.induct with
  | case1 e f hf =>
    rw [drops_of_error hf]
    exact hP.holds_passDrops he
  | case2 e hfixed =>
    rw [drops_of_fixed hfixed]
    exact hP.holds_passDrops he
  | case3 e e' hpass hne ih =>
    rw [drops_of_pass hpass hne, List.forall_mem_append]
    exact ⟨hP.holds_passDrops he, ih (hP.holds_simplifyStep hpass he)⟩

end Leaves

end Expr

/-! ### One fraction -/

namespace Fractional

variable {v : Reading} {x y : Fractional}

/-- The denominator is absent, or not zero. -/
def Regular (v : Reading) (x : Fractional) : Prop := ∀ d, x.den? = some d → d.Nonzero v

theorem regular_of_add (h : (x.add y).Regular v) : x.Regular v ∧ y.Regular v := by
  obtain ⟨a, c?⟩ := x
  obtain ⟨b, d?⟩ := y
  cases c? with
  | none =>
    cases d? with
    | none => exact ⟨fun _ hc => (nomatch hc), fun _ hd => (nomatch hd)⟩
    | some d => exact ⟨fun _ hc => (nomatch hc), h⟩
  | some c =>
    cases d? with
    | none => exact ⟨h, fun _ hd => (nomatch hd)⟩
    | some d =>
      simp only [add] at h
      split_ifs at h with hcd
      · exact ⟨h, hcd ▸ h⟩
      · obtain ⟨hc, hd⟩ := Expr.nonzero_product.mp (h _ rfl)
        exact ⟨fun _ he => Option.some.inj he ▸ hc, fun _ he => Option.some.inj he ▸ hd⟩

theorem regular_of_mul (h : (x.mul y).Regular v) : x.Regular v ∧ y.Regular v := by
  obtain ⟨a, c?⟩ := x
  obtain ⟨b, d?⟩ := y
  cases c? with
  | none => exact ⟨fun _ hc => (nomatch hc), h⟩
  | some c =>
    cases d? with
    | none => exact ⟨h, fun _ hd => (nomatch hd)⟩
    | some d =>
      obtain ⟨hc, hd⟩ := Expr.nonzero_product.mp (h _ rfl)
      exact ⟨fun _ he => Option.some.inj he ▸ hc, fun _ he => Option.some.inj he ▸ hd⟩

theorem regular_of_div (h : (x.div y).Regular v) : x.Regular v ∧ y.num.Nonzero v := by
  obtain ⟨a, c?⟩ := x
  cases c? with
  | none => exact ⟨fun _ hc => (nomatch hc), h _ rfl⟩
  | some c =>
    obtain ⟨hnum, hc⟩ := Expr.nonzero_product.mp (h _ rfl)
    exact ⟨fun _ he => Option.some.inj he ▸ hc, hnum⟩

end Fractional

namespace Expr

variable {v : Reading} {e : Expr}

/-- What is dropped where an expression without packed nodes is brought to one fraction:
the denominator of what is divided by. -/
def flattenDrops : Expr → List Expr
  | neg e => e.flattenDrops
  | sum a b | product a b => a.flattenDrops ++ b.flattenDrops
  | fraction a b => a.flattenDrops ++ b.flattenDrops ++
    match b.toFractional with
    | .ok ⟨_, some d⟩ => [fraction 1 d]
    | _ => []
  | number _ | quantity _ | term _ | polynomial _ => []

/-- **Nothing else is lost.** If the denominator is not zero and all that is dropped has
a value, so has the expression. -/
theorem defined_of_toFractional : ∀ {e : Expr} {x : Fractional}, e.Unpacked →
    e.All (fun q => (v q).isSome) → e.toFractional = .ok x → x.Regular v →
      (∀ d ∈ e.flattenDrops, d.Defined v) → e.Defined v
  | number n, _, _, _, _, _, _ => defined_number n
  | quantity q, _, _, hall, _, _, _ => Option.isSome_iff_exists.mp (all_quantity.mp hall)
  | neg e, _, hu, hall, h, hregular, hdrops => by
    obtain ⟨y, hy, h⟩ := bind_eq_ok.mp h
    cases h
    exact defined_neg.mpr (defined_of_toFractional (e := e) hu hall hy hregular hdrops)
  | sum a b, _, hu, hall, h, hregular, hdrops => by
    obtain ⟨y, hy, h⟩ := bind_eq_ok.mp h
    obtain ⟨z, hz, h⟩ := bind_eq_ok.mp h
    cases h
    obtain ⟨hleft, hright⟩ := List.forall_mem_append.mp hdrops
    obtain ⟨hry, hrz⟩ := Fractional.regular_of_add hregular
    exact defined_sum.mpr ⟨defined_of_toFractional hu.1 (all_sum.mp hall).1 hy hry hleft,
      defined_of_toFractional hu.2 (all_sum.mp hall).2 hz hrz hright⟩
  | product a b, _, hu, hall, h, hregular, hdrops => by
    obtain ⟨y, hy, h⟩ := bind_eq_ok.mp h
    obtain ⟨z, hz, h⟩ := bind_eq_ok.mp h
    cases h
    obtain ⟨hleft, hright⟩ := List.forall_mem_append.mp hdrops
    obtain ⟨hry, hrz⟩ := Fractional.regular_of_mul hregular
    exact defined_product.mpr ⟨defined_of_toFractional hu.1 (all_product.mp hall).1 hy hry hleft,
      defined_of_toFractional hu.2 (all_product.mp hall).2 hz hrz hright⟩
  | fraction a b, _, hu, hall, h, hregular, hdrops => by
    obtain ⟨y, hy, h⟩ := bind_eq_ok.mp h
    obtain ⟨z, hz, h⟩ := bind_eq_ok.mp h
    split_ifs at h
    cases h
    obtain ⟨hoperands, hnode⟩ := List.forall_mem_append.mp hdrops
    obtain ⟨hleft, hright⟩ := List.forall_mem_append.mp hoperands
    obtain ⟨hry, hnum⟩ := Fractional.regular_of_div hregular
    have hrz : z.Regular v := by
      intro d hd
      obtain ⟨num, den?⟩ := z
      cases hd
      rw [hz] at hnode
      exact nonzero_of_reciprocal (hnode _ (List.mem_singleton_self _))
    obtain ⟨w, hw⟩ := defined_of_toFractional hu.2 (all_fraction.mp hall).2 hz hrz hright
    -- the value of the divisor is a quotient with the numerator above the bar
    obtain ⟨z', hz', n, d, hn, -, hd0, rfl⟩ := toFractional_of_value hw
    obtain rfl := Except.ok.inj (hz.symm.trans hz')
    obtain ⟨m, hm, hm0⟩ := hnum
    obtain rfl := Option.some.inj (hm.symm.trans hn)
    exact defined_fraction.mpr ⟨defined_of_toFractional hu.1 (all_fraction.mp hall).1 hy hry hleft,
      _, hw, div_ne_zero hm0 hd0⟩

theorem all_flattenDrops {Q : Quantity → Prop} : ∀ {e : Expr}, e.All Q → ∀ d ∈ e.flattenDrops, d.All Q
  | neg e, he => all_flattenDrops (e := e) (all_neg.mp he)
  | sum _ _, he => List.forall_mem_append.mpr
      ⟨all_flattenDrops (all_sum.mp he).1, all_flattenDrops (all_sum.mp he).2⟩
  | product _ _, he => List.forall_mem_append.mpr
      ⟨all_flattenDrops (all_product.mp he).1, all_flattenDrops (all_product.mp he).2⟩
  | fraction a b, he => by
    obtain ⟨ha, hb⟩ := all_fraction.mp he
    refine List.forall_mem_append.mpr ⟨List.forall_mem_append.mpr
      ⟨all_flattenDrops ha, all_flattenDrops hb⟩, ?_⟩
    split
    next n d hd =>
      refine List.forall_mem_singleton.mpr ((leafwise_all Q).holds_reciprocal ?_)
      exact ((plain_toFractional hd hb).2 d rfl).2
    · exact List.forall_mem_nil _
  | number _, _ | quantity _, _ | term _, _ | polynomial _, _ => List.forall_mem_nil _

end Expr
end AreaMethod
