/-
# Canonical quantities keep values

Sorting the points of a quantity changes its value by the sign that is put in
front. At coordinates where the known triples are collinear, an expression
with a value keeps it when all its quantities are made canonical, provided that no
exponent of a packed term wraps around (`Expr.canonical_keeps_value`). One that
does changes the value, or loses it (`Expr.canonical_loses_value`). No point is
added and no kind of quantity (`Expr.all_canonical`).

Key definitions: `Collinear`, `Triples.HoldAt`.
Key theorems: `Quantity.value_canonical`, `Expr.canonical_keeps_value`,
`Expr.all_canonical`.
-/
import Mathlib
import AreaMethod.Proofs.MergedPowers
import AreaMethod.Proofs.Plane

namespace AreaMethod

/-- Three points lie on one line. -/
def Collinear (ρ : Coordinates) (a b c : Point) : Prop := (ρ b - ρ a).cross (ρ c - ρ a) = 0

/-- All known triples are collinear. -/
def Triples.HoldAt (ρ : Coordinates) (known : Triples) : Prop :=
  ∀ t ∈ known.known, Collinear ρ t.1 t.2.1 t.2.2

theorem Triples.holdAt_empty (ρ : Coordinates) : Triples.empty.HoldAt ρ := fun _ h => (nomatch h)

/-- The sign of an odd or even number of swaps. -/
def sign (odd : Bool) : ℚ := if odd then -1 else 1

theorem sign_mul_self (odd : Bool) : sign odd * sign odd = 1 := by cases odd <;> norm_num [sign]

theorem sign_mul_cancel (odd : Bool) (x : ℚ) : sign odd * (sign odd * x) = x := by
  rw [← mul_assoc, sign_mul_self, one_mul]

theorem sign_xor (a b : Bool) : sign (a ^^ b) = sign a * sign b := by
  cases a <;> cases b <;> norm_num [sign]

/-! ### Sorting points -/

section Sorting

theorem sortTwo_cases (a b : Point) :
    sortTwo a b = ((a, b), false) ∨ sortTwo a b = ((b, a), true) := by
  unfold sortTwo
  split_ifs
  · exact .inr rfl
  · exact .inl rfl

theorem sortThree_eq (a b c : Point) : sortThree a b c =
    (((sortTwo (sortTwo a b).1.1 (sortTwo (sortTwo a b).1.2 c).1.1).1.1,
      (sortTwo (sortTwo a b).1.1 (sortTwo (sortTwo a b).1.2 c).1.1).1.2,
      (sortTwo (sortTwo a b).1.2 c).1.2),
      (sortTwo a b).2 ^^ (sortTwo (sortTwo a b).1.2 c).2 ^^
        (sortTwo (sortTwo a b).1.1 (sortTwo (sortTwo a b).1.2 c).1.1).2) := by
  unfold sortThree
  rcases sortTwo a b with ⟨⟨p, q⟩, first⟩
  simp only

/-- What holds of three points, and passes on when two neighbours are swapped,
holds of the sorted points. -/
theorem sortThree_induction {P : Point → Point → Point → Bool → Prop} {a b c : Point}
    (h : P a b c false) (hfirst : ∀ a b c odd, P a b c odd → P b a c !odd)
    (hlast : ∀ a b c odd, P a b c odd → P a c b !odd) :
    P (sortThree a b c).1.1 (sortThree a b c).1.2.1 (sortThree a b c).1.2.2
      (sortThree a b c).2 := by
  have htwo : ∀ {a b c odd}, P a b c odd →
      P (sortTwo a b).1.1 (sortTwo a b).1.2 c (odd ^^ (sortTwo a b).2) := by
    intro a b c odd h
    rcases sortTwo_cases a b with hs | hs <;> rw [hs]
    · rw [Bool.xor_false]; exact h
    · rw [Bool.xor_true]; exact hfirst a b c odd h
  have htwo' : ∀ {a b c odd}, P a b c odd →
      P a (sortTwo b c).1.1 (sortTwo b c).1.2 (odd ^^ (sortTwo b c).2) := by
    intro a b c odd h
    rcases sortTwo_cases b c with hs | hs <;> rw [hs]
    · rw [Bool.xor_false]; exact h
    · rw [Bool.xor_true]; exact hlast a b c odd h
  have hsorted := htwo (htwo' (htwo h))
  rw [Bool.false_xor] at hsorted
  simp only [sortThree_eq]
  exact hsorted

variable (ρ : Coordinates) (a b c : Point)

theorem sub_sortTwo :
    ρ (sortTwo a b).1.2 - ρ (sortTwo a b).1.1 = sign (sortTwo a b).2 • (ρ b - ρ a) := by
  rcases sortTwo_cases a b with h | h <;> rw [h] <;> simp [sign]

theorem sign_not (odd : Bool) : sign (!odd) = -sign odd := by
  cases odd <;> norm_num [sign]

theorem cross_sortThree :
    (ρ (sortThree a b c).1.2.1 - ρ (sortThree a b c).1.1).cross
        (ρ (sortThree a b c).1.2.2 - ρ (sortThree a b c).1.1) =
      sign (sortThree a b c).2 * (ρ b - ρ a).cross (ρ c - ρ a) := by
  refine sortThree_induction (P := fun p q r odd =>
    (ρ q - ρ p).cross (ρ r - ρ p) = sign odd * (ρ b - ρ a).cross (ρ c - ρ a)) ?_ ?_ ?_
  · simp [sign]
  · intro p q r odd h
    rw [sign_not, neg_mul, ← h]
    simp only [Vec.cross, Prod.fst_sub, Prod.snd_sub]
    ring
  · intro p q r odd h
    rw [sign_not, neg_mul, ← h]
    simp only [Vec.cross]
    ring

theorem collinear_sortThree :
    Collinear ρ (sortThree a b c).1.1 (sortThree a b c).1.2.1 (sortThree a b c).1.2.2 ↔
      Collinear ρ a b c := by
  unfold Collinear
  rw [cross_sortThree, mul_eq_zero, or_iff_right]
  cases (sortThree a b c).2 <;> norm_num [sign]

variable {K : Point → Prop} {a b c}

theorem forall_sortTwo (ha : K a) (hb : K b) :
    K (sortTwo a b).1.1 ∧ K (sortTwo a b).1.2 := by
  rcases sortTwo_cases a b with h | h <;> rw [h]
  · exact ⟨ha, hb⟩
  · exact ⟨hb, ha⟩

theorem forall_sortThree (ha : K a) (hb : K b) (hc : K c) :
    K (sortThree a b c).1.1 ∧ K (sortThree a b c).1.2.1 ∧ K (sortThree a b c).1.2.2 :=
  sortThree_induction (P := fun p q r _ => K p ∧ K q ∧ K r) ⟨ha, hb, hc⟩
    (fun _ _ _ _ ⟨hp, hq, hr⟩ => ⟨hq, hp, hr⟩) fun _ _ _ _ ⟨hp, hq, hr⟩ => ⟨hp, hr, hq⟩

end Sorting

/-! ### Representatives -/

variable {ρ : Coordinates} {known : Triples}

theorem Canonical.value_signed {q : Quantity} {odd : Bool} {x : ℚ}
    (h : reading ρ q = some (sign odd * x)) :
    (signed q odd).toExpr.value (reading ρ) = some x := by
  cases odd with
  | false => simpa [toExpr, Expr.value, sign] using h
  | true => simp [toExpr, Expr.value, h, sign]

theorem Canonical.value_unit {odd : Bool} :
    (unit odd).toExpr.value (reading ρ) = some (sign odd) := by
  cases odd with
  | false => exact congrArg some Int.cast_one
  | true => simp [toExpr, Expr.value, sign]

theorem Triples.collinear_of_has (hk : known.HoldAt ρ) {a b c : Point} (h : known.has a b c) :
    Collinear ρ a b c := by
  have hmem : (sortThree a b c).1 ∈ known.known := by simpa [has] using h
  exact (collinear_sortThree ρ a b c).mp (hk _ hmem)

/-- **A representative has the value of its quantity.** -/
theorem Quantity.value_canonical (hk : known.HoldAt ρ) {q : Quantity} {x : ℚ}
    (h : reading ρ q = some x) : (q.canonical known).toExpr.value (reading ρ) = some x := by
  cases q with
  | area a b c =>
    obtain rfl : (ρ b - ρ a).cross (ρ c - ρ a) / 2 = x := Option.some.inj h
    simp only [canonical]
    split_ifs with hzero
    · have : (ρ b - ρ a).cross (ρ c - ρ a) = 0 := by
        rcases hzero with rfl | rfl | rfl | hhas
        · simp [Vec.cross]
        · simp only [Vec.cross]; ring
        · simp [Vec.cross]
        · exact Triples.collinear_of_has hk hhas
      rw [this, zero_div]
      rfl
    · refine Canonical.value_signed ?_
      rw [reading, cross_sortThree, mul_div_assoc]
  | pythagoras a b c =>
    obtain rfl : 2 * (ρ a - ρ b).dot (ρ c - ρ b) = x := Option.some.inj h
    simp only [canonical]
    split_ifs with hzero hswap
    · have : (ρ a - ρ b).dot (ρ c - ρ b) = 0 := by
        rcases hzero with rfl | rfl <;> simp [Vec.dot]
      rw [this, mul_zero]
      rfl
    · refine Canonical.value_signed ?_
      obtain ⟨hac, -⟩ := hswap
      have hsort : a = c ∧ (sortTwo a c).1.1 = a := by
        unfold sortTwo at hac ⊢
        split_ifs at hac ⊢
        · exact ⟨hac.symm, hac⟩
        · exact ⟨hac, rfl⟩
      obtain ⟨rfl, hfirst⟩ := hsort
      rw [reading, hfirst, sign, if_neg (by decide), one_mul]
      simp only [Vec.dot, Prod.fst_sub, Prod.snd_sub]
      congr 1
      ring
    · refine Canonical.value_signed ?_
      rw [reading, sign, if_neg (by decide), one_mul]
      unfold sortTwo
      split_ifs
      · simp only [Vec.dot]
        congr 1
        ring
      · rfl
  | ratio a b c d =>
    rw [reading] at h
    split_ifs at h with hcd
    obtain rfl := Option.some.inj h
    simp only [canonical]
    have hline : (ρ d - ρ c).dot (ρ d - ρ c) ≠ 0 := Vec.dot_sub_self_ne_zero.mpr hcd
    split_ifs with hab hunit
    · have : (ρ b - ρ a).dot (ρ d - ρ c) = 0 := by rw [hab]; simp [Vec.dot]
      rw [this, zero_div]
      rfl
    · -- numerator and denominator are the same segment, up to its direction
      obtain ⟨hac, hbd⟩ := hunit
      have hsegment : sign (sortTwo a b).2 • (ρ b - ρ a) = sign (sortTwo c d).2 • (ρ d - ρ c) := by
        rw [← sub_sortTwo, ← sub_sortTwo, hac, hbd]
      have hba : ρ b - ρ a = (sign (sortTwo a b).2 * sign (sortTwo c d).2) • (ρ d - ρ c) := by
        rw [mul_smul, ← hsegment, ← mul_smul, sign_mul_self, one_smul]
      rw [Canonical.value_unit, sign_xor, hba, Vec.smul_dot, mul_div_assoc, div_self hline, mul_one]
    · refine Canonical.value_signed ?_
      have hcd' : ρ (sortTwo c d).1.1 ≠ ρ (sortTwo c d).1.2 := by
        rcases sortTwo_cases c d with hs | hs <;> rw [hs]
        · exact hcd
        · exact Ne.symm hcd
      rw [reading, if_neg hcd', sub_sortTwo, sub_sortTwo, sign_xor, Vec.smul_dot, Vec.smul_dot,
        Vec.dot_smul, Vec.dot_smul]
      congr 1
      have hs := sign_mul_self (sortTwo c d).2
      rw [← mul_assoc, ← mul_assoc, hs, one_mul, mul_div_assoc]

/-! ### Terms and polynomials -/

theorem sign_zpow (odd : Bool) (n : ℤ) :
    sign odd ^ n = if odd ∧ n % 2 ≠ 0 then -1 else 1 := by
  cases odd with
  | false => simp [sign]
  | true =>
    simp only [sign, if_true, true_and]
    split_ifs with h
    · exact Odd.neg_one_zpow (Int.odd_iff.mpr (by omega))
    · exact Even.neg_one_zpow (Int.even_iff.mpr (by omega))

theorem reading_of_value_signed {q : Quantity} {odd : Bool} {x : ℚ}
    (h : (Canonical.signed q odd).toExpr.value (reading ρ) = some x) :
    reading ρ q = some (sign odd * x) := by
  cases odd with
  | false => simpa [Canonical.toExpr, Expr.value, sign] using h
  | true =>
    obtain ⟨y, hy, rfl⟩ := Expr.value_neg_eq_some.mp h
    simpa [sign, Expr.value] using hy

theorem Powers.value_eq_zero {v : Reading} {p : Powers} {x : ℚ} (h : p.value v = some x)
    {q : Quantity} {n : ℤ} (hmem : (q, n) ∈ p.entries) (hq : v q = some 0) (hn : 0 < n) : x = 0 := by
  unfold Powers.value at h
  generalize p.entries = entries at h hmem
  induction entries generalizing x with
  | nil => cases hmem
  | cons y rest ih =>
    obtain ⟨y₁, y₂, hy₁, hy₂, rfl⟩ := Sparse.total_cons_eq_some.mp h
    rcases List.mem_cons.mp hmem with rfl | hmem
    · rw [hq, Option.bind_some] at hy₁
      rw [← (power?_eq_some.mp hy₁).2, zero_zpow n hn.ne', zero_mul]
    · rw [ih hy₂ hmem, mul_zero]

namespace Term

theorem value_timesCanonical (hk : known.HoldAt ρ) {t : Term} {q : Quantity} {n : ℤ} {x y z : ℚ}
    (ht : t.value (reading ρ) = some x) (hq : reading ρ q = some z) (hz : power? z n = some y) :
    (t.timesCanonical Powers.timesPower known q n).value (reading ρ) = some (x * y) := by
  obtain ⟨w, hw, rfl⟩ := value_eq_some.mp ht
  have hcanonical := Quantity.value_canonical hk hq
  unfold timesCanonical
  simp only
  cases hc : q.canonical known with
  | zero =>
    exact value_eq_some.mpr ⟨w * y, Powers.value_timesPower hw hq hz, (mul_assoc _ w y).symm⟩
  | unit odd =>
    rw [hc, Canonical.value_unit] at hcanonical
    obtain rfl := Option.some.inj hcanonical
    rw [← (power?_eq_some.mp hz).2, sign_zpow]
    refine value_eq_some.mpr ⟨w, hw, ?_⟩
    push_cast
    split_ifs <;> ring
  | signed q' odd =>
    rw [hc] at hcanonical
    have hq' := reading_of_value_signed hcanonical
    obtain ⟨hn, rfl⟩ := power?_eq_some.mp hz
    have hpower : power? (sign odd * z) n = some (sign odd ^ n * z ^ n) := by
      refine power?_eq_some.mpr ⟨fun h => ?_, mul_zpow _ _ _⟩
      exact mul_ne_zero (left_ne_zero_of_mul_eq_one (sign_mul_self odd)) (hn h)
    refine value_eq_some.mpr ⟨_, Powers.value_timesPower hw hq' hpower, ?_⟩
    rw [sign_zpow]
    push_cast
    split_ifs <;> ring

/-- Added up exactly, exponents keep the value. -/
theorem value_canonicalBy (hk : known.HoldAt ρ) {t : Term} {x : ℚ}
    (h : t.value (reading ρ) = some x) :
    (t.canonicalBy Powers.timesPower known).value (reading ρ) = some x := by
  obtain ⟨y, hy, rfl⟩ := value_eq_some.mp h
  unfold canonicalBy
  split_ifs with hzero
  · obtain ⟨⟨q, n⟩, hmem, hqn⟩ := List.any_eq_true.mp hzero
    obtain ⟨hn, hq⟩ : 0 < n ∧ q.canonical known = .zero := by simpa using hqn
    have hq0 : reading ρ q = some 0 := by
      obtain ⟨z, hz⟩ := Powers.exists_value hy hmem
      have hc := Quantity.value_canonical hk hz
      rw [hq] at hc
      exact hz.trans hc.symm
    rw [Powers.value_eq_zero hy hmem hq0 hn, mul_zero]
    exact value_eq_some.mpr ⟨1, Powers.value_one, by simp [constant]⟩
  · have hfold : ∀ (entries : List (Quantity × ℤ)) (s : Term) (x y : ℚ),
        s.value (reading ρ) = some x →
        Sparse.total (· * ·) 1 (fun q n => (reading ρ q).bind fun x => power? x n) entries = some y →
        (entries.foldl (fun s x => s.timesCanonical Powers.timesPower known x.1 x.2) s).value
          (reading ρ) = some (x * y) := by
      intro entries
      induction entries with
      | nil =>
        intro s x y hs hy
        cases hy
        rw [mul_one]
        exact hs
      | cons e rest ih =>
        intro s x y hs hy
        obtain ⟨y₁, y₂, hy₁, hy₂, rfl⟩ := Sparse.total_cons_eq_some.mp hy
        obtain ⟨z, hz, hy₁⟩ := Option.bind_eq_some_iff.mp hy₁
        rw [← mul_assoc]
        exact ih _ _ _ (value_timesCanonical hk hs hz hy₁) hy₂
    exact hfold t.powers.entries _ _ _
      (value_eq_some.mpr ⟨1, Powers.value_one, mul_one _⟩) hy

theorem value_canonical (hk : known.HoldAt ρ) {t : Term} (ht : t.Fits known) {x : ℚ}
    (h : t.value (reading ρ) = some x) : (t.canonical known).value (reading ρ) = some x := by
  rw [canonical_of_fits ht]
  exact value_canonicalBy hk h

end Term

theorem Polynomial.value_canonical (hk : known.HoldAt ρ) {p : Polynomial}
    (hp : ∀ t ∈ p.terms, t.Fits known) {x : ℚ} (h : p.value (reading ρ) = some x) :
    (p.canonical known).value (reading ρ) = some x := by
  obtain ⟨hterms, rfl⟩ := Polynomial.value_eq_some.mp h
  refine Polynomial.value_sumMap p.terms fun t ht => Polynomial.value_ofTerm ?_
  obtain ⟨y, hy⟩ := Option.isSome_iff_exists.mp (hterms t ht)
  rw [hy, Option.getD_some]
  exact Term.value_canonical hk (hp t ht) hy

/-! ### Expressions -/

namespace Expr

/-- The value of an expression passes to its canonical form, leaf by leaf. -/
theorem value_canonical (hk : known.HoldAt ρ) {e : Expr} (he : e.Fits known) {x : ℚ}
    (h : e.value (reading ρ) = some x) : (e.canonical known).value (reading ρ) = some x := by
  refine (leafwise_fits known).value_mapLeaves (fun q x hx => ?_) (fun t x ht hx => ?_)
    (fun p x hp hx => ?_) he h
  · exact Quantity.value_canonical hk hx
  · exact Term.value_canonical hk ht hx
  · exact Polynomial.value_canonical hk hp hx

end Expr

namespace Packed

open Letters

/-- A triangle, and a point on a side. -/
def located : Coordinates := fun p =>
  if p = b then (2, 0) else if p = c then (0, 3) else if p = d then (4, 0) else (0, 0)

/-- `2 S(A, B, C) / S(B, A, C)³`, in one term. -/
def term : Term :=
  ⟨2, (Powers.one.timesPower (.area b a c) (-3)).timesPower (.area a b c) 1⟩

/-- The term, and an area that is known to vanish. -/
def expr : Expr := .sum (.term term) (.quantity (.area b a d))

theorem value_expr : expr.value (reading located) = some (-2 / 9) := by
  have hpoints : located a = (0, 0) ∧ located b = (2, 0) ∧ located c = (0, 3) ∧
      located d = (4, 0) := ⟨rfl, rfl, rfl, rfl⟩
  have habc : reading located (.area a b c) = some 3 := by norm_num [reading, hpoints, Vec.cross]
  have hbac : reading located (.area b a c) = some (-3) := by
    norm_num [reading, hpoints, Vec.cross]
  have hbad : reading located (.area b a d) = some 0 := by norm_num [reading, hpoints, Vec.cross]
  have hcube : power? (-3) (-3) = some (-1 / 27) :=
    power?_eq_some.mpr ⟨fun _ => by norm_num, by norm_num⟩
  have hone : power? 3 1 = some 3 := power?_eq_some.mpr ⟨fun _ => three_ne_zero, zpow_one 3⟩
  have hterm : term.value (reading located) = some (-2 / 9) :=
    Term.value_eq_some.mpr
      ⟨_, Powers.value_timesPower (Powers.value_timesPower Powers.value_one hbac hcube) habc hone,
        by norm_num [term]⟩
  exact Expr.value_sum_eq_some.mpr ⟨-2 / 9, 0, hterm, hbad, add_zero _⟩

end Packed

namespace Packed

open Letters

/-- The point that all points lie on. -/
def origin : Coordinates := fun _ => 0

end Packed

section Quantities

variable {Q Q' : Quantity → Prop} (hQ : ∀ q, Q q → (q.canonical known).toExpr.All Q')
  (hzero : ∀ q, Q q → q.canonical known = .zero → Q' q)

include hQ hzero

/-- The quantities of a canonical term are representatives, or vanish. -/
theorem Term.all_canonical {t : Term} (h : (Expr.term t).All Q) :
    (Expr.term (t.canonical known)).All Q' := by
  have hone : ∀ n : ℤ, (Expr.term (.constant n)).All Q' := fun n q hq => (nomatch hq)
  have hpower : ∀ {s : Term} {q : Quantity} (k n : ℤ), (Expr.term s).All Q' → Q' q →
      (Expr.term ⟨k, s.powers.mergePower q n⟩).All Q' := by
    intro s q k n hs hq r hr
    obtain ⟨m, hm⟩ := s.powers.exists_mergePower q n
    rw [hm] at hr
    obtain ⟨x, hx, rfl⟩ := Term.mem_quantities.mp hr
    refine Sparse.forall_add (P := fun x : Quantity × ℤ => Q' x.1) (fun _ _ _ h _ => h) ?_ ?_ x hx
    · exact fun y hy => hs y.1 (Term.mem_quantities.mpr ⟨y, hy, rfl⟩)
    · intro y hy
      rw [(Sparse.mem_entries_single hy).1]
      exact hq
  have htimes : ∀ {s : Term} {q : Quantity} (n : ℤ), (Expr.term s).All Q' → Q q →
      (Expr.term (s.timesCanonical Powers.mergePower known q n)).All Q' := by
    intro s q n hs hq
    have hrep := hQ q hq
    unfold timesCanonical
    simp only
    cases hc : q.canonical known with
    | zero => exact hpower _ n hs (hzero q hq hc)
    | unit odd => exact hs
    | signed q' odd =>
      rw [hc] at hrep
      refine hpower _ n hs ?_
      cases odd <;> exact hrep q' (.head _)
  unfold canonical canonicalBy
  split_ifs
  · exact hone 0
  · have hfold : ∀ (entries : List (Quantity × ℤ)) (s : Term), (∀ x ∈ entries, Q x.1) →
        (Expr.term s).All Q' →
        (Expr.term (entries.foldl (fun s x => s.timesCanonical Powers.mergePower known x.1 x.2)
          s)).All Q' := by
      intro entries
      induction entries with
      | nil => exact fun s _ hs => hs
      | cons x rest ih =>
        exact fun s hx hs => ih _ (fun y hy => hx y (.tail _ hy)) (htimes _ hs (hx x (.head _)))
    exact hfold _ _ (fun x hx => h x.1 (Term.mem_quantities.mpr ⟨x, hx, rfl⟩)) (hone _)

theorem Polynomial.all_canonical {p : Polynomial} (h : (Expr.polynomial p).All Q) :
    (Expr.polynomial (p.canonical known)).All Q' := by
  refine Polynomial.all_iff.mpr fun t ht q hq => ?_
  obtain ⟨k, hk, rfl⟩ := List.mem_map.mp ht
  obtain ⟨x, hx, rfl⟩ := Term.mem_quantities.mp hq
  refine Sparse.forall_sumMap (P := fun k : Powers => ∀ x ∈ k.entries, Q' x.1) p.terms
    (f := fun t : Term => Polynomial.ofTerm (t.canonical known)) (fun s hs y hy z hz => ?_)
    k hk x hx
  rw [(Sparse.mem_entries_single hy).1] at hz
  exact Term.all_canonical hQ hzero (Polynomial.all_iff.mp h s hs) z.1
    (Term.mem_quantities.mpr ⟨z, hz, rfl⟩)

/-- A property of the representatives of all quantities is a property of all
quantities of the canonical expression. -/
theorem Expr.all_canonical {e : Expr} (h : e.All Q) : (e.canonical known).All Q' :=
  all_mapLeaves hQ (fun _ => Term.all_canonical hQ hzero)
    (fun _ => Polynomial.all_canonical hQ hzero) h

end Quantities

/-- Representatives have no other points. -/
theorem Quantity.on_canonical {K : Point → Prop} (known : Triples) (q : Quantity) (h : q.On K) :
    (q.canonical known).toExpr.All (On K) := by
  have hsigned : ∀ {q : Quantity} (odd : Bool), q.On K →
      (Canonical.signed q odd).toExpr.All (On K) := by
    intro q odd hq
    cases odd <;> exact Expr.all_quantity.mpr hq
  cases q with
  | area a b c =>
    obtain ⟨ha, hb, hc⟩ := on_area.mp h
    have habc := forall_sortThree ha hb hc
    simp only [canonical]
    split_ifs
    · exact Expr.all_number 0
    · generalize sortThree a b c = sorted at habc
      exact hsigned _ (on_area.mpr habc)
  | pythagoras a b c =>
    obtain ⟨ha, hb, hc⟩ := on_pythagoras.mp h
    have hac := forall_sortTwo ha hc
    simp only [canonical]
    split_ifs
    · exact Expr.all_number 0
    · exact hsigned _ (on_pythagoras.mpr ⟨hb, hac.1, hb⟩)
    · exact hsigned _ (on_pythagoras.mpr ⟨hac.1, hb, hac.2⟩)
  | ratio a b c d =>
    obtain ⟨ha, hb, hc, hd⟩ := on_ratio.mp h
    have hab := forall_sortTwo ha hb
    have hcd := forall_sortTwo hc hd
    simp only [canonical]
    split_ifs
    · exact Expr.all_number 0
    · cases (sortTwo a b).2 ^^ (sortTwo c d).2 <;> exact Expr.all_number _
    · exact hsigned _ (on_ratio.mpr ⟨hab.1, hab.2, hcd.1, hcd.2⟩)

theorem Expr.on_canonical {K : Point → Prop} (known : Triples) {e : Expr}
    (h : e.All (Quantity.On K)) : (e.canonical known).All (Quantity.On K) :=
  all_canonical (Quantity.on_canonical known) (fun _ hq _ => hq) h

end AreaMethod
