/-
# Values of sums and products of polynomials

Adding and multiplying polynomials adds and multiplies their values. A long
sum is collected in bins (`Sparse.sumMap`); what is true of the empty sum and
passes to the sum of two is true of all of it (`Sparse.sumMap_induction`),
which serves values, and properties of the entries, alike.

Key definition: `Polynomial.AllPowers`.
Key theorems: `Sparse.sumMap_induction`, `Polynomial.value_mul`,
`Polynomial.allPowers_mul`.
-/
import Mathlib
import AreaMethod.Proofs.Value

namespace AreaMethod

/-! ### Sums in bins -/

namespace Sparse

variable {κ M α : Type} [Ord κ] [Std.TransOrd κ] [Std.LawfulEqOrd κ] [AddCommMonoid M]

/-- The bins together stand for `x`. -/
def BinsAddUp (R : Sparse κ → M → Prop) : List (Option (Sparse κ)) → M → Prop
  | [], x => x = 0
  | none :: bins, x => BinsAddUp R bins x
  | some f :: bins, x => ∃ y z, R f y ∧ BinsAddUp R bins z ∧ x = y + z

variable {R : Sparse κ → M → Prop}

theorem binsAddUp_carry (hadd : ∀ f g x y, R f x → R g y → R (f + g) (x + y)) :
    ∀ (bins : List (Option (Sparse κ))) (f : Sparse κ) (x y : M), R f x → BinsAddUp R bins y →
      BinsAddUp R (carry f bins) (x + y)
  | [], f, x, y, hf, hy => ⟨x, 0, hf, rfl, by rw [show y = 0 from hy]⟩
  | none :: bins, f, x, y, hf, hy => ⟨x, y, hf, hy, rfl⟩
  | some g :: bins, f, x, y, hf, hy => by
    obtain ⟨y₁, y₂, hg, hbins, rfl⟩ := hy
    rw [← add_assoc]
    exact binsAddUp_carry hadd bins (f + g) _ _ (hadd _ _ _ _ hf hg) hbins

theorem collect_of_binsAddUp (hadd : ∀ f g x y, R f x → R g y → R (f + g) (x + y)) :
    ∀ (bins : List (Option (Sparse κ))) (f : Sparse κ) (x y : M), R f x → BinsAddUp R bins y →
      R (collect f bins) (x + y)
  | [], f, x, y, hf, hy => by
    rw [show y = 0 from hy, add_zero]
    exact hf
  | none :: bins, f, x, y, hf, hy => collect_of_binsAddUp hadd bins f x y hf hy
  | some g :: bins, f, x, y, hf, hy => by
    obtain ⟨y₁, y₂, hg, hbins, rfl⟩ := hy
    rw [← add_assoc]
    exact collect_of_binsAddUp hadd bins (f + g) _ _ (hadd _ _ _ _ hf hg) hbins

/-- **A sum in bins is a sum.** A relation that holds of zero and passes to
sums passes from the summands to the whole. -/
theorem sumMap_induction (hzero : R zero 0)
    (hadd : ∀ f g x y, R f x → R g y → R (f + g) (x + y)) {f : α → Sparse κ} {g : α → M}
    (xs : List α) (h : ∀ x ∈ xs, R (f x) (g x)) : R (sumMap f xs) (xs.map g).sum := by
  have hfold : ∀ (xs : List α) (bins : List (Option (Sparse κ))) (y : M),
      (∀ x ∈ xs, R (f x) (g x)) → BinsAddUp R bins y →
        BinsAddUp R (xs.foldl (fun bins x => carry (f x) bins) bins) ((xs.map g).sum + y) := by
    intro xs
    induction xs with
    | nil => intro bins y _ hy; simpa using hy
    | cons x xs ih =>
      intro bins y hx hy
      have hstep := binsAddUp_carry hadd bins (f x) _ _ (hx x (.head _)) hy
      have := ih _ _ (fun x h => hx x (.tail _ h)) hstep
      rw [List.map_cons, List.sum_cons, add_comm (g x), add_assoc]
      exact this
  have hbins := hfold xs [] 0 h rfl
  have := collect_of_binsAddUp hadd _ zero 0 _ hzero hbins
  rw [zero_add, add_zero] at this
  exact this

/-- What holds of all entries of two functions, and of a sum of two values
under one key, holds of all entries of their sum. -/
theorem forall_add {P : κ × ℤ → Prop} (hP : ∀ k a b, P (k, a) → a + b ≠ 0 → P (k, a + b))
    {f g : Sparse κ} (hf : ∀ x ∈ f.entries, P x) (hg : ∀ x ∈ g.entries, P x) :
    ∀ x ∈ (f + g).entries, P x :=
  forall_mem_merge hP f.entries g.entries hf hg

/-- A property of the keys passes to sums in bins. -/
theorem forall_sumMap {P : κ → Prop} {f : α → Sparse κ} (xs : List α)
    (h : ∀ x ∈ xs, ∀ y ∈ (f x).entries, P y.1) : ∀ y ∈ (sumMap f xs).entries, P y.1 := by
  have hzero : ∀ y ∈ (zero : Sparse κ).entries, P y.1 := by simp [zero]
  exact sumMap_induction hzero (R := fun f (_ : ℕ) => ∀ y ∈ f.entries, P y.1)
    (fun f g _ _ hf hg => forall_add (fun _ _ _ h _ => h) hf hg) (g := fun _ => 0) xs h

omit [Std.TransOrd κ] [Std.LawfulEqOrd κ] in
theorem mem_entries_single {k : κ} {n : ℤ} {x : κ × ℤ} (h : x ∈ (single k n).entries) :
    x = (k, n) ∧ n ≠ 0 := by
  unfold single at h
  split at h
  · simp [zero] at h
  next hn => exact ⟨by simpa using h, hn⟩

end Sparse

/-! ### Values -/

variable {v : Reading} {x y : ℚ}

theorem Powers.value_one : Powers.one.value v = some 1 := rfl

theorem Powers.value_add {p q : Powers} (hp : p.value v = some x) (hq : q.value v = some y) :
    (p + q).value v = some (x * y) := by
  refine Sparse.total_merge (fun q a b x y hx hy => ?_) p.entries q.entries x y hp hq
  obtain ⟨z, hz, hx⟩ := Option.bind_eq_some_iff.mp hx
  rw [hz, Option.bind_some] at hy
  have hsum := power?_add hx hy
  split_ifs with h
  · rw [h] at hsum
    simpa [power?] using hsum.symm
  · rw [hz, Option.bind_some, hsum]

theorem Powers.value_timesPower {p : Powers} {q : Quantity} {n : ℤ} {z : ℚ}
    (hp : p.value v = some x) (hq : v q = some z) (hz : power? z n = some y) :
    (p.timesPower q n).value v = some (x * y) := by
  refine Powers.value_add hp ?_
  unfold Powers.value Sparse.single
  split
  next h =>
    subst h
    have : 1 = y := by simpa [power?] using hz
    simp [Sparse.zero, Sparse.total, this]
  · simp [Sparse.total, hq, hz]

theorem Powers.exists_value {p : Powers} (h : p.value v = some x) {q : Quantity} {n : ℤ}
    (hmem : (q, n) ∈ p.entries) : ∃ z, v q = some z := by
  unfold Powers.value at h
  generalize p.entries = entries at h hmem
  induction entries generalizing x with
  | nil => cases hmem
  | cons y rest ih =>
    obtain ⟨y₁, y₂, hy₁, hy₂, -⟩ := Sparse.total_cons_eq_some.mp h
    rcases List.mem_cons.mp hmem with rfl | hmem
    · obtain ⟨z, hz, -⟩ := Option.bind_eq_some_iff.mp hy₁
      exact ⟨z, hz⟩
    · exact ih hy₂ hmem

theorem Term.value_eq_some {t : Term} :
    t.value v = some x ↔ ∃ y, t.powers.value v = some y ∧ t.coefficient * y = x := by
  simp [Term.value]

theorem Term.value_mul {s t : Term} (hs : s.value v = some x) (ht : t.value v = some y) :
    (s * t).value v = some (x * y) := by
  obtain ⟨x', hx, rfl⟩ := Term.value_eq_some.mp hs
  obtain ⟨y', hy, rfl⟩ := Term.value_eq_some.mp ht
  refine Term.value_eq_some.mpr ⟨x' * y', Powers.value_add hx hy, ?_⟩
  change ((s.coefficient * t.coefficient : ℤ) : ℚ) * _ = _
  push_cast
  ring

namespace Polynomial

theorem value_zero : zero.value v = some 0 := rfl

theorem value_add {p q : Polynomial} (hp : p.value v = some x) (hq : q.value v = some y) :
    (p + q).value v = some (x + y) := by
  refine Sparse.total_merge (fun k a b x y hx hy => ?_) p.entries q.entries x y hp hq
  obtain ⟨z, hz, rfl⟩ := Option.map_eq_some_iff.mp hx
  rw [hz, Option.map_some, Option.some.injEq] at hy
  subst hy
  have hsum : (a : ℚ) * z + b * z = ((a + b : ℤ) : ℚ) * z := by push_cast; ring
  split_ifs with h
  · rw [hsum, h, Int.cast_zero, zero_mul]
  · rw [hz, Option.map_some, hsum]

theorem value_ofTerm {t : Term} (h : t.value v = some x) : (ofTerm t).value v = some x := by
  obtain ⟨y, hy, rfl⟩ := Term.value_eq_some.mp h
  unfold ofTerm Polynomial.value Sparse.single
  split
  next h0 => simp [Sparse.zero, Sparse.total, h0]
  · simp [Sparse.total, hy]

theorem value_constant (n : ℤ) : (constant n).value v = some (n : ℚ) :=
  value_ofTerm (Term.value_eq_some.mpr ⟨1, Powers.value_one, mul_one _⟩)

/-- A polynomial has a value if each of its terms has one, and it is their
sum. -/
theorem value_eq_some {p : Polynomial} : p.value v = some x ↔
    (∀ t ∈ p.terms, (t.value v).isSome) ∧ (p.terms.map fun t => (t.value v).getD 0).sum = x := by
  unfold Polynomial.value terms
  generalize p.entries = entries
  induction entries generalizing x with
  | nil => simp [Sparse.total]
  | cons e rest ih =>
    obtain ⟨k, n⟩ := e
    have hval : (⟨n, k⟩ : Term).value v = (k.value v).map fun x : ℚ => n * x := rfl
    rw [Sparse.total_cons_eq_some]
    simp only [List.map_cons, List.mem_cons, forall_eq_or_imp, List.sum_cons, hval]
    constructor
    · rintro ⟨y, z, hy, hz, rfl⟩
      obtain ⟨hall, hsum⟩ := ih.mp hz
      exact ⟨⟨by rw [hy]; rfl, hall⟩, by rw [hy, hsum]; rfl⟩
    · rintro ⟨⟨hy, hall⟩, hsum⟩
      obtain ⟨y, hy⟩ := Option.isSome_iff_exists.mp hy
      exact ⟨y, _, hy, ih.mpr ⟨hall, rfl⟩, by rw [← hsum, hy]; rfl⟩

theorem value_sumMap {α : Type} {f : α → Polynomial} {g : α → ℚ} (xs : List α)
    (h : ∀ x ∈ xs, (f x).value v = some (g x)) :
    value v (Sparse.sumMap f xs) = some (xs.map g).sum :=
  Sparse.sumMap_induction (R := fun (p : Polynomial) x => p.value v = some x) value_zero
    (fun _ _ _ _ => value_add) xs h

/-- **Multiplying polynomials multiplies their values.** -/
theorem value_mul {p q : Polynomial} (hp : p.value v = some x) (hq : q.value v = some y) :
    (p * q).value v = some (x * y) := by
  obtain ⟨hps, rfl⟩ := value_eq_some.mp hp
  obtain ⟨hqs, rfl⟩ := value_eq_some.mp hq
  have hval : ∀ t : Term, (t.value v).isSome → t.value v = some ((t.value v).getD 0) := by
    intro t ht
    obtain ⟨z, hz⟩ := Option.isSome_iff_exists.mp ht
    rw [hz, Option.getD_some]
  have hrow : ∀ s ∈ p.terms, value v (Sparse.sumMap (fun t => ofTerm (s * t)) q.terms) =
      some ((s.value v).getD 0 * (q.terms.map fun t => (t.value v).getD 0).sum) := by
    intro s hs
    rw [← List.sum_map_mul_left]
    exact value_sumMap q.terms fun t ht =>
      value_ofTerm (Term.value_mul (hval s (hps s hs)) (hval t (hqs t ht)))
  rw [← List.sum_map_mul_right]
  exact value_sumMap p.terms hrow

theorem value_neg {p : Polynomial} (hp : p.value v = some x) : (-p).value v = some (-x) := by
  have hfilter : ((p.entries.map fun x => (x.1, -x.2)).filter fun x => decide (x.2 ≠ 0)) =
      p.entries.map fun x => (x.1, -x.2) := by
    refine List.filter_eq_self.mpr fun y hy => ?_
    obtain ⟨z, hz, rfl⟩ := List.mem_map.mp hy
    have := p.nonzero z hz
    simpa using this
  change Sparse.total _ _ _ ((p.entries.map fun x => (x.1, -x.2)).filter fun x => x.2 ≠ 0) = _
  rw [hfilter]
  unfold Polynomial.value at hp
  clear hfilter
  generalize p.entries = entries at hp
  induction entries generalizing x with
  | nil =>
    obtain rfl : 0 = x := by simpa [Sparse.total] using hp
    simp [Sparse.total]
  | cons e rest ih =>
    obtain ⟨k, n⟩ := e
    obtain ⟨y, z, hy, hz, rfl⟩ := Sparse.total_cons_eq_some.mp hp
    obtain ⟨w, hw, rfl⟩ := Option.map_eq_some_iff.mp hy
    refine Sparse.total_cons_eq_some.mpr ⟨-(n * w), -z, ?_, ih hz, by ring⟩
    simp [hw]

end Polynomial

/-! ### Powers that occur in a polynomial -/

namespace Sparse

variable {κ : Type} [Ord κ] [Std.LawfulEqOrd κ]

/-- As `forall_mem_merge`, for a property that a sum has if both summands have
it. -/
theorem forall_mem_merge_of_both {P : κ × ℤ → Prop}
    (hP : ∀ k a b, P (k, a) → P (k, b) → a + b ≠ 0 → P (k, a + b)) :
    ∀ xs ys : List (κ × ℤ), (∀ x ∈ xs, P x) → (∀ y ∈ ys, P y) → ∀ z ∈ merge xs ys, P z
  | [], ys, _, hy => by simpa using hy
  | (k, a) :: xs, [], hx, _ => by simpa using hx
  | (k, a) :: xs, (l, b) :: ys, hx, hy => by
    have hx' : ∀ x ∈ xs, P x := fun x h => hx x (.tail _ h)
    have hy' : ∀ y ∈ ys, P y := fun y h => hy y (.tail _ h)
    rw [merge_cons_cons]
    split
    · exact List.forall_mem_cons.mpr ⟨hx _ (.head _), forall_mem_merge_of_both hP xs _ hx' hy⟩
    next h =>
      obtain rfl := Std.LawfulEqOrd.eq_of_compare h
      split
      · exact forall_mem_merge_of_both hP xs ys hx' hy'
      · exact List.forall_mem_cons.mpr ⟨hP k a b (hx _ (.head _)) (hy _ (.head _)) ‹_›,
          forall_mem_merge_of_both hP xs ys hx' hy'⟩
    · exact List.forall_mem_cons.mpr ⟨hy _ (.head _), forall_mem_merge_of_both hP _ ys hx hy'⟩

end Sparse

namespace Polynomial

/-- Every power in the polynomial has the property `P`. -/
def AllPowers (P : Quantity × ℤ → Prop) (p : Polynomial) : Prop :=
  ∀ k ∈ p.entries, ∀ x ∈ k.1.entries, P x

variable {P : Quantity × ℤ → Prop} {p q : Polynomial}

theorem AllPowers.all {Q : Quantity → Prop} (h : p.AllPowers P) (hQ : ∀ x, P x → Q x.1) :
    (Expr.polynomial p).All Q := by
  refine all_iff.mpr (List.forall_mem_map.mpr fun k hk => ?_)
  exact List.forall_mem_map.mpr fun x hx => hQ x (h k hk x hx)

theorem allPowers_add (hp : p.AllPowers P) (hq : q.AllPowers P) : (p + q).AllPowers P :=
  Sparse.forall_add (P := fun k : Powers × ℤ => ∀ x ∈ k.1.entries, P x) (fun _ _ _ h _ => h) hp hq

theorem allPowers_neg (hp : p.AllPowers P) : (-p).AllPowers P := by
  intro k hk
  obtain ⟨z, hz, rfl⟩ := List.mem_map.mp (List.mem_filter.mp hk).1
  exact hp z hz

theorem allPowers_ofTerm {t : Term} (h : ∀ x ∈ t.powers.entries, P x) : (ofTerm t).AllPowers P := by
  intro k hk
  rw [(Sparse.mem_entries_single hk).1]
  exact h

theorem allPowers_mul (hP : ∀ q a b, P (q, a) → P (q, b) → a + b ≠ 0 → P (q, a + b))
    (hp : p.AllPowers P) (hq : q.AllPowers P) : (p * q).AllPowers P := by
  refine Sparse.forall_sumMap (P := fun k : Powers => ∀ x ∈ k.entries, P x) p.terms fun s hs => ?_
  refine Sparse.forall_sumMap (P := fun k : Powers => ∀ x ∈ k.entries, P x) q.terms fun t ht => ?_
  obtain ⟨k, hk, rfl⟩ := List.mem_map.mp hs
  obtain ⟨l, hl, rfl⟩ := List.mem_map.mp ht
  exact allPowers_ofTerm (Sparse.forall_mem_merge_of_both hP _ _ (hp k hk) (hq l hl))

theorem allPowers_of_isIntegral (h : p.isIntegral) : p.AllPowers fun x => 0 < x.2 := by
  intro k hk x hx
  have := List.all_eq_true.mp h ⟨k.2, k.1⟩ (List.mem_map.mpr ⟨k, hk, rfl⟩)
  exact of_decide_eq_true (List.all_eq_true.mp this x hx)

end Polynomial
end AreaMethod
