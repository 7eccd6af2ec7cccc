/-
# Merging powers in 32 bits

The canonical form of a term merges the powers of quantities with one
representative. Exponents have 32 bits there, and their sums wrap around. However
many are added, the exponent stays congruent to the exact sum
(`Powers.Wraps.mergePower`). So where the exact sums have 32 bits, nothing is lost
(`Term.canonical_of_fits`).

An expression without packed nodes has nothing to merge (`Expr.Unpacked.fits`).

Key definitions: `Storable`, `Powers.Wraps`, `Expr.Fits`.
Key theorems: `Powers.Wraps.mergePower`, `Term.canonical_of_fits`,
`Expr.Unpacked.fits`.
-/
import Mathlib
import AreaMethod.Proofs.LaurentPolynomial

namespace AreaMethod

/-- The integer has 32 bits. -/
def Storable (n : ℤ) : Prop := -2 ^ 31 ≤ n ∧ n < 2 ^ 31

instance (n : ℤ) : Decidable (Storable n) := inferInstanceAs (Decidable (_ ∧ _))

theorem storable_toInt (n : Int32) : Storable n.toInt := ⟨n.le_toInt, n.toInt_lt⟩

theorem toInt_add_modEq (m n : ℤ) :
    (Int32.ofInt m + Int32.ofInt n).toInt ≡ m + n [ZMOD 2 ^ 32] := by
  rw [← Int32.ofInt_add, Int32.toInt_ofInt]
  exact Int.bmod_emod

/-- Integers of 32 bits that are congruent are equal. -/
theorem Storable.eq_of_modEq {m n : ℤ} (hm : Storable m) (hn : Storable n)
    (h : m ≡ n [ZMOD 2 ^ 32]) : m = n := by
  obtain ⟨k, hk⟩ := h.dvd
  obtain ⟨hm, hm'⟩ := hm
  obtain ⟨hn, hn'⟩ := hn
  omega

/-! ### Products -/

namespace Powers

theorem get_timesPower (p : Powers) (q k : Quantity) (n : ℤ) :
    (p.timesPower q n).get k = p.get k + Finsupp.single q n k := by
  rw [← exponents_apply, exponents_timesPower, Finsupp.add_apply, exponents_apply]

/-- Merging is multiplying by some power. -/
theorem exists_mergePower (p : Powers) (q : Quantity) (n : ℤ) :
    ∃ m, p.mergePower q n = p.timesPower q m := by
  unfold mergePower
  split_ifs
  · exact ⟨n, rfl⟩
  · exact ⟨_, rfl⟩

theorem get_mergePower_of_ne {p : Powers} {q k : Quantity} (h : k ≠ q) (n : ℤ) :
    (p.mergePower q n).get k = p.get k := by
  obtain ⟨m, hm⟩ := p.exists_mergePower q n
  rw [hm, get_timesPower, Finsupp.single_eq_of_ne h, add_zero]

/-- The exponents of the first product have 32 bits, and are those of the second one
wrapped around. -/
structure Wraps (p p' : Powers) : Prop where
  storable : ∀ q, Storable (p.get q)
  modEq : ∀ q, p.get q ≡ p'.get q [ZMOD 2 ^ 32]

variable {p p' : Powers}

theorem Wraps.one : Wraps Powers.one Powers.one where
  storable _ := (by decide : Storable 0)
  modEq _ := rfl

/-- **One merge.** The sum wraps around, and is congruent to the exact one. -/
theorem Wraps.mergePower (h : Wraps p p') {n : ℤ} (hn : Storable n) (q : Quantity) :
    Wraps (p.mergePower q n) (p'.timesPower q n) := by
  have hself : Storable ((p.mergePower q n).get q) ∧
      (p.mergePower q n).get q ≡ p.get q + n [ZMOD 2 ^ 32] := by
    unfold Powers.mergePower
    split_ifs with hzero
    · rw [get_timesPower, Finsupp.single_eq_same, hzero, zero_add]
      exact ⟨hn, rfl⟩
    · rw [get_timesPower, Finsupp.single_eq_same, add_sub_cancel]
      exact ⟨storable_toInt _, toInt_add_modEq _ _⟩
  constructor
  · intro k
    by_cases hk : k = q
    · rw [hk]
      exact hself.1
    · rw [get_mergePower_of_ne hk]
      exact h.storable k
  · intro k
    rw [get_timesPower]
    by_cases hk : k = q
    · rw [hk, Finsupp.single_eq_same]
      exact hself.2.trans ((h.modEq q).add_right n)
    · rw [get_mergePower_of_ne hk, Finsupp.single_eq_of_ne hk, add_zero]
      exact h.modEq k

/-- Exponents of 32 bits are not changed by wrapping around. -/
theorem Wraps.eq (h : Wraps p p') (hp' : ∀ x ∈ p'.entries, Storable x.2) : p = p' := by
  refine Sparse.ext_get fun q => (h.storable q).eq_of_modEq ?_ (h.modEq q)
  by_cases hq : p'.get q = 0
  · rw [hq]
    decide
  · exact hp' (q, p'.get q) (Sparse.mem_entries_iff.mpr ⟨hq, rfl⟩)

end Powers

/-! ### Terms -/

namespace Term

variable {known : Triples} {s s' t : Term}

/-- One more quantity. -/
theorem wraps_timesCanonical (known : Triples) (hcoefficient : s.coefficient = s'.coefficient)
    (h : s.powers.Wraps s'.powers) {n : ℤ} (hn : Storable n) (q : Quantity) :
    (s.timesCanonical Powers.mergePower known q n).coefficient =
        (s'.timesCanonical Powers.timesPower known q n).coefficient ∧
      (s.timesCanonical Powers.mergePower known q n).powers.Wraps
        (s'.timesCanonical Powers.timesPower known q n).powers := by
  unfold timesCanonical
  simp only
  cases q.canonical known with
  | zero => exact ⟨hcoefficient, h.mergePower hn q⟩
  | unit odd => exact ⟨by rw [hcoefficient], h⟩
  | signed q' odd => exact ⟨by rw [hcoefficient], h.mergePower hn q'⟩

/-- The exponents have 32 bits, and so have those of the canonical form if they are
added up exactly. -/
structure Fits (known : Triples) (t : Term) : Prop where
  exponents : ∀ x ∈ t.powers.entries, Storable x.2
  merged : ∀ x ∈ (t.canonicalBy Powers.timesPower known).powers.entries, Storable x.2

/-- **Nothing wraps around** in the end, if the exact sums have 32 bits. -/
theorem canonical_of_fits (h : t.Fits known) :
    t.canonical known = t.canonicalBy Powers.timesPower known := by
  have hfold : ∀ (entries : List (Quantity × ℤ)) (s s' : Term), (∀ x ∈ entries, Storable x.2) →
      s.coefficient = s'.coefficient → s.powers.Wraps s'.powers →
      (entries.foldl (fun s x => s.timesCanonical Powers.mergePower known x.1 x.2) s).coefficient =
          (entries.foldl (fun s x => s.timesCanonical Powers.timesPower known x.1 x.2)
            s').coefficient ∧
        (entries.foldl (fun s x => s.timesCanonical Powers.mergePower known x.1 x.2) s).powers.Wraps
          (entries.foldl (fun s x => s.timesCanonical Powers.timesPower known x.1 x.2)
            s').powers := by
    intro entries
    induction entries with
    | nil => exact fun s s' _ hs hw => ⟨hs, hw⟩
    | cons x rest ih =>
      intro s s' hx hs hw
      obtain ⟨hs', hw'⟩ := wraps_timesCanonical known hs hw (hx x (.head _)) x.1
      exact ih _ _ (fun y hy => hx y (.tail _ hy)) hs' hw'
  obtain ⟨hexponents, hmerged⟩ := h
  unfold canonical
  unfold canonicalBy at hmerged ⊢
  split_ifs at hmerged ⊢ with hzero
  · rfl
  · obtain ⟨hcoefficient, hwraps⟩ := hfold t.powers.entries (.constant t.coefficient)
      (.constant t.coefficient) hexponents rfl .one
    have hpowers := hwraps.eq hmerged
    rw [Term.mk.injEq]
    exact ⟨hcoefficient, hpowers⟩

end Term

/-! ### Expressions -/

namespace Expr

/-- In every packed term the exponents have 32 bits, before and after powers are
merged. -/
def Fits (known : Triples) : Expr → Prop
  | number _ | quantity _ => True
  | neg e => e.Fits known
  | sum a b | product a b | fraction a b => a.Fits known ∧ b.Fits known
  | term t => t.Fits known
  | polynomial p => ∀ t ∈ p.terms, t.Fits known

theorem leafwise_fits (known : Triples) : Leafwise (Fits known) :=
  ⟨fun _ => trivial, Iff.rfl, Iff.rfl, Iff.rfl, Iff.rfl⟩

theorem Unpacked.fits {known : Triples} {e : Expr} (h : e.Unpacked) : e.Fits known := by
  induction e with
  | number _ | quantity _ => trivial
  | neg _ ih => exact ih h
  | sum _ _ iha ihb | product _ _ iha ihb | fraction _ _ iha ihb => exact ⟨iha h.1, ihb h.2⟩
  | term _ | polynomial _ => exact h.elim

end Expr
end AreaMethod
