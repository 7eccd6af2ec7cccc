/-
# Polynomials as Laurent polynomials

Exponents may be negative, so a polynomial denotes a Laurent polynomial over the
integers, with the quantities as variables (`Polynomial.laurent`). Adding,
multiplying and negating polynomials does the same to what they denote, and no
Laurent polynomial is denoted twice (`Polynomial.laurent_injective`). So it does
not matter in which order a polynomial was put together from terms, and these
from factors (`Polynomial.Recipe.laurent_result`).

Products of powers and polynomials are both sparse functions, and one argument
serves the exponents of a product and the coefficients of a polynomial. A sum
over the entries is additive (`Sparse.sumOver_add`). If the keys are sent to
different places, the values can be read off the sum there
(`Sparse.sumOver_apply`).

Key definitions: `Sparse.sumOver`, `Powers.exponents`, `Polynomial.laurent`,
`Polynomial.divisor`, `Polynomial.Reduced`, `Polynomial.Recipe`.
Key theorems: `Polynomial.laurent_mul`, `Polynomial.laurent_injective`,
`Polynomial.reduced`, `Polynomial.Recipe.laurent_result`.
-/
import Mathlib
import AreaMethod.Expr.Canonical
import AreaMethod.Proofs.PolynomialIdentity

namespace AreaMethod

/-! ### Sums over the entries of a sparse function -/

namespace Sparse

variable {κ M G : Type}

section Sums

variable [AddCommMonoid M]

theorem total_some (g : κ → ℤ →+ M) : ∀ entries : List (κ × ℤ),
    total (· + ·) 0 (fun k n => some (g k n)) entries = some (entries.map fun x => g x.1 x.2).sum
  | [] => rfl
  | (k, n) :: rest => by
    rw [total, total_some g rest, List.map_cons, List.sum_cons]
    rfl

variable [Ord κ]

/-- Adds up what `g` makes of the entries, additively in their values. -/
def sumOver (g : κ → ℤ →+ M) (f : Sparse κ) : M := (f.entries.map fun x => g x.1 x.2).sum

theorem sumOver_zero (g : κ → ℤ →+ M) : sumOver g zero = 0 := rfl

theorem sumOver_single (g : κ → ℤ →+ M) (k : κ) (n : ℤ) : sumOver g (single k n) = g k n := by
  unfold sumOver single
  split_ifs with hn
  · rw [hn, map_zero]
    rfl
  · simp

variable [Std.TransOrd κ] [Std.LawfulEqOrd κ]

/-- **Sums over the entries are additive.** Where values cancel and an entry is
dropped, nothing is missing from the sum. -/
theorem sumOver_add (g : κ → ℤ →+ M) (f f' : Sparse κ) :
    sumOver g (f + f') = sumOver g f + sumOver g f' := by
  have hmerge : ∀ k a b x y, some (g k a) = some x → some (g k b) = some y →
      if a + b = 0 then x + y = 0 else some (g k (a + b)) = some (x + y) := by
    rintro k a b x y ⟨rfl⟩ ⟨rfl⟩
    have hsum : g k (a + b) = g k a + g k b := map_add (g k) a b
    split_ifs with h
    · rw [← hsum, h, map_zero]
    · rw [hsum]
  have htotal := total_merge hmerge f.entries f'.entries _ _ (total_some g f.entries)
    (total_some g f'.entries)
  rw [total_some] at htotal
  exact Option.some.inj htotal

theorem sumOver_sumMap {α : Type} (g : κ → ℤ →+ M) (f : α → Sparse κ) (xs : List α) :
    sumOver g (sumMap f xs) = (xs.map fun x => sumOver g (f x)).sum := by
  refine sumMap_induction (R := fun f x => sumOver g f = x) (sumOver_zero g) ?_ xs fun _ _ => rfl
  rintro f f' x y rfl rfl
  exact sumOver_add g f f'

end Sums

variable [Ord κ]

/-- Values are replaced in place: no entry is lost if none becomes zero. -/
theorem entries_mapValues {g : ℤ → ℤ} {f : Sparse κ} (h : ∀ x ∈ f.entries, g x.2 ≠ 0) :
    (f.mapValues g).entries = f.entries.map fun x => (x.1, g x.2) := by
  refine List.filter_eq_self.mpr fun y hy => ?_
  obtain ⟨x, hx, rfl⟩ := List.mem_map.mp hy
  exact decide_eq_true (h x hx)

variable [Std.TransOrd κ] [Std.LawfulEqOrd κ]

/-- **Values are read off.** If the keys go to different places, the sum has the
value of a key at the place of the key. -/
theorem sumOver_apply {place : κ → G} (hplace : Function.Injective place) (f : Sparse κ) (k : κ) :
    f.sumOver (fun l => Finsupp.singleAddHom (place l)) (place k) = f.get k := by
  have hsum : f.sumOver (fun l => Finsupp.singleAddHom (place l)) (place k) =
      (f.entries.map fun x => Finsupp.single (place x.1) x.2 (place k)).sum := by
    rw [sumOver, ← Finsupp.applyAddHom_apply, map_list_sum, List.map_map]
    rfl
  rw [hsum]
  refine sum_eq_of_key (w := id) rfl f.ascending (fun x _ hx => ?_) fun x _ hx => ?_
  · rw [hx, Finsupp.single_eq_same]
    rfl
  · exact Finsupp.single_eq_of_ne fun heq => hx (hplace heq).symm

end Sparse

/-! ### Exponents -/

namespace Powers

/-- The exponents of a product. -/
noncomputable def exponents (p : Powers) : Quantity →₀ ℤ := p.sumOver Finsupp.singleAddHom

/-- The product of factors, multiplied one after the other. -/
def ofFactors (factors : List (Quantity × ℤ)) : Powers :=
  factors.foldl (fun p x => p.timesPower x.1 x.2) one

theorem exponents_one : one.exponents = 0 := Sparse.sumOver_zero _

theorem exponents_add (p q : Powers) : (p + q).exponents = p.exponents + q.exponents :=
  Sparse.sumOver_add _ p q

theorem exponents_timesPower (p : Powers) (q : Quantity) (n : ℤ) :
    (p.timesPower q n).exponents = p.exponents + Finsupp.single q n := by
  have hsingle : exponents (Sparse.single q n) = Finsupp.single q n := Sparse.sumOver_single _ q n
  rw [timesPower, exponents_add, hsingle]

theorem exponents_ofFactors (factors : List (Quantity × ℤ)) :
    (ofFactors factors).exponents = (factors.map fun x => Finsupp.single x.1 x.2).sum := by
  have hfold : ∀ (factors : List (Quantity × ℤ)) (p : Powers),
      (factors.foldl (fun p x => p.timesPower x.1 x.2) p).exponents =
        p.exponents + (factors.map fun x => Finsupp.single x.1 x.2).sum := by
    intro factors
    induction factors with
    | nil => intro p; simp
    | cons x rest ih =>
      intro p
      rw [List.foldl_cons, ih, exponents_timesPower, List.map_cons, List.sum_cons, add_assoc]
  rw [ofFactors, hfold, exponents_one, zero_add]

theorem exponents_apply (p : Powers) (q : Quantity) : p.exponents q = p.get q :=
  Sparse.sumOver_apply Function.injective_id p q

/-- Different products have different exponents. -/
theorem exponents_injective : Function.Injective exponents := by
  intro p p' h
  apply Sparse.ext_get
  intro q
  rw [← exponents_apply, h, exponents_apply]

end Powers

/-! ### Laurent polynomials -/

/-- A Laurent polynomial over the integers, with the quantities as variables. -/
abbrev Laurent := AddMonoidAlgebra ℤ (Quantity →₀ ℤ)

/-- The Laurent polynomial with one term. -/
noncomputable def Term.laurent (t : Term) : Laurent := .single t.powers.exponents t.coefficient

theorem Term.laurent_mul (s t : Term) : (s * t).laurent = s.laurent * t.laurent := by
  have hpowers : (s * t).powers.exponents = s.powers.exponents + t.powers.exponents :=
    Powers.exponents_add s.powers t.powers
  rw [laurent, laurent, laurent, AddMonoidAlgebra.single_mul_single, hpowers]
  rfl

namespace Polynomial

/-- The Laurent polynomial that a polynomial denotes. -/
noncomputable def laurent (p : Polynomial) : Laurent :=
  p.sumOver fun k => AddMonoidAlgebra.singleAddHom k.exponents

theorem laurent_zero : zero.laurent = 0 := Sparse.sumOver_zero _

theorem laurent_eq_sum (p : Polynomial) : p.laurent = (p.terms.map Term.laurent).sum := by
  rw [laurent, Sparse.sumOver, terms, List.map_map]
  rfl

theorem laurent_ofTerm (t : Term) : (ofTerm t).laurent = t.laurent :=
  Sparse.sumOver_single _ t.powers t.coefficient

theorem laurent_add (p q : Polynomial) : (p + q).laurent = p.laurent + q.laurent :=
  Sparse.sumOver_add _ p q

theorem laurent_sumMap {α : Type} (f : α → Polynomial) (xs : List α) :
    laurent (Sparse.sumMap f xs) = (xs.map fun x => (f x).laurent).sum :=
  Sparse.sumOver_sumMap _ f xs

/-- **Products.** Multiplying every term by every term multiplies the sums. -/
theorem laurent_mul (p q : Polynomial) : (p * q).laurent = p.laurent * q.laurent := by
  have hrow : ∀ s : Term, laurent (Sparse.sumMap (fun t => ofTerm (s * t)) q.terms) =
      s.laurent * q.laurent := by
    intro s
    calc laurent (Sparse.sumMap (fun t => ofTerm (s * t)) q.terms)
        = (q.terms.map fun t => (ofTerm (s * t)).laurent).sum := laurent_sumMap _ _
      _ = (q.terms.map fun t => s.laurent * t.laurent).sum := by
        simp only [laurent_ofTerm, Term.laurent_mul]
      _ = s.laurent * q.laurent := by rw [List.sum_map_mul_left, ← laurent_eq_sum]
  calc (p * q).laurent
      = (p.terms.map fun s => laurent (Sparse.sumMap (fun t => ofTerm (s * t)) q.terms)).sum :=
        laurent_sumMap _ _
    _ = (p.terms.map fun s => s.laurent * q.laurent).sum := by simp only [hrow]
    _ = p.laurent * q.laurent := by rw [List.sum_map_mul_right, ← laurent_eq_sum]

/-- Signs are changed in place. -/
theorem entries_neg (p : Polynomial) : (-p).entries = p.entries.map fun x => (x.1, -x.2) :=
  Sparse.entries_mapValues fun x hx => neg_ne_zero.mpr (p.nonzero x hx)

theorem laurent_neg (p : Polynomial) : (-p).laurent = -p.laurent := by
  have hentry : ∀ x : Powers × ℤ, (AddMonoidAlgebra.singleAddHom x.1.exponents (-x.2) : Laurent) =
      -AddMonoidAlgebra.singleAddHom x.1.exponents x.2 := fun x => map_neg _ x.2
  rw [laurent, laurent, Sparse.sumOver, Sparse.sumOver, entries_neg, List.map_map, List.sum_neg,
    List.map_map]
  exact congrArg List.sum (List.map_congr_left fun x _ => hentry x)

/-- The coefficients of the Laurent polynomial are those of the polynomial. -/
theorem coeff_laurent (p : Polynomial) (k : Powers) : p.laurent.coeff k.exponents = p.get k := by
  have hcoeff : p.laurent.coeff = p.sumOver fun k => Finsupp.singleAddHom k.exponents := by
    have hsum := map_list_sum (AddMonoidAlgebra.coeffAddEquiv (R := ℤ) (M := Quantity →₀ ℤ))
      (p.entries.map fun x => AddMonoidAlgebra.singleAddHom x.1.exponents x.2)
    rw [List.map_map] at hsum
    exact hsum
  rw [hcoeff, Sparse.sumOver_apply Powers.exponents_injective]

/-- **Nothing is denoted twice.** -/
theorem laurent_injective : Function.Injective laurent := by
  intro p q h
  apply Sparse.ext_get
  intro k
  rw [← coeff_laurent, h, coeff_laurent]

/-! ### Normalization -/

theorem gcd_foldl_dvd : ∀ (entries : List (Powers × ℤ)) (g : ℕ),
    entries.foldl (fun g x => Nat.gcd g x.2.natAbs) g ∣ g ∧
      ∀ x ∈ entries, entries.foldl (fun g x => Nat.gcd g x.2.natAbs) g ∣ x.2.natAbs
  | [], g => ⟨dvd_refl g, List.forall_mem_nil _⟩
  | x :: rest, g => by
    obtain ⟨hg, hrest⟩ := gcd_foldl_dvd rest (Nat.gcd g x.2.natAbs)
    rw [List.foldl_cons]
    refine ⟨hg.trans (Nat.gcd_dvd_left _ _), List.forall_mem_cons.mpr ⟨?_, hrest⟩⟩
    exact hg.trans (Nat.gcd_dvd_right _ _)

theorem content_dvd {p : Polynomial} {x : Powers × ℤ} (hx : x ∈ p.entries) :
    (p.content : ℤ) ∣ x.2 :=
  Int.natCast_dvd.mpr ((gcd_foldl_dvd p.entries 0).2 x hx)

/-- What normalization divides by: the content, with the sign of the last
coefficient. -/
def divisor (p : Polynomial) : ℤ := if p.leadsNegative then -p.content else p.content

theorem divisor_dvd {p : Polynomial} {x : Powers × ℤ} (hx : x ∈ p.entries) : p.divisor ∣ x.2 := by
  unfold divisor
  split_ifs
  · exact Int.neg_dvd.mpr (content_dvd hx)
  · exact content_dvd hx

/-- Coefficients are divided in place: none of them becomes zero. -/
theorem entries_normalized (p : Polynomial) :
    p.normalized.entries = p.entries.map fun x => (x.1, x.2 / p.divisor) := by
  refine Sparse.entries_mapValues fun x hx => ?_
  change x.2 / p.divisor ≠ 0
  obtain ⟨m, hm⟩ := divisor_dvd hx
  have hprod : p.divisor * m ≠ 0 := hm ▸ p.nonzero x hx
  rw [hm, Int.mul_ediv_cancel_left m (left_ne_zero_of_mul hprod)]
  exact right_ne_zero_of_mul hprod

theorem powers_normalized (p : Polynomial) :
    p.normalized.terms.map Term.powers = p.terms.map Term.powers := by
  rw [terms, terms, entries_normalized, List.map_map, List.map_map, List.map_map]
  rfl

theorem powers_neg (p : Polynomial) : (-p).terms.map Term.powers = p.terms.map Term.powers := by
  rw [terms, terms, entries_neg, List.map_map, List.map_map, List.map_map]
  rfl

/-! ### Putting polynomials together -/

/-- No coefficient and no exponent is zero, and no two terms have the same
exponents. -/
structure Reduced (p : Polynomial) : Prop where
  coefficients : ∀ t ∈ p.terms, t.coefficient ≠ 0
  exponents : ∀ t ∈ p.terms, ∀ x ∈ t.powers.entries, x.2 ≠ 0
  apart : p.terms.Pairwise fun s t => s.powers.exponents ≠ t.powers.exponents

theorem reduced (p : Polynomial) : p.Reduced where
  coefficients t ht := by
    obtain ⟨x, hx, rfl⟩ := List.mem_map.mp ht
    exact p.nonzero x hx
  exponents t _ := t.powers.nonzero
  apart := by
    refine List.pairwise_map.mpr (p.ascending.imp fun {x y} hlt => ?_)
    exact fun heq => Sparse.ne_of_compare_lt hlt (Powers.exponents_injective heq)

/-- How a polynomial is put together, starting from zero. -/
inductive Recipe where
  | zero
  /-- Adds a term, given by its coefficient and its factors in any order; a
  quantity may occur several times among these. -/
  | insert (r : Recipe) (coefficient : ℤ) (factors : List (Quantity × ℤ))
  | add (r s : Recipe)
  | mul (r s : Recipe)
  | neg (r : Recipe)
  | normalized (r : Recipe)
  | canonical (r : Recipe) (known : Triples)

namespace Recipe

/-- The polynomial that is put together. -/
def result : Recipe → Polynomial
  | zero => Polynomial.zero
  | insert r n factors => r.result.addTerm ⟨n, Powers.ofFactors factors⟩
  | add r s => r.result + s.result
  | mul r s => r.result * s.result
  | neg r => -r.result
  | normalized r => r.result.normalized
  | canonical r known => r.result.canonical known

theorem laurent_insert (r : Recipe) (n : ℤ) (factors : List (Quantity × ℤ)) :
    (r.insert n factors).result.laurent = r.result.laurent +
      .single (factors.map fun x => Finsupp.single x.1 x.2).sum n := by
  rw [result, addTerm, laurent_add, laurent_ofTerm, Term.laurent, Powers.exponents_ofFactors]

/-- **However a polynomial was put together**, it is reduced, and what is done to
polynomials is done to the Laurent polynomials that they denote. Negating and
normalizing loses no term. Polynomials are the same exactly if they denote the
same; so the order of terms and of factors does not matter. -/
theorem laurent_result (r s : Recipe) :
    r.result.Reduced ∧
    Recipe.zero.result.laurent = 0 ∧
    (∀ n factors, (r.insert n factors).result.laurent = r.result.laurent +
      .single (factors.map fun x => Finsupp.single x.1 x.2).sum n) ∧
    (r.add s).result.laurent = r.result.laurent + s.result.laurent ∧
    (r.mul s).result.laurent = r.result.laurent * s.result.laurent ∧
    r.neg.result.laurent = -r.result.laurent ∧
    r.neg.result.terms.map Term.powers = r.result.terms.map Term.powers ∧
    r.normalized.result.terms.map Term.powers = r.result.terms.map Term.powers ∧
    (r.result = s.result ↔ r.result.laurent = s.result.laurent) ∧
    (∀ n m factors factors', ((r.insert n factors).insert m factors').result =
      ((r.insert m factors').insert n factors).result) ∧
    ∀ n factors factors', factors.Perm factors' →
      (r.insert n factors).result = (r.insert n factors').result := by
  refine ⟨reduced _, laurent_zero, laurent_insert r, laurent_add _ _, laurent_mul _ _,
    laurent_neg _, powers_neg _, powers_normalized _, laurent_injective.eq_iff.symm, ?_, ?_⟩
  · intro n m factors factors'
    apply laurent_injective
    rw [laurent_insert, laurent_insert, laurent_insert, laurent_insert, add_right_comm]
  · intro n factors factors' hperm
    apply laurent_injective
    rw [laurent_insert, laurent_insert, (hperm.map _).sum_eq]

namespace TwoTerms

open Letters

def area : Quantity := .area a b c

def square : Quantity := .pythagoras a b a

/-- `6 S(A, B, C) P(A, B, A)⁻¹ - 10 P(A, B, A)²`, from the first term and its first factor
on. -/
def forwards : Recipe :=
  (zero.insert 6 [(area, 2), (square, -1), (area, -1)]).insert (-10) [(square, 2)]

/-- The same from the last term and the last factor on. -/
def backwards : Recipe :=
  (zero.insert (-10) [(square, 2)]).insert 6 [(area, -1), (square, -1), (area, 2)]

end TwoTerms

open TwoTerms in
theorem laurent_result_swapped :
    forwards.result = backwards.result ∧
    forwards.result.laurent =
      .single (.single area 1 + .single square (-1)) 6 + .single (.single square 2) (-10) ∧
    (forwards.mul backwards).result.laurent = forwards.result.laurent ^ 2 ∧
    (forwards.add backwards.neg).result = zero.result ∧
    forwards.normalized.result.terms.map Term.powers =
      backwards.neg.result.terms.map Term.powers := by
  obtain ⟨-, hzero, hfirst, -, -, -, -, -, -, hterms, -⟩ := laurent_result zero zero
  obtain ⟨-, -, hsecond, -⟩ :=
    laurent_result (zero.insert 6 [(area, 2), (square, -1), (area, -1)]) zero
  obtain ⟨-, -, -, -, -, -, -, -, -, -, hfactors⟩ :=
    laurent_result (zero.insert (-10) [(square, 2)]) zero
  obtain ⟨-, -, -, -, hmul, -, -, hnormalized, -⟩ := laurent_result forwards backwards
  obtain ⟨-, -, -, hadd, -⟩ := laurent_result forwards backwards.neg
  obtain ⟨-, -, -, -, -, hneg, hpowers, -⟩ := laurent_result backwards zero
  obtain ⟨-, -, -, -, -, -, -, -, hiff, -⟩ := laurent_result (forwards.add backwards.neg) zero
  have hsame : forwards.result = backwards.result :=
    (hterms _ _ _ _).trans (hfactors _ _ _ (List.reverse_perm _).symm)
  have hexponents : ([(area, (2 : ℤ)), (square, -1), (area, -1)].map
      fun x => Finsupp.single x.1 x.2).sum = .single area 1 + .single square (-1) := by
    have harea : Finsupp.single area (2 : ℤ) + .single area (-1) = .single area 1 :=
      (Finsupp.single_add _ _ _).symm
    rw [← harea, add_right_comm]
    simp [add_assoc]
  refine ⟨hsame, ?_, ?_, hiff.mpr ?_, ?_⟩
  · rw [forwards, hsecond, hfirst, hzero, zero_add, hexponents]
    simp
  · rw [hmul, ← hsame, sq]
  · rw [hadd, hneg, hzero, hsame, add_neg_cancel]
  · rw [hnormalized, hpowers, hsame]

end Recipe
end Polynomial
end AreaMethod
