/-
# Canonical forms are final

An expression is in canonical form if its quantities are representatives, with
their points in ascending order where the value allows (`Quantity.Represents`).
In packed nodes a quantity may also vanish, but then it stands in a denominator.

What `Expr.canonical` returns is in canonical form, and an expression in
canonical form is returned as it is. The first part follows the sorting of the
points, one power after the other. For the second part nothing may depend on how
powers and terms were merged: a product is the product of its own powers, and a
polynomial the sum of its own terms. So a second pass changes nothing
(`Expr.canonical_idempotent`).

Key definitions: `Quantity.Vanishes`, `Quantity.Represents`,
`Powers.IsCanonical`, `Expr.IsCanonical`.
Key theorems: `before_sortThree`, `Quantity.represents_of_canonical`,
`Quantity.canonical_of_represents`, `Expr.canonical_idempotent`.
-/
import Mathlib
import AreaMethod.Proofs.CanonicalValue
import AreaMethod.Proofs.LaurentPolynomial

namespace AreaMethod

/-! ### Points in order -/

namespace Point

variable {p q r : Point}

theorem before_iff : p.before q ↔ compare p q = .lt := beq_iff_eq

theorem not_before_self (p : Point) : ¬ p.before p := by
  rw [before_iff, Std.ReflOrd.compare_self]
  exact fun h => nomatch h

theorem before_trans (h : p.before q) (h' : q.before r) : p.before r :=
  before_iff.mpr (Std.TransCmp.lt_trans (before_iff.mp h) (before_iff.mp h'))

theorem not_before_of_before (h : p.before q) : ¬ q.before p :=
  fun h' => not_before_self p (before_trans h h')

theorem ne_of_before (h : p.before q) : p ≠ q := by
  rintro rfl
  exact not_before_self p h

/-- Different points come one before the other. -/
theorem before_of_ne (hne : p ≠ q) (h : ¬ q.before p) : p.before q := by
  rw [before_iff] at h ⊢
  cases hpq : compare p q with
  | lt => rfl
  | eq => exact absurd (Std.LawfulEqOrd.eq_of_compare hpq) hne
  | gt => exact absurd (Std.OrientedCmp.lt_of_gt hpq) h

/-- A list of points in ascending order is known by its members. -/
theorem eq_of_pairwise_before {ps qs : List Point} (hp : ps.Pairwise fun p q => p.before q)
    (hq : qs.Pairwise fun p q => p.before q) (h : ∀ p, p ∈ ps ↔ p ∈ qs) : ps = qs := by
  have : Std.Irrefl fun p q : Point => p.before q = true := ⟨not_before_self⟩
  have : Std.Antisymm fun p q : Point => p.before q = true :=
    ⟨fun _ _ h h' => absurd h' (not_before_of_before h)⟩
  exact hp.eq_of_mem_iff hq h

end Point

section Sorting

variable {a b c a' b' c' : Point}

theorem sortTwo_of_not_before (h : ¬ b.before a) : sortTwo a b = ((a, b), false) := if_neg h

theorem not_before_sortTwo (a b : Point) :
    ¬ (sortTwo a b).1.2.before (sortTwo a b).1.1 := by
  unfold sortTwo
  split_ifs with h
  · exact Point.not_before_of_before h
  · exact h

theorem before_sortTwo (h : a ≠ b) : (sortTwo a b).1.1.before (sortTwo a b).1.2 := by
  refine Point.before_of_ne ?_ (not_before_sortTwo a b)
  rcases sortTwo_cases a b with hs | hs <;> rw [hs]
  · exact h
  · exact h.symm

/-- Three different points are sorted strictly. -/
theorem before_sortThree (hab : a ≠ b) (hbc : b ≠ c) (hac : a ≠ c) :
    (sortThree a b c).1.1.before (sortThree a b c).1.2.1 ∧
      (sortThree a b c).1.2.1.before (sortThree a b c).1.2.2 := by
  have hpq := before_sortTwo hab
  obtain ⟨hpc, hqc⟩ := forall_sortTwo (K := (· ≠ c)) hac hbc
  rw [sortThree_eq]
  simp only
  generalize (sortTwo a b).1.1 = p, (sortTwo a b).1.2 = q at hpq hpc hqc
  have hlast := before_sortTwo hqc
  rcases sortTwo_cases q c with hs | hs <;> rw [hs] at hlast ⊢
  · rw [sortTwo_of_not_before (Point.not_before_of_before hpq)]
    exact ⟨hpq, hlast⟩
  · -- `c` and `p` both come before `q`, which is the last point now
    exact ⟨before_sortTwo hpc, (forall_sortTwo (K := fun z => z.before q) hpq hlast).2⟩

theorem sortThree_of_before (hab : a.before b) (hbc : b.before c) :
    sortThree a b c = ((a, b, c), false) := by
  have h := sortTwo_of_not_before (Point.not_before_of_before hab)
  rw [sortThree_eq, h, sortTwo_of_not_before (Point.not_before_of_before hbc)]
  simp only [h, Bool.xor_false]

theorem perm_sortThree (a b c : Point) :
    [(sortThree a b c).1.1, (sortThree a b c).1.2.1, (sortThree a b c).1.2.2].Perm [a, b, c] :=
  sortThree_induction (P := fun p q r _ => [p, q, r].Perm [a, b, c]) (.refl _)
    (fun p q r _ h => (List.Perm.swap p q [r]).trans h)
    fun p q r _ h => ((List.Perm.swap q r []).cons p).trans h

theorem nodup_three : [a, b, c].Nodup ↔ a ≠ b ∧ b ≠ c ∧ a ≠ c := by
  simp only [List.nodup_cons, List.mem_cons, List.not_mem_nil, or_false, not_or, List.nodup_nil,
    not_false_eq_true, and_true]
  tauto

theorem pairwise_sortThree (h : [a, b, c].Nodup) :
    [(sortThree a b c).1.1, (sortThree a b c).1.2.1, (sortThree a b c).1.2.2].Pairwise
      fun p q => p.before q := by
  obtain ⟨hab, hbc, hac⟩ := nodup_three.mp h
  obtain ⟨hfirst, hlast⟩ := before_sortThree hab hbc hac
  simp [hfirst, hlast, Point.before_trans hfirst hlast]

/-- Sorting forgets the order of three different points, and nothing else. -/
theorem sortThree_eq_iff_perm (h : [a, b, c].Nodup) :
    (sortThree a b c).1 = (sortThree a' b' c').1 ↔ [a, b, c].Perm [a', b', c'] := by
  have hperm := perm_sortThree a b c
  have hperm' := perm_sortThree a' b' c'
  constructor
  · intro heq
    rw [← heq] at hperm'
    exact hperm.symm.trans hperm'
  · intro habc
    have heq := Point.eq_of_pairwise_before (pairwise_sortThree h)
      (pairwise_sortThree (habc.nodup_iff.mp h)) fun p =>
      ((hperm.trans habc).trans hperm'.symm).mem_iff
    simp only [List.cons.injEq, and_true] at heq
    exact Prod.ext heq.1 (Prod.ext heq.2.1 heq.2.2)

end Sorting

/-! ### Representatives -/

namespace Quantity

/-- The quantity is zero by its points, or because their triple is known. -/
def Vanishes (known : Triples) : Quantity → Prop
  | area a b c => a = b ∨ b = c ∨ a = c ∨ known.has a b c
  | pythagoras a b c => a = b ∨ b = c
  | ratio a b _ _ => a = b

/-- The quantity stands for those that have the same points in another order. Its
own are in ascending order where the value allows; it does not vanish, and as a
ratio it is not one. -/
def Represents (known : Triples) : Quantity → Prop
  | area a b c => a.before b ∧ b.before c ∧ ¬ known.has a b c
  | pythagoras a b c => a ≠ b ∧ b ≠ c ∧ ¬ c.before a ∧ (a = c → a.before b)
  | ratio a b c d => a.before b ∧ ¬ d.before c ∧ ¬ (a = c ∧ b = d)

variable {known : Triples} {q q' : Quantity} {odd : Bool}

theorem canonical_eq_zero_iff : q.canonical known = .zero ↔ q.Vanishes known := by
  cases q with
  | area a b c =>
    simp only [canonical, Vanishes]
    split_ifs with h <;> simp [h]
  | pythagoras a b c =>
    simp only [canonical, Vanishes]
    split_ifs with h _ <;> simp [h]
  | ratio a b c d =>
    simp only [canonical, Vanishes]
    split_ifs with h _ <;> simp [h]

/-- What is put in place of a quantity is a representative. -/
theorem represents_of_canonical (h : q.canonical known = .signed q' odd) :
    q'.Represents known := by
  cases q with
  | area a b c =>
    simp only [canonical] at h
    split_ifs at h with hzero
    obtain ⟨hab, hbc, hac, hhas⟩ : a ≠ b ∧ b ≠ c ∧ a ≠ c ∧ ¬ known.has a b c := by
      simpa only [not_or] using hzero
    obtain ⟨hfirst, hlast⟩ := before_sortThree hab hbc hac
    -- the sorted triple is the one that was looked up
    rw [Triples.has] at hhas
    generalize sortThree a b c = sorted at h hhas hfirst hlast
    obtain ⟨rfl, -⟩ := Canonical.signed.inj h
    refine ⟨hfirst, hlast, ?_⟩
    rw [Triples.has, sortThree_of_before hfirst hlast]
    exact hhas
  | pythagoras a b c =>
    simp only [canonical] at h
    split_ifs at h with hzero hswap
    · obtain ⟨rfl, -⟩ := Canonical.signed.inj h
      have hne := Point.ne_of_before hswap.2
      exact ⟨hne, hne.symm, Point.not_before_self b, fun _ => hswap.2⟩
    · obtain ⟨rfl, -⟩ := Canonical.signed.inj h
      obtain ⟨hab, hbc⟩ := not_or.mp hzero
      obtain ⟨ha, hc⟩ := forall_sortTwo (K := (· ≠ b)) hab (Ne.symm hbc)
      refine ⟨ha, hc.symm, not_before_sortTwo a c, fun heq => Point.before_of_ne ha fun hb => ?_⟩
      exact hswap ⟨heq, hb⟩
  | ratio a b c d =>
    simp only [canonical] at h
    split_ifs at h with hzero hunit
    obtain ⟨rfl, -⟩ := Canonical.signed.inj h
    exact ⟨before_sortTwo hzero, not_before_sortTwo c d, hunit⟩

/-- A representative stands for itself. -/
theorem canonical_of_represents (h : q.Represents known) : q.canonical known = .signed q false := by
  cases q with
  | area a b c =>
    obtain ⟨hab, hbc, hhas⟩ := h
    have hzero : ¬ (a = b ∨ b = c ∨ a = c ∨ known.has a b c) := by
      simp only [not_or]
      exact ⟨Point.ne_of_before hab, Point.ne_of_before hbc,
        Point.ne_of_before (Point.before_trans hab hbc), hhas⟩
    simp only [canonical, if_neg hzero, sortThree_of_before hab hbc]
  | pythagoras a b c =>
    obtain ⟨hab, hbc, hac, hlength⟩ := h
    have hzero : ¬ (a = b ∨ b = c) := not_or.mpr ⟨hab, hbc⟩
    have hswap : ¬ (a = c ∧ b.before a) :=
      fun h => Point.not_before_of_before (hlength h.1) h.2
    simp only [canonical, if_neg hzero, sortTwo_of_not_before hac, if_neg hswap]
  | ratio a b c d =>
    obtain ⟨hab, hcd, hunit⟩ := h
    simp only [canonical, if_neg (Point.ne_of_before hab),
      sortTwo_of_not_before (Point.not_before_of_before hab), sortTwo_of_not_before hcd,
      if_neg hunit, Bool.xor_false]

end Quantity

/-! ### Products -/

namespace Powers

variable {known : Triples} {p : Powers}

/-- Each quantity is a representative, or vanishes and stands in the
denominator. -/
def IsCanonical (known : Triples) (p : Powers) : Prop :=
  ∀ x ∈ p.entries, x.1.Represents known ∨ x.1.Vanishes known ∧ x.2 < 0

theorem isCanonical_one : one.IsCanonical known := fun _ hx => nomatch hx

/-- Merging powers of one quantity leaves it in the denominator if it was there. -/
theorem isCanonical_timesPower (hp : p.IsCanonical known) {q : Quantity} {n : ℤ}
    (hq : q.Represents known ∨ q.Vanishes known ∧ n < 0) :
    (p.timesPower q n).IsCanonical known := by
  refine Sparse.forall_mem_merge_of_both (fun q a b ha hb _ => ?_) _ _ hp fun x hx => ?_
  · rcases ha with hrep | ⟨hzero, ha⟩
    · exact .inl hrep
    · exact hb.imp_right fun hb => ⟨hzero, add_neg ha hb.2⟩
  · rw [(Sparse.mem_entries_single hx).1]
    exact hq

theorem isCanonical_mergePower (hp : p.IsCanonical known) {q : Quantity} {n : ℤ}
    (hq : q.Represents known) : (p.mergePower q n).IsCanonical known := by
  obtain ⟨m, hm⟩ := p.exists_mergePower q n
  rw [hm]
  exact isCanonical_timesPower hp (.inl hq)

theorem mergePower_of_get_eq_zero {q : Quantity} (h : p.get q = 0) (n : ℤ) :
    p.mergePower q n = p.timesPower q n := if_pos h

/-- A product is the product of its powers. -/
theorem ofFactors_entries (p : Powers) : ofFactors p.entries = p := by
  apply exponents_injective
  rw [exponents_ofFactors]
  rfl

/-- Powers of different quantities are not merged with each other. -/
theorem foldl_mergePower : ∀ {entries : List (Quantity × ℤ)} {p : Powers}, Ascending entries →
    (∀ x ∈ entries, p.get x.1 = 0) →
      entries.foldl (fun p x => p.mergePower x.1 x.2) p =
        entries.foldl (fun p x => p.timesPower x.1 x.2) p
  | [], _, _, _ => rfl
  | x :: rest, p, hasc, hfresh => by
    obtain ⟨hx, hrest⟩ := List.pairwise_cons.mp hasc
    have hfresh' : ∀ y ∈ rest, (p.mergePower x.1 x.2).get y.1 = 0 := by
      intro y hy
      rw [get_mergePower_of_ne (Sparse.ne_of_compare_lt (hx y hy)).symm]
      exact hfresh y (.tail _ hy)
    rw [List.foldl_cons, List.foldl_cons, foldl_mergePower hrest hfresh',
      mergePower_of_get_eq_zero (hfresh x (.head _))]

end Powers

namespace Term

variable {known : Triples} {t : Term} {q : Quantity} {n : ℤ}

theorem isCanonical_timesCanonical (ht : t.powers.IsCanonical known)
    (hq : q.Vanishes known → n < 0 ∧ t.powers.get q = 0) :
    (t.timesCanonical Powers.mergePower known q n).powers.IsCanonical known := by
  unfold timesCanonical
  simp only
  cases hc : q.canonical known with
  | zero =>
    have hzero := Quantity.canonical_eq_zero_iff.mp hc
    obtain ⟨hn, hfresh⟩ := hq hzero
    have hmerge := Powers.mergePower_of_get_eq_zero hfresh n
    exact hmerge ▸ Powers.isCanonical_timesPower ht (.inr ⟨hzero, hn⟩)
  | unit odd => exact ht
  | signed q' odd =>
    exact Powers.isCanonical_mergePower ht (Quantity.represents_of_canonical hc)

/-- Nothing is merged with a quantity that vanishes. -/
theorem get_timesCanonical_of_vanishes {k : Quantity} (hk : k.Vanishes known) (hne : k ≠ q) :
    (t.timesCanonical Powers.mergePower known q n).powers.get k = t.powers.get k := by
  unfold timesCanonical
  simp only
  cases hc : q.canonical known with
  | zero => exact Powers.get_mergePower_of_ne hne n
  | unit odd => rfl
  | signed q' odd =>
    refine Powers.get_mergePower_of_ne (fun heq => ?_) n
    have hself := Quantity.canonical_of_represents (Quantity.represents_of_canonical hc)
    rw [← heq, Quantity.canonical_eq_zero_iff.mpr hk] at hself
    cases hself

theorem isCanonical_foldl : ∀ {entries : List (Quantity × ℤ)} {s : Term}, Ascending entries →
    s.powers.IsCanonical known →
    (∀ x ∈ entries, x.1.Vanishes known → x.2 < 0 ∧ s.powers.get x.1 = 0) →
      (entries.foldl (fun s x => s.timesCanonical Powers.mergePower known x.1 x.2)
        s).powers.IsCanonical known
  | [], _, _, hs, _ => hs
  | x :: rest, s, hasc, hs, hvanish => by
    obtain ⟨hx, hrest⟩ := List.pairwise_cons.mp hasc
    rw [List.foldl_cons]
    refine isCanonical_foldl hrest (isCanonical_timesCanonical hs (hvanish x (.head _))) ?_
    intro y hy hzero
    rw [get_timesCanonical_of_vanishes hzero (Sparse.ne_of_compare_lt (hx y hy)).symm]
    exact hvanish y (.tail _ hy) hzero

theorem isCanonical_canonical (known : Triples) (t : Term) :
    (t.canonical known).powers.IsCanonical known := by
  unfold canonical canonicalBy
  split_ifs with hany
  · exact Powers.isCanonical_one
  · refine isCanonical_foldl t.powers.ascending Powers.isCanonical_one fun x hx hzero => ⟨?_, rfl⟩
    -- no quantity above the fraction bar vanishes
    have hpos : ¬ 0 < x.2 := by
      intro hpos
      refine hany (List.any_eq_true.mpr ⟨x, hx, ?_⟩)
      simpa using ⟨hpos, Quantity.canonical_eq_zero_iff.mpr hzero⟩
    have hne := t.powers.nonzero x hx
    omega

theorem timesCanonical_of_isCanonical (h : q.Represents known ∨ q.Vanishes known) (n : ℤ) :
    t.timesCanonical Powers.mergePower known q n =
      ⟨t.coefficient, t.powers.mergePower q n⟩ := by
  unfold timesCanonical
  rcases h with hrep | hzero
  · simp [Quantity.canonical_of_represents hrep]
  · simp [Quantity.canonical_eq_zero_iff.mpr hzero]

/-- **Terms in canonical form stay as they are.** -/
theorem canonical_of_isCanonical (h : t.powers.IsCanonical known) : t.canonical known = t := by
  have hany : ¬ t.powers.entries.any fun x => decide (0 < x.2) && x.1.canonical known = .zero := by
    intro hany
    obtain ⟨x, hx, hzero⟩ := List.any_eq_true.mp hany
    obtain ⟨hpos, hzero⟩ : 0 < x.2 ∧ x.1.canonical known = .zero := by simpa using hzero
    rcases h x hx with hrep | ⟨-, hneg⟩
    · rw [Quantity.canonical_of_represents hrep] at hzero
      cases hzero
    · omega
  have hstep : ∀ (s : Term), ∀ x ∈ t.powers.entries,
      s.timesCanonical Powers.mergePower known x.1 x.2 =
        ⟨s.coefficient, s.powers.mergePower x.1 x.2⟩ :=
    fun s x hx => timesCanonical_of_isCanonical ((h x hx).imp_right And.left) x.2
  have hfold : ∀ (entries : List (Quantity × ℤ)) (p : Powers),
      entries.foldl (fun s x => (⟨s.coefficient, s.powers.mergePower x.1 x.2⟩ : Term))
        ⟨t.coefficient, p⟩ =
      ⟨t.coefficient, entries.foldl (fun p x => p.mergePower x.1 x.2) p⟩ := by
    intro entries
    induction entries with
    | nil => exact fun p => rfl
    | cons x rest ih => exact fun p => ih _
  unfold canonical canonicalBy
  rw [if_neg hany, List.foldl_ext _ _ _ hstep, constant, hfold,
    Powers.foldl_mergePower t.powers.ascending fun _ _ => rfl]
  exact congrArg (Term.mk t.coefficient) (Powers.ofFactors_entries t.powers)

end Term

/-! ### Polynomials and expressions -/

namespace Polynomial

variable {known : Triples} {p : Polynomial}

/-- Every product is in canonical form. -/
def IsCanonical (known : Triples) (p : Polynomial) : Prop :=
  ∀ t ∈ p.terms, t.powers.IsCanonical known

theorem isCanonical_canonical (known : Triples) (p : Polynomial) :
    (p.canonical known).IsCanonical known := by
  intro t ht
  obtain ⟨x, hx, rfl⟩ := List.mem_map.mp ht
  refine Sparse.forall_sumMap (P := fun k : Powers => k.IsCanonical known) p.terms
    (f := fun t : Term => ofTerm (t.canonical known)) (fun s _ y hy => ?_) x hx
  rw [(Sparse.mem_entries_single hy).1]
  exact s.isCanonical_canonical known

/-- **Polynomials in canonical form stay as they are**: each is the sum of its
terms. -/
theorem canonical_of_isCanonical (h : p.IsCanonical known) : p.canonical known = p := by
  apply laurent_injective
  have hterm : ∀ t ∈ p.terms, (ofTerm (t.canonical known)).laurent = t.laurent := by
    intro t ht
    rw [Term.canonical_of_isCanonical (h t ht), laurent_ofTerm]
  calc (p.canonical known).laurent
      = (p.terms.map fun t => (ofTerm (t.canonical known)).laurent).sum := laurent_sumMap _ _
    _ = (p.terms.map Term.laurent).sum := by rw [List.map_congr_left hterm]
    _ = p.laurent := (laurent_eq_sum p).symm

end Polynomial

namespace Expr

variable {known : Triples}

/-- Each quantity of the expression is a representative. In packed nodes it may
also vanish, but then it stands in a denominator. -/
def IsCanonical (known : Triples) : Expr → Prop
  | number _ => True
  | quantity q => q.Represents known
  | neg e => e.IsCanonical known
  | sum a b => a.IsCanonical known ∧ b.IsCanonical known
  | product a b => a.IsCanonical known ∧ b.IsCanonical known
  | fraction a b => a.IsCanonical known ∧ b.IsCanonical known
  | term t => t.powers.IsCanonical known
  | polynomial p => p.IsCanonical known

theorem leafwise_isCanonical (known : Triples) : Leafwise (IsCanonical known) :=
  ⟨fun _ => trivial, Iff.rfl, Iff.rfl, Iff.rfl, Iff.rfl⟩

theorem isCanonical_canonical (known : Triples) (e : Expr) :
    (e.canonical known).IsCanonical known := by
  have hanything : Leafwise fun _ => True :=
    ⟨fun _ => trivial, Iff.rfl, and_self_iff.symm, and_self_iff.symm, and_self_iff.symm⟩
  unfold canonical
  refine hanything.holds_mapLeaves (leafwise_isCanonical known) (fun q _ => ?_) (fun t _ => ?_)
    (fun p _ => ?_) trivial
  · cases hc : q.canonical known with
    | zero => trivial
    | unit odd => cases odd <;> trivial
    | signed q' odd => cases odd <;> exact Quantity.represents_of_canonical hc
  · exact t.isCanonical_canonical known
  · exact p.isCanonical_canonical known

theorem canonical_of_isCanonical : ∀ {e : Expr}, e.IsCanonical known → e.canonical known = e
  | number _, _ => rfl
  | quantity _, h => congrArg Canonical.toExpr (Quantity.canonical_of_represents h)
  | neg _, h => congrArg neg (canonical_of_isCanonical h)
  | sum _ _, h => congrArg₂ sum (canonical_of_isCanonical h.1) (canonical_of_isCanonical h.2)
  | product _ _, h =>
    congrArg₂ product (canonical_of_isCanonical h.1) (canonical_of_isCanonical h.2)
  | fraction _ _, h =>
    congrArg₂ fraction (canonical_of_isCanonical h.1) (canonical_of_isCanonical h.2)
  | term _, h => congrArg term (Term.canonical_of_isCanonical h)
  | polynomial _, h => congrArg polynomial (Polynomial.canonical_of_isCanonical h)

/-- **Canonical forms are final.** A second pass with the same known triples changes
nothing, and the expressions that a pass does not change are those in canonical
form. -/
theorem canonical_idempotent (known : Triples) (e : Expr) :
    (e.canonical known).canonical known = e.canonical known ∧
      (e.canonical known = e ↔ e.IsCanonical known) := by
  refine ⟨canonical_of_isCanonical (isCanonical_canonical known e), fun h => ?_,
    canonical_of_isCanonical⟩
  rw [← h]
  exact isCanonical_canonical known e

end Expr
end AreaMethod
