/-
# Keys and the order of points

A key is the text of a simplified sum, without the negation in front, and a sum
keeps the order of its operands. So the key of a statement does not always
survive a change of the order of its points: collinear points can be permuted, and the
ends of a segment whose length is compared can be swapped, but to exchange two pairs or
the sides of an equation, or to swap the ends of a segment in a statement on directions,
exchanges the operands or moves a sign from one of them to the other.
`Statement.key_symmetries` says for each statement and each move when the key is
kept.

Statements about four points compare two quantities. If the points are such that these
cancel or one of them vanishes, then the key has one quantity at most and is known from the
value of the statement; otherwise both stay in the sum (`Statement.Compares`), and two keys
can be equal only if their first quantities are.

Key definitions: `Statement.SameKeyIff`, `Statement.Compares`, `Point.between`.
Key theorems: `Statement.Compares.sameKeyIff`, `Statement.key_symmetries`.
-/
import Mathlib
import AreaMethod.Proofs.Keys
import AreaMethod.Proofs.Separation
import AreaMethod.Proofs.SimplifiedSums

namespace AreaMethod

/-! ### Keys -/

namespace Statement

variable {s s' : Statement} {P : Prop}

theorem key_eq_text_bare (s : Statement) : s.key = s.normalExpr.bare.text := by
  unfold key
  cases s.normalExpr <;> rfl

theorem normalExpr_of_sum {a b a' b' : Expr} (h : s.zeroExpr.canonical .empty = .sum a b)
    (ha : a.simplifyStep = .ok a') (hb : b.simplifyStep = .ok b') (ha' : a'.Fixed) (hb' : b'.Fixed) :
    s.normalExpr = Expr.sumRule a' b' := by
  have hstep : (s.zeroExpr.canonical .empty).simplifyStep = .ok (Expr.sumRule a' b') := by
    rw [h, Expr.simplifyStep, ha, hb]
    rfl
  apply normalExpr_of_simplify
  rw [Expr.simplify_of_step hstep, Expr.simplify_of_fixed (Expr.fixed_sumRule ha' hb')]

/-- The statements have the same key if `P`, and only then if the expressions can be read
off their texts, so that no label has a blank. -/
structure SameKeyIff (s s' : Statement) (P : Prop) : Prop where
  same : P → s.key = s'.key
  only : s.zeroExpr.Readable → s'.zeroExpr.Readable → s.key = s'.key → P

theorem readable_bare {e : Expr} (h : e.Readable) : e.bare.Readable := by
  cases e with
  | neg x => exact h
  | _ => exact h

theorem SameKeyIff.of_bare (h : s.normalExpr.bare = s'.normalExpr.bare ↔ P) :
    s.SameKeyIff s' P where
  same hP := by rw [key_eq_text_bare, key_eq_text_bare, h.mpr hP]
  only hs hs' hkey := by
    rw [key_eq_text_bare, key_eq_text_bare] at hkey
    exact h.mp (Expr.eq_of_text_eq (readable_bare (readable_normalExpr hs))
      (readable_bare (readable_normalExpr hs')) hkey)

/-! ### Equations -/

/-- If both sides can be simplified, then what they come to decides. -/
theorem sameKeyIff_equal {l r a b : Expr} (hl : (l.canonical .empty).simplify = .ok a)
    (hr : (r.canonical .empty).simplify = .ok b) :
    (equal l r).SameKeyIff (equal r l) (a.Interchangeable b) := by
  obtain ⟨d, hd, hsum⟩ := (Expr.sumsTo_sum _ _).value hl (Expr.simplify_neg_of_simplify hr)
  obtain ⟨d', hd', hsum'⟩ := (Expr.sumsTo_sum _ _).value hr (Expr.simplify_neg_of_simplify hl)
  refine .of_bare ?_
  rw [normalExpr_of_simplify (s := equal l r) hd, normalExpr_of_simplify (s := equal r l) hd']
  exact hsum.bare_eq_iff (Expr.fixed_of_simplify hl) (Expr.fixed_of_simplify hr) hsum'

theorem normalExpr_of_not_simplifies (h : ¬ (s.zeroExpr.canonical .empty).Simplifies) :
    s.normalExpr = s.zeroExpr.canonical .empty := by
  cases hs : (s.zeroExpr.canonical .empty).simplify with
  | error f => simp only [normalExpr, hs]
  | ok e => exact absurd ⟨e, hs⟩ h

theorem canonical_equal (l r : Expr) : (equal l r).zeroExpr.canonical .empty =
    .sum (l.canonical .empty) (.neg (r.canonical .empty)) := rfl

theorem normalExpr_equal_of_fault {l r : Expr}
    (h : ¬ ((l.canonical .empty).Simplifies ∧ (r.canonical .empty).Simplifies))
    (hs : ((equal l r).zeroExpr.canonical .empty).Simplifies) :
    (equal l r).normalExpr = .number 0 := by
  rw [← Expr.simplifies_neg (e := r.canonical .empty)] at h
  exact normalExpr_of_simplify ((Expr.sumsTo_sum _ _).zero h hs)

/-- If a side divides by zero, then so does the difference, unless the sides cancel before
that. -/
theorem sameKeyIff_equal_of_fault {l r : Expr}
    (h : ¬ ((l.canonical .empty).Simplifies ∧ (r.canonical .empty).Simplifies)) :
    (equal l r).SameKeyIff (equal r l) (l.canonical .empty = r.canonical .empty ∨
      ((equal l r).zeroExpr.canonical .empty).Simplifies ∧
      ((equal r l).zeroExpr.canonical .empty).Simplifies) := by
  refine .of_bare ?_
  by_cases heq : l.canonical .empty = r.canonical .empty
  · have hzero : (equal l r).zeroExpr.canonical .empty = (equal r l).zeroExpr.canonical .empty := by
      rw [canonical_equal, canonical_equal, heq]
    have hnormal : (equal l r).normalExpr = (equal r l).normalExpr := by
      simp only [normalExpr, hzero]
    exact iff_of_true (congrArg Expr.bare hnormal) (.inl heq)
  rw [or_iff_right heq]
  by_cases hs : ((equal l r).zeroExpr.canonical .empty).Simplifies <;>
    by_cases hs' : ((equal r l).zeroExpr.canonical .empty).Simplifies
  · rw [normalExpr_equal_of_fault h hs, normalExpr_equal_of_fault (fun hsides => h hsides.symm) hs']
    exact iff_of_true rfl ⟨hs, hs'⟩
  · rw [normalExpr_equal_of_fault h hs, normalExpr_of_not_simplifies hs']
    exact iff_of_false Expr.noConfusion fun hboth => hs' hboth.2
  · rw [normalExpr_of_not_simplifies hs, normalExpr_equal_of_fault (fun hsides => h hsides.symm) hs']
    exact iff_of_false Expr.noConfusion fun hboth => hs hboth.1
  · rw [normalExpr_of_not_simplifies hs, normalExpr_of_not_simplifies hs', canonical_equal,
      canonical_equal]
    exact iff_of_false (fun hbare => heq (Expr.sum.inj hbare).1) fun hboth => hs hboth.1

end Statement

/-! ### Sums of two representatives -/

namespace Canonical

variable {c c' : Canonical} {q q' : Quantity} {odd odd' : Bool}

theorem toExpr_signed (q : Quantity) (odd : Bool) :
    (signed q odd).toExpr = Expr.signed odd (.quantity q) := by
  cases odd <;> rfl

/-- The simplified sum of two representatives. -/
def plus (c c' : Canonical) : Expr := Expr.sumRule c.toExpr c'.toExpr

theorem plus_zero (c : Canonical) : plus c zero = c.toExpr := Expr.sumRule_zero_right c.fixed_toExpr

theorem plus_signed (q q' : Quantity) (odd odd' : Bool) : plus (signed q odd) (signed q' odd') =
    if odd = odd' then .signed odd (.sum (.quantity q) (.quantity q'))
    else if q = q' then 0 else .sum (signed q odd).toExpr (signed q' odd').toExpr := by
  have hne : ∀ (q : Quantity) (odd : Bool), (signed q odd).toExpr ≠ .number 0 := by
    rintro q (_ | _) h <;> cases h
  have hrational : ∀ (q : Quantity) (odd : Bool), (signed q odd).toExpr.rational? = none := by
    rintro q (_ | _) <;> rfl
  rw [plus, Expr.sumRule_of_not_constant (fixed_toExpr _) (fixed_toExpr _) (hne q odd) (hne q' odd')
    (.inl (hrational q odd)), toExpr_signed, toExpr_signed, Expr.sumSigns_signed rfl rfl]
  simp only [Expr.quantity.injEq]

/-- Opposite representatives cancel. -/
theorem plus_opposite (q : Quantity) (odd : Bool) : plus (signed q odd) (signed q !odd) = 0 := by
  rw [plus_signed, if_neg (by cases odd <;> exact Bool.noConfusion), if_pos rfl]

/-- Different representatives both stay. -/
theorem quantities_bare_plus (h : q ≠ q') (odd odd' : Bool) :
    (plus (signed q odd) (signed q' odd')).bare.quantities = [q, q'] := by
  rw [plus_signed, if_neg h]
  cases odd <;> cases odd' <;> rfl

theorem length_quantities_bare (c : Canonical) : c.toExpr.bare.quantities.length ≤ 1 := by
  cases c with
  | zero => exact Nat.zero_le 1
  | unit odd => cases odd <;> exact Nat.zero_le 1
  | signed q odd => cases odd <;> exact le_rfl

theorem bare_withSign (c : Canonical) (h : c.Proper) (odd : Bool) :
    (c.withSign odd).toExpr.bare = c.toExpr.bare := by
  cases c with
  | zero => rfl
  | unit => exact h.elim
  | signed q odd' => cases odd <;> cases odd' <;> rfl

theorem bare_neg_plus (h : q ≠ q') (odd odd' : Bool) :
    (plus ((signed q odd).withSign true) ((signed q' odd').withSign true)).bare =
      (plus (signed q odd) (signed q' odd')).bare ↔ odd = odd' := by
  simp only [withSign, Bool.true_xor]
  rw [plus_signed, plus_signed, if_neg h, if_neg h]
  cases odd <;> cases odd' <;> simp [Expr.bare, Expr.negated?, toExpr, Expr.signed]

end Canonical

namespace Quantity

variable {q q' : Quantity} {odd : Bool} {a b c a' b' c' : Point}

theorem exists_signed_canonical (hq : q.RatioFree) (h : ¬ q.Vanishes .empty) :
    ∃ r odd, q.canonical .empty = .signed r odd := by
  cases hc : q.canonical .empty with
  | zero => exact absurd (canonical_eq_zero_iff.mp hc) h
  | unit odd =>
    have hproper := proper_canonical hq
    rw [hc] at hproper
    exact hproper.elim
  | signed r odd => exact ⟨r, odd, rfl⟩

theorem canonical_of_equals (h : Equals odd q q') (hq : q.RatioFree) (hq' : q'.RatioFree) :
    q.canonical .empty = (q'.canonical .empty).withSign odd :=
  (canonical_eq_withSign_iff hq hq' odd).mpr h

theorem equals_of_canonical {x : Quantity} {o o' : Bool} (hq : q.RatioFree) (hq' : q'.RatioFree)
    (h : q.canonical .empty = .signed x o) (h' : q'.canonical .empty = .signed x o') :
    Equals (o ^^ o') q q' := by
  refine (canonical_eq_withSign_iff hq hq' _).mp ?_
  rw [h, h', Canonical.withSign]
  cases o <;> cases o' <;> rfl

end Quantity

/-! ### Statements about four points -/

namespace Statement

variable {s s' : Statement} {q q' r r' : Quantity} {o odd odd' : Bool} {D D' : Prop}

/-- At all coordinates the second statement has the value of the first one, or minus
this value if `o`. -/
def SaysUpTo (s : Statement) (o : Bool) (s' : Statement) : Prop :=
  ∀ ρ, ∃ x, s.zeroExpr.value (reading ρ) = some x ∧ s'.zeroExpr.value (reading ρ) = some (sign o * x)

/-- The statement says that two quantities have the same value, or opposite values if
`odd` is false. If `D` its normal expression has one quantity at most, and otherwise it
has representatives of both. -/
structure Compares (s : Statement) (q r : Quantity) (odd : Bool) (D : Prop) : Prop where
  unpacked : s.zeroExpr.Unpacked
  ratioFree : q.RatioFree ∧ r.RatioFree
  normalExpr : s.normalExpr = Canonical.plus (q.canonical .empty) ((r.canonical .empty).withSign odd)
  collapses : D → q.Vanishes .empty ∨ r.Vanishes .empty ∨ Quantity.Equals (!odd) r q
  stays : ¬ D → ¬ q.Vanishes .empty ∧ ¬ r.Vanishes .empty ∧ ∀ odd, ¬ Quantity.Equals odd q r

theorem Compares.exists_toExpr (h : s.Compares q r odd D) (hD : D) :
    ∃ c : Canonical, c.Proper ∧ s.normalExpr = c.toExpr := by
  have hq := Quantity.proper_canonical h.ratioFree.1
  have hr := (Quantity.proper_canonical h.ratioFree.2).withSign odd
  rw [h.normalExpr]
  rcases h.collapses hD with hzero | hzero | hequals
  · rw [Quantity.canonical_eq_zero_iff.mpr hzero]
    exact ⟨_, hr, rfl⟩
  · rw [Quantity.canonical_eq_zero_iff.mpr hzero]
    exact ⟨_, hq, Canonical.plus_zero _⟩
  · refine ⟨.zero, trivial, ?_⟩
    rw [Quantity.canonical_of_equals hequals h.ratioFree.2 h.ratioFree.1]
    generalize q.canonical .empty = c at hq ⊢
    cases c with
    | zero => rfl
    | unit => exact hq.elim
    | signed q' negative =>
      have hsign : (odd ^^ ((!odd) ^^ negative)) = !negative := by
        cases odd <;> cases negative <;> rfl
      simp only [Canonical.withSign, hsign]
      exact Canonical.plus_opposite q' negative

theorem Compares.exists_signed (h : s.Compares q r odd D) (hD : ¬ D) :
    ∃ x y o o', q.canonical .empty = .signed x o ∧ r.canonical .empty = .signed y o' ∧ x ≠ y := by
  obtain ⟨hq, hr, hequals⟩ := h.stays hD
  obtain ⟨x, o, hx⟩ := Quantity.exists_signed_canonical h.ratioFree.1 hq
  obtain ⟨y, o', hy⟩ := Quantity.exists_signed_canonical h.ratioFree.2 hr
  refine ⟨x, y, o, o', hx, hy, ?_⟩
  rintro rfl
  exact hequals _ (Quantity.equals_of_canonical h.ratioFree.1 h.ratioFree.2 hx hy)

theorem Compares.exists_quantities (h : s.Compares q r odd D) (hD : ¬ D) :
    ∃ x y o, q.canonical .empty = .signed x o ∧ s.normalExpr.bare.quantities = [x, y] := by
  obtain ⟨x, y, o, o', hx, hy, hne⟩ := h.exists_signed hD
  refine ⟨x, y, o, hx, ?_⟩
  rw [h.normalExpr, hx, hy]
  exact Canonical.quantities_bare_plus hne _ _

theorem Compares.length_quantities (h : s.Compares q r odd D) (hD : D) :
    s.normalExpr.bare.quantities.length ≤ 1 := by
  obtain ⟨c, -, hc⟩ := h.exists_toExpr hD
  rw [hc]
  exact c.length_quantities_bare

/-- Two statements with the same value up to a sign have one key if both have one
quantity at most. -/
theorem Compares.bare_eq (h : s.Compares q r odd D) (h' : s'.Compares q' r' odd' D')
    (hvalue : s.SaysUpTo o s') (hD : D) (hD' : D') : s.normalExpr.bare = s'.normalExpr.bare := by
  obtain ⟨c, hc, hnormal⟩ := h.exists_toExpr hD
  obtain ⟨c', hc', hnormal'⟩ := h'.exists_toExpr hD'
  have heq : c' = c.withSign o := by
    refine Canonical.eq_of_value_eq hc' (hc.withSign o) fun ρ => ?_
    obtain ⟨x, hx, hx'⟩ := hvalue ρ
    rw [Canonical.value_withSign, ← hnormal, ← hnormal', value_normalExpr h.unpacked hx,
      value_normalExpr h'.unpacked hx', Option.map_some]
  rw [hnormal, hnormal', heq, Canonical.bare_withSign c hc]

/-- If they have two quantities, the first ones tell them apart. -/
theorem Compares.sameKeyIff (h : s.Compares q r odd D) (h' : s'.Compares q' r' odd' D')
    (hvalue : s.SaysUpTo o s') (hne : ¬ D → ¬ D' → ∀ o, ¬ Quantity.Equals o q q') :
    s.SameKeyIff s' (D ∧ D') := by
  refine .of_bare ⟨fun hbare => ?_, fun hboth => h.bare_eq h' hvalue hboth.1 hboth.2⟩
  by_cases hD : D
  · refine ⟨hD, by_contra fun hD' => ?_⟩
    have hlength := h.length_quantities hD
    obtain ⟨x, y, -, -, hquantities⟩ := h'.exists_quantities hD'
    rw [hbare, hquantities] at hlength
    exact absurd hlength (by simp)
  · obtain ⟨x, y, o, hx, hquantities⟩ := h.exists_quantities hD
    by_cases hD' : D'
    · have hlength := h'.length_quantities hD'
      rw [← hbare, hquantities] at hlength
      exact absurd hlength (by simp)
    · obtain ⟨x', y', o', hx', hquantities'⟩ := h'.exists_quantities hD'
      rw [hbare, hquantities'] at hquantities
      obtain rfl : x' = x := (List.cons.inj hquantities).1
      exact absurd (Quantity.equals_of_canonical h.ratioFree.1 h'.ratioFree.1 hx hx') (hne hD hD' _)

end Statement

/-! ### The order of labels -/

section Labels

variable {a b c : Point}

/-- The label of the third point comes between those of the others. -/
def Point.between (a b c : Point) : Bool := a.before c && c.before b || b.before c && c.before a

theorem Point.before_eq_not {p q : Point} (h : p ≠ q) : p.before q = !q.before p := by
  cases hqp : q.before p with
  | true => exact Bool.eq_false_iff.mpr (not_before_of_before hqp)
  | false => exact before_of_ne h (Bool.eq_false_iff.mp hqp)

/-- Three points are sorted by an odd number of swaps if the first two are in
descending order, or the third comes between them, but not both. -/
theorem odd_sortThree (hab : a ≠ b) (hbc : b ≠ c) (hac : a ≠ c) :
    (sortThree a b c).2 = (b.before a ^^ a.between b c) := by
  have hba := Point.before_eq_not hab
  have hcb := Point.before_eq_not hbc
  have hca := Point.before_eq_not hac
  cases h₁ : b.before a with
  | true =>
    cases h₂ : c.before b with
    | true => simp [sortThree, sortTwo, Point.between, hcb, hca, h₁, h₂, Point.before_trans h₂ h₁]
    | false =>
      cases h₃ : c.before a <;>
        simp [sortThree, sortTwo, Point.between, hba, hcb, hca, h₁, h₂, h₃]
  | false =>
    rw [h₁] at hba
    cases h₂ : c.before b with
    | true => cases h₃ : c.before a <;> simp [sortThree, sortTwo, Point.between, hcb, hca, h₁, h₂, h₃]
    | false =>
      have h₃ : c.before a = false := by
        rw [h₂] at hcb
        exact Bool.eq_false_iff.mpr (Point.not_before_of_before (Point.before_trans hba hcb))
      simp [sortThree, sortTwo, Point.between, hcb, hca, h₁, h₂, h₃]

end Labels

namespace Quantity

variable {a b c d a' b' c' : Point} {odd : Bool}

theorem canonical_area (hab : a ≠ b) (hbc : b ≠ c) (hac : a ≠ c) :
    (area a b c).canonical .empty = .signed
      (area (sortThree a b c).1.1 (sortThree a b c).1.2.1 (sortThree a b c).1.2.2)
      (sortThree a b c).2 := by
  simp [canonical, hab, hbc, hac, Triples.has, Triples.empty]

theorem equals_refl (q : Quantity) : Equals false q q := fun ρ => by simp [sign]

theorem Equals.trans {q q' q'' : Quantity} {odd' : Bool} (h : Equals odd q q')
    (h' : Equals odd' q' q'') : Equals (odd ^^ odd') q q'' := by
  intro ρ
  rw [h, h', Option.map_map]
  simp [Function.comp_def, sign_xor, mul_assoc]

theorem equals_area_last (a b c : Point) : Equals true (area a b c) (area a c b) := by
  intro ρ
  simp only [reading, Option.map_some, Option.some.injEq, sign, if_true, Vec.cross]
  ring

theorem equals_area_first (a b c : Point) : Equals true (area a b c) (area b a c) := by
  intro ρ
  simp only [reading, Option.map_some, Option.some.injEq, sign, if_true, Vec.cross, Prod.fst_sub,
    Prod.snd_sub]
  ring

theorem equals_pythagoras_length (a b : Point) :
    Equals false (pythagoras a b a) (pythagoras b a b) := by
  intro ρ
  simp only [reading, Option.map_some, Option.some.injEq, sign, Bool.false_eq_true, if_false, Vec.dot,
    Prod.fst_sub, Prod.snd_sub]
  ring

theorem vanishes_area : (area a b c).Vanishes .empty ↔ a = b ∨ b = c ∨ a = c := by
  simp [Vanishes, Triples.has, Triples.empty]

/-- Areas of equal value are areas of the same triangle. -/
theorem perm_of_equals (hab : a ≠ b) (hbc : b ≠ c) (hac : a ≠ c)
    (h : Equals odd (area a b c) (area a' b' c')) : [a, b, c].Perm [a', b', c'] := by
  have hcanonical := canonical_of_equals h trivial trivial
  rw [canonical_area hab hbc hac] at hcanonical
  by_cases hzero : (area a' b' c').Vanishes .empty
  · rw [canonical_eq_zero_iff.mpr hzero] at hcanonical
    cases hcanonical
  · rw [vanishes_area, not_or, not_or] at hzero
    rw [canonical_area hzero.1 hzero.2.1 hzero.2.2] at hcanonical
    obtain ⟨hp, hq, hr⟩ := area.inj (Canonical.signed.inj hcanonical).1
    exact (sortThree_eq_iff_perm (nodup_three.mpr ⟨hab, hbc, hac⟩)).mp
      (Prod.ext hp (Prod.ext hq hr))

/-- Pythagoras differences with the same middle point and the same last point. -/
theorem not_equals_pythagoras (hab : a ≠ b) (hac : a ≠ c) (hbc : b ≠ c) (hcd : c ≠ d) :
    ¬ Equals odd (pythagoras a c d) (pythagoras b c d) := by
  -- one of the first points is not the last one, and can be moved to the middle
  have hmoved : ∀ {a b : Point} {odd : Bool}, a ≠ b → a ≠ c → b ≠ c → b ≠ d →
      ¬ Equals odd (pythagoras a c d) (pythagoras b c d) := by
    intro a b odd hab hac hbc hbd h
    have hread : reading (Function.update (apart c) b (apart c c)) (pythagoras a c d) = some 2 := by
      rw [← reading_pythagoras_apart hac hcd]
      refine reading_congr fun p hp => Function.update_of_ne ?_ _ _
      simp only [points, List.mem_cons, List.not_mem_nil, or_false] at hp
      rcases hp with rfl | rfl | rfl
      · exact hab
      · exact hbc.symm
      · exact hbd.symm
    exact h.reading_ne_zero hread two_ne_zero (reading_pythagoras_eq_zero (.inl (update_onto hbc)))
  intro h
  by_cases hbd : b = d
  · exact hmoved hab.symm hbc hac (fun had => hab (had.trans hbd.symm)) h.symm
  · exact hmoved hab hac hbc hbd h

/-- Lengths of different segments. -/
theorem not_equals_length (hab : a ≠ b) (h : ¬ (a = c ∧ b = d)) (h' : ¬ (a = d ∧ b = c)) :
    ¬ Equals odd (pythagoras a b a) (pythagoras c d c) := by
  have hend : ∀ {a b : Point} {odd : Bool}, a ≠ b → b ≠ c → b ≠ d →
      ¬ Equals odd (pythagoras a b a) (pythagoras c d c) := by
    intro a b odd hab hbc hbd h
    have htogether : apart b c = apart b d := (apart_of_ne hbc.symm).trans (apart_of_ne hbd.symm).symm
    exact h.reading_ne_zero (reading_pythagoras_apart hab hab.symm) two_ne_zero
      (reading_pythagoras_eq_zero (.inl htogether))
  intro hequals
  by_cases hbc : b = c
  · refine hend hab.symm ?_ ?_ ((equals_pythagoras_length b a).trans hequals)
    · exact fun hac => hab (hac.trans hbc.symm)
    · exact fun had => h' ⟨had, hbc⟩
  · by_cases hbd : b = d
    · refine hend hab.symm ?_ ?_ ((equals_pythagoras_length b a).trans hequals)
      · exact fun hac => h ⟨hac, hbd⟩
      · exact fun had => hab (had.trans hbd.symm)
    · exact hend hab hbc hbd hequals

end Quantity

namespace Statement

open Quantity

theorem nodup_four {a b c d : Point} :
    [a, b, c, d].Nodup ↔ a ≠ b ∧ a ≠ c ∧ a ≠ d ∧ b ≠ c ∧ b ≠ d ∧ c ≠ d := by
  simp [and_assoc]

theorem compares_parallel (a b c d : Point) :
    (parallel a b c d).Compares (.area a c b) (.area a b d) false (¬ [a, b, c, d].Nodup) where
  unpacked := ⟨trivial, trivial⟩
  ratioFree := ⟨trivial, trivial⟩
  normalExpr := by
    rw [Canonical.withSign_false]
    exact normalExpr_of_sum rfl (Canonical.fixed_toExpr _) (Canonical.fixed_toExpr _)
      (Canonical.fixed_toExpr _) (Canonical.fixed_toExpr _)
  collapses h := by
    rw [vanishes_area, vanishes_area]
    by_cases hcd : c = d
    · rw [hcd]
      exact .inr (.inr (equals_area_last a b d))
    · rw [nodup_four] at h
      grind
  stays h := by
    obtain ⟨hab, hac, had, hbc, hbd, hcd⟩ := nodup_four.mp (not_not.mp h)
    refine ⟨by simp [vanishes_area, hab, hac, hbc.symm], by simp [vanishes_area, hab, hbd, had], ?_⟩
    intro odd hequals
    have hmem : c ∈ [a, b, d] := (perm_of_equals hac hbc.symm hab hequals).subset (by simp)
    simp [hac.symm, hbc.symm, hcd] at hmem

/-- The normal expression of a difference. -/
theorem normalExpr_of_difference {s : Statement} {q r : Quantity}
    (h : s.zeroExpr = .quantity q - .quantity r) :
    s.normalExpr = Canonical.plus (q.canonical .empty) ((r.canonical .empty).withSign true) := by
  have hneg : (Expr.neg (r.canonical .empty).toExpr).simplifyStep =
      .ok ((r.canonical .empty).withSign true).toExpr := by
    rw [Expr.simplifyStep, Canonical.fixed_toExpr, ← Canonical.negRule_toExpr]
    rfl
  exact normalExpr_of_sum (by rw [h]; rfl) (Canonical.fixed_toExpr _) hneg (Canonical.fixed_toExpr _)
    (Canonical.fixed_toExpr _)

theorem compares_perpendicular (a b c d : Point) :
    (perpendicular a b c d).Compares (.pythagoras a c d) (.pythagoras b c d) true
      (a = b ∨ c = d ∨ a = c ∨ b = c) where
  unpacked := ⟨trivial, trivial⟩
  ratioFree := ⟨trivial, trivial⟩
  normalExpr := normalExpr_of_difference rfl
  collapses h := by
    rcases h with rfl | hcd | hac | hbc
    · exact .inr (.inr (equals_refl _))
    · exact .inl (.inr hcd)
    · exact .inl (.inl hac)
    · exact .inr (.inl (.inl hbc))
  stays h := by
    obtain ⟨hab, hcd, hac, hbc⟩ := by simpa only [not_or] using h
    exact ⟨not_or.mpr ⟨hac, hcd⟩, not_or.mpr ⟨hbc, hcd⟩,
      fun _ => not_equals_pythagoras hab hac hbc hcd⟩

theorem compares_equalLength (a b c d : Point) :
    (equalLength a b c d).Compares (.pythagoras a b a) (.pythagoras c d c) true
      (a = b ∨ c = d ∨ a = c ∧ b = d ∨ a = d ∧ b = c) where
  unpacked := ⟨trivial, trivial⟩
  ratioFree := ⟨trivial, trivial⟩
  normalExpr := normalExpr_of_difference rfl
  collapses h := by
    rcases h with hab | hcd | ⟨rfl, rfl⟩ | ⟨rfl, rfl⟩
    · exact .inl (.inl hab)
    · exact .inr (.inl (.inl hcd))
    · exact .inr (.inr (equals_refl _))
    · exact .inr (.inr (equals_pythagoras_length b a))
  stays h := by
    obtain ⟨hab, hcd, hsame, hcross⟩ := by simpa only [not_or] using h
    exact ⟨not_or.mpr ⟨hab, Ne.symm hab⟩, not_or.mpr ⟨hcd, Ne.symm hcd⟩,
      fun _ => not_equals_length hab hsame hcross⟩

/-! ### Moves of points -/

variable {a b c a' b' c' : Point}

theorem normalExpr_collinear (a b c : Point) :
    (collinear a b c).normalExpr = ((Quantity.area a b c).canonical .empty).toExpr :=
  normalExpr_of_simplify (Expr.simplify_of_fixed (Canonical.fixed_toExpr _))

theorem key_collinear_of_perm (h : [a, b, c].Perm [a', b', c']) :
    (collinear a b c).key = (collinear a' b' c').key := by
  rw [key_eq_text_bare, key_eq_text_bare, normalExpr_collinear, normalExpr_collinear]
  by_cases hnodup : [a, b, c].Nodup
  · obtain ⟨hab, hbc, hac⟩ := nodup_three.mp hnodup
    obtain ⟨hab', hbc', hac'⟩ := nodup_three.mp (h.nodup_iff.mp hnodup)
    rw [canonical_area hab hbc hac, canonical_area hab' hbc' hac',
      (sortThree_eq_iff_perm hnodup).mpr h, Canonical.toExpr_signed, Canonical.toExpr_signed,
      Expr.bare_signed _ rfl, Expr.bare_signed _ rfl]
  · have hzero : ∀ {a b c : Point}, ¬ [a, b, c].Nodup → (area a b c).canonical .empty = .zero := by
      intro a b c h
      rw [nodup_three] at h
      rw [canonical_eq_zero_iff, vanishes_area]
      tauto
    rw [hzero hnodup, hzero (h.nodup_iff.not.mp hnodup)]

theorem saysUpTo_parallel (a b c d : Point) :
    (parallel a b c d).SaysUpTo true (parallel b a c d) ∧
      (parallel a b c d).SaysUpTo true (parallel a b d c) ∧
      (parallel a b c d).SaysUpTo true (parallel c d a b) := by
  have h := fun ρ : Coordinates => value_area4 (ρ := ρ) a c b d
  refine ⟨fun ρ => ⟨_, h ρ, (value_area4 b c a d).trans (congrArg some ?_)⟩,
    fun ρ => ⟨_, h ρ, (value_area4 a d b c).trans (congrArg some ?_)⟩,
    fun ρ => ⟨_, h ρ, (value_area4 c a d b).trans (congrArg some ?_)⟩⟩ <;>
  · simp only [sign, if_true, Vec.cross, Prod.fst_sub, Prod.snd_sub]
    ring

theorem saysUpTo_perpendicular (a b c d : Point) :
    (perpendicular a b c d).SaysUpTo true (perpendicular b a c d) ∧
      (perpendicular a b c d).SaysUpTo true (perpendicular a b d c) ∧
      (perpendicular a b c d).SaysUpTo false (perpendicular c d a b) := by
  have h := fun ρ : Coordinates => value_pythagoras4 (ρ := ρ) a c b d
  refine ⟨fun ρ => ⟨_, h ρ, (value_pythagoras4 b c a d).trans (congrArg some ?_)⟩,
    fun ρ => ⟨_, h ρ, (value_pythagoras4 a d b c).trans (congrArg some ?_)⟩,
    fun ρ => ⟨_, h ρ, (value_pythagoras4 c a d b).trans (congrArg some ?_)⟩⟩ <;>
  · simp only [sign, if_true, Bool.false_eq_true, if_false, Vec.dot, Prod.fst_sub, Prod.snd_sub]
    ring

theorem saysUpTo_equalLength (a b c d : Point) :
    (equalLength a b c d).SaysUpTo true (equalLength c d a b) := by
  intro ρ
  refine ⟨_, Expr.value_sub (value_pythagoras a b a) (value_pythagoras c d c),
    (Expr.value_sub (value_pythagoras c d c) (value_pythagoras a b a)).trans (congrArg some ?_)⟩
  simp only [sign, if_true]
  ring

theorem SameKeyIff.congr {s s' : Statement} {P Q : Prop} (h : s.SameKeyIff s' P) (hPQ : P ↔ Q) :
    s.SameKeyIff s' Q :=
  ⟨fun hQ => h.same (hPQ.mpr hQ), fun hs hs' hkey => hPQ.mp (h.only hs hs' hkey)⟩

/-- With the first two points swapped, both areas change their signs. -/
theorem sameKeyIff_parallel_swap (a b c d : Point) :
    (parallel a b c d).SameKeyIff (parallel b a c d)
      (¬ [a, b, c, d].Nodup ∨ a.between b c ≠ a.between b d) := by
  have hleft := compares_parallel a b c d
  have hright := compares_parallel b a c d
  refine .of_bare ?_
  by_cases hnodup : [a, b, c, d].Nodup
  · rw [or_iff_right (not_not.mpr hnodup)]
    obtain ⟨x, y, o, o', hx, hy, hxy⟩ := hleft.exists_signed (not_not.mpr hnodup)
    obtain ⟨hab, hac, had, hbc, hbd, -⟩ := nodup_four.mp hnodup
    have hfirst : (area b c a).canonical .empty = ((area a c b).canonical .empty).withSign true :=
      canonical_of_equals (((equals_area_last b c a).trans (equals_area_first b a c)).trans
        (equals_area_last a b c)) trivial trivial
    have hlast : (area b a d).canonical .empty = ((area a b d).canonical .empty).withSign true :=
      canonical_of_equals (equals_area_first b a d) trivial trivial
    have ho : o = !(b.before a ^^ a.between b c) := by
      have hturned := canonical_of_equals (equals_area_last a c b) trivial trivial
      rw [hx, canonical_area hab hbc hac, odd_sortThree hab hbc hac] at hturned
      exact (Canonical.signed.inj hturned).2.trans (Bool.true_xor _)
    have ho' : o' = (b.before a ^^ a.between b d) := by
      rw [canonical_area hab hbd had, odd_sortThree hab hbd had] at hy
      exact (Canonical.signed.inj hy).2.symm
    rw [hleft.normalExpr, hright.normalExpr, hfirst, hlast, hx, hy, Canonical.withSign_false,
      Canonical.withSign_false, eq_comm, Canonical.bare_neg_plus hxy, ho, ho']
    cases b.before a <;> cases a.between b c <;> cases a.between b d <;> decide
  · refine iff_of_true (hleft.bare_eq hright (saysUpTo_parallel a b c d).1 hnodup ?_) (.inl hnodup)
    exact (List.Perm.swap b a [c, d]).nodup_iff.not.mp hnodup

theorem sameKeyIff_parallel (a b c d : Point) :
    (parallel a b c d).SameKeyIff (parallel a b d c) (¬ [a, b, c, d].Nodup) ∧
      (parallel a b c d).SameKeyIff (parallel c d a b) (¬ [a, b, c, d].Nodup) := by
  obtain ⟨-, hlast, hpairs⟩ := saysUpTo_parallel a b c d
  have hperm : [a, b, c, d].Perm [a, b, d, c] := ((List.Perm.swap d c []).cons b).cons a
  have hperm' : [a, b, c, d].Perm [c, d, a, b] := @List.perm_append_comm _ [a, b] [c, d]
  constructor
  · refine ((compares_parallel a b c d).sameKeyIff (compares_parallel a b d c) hlast ?_).congr ?_
    · intro h _ o hequals
      obtain ⟨hab, hac, had, hbc, hbd, hcd⟩ := nodup_four.mp (not_not.mp h)
      have hmem : c ∈ [a, d, b] := (perm_of_equals hac hbc.symm hab hequals).subset (by simp)
      simp [hac.symm, hbc.symm, hcd] at hmem
    · rw [← hperm.nodup_iff, and_self_iff]
  · refine ((compares_parallel a b c d).sameKeyIff (compares_parallel c d a b) hpairs ?_).congr ?_
    · intro h _ o hequals
      obtain ⟨hab, hac, had, hbc, hbd, hcd⟩ := nodup_four.mp (not_not.mp h)
      have hmem : b ∈ [c, a, d] := (perm_of_equals hac hbc.symm hab hequals).subset (by simp)
      simp [hab.symm, hbc, hbd] at hmem
    · rw [← hperm'.nodup_iff, and_self_iff]

theorem sameKeyIff_perpendicular (a b c d : Point) :
    (perpendicular a b c d).SameKeyIff (perpendicular b a c d) (a = b ∨ c = d ∨ a = c ∨ b = c) ∧
      (perpendicular a b c d).SameKeyIff (perpendicular a b d c)
        (a = b ∨ c = d ∨ a = c ∧ b = d ∨ a = d ∧ b = c) ∧
      (perpendicular a b c d).SameKeyIff (perpendicular c d a b)
        (a = b ∨ c = d ∨ a = c ∨ a = d ∧ b = c) := by
  have hcompares := compares_perpendicular a b c d
  obtain ⟨hfirst, hlast, hpairs⟩ := saysUpTo_perpendicular a b c d
  refine ⟨?_, ?_, ?_⟩
  · refine (hcompares.sameKeyIff (compares_perpendicular b a c d) hfirst ?_).congr (by grind)
    exact fun h _ => (hcompares.stays h).2.2
  · refine (hcompares.sameKeyIff (compares_perpendicular a b d c) hlast ?_).congr (by grind)
    intro h h' o hequals
    obtain ⟨-, hcd, hac, -⟩ := by simpa only [not_or] using h
    -- with all points but `c` in one place, only the first of the two has a value
    refine hequals.reading_ne_zero (reading_pythagoras_apart hac hcd) two_ne_zero
      (reading_pythagoras_eq_zero (.inl ?_))
    exact (apart_of_ne hac).trans (apart_of_ne (Ne.symm hcd)).symm
  · refine (hcompares.sameKeyIff (compares_perpendicular c d a b) hpairs ?_).congr (by grind)
    intro h h' o hequals
    obtain ⟨-, hcd, hac, hbc⟩ := by simpa only [not_or] using h
    refine hequals.reading_ne_zero (reading_pythagoras_apart hac hcd) two_ne_zero
      (reading_pythagoras_eq_zero (.inr ?_))
    exact (apart_of_ne hbc).trans (apart_of_ne hac).symm

theorem sameKeyIff_equalLength (a b c d : Point) :
    (equalLength a b c d).key = (equalLength b a c d).key ∧
      (equalLength a b c d).key = (equalLength a b d c).key ∧
      (equalLength a b c d).SameKeyIff (equalLength c d a b)
        (a = b ∨ c = d ∨ a = c ∧ b = d ∨ a = d ∧ b = c) := by
  have hcompares := compares_equalLength a b c d
  have hlength : ∀ p q : Point,
      (pythagoras p q p).canonical .empty = (pythagoras q p q).canonical .empty := by
    intro p q
    have h := canonical_of_equals (equals_pythagoras_length p q) trivial trivial
    rwa [Canonical.withSign_false] at h
  refine ⟨?_, ?_, ?_⟩
  · rw [key_eq_text_bare, key_eq_text_bare, hcompares.normalExpr, hlength a b,
      (compares_equalLength b a c d).normalExpr]
  · rw [key_eq_text_bare, key_eq_text_bare, hcompares.normalExpr, hlength c d,
      (compares_equalLength a b d c).normalExpr]
  · have hsays := saysUpTo_equalLength a b c d
    refine (hcompares.sameKeyIff (compares_equalLength c d a b) hsays ?_).congr (by grind)
    exact fun h _ => (hcompares.stays h).2.2

/-- **Keys and the order of points.** Collinear points can be permuted, and the ends of the
segments in a comparison of lengths can be swapped. The other moves keep the key just
under the conditions stated, most of which say that points coincide. For parallels, the
ends of the first segment can be swapped also if the label of one of the other two points
is between theirs and that of the other is not. For an equation the condition is on what
its sides come to; if a side divides by zero, then the sides must be the same to begin
with, or cancel before that. -/
theorem key_symmetries (a b c d : Point) (l r : Expr) :
    (∀ {a' b' c' : Point}, [a, b, c].Perm [a', b', c'] →
      (collinear a b c).key = (collinear a' b' c').key) ∧
    ((parallel a b c d).SameKeyIff (parallel b a c d)
        (¬ [a, b, c, d].Nodup ∨ a.between b c ≠ a.between b d) ∧
      (parallel a b c d).SameKeyIff (parallel a b d c) (¬ [a, b, c, d].Nodup) ∧
      (parallel a b c d).SameKeyIff (parallel c d a b) (¬ [a, b, c, d].Nodup)) ∧
    ((perpendicular a b c d).SameKeyIff (perpendicular b a c d) (a = b ∨ c = d ∨ a = c ∨ b = c) ∧
      (perpendicular a b c d).SameKeyIff (perpendicular a b d c)
        (a = b ∨ c = d ∨ a = c ∧ b = d ∨ a = d ∧ b = c) ∧
      (perpendicular a b c d).SameKeyIff (perpendicular c d a b)
        (a = b ∨ c = d ∨ a = c ∨ a = d ∧ b = c)) ∧
    ((equalLength a b c d).key = (equalLength b a c d).key ∧
      (equalLength a b c d).key = (equalLength a b d c).key ∧
      (equalLength a b c d).SameKeyIff (equalLength c d a b)
        (a = b ∨ c = d ∨ a = c ∧ b = d ∨ a = d ∧ b = c)) ∧
    (∀ {x y : Expr}, (l.canonical .empty).simplify = .ok x → (r.canonical .empty).simplify = .ok y →
      (equal l r).SameKeyIff (equal r l) (x.Interchangeable y)) ∧
    (¬ ((l.canonical .empty).Simplifies ∧ (r.canonical .empty).Simplifies) →
      (equal l r).SameKeyIff (equal r l) (l.canonical .empty = r.canonical .empty ∨
        ((equal l r).zeroExpr.canonical .empty).Simplifies ∧
        ((equal r l).zeroExpr.canonical .empty).Simplifies)) :=
  ⟨key_collinear_of_perm, ⟨sameKeyIff_parallel_swap a b c d, sameKeyIff_parallel a b c d⟩,
    sameKeyIff_perpendicular a b c d, sameKeyIff_equalLength a b c d, sameKeyIff_equal,
    sameKeyIff_equal_of_fault⟩

end Statement

namespace FourPoints

open Letters

theorem readable_area : (Expr.area a b c).Readable := by
  change ∀ p ∈ [a, b, c], p.OneWord
  decide

end FourPoints

open FourPoints Letters in
theorem Statement.key_symmetries_of_labels :
    ([a, b, c].Perm [b, c, a] ∧ (collinear a b c).key = (collinear b c a).key) ∧
      (a.between c b ≠ a.between c d ∧ (parallel a c b d).key = (parallel c a b d).key) ∧
      (perpendicular a b a c).key = (perpendicular a c a b).key ∧
      (equalLength a b c d).key = (equalLength b a c d).key ∧
      (equal (.area a b c) (.area b a c)).key = (equal (.area b a c) (.area a b c)).key ∧
      (equal (1 / 0) (.area a b c)).key ≠ (equal (.area a b c) (1 / 0)).key := by
  have hperm : [a, b, c].Perm [b, c, a] := by decide
  have hbetween : a.between c b ≠ a.between c d := by decide
  obtain ⟨hcollinear, -, -, ⟨hlength, -, -⟩, hequal, -⟩ :=
    key_symmetries a b c d (.area a b c) (.area b a c)
  obtain ⟨-, ⟨hparallel, -, -⟩, -, -, -, hfault⟩ := key_symmetries a c b d (1 / 0) (.area a b c)
  obtain ⟨-, -, ⟨-, -, hperpendicular⟩, -, -, -⟩ := key_symmetries a b a c 0 0
  refine ⟨⟨hperm, hcollinear hperm⟩, ⟨hbetween, hparallel.same (.inr hbetween)⟩,
    hperpendicular.same (.inr (.inr (.inl rfl))), hlength, ?_, ?_⟩
  · have hl : (Expr.canonical .empty (.area a b c)).simplify = .ok (.area a b c) :=
      Expr.simplify_of_fixed rfl
    have hr : (Expr.canonical .empty (.area b a c)).simplify = .ok (.neg (.area a b c)) :=
      Expr.simplify_of_fixed rfl
    refine (hequal hl hr).same ⟨?_, ?_⟩
    · intro r s hr
      cases hr
    · exact fun _ => .inr (.inr (.inr rfl))
  · have hiff := hfault fun hsides => Expr.not_simplifies_of_error rfl hsides.1
    intro hkey
    rcases hiff.only ⟨⟨trivial, trivial⟩, readable_area⟩ ⟨readable_area, trivial, trivial⟩ hkey
      with hsame | hdifference
    · cases hsame
    · exact Expr.not_simplifies_of_error rfl hdifference.1

open FourPoints Letters in
/-- **Keys tell orders apart.** For four points in the order of their labels, the key of
each statement about four points changes with a move that keeps what the statement says. -/
theorem Statement.key_of_moved_points :
    (parallel a b c d).key ≠ (parallel b a c d).key ∧
      (perpendicular a b c d).key ≠ (perpendicular a b d c).key ∧
      (equalLength a b c d).key ≠ (equalLength c d a b).key ∧
      (equal (.area a b c) (.area a b d)).key ≠ (equal (.area a b d) (.area a b c)).key := by
  refine ⟨?_, ?_, ?_, ?_⟩
  · rw [key_eq_text_bare, key_eq_text_bare, (compares_parallel a b c d).normalExpr,
      (compares_parallel b a c d).normalExpr]
    decide
  · rw [key_eq_text_bare, key_eq_text_bare, (compares_perpendicular a b c d).normalExpr,
      (compares_perpendicular a b d c).normalExpr]
    decide
  · rw [key_eq_text_bare, key_eq_text_bare, (compares_equalLength a b c d).normalExpr,
      (compares_equalLength c d a b).normalExpr]
    decide
  · rw [key_eq_text_bare, key_eq_text_bare,
      normalExpr_of_difference (q := .area a b c) (r := .area a b d) rfl,
      normalExpr_of_difference (q := .area a b d) (r := .area a b c) rfl]
    decide

end AreaMethod
