/-
# Integer functions with finite support

A `Sparse κ` is a function from the keys `κ` to the integers that is zero
outside finitely many keys. It is stored as its non-zero values in ascending
order of the keys, and both facts are part of the type, so two sparse
functions with the same values are the same term.

Products of quantities (keys: quantities, values: exponents) and polynomials
(keys: such products, values: coefficients) are both of this kind: multiplying
products and adding polynomials is `Sparse.add`.

Key definitions: `Sparse`, `Sparse.get`, `Sparse.single`, `Sparse.add`,
`Sparse.mapValues`, `Sparse.sumMap`.
-/

namespace AreaMethod

/-- The keys of the entries are strictly ascending. -/
abbrev Ascending {κ : Type} [Ord κ] (entries : List (κ × Int)) : Prop :=
  entries.Pairwise fun x y => compare x.1 y.1 = .lt

/-- A function from `κ` to the integers that is zero outside finitely many
keys, as the ascending list of its non-zero values. -/
structure Sparse (κ : Type) [Ord κ] where
  entries : List (κ × Int)
  ascending : Ascending entries
  nonzero : ∀ x ∈ entries, x.2 ≠ 0
deriving DecidableEq

namespace Sparse

variable {κ : Type} [Ord κ]

/-! ### Values -/

/-- The value that a list of entries gives to a key: that of its first entry
with the key, or zero. -/
def valueIn (k : κ) : List (κ × Int) → Int
  | [] => 0
  | (l, b) :: rest => if compare k l = .eq then b else valueIn k rest

/-- The value at a key. -/
def get (f : Sparse κ) (k : κ) : Int := valueIn k f.entries

/-- Number of keys with a non-zero value. -/
def size (f : Sparse κ) : Nat := f.entries.length

/-- The function that is zero everywhere. -/
def zero : Sparse κ := ⟨[], .nil, by simp⟩

instance : Inhabited (Sparse κ) := ⟨zero⟩

/-- Zero everywhere. -/
def isZero (f : Sparse κ) : Bool := f.entries.isEmpty

/-- The function with the value `n` at `k` and zero elsewhere. -/
def single (k : κ) (n : Int) : Sparse κ :=
  if h : n = 0 then zero else ⟨[(k, n)], by simp, by simpa using h⟩

/-- Applies `g` to every non-zero value; values that become zero disappear. -/
def mapValues (g : Int → Int) (f : Sparse κ) : Sparse κ where
  entries := (f.entries.map fun x => (x.1, g x.2)).filter fun x => x.2 ≠ 0
  ascending := (List.pairwise_map.mpr f.ascending).filter _
  nonzero x hx := by simpa using (List.mem_filter.mp hx).2

/-! ### Addition -/

/-- One round of `merge`: places the entry `(k, a)`, whose followers are `xs`,
among the entries of a second list; `rest` merges `xs` with what is left. -/
def mergeEntry (k : κ) (a : Int) (xs : List (κ × Int))
    (rest : List (κ × Int) → List (κ × Int)) : List (κ × Int) → List (κ × Int)
  | [] => (k, a) :: xs
  | (l, b) :: ys =>
    match compare k l with
    | .lt => (k, a) :: rest ((l, b) :: ys)
    | .eq => if a + b = 0 then rest ys else (k, a + b) :: rest ys
    | .gt => (l, b) :: mergeEntry k a xs rest ys

/-- Merges two ascending lists of entries. Values at a common key are added,
and the entry is dropped when they cancel. -/
def merge : List (κ × Int) → List (κ × Int) → List (κ × Int)
  | [], ys => ys
  | (k, a) :: xs, ys => mergeEntry k a xs (merge xs) ys

@[simp]
theorem merge_nil_left (ys : List (κ × Int)) : merge [] ys = ys := rfl

@[simp]
theorem merge_nil_right (xs : List (κ × Int)) : merge xs [] = xs := by
  cases xs <;> rfl

theorem merge_cons_cons (k l : κ) (a b : Int) (xs ys : List (κ × Int)) :
    merge ((k, a) :: xs) ((l, b) :: ys) =
      match compare k l with
      | .lt => (k, a) :: merge xs ((l, b) :: ys)
      | .eq => if a + b = 0 then merge xs ys else (k, a + b) :: merge xs ys
      | .gt => (l, b) :: merge ((k, a) :: xs) ys := rfl

/-- What holds of all entries of two lists, and of a sum of two values under
one key, holds of all entries of their merge. -/
theorem forall_mem_merge {P : κ × Int → Prop}
    (hP : ∀ k a b, P (k, a) → a + b ≠ 0 → P (k, a + b)) :
    ∀ xs ys : List (κ × Int), (∀ x ∈ xs, P x) → (∀ y ∈ ys, P y) → ∀ z ∈ merge xs ys, P z
  | [], ys, _, hy => by simpa using hy
  | (k, a) :: xs, [], hx, _ => by simpa using hx
  | (k, a) :: xs, (l, b) :: ys, hx, hy => by
    have hx' : ∀ x ∈ xs, P x := fun x h => hx x (.tail _ h)
    have hy' : ∀ y ∈ ys, P y := fun y h => hy y (.tail _ h)
    rw [merge_cons_cons]
    split
    · exact List.forall_mem_cons.mpr ⟨hx _ (.head _), forall_mem_merge hP xs _ hx' hy⟩
    · split
      · exact forall_mem_merge hP xs ys hx' hy'
      · exact List.forall_mem_cons.mpr
          ⟨hP k a b (hx _ (.head _)) ‹_›, forall_mem_merge hP xs ys hx' hy'⟩
    · exact List.forall_mem_cons.mpr ⟨hy _ (.head _), forall_mem_merge hP _ ys hx hy'⟩

theorem ascending_merge [Std.TransOrd κ] [Std.LawfulEqOrd κ] :
    ∀ xs ys : List (κ × Int), Ascending xs → Ascending ys → Ascending (merge xs ys)
  | [], ys, _, hy => by simpa using hy
  | (k, a) :: xs, [], hx, _ => by simpa using hx
  | (k, a) :: xs, (l, b) :: ys, hx, hy => by
    obtain ⟨hkx, hx'⟩ := List.pairwise_cons.mp hx
    obtain ⟨hly, hy'⟩ := List.pairwise_cons.mp hy
    rw [merge_cons_cons]
    split
    next h =>
      refine List.pairwise_cons.mpr ⟨?_, ascending_merge xs _ hx' hy⟩
      exact forall_mem_merge (P := fun x => compare k x.1 = .lt) (fun _ _ _ h _ => h) xs _ hkx
        (List.forall_mem_cons.mpr ⟨h, fun y hm => Std.TransCmp.lt_trans h (hly y hm)⟩)
    next h =>
      split
      · exact ascending_merge xs ys hx' hy'
      · obtain rfl := Std.LawfulEqOrd.eq_of_compare h
        exact List.pairwise_cons.mpr
          ⟨forall_mem_merge (P := fun x => compare k x.1 = .lt) (fun _ _ _ h _ => h) xs ys hkx hly,
            ascending_merge xs ys hx' hy'⟩
    next h =>
      have h' : compare l k = .lt := Std.OrientedCmp.lt_of_gt h
      refine List.pairwise_cons.mpr ⟨?_, ascending_merge _ ys hx hy'⟩
      exact forall_mem_merge (P := fun x => compare l x.1 = .lt) (fun _ _ _ h _ => h) _ ys
        (List.forall_mem_cons.mpr ⟨h', fun x hm => Std.TransCmp.lt_trans h' (hkx x hm)⟩) hly

/-- Adds two functions value by value. -/
def add [Std.TransOrd κ] [Std.LawfulEqOrd κ] (f g : Sparse κ) : Sparse κ where
  entries := merge f.entries g.entries
  ascending := ascending_merge _ _ f.ascending g.ascending
  nonzero := forall_mem_merge (P := fun x => x.2 ≠ 0) (fun _ _ _ _ h => h) _ _ f.nonzero g.nonzero

instance [Std.TransOrd κ] [Std.LawfulEqOrd κ] : Add (Sparse κ) := ⟨add⟩

/-! ### Sums of many functions

A long sum is added up in the manner of a binary counter: the bin at place `i`
is empty or holds the sum of `2 ^ i` summands, and a new summand is carried
past the full bins. -/

/-- Carries a summand into the first empty bin. -/
def carry [Std.TransOrd κ] [Std.LawfulEqOrd κ] (f : Sparse κ) :
    List (Option (Sparse κ)) → List (Option (Sparse κ))
  | [] => [some f]
  | none :: bins => some f :: bins
  | some g :: bins => none :: carry (f + g) bins

/-- Adds up the bins, the small ones first, on top of `f`. -/
def collect [Std.TransOrd κ] [Std.LawfulEqOrd κ] (f : Sparse κ) :
    List (Option (Sparse κ)) → Sparse κ
  | [] => f
  | none :: bins => collect f bins
  | some g :: bins => collect (f + g) bins

/-- The sum of the functions `f x` for the members of a list. -/
def sumMap {α : Type} [Std.TransOrd κ] [Std.LawfulEqOrd κ] (f : α → Sparse κ) (xs : List α) :
    Sparse κ :=
  collect zero (xs.foldl (fun bins x => carry (f x) bins) [])

/-! ### Order

Functions are ordered lexicographically by their entries: first by key, then
by value; a function whose entries run out first comes first. -/

/-- The order of two entries. -/
def compareEntry : κ × Int → κ × Int → Ordering :=
  compareLex (compareOn Prod.fst) (compareOn Prod.snd)

instance : Ord (Sparse κ) := ⟨fun f g => List.compareLex compareEntry f.entries g.entries⟩

instance [Std.TransOrd κ] : Std.TransCmp (@compareEntry κ _) :=
  inferInstanceAs (Std.TransCmp (compareLex _ _))

instance [Std.LawfulEqOrd κ] : Std.LawfulEqCmp (@compareEntry κ _) where
  compare_self := by simp [compareEntry, compareLex, compareOn]
  eq_of_compare {x y} h := by
    simp only [compareEntry, compareLex_eq_eq, compareOn] at h
    exact Prod.ext (Std.LawfulEqOrd.eq_of_compare h.1) (Std.LawfulEqOrd.eq_of_compare h.2)

instance [Std.TransOrd κ] : Std.TransOrd (Sparse κ) where
  eq_swap {f g} := @Std.OrientedCmp.eq_swap _ (List.compareLex compareEntry) _ f.entries g.entries
  isLE_trans {f g h} :=
    @Std.TransCmp.isLE_trans _ (List.compareLex compareEntry) _ f.entries g.entries h.entries

instance [Std.LawfulEqOrd κ] : Std.LawfulEqOrd (Sparse κ) where
  compare_self {f} := @Std.ReflCmp.compare_self _ (List.compareLex compareEntry) _ f.entries
  eq_of_compare {f g} h := by
    have := @Std.LawfulEqCmp.eq_of_compare _ (List.compareLex compareEntry) _ _ _ h
    cases f; cases g; simp_all

end Sparse
end AreaMethod
