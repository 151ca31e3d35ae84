import Mathlib.Data.List.Sort
import Mathlib.Data.List.Nodup

/-!
# Searching and sorting slices

`search` is the binary search of `sort.Search`, run on a fixed number of rounds that always
suffices; on a monotone predicate it returns the first index that satisfies it (`search_spec`).

`sort.Slice` is not stable: which of two equivalent elements comes first is not specified.
`SliceSort` is any function with the documented behaviour, a permutation of its argument that is in
order, and results are proved for every such function. `insertionSlice` is one.
-/

set_option autoImplicit false

namespace Hapartition.Lib

/-! ## Binary search -/

/-- The loop of `sort.Search` on `[i, j)`. -/
def searchLoop (f : Nat → Bool) : Nat → Nat → Nat → Nat
  | 0, i, _ => i
  | fuel + 1, i, j =>
      if i < j then
        if f ((i + j) / 2) then searchLoop f fuel i ((i + j) / 2)
        else searchLoop f fuel ((i + j) / 2 + 1) j
      else i

/-- `sort.Search(n, f)`. -/
def search (n : Nat) (f : Nat → Bool) : Nat := searchLoop f n 0 n

/-- Rounds bound the length of the interval, everything below it fails `f` and everything from its
end on satisfies it. -/
theorem searchLoop_spec {f : Nat → Bool} {n : Nat}
    (hmono : ∀ i j, i ≤ j → j < n → f i = true → f j = true) :
    ∀ fuel i j, i ≤ j → j ≤ n → j - i ≤ fuel → (∀ k, k < i → f k = false) →
      (∀ k, j ≤ k → k < n → f k = true) →
        searchLoop f fuel i j ≤ n ∧ (∀ k, k < searchLoop f fuel i j → f k = false) ∧
          ∀ k, searchLoop f fuel i j ≤ k → k < n → f k = true := by
  intro fuel
  -- on the rounds; the two bounds on `f` are the invariant of the loop
  induction fuel with
  | zero =>
      intro i j hij hjn hfuel hlo hhi
      have : i = j := by omega
      subst this
      exact ⟨hjn, hlo, hhi⟩
  | succ fuel ih =>
      intro i j hij hjn hfuel hlo hhi
      rw [searchLoop]
      by_cases hlt : i < j
      · rw [if_pos hlt]
        cases hm : f ((i + j) / 2) with
        | true =>
            -- the first hit is at the middle or to its left
            rw [if_pos rfl]
            apply ih i _ (by omega) (by omega) (by omega) hlo
            intro k hk hkn
            exact hmono _ k hk hkn hm
        | false =>
            -- nothing up to the middle is a hit, or the middle would be one by monotonicity
            rw [if_neg Bool.false_ne_true]
            refine ih _ j (by omega) hjn (by omega) (fun k hk => ?_) hhi
            apply Bool.eq_false_iff.2
            intro hk'
            rw [hmono k _ (by omega) (by omega) hk'] at hm
            exact Bool.noConfusion hm
      · rw [if_neg hlt]
        have : i = j := by omega
        subst this
        exact ⟨hjn, hlo, hhi⟩

/-- On a monotone predicate, the search returns the first index that satisfies it. -/
theorem search_spec {f : Nat → Bool} {n : Nat}
    (hmono : ∀ i j, i ≤ j → j < n → f i = true → f j = true) :
    search n f ≤ n ∧ (∀ k, k < search n f → f k = false) ∧
      ∀ k, search n f ≤ k → k < n → f k = true :=
  searchLoop_spec hmono n 0 n (Nat.zero_le n) (Nat.le_refl n) (Nat.le_refl n)
    (fun k hk => absurd hk (Nat.not_lt_zero k)) fun _ hk hkn => absurd hk (Nat.not_le.2 hkn)

/-! ## Sorting -/

/-- A function with the documented behaviour of `sort.Slice` for comparisons by a key in a linear
order. -/
structure SliceSort where
  sort : {α κ : Type} → [LinearOrder κ] → (α → κ) → List α → List α
  perm : ∀ {α κ : Type} [LinearOrder κ] (key : α → κ) (l : List α), (sort key l).Perm l
  sorted : ∀ {α κ : Type} [LinearOrder κ] (key : α → κ) (l : List α),
    (sort key l).Pairwise fun a b => key a ≤ key b

/-- Insertion sort meets the specification. -/
def insertionSlice : SliceSort where
  sort key l := l.insertionSort fun a b => key a ≤ key b
  perm key l := l.perm_insertionSort _
  sorted key l := by
    have : Std.Total fun a b => key a ≤ key b := ⟨fun a b => le_total (key a) (key b)⟩
    have : IsTrans _ fun a b => key a ≤ key b := ⟨fun _ _ _ => le_trans⟩
    exact l.pairwise_insertionSort _

namespace SliceSort

variable {α κ : Type} [LinearOrder κ] (S : SliceSort) (key : α → κ)

/-- With distinct keys the sorted list is determined: two permutations sort to one list. -/
theorem eq_of_perm {l l' m m' : List α} (hl : m.Perm l) (hl' : m'.Perm l') (hp : l.Perm l')
    (hm : m.Pairwise fun a b => key a ≤ key b) (hm' : m'.Pairwise fun a b => key a ≤ key b)
    (hinj : ∀ a ∈ l, ∀ b ∈ l, key a = key b → a = b) : m = m' := by
  have hmm' : m.Perm m' := hl.trans (hp.trans hl'.symm)
  refine hmm'.eq_of_pairwise (fun a b ha hb hab hba => ?_) hm hm'
  exact hinj a (hl.mem_iff.1 ha) b (hl.mem_iff.1 (hmm'.mem_iff.2 hb)) (le_antisymm hab hba)

/-- A list in strict order of its keys is left as it is. -/
theorem sort_of_pairwise_lt {l : List α} (h : l.Pairwise fun a b => key a < key b) :
    S.sort key l = l := by
  have hnodup : (l.map key).Nodup := List.Pairwise.map key (fun _ _ hlt => ne_of_lt hlt) h
  exact eq_of_perm key (S.perm key l) (.refl l) (.refl l) (S.sorted key l)
    (h.imp fun hlt => le_of_lt hlt) fun a ha b hb => List.inj_on_of_nodup_map hnodup ha hb

end SliceSort

/-- A list in strict order of its keys is determined by its elements. -/
theorem eq_of_pairwise_lt {α κ : Type} [LinearOrder κ] (key : α → κ) {l m : List α}
    (hl : l.Pairwise fun a b => key a < key b) (hm : m.Pairwise fun a b => key a < key b)
    (hmem : ∀ x, x ∈ l ↔ x ∈ m) : l = m := by
  have hne : ∀ {a b : α}, key a < key b → a ≠ b := by
    rintro a _ hlt rfl
    exact lt_irrefl _ hlt
  have hperm : l.Perm m := (List.perm_ext_iff_of_nodup (hl.imp hne) (hm.imp hne)).2 hmem
  refine hperm.eq_of_pairwise (fun a b _ _ hab hba => ?_) hl hm
  exact absurd hba (lt_asymm hab)

end Hapartition.Lib
