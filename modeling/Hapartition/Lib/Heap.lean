import Hapartition.Lib.Slices

/-!
# Complete trees in arrays

A binary tree with `N` leaves stored in `2 * N - 1` places: the children of place `i` are
`2 * i + 1` and `2 * i + 2`, the leaves are the last `N` places. Each inner place holds a
combination of its children.

- `IsHeap.eq_of_leaves`: the leaves determine the tree.
- `IsHeap.eq_of_root`: the root determines the tree, if the combination is injective where it is
  used.
- `IsHeap.root_eq_sum`: if the combination is a sum, the root is the sum of the leaves.
- `LeavesTo` and `FilledFrom` are the invariants of the two loops that fill such an array, over the
  leaves and then over the inner places from the last one down.
-/

set_option autoImplicit false

namespace Hapartition.Lib

universe u

variable {α : Type u} {N : Nat} {node : α → α → α} {v w : Nat → α}

/-- Every inner place holds the combination of its children. -/
def IsHeap (N : Nat) (node : α → α → α) (v : Nat → α) : Prop :=
  ∀ i, i + 1 < N → v i = node (v (2 * i + 1)) (v (2 * i + 2))

namespace IsHeap

theorem eq_of_leaves (hv : IsHeap N node v) (hw : IsHeap N node w)
    (hleaf : ∀ i < N, v (N - 1 + i) = w (N - 1 + i)) : ∀ j, j + 1 < 2 * N → v j = w j := by
  intro j
  -- on the distance from the end: the children are behind their parent
  induction hd : 2 * N - j using Nat.strong_induction_on generalizing j with
  | _ d ih =>
      intro hj
      by_cases hinner : j + 1 < N
      · rw [hv j hinner, hw j hinner, ih _ (by omega) (2 * j + 1) rfl (by omega),
          ih _ (by omega) (2 * j + 2) rfl (by omega)]
      · have hindex : N - 1 + (j - (N - 1)) = j := by omega
        rw [← hindex]
        exact hleaf _ (by omega)

theorem eq_of_root (hv : IsHeap N node v) (hw : IsHeap N node w)
    (hinj : ∀ i, i + 1 < N →
      node (v (2 * i + 1)) (v (2 * i + 2)) = node (w (2 * i + 1)) (w (2 * i + 2)) →
        v (2 * i + 1) = w (2 * i + 1) ∧ v (2 * i + 2) = w (2 * i + 2))
    (hroot : v 0 = w 0) : ∀ j, j + 1 < 2 * N → v j = w j := by
  intro j
  induction j using Nat.strong_induction_on with
  | _ j ih =>
      intro hj
      by_cases hzero : j = 0
      · rw [hzero]
        exact hroot
      · -- the parents are equal, so both children are
        have hparent := ih ((j - 1) / 2) (by omega) (by omega)
        rw [hv _ (by omega), hw _ (by omega)] at hparent
        obtain ⟨hleft, hright⟩ := hinj _ (by omega) hparent
        rcases Nat.mod_two_eq_zero_or_one (j - 1) with hk | hk
        · have hplace : 2 * ((j - 1) / 2) + 1 = j := by omega
          rwa [hplace] at hleft
        · have hplace : 2 * ((j - 1) / 2) + 2 = j := by omega
          rwa [hplace] at hright

/-- The places `m` to `2 * m` cut the tree below the root: going from `m` to `m + 1` replaces one
place by its children. -/
theorem root_eq_sum_cut [AddCommMonoid α] (hv : IsHeap N (· + ·) v) :
    ∀ m, m + 1 ≤ N → v 0 = ∑ i ∈ Finset.range (m + 1), v (m + i) := by
  intro m
  induction m with
  | zero => simp
  | succ m ih =>
      intro hm
      have hlast : m + 1 + m = 2 * m + 1 ∧ m + 1 + (m + 1) = 2 * m + 2 := by omega
      have hcommon : ∑ i ∈ Finset.range m, v (m + (i + 1)) =
          ∑ i ∈ Finset.range m, v (m + 1 + i) := by
        apply Finset.sum_congr rfl
        intro i _
        rw [Nat.add_comm i 1, ← Nat.add_assoc]
      rw [ih (by omega), Finset.sum_range_succ', Finset.sum_range_succ, Finset.sum_range_succ,
        hlast.1, hlast.2, Nat.add_zero, hv m (by omega), ← add_assoc, hcommon]

/-- The root of a tree of sums is the sum of the leaves. -/
theorem root_eq_sum [AddCommMonoid α] (hv : IsHeap N (· + ·) v) (hN : 0 < N) :
    v 0 = ∑ i ∈ Finset.range N, v (N - 1 + i) := by
  obtain ⟨m, rfl⟩ : ∃ m, N = m + 1 := ⟨N - 1, by omega⟩
  exact hv.root_eq_sum_cut m le_rfl

end IsHeap

/-! ## Filling an array -/

variable {leaf : Nat → α} {d : α} {i : Nat} {l : List α}

/-- The first `i` leaves are in place. -/
structure LeavesTo (N : Nat) (leaf : Nat → α) (d : α) (i : Nat) (l : List α) : Prop where
  length : l.length = 2 * N - 1
  leaf : ∀ j < i, l.getD (N - 1 + j) d = leaf j

/-- The leaves and the inner places from `i` on are in place. -/
structure FilledFrom (N : Nat) (node : α → α → α) (leaf : Nat → α) (d : α) (i : Nat) (l : List α) :
    Prop where
  length : l.length = 2 * N - 1
  leaf : ∀ j < N, l.getD (N - 1 + j) d = leaf j
  node : ∀ j, i ≤ j → j + 1 < N → l.getD j d = node (l.getD (2 * j + 1) d) (l.getD (2 * j + 2) d)

theorem LeavesTo.replicate : LeavesTo N leaf d 0 (List.replicate (2 * N - 1) d) where
  length := List.length_replicate
  leaf j hj := absurd hj (Nat.not_lt_zero j)

theorem LeavesTo.set (h : LeavesTo N leaf d i l) (hi : i < N) :
    LeavesTo N leaf d (i + 1) (l.set (N - 1 + i) (leaf i)) where
  length := by
    rw [List.length_set, h.length]
  leaf j hj := by
    have hplace : N - 1 + i < l.length := by
      rw [h.length]
      omega
    rw [getD_set hplace]
    by_cases hij : i = j
    · rw [if_pos (by omega), hij]
    · rw [if_neg (by omega)]
      exact h.leaf j (by omega)

theorem LeavesTo.filledFrom (h : LeavesTo N leaf d N l) : FilledFrom N node leaf d (N - 1) l where
  length := h.length
  leaf := h.leaf
  node j hj hN := by omega

theorem FilledFrom.set (h : FilledFrom N node leaf d (i + 1) l) (hi : i + 1 < N) :
    FilledFrom N node leaf d i (l.set i (node (l.getD (2 * i + 1) d) (l.getD (2 * i + 2) d))) where
  length := by
    rw [List.length_set, h.length]
  leaf j hj := by
    rw [getD_set (by rw [h.length]; omega), if_neg (by omega)]
    exact h.leaf j hj
  node j hj hN := by
    -- the children of a place come behind it, so the write does not touch them
    have hplace : i < l.length := by
      rw [h.length]
      omega
    rw [getD_set hplace, getD_set hplace, getD_set hplace]
    have hchildren : i ≠ 2 * j + 1 ∧ i ≠ 2 * j + 2 := by omega
    rw [if_neg hchildren.1, if_neg hchildren.2]
    by_cases hij : i = j
    · rw [if_pos hij, hij]
    · rw [if_neg hij]
      exact h.node j (by omega) hN

theorem FilledFrom.isHeap (h : FilledFrom N node leaf d 0 l) : IsHeap N node (l.getD · d) := by
  intro j hj
  exact h.node j (Nat.zero_le j) hj

end Hapartition.Lib
