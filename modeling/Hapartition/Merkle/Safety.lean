import Hapartition.Merkle.Build
import Hapartition.Merkle.RoundUp

/-!
# When `Build` is safe

The number of leaves comes from `roundUpPowerOfTwo`, which is wrong for some large numbers. The
width of a leaf is computed in wrapping arithmetic, and is zero if there is one leaf.
`build_safe_iff` says that these are the only two reasons for which `Build` can go wrong once its
slices can be allocated.
-/

set_option autoImplicit false

namespace Hapartition.Merkle

open Lib

/-! ## The number of leaves -/

theorem toInt_leafCount {n : Int64} {m : Nat} (hn : n.toInt = m + 1) :
    ∃ y, Spread 32 m y ∧ ((leafCount n).toInt = y + 1 ∨ y + 1 = 2 ^ 63 ∧ leafCount n = 64) := by
  obtain ⟨s, y, hround, hs, hspread⟩ := roundUpPowerOfTwo_eq hn
  refine ⟨y, hspread, ?_⟩
  have hlt := s.toInt_lt
  have hmaxValue : Int64.maxValue.toInt = 2 ^ 63 - 1 := by decide
  rw [leafCount, hround]
  by_cases hmax : y + 1 = 2 ^ 63
  · -- the successor of the greatest `int` is the least one
    refine .inr ⟨hmax, if_pos ?_⟩
    have hs' : s = Int64.maxValue := by
      apply Int64.toInt_inj.1
      rw [hs]
      omega
    rw [hs']
    decide
  · have hsucc : (s + 1).toInt = y + 1 := by
      rw [toInt_add_one (by omega), hs]
    rw [if_neg, hsucc]
    · exact .inl rfl
    · rw [Int64.le_iff_toInt_le, hsucc, Int64.toInt_zero]
      omega

theorem leafCount_of_nonpos {n : Int64} (hn : n ≤ 0) : leafCount n = 64 := by
  rw [leafCount, roundUpPowerOfTwo, if_pos hn]
  rfl

/-- The number of leaves is a power of two unless the bits of `n - 1` leave a gap. -/
theorem leafCount_isPowerOfTwo_iff {n : Int64} {N : Nat} (hN : (leafCount n).toInt = N) :
    N.isPowerOfTwo ↔ n ≤ 0 ∨ NoGap 32 (n - 1).toInt.toNat := by
  have hdefault : leafCount n = 64 → N = 64 := by
    intro h64
    rw [h64] at hN
    have hint : (64 : Int64).toInt = 64 := by decide
    omega
  by_cases hn : n ≤ 0
  · rw [hdefault (leafCount_of_nonpos hn)]
    exact ⟨fun _ => .inl hn, fun _ => ⟨6, rfl⟩⟩
  · have hpos := toInt_pos hn
    have hpred : (n - 1).toInt = ((n - 1).toInt.toNat : Nat) := by
      rw [toInt_sub_one (by omega)]
      omega
    obtain ⟨y, hspread, hcount⟩ := toInt_leafCount (n := n) (m := (n - 1).toInt.toNat) (by
      rw [← hpred, toInt_sub_one (by omega)]
      omega)
    rw [← hspread.isPowerOfTwo_iff (by decide)]
    rcases hcount with hcount | ⟨hmax, h64⟩
    · have hNy : N = y + 1 := by omega
      rw [hNy]
      exact ⟨.inr, fun h => h.resolve_left hn⟩
    · rw [hdefault h64, hmax]
      exact ⟨fun _ => .inr ⟨63, rfl⟩, fun _ => ⟨6, rfl⟩⟩

/-- A power of two is left as it is. -/
theorem leafCount_of_isPowerOfTwo {n : Int64} {N : Nat} (hn : n.toInt = N) (hpow : N.isPowerOfTwo) :
    leafCount n = n := by
  obtain ⟨m, rfl⟩ : ∃ m, N = m + 1 := by
    obtain ⟨k, rfl⟩ := hpow
    exact Nat.exists_eq_add_one_of_ne_zero (Nat.two_pow_pos k).ne'
  obtain ⟨y, hspread, hcount⟩ := toInt_leafCount (n := n) (m := m) (by rw [hn]; rfl)
  have hy : y = m := hspread.eq_of_isPowerOfTwo (by decide) hpow
  have hlt := n.toInt_lt
  rcases hcount with hcount | ⟨hmax, -⟩
  · apply Int64.toInt_inj.1
    rw [hcount, hn, hy]
    rfl
  · omega

/-- There is one leaf only if one is asked for. -/
theorem eq_one_of_leafCount {n : Int64} (h : (leafCount n).toInt = 1) : n = 1 := by
  by_cases hn : n ≤ 0
  · rw [leafCount_of_nonpos hn] at h
    exact absurd h (by decide)
  · have hpos := toInt_pos hn
    obtain ⟨y, hspread, hcount⟩ := toInt_leafCount (n := n) (m := n.toInt.toNat - 1) (by omega)
    rcases hcount with hcount | ⟨-, h64⟩
    · have hy : y = 0 := by omega
      have hzero := (hy ▸ hspread).eq_zero (by decide)
      apply Int64.toInt_inj.1
      have hone : (1 : Int64).toInt = 1 := by decide
      omega
    · rw [h64] at h
      exact absurd h (by decide)

/-! ## Safety -/

section

variable {A : Hasher} {fits : Nat → Bool} {st : Store} {n : Int64}

/-- `Build` returns a tree whose number of leaves is a power of two and whose leaves can all be
read. -/
def BuildsSafely (A : Hasher) (fits : Nat → Bool) (st : Store) (numLeaves : Int64) : Prop :=
  ∃ t, build A fits st numLeaves = .ok t ∧
    (∃ p : Nat, p.isPowerOfTwo ∧ t.numLeaves.toInt = p) ∧
    ∀ i : Int, 0 ≤ i → i < t.numLeaves.toInt →
      (∃ hash, t.leafHash i = .ok hash) ∧ ∃ count, t.leafKeyCount i = .ok count

/-- **When `Build` is safe.** Once its slices can be allocated, `Build` returns a tree with a power
of two as its number of leaves, all readable, unless it is asked for one leaf on a store with a live
key, or for a number of leaves whose predecessor has 32 zero bits in a row below a set bit. -/
theorem build_safe_iff (hfits : Allocatable fits (leafCount n)) :
    BuildsSafely A fits st n ↔
      ¬ (n = 1 ∧ ∃ key, st.get key ≠ none) ∧ (n ≤ 0 ∨ NoGap 32 (n - 1).toInt.toNat) := by
  obtain ⟨N, hN, -⟩ := exists_leafCount n
  rw [← leafCount_isPowerOfTwo_iff hN]
  constructor
  · rintro ⟨t, hbuild, ⟨p, hp, hleaves⟩, -⟩
    have hbuilt := built_of_build hbuild hN
    have hpN : p = N := by
      have := hbuilt.numLeaves
      omega
    refine ⟨?_, hpN ▸ hp⟩
    rintro ⟨hone, key, hlive⟩
    have hnil := (allocatable_of_build hbuild).2 (by rw [hone]; decide)
    exact hlive (Store.iterate_eq_nil_iff.1 hnil key)
  · rintro ⟨hdiv, hpow⟩
    have hnil : N = 1 → st.iterate = [] := by
      intro hone
      have hn := eq_one_of_leafCount (hN.trans (by rw [hone]; rfl))
      apply Store.iterate_eq_nil_iff.2
      intro key
      by_contra hlive
      exact hdiv ⟨hn, key, hlive⟩
    obtain ⟨t, hbuild, hbuilt⟩ := build_ok (A := A) hfits hN hnil
    refine ⟨t, hbuild, ⟨N, hpow, hbuilt.numLeaves⟩, ?_⟩
    intro i hi hlt
    rw [hbuilt.numLeaves] at hlt
    obtain ⟨j, rfl⟩ := Int.eq_ofNat_of_zero_le hi
    exact ⟨⟨_, hbuilt.leafHash_eq (by omega)⟩, ⟨_, hbuilt.leafKeyCount_eq (by omega)⟩⟩

/-- Three leaves, rounded up to four, over a store with one key. -/
theorem build_safe_iff_four :
    BuildsSafely Hasher.standard (fun _ => true) (Store.new.set (str "a") (str "1")).1 3 :=
  (build_safe_iff ⟨rfl, by decide, rfl⟩).2
    ⟨fun h => absurd h.1 (by decide), .inr (noGap_of_lt (by decide))⟩

/-- One leaf over a store with one key: the width of the leaf is zero. -/
theorem build_divides_by_zero :
    Allocatable (fun _ => true) (leafCount 1) ∧
      build Hasher.standard (fun _ => true) (Store.new.set (str "a") (str "1")).1 1 =
        .error .divideByZero :=
  ⟨⟨rfl, by decide, rfl⟩, by decide +kernel⟩

end

end Hapartition.Merkle
