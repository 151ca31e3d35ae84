import Hapartition.Merkle.Compare

/-!
# The two ways to assign a key to a leaf

`Build` divides the hash of a key by the width of a leaf. `LeafEntries` compares it with the bounds
of the leaf, which are products of the width; the end of the last leaf would wrap to zero, so it is
the greatest hash and belongs to the leaf. For a power of two of leaves, from 2 on, both say the
same (`inRange_iff`). The entries of a leaf are thus as many as `Build` has counted, and the leaves
divide the live entries among them (`leaves_agree`).
-/

set_option autoImplicit false

namespace Hapartition.Merkle

open Lib

/-- The hash passes the test of `LeafEntries` for leaf `i`. -/
def InRange (nl i : Int64) (h : UInt64) : Prop :=
  ∃ start stop, leafBounds nl i = .ok (start, stop) ∧
    inLeafRange h start stop (i == nl - 1) = true

section Bounds

variable {nl j : Int64} {N i : Nat}

theorem toNat_index (hj : j.toInt = i) : j.toUInt64.toNat = i := by
  rw [toNat_toUInt64 (by omega), hj, Int.toNat_natCast]

theorem exists_index (hN : nl.toInt = N) (hzero : 0 ≤ j) (hlt : j < nl) :
    ∃ i : Nat, j.toInt = i ∧ i < N := by
  rw [Int64.le_iff_toInt_le, Int64.toInt_zero] at hzero
  rw [Int64.lt_iff_toInt_lt, hN] at hlt
  exact ⟨j.toInt.toNat, by omega, by omega⟩

theorem eq_last_iff (hN : nl.toInt = N) (hpos : 0 < N) (hj : j.toInt = i) :
    j = nl - 1 ↔ i + 1 = N := by
  rw [← Int64.toInt_inj, toInt_sub_one (by omega), hj, hN]
  omega

/-- The bounds of a leaf: the products do not wrap, except that of the last leaf, which is not
used. -/
theorem leafBounds_eq (hN : nl.toInt = N) (hpow : N.isPowerOfTwo) (htwo : 2 ≤ N)
    (hj : j.toInt = i) (hi : i < N) :
    ∃ start stop, leafBounds nl j = .ok (start, stop) ∧
      start.toNat = i * (18446744073709551616 / N) ∧
      (i + 1 = N → stop = maxUint64) ∧
      (i + 1 < N → stop.toNat = (i + 1) * (18446744073709551616 / N)) := by
  have hhi := nl.toInt_lt
  obtain ⟨hcover, hwidth⟩ := width_of_isPowerOfTwo hpow (by omega)
  have hstep : (maxUint64 / nl.toUInt64 + 1).toNat = 18446744073709551616 / N :=
    (toNat_width hN htwo).1.trans hwidth
  have hdiv : nl.toUInt64 ≠ 0 := by
    intro hzero
    have hnl := toNat_index hN
    rw [hzero, UInt64.toNat_zero] at hnl
    omega
  have hlast := eq_last_iff hN (by omega) hj
  -- a product with an index below `N` is below the product with `N`
  have hbelow : ∀ m < N, m * (18446744073709551616 / N) < 18446744073709551616 := by
    intro m hm
    calc m * (18446744073709551616 / N) < N * (18446744073709551616 / N) := by
          apply Nat.mul_lt_mul_of_pos_right hm
          rw [← hwidth]
          exact Nat.succ_pos _
      _ = 18446744073709551616 := hcover
  have hproduct : ∀ (x : Int64) (m : Nat), x.toInt = m → m < N →
      (x.toUInt64 * (maxUint64 / nl.toUInt64 + 1)).toNat = m * (18446744073709551616 / N) := by
    intro x m hx hm
    rw [UInt64.toNat_mul, toNat_index hx, hstep]
    exact Nat.mod_eq_of_lt (hbelow m hm)
  refine ⟨_, _, if_neg hdiv, hproduct j i hj hi, ?_, ?_⟩
  · intro hend
    exact if_pos (hlast.2 hend)
  · intro hinner
    rw [if_neg (fun heq => by have := hlast.1 heq; omega)]
    apply hproduct _ _ _ hinner
    have hmaxValue : Int64.maxValue.toInt = 2 ^ 63 - 1 := by decide
    rw [toInt_add_one (by omega), hj]
    rfl

/-- The test of `LeafEntries` holds exactly in the range of the leaf. -/
theorem inRange_iff (hN : nl.toInt = N) (hpow : N.isPowerOfTwo) (htwo : 2 ≤ N)
    (hj : j.toInt = i) (hi : i < N) {h : UInt64} : InRange nl j h ↔ leafIndex N h = i := by
  have hhi := nl.toInt_lt
  obtain ⟨start, stop, hbounds, hstart, hend, hinner⟩ := leafBounds_eq hN hpow htwo hj hi
  obtain ⟨hcover, -⟩ := width_of_isPowerOfTwo hpow (by omega)
  have hlast := eq_last_iff hN (by omega) hj
  have htest : InRange nl j h ↔ inLeafRange h start stop (j == nl - 1) = true := by
    constructor
    · rintro ⟨start', stop', hbounds', htest⟩
      rw [hbounds] at hbounds'
      cases hbounds'
      exact htest
    · intro htest
      exact ⟨start, stop, hbounds, htest⟩
  rw [htest, leafIndex_eq_iff hpow (by omega), InLeaf, inLeafRange, Bool.and_eq_true,
    Bool.or_eq_true, Bool.and_eq_true, decide_eq_true_iff, decide_eq_true_iff, decide_eq_true_iff,
    beq_iff_eq, hlast, UInt64.le_iff_toNat_le, UInt64.lt_iff_toNat_lt, hstart]
  apply and_congr_right
  intro _
  have hh := h.toNat_lt
  rcases Nat.lt_or_ge (i + 1) N with hlt | hge
  · -- an inner leaf: the bound is the product
    rw [hinner hlt]
    constructor
    · rintro (hbelow | ⟨hfinal, -⟩)
      · exact hbelow
      · omega
    · exact .inl
  · -- the last leaf: every hash passes, and its range has no end below `2^64`
    have hfinal : i + 1 = N := by omega
    rw [hend hfinal, hfinal, hcover]
    constructor
    · intro _
      exact hh
    · intro _
      rcases Nat.lt_or_ge h.toNat maxUint64.toNat with hlt | hge
      · exact .inl hlt
      · refine .inr ⟨rfl, UInt64.toNat_inj.1 ?_⟩
        have hmax : maxUint64.toNat = 18446744073709551615 := by decide
        omega

end Bounds

/-! ## The entries of the leaves -/

/-- The live entries whose keys `Build` puts into leaf `i`. -/
def entriesIn (st : Store) (N i : Nat) : List Entry :=
  (st.iterate.filter fun p => leafIndex N (hashKey p.1) == i).map Prod.snd

theorem length_entriesIn (st : Store) (N i : Nat) :
    (entriesIn st N i).length = (bucket st N i).length := by
  rw [entriesIn, bucket, List.length_map, List.length_map]

theorem leafEntries_eq {nl j : Int64} {N i : Nat} (hN : nl.toInt = N) (hpow : N.isPowerOfTwo)
    (htwo : 2 ≤ N) (hj : j.toInt = i) (hi : i < N) (st : Store) :
    leafEntries st nl j = .ok (entriesIn st N i) := by
  obtain ⟨start, stop, hbounds, -⟩ := leafBounds_eq hN hpow htwo hj hi
  have htest : ∀ h, inLeafRange h start stop (j == nl - 1) = (leafIndex N h == i) := by
    intro h
    rw [Bool.eq_iff_iff, beq_iff_eq, ← inRange_iff hN hpow htwo hj hi]
    constructor
    · intro hrange
      exact ⟨start, stop, hbounds, hrange⟩
    · rintro ⟨start', stop', hbounds', hrange⟩
      rw [hbounds] at hbounds'
      cases hbounds'
      exact hrange
  rw [leafEntries, hbounds, ok_bind]
  simp only [htest]
  rw [Store.iterateWith_eq_map (p := fun p => leafIndex N (hashKey p.1) == i) (g := Prod.snd)
    fun _ _ => rfl]
  rfl

theorem entriesIn_perm {N : Nat} (hpos : 0 < N) (st : Store) :
    ((List.range N).flatMap (entriesIn st N)).Perm (st.iterate.map Prod.snd) := by
  have hclasses := flatMap_filter_perm_self
    (f := fun p : Bytes × Entry => leafIndex N (hashKey p.1)) (l := st.iterate)
    fun p _ => leafIndex_lt hpos _
  have hmap := hclasses.map Prod.snd
  rwa [List.map_flatMap] at hmap

/-- **The two leaf assignments agree.** For every power of two of leaves from 2 to `2^62` (the
greatest that is an `int`) and every hash, one leaf has the hash in its bounds, and it is the one
`Build` computes. Hence `LeafEntries` returns for every leaf as many entries as a tree that `Build`
returns counts there, and the leaves together contain every live entry once. -/
theorem leaves_agree {k : Nat} (hk : 1 ≤ k) {nl : Int64} (hnl : nl.toInt = (2 ^ k : Nat)) :
    (∀ h, ∃ i, bucketIndex nl h = .ok i ∧ (0 ≤ i ∧ i < nl ∧ InRange nl i h) ∧
      ∀ j, 0 ≤ j ∧ j < nl ∧ InRange nl j h → j = i) ∧
    ∀ st : Store, ∃ leaves : Nat → List Entry,
      (∀ i : Int64, 0 ≤ i → i < nl → leafEntries st nl i = .ok (leaves i.toInt.toNat)) ∧
      ((List.range (2 ^ k)).flatMap leaves).Perm (st.iterate.map Prod.snd) ∧
      ∀ (A : Hasher) (fits : Nat → Bool), (Allocatable fits nl → ∃ t, build A fits st nl = .ok t) ∧
        ∀ t, build A fits st nl = .ok t →
          ∀ i : Int64, 0 ≤ i → i < nl →
            t.leafKeyCount i.toInt = .ok ((leaves i.toInt.toNat).length : Int) := by
  have hpow : (2 ^ k).isPowerOfTwo := ⟨k, rfl⟩
  have htwo : 2 ≤ 2 ^ k := Nat.le_self_pow (by omega) 2
  have hcount : leafCount nl = nl := leafCount_of_isPowerOfTwo hnl hpow
  constructor
  · intro h
    obtain ⟨i, hbucket, hi⟩ := bucketIndex_eq hnl htwo h
    have hlt : leafIndex (2 ^ k) h < 2 ^ k := leafIndex_lt (by omega) h
    refine ⟨i, hbucket, ⟨?_, ?_, ?_⟩, ?_⟩
    · rw [Int64.le_iff_toInt_le, Int64.toInt_zero, hi]
      exact Int.natCast_nonneg _
    · rw [Int64.lt_iff_toInt_lt, hi, hnl]
      exact Int.ofNat_lt.2 hlt
    · exact (inRange_iff hnl hpow htwo hi hlt).2 rfl
    · rintro j ⟨hzero, hjlt, hrange⟩
      obtain ⟨m, hj, hm⟩ := exists_index hnl hzero hjlt
      apply Int64.toInt_inj.1
      rw [hi, hj, (inRange_iff hnl hpow htwo hj hm).1 hrange]
  · intro st
    refine ⟨entriesIn st (2 ^ k), ?_, entriesIn_perm (by omega) st, ?_⟩
    · intro i hzero hlt
      obtain ⟨m, hi, hm⟩ := exists_index hnl hzero hlt
      rw [leafEntries_eq hnl hpow htwo hi hm, hi, Int.toNat_natCast]
    · intro A fits
      have hN : (leafCount nl).toInt = (2 ^ k : Nat) := by rw [hcount, hnl]
      constructor
      · intro hfits
        obtain ⟨t, hbuild, -⟩ : ∃ t, build A fits st nl = .ok t ∧ Built A st (2 ^ k) t :=
          build_ok (hcount.symm ▸ hfits) hN (by omega)
        exact ⟨t, hbuild⟩
      · intro t hbuild i hzero hlt
        obtain ⟨m, hi, hm⟩ := exists_index hnl hzero hlt
        rw [hi, Int.toNat_natCast, length_entriesIn]
        exact (built_of_build hbuild hN).leafKeyCount_eq hm

/-- A store with two keys. -/
def twoKeys : Store := ((Store.new.set (str "a") (str "1")).1.set (str "b") (str "2")).1

/-- With as many leaves as there can be, the greatest hash is in one leaf only; and the four leaves
of a tree over two keys have these keys' entries. -/
theorem leaves_agree_maximum :
    (∃ i, bucketIndex 4611686018427387904 maxUint64 = .ok i ∧
      (0 ≤ i ∧ i < 4611686018427387904 ∧ InRange 4611686018427387904 i maxUint64) ∧
      ∀ j, 0 ≤ j ∧ j < 4611686018427387904 ∧ InRange 4611686018427387904 j maxUint64 → j = i) ∧
    ∃ (leaves : Nat → List Entry) (t : Tree), build .standard (fun _ => true) twoKeys 4 = .ok t ∧
      ((List.range 4).flatMap leaves).Perm (twoKeys.iterate.map Prod.snd) ∧
      ∀ i : Int64, 0 ≤ i → i < 4 → leafEntries twoKeys 4 i = .ok (leaves i.toInt.toNat) ∧
        t.leafKeyCount i.toInt = .ok ((leaves i.toInt.toNat).length : Int) := by
  refine ⟨(leaves_agree (k := 62) (by decide) (by decide)).1 maxUint64, ?_⟩
  obtain ⟨leaves, hleaves, hperm, hbuild⟩ :=
    (@leaves_agree 2 (by decide) 4 (by decide)).2 twoKeys
  obtain ⟨t, ht⟩ := (hbuild .standard fun _ => true).1 ⟨rfl, by decide, rfl⟩
  exact ⟨leaves, t, ht, hperm, fun i hzero hlt =>
    ⟨hleaves i hzero hlt, (hbuild .standard fun _ => true).2 t ht i hzero hlt⟩⟩

end Hapartition.Merkle
