import Hapartition.Merkle.Tree
import Hapartition.Lib.Heap

/-!
# What `Build` returns

`build_ok` says when `Build` returns, and `Built` what it returns: an array that is a tree of hashes
over the hashes of the buckets, and an array that is a tree of sums over their sizes, where the
buckets are the live entries of the store, divided by their key hashes (`bucket`). Every tree that
`Build` returns is of this kind (`built_of_build`), and `Diff` compares two of them bucket by bucket
(`diff_eq`).
-/

set_option autoImplicit false

namespace Hapartition.Merkle

open Lib

/-! ## Buckets -/

/-- The bucket of a key hash among `N`. -/
def leafIndex (N : Nat) (h : UInt64) : Nat := min (h.toNat / (maxUint64.toNat / N + 1)) (N - 1)

theorem leafIndex_lt {N : Nat} (hN : 0 < N) (h : UInt64) : leafIndex N h < N := by
  unfold leafIndex
  omega

section Buckets

variable {nl : Int64} {N : Nat}

/-- With two leaves or more, the width of a leaf does not wrap, and is large enough for the quotient
to be an `int`. -/
theorem toNat_width (hN : nl.toInt = N) (htwo : 2 ≤ N) :
    (maxUint64 / nl.toUInt64 + 1).toNat = maxUint64.toNat / N + 1 ∧
      3 ≤ maxUint64.toNat / N + 1 := by
  have hmax : maxUint64.toNat = 18446744073709551615 := by decide
  have hone : (1 : UInt64).toNat = 1 := by decide
  have hhi := nl.toInt_lt
  have hnl : nl.toUInt64.toNat = N := by
    rw [toNat_toUInt64 (by omega), hN, Int.toNat_natCast]
  have hle : 18446744073709551615 / N ≤ 18446744073709551615 / 2 :=
    Nat.div_le_div_left htwo (by omega)
  have hge : 2 ≤ 18446744073709551615 / N := by
    rw [Nat.le_div_iff_mul_le (by omega)]
    omega
  rw [UInt64.toNat_add, UInt64.toNat_div, hnl, hmax, hone]
  constructor
  · exact Nat.mod_eq_of_lt (by omega)
  · omega

theorem bucketIndex_eq (hN : nl.toInt = N) (htwo : 2 ≤ N) (h : UInt64) :
    ∃ idx, bucketIndex nl h = .ok idx ∧ idx.toInt = leafIndex N h := by
  obtain ⟨hwidth, hthree⟩ := toNat_width hN htwo
  have hpos : maxUint64 / nl.toUInt64 + 1 ≠ 0 := by
    intro hzero
    rw [hzero, UInt64.toNat_zero] at hwidth
    omega
  have hquot : (h / (maxUint64 / nl.toUInt64 + 1)).toInt64.toInt =
      (h.toNat / (maxUint64.toNat / N + 1) : Nat) := by
    have hh := h.toNat_lt
    have hle : h.toNat / (maxUint64.toNat / N + 1) ≤ h.toNat / 3 :=
      Nat.div_le_div_left hthree (by omega)
    rw [← hwidth, ← UInt64.toNat_div] at hle ⊢
    exact toInt_toInt64 (by omega)
  refine ⟨_, if_neg hpos, ?_⟩
  unfold leafIndex
  by_cases hle : nl ≤ (h / (maxUint64 / nl.toUInt64 + 1)).toInt64
  · have hle' := Int64.le_iff_toInt_le.1 hle
    rw [if_pos hle, toInt_sub_one (by omega)]
    omega
  · have hlt := Int64.lt_iff_toInt_lt.1 (not_le.1 hle)
    rw [if_neg hle, hquot]
    omega

/-- With one leaf, the width wraps to zero. -/
theorem bucketIndex_one (h : UInt64) : bucketIndex 1 h = .error .divideByZero := by
  unfold bucketIndex
  exact if_pos (by decide)

/-- The entries `done` have been put into `N` buckets. -/
structure Distributed (N : Nat) (done : List (Bytes × Entry)) (buckets : List (List KV)) :
    Prop where
  length : buckets.length = N
  contents : ∀ i, buckets.getD i [] =
    (done.filter fun p => leafIndex N (hashKey p.1) == i).map KV.of

theorem Distributed.replicate (N : Nat) : Distributed N [] (List.replicate N []) where
  length := List.length_replicate
  contents i := by
    rw [List.getD_eq_getElem?_getD, List.getElem?_replicate]
    split <;> rfl

theorem Distributed.addEntry (hN : nl.toInt = N) (htwo : 2 ≤ N) {done : List (Bytes × Entry)}
    {buckets : List (List KV)} (h : Distributed N done buckets) (p : Bytes × Entry) :
    ∃ buckets', addEntry nl buckets p = .ok buckets' ∧ Distributed N (done ++ [p]) buckets' := by
  obtain ⟨idx, hidx, hint⟩ := bucketIndex_eq hN htwo (hashKey p.1)
  generalize hplace : leafIndex N (hashKey p.1) = place at hint
  have hlt : place < buckets.length := by
    rw [h.length, ← hplace]
    exact leafIndex_lt (by omega) _
  refine ⟨buckets.set place (buckets.getD place [] ++ [KV.of p]), ?_, ?_, fun i => ?_⟩
  · rw [Merkle.addEntry, hidx, ok_bind, hint, getAt_natCast hlt [], ok_bind, setAt_natCast hlt]
  · rw [List.length_set, h.length]
  · rw [getD_set hlt, List.filter_append, List.map_append, ← h.contents i]
    by_cases hi : place = i
    · simp [hi, hplace]
    · simp [hi, hplace]

/-- The loop over a store puts every entry into its bucket. -/
theorem distributed_foldlM (hN : nl.toInt = N) (htwo : 2 ≤ N) (l : List (Bytes × Entry)) :
    ∃ buckets, l.foldlM (addEntry nl) (List.replicate N []) = .ok buckets ∧
      Distributed N l buckets :=
  foldlM_elements (I := Distributed N) (.replicate N) fun _ p _ _ h => h.addEntry hN htwo p

/-- With one leaf, the first entry stops it. -/
theorem foldlM_addEntry_one (p : Bytes × Entry) (l : List (Bytes × Entry))
    (buckets : List (List KV)) :
    (p :: l).foldlM (addEntry 1) buckets = .error .divideByZero := by
  rw [List.foldlM_cons, addEntry, bucketIndex_one, error_bind, error_bind]

/-- The live entries of a store in the bucket `i` of `N`. -/
def bucket (st : Store) (N i : Nat) : List KV :=
  (st.iterate.filter fun p => leafIndex N (hashKey p.1) == i).map KV.of

theorem bucket_pairwise (st : Store) (N i : Nat) :
    (bucket st N i).Pairwise fun a b => a.key < b.key := by
  apply List.Pairwise.map (R := fun p q : Bytes × Entry => p.1 < q.1)
  · intro p q h
    exact h
  · exact (st.iterate_pairwise).filter _

/-- The buckets are in order already, and sorting leaves them as they are. -/
theorem Distributed.sorted (A : Hasher) {st : Store} {buckets : List (List KV)}
    (h : Distributed N st.iterate buckets) {i : Nat} (hi : i < N) :
    (buckets.map (A.sorter.sort KV.key)).getD i [] = bucket st N i := by
  have hlt : i < buckets.length := by
    rw [h.length]
    exact hi
  have hcontents := h.contents i
  rw [List.getD_eq_getElem?_getD, List.getElem?_eq_getElem hlt, Option.getD_some] at hcontents
  rw [List.getD_eq_getElem?_getD, List.getElem?_map, List.getElem?_eq_getElem hlt, Option.map_some,
    Option.getD_some, hcontents]
  exact A.sorter.sort_of_pairwise_lt KV.key (bucket_pairwise st N i)

end Buckets

/-! ## The tree of a store -/

section Build

variable {A : Hasher} {fits : Nat → Bool} {st : Store} {n nl : Int64} {N : Nat} {t : Tree}

/-- `t` is the tree of a store with `N` leaves. -/
structure Built (A : Hasher) (st : Store) (N : Nat) (t : Tree) : Prop where
  numLeaves : t.numLeaves.toInt = N
  hashes : FilledFrom N (fun l r => A.sha256 (l ++ r)) (fun i => leafHash A (bucket st N i)) [] 0
    t.hashes
  keyCounts : FilledFrom N (· + ·) (fun i => ((bucket st N i).length : Int)) 0 0 t.keyCounts

/-- The first `i` leaves of both arrays are in place. -/
structure Arrays.Leaves (A : Hasher) (st : Store) (N i : Nat) (s : Arrays) : Prop where
  hashes : LeavesTo N (fun i => leafHash A (bucket st N i)) [] i s.hashes
  keyCounts : LeavesTo N (fun i => ((bucket st N i).length : Int)) 0 i s.keyCounts

/-- The leaves and the inner nodes from `i` on are in place in both arrays. -/
structure Arrays.Nodes (A : Hasher) (st : Store) (N i : Nat) (s : Arrays) : Prop where
  hashes : FilledFrom N (fun l r => A.sha256 (l ++ r)) (fun i => leafHash A (bucket st N i)) [] i
    s.hashes
  keyCounts : FilledFrom N (· + ·) (fun i => ((bucket st N i).length : Int)) 0 i s.keyCounts

theorem Arrays.Leaves.fillLeaf {buckets : List (List KV)} (hlen : buckets.length = N)
    (hbucket : ∀ i < N, buckets.getD i [] = bucket st N i) {i : Nat} (hi : i < N) {s : Arrays}
    (h : s.Leaves A st N i) :
    ∃ s', fillLeaf A (N - 1 : Nat) buckets s i = .ok s' ∧ s'.Leaves A st N (i + 1) := by
  have hplace : ((N - 1 : Nat) : Int) + (i : Int) = (N - 1 + i : Nat) := by omega
  refine ⟨⟨s.hashes.set (N - 1 + i) (leafHash A (bucket st N i)),
    s.keyCounts.set (N - 1 + i) ((bucket st N i).length : Int)⟩, ?_, h.hashes.set hi,
    h.keyCounts.set hi⟩
  have hhashes : N - 1 + i < s.hashes.length := by
    rw [h.hashes.length]
    omega
  have hcounts : N - 1 + i < s.keyCounts.length := by
    rw [h.keyCounts.length]
    omega
  rw [Merkle.fillLeaf, getAt_natCast (by omega) [], ok_bind, hbucket i hi, hplace,
    setAt_natCast hhashes, ok_bind, setAt_natCast hcounts, ok_bind]
  rfl

theorem Arrays.Nodes.fillNode {i : Nat} (hi : i + 1 < N) {s : Arrays}
    (h : s.Nodes A st N (i + 1)) : ∃ s', fillNode A s i = .ok s' ∧ s'.Nodes A st N i := by
  refine ⟨⟨_, _⟩, ?_, h.hashes.set hi, h.keyCounts.set hi⟩
  have hhashes : 2 * i + 2 < s.hashes.length := by
    rw [h.hashes.length]
    omega
  have hcounts : 2 * i + 2 < s.keyCounts.length := by
    rw [h.keyCounts.length]
    omega
  rw [Merkle.fillNode, getAt_natCast (by omega) [], ok_bind, getAt_natCast (by omega) [], ok_bind,
    setAt_natCast (by omega), ok_bind, getAt_natCast (by omega) 0, ok_bind,
    getAt_natCast (by omega) 0, ok_bind, setAt_natCast (by omega), ok_bind]
  rfl

theorem leafCount_pos (n : Int64) : 1 ≤ (leafCount n).toInt := by
  unfold leafCount
  split
  · decide
  next h => exact toInt_pos h

theorem exists_leafCount (n : Int64) : ∃ N : Nat, (leafCount n).toInt = N ∧ 0 < N := by
  have hpos := leafCount_pos n
  exact ⟨(leafCount n).toInt.toNat, by omega, by omega⟩

/-- The slices that `Build` makes for `nl` leaves can be allocated. -/
structure Allocatable (fits : Nat → Bool) (nl : Int64) : Prop where
  leaves : fits nl.toInt.toNat = true
  nonneg : 0 ≤ (2 * nl - 1).toInt
  nodes : fits (2 * nl - 1).toInt.toNat = true

/-- A number of nodes that is not negative did not wrap. -/
theorem Allocatable.toInt_nodes (h : Allocatable fits nl) (hN : nl.toInt = N) (hpos : 0 < N) :
    (2 * nl - 1).toInt = (2 * N - 1 : Nat) := by
  have hnonneg := h.nonneg
  have hhi := nl.toInt_lt
  have hone : (1 : Int64).toInt = 1 := by decide
  have htwo : (2 : Int64).toInt = 2 := by decide
  rw [Int64.toInt_sub, Int64.toInt_mul, hone, htwo, Int.bmod_sub_bmod, Int.bmod_def] at hnonneg ⊢
  omega

theorem Allocatable.makeLeaves (h : Allocatable fits nl) (hN : nl.toInt = N) {α : Type} (x : α) :
    makeSlice fits (N : Int) x = .ok (List.replicate N x) := by
  rw [← hN, makeSlice_of_fits (by omega) h.leaves, hN, Int.toNat_natCast]

theorem Allocatable.makeNodes (h : Allocatable fits nl) (hN : nl.toInt = N) (hpos : 0 < N)
    {α : Type} (x : α) :
    makeSlice fits (2 * N - 1 : Nat) x = .ok (List.replicate (2 * N - 1) x) := by
  rw [← h.toInt_nodes hN hpos, makeSlice_of_fits h.nonneg h.nodes, h.toInt_nodes hN hpos,
    Int.toNat_natCast]

/-- `Build` returns the tree of the store, unless there is one leaf only and something to put into
it. -/
theorem build_ok (hfits : Allocatable fits (leafCount n)) (hN : (leafCount n).toInt = N)
    (hdiv : N = 1 → st.iterate = []) :
    ∃ t, build A fits st n = .ok t ∧ Built A st N t := by
  have hone := leafCount_pos n
  have hpos : 0 < N := by omega
  have hfirst : (leafCount n - 1).toInt = (N - 1 : Nat) := by
    rw [toInt_sub_one hone, hN]
    omega
  obtain ⟨buckets, hbuckets, hdist⟩ : ∃ buckets,
      st.iterate.foldlM (addEntry (leafCount n)) (List.replicate N []) = .ok buckets ∧
        Distributed N st.iterate buckets := by
    by_cases hN1 : N = 1
    · rw [hdiv hN1]
      exact ⟨_, rfl, .replicate N⟩
    · exact distributed_foldlM hN (by omega) _
  obtain ⟨leaves, hleaves, hleavesIn⟩ := foldlM_range (n := N) (I := Arrays.Leaves A st N)
    (s := ⟨List.replicate (2 * N - 1) [], List.replicate (2 * N - 1) 0⟩) ⟨.replicate, .replicate⟩
    fun i hi s h =>
      h.fillLeaf (by rw [List.length_map, hdist.length]) (fun i hi => hdist.sorted A hi) hi
  obtain ⟨nodes, hnodes, hnodesIn⟩ := foldlM_range_reverse (n := N - 1) (I := Arrays.Nodes A st N)
    ⟨hleavesIn.hashes.filledFrom, hleavesIn.keyCounts.filledFrom⟩ fun i hi s h =>
      h.fillNode (by omega)
  refine ⟨⟨leafCount n, nodes.hashes, nodes.keyCounts⟩, ?_, hN, hnodesIn.hashes,
    hnodesIn.keyCounts⟩
  simp only [build, hN, hfirst, hfits.toInt_nodes hN hpos, Int.toNat_natCast, hfits.makeLeaves hN,
    hbuckets, hfits.makeNodes hN hpos, hleaves, hnodes, ok_bind]
  rfl

/-- `Build` returns only if its slices could be allocated and it did not divide by zero. -/
theorem allocatable_of_build (h : build A fits st n = .ok t) :
    Allocatable fits (leafCount n) ∧ (leafCount n = 1 → st.iterate = []) := by
  unfold build at h
  obtain ⟨_, hleaves, h⟩ := bind_eq_ok h
  obtain ⟨_, hbuckets, h⟩ := bind_eq_ok h
  obtain ⟨_, hnodes, -⟩ := bind_eq_ok h
  obtain ⟨-, hfitsLeaves, -⟩ := makeSlice_eq_ok hleaves
  obtain ⟨hnonneg, hfitsNodes, -⟩ := makeSlice_eq_ok hnodes
  refine ⟨⟨hfitsLeaves, hnonneg, hfitsNodes⟩, ?_⟩
  intro hone
  cases hlist : st.iterate with
  | nil => rfl
  | cons p l =>
      rw [hlist, hone, foldlM_addEntry_one] at hbuckets
      cases hbuckets

theorem built_of_build (h : build A fits st n = .ok t) (hN : (leafCount n).toInt = N) :
    Built A st N t := by
  obtain ⟨hfits, hdiv⟩ := allocatable_of_build h
  have hdivN : N = 1 → st.iterate = [] := by
    intro hone
    apply hdiv
    apply Int64.toInt_inj.1
    rw [hN, hone]
    rfl
  obtain ⟨t', hbuild, hbuilt⟩ := build_ok (A := A) hfits hN hdivN
  rw [h] at hbuild
  cases hbuild
  exact hbuilt

namespace Built

variable (h : Built A st N t)
include h

theorem leafPlace {i : Nat} (hi : i < N) :
    t.numLeaves.toInt - 1 + (i : Int) = (N - 1 + i : Nat) := by
  rw [h.numLeaves]
  omega

theorem leafHash_eq {i : Nat} (hi : i < N) : t.leafHash i = .ok (leafHash A (bucket st N i)) := by
  have hlt : N - 1 + i < t.hashes.length := by
    rw [h.hashes.length]
    omega
  rw [Tree.leafHash, h.leafPlace hi, getAt_natCast hlt [], h.hashes.leaf i hi]

theorem leafKeyCount_eq {i : Nat} (hi : i < N) :
    t.leafKeyCount i = .ok ((bucket st N i).length : Int) := by
  have hlt : N - 1 + i < t.keyCounts.length := by
    rw [h.keyCounts.length]
    omega
  rw [Tree.leafKeyCount, h.leafPlace hi, getAt_natCast hlt 0, h.keyCounts.leaf i hi]

theorem rootHash_eq (hpos : 0 < N) : t.rootHash = .ok (t.hashes.getD 0 []) := by
  have hlt : 0 < t.hashes.length := by
    rw [h.hashes.length]
    omega
  exact getAt_natCast hlt []

end Built

end Build

/-! ## Comparing trees -/

theorem bytesEqual_iff {a b : Bytes} : bytesEqual a b = true ↔ a = b := by
  unfold bytesEqual
  by_cases hlen : a.length = b.length
  · rw [if_neg (not_not.2 hlen), List.all_eq_true]
    constructor
    · intro h
      apply List.ext_getElem?
      intro i
      by_cases hi : i < a.length
      · exact eq_of_beq (h i (List.mem_range.2 hi))
      · rw [List.getElem?_eq_none (by omega), List.getElem?_eq_none (by omega)]
    · rintro rfl i _
      exact beq_self_eq_true _
  · rw [if_pos hlen]
    constructor
    · intro h
      cases h
    · intro h
      exact absurd (congrArg List.length h) hlen

section Diff

variable {A : Hasher} {a b : Store} {N : Nat} {ta tb : Tree}

theorem compareLeaf_eq (ha : Built A a N ta) (hb : Built A b N tb) (diffs : List Nat) {i : Nat}
    (hi : i < N) :
    compareLeaf ta tb diffs i = .ok (diffs ++ [i].filter fun i =>
      leafHash A (bucket a N i) ≠ leafHash A (bucket b N i)) := by
  have hla := ha.leafHash_eq hi
  have hlb := hb.leafHash_eq hi
  rw [Tree.leafHash, ha.numLeaves] at hla
  rw [Tree.leafHash, hb.numLeaves] at hlb
  rw [compareLeaf, ha.numLeaves, hla, ok_bind, hlb, ok_bind]
  by_cases heq : leafHash A (bucket a N i) = leafHash A (bucket b N i)
  · simp [bytesEqual_iff, heq]
  · simp [bytesEqual_iff, heq]

/-- `Diff` lists the leaves with different hashes. -/
theorem diff_eq (ha : Built A a N ta) (hb : Built A b N tb) :
    diff ta tb = .ok ((List.range N).filter fun i =>
      leafHash A (bucket a N i) ≠ leafHash A (bucket b N i)) := by
  have hsame : ta.numLeaves = tb.numLeaves := by
    apply Int64.toInt_inj.1
    rw [ha.numLeaves, hb.numLeaves]
  obtain ⟨diffs, hrun, hdiffs⟩ := foldlM_range (n := N) (f := compareLeaf ta tb) (s := [])
    (I := fun i diffs => diffs = (List.range i).filter fun i =>
      leafHash A (bucket a N i) ≠ leafHash A (bucket b N i)) rfl (by
    rintro i hi diffs rfl
    refine ⟨_, compareLeaf_eq ha hb _ hi, ?_⟩
    rw [List.range_succ, List.filter_append])
  rw [diff, if_neg (not_not.2 hsame), ha.numLeaves, Int.toNat_natCast, hrun, hdiffs]

end Diff

end Hapartition.Merkle
