import Hapartition.Merkle.Safety
import Hapartition.Store.History
import Mathlib.Algebra.BigOperators.Ring.Finset

/-!
# Comparing stores by their Merkle trees

What is hashed for a leaf determines its entries, since keys and values are preceded by their
lengths (`encode_flatMap_inj`). If SHA-256 is injective on what is hashed for two trees, equal
leaves thus have equal buckets, and equal roots equal leaves. `comparison_exact` puts this together,
for numbers of leaves that are powers of two: `Diff` is exact on live data, and the count at the
root is `Len`.
-/

set_option autoImplicit false

namespace Hapartition.Merkle

open Lib

/-! ## What is hashed determines the entries -/

/-- Keys and values whose length fits the 32 bits that are written for it. -/
def KV.Short (e : KV) : Prop := e.key.length < 4294967296 ∧ e.value.length < 4294967296

/-- A string after its length can be told from what follows. -/
theorem length_append_inj {x y r r' : Bytes} (hx : x.length < 4294967296)
    (hy : y.length < 4294967296)
    (h : bigEndian 4 x.length ++ (x ++ r) = bigEndian 4 y.length ++ (y ++ r')) :
    x = y ∧ r = r' := by
  obtain ⟨hlen, hrest⟩ := List.append_inj h (by rw [length_bigEndian, length_bigEndian])
  exact List.append_inj hrest (bigEndian_inj hx hy hlen)

theorem encode_append_inj {e e' : KV} {r r' : Bytes} (he : e.Short) (he' : e'.Short)
    (h : e.encode ++ r = e'.encode ++ r') : e = e' ∧ r = r' := by
  simp only [KV.encode, List.append_assoc] at h
  obtain ⟨hkey, h⟩ := length_append_inj he.1 he'.1 h
  obtain ⟨hvalue, h⟩ := length_append_inj he.2 he'.2 h
  obtain ⟨hver, hr⟩ := List.append_inj h (by rw [length_bigEndian, length_bigEndian])
  have hnat := bigEndian_inj e.ver.toUInt64.toNat_lt e'.ver.toUInt64.toNat_lt hver
  exact ⟨KV.ext hkey hvalue (congrArg UInt64.toInt64 (UInt64.toNat_inj.1 hnat)), hr⟩

theorem encode_ne_nil (e : KV) : e.encode ≠ [] := by
  intro h
  have hlen := congrArg List.length h
  simp only [KV.encode, List.length_append, length_bigEndian, List.length_nil] at hlen
  omega

/-- What is hashed for a bucket determines the bucket. -/
theorem encode_flatMap_inj {l l' : List KV} (hl : ∀ e ∈ l, e.Short) (hl' : ∀ e ∈ l', e.Short)
    (h : l.flatMap KV.encode = l'.flatMap KV.encode) : l = l' := by
  induction l generalizing l' with
  | nil =>
      cases l' with
      | nil => rfl
      | cons e' l' =>
          rw [List.flatMap_cons] at h
          exact absurd (List.append_eq_nil_iff.1 h.symm).1 (encode_ne_nil e')
  | cons e l ih =>
      cases l' with
      | nil =>
          rw [List.flatMap_cons] at h
          exact absurd (List.append_eq_nil_iff.1 h).1 (encode_ne_nil e)
      | cons e' l' =>
          rw [List.flatMap_cons, List.flatMap_cons] at h
          obtain ⟨rfl, hrest⟩ :=
            encode_append_inj (hl e List.mem_cons_self) (hl' e' List.mem_cons_self) h
          rw [ih (fun x hx => hl x (List.mem_cons_of_mem e hx))
            (fun x hx => hl' x (List.mem_cons_of_mem e hx)) hrest]

/-! ## Equal leaves -/

/-- The live keys of a store with their values and versions. -/
def liveTriples (st : Store) : Set (Bytes × Bytes × Int64) := {x | st.get x.1 = some x.2}

theorem liveTriples_eq_iff {a b : Store} :
    liveTriples a = liveTriples b ↔ ∀ key, a.get key = b.get key := by
  constructor
  · intro h key
    apply Option.ext
    intro p
    exact Set.ext_iff.1 h (key, p)
  · intro h
    ext x
    rw [liveTriples, liveTriples, Set.mem_ofPred_eq, Set.mem_ofPred_eq, h x.1]

theorem mem_bucket {st : Store} {N i : Nat} {e : KV} :
    e ∈ bucket st N i ↔
      (e.key, e.value, e.ver) ∈ liveTriples st ∧ leafIndex N (hashKey e.key) = i := by
  rw [bucket, List.mem_map]
  constructor
  · rintro ⟨p, hp, rfl⟩
    obtain ⟨hlive, hindex⟩ := List.mem_filter.1 hp
    exact ⟨Store.get_eq_some_iff.2 ⟨p.2, hlive, rfl⟩, eq_of_beq hindex⟩
  · rintro ⟨hlive, hindex⟩
    obtain ⟨entry, hentry, hfields⟩ := Store.get_eq_some_iff.1 hlive
    obtain ⟨hvalue, hver⟩ := Prod.mk.inj hfields
    exact ⟨(e.key, entry), List.mem_filter.2 ⟨hentry, beq_iff_eq.2 hindex⟩,
      KV.ext rfl hvalue.symm hver.symm⟩

/-- The keys and values of the live entries fit. -/
def ShortEntries (st : Store) : Prop :=
  ∀ key value version, st.get key = some (value, version) →
    key.length < 4294967296 ∧ value.length < 4294967296

theorem shortEntries_of_iterate {st : Store}
    (h : ∀ p ∈ st.iterate, p.1.length < 4294967296 ∧ p.2.value.length < 4294967296) :
    ShortEntries st := by
  intro key value version hget
  obtain ⟨e, he, hfields⟩ := Store.get_eq_some_iff.1 hget
  obtain ⟨rfl, -⟩ := Prod.mk.inj hfields
  exact h (key, e) he

theorem ShortEntries.bucket {st : Store} (h : ShortEntries st) {N i : Nat} :
    ∀ e ∈ bucket st N i, e.Short := by
  intro e he
  exact h _ _ _ (mem_bucket.1 he).1

/-- The strings that `Build` hashes for a tree, of leaves and of inner nodes. -/
def hashed (st : Store) (N : Nat) (t : Tree) : Set Bytes :=
  {x | (∃ i < N, x = (bucket st N i).flatMap KV.encode) ∨
    ∃ i, i + 1 < N ∧ x = t.hashes.getD (2 * i + 1) [] ++ t.hashes.getD (2 * i + 2) []}

section Pair

variable {A : Hasher} {a b : Store} {N : Nat} {ta tb : Tree}

theorem leafHash_eq_iff (ha : ShortEntries a) (hb : ShortEntries b)
    (hinj : Set.InjOn A.sha256 (hashed a N ta ∪ hashed b N tb)) {i : Nat} (hi : i < N) :
    leafHash A (bucket a N i) = leafHash A (bucket b N i) ↔ bucket a N i = bucket b N i := by
  constructor
  · intro h
    exact encode_flatMap_inj ha.bucket hb.bucket
      (hinj (.inl (.inl ⟨i, hi, rfl⟩)) (.inr (.inl ⟨i, hi, rfl⟩)) h)
  · intro h
    rw [h]

theorem diff_eq_nil_iff (hta : Built A a N ta) (htb : Built A b N tb) {diffs : List Nat}
    (hdiff : diff ta tb = .ok diffs) :
    diffs = [] ↔ ∀ i < N, leafHash A (bucket a N i) = leafHash A (bucket b N i) := by
  rw [diff_eq hta htb] at hdiff
  rw [← Except.ok.inj hdiff, List.filter_eq_nil_iff]
  simp

/-- A bucket is determined by the live triples in it. -/
theorem bucket_eq_iff {i : Nat} :
    bucket a N i = bucket b N i ↔
      {x ∈ liveTriples a | leafIndex N (hashKey x.1) = i} =
        {x ∈ liveTriples b | leafIndex N (hashKey x.1) = i} := by
  constructor
  · intro h
    ext x
    have hiff : (⟨x.1, x.2.1, x.2.2⟩ : KV) ∈ bucket a N i ↔ ⟨x.1, x.2.1, x.2.2⟩ ∈ bucket b N i := by
      rw [h]
    rw [mem_bucket, mem_bucket] at hiff
    exact hiff
  · intro h
    apply eq_of_pairwise_lt KV.key (bucket_pairwise a N i) (bucket_pairwise b N i)
    intro e
    rw [mem_bucket, mem_bucket]
    exact Set.ext_iff.1 h (e.key, e.value, e.ver)

/-- All buckets agree if and only if the live triples do. -/
theorem forall_bucket_eq_iff (hN : 0 < N) :
    (∀ i < N, bucket a N i = bucket b N i) ↔ liveTriples a = liveTriples b := by
  constructor
  · intro h
    ext x
    have hleaf := bucket_eq_iff.1 (h _ (leafIndex_lt hN (hashKey x.1)))
    simpa using Set.ext_iff.1 hleaf x
  · intro h i _
    rw [bucket_eq_iff, h]

/-! ## Equal roots -/

/-- Every place of a tree holds a digest. -/
theorem Built.length_hash (h : Built A a N ta) {j : Nat} (hj : j + 1 < 2 * N) :
    (ta.hashes.getD j []).length = 32 := by
  by_cases hinner : j + 1 < N
  · rw [h.hashes.node j (Nat.zero_le j) hinner]
    exact A.length_sha256 _
  · have hplace : N - 1 + (j - (N - 1)) = j := by omega
    rw [← hplace, h.hashes.leaf _ (by omega)]
    exact A.length_sha256 _

theorem root_eq_iff (hta : Built A a N ta) (htb : Built A b N tb) (hN : 0 < N)
    (hinj : Set.InjOn A.sha256 (hashed a N ta ∪ hashed b N tb)) :
    ta.hashes.getD 0 [] = tb.hashes.getD 0 [] ↔
      ∀ i < N, leafHash A (bucket a N i) = leafHash A (bucket b N i) := by
  constructor
  · intro hroot i hi
    have hall := hta.hashes.isHeap.eq_of_root htb.hashes.isHeap (by
      intro j hj hnode
      have hconcat := hinj (.inl (.inr ⟨j, hj, rfl⟩)) (.inr (.inr ⟨j, hj, rfl⟩)) hnode
      apply List.append_inj hconcat
      rw [hta.length_hash (by omega), htb.length_hash (by omega)]) hroot
    rw [← hta.hashes.leaf i hi, ← htb.hashes.leaf i hi]
    exact hall _ (by omega)
  · intro hleaf
    apply hta.hashes.isHeap.eq_of_leaves htb.hashes.isHeap _ 0 (by omega)
    intro i hi
    rw [hta.hashes.leaf i hi, htb.hashes.leaf i hi]
    exact hleaf i hi

/-- The count at the root is the number of live entries. -/
theorem Built.root_count (h : Built A a N ta) (hN : 0 < N) (hlen : a.LengthOk) :
    getAt ta.keyCounts 0 = .ok a.len := by
  have hplace : 0 < ta.keyCounts.length := by
    rw [h.keyCounts.length]
    omega
  have hsum : ta.keyCounts.getD 0 0 = ∑ i ∈ Finset.range N, ((bucket a N i).length : Int) := by
    rw [h.keyCounts.isHeap.root_eq_sum hN]
    apply Finset.sum_congr rfl
    intro i hi
    exact h.keyCounts.leaf i (Finset.mem_range.1 hi)
  have hcount : ∑ i ∈ Finset.range N, (bucket a N i).length = a.iterate.length := by
    simp only [bucket, List.length_map]
    apply sum_length_filter (f := fun p : Bytes × Entry => leafIndex N (hashKey p.1))
    intro p _
    exact leafIndex_lt hN _
  rw [← Store.length_iterate hlen, ← hcount, Nat.cast_sum, ← hsum]
  exact getAt_natCast hplace 0

end Pair

/-! ## Leaves as ranges of hashes -/

/-- The hash is in the `i`th of `N` ranges of equal width. -/
def InLeaf (N i : Nat) (h : UInt64) : Prop :=
  i * (18446744073709551616 / N) ≤ h.toNat ∧ h.toNat < (i + 1) * (18446744073709551616 / N)

/-- The ranges of a power of two of leaves are as wide as `Build` computes, and cover all hashes. -/
theorem width_of_isPowerOfTwo {N : Nat} (hpow : N.isPowerOfTwo)
    (hmax : N ≤ 18446744073709551616) :
    N * (18446744073709551616 / N) = 18446744073709551616 ∧
      maxUint64.toNat / N + 1 = 18446744073709551616 / N := by
  obtain ⟨W, hW⟩ : N ∣ 18446744073709551616 := by
    obtain ⟨k, rfl⟩ := hpow
    have hk : k ≤ 64 := (Nat.pow_le_pow_iff_right (a := 2) (by decide)).1 hmax
    exact Nat.pow_dvd_pow 2 hk
  have hNpos : 0 < N := by
    rcases Nat.eq_zero_or_pos N with rfl | hpos
    · omega
    · exact hpos
  have hWpos : 0 < W := by
    rcases Nat.eq_zero_or_pos W with rfl | hpos
    · omega
    · exact hpos
  rw [Nat.div_eq_of_eq_mul_right hNpos hW]
  refine ⟨hW.symm, ?_⟩
  have hmax64 : maxUint64.toNat = N * W - 1 := by
    rw [← hW]
    rfl
  have hsplit : N * W - 1 = (N - 1) + (W - 1) * N := by
    obtain ⟨w, rfl⟩ := Nat.exists_eq_add_one_of_ne_zero hWpos.ne'
    rw [Nat.mul_add_one, Nat.add_sub_cancel, Nat.mul_comm w]
    omega
  rw [hmax64, hsplit, Nat.add_mul_div_right _ _ hNpos, Nat.div_eq_of_lt (by omega)]
  omega

theorem leafIndex_eq_iff {N i : Nat} (hpow : N.isPowerOfTwo) (hmax : N ≤ 18446744073709551616)
    {h : UInt64} : leafIndex N h = i ↔ InLeaf N i h := by
  obtain ⟨hcover, hwidth⟩ := width_of_isPowerOfTwo hpow hmax
  have hWpos : 0 < 18446744073709551616 / N := by
    rw [← hwidth]
    exact Nat.succ_pos _
  have hlt : h.toNat / (18446744073709551616 / N) < N := by
    rw [Nat.div_lt_iff_lt_mul hWpos, hcover]
    exact h.toNat_lt
  rw [leafIndex, InLeaf, hwidth, ← Nat.le_div_iff_mul_le hWpos, ← Nat.div_lt_iff_lt_mul hWpos]
  omega

/-- The live triples of a store whose key hash falls in leaf `i` of `N`. -/
def leafTriples (st : Store) (N i : Nat) : Set (Bytes × Bytes × Int64) :=
  {x ∈ liveTriples st | InLeaf N i (hashKey x.1)}

theorem bucket_eq_iff_leafTriples {a b : Store} {N i : Nat} (hpow : N.isPowerOfTwo)
    (hmax : N ≤ 18446744073709551616) :
    bucket a N i = bucket b N i ↔ leafTriples a N i = leafTriples b N i := by
  rw [bucket_eq_iff]
  simp only [leafIndex_eq_iff hpow hmax]
  rfl

/-! ## The comparison -/

/-- **Merkle comparison is exact on live data.** For two reachable stores with short keys and values
and a power of two of at least 2 as the number of leaves, `Build` returns, the root counts are the
lengths, and if SHA-256 is injective on what is hashed, `Diff` lists exactly the leaves in which the
live triples differ; the roots are equal if and only if it lists none, which is the case if and only
if the live triples are the same. -/
theorem comparison_exact {A : Hasher} {fits : Nat → Bool} {a b : Store} {n : Int64} {N : Nat}
    (ha : a.Reachable) (hb : b.Reachable) (hsa : ShortEntries a) (hsb : ShortEntries b)
    (hn : n.toInt = N) (hpow : N.isPowerOfTwo) (htwo : 2 ≤ N) (hfits : Allocatable fits n) :
    ∃ ta tb, build A fits a n = .ok ta ∧ build A fits b n = .ok tb ∧
      getAt ta.keyCounts 0 = .ok a.len ∧ getAt tb.keyCounts 0 = .ok b.len ∧
      (Set.InjOn A.sha256 (hashed a N ta ∪ hashed b N tb) →
        ∃ diffs ra rb, diff ta tb = .ok diffs ∧ ta.rootHash = .ok ra ∧ tb.rootHash = .ok rb ∧
          (∀ i, i ∈ diffs ↔ i < N ∧ leafTriples a N i ≠ leafTriples b N i) ∧
          (ra = rb ↔ diffs = []) ∧ (diffs = [] ↔ liveTriples a = liveTriples b)) := by
  have hcount := leafCount_of_isPowerOfTwo hn hpow
  have hpos : 0 < N := by omega
  rw [← hcount] at hfits
  have hN : (leafCount n).toInt = N := by rw [hcount, hn]
  have hmany : ∀ st : Store, N = 1 → st.iterate = [] := by
    intro st hone
    omega
  obtain ⟨ta, hbuilda, hta⟩ := build_ok (A := A) hfits hN (hmany a)
  obtain ⟨tb, hbuildb, htb⟩ := build_ok (A := A) hfits hN (hmany b)
  refine ⟨ta, tb, hbuilda, hbuildb, hta.root_count hpos ha.lengthOk,
    htb.root_count hpos hb.lengthOk, ?_⟩
  intro hinj
  have hdiff := diff_eq hta htb
  have hnil := diff_eq_nil_iff hta htb hdiff
  have hmax : N ≤ 18446744073709551616 := by
    have := n.toInt_lt
    omega
  have hleaf : ∀ i < N, leafHash A (bucket a N i) = leafHash A (bucket b N i) ↔
      bucket a N i = bucket b N i := fun i hi => leafHash_eq_iff hsa hsb hinj hi
  refine ⟨_, _, _, hdiff, hta.rootHash_eq hpos, htb.rootHash_eq hpos, ?_, ?_, ?_⟩
  · intro i
    rw [List.mem_filter, List.mem_range, decide_eq_true_eq]
    apply and_congr_right
    intro hi
    rw [ne_eq, hleaf i hi, bucket_eq_iff_leafTriples hpow hmax]
  · rw [hnil, root_eq_iff hta htb hpos hinj]
  · rw [hnil, ← forall_bucket_eq_iff hpos]
    exact forall₂_congr hleaf

/-- What is hashed for a tree with two leaves. -/
def hashedTwo (A : Hasher) (st : Store) : List Bytes :=
  let left := (bucket st 2 0).flatMap KV.encode
  let right := (bucket st 2 1).flatMap KV.encode
  [left, right, A.sha256 left ++ A.sha256 right]

theorem Built.hashed_two {A : Hasher} {st : Store} {t : Tree} (h : Built A st 2 t) {x : Bytes}
    (hx : x ∈ hashed st 2 t) : x ∈ hashedTwo A st := by
  rcases hx with ⟨i, hi, rfl⟩ | ⟨i, hi, rfl⟩
  · have hcases : i = 0 ∨ i = 1 := by omega
    rcases hcases with rfl | rfl
    · exact List.mem_cons_self
    · exact List.mem_cons_of_mem _ List.mem_cons_self
  · have hzero : i = 0 := by omega
    rw [hzero]
    have hleft := h.hashes.leaf 0 (by decide)
    have hright := h.hashes.leaf 1 (by decide)
    rw [hleft, hright]
    exact List.mem_cons_of_mem _ (List.mem_cons_of_mem _ List.mem_cons_self)

/-- For two leaves, injectivity is a finite condition. -/
theorem injOn_hashedTwo {A : Hasher} {a b : Store} {ta tb : Tree} (hta : Built A a 2 ta)
    (htb : Built A b 2 tb)
    (h : ∀ x ∈ hashedTwo A a ++ hashedTwo A b, ∀ y ∈ hashedTwo A a ++ hashedTwo A b,
      A.sha256 x = A.sha256 y → x = y) :
    Set.InjOn A.sha256 (hashed a 2 ta ∪ hashed b 2 tb) := by
  have hmem : ∀ x ∈ hashed a 2 ta ∪ hashed b 2 tb, x ∈ hashedTwo A a ++ hashedTwo A b := by
    intro x hx
    exact List.mem_append.2 (hx.imp hta.hashed_two htb.hashed_two)
  intro x hx y hy
  exact h x (hmem x hx) y (hmem y hy)

/-- Two stores that differ in the value of a key, with two leaves and SHA-256. -/
theorem comparison_exact_pair :
    ∃ ta tb diffs,
      build Hasher.standard (fun _ => true) (Store.new.set (str "a") (str "1")).1 2 = .ok ta ∧
      build Hasher.standard (fun _ => true) (Store.new.set (str "a") (str "2")).1 2 = .ok tb ∧
      diff ta tb = .ok diffs ∧
      (diffs = [] ↔ liveTriples (Store.new.set (str "a") (str "1")).1 =
        liveTriples (Store.new.set (str "a") (str "2")).1) := by
  have hfits : Allocatable (fun _ => true) 2 := ⟨rfl, by decide, rfl⟩
  obtain ⟨ta, tb, hta, htb, -, -, hrest⟩ := comparison_exact (A := Hasher.standard)
    (a := (Store.new.set (str "a") (str "1")).1) (b := (Store.new.set (str "a") (str "2")).1)
    (N := 2)
    ⟨[.set (str "a") (str "1")], rfl⟩ ⟨[.set (str "a") (str "2")], rfl⟩
    (shortEntries_of_iterate (by decide +kernel)) (shortEntries_of_iterate (by decide +kernel))
    rfl ⟨1, rfl⟩ (by decide) hfits
  -- the strings that are hashed have different digests
  obtain ⟨diffs, -, -, hdiff, -, -, -, -, hempty⟩ := hrest
    (injOn_hashedTwo (built_of_build hta rfl) (built_of_build htb rfl) (by decide +kernel))
  exact ⟨ta, tb, diffs, hta, htb, hdiff, hempty⟩

end Hapartition.Merkle
