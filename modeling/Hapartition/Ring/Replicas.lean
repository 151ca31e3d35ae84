import Hapartition.Ring.Disruption

/-!
# Replica sets are prefixes of the clockwise order of nodes

On a ring that `AddNode` and `RemoveNode` can build, every node of the ring is met on the clockwise
walk from any key (`Reflects.owners_perm_nodeIDs`), and each virtual node carries the address of its
node. So `GetReplicas` returns as many of the nodes as there are, under their addresses, in
clockwise order, exactly when the slice that it makes for its result can be allocated
(`replicas_clockwise_iff`).
-/

set_option autoImplicit false

namespace Hapartition.Hashring

open Lib

variable {H : Hashing} {r : Hashring} {ops : List Op}

/-- The walk meets every node of the ring, and no other. -/
theorem Reflects.owners_perm_nodeIDs (h : Reflects H r (membership ops)) (key : Bytes) :
    ((r.owners H key).map RingEntry.nodeID).Perm r.nodeIDs := by
  apply (List.perm_ext_iff_of_nodup (nodup_owners H r key) Std.ExtTreeMap.nodup_keys).2
  intro n
  show n ∈ _ ↔ n ∈ r.nodeIDs
  rw [h.mem_nodeIDs, owners, mem_map_distinctOn, List.mem_map]
  constructor
  · rintro ⟨e, he, rfl⟩
    obtain ⟨n, a, c, i, hn, -, rfl⟩ := h.mem_entries.1 (mem_clockwise.1 he)
    exact ⟨(a, c), hn⟩
  · rintro ⟨p, hn⟩
    -- the first virtual node of a member is there
    have hpos : 0 < p.2 := pos_of_membership hn
    have hentry := h.mem_entries.2 ⟨n, p.1, p.2, 0, hn, by omega, rfl⟩
    exact ⟨_, mem_clockwise.2 hentry, rfl⟩

theorem Reflects.entries_eq_nil_iff (h : Reflects H r (membership ops)) :
    r.entries = [] ↔ r.nodeIDs = [] := by
  constructor
  · intro hnil
    apply List.eq_nil_iff_forall_not_mem.2
    intro n hn
    obtain ⟨p, hp⟩ := h.mem_nodeIDs.1 hn
    exact h.entries_ne_nil hp hnil
  · intro hnil
    apply List.eq_nil_iff_forall_not_mem.2
    intro e he
    obtain ⟨n, a, c, i, hn, -, -⟩ := h.mem_entries.1 he
    have hmem := h.mem_nodeIDs.2 ⟨_, hn⟩
    rw [hnil] at hmem
    cases hmem

/-- The list `l` has the first `count` nodes in clockwise order from the key. -/
structure Clockwise (H : Hashing) (r : Hashring) (m : Members) (key : Bytes) (count : Int)
    (l : List Replica) : Prop where
  /-- The walk is over the virtual nodes in ascending order. -/
  sorted : r.ringSnapshot.Pairwise fun a b => a.hash ≤ b.hash
  /-- From the first hash at or above that of the key, then from the smallest one on. -/
  replicas : l =
    ((distinctOn RingEntry.nodeID
      (Lib.clockwise RingEntry.hash (hashKey H key) r.ringSnapshot)).take
        (max count 0).toNat).map RingEntry.replica
  nodup : (l.map Replica.nodeID).Nodup
  length : (l.length : Int) = min (max count 0) r.nodeIDs.length
  address : ∀ x ∈ l, ∃ replicas, m[x.nodeID]? = some (x.address, replicas)
  head : 1 ≤ count → r.nodeIDs ≠ [] →
    l.head? = some ⟨(r.getNode H key).1, (r.getNode H key).2⟩

theorem Reflects.clockwise (h : Reflects H r (membership ops)) (key : Bytes) (count : Int) :
    Clockwise H r (membership ops) key count (r.replicasFor H key count) where
  sorted := h.sorted
  replicas := by
    have hcount : (max count 0).toNat = count.toNat := by omega
    rw [replicasFor_eq H r h.sorted, hcount]
    rfl
  nodup := nodup_replicasFor H r key count
  length := by
    have hnodes := (h.owners_perm_nodeIDs key).length_eq
    rw [List.length_map] at hnodes
    rw [replicasFor_eq H r h.sorted, List.length_map, List.length_take, hnodes]
    omega
  address x hx := by
    obtain ⟨e, he, rfl⟩ := exists_entry_of_mem_replicasFor H h.sorted hx
    obtain ⟨n, a, c, i, hn, -, rfl⟩ := h.mem_entries.1 he
    exact ⟨c, hn⟩
  head hcount hne := by
    have howners : r.owners H key ≠ [] := by
      intro hnil
      have hperm := h.owners_perm_nodeIDs key
      rw [hnil, List.map_nil] at hperm
      exact hne (List.nil_perm.1 hperm)
    obtain ⟨e, l, hl⟩ := List.exists_cons_of_ne_nil howners
    obtain ⟨k, hk⟩ : ∃ k, count.toNat = k + 1 := ⟨count.toNat - 1, by omega⟩
    rw [getNode_eq H r h.sorted, replicasFor_eq H r h.sorted, hl, hk]
    rfl

/-- Fewer replicas are the first of more. -/
theorem replicasFor_prefix (hs : r.Sorted) (key : Bytes) {count count' : Int}
    (hle : count ≤ count') : r.replicasFor H key count <+: r.replicasFor H key count' := by
  rw [replicasFor_eq H r hs, replicasFor_eq H r hs]
  apply List.IsPrefix.map
  exact List.take_prefix_take_left (by omega)

/-- `GetReplicas` returns the first `count` nodes in clockwise order from the key, and for every
smaller count the first of them. -/
def ReturnsClockwise (A : Allocator) (H : Hashing) (r : Hashring) (m : Members) (key : Bytes)
    (count : Int64) : Prop :=
  ∃ l, r.getReplicas H A key count = .ok l ∧ Clockwise H r m key count.toInt l ∧
    ∀ c ≤ count, ∃ l', r.getReplicas H A key c = .ok l' ∧ l' <+: l

/-- **Replica sets are prefixes of the clockwise order.** On every ring that `AddNode` and
`RemoveNode` can build and for every key, `GetReplicas` returns the first nodes, as many as asked
for, in the order in which the walk over all virtual nodes from the hash of the key meets them, each
once and under its current address; the first one is the owner of the key. The exception is a count
for which the slice of the result cannot be allocated, on a ring that is not empty. -/
theorem replicas_clockwise_iff (A : Allocator) (H : Hashing) (id : Bytes) (ops : List Op)
    (key : Bytes) (count : Int64) :
    ReturnsClockwise A H (build H id ops) (membership ops) key count ↔
      (build H id ops).nodeIDs = [] ∨ count ≤ 0 ∨ A.fits count.toInt.toNat = true := by
  have h := reflects_build H id ops
  rw [← h.entries_eq_nil_iff]
  constructor
  · rintro ⟨l, hl, -⟩
    exact ((getReplicas_eq_ok_iff H).1 hl).1
  · intro hallocates
    refine ⟨_, getReplicas_of_allocates H hallocates, h.clockwise key count.toInt, ?_⟩
    intro c hle
    exact ⟨_, getReplicas_of_allocates H (Allocates.mono hallocates hle),
      replicasFor_prefix h.sorted key (Int64.le_iff_toInt_le.1 hle)⟩

/-- One node, and `2 ^ 62` replicas asked for. A `Replica` has 32 bytes, and an allocation at most
`2 ^ 48`: the slice cannot be made. -/
theorem capacity_panics :
    (build .xxhash (str "node-local")
        [.addNode (str "node-a") (str "10.0.0.1:6379") 100]).getReplicas .xxhash (.upTo (2 ^ 43))
          (str "key") 4611686018427387904 = .error .makeSlice ∧
      ¬ ReturnsClockwise (.upTo (2 ^ 43)) .xxhash
        (build .xxhash (str "node-local") [.addNode (str "node-a") (str "10.0.0.1:6379") 100])
        (membership [.addNode (str "node-a") (str "10.0.0.1:6379") 100]) (str "key")
        4611686018427387904 := by
  have hne := (reflects_build .xxhash (str "node-local")
    [.addNode (str "node-a") (str "10.0.0.1:6379") 100]).entries_ne_nil (n := str "node-a")
      (p := (str "10.0.0.1:6379", 100)) (by decide)
  have hnot : ¬ (build .xxhash (str "node-local")
      [.addNode (str "node-a") (str "10.0.0.1:6379") 100]).Allocates (.upTo (2 ^ 43))
        4611686018427387904 := by
    rintro (hnil | hneg | hfits)
    · exact hne hnil
    · exact absurd hneg (by decide)
    · exact absurd hfits (by decide)
  refine ⟨getReplicas_of_not_allocates .xxhash hnot, ?_⟩
  rintro ⟨l, hl, -⟩
  exact hnot ((getReplicas_eq_ok_iff .xxhash).1 hl).1

end Hapartition.Hashring
