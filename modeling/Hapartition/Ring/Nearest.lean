import Hapartition.Ring.Membership

/-!
# The nearest node owns the key

Nodes join a ring with 256 virtual nodes each; `Lists H r ids` says that the ring carries exactly
the nodes `ids`, so joined. The node with the nearest virtual node clockwise from a key is the first
of its owners (`Lists.head?_owners`), and the second is the first on the ring without it
(`replicasFor_two`). So a few comparisons of hashes decide the replica set of a key on a large ring,
with no need to sort it.
-/

set_option autoImplicit false

namespace Hapartition

open Lib

namespace Hashring

variable {H : Hashing} {r : Hashring} {ids : List Bytes} {key : Bytes}

/-- The nodes `ids` are on the ring, with 256 virtual nodes each, and no others. -/
def Lists (H : Hashing) (r : Hashring) (ids : List Bytes) : Prop :=
  ∃ m, Reflects H r m ∧
    ∀ (n : Bytes) (c : Int), m[n]?.map Prod.snd = some c ↔ n ∈ ids ∧ c = 256

theorem lists_new (localNodeID : Bytes) : Lists H (new localNodeID) [] :=
  ⟨∅, reflects_new H localNodeID, fun n c => by simp⟩

namespace Lists

theorem addNode (h : Lists H r ids) (nodeID address : Bytes) :
    Lists H (r.addNode H nodeID address 256) (nodeID :: ids) := by
  obtain ⟨m, hr, hm⟩ := h
  refine ⟨_, hr.addNode nodeID address 256, ?_⟩
  intro n c
  rw [Dict.getElem?_insert]
  by_cases hn : nodeID = n
  · subst hn
    have hcount : effectiveReplicas 5 256 = 256 := rfl
    simp [hcount, eq_comm]
  · rw [if_neg hn, hm n]
    simp only [List.mem_cons, Ne.symm hn, false_or]

theorem removeNode (h : Lists H r ids) (nodeID : Bytes) :
    Lists H (r.removeNode nodeID) (ids.filter fun n => decide (n ≠ nodeID)) := by
  obtain ⟨m, hr, hm⟩ := h
  refine ⟨_, hr.removeNode nodeID, ?_⟩
  intro n c
  rw [Dict.getElem?_erase]
  by_cases hn : nodeID = n
  · simp [hn]
  · rw [if_neg hn, hm n]
    simp only [List.mem_filter, decide_eq_true_eq, ne_eq, Ne.symm hn, not_false_eq_true, and_true]

theorem sorted (h : Lists H r ids) : r.Sorted := by
  obtain ⟨m, hr, -⟩ := h
  exact hr.sorted

/-- Every virtual node is one of the 256 of a listed node. -/
theorem of_mem_entries (h : Lists H r ids) {e : RingEntry} (he : e ∈ r.entries) :
    e.nodeID ∈ ids ∧ ∃ i < 256, e.hash = hashKey H (vnodeLabel e.nodeID i) := by
  obtain ⟨m, hr, hm⟩ := h
  obtain ⟨n, a, c, i, hn, hi, rfl⟩ := hr.mem_entries.1 he
  obtain ⟨hmem, rfl⟩ := (hm n c).1 (by rw [hn, Option.map_some])
  exact ⟨hmem, i, hi, rfl⟩

theorem exists_mem_entries (h : Lists H r ids) {n : Bytes} (hn : n ∈ ids) {i : Nat}
    (hi : i < 256) : ∃ e ∈ r.entries, e.nodeID = n ∧ e.hash = hashKey H (vnodeLabel n i) := by
  obtain ⟨m, hr, hm⟩ := h
  obtain ⟨⟨a, c⟩, hmem, rfl⟩ := Option.map_eq_some_iff.1 ((hm n 256).2 ⟨hn, rfl⟩)
  exact ⟨_, hr.mem_entries.2 ⟨n, a, _, i, hmem, hi, rfl⟩, rfl, rfl⟩

/-- A node with a virtual node at or above the key, such that no virtual node of another node lies
between, is the first owner of the key. -/
theorem head?_owners (h : Lists H r ids) {n : Bytes} (hn : n ∈ ids) {i : Nat} (hi : i < 256)
    (hle : hashKey H key ≤ hashKey H (vnodeLabel n i))
    (hfar : ∀ n' ∈ ids, n' ≠ n → ∀ j < 256,
      ¬ (hashKey H key ≤ hashKey H (vnodeLabel n' j) ∧
        hashKey H (vnodeLabel n' j) ≤ hashKey H (vnodeLabel n i))) :
    (r.owners H key).head?.map RingEntry.nodeID = some n := by
  obtain ⟨e, he, -, hhash⟩ := h.exists_mem_entries hn hi
  obtain ⟨a, hhead, ha, hka, hae⟩ := head?_clockwise h.sorted he (hhash ▸ hle)
  obtain ⟨hmem, j, hj, hjhash⟩ := h.of_mem_entries ha
  rw [Hashring.head?_owners, hhead, Option.map_some, Option.some.injEq]
  -- the walk starts at a point no farther than the given one; if another node had it, it would lie
  -- between the key and that point
  by_contra hne
  refine hfar a.nodeID hmem hne j hj ⟨hjhash ▸ hka, ?_⟩
  rw [← hjhash, ← hhash]
  exact hae

/-- A node that is alone on the ring owns every key. -/
theorem head?_owners_of_forall (h : Lists H r ids) {n : Bytes} (hn : n ∈ ids)
    (hall : ∀ n' ∈ ids, n' = n) : (r.owners H key).head?.map RingEntry.nodeID = some n := by
  obtain ⟨e, he, -, -⟩ := h.exists_mem_entries hn (Nat.zero_lt_succ 255)
  rw [Hashring.head?_owners]
  cases hc : clockwise RingEntry.hash (hashKey H key) r.entries with
  | nil => exact absurd (clockwise_eq_nil_iff.1 hc) (List.ne_nil_of_mem he)
  | cons a l =>
      have ha : a ∈ r.entries := mem_clockwise.1 (hc ▸ List.mem_cons_self)
      exact congrArg some (hall a.nodeID (h.of_mem_entries ha).1)

end Lists

/-! ## From owners to lookups -/

theorem getNode_of_head? (hs : r.Sorted) {n : Bytes}
    (h : (r.owners H key).head?.map RingEntry.nodeID = some n) : (r.getNode H key).1 = n := by
  obtain ⟨e, he, rfl⟩ := Option.map_eq_some_iff.1 h
  rw [getNode_eq H r hs, he]

/-- The second replica is the first owner once the first is gone. -/
theorem replicasFor_two (hs : r.Sorted) {n n' : Bytes}
    (h : (r.owners H key).head?.map RingEntry.nodeID = some n)
    (h' : ((r.removeNode n).owners H key).head?.map RingEntry.nodeID = some n') :
    (r.replicasFor H key 2).map Replica.nodeID = [n, n'] := by
  obtain ⟨e, he, rfl⟩ := Option.map_eq_some_iff.1 h
  obtain ⟨l, hl⟩ := List.head?_eq_some_iff.1 he
  have hnodup : ((r.owners H key).map RingEntry.nodeID).Nodup := nodup_map_distinctOn _
  rw [hl, List.map_cons, List.nodup_cons] at hnodup
  -- the owners are distinct, so removing the first leaves the rest of the list
  have hrest : (r.removeNode e.nodeID).owners H key = l := by
    rw [owners_removeNode, hl, List.filter_cons_of_neg (by simp)]
    refine List.filter_eq_self.2 fun a ha => decide_eq_true ?_
    rintro hae
    exact hnodup.1 (hae ▸ List.mem_map_of_mem ha)
  rw [hrest] at h'
  obtain ⟨e', he', rfl⟩ := Option.map_eq_some_iff.1 h'
  obtain ⟨l', rfl⟩ := List.head?_eq_some_iff.1 he'
  rw [replicasFor_eq H r hs, hl]
  rfl

/-! ## Two nodes

The key `foo` on rings of the nodes `n1` and `n2`, under the hash function of the program: `n1` is
its first owner. -/

/-- No virtual node of `n2` lies between `foo` and the 79th virtual node of `n1`. -/
theorem far_n2 : ∀ j < 256,
    ¬ (hashKey .xxhash (str "foo") ≤
        hashKey .xxhash (vnodeLabel (str "n2") j) ∧
      hashKey .xxhash (vnodeLabel (str "n2") j) ≤
        hashKey .xxhash (vnodeLabel (str "n1") 79)) := by
  decide +kernel

theorem near_n1 : hashKey .xxhash (str "foo") ≤
    hashKey .xxhash (vnodeLabel (str "n1") 79) := by
  decide +kernel

/-- On rings of `n1` and `n2`, the owners of `foo` are `n1` and then `n2`. -/
theorem owners_foo {ring : Hashring} {ids : List Bytes} (h : ring.Lists .xxhash ids)
    (hperm : ids.Perm [str "n1", str "n2"]) :
    (ring.owners .xxhash (str "foo")).head?.map RingEntry.nodeID = some (str "n1") ∧
      ((ring.removeNode (str "n1")).owners .xxhash (str "foo")).head?.map RingEntry.nodeID =
        some (str "n2") := by
  have hids : ∀ n, n ∈ ids ↔ n = str "n1" ∨ n = str "n2" := by simp [hperm.mem_iff]
  constructor
  · refine h.head?_owners ((hids _).2 (.inl rfl)) (by omega) near_n1 fun n hn hne => ?_
    obtain rfl := ((hids n).1 hn).resolve_left hne
    exact far_n2
  · refine (h.removeNode _).head?_owners_of_forall ?_ fun n hn => ?_
    · exact List.mem_filter.2 ⟨(hids _).2 (.inr rfl), by decide⟩
    · obtain ⟨hmem, hne⟩ := List.mem_filter.1 hn
      exact ((hids n).1 hmem).resolve_left (of_decide_eq_true hne)

end Hashring

end Hapartition
