import Hapartition.Ring.Lookup

/-!
# The ring is a function of the membership

A history is a finite sequence of `AddNode` and `RemoveNode` calls on a ring made by `New`. Its
membership is the map from node IDs to the address and number of virtual nodes of the last
`AddNode` that no `RemoveNode` followed. Whatever the history, the virtual nodes on the ring are,
up to their order, those of its membership (`reflects_build`). When the hash is injective on the
labels of the membership, the order is determined as well (`entries_unique`), so all lookups depend
on the membership only (`Reflects.sameLookups`).
-/

set_option autoImplicit false

namespace Hapartition

open Lib
open Std (ExtTreeMap LawfulEqCmp)

namespace Hashring

/-- One change of the ring. -/
inductive Op where
  | addNode (nodeID address : Bytes) (replicas : Int)
  | removeNode (nodeID : Bytes)

/-- Node IDs with their address and number of virtual nodes. -/
abbrev Members := ExtTreeMap Bytes (Bytes × Int) compare

/-- The effect of a call on the membership. -/
def Op.members (m : Members) : Op → Members
  | .addNode nodeID address replicas => m.insert nodeID (address, effectiveReplicas 5 replicas)
  | .removeNode nodeID => m.erase nodeID

/-- The membership after a history. -/
def membership (ops : List Op) : Members := ops.foldl Op.members ∅

variable (H : Hashing)

/-- The effect of a call on the ring. -/
def Op.apply (r : Hashring) : Op → Hashring
  | .addNode nodeID address replicas => r.addNode H nodeID address replicas
  | .removeNode nodeID => r.removeNode nodeID

/-- The ring after a history. -/
def build (localNodeID : Bytes) (ops : List Op) : Hashring :=
  ops.foldl (Op.apply H) (new localNodeID)

/-- The virtual nodes of a membership, node by node. -/
def Members.vnodes (m : Members) : List RingEntry :=
  m.toList.flatMap fun p => Hashring.vnodes H p.1 p.2.1 p.2.2

/-! ## The ring reflects the membership -/

/-- The ring holds the virtual nodes of the membership and the matching bookkeeping. -/
structure Reflects (r : Hashring) (m : Members) : Prop where
  replicas : r.replicas = 5
  nodes : ∀ id : Bytes, r.nodes[id]? = m[id]?.map fun _ => ()
  nodeReplicas : ∀ id : Bytes, r.nodeReplicas[id]? = m[id]?.map Prod.snd
  perm : r.entries.Perm (m.vnodes H)
  sorted : r.Sorted

theorem reflects_new (localNodeID : Bytes) : Reflects H (new localNodeID) ∅ where
  replicas := rfl
  nodes id := by simp [new]
  nodeReplicas id := by simp [new]
  perm := List.Perm.refl _
  sorted := List.Pairwise.nil

theorem nodeID_of_mem_vnodes {e : RingEntry} {nodeID address : Bytes} {n : Int}
    (h : e ∈ vnodes H nodeID address n) : e.nodeID = nodeID := by
  obtain ⟨i, -, rfl⟩ := List.mem_map.1 h
  rfl

/-- Dropping the virtual nodes of a node from those of a list of nodes. -/
theorem filter_flatMap_vnodes (l : List (Bytes × (Bytes × Int))) (nodeID : Bytes) :
    (l.flatMap fun p => vnodes H p.1 p.2.1 p.2.2).filter (fun e => decide (e.nodeID ≠ nodeID)) =
      (l.filter fun p => decide (p.1 ≠ nodeID)).flatMap fun p => vnodes H p.1 p.2.1 p.2.2 := by
  induction l with
  | nil => rfl
  | cons p l ih =>
      rw [List.flatMap_cons, List.filter_append, ih]
      -- the virtual nodes of one node all carry its ID, so they stay or go together
      by_cases hp : p.1 = nodeID
      · rw [List.filter_cons_of_neg (by simpa using hp), List.filter_eq_nil_iff.2, List.nil_append]
        intro e he
        simpa [nodeID_of_mem_vnodes H he] using hp
      · rw [List.filter_cons_of_pos (by simpa using hp), List.flatMap_cons,
          List.filter_eq_self.2]
        intro e he
        simpa [nodeID_of_mem_vnodes H he] using hp

variable {H}

theorem Reflects.removeNode {r : Hashring} {m : Members} (h : Reflects H r m) (nodeID : Bytes) :
    Reflects H (r.removeNode nodeID) (m.erase nodeID) where
  replicas := h.replicas
  nodes id := by
    show (r.nodes.erase nodeID)[id]? = _
    rw [Dict.getElem?_erase, Dict.getElem?_erase, h.nodes]
    split <;> rfl
  nodeReplicas id := by
    show (r.nodeReplicas.erase nodeID)[id]? = _
    rw [Dict.getElem?_erase, Dict.getElem?_erase, h.nodeReplicas]
    split <;> rfl
  perm := by
    have hp := h.perm.filter fun e => decide (e.nodeID ≠ nodeID)
    rw [Members.vnodes, filter_flatMap_vnodes] at hp
    exact hp.trans ((Dict.toList_erase_perm m nodeID).symm.flatMap_right _)
  sorted := sorted_removeNode h.sorted nodeID

theorem Reflects.addNode {r : Hashring} {m : Members} (h : Reflects H r m)
    (nodeID address : Bytes) (replicas : Int) :
    Reflects H (r.addNode H nodeID address replicas)
      (m.insert nodeID (address, effectiveReplicas 5 replicas)) := by
  have hr := h.removeNode nodeID
  have hcount : effectiveReplicas r.replicas replicas = effectiveReplicas 5 replicas := by
    rw [h.replicas]
  refine ⟨h.replicas, fun id => ?_, fun id => ?_, ?_, H.sorter.sorted _ _⟩
  · show ((r.removeNode nodeID).nodes.insert nodeID ())[id]? = _
    rw [Dict.getElem?_insert, hr.nodes, Dict.getElem?_insert, Dict.getElem?_erase]
    split <;> rfl
  · show ((r.removeNode nodeID).nodeReplicas.insert nodeID
      (effectiveReplicas r.replicas replicas))[id]? = _
    rw [Dict.getElem?_insert, hr.nodeReplicas, Dict.getElem?_insert, Dict.getElem?_erase, hcount]
    split <;> rfl
  · show (H.sorter.sort RingEntry.hash ((r.removeNode nodeID).entries ++
      vnodes H nodeID address (effectiveReplicas r.replicas replicas))).Perm _
    rw [hcount]
    refine (H.sorter.perm _ _).trans ?_
    have hins := (Dict.toList_insert_perm m nodeID
      (address, effectiveReplicas 5 replicas)).flatMap_right
        fun p => vnodes H p.1 p.2.1 p.2.2
    -- new virtual nodes behind the others on the ring, in front of them in the membership
    refine List.Perm.trans ?_ hins.symm
    rw [List.flatMap_cons]
    refine List.perm_append_comm.trans (List.Perm.append_left _ ?_)
    exact hr.perm.trans ((Dict.toList_erase_perm m nodeID).flatMap_right _)

theorem Reflects.apply {r : Hashring} {m : Members} (h : Reflects H r m) (op : Op) :
    Reflects H (op.apply H r) (op.members m) := by
  cases op with
  | addNode nodeID address replicas => exact h.addNode nodeID address replicas
  | removeNode nodeID => exact h.removeNode nodeID

variable (H)

/-- Every history keeps the ring in step with its membership. -/
theorem reflects_build (localNodeID : Bytes) (ops : List Op) :
    Reflects H (build H localNodeID ops) (membership ops) := by
  -- from any ring and membership in step, not only from the empty ones
  have key : ∀ (ops : List Op) (r : Hashring) (m : Members), Reflects H r m →
      Reflects H (ops.foldl (Op.apply H) r) (ops.foldl Op.members m) := by
    intro ops
    induction ops with
    | nil => exact fun r m h => h
    | cons op ops ih => exact fun r m h => ih _ _ (h.apply op)
  exact key ops _ _ (reflects_new H localNodeID)

/-! ## Labels -/

/-- The label of a virtual node determines the node and the index: the part after the last colon
is the numeral. -/
theorem vnodeLabel_injective {n n' : Bytes} {i j : Nat} (h : vnodeLabel n i = vnodeLabel n' j) :
    n = n' ∧ i = j := by
  -- read from the end: a node ID may hold colons, a numeral does not
  have hcolon : ∀ k : Nat, ∀ b ∈ (itoa k).reverse, (decide (b ≠ 58)) = true := by
    intro k b hb
    refine decide_eq_true ?_
    rintro rfl
    rcases mem_itoa (List.mem_reverse.1 hb) with h | h
    · simp at h
    · simp [isDigit] at h
  have htail : ∀ (n : Bytes) (k : Nat),
      (vnodeLabel n k).reverse.takeWhile (fun b => decide (b ≠ 58)) = (itoa k).reverse := by
    intro n k
    rw [vnodeLabel, List.reverse_append, List.reverse_cons, List.append_assoc,
      List.takeWhile_append_of_pos (hcolon k)]
    simp
  have hnum : itoa i = itoa j := by
    have := htail n i
    rw [h, htail n' j, List.reverse_inj] at this
    exact this.symm
  refine ⟨?_, ?_⟩
  · rw [vnodeLabel, vnodeLabel, hnum] at h
    exact List.append_cancel_right h
  · have := atoiUnbounded_itoa i
    rw [hnum, atoiUnbounded_itoa, Option.some.injEq] at this
    omega

/-- The hash is injective on the labels of the virtual nodes of a membership. -/
def DistinctHashes (m : Members) : Prop :=
  ∀ (n n' a a' : Bytes) (c c' : Int) (i j : Nat), m[n]? = some (a, c) → m[n']? = some (a', c') →
    i < c.toNat → j < c'.toNat → hashKey H (vnodeLabel n i) = hashKey H (vnodeLabel n' j) →
      vnodeLabel n i = vnodeLabel n' j

theorem mem_vnodes_iff {m : Members} {e : RingEntry} :
    e ∈ m.vnodes H ↔ ∃ (n a : Bytes) (c : Int) (i : Nat), m[n]? = some (a, c) ∧ i < c.toNat ∧
      e = ⟨hashKey H (vnodeLabel n i), n, a⟩ := by
  simp only [Members.vnodes, Hashring.vnodes, List.mem_flatMap, List.mem_map, List.mem_range]
  constructor
  · rintro ⟨⟨n, a, c⟩, hp, i, hi, rfl⟩
    exact ⟨n, a, c, i, ExtTreeMap.mem_toList_iff_getElem?_eq_some.1 hp, hi, rfl⟩
  · rintro ⟨n, a, c, i, hp, hi, rfl⟩
    exact ⟨(n, a, c), ExtTreeMap.mem_toList_iff_getElem?_eq_some.2 hp, i, hi, rfl⟩

variable {H}

theorem DistinctHashes.injOn {m : Members} (hd : DistinctHashes H m) {e e' : RingEntry}
    (he : e ∈ m.vnodes H) (he' : e' ∈ m.vnodes H) (h : e.hash = e'.hash) : e = e' := by
  obtain ⟨n, a, c, i, hn, hi, rfl⟩ := (mem_vnodes_iff H).1 he
  obtain ⟨n', a', c', j, hn', hj, rfl⟩ := (mem_vnodes_iff H).1 he'
  obtain ⟨rfl, rfl⟩ := vnodeLabel_injective (hd n n' a a' c c' i j hn hn' hi hj h)
  rw [hn, Option.some.injEq, Prod.mk.injEq] at hn'
  rw [hn'.1]

/-- Hashes that are listed once each are distinct. -/
theorem distinctHashes_of_nodup {m : Members}
    (h : ((m.vnodes H).map RingEntry.hash).Nodup) : DistinctHashes H m := by
  intro n n' a a' c c' i j hn hn' hi hj heq
  have hmem := (mem_vnodes_iff H).2 ⟨n, a, c, i, hn, hi, rfl⟩
  have hmem' := (mem_vnodes_iff H).2 ⟨n', a', c', j, hn', hj, rfl⟩
  obtain rfl : n = n' := congrArg RingEntry.nodeID (List.inj_on_of_nodup_map h hmem hmem' heq)
  obtain ⟨rfl, rfl⟩ := Prod.mk.inj (Option.some.inj (hn.symm.trans hn'))
  -- within one node, the hashes are those of a range
  rw [Members.vnodes, List.map_flatMap, List.nodup_flatMap] at h
  have hnode := h.1 (n, a, c) (ExtTreeMap.mem_toList_iff_getElem?_eq_some.2 hn)
  rw [Hashring.vnodes, List.map_map] at hnode
  rw [List.inj_on_of_nodup_map hnode (List.mem_range.2 hi) (List.mem_range.2 hj) heq]

theorem DistinctHashes.nodup {m : Members} (hd : DistinctHashes H m) : (m.vnodes H).Nodup := by
  rw [Members.vnodes, List.nodup_flatMap]
  constructor
  · rintro ⟨n, a, c⟩ hp
    rw [ExtTreeMap.mem_toList_iff_getElem?_eq_some] at hp
    refine List.Nodup.map_on ?_ List.nodup_range
    intro i hi j hj hij
    rw [List.mem_range] at hi hj
    simp only [RingEntry.mk.injEq, and_true] at hij
    exact (vnodeLabel_injective (hd n n a a c c i j hp hp hi hj hij)).2
  · refine (ExtTreeMap.distinct_keys_toList (t := m)).imp ?_
    intro p q hpq e he he'
    have h := nodeID_of_mem_vnodes H he
    rw [nodeID_of_mem_vnodes H he'] at h
    exact hpq (by rw [h]; exact Std.ReflCmp.compare_self)

/-- With distinct hashes the ring is strictly sorted. -/
theorem Reflects.pairwise_lt {r : Hashring} {m : Members} (h : Reflects H r m)
    (hd : DistinctHashes H m) : r.entries.Pairwise fun a b => a.hash < b.hash := by
  have hnodup : r.entries.Nodup := h.perm.nodup_iff.2 hd.nodup
  have hboth := h.sorted.and hnodup
  refine hboth.imp_of_mem ?_
  rintro a b ha hb ⟨hle, hne⟩
  refine lt_of_le_of_ne hle fun heq => hne ?_
  exact hd.injOn (h.perm.mem_iff.1 ha) (h.perm.mem_iff.1 hb) heq

/-- With distinct hashes the membership determines the ring. -/
theorem Reflects.entries_unique {r r' : Hashring} {m : Members} (h : Reflects H r m)
    (h' : Reflects H r' m) (hd : DistinctHashes H m) : r.entries = r'.entries :=
  SliceSort.eq_of_perm RingEntry.hash h.perm h'.perm (List.Perm.refl _) h.sorted h'.sorted
    fun _ ha _ hb => hd.injOn ha hb

theorem Reflects.nodes_unique {r r' : Hashring} {m : Members} (h : Reflects H r m)
    (h' : Reflects H r' m) : r.nodes = r'.nodes :=
  ExtTreeMap.ext_getElem? fun id => by rw [h.nodes, h'.nodes]

/-- The virtual nodes on the ring are those of the members, under their addresses. -/
theorem Reflects.mem_entries {r : Hashring} {m : Members} (h : Reflects H r m) {e : RingEntry} :
    e ∈ r.entries ↔ ∃ (n a : Bytes) (c : Int) (i : Nat), m[n]? = some (a, c) ∧ i < c.toNat ∧
      e = ⟨hashKey H (vnodeLabel n i), n, a⟩ :=
  h.perm.mem_iff.trans (mem_vnodes_iff H)

/-- What two rings have in common when no lookup can tell them apart. -/
structure SameLookups (H : Hashing) (r r' : Hashring) : Prop where
  ringSnapshot : r.ringSnapshot = r'.ringSnapshot
  getNode : ∀ key, r.getNode H key = r'.getNode H key
  replicasFor : ∀ key count, r.replicasFor H key count = r'.replicasFor H key count
  getReplicas : ∀ A key count, r.getReplicas H A key count = r'.getReplicas H A key count
  getSlotRanges : r.getSlotRanges H = r'.getSlotRanges H
  nodeIDs : r.nodeIDs = r'.nodeIDs

/-- Rings of one membership agree in every lookup. -/
theorem Reflects.sameLookups {r r' : Hashring} {m : Members} (h : Reflects H r m)
    (h' : Reflects H r' m) (hd : DistinctHashes H m) : SameLookups H r r' := by
  have hentries := h.entries_unique h' hd
  exact
    { ringSnapshot := hentries
      getNode := fun key => by rw [Hashring.getNode, Hashring.getNode, hentries]
      replicasFor := fun key count => by
        rw [Hashring.replicasFor, Hashring.replicasFor, hentries]
      getReplicas := fun A key count => by
        rw [Hashring.getReplicas, Hashring.getReplicas, hentries]
      getSlotRanges := by rw [Hashring.getSlotRanges, Hashring.getSlotRanges, hentries]
      nodeIDs := by rw [Hashring.nodeIDs, Hashring.nodeIDs, h.nodes_unique h'] }

theorem effectiveReplicas_pos (replicas : Int) : 0 < effectiveReplicas 5 replicas := by
  unfold effectiveReplicas
  split <;> omega

/-- Every member has at least one virtual node. -/
theorem pos_of_membership {ops : List Op} {n a : Bytes} {c : Int}
    (h : (membership ops)[n]? = some (a, c)) : 0 < c := by
  have key : ∀ (ops : List Op) (m : Members),
      (∀ (n a : Bytes) (c : Int), m[n]? = some (a, c) → 0 < c) →
      ∀ (n a : Bytes) (c : Int), (ops.foldl Op.members m)[n]? = some (a, c) → 0 < c := by
    intro ops
    induction ops with
    | nil => exact fun m hm => hm
    | cons op ops ih =>
        intro m hm
        apply ih _
        intro n a c h
        cases op with
        | addNode nodeID address replicas =>
            rcases Dict.getElem?_insert_eq_some h with ⟨-, hnew⟩ | hold
            · obtain ⟨-, rfl⟩ := Prod.mk.inj hnew
              exact effectiveReplicas_pos replicas
            · exact hm n a c hold
        | removeNode nodeID => exact hm n a c (Dict.getElem?_erase_eq_some h)
  exact key ops ∅ (by simp) n a c h

/-- `Nodes` lists the members. -/
theorem Reflects.mem_nodeIDs {r : Hashring} {m : Members} (h : Reflects H r m) {id : Bytes} :
    id ∈ r.nodeIDs ↔ ∃ p, m[id]? = some p := by
  rw [Hashring.nodeIDs, ExtTreeMap.mem_keys, ← ExtTreeMap.isSome_getElem?_iff_mem, h.nodes id,
    Option.isSome_map, Option.isSome_iff_exists]

/-- A member puts at least one virtual node on the ring. -/
theorem Reflects.entries_ne_nil {r : Hashring} {ops : List Op} (h : Reflects H r (membership ops))
    {n : Bytes} {p : Bytes × Int} (hn : (membership ops)[n]? = some p) : r.entries ≠ [] := by
  have hpos : 0 < p.2 := pos_of_membership hn
  exact List.ne_nil_of_mem (h.mem_entries.2 ⟨n, p.1, p.2, 0, hn, by omega, rfl⟩)

/-- On the ring of a membership with a node, a key is given to a member under its address. -/
theorem Reflects.getNode_mem {r : Hashring} {ops : List Op} (h : Reflects H r (membership ops))
    {n : Bytes} {p : Bytes × Int} (hn : (membership ops)[n]? = some p) (key : Bytes) :
    ∃ (owner addr : Bytes) (c : Int), (membership ops)[owner]? = some (addr, c) ∧
      r.getNode H key = (owner, addr) := by
  obtain ⟨e, he, hget⟩ := exists_entry_of_getNode H h.sorted (h.entries_ne_nil hn) key
  obtain ⟨owner, addr, c, i, howner, -, rfl⟩ := h.mem_entries.1 he
  exact ⟨owner, addr, c, howner, hget⟩

end Hashring

end Hapartition
