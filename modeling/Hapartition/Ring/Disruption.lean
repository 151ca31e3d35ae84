import Hapartition.Ring.Membership

/-!
# Minimal disruption

What a change of one node does to the replicas of every key. Removing a node takes it out of the
clockwise order of nodes and leaves the rest of the order alone; adding one puts it in at one place.
So a key changes its owner only to a node that is added or away from a node that is removed, and in
the second case to the next replica (`minimal_disruption_iff`).
-/

set_option autoImplicit false

namespace Hapartition

open Lib
open Std (ExtTreeMap)

namespace Hashring

variable {H : Hashing} {r : Hashring} {m : Members}

/-! ## Removing a node -/

theorem nodup_owners (H : Hashing) (r : Hashring) (key : Bytes) :
    ((r.owners H key).map RingEntry.nodeID).Nodup :=
  nodup_map_distinctOn _

theorem filter_map_replica (l : List RingEntry) (n : Bytes) :
    (l.map RingEntry.replica).filter (fun x => decide (x.nodeID ≠ n)) =
      (l.filter fun e => decide (e.nodeID ≠ n)).map RingEntry.replica := by
  rw [List.filter_map]
  rfl

/-- The replicas after a removal are those before, without the node; one more steps in. -/
theorem replicasFor_removeNode (hs : r.Sorted) (n key : Bytes) (c : Int) :
    (r.removeNode n).replicasFor H key c =
      ((r.replicasFor H key (c + 1)).filter fun x => decide (x.nodeID ≠ n)).take c.toNat := by
  rw [replicasFor_eq H _ (sorted_removeNode hs n), replicasFor_eq H r hs, owners_removeNode,
    filter_map_replica, ← List.map_take]
  congr 1
  by_cases hc : 0 ≤ c
  · have hsucc : (c + 1).toNat = c.toNat + 1 := by omega
    rw [hsucc, take_filter_take_succ (nodup_owners H r key)]
  · -- `GetReplicas` returns nothing for a negative count
    have hzero : c.toNat = 0 := by omega
    rw [hzero, List.take_zero, List.take_zero]

/-- A key of another node stays where it is. -/
theorem getNode_removeNode_of_ne (hs : r.Sorted) {n key : Bytes}
    (hne : (r.getNode H key).1 ≠ n) :
    (r.removeNode n).getNode H key = r.getNode H key := by
  rw [getNode_eq H r hs] at hne ⊢
  rw [getNode_eq H _ (sorted_removeNode hs n), owners_removeNode]
  cases howners : r.owners H key with
  | nil => rfl
  | cons e l =>
      rw [howners] at hne
      rw [List.filter_cons_of_pos (by simpa using hne)]
      rfl

/-- The keys of the node go to their second replica. -/
theorem getNode_removeNode_of_eq (hs : r.Sorted) {n key : Bytes} (heq : (r.getNode H key).1 = n) :
    (r.removeNode n).getNode H key =
      match (r.replicasFor H key 2)[1]? with
      | some x => (x.nodeID, x.address)
      | none => ([], []) := by
  have hnodup := nodup_owners H r key
  rw [getNode_eq H r hs] at heq
  rw [getNode_eq H _ (sorted_removeNode hs n), owners_removeNode, replicasFor_eq H r hs]
  cases howners : r.owners H key with
  | nil => rfl
  | cons e l =>
      rw [howners] at heq hnodup
      have hself : e.nodeID = n := heq
      rw [List.map_cons, List.nodup_cons] at hnodup
      -- the node is the first owner and no other, so all the others stay
      have hrest : l.filter (fun e => decide (e.nodeID ≠ n)) = l := by
        apply List.filter_eq_self.2
        intro b hb
        apply decide_eq_true
        rintro rfl
        exact hnodup.1 (hself ▸ List.mem_map_of_mem hb)
      rw [List.filter_cons_of_neg (by simpa using hself), hrest]
      cases l with
      | nil => rfl
      | cons e' l => rfl

/-! ## Adding a node -/

/-- Without the new node, the ring is as before: the sort cannot exchange entries with distinct
hashes. -/
theorem Reflects.owners_addNode (h : Reflects H r m) (hd : DistinctHashes H m) {n : Bytes}
    (hn : m[n]? = none) (address : Bytes) (replicas : Int) (key : Bytes) :
    ((r.addNode H n address replicas).owners H key).filter (fun e => decide (e.nodeID ≠ n)) =
      r.owners H key := by
  -- with the node removed again, the ring has the membership it had
  have hremoved : Reflects H ((r.addNode H n address replicas).removeNode n) m := by
    have hboth := (h.addNode n address replicas).removeNode n
    have hm : (m.insert n (address, effectiveReplicas 5 replicas)).erase n = m := by
      apply ExtTreeMap.ext_getElem?
      intro a
      rw [Dict.getElem?_erase, Dict.getElem?_insert]
      split
      next ha => rw [← ha, hn]
      next => rfl
    rwa [hm] at hboth
  rw [← owners_removeNode, owners, owners, hremoved.entries_unique h hd]

/-- The replicas after an addition, without the new node, are the first of those before. -/
theorem Reflects.replicasFor_addNode (h : Reflects H r m) (hd : DistinctHashes H m) {n : Bytes}
    (hn : m[n]? = none) (address : Bytes) (replicas : Int) (key : Bytes) (c : Int) :
    ((r.addNode H n address replicas).replicasFor H key c).filter (fun x => decide (x.nodeID ≠ n))
      <+: r.replicasFor H key c := by
  rw [replicasFor_eq H _ (h.addNode n address replicas).sorted, replicasFor_eq H r h.sorted,
    filter_map_replica]
  apply List.IsPrefix.map
  have hinit := (List.take_prefix c.toNat ((r.addNode H n address replicas).owners H key)).filter
    fun e => decide (e.nodeID ≠ n)
  rw [h.owners_addNode hd hn] at hinit
  refine List.prefix_take_iff.2 ⟨hinit, ?_⟩
  exact (List.length_filter_le _ _).trans (List.length_take_le _ _)

/-- A key goes to the new node, or stays where it is. -/
theorem Reflects.getNode_addNode (h : Reflects H r m) (hd : DistinctHashes H m) {n : Bytes}
    (hn : m[n]? = none) (address : Bytes) (replicas : Int) (key : Bytes) :
    ((r.addNode H n address replicas).getNode H key).1 = n ∨
      (r.addNode H n address replicas).getNode H key = r.getNode H key := by
  have howners := h.owners_addNode hd hn address replicas key
  rw [getNode_eq H _ (h.addNode n address replicas).sorted, getNode_eq H r h.sorted, ← howners]
  cases hnew : (r.addNode H n address replicas).owners H key with
  | nil => exact .inr rfl
  | cons e l =>
      by_cases he : e.nodeID = n
      · exact .inl he
      · refine .inr ?_
        rw [List.filter_cons_of_pos (by simpa using he)]
        rfl

/-! ## Calls of `GetReplicas` before and after -/

/-- After the removal of the node, `GetReplicas` for `c` returns the first `c` elements of what it
returned for `c + 1`, without the node. -/
def RemovesOne (A : Allocator) (H : Hashing) (r : Hashring) (n key : Bytes) (c : Int64) : Prop :=
  ∃ l l', r.getReplicas H A key (c + 1) = .ok l ∧
    (r.removeNode n).getReplicas H A key c = .ok l' ∧
    l' = (l.filter fun x => decide (x.nodeID ≠ n)).take c.toInt.toNat

/-- What `GetReplicas` returns after the addition of the node is, without the node, a prefix of what
it returned before. -/
def AddsOne (A : Allocator) (H : Hashing) (r : Hashring) (n address : Bytes) (replicas : Int)
    (key : Bytes) (c : Int64) : Prop :=
  ∃ l l', r.getReplicas H A key c = .ok l ∧
    (r.addNode H n address replicas).getReplicas H A key c = .ok l' ∧
    l'.filter (fun x => decide (x.nodeID ≠ n)) <+: l

section Calls

variable {A : Allocator} {n key : Bytes} {c : Int64}

theorem removesOne_iff (hs : r.Sorted) (hne : r.entries ≠ []) (hc : 0 ≤ c)
    (hmax : c < Int64.maxValue) :
    RemovesOne A H r n key c ↔ A.fits (c.toInt + 1).toNat = true := by
  have hnonneg : 0 ≤ c.toInt := Int64.le_iff_toInt_le.1 hc
  have hsucc : (c + 1).toInt = c.toInt + 1 := toInt_add_one (Int64.lt_iff_toInt_lt.1 hmax)
  constructor
  · rintro ⟨l, l', hl, -⟩
    -- the ring has a node, so the call before the removal allocates
    rcases ((getReplicas_eq_ok_iff H).1 hl).1 with hnil | hneg | hfits
    · exact absurd hnil hne
    · have hle : (c + 1).toInt ≤ 0 := Int64.le_iff_toInt_le.1 hneg
      omega
    · rwa [hsucc] at hfits
  · intro hfits
    have hsmaller : A.fits c.toInt.toNat = true := A.fits_of_le (by omega) hfits
    refine ⟨_, _, getReplicas_of_allocates H (.inr (.inr (hsucc.symm ▸ hfits))),
      getReplicas_of_allocates H (.inr (.inr hsmaller)), ?_⟩
    rw [hsucc]
    exact replicasFor_removeNode hs n key c.toInt

theorem Reflects.addsOne_iff (h : Reflects H r m) (hd : DistinctHashes H m) (hn : m[n]? = none)
    (address : Bytes) (replicas : Int) (hc : 0 ≤ c) :
    AddsOne A H r n address replicas key c ↔ c = 0 ∨ A.fits c.toInt.toNat = true := by
  constructor
  · rintro ⟨l, l', -, hl', -⟩
    rcases ((getReplicas_eq_ok_iff H).1 hl').1 with hnil | hneg | hfits
    · -- the new node has a virtual node
      have hpos := effectiveReplicas_pos replicas
      have hentry := (h.addNode n address replicas).mem_entries.2
        ⟨n, address, _, 0, ExtTreeMap.getElem?_insert_self, by omega, rfl⟩
      rw [hnil] at hentry
      cases hentry
    · exact .inl (Int64.le_antisymm hneg hc)
    · exact .inr hfits
  · intro hallocates
    have hsmall : c ≤ 0 ∨ A.fits c.toInt.toNat = true := hallocates.imp_left fun h => h.le
    exact ⟨_, _, getReplicas_of_allocates H (.inr hsmall), getReplicas_of_allocates H (.inr hsmall),
      h.replicasFor_addNode hd hn address replicas key c.toInt⟩

/-- Any two counts from two on give the same second replica. -/
theorem getElem?_one_of_getReplicas (hs : r.Sorted) {l : List Replica} (hc : 2 ≤ c)
    (hl : r.getReplicas H A key c = .ok l) : l[1]? = (r.replicasFor H key 2)[1]? := by
  have hint : 2 ≤ c.toInt := Int64.le_iff_toInt_le.1 hc
  rw [((getReplicas_eq_ok_iff H).1 hl).2, replicasFor_eq H r hs, replicasFor_eq H r hs,
    List.getElem?_map, List.getElem?_map, List.getElem?_take_of_lt (by omega),
    List.getElem?_take_of_lt (by decide)]

end Calls

/-- On a ring with distinct hashes. After the removal of a node, `GetReplicas` returns the first of
the old replicas without the node, a key of another node keeps its owner and a key of the node goes
to its second replica. After the addition of a node that was not there, the replicas of a key
without the node are a prefix of the old ones, and a key goes to the new node or keeps its owner.
The calls of `GetReplicas` do so exactly for the counts for which the slices of their results can be
allocated. -/
theorem minimal_disruption_iff (A : Allocator) (id : Bytes) (ops : List Op)
    (hd : DistinctHashes H (membership ops)) :
    (∀ n ∈ (build H id ops).nodeIDs, ∀ key : Bytes,
      (∀ c : Int64, 0 ≤ c → c < Int64.maxValue →
        (RemovesOne A H (build H id ops) n key c ↔ A.fits (c.toInt + 1).toNat = true)) ∧
      (((build H id ops).getNode H key).1 ≠ n →
        ((build H id ops).removeNode n).getNode H key = (build H id ops).getNode H key) ∧
      (((build H id ops).getNode H key).1 = n → ∀ (c : Int64) (l : List Replica), 2 ≤ c →
        (build H id ops).getReplicas H A key c = .ok l →
          ((build H id ops).removeNode n).getNode H key =
            match l[1]? with
            | some x => (x.nodeID, x.address)
            | none => ([], []))) ∧
    ∀ n ∉ (build H id ops).nodeIDs, ∀ (address : Bytes) (replicas : Int) (key : Bytes),
      (∀ c : Int64, 0 ≤ c → (AddsOne A H (build H id ops) n address replicas key c ↔
        c = 0 ∨ A.fits c.toInt.toNat = true)) ∧
      ((((build H id ops).addNode H n address replicas).getNode H key).1 = n ∨
        ((build H id ops).addNode H n address replicas).getNode H key =
          (build H id ops).getNode H key) := by
  have hr := reflects_build H id ops
  generalize build H id ops = r at hr
  constructor
  · intro n hn key
    obtain ⟨p, hp⟩ := hr.mem_nodeIDs.1 hn
    refine ⟨fun c hc hmax => removesOne_iff hr.sorted (hr.entries_ne_nil hp) hc hmax,
      getNode_removeNode_of_ne hr.sorted, ?_⟩
    intro howner c l hc hl
    rw [getElem?_one_of_getReplicas hr.sorted hc hl]
    exact getNode_removeNode_of_eq hr.sorted howner
  · intro n hn address replicas key
    have hnone : (membership ops)[n]? = none := by
      cases hp : (membership ops)[n]? with
      | none => rfl
      | some p => exact absurd (hr.mem_nodeIDs.2 ⟨p, hp⟩) hn
    exact ⟨fun c hc => hr.addsOne_iff hd hnone address replicas hc,
      hr.getNode_addNode hd hnone address replicas key⟩

/-! ## Three nodes -/

/-- The nodes `a`, `b` and `c` with three virtual nodes each. -/
def threeOps : List Op :=
  [.addNode (str "a") (str ":1") 3, .addNode (str "b") (str ":2") 3,
    .addNode (str "c") (str ":3") 3]

theorem distinctHashes_three : DistinctHashes .xxhash (membership threeOps) :=
  distinctHashes_of_nodup (by decide +kernel)

/-- The node `a` leaves, or `d` joins. -/
theorem minimal_disruption_three :
    RemovesOne (.upTo (2 ^ 43)) .xxhash (build .xxhash (str "a") threeOps) (str "a") (str "foo") 2 ∧
      AddsOne (.upTo (2 ^ 43)) .xxhash (build .xxhash (str "a") threeOps) (str "d") (str ":4") 3
        (str "foo") 2 := by
  have h := minimal_disruption_iff (.upTo (2 ^ 43)) (str "a") threeOps distinctHashes_three
  have ha : str "a" ∈ (build .xxhash (str "a") threeOps).nodeIDs := by decide +kernel
  have hd : str "d" ∉ (build .xxhash (str "a") threeOps).nodeIDs := by decide +kernel
  exact ⟨((h.1 _ ha (str "foo")).1 2 (by decide) (by decide)).2 (by decide),
    ((h.2 _ hd (str ":4") 3 (str "foo")).1 2 (by decide)).2 (.inr (by decide))⟩

/-- For `2 ^ 62` replicas the slice cannot be made: a `Replica` has 32 bytes, and an allocation at
most `2 ^ 48`. -/
theorem removal_panics :
    DistinctHashes .xxhash (membership threeOps) ∧
      str "a" ∈ (build .xxhash (str "a") threeOps).nodeIDs ∧
      ((build .xxhash (str "a") threeOps).removeNode (str "a")).getReplicas .xxhash (.upTo (2 ^ 43))
        (str "foo") 4611686018427387904 = .error .makeSlice ∧
      ¬ RemovesOne (.upTo (2 ^ 43)) .xxhash (build .xxhash (str "a") threeOps) (str "a") (str "foo")
        4611686018427387904 := by
  have hpanic : ((build .xxhash (str "a") threeOps).removeNode (str "a")).getReplicas .xxhash
      (.upTo (2 ^ 43)) (str "foo") 4611686018427387904 = .error .makeSlice := by
    apply getReplicas_of_not_allocates
    rintro (hnil | hneg | hfits)
    · exact absurd hnil (by decide +kernel)
    · exact absurd hneg (by decide)
    · exact absurd hfits (by decide)
  refine ⟨distinctHashes_three, by decide +kernel, hpanic, ?_⟩
  rintro ⟨l, l', -, hl', -⟩
  cases hpanic.symm.trans hl'

end Hashring

end Hapartition
