import Hapartition.Ring.Hashring
import Hapartition.Lib.Circle

/-!
# Lookups on the ring

`GetReplicas` keeps the first virtual node of every physical node along its walk and stops at
`count` of them (`replicasFor_eq_take`). On a ring sorted by hash the walk is the clockwise order
from the hash of the key (`walk_position`), so both lookups read the list `owners`: the physical
nodes in the order in which the clockwise walk meets them. `GetNode` is its head and `GetReplicas`
a prefix of it. `RemoveNode` deletes the node from it and changes nothing else
(`owners_removeNode`).
-/

set_option autoImplicit false

namespace Hapartition

open Lib

namespace Hashring

/-- The virtual nodes are in ascending order of hash. -/
def Sorted (r : Hashring) : Prop := r.entries.Pairwise fun a b => a.hash ≤ b.hash

/-! ## The loop of `GetReplicas` -/

theorem collect_eq (count : Int) (es : List RingEntry) (seen : List Bytes)
    (replicas : List Replica) (h : (replicas.length : Int) < count) :
    collect count es seen replicas = replicas ++
      (((distinctOn RingEntry.nodeID es).filter fun e => decide (e.nodeID ∉ seen)).take
        (count.toNat - replicas.length)).map RingEntry.replica := by
  -- on the rest of the walk; the nodes seen are those that a first occurrence may not repeat
  induction es generalizing seen replicas with
  | nil => simp [collect, distinctOn]
  | cons e es ih =>
      rw [collect, distinctOn]
      by_cases hseen : e.nodeID ∈ seen
      · -- a node seen before: dropping its later points changes nothing among the unseen ones
        rw [if_pos hseen, ih seen replicas h, List.filter_cons_of_neg (by simpa using hseen),
          List.filter_filter]
        congr 3
        apply List.filter_congr
        intro a _
        by_cases ha : a.nodeID = e.nodeID
        · simp [ha, hseen]
        · simp [ha]
      · have hlen : (replicas ++ [e.replica]).length = replicas.length + 1 := by simp
        rw [if_neg hseen, List.filter_cons_of_pos (by simpa using hseen), hlen]
        by_cases hstop : count ≤ ((replicas.length + 1 : Nat) : Int)
        · have hone : count.toNat - replicas.length = 1 := by omega
          rw [if_pos hstop, hone, List.take_succ_cons, List.take_zero]
          rfl
        · -- one more node to go: from here on it counts as seen
          have hmore : count.toNat - replicas.length =
              (count.toNat - (replicas.length + 1)) + 1 := by omega
          have hfilter : ((distinctOn RingEntry.nodeID es).filter fun a =>
                decide (a.nodeID ∉ e.nodeID :: seen)) =
              ((distinctOn RingEntry.nodeID es).filter fun a =>
                decide (a.nodeID ∉ seen) && decide (a.nodeID ≠ e.nodeID)) := by
            apply List.filter_congr
            intro a _
            by_cases ha : a.nodeID = e.nodeID
            · simp [ha]
            · simp [ha]
          rw [if_neg hstop, ih (e.nodeID :: seen) (replicas ++ [e.replica]) (by rw [hlen]; omega),
            hlen, hmore, List.take_succ_cons, List.map_cons, List.append_assoc, List.filter_filter,
            hfilter]
          rfl

variable (H : Hashing)

/-- `GetReplicas` is a prefix of the distinct nodes along the walk. -/
theorem replicasFor_eq_take (r : Hashring) (key : Bytes) (count : Int) :
    r.replicasFor H key count =
      ((distinctOn RingEntry.nodeID (walk r.entries (position r.entries (hashKey H key)))).take
        count.toNat).map RingEntry.replica := by
  unfold replicasFor
  by_cases hne : r.entries.isEmpty = true
  · rw [List.isEmpty_iff.1 hne]
    simp [walk, distinctOn]
  · by_cases hc : count ≤ 0
    · have : count.toNat = 0 := by omega
      simp [hc, this]
    · have hcond : ¬ ((r.entries.isEmpty || decide (count ≤ 0)) = true) := by
        simp [hne, hc]
      rw [if_neg hcond, collect_eq count _ [] [] (by simpa using hc), List.nil_append]
      congr 2
      exact List.filter_eq_self.2 fun a _ => rfl

/-- The nodes that `GetReplicas` returns are distinct. -/
theorem nodup_replicasFor (r : Hashring) (key : Bytes) (count : Int) :
    ((r.replicasFor H key count).map Replica.nodeID).Nodup := by
  rw [replicasFor_eq_take, List.map_map]
  exact (nodup_map_distinctOn _).sublist ((List.take_sublist _ _).map _)

theorem length_replicasFor_le (r : Hashring) (key : Bytes) (count : Int) :
    (r.replicasFor H key count).length ≤ count.toNat := by
  rw [replicasFor_eq_take, List.length_map]
  exact List.length_take_le _ _

/-! ## The allocation -/

/-- `GetReplicas` has nothing to allocate, or can allocate it. -/
def Allocates (A : Allocator) (r : Hashring) (count : Int64) : Prop :=
  r.entries = [] ∨ count ≤ 0 ∨ A.fits count.toInt.toNat = true

section Allocation

variable {A : Allocator} {r : Hashring} {key : Bytes} {count : Int64}

theorem getReplicas_of_allocates (h : r.Allocates A count) :
    r.getReplicas H A key count = .ok (r.replicasFor H key count.toInt) := by
  have hzero : count ≤ 0 ↔ count.toInt ≤ 0 := Int64.le_iff_toInt_le
  unfold getReplicas replicasFor
  by_cases hnone : r.entries = [] ∨ count ≤ 0
  · have hcond : (r.entries.isEmpty || decide (count ≤ 0)) = true := by simpa using hnone
    have hcond' : (r.entries.isEmpty || decide (count.toInt ≤ 0)) = true := by
      simpa [← hzero] using hnone
    rw [if_pos hcond, if_pos hcond']
  · have hcond : ¬ (r.entries.isEmpty || decide (count ≤ 0)) = true := by simpa using hnone
    have hcond' : ¬ (r.entries.isEmpty || decide (count.toInt ≤ 0)) = true := by
      simpa [← hzero] using hnone
    have hpos : ¬ count.toInt ≤ 0 := fun hle => hnone (.inr (hzero.2 hle))
    have hfits : A.fits count.toInt.toNat = true :=
      (or_assoc.2 h).resolve_left hnone
    rw [if_neg hcond, if_neg hcond', makeCapacity_of_fits (by omega) hfits]
    rfl

theorem getReplicas_of_not_allocates (h : ¬ r.Allocates A count) :
    r.getReplicas H A key count = .error .makeSlice := by
  obtain ⟨hne, hpos, hfits⟩ : r.entries ≠ [] ∧ ¬ count ≤ 0 ∧ ¬ A.fits count.toInt.toNat = true := by
    simpa [Allocates, not_or] using h
  have hcond : ¬ (r.entries.isEmpty || decide (count ≤ 0)) = true := by simp [hne, hpos]
  rw [getReplicas, if_neg hcond, makeCapacity_of_not_fits hfits]
  rfl

/-- `GetReplicas` returns when it can allocate, and then the replicas of the key. -/
theorem getReplicas_eq_ok_iff {l : List Replica} : r.getReplicas H A key count = .ok l ↔
    r.Allocates A count ∧ l = r.replicasFor H key count.toInt := by
  by_cases h : r.Allocates A count
  · rw [getReplicas_of_allocates H h, Except.ok.injEq, eq_comm, and_iff_right h]
  · rw [getReplicas_of_not_allocates H h]
    exact iff_of_false (fun h' => nomatch h') fun h' => h h'.1

/-- The allocation for fewer replicas succeeds too. -/
theorem Allocates.mono {c : Int64} (h : r.Allocates A count) (hle : c ≤ count) :
    r.Allocates A c := by
  have hint : c.toInt ≤ count.toInt := Int64.le_iff_toInt_le.1 hle
  rcases h with hnil | hneg | hfits
  · exact .inl hnil
  · exact .inr (.inl (hle.trans hneg))
  · exact .inr (.inr (A.fits_of_le (by omega) hfits))

end Allocation

/-! ## The walk on a sorted ring -/

theorem walk_eq_rotate (entries : List RingEntry) (idx : Nat) :
    walk entries idx = entries.rotate idx := by
  apply List.ext_getElem?
  intro i
  by_cases hi : i < entries.length
  · -- every index of the loop is in range, so the walk skips nothing
    have hall : walk entries idx = (List.range entries.length).map fun j =>
        (entries[(idx + j) % entries.length]?).getD ⟨0, [], []⟩ := by
      unfold walk
      rw [← List.filterMap_eq_map]
      apply List.filterMap_congr
      intro j _
      have hj : (idx + j) % entries.length < entries.length := Nat.mod_lt _ (by omega)
      simp [List.getElem?_eq_getElem hj]
    have hmod : (idx + i) % entries.length < entries.length := Nat.mod_lt _ (by omega)
    rw [hall, List.getElem?_map, List.getElem?_range hi, Option.map_some,
      List.getElem?_rotate hi, Nat.add_comm i idx, List.getElem?_eq_getElem hmod, Option.getD_some]
  · have hlen : (walk entries idx).length ≤ entries.length := by
      unfold walk
      exact (List.length_filterMap_le _ _).trans_eq List.length_range
    rw [List.getElem?_eq_none (by omega), List.getElem?_eq_none (by rw [List.length_rotate]; omega)]

/-- On a sorted ring, the search splits the ring at the hash. -/
theorem search_entries {entries : List RingEntry}
    (hs : entries.Pairwise fun a b => a.hash ≤ b.hash) (h : UInt64) {idx : Nat}
    (hidx : (search entries.length fun i => entries[i]?.any fun e => decide (h ≤ e.hash)) = idx) :
    idx ≤ entries.length ∧ entries.drop idx ++ entries.take idx =
      clockwise RingEntry.hash h entries := by
  have hmono : ∀ i j, i ≤ j → j < entries.length →
      (entries[i]?.any fun e => decide (h ≤ e.hash)) = true →
        (entries[j]?.any fun e => decide (h ≤ e.hash)) = true := by
    intro i j hij hj hi
    have hi' : i < entries.length := by omega
    rw [List.getElem?_eq_getElem hi', Option.any_some, decide_eq_true_eq] at hi
    rw [List.getElem?_eq_getElem hj, Option.any_some, decide_eq_true_eq]
    rcases Nat.eq_or_lt_of_le hij with rfl | hlt
    · exact hi
    · exact hi.trans (List.pairwise_iff_getElem.1 hs i j hi' hj hlt)
  obtain ⟨hle, hlo, hhi⟩ := search_spec hmono
  rw [hidx] at hle hlo hhi
  refine ⟨hle, drop_append_take_eq_clockwise (fun k hk a ha => ?_) fun k hk a ha => ?_⟩
  · have := hlo k hk
    rw [ha, Option.any_some, decide_eq_false_iff_not, not_le] at this
    exact this
  · have := hhi k hk (List.getElem?_eq_some_iff.1 ha).1
    rw [ha, Option.any_some, decide_eq_true_eq] at this
    exact this

/-- On a sorted ring, the walk of a lookup is the clockwise order from the hash. -/
theorem walk_position {entries : List RingEntry}
    (hs : entries.Pairwise fun a b => a.hash ≤ b.hash) (h : UInt64) :
    walk entries (position entries h) = clockwise RingEntry.hash h entries := by
  obtain ⟨hle, heq⟩ := search_entries hs h rfl
  rw [walk_eq_rotate, ← heq]
  unfold position
  simp only
  split
  · -- no point at or above the hash: the walk starts over at the lowest one
    next he => simp [he]
  · exact List.rotate_eq_drop_append_take hle

theorem position_lt {entries : List RingEntry}
    (hs : entries.Pairwise fun a b => a.hash ≤ b.hash) (hne : entries ≠ []) (h : UInt64) :
    position entries h < entries.length := by
  have hpos : 0 < entries.length := List.length_pos_of_ne_nil hne
  obtain ⟨hle, -⟩ := search_entries hs h rfl
  unfold position
  simp only
  split <;> omega

/-- The first virtual node of every physical node, in clockwise order from the hash of `key`. -/
def owners (r : Hashring) (key : Bytes) : List RingEntry :=
  distinctOn RingEntry.nodeID (clockwise RingEntry.hash (hashKey H key) r.entries)

theorem replicasFor_eq (r : Hashring) (hs : r.Sorted) (key : Bytes) (count : Int) :
    r.replicasFor H key count = ((r.owners H key).take count.toNat).map RingEntry.replica := by
  rw [replicasFor_eq_take, walk_position hs, owners]

theorem head?_owners (r : Hashring) (key : Bytes) :
    (r.owners H key).head? = (clockwise RingEntry.hash (hashKey H key) r.entries).head? := by
  unfold owners
  cases clockwise RingEntry.hash (hashKey H key) r.entries <;> rfl

/-- The lookup reads the first virtual node of the walk. -/
theorem getElem?_position {entries : List RingEntry}
    (hs : entries.Pairwise fun a b => a.hash ≤ b.hash) (h : UInt64) :
    entries[position entries h]? = (clockwise RingEntry.hash h entries).head? := by
  by_cases hne : entries = []
  · subst hne
    rfl
  · rw [← walk_position hs, walk_eq_rotate, List.head?_rotate (position_lt hs hne h)]

theorem getNode_eq (r : Hashring) (hs : r.Sorted) (key : Bytes) :
    r.getNode H key = match (r.owners H key).head? with
      | none => ([], [])
      | some e => (e.nodeID, e.address) := by
  have hfirst : r.entries[position r.entries (hashKey H key)]? = (r.owners H key).head? :=
    (getElem?_position hs _).trans (head?_owners H r key).symm
  unfold getNode
  cases hhead : (r.owners H key).head? with
  | none => simp only [hfirst, hhead]
  | some e => simp only [hfirst, hhead]

theorem mem_entries_of_mem_owners {r : Hashring} {key : Bytes} {e : RingEntry}
    (he : e ∈ r.owners H key) : e ∈ r.entries :=
  mem_clockwise.1 ((distinctOn_sublist _).subset he)

/-- A replica is a node under the address of one of its virtual nodes. -/
theorem exists_entry_of_mem_replicasFor {r : Hashring} (hs : r.Sorted) {key : Bytes} {count : Int}
    {replica : Replica} (h : replica ∈ r.replicasFor H key count) :
    ∃ e ∈ r.entries, e.replica = replica := by
  rw [replicasFor_eq H r hs] at h
  obtain ⟨e, he, rfl⟩ := List.mem_map.1 h
  exact ⟨e, mem_entries_of_mem_owners H (List.mem_of_mem_take he), rfl⟩

/-- On a ring with virtual nodes, the owner of a key is a node under the address of one of them. -/
theorem exists_entry_of_getNode {r : Hashring} (hs : r.Sorted) (hne : r.entries ≠ [])
    (key : Bytes) : ∃ e ∈ r.entries, r.getNode H key = (e.nodeID, e.address) := by
  have hlt := position_lt hs hne (hashKey H key)
  refine ⟨_, List.getElem_mem hlt, ?_⟩
  rw [getNode, List.getElem?_eq_getElem hlt]

theorem owners_ne_nil {r : Hashring} (hne : r.entries ≠ []) (key : Bytes) :
    r.owners H key ≠ [] := by
  intro howners
  have hhead := head?_owners H r key
  rw [howners, List.head?_nil, eq_comm, List.head?_eq_none_iff, clockwise_eq_nil_iff] at hhead
  exact hne hhead

/-- The owner of a key is in its replica set. -/
theorem getNode_mem_replicasFor {r : Hashring} {key : Bytes} {count : Int} (hs : r.Sorted)
    (hc : 0 < count) (hne : r.owners H key ≠ []) :
    (r.getNode H key).1 ∈ (r.replicasFor H key count).map Replica.nodeID := by
  obtain ⟨e, l, hl⟩ := List.exists_cons_of_ne_nil hne
  obtain ⟨k, hk⟩ : ∃ k, count.toNat = k + 1 := ⟨count.toNat - 1, by omega⟩
  rw [getNode_eq H r hs, replicasFor_eq H r hs, hl, hk]
  exact List.mem_cons_self

/-! ## Removing nodes -/

theorem sorted_removeNode {r : Hashring} (hs : r.Sorted) (nodeID : Bytes) :
    (r.removeNode nodeID).Sorted :=
  hs.filter _

theorem owners_removeNode (r : Hashring) (nodeID key : Bytes) :
    (r.removeNode nodeID).owners H key =
      (r.owners H key).filter fun e => decide (e.nodeID ≠ nodeID) := by
  unfold owners
  rw [← distinctOn_filter fun n => decide (n ≠ nodeID)]
  congr 1
  exact clockwise_filter _

/-- Removing several nodes, one after the other. -/
def removeAll (r : Hashring) (F : List Bytes) : Hashring := F.foldl removeNode r

theorem sorted_removeAll {r : Hashring} (hs : r.Sorted) (F : List Bytes) :
    (r.removeAll F).Sorted := by
  induction F generalizing r with
  | nil => exact hs
  | cons n F ih => exact ih (sorted_removeNode hs n)

theorem owners_removeAll (r : Hashring) (F : List Bytes) (key : Bytes) :
    (r.removeAll F).owners H key = (r.owners H key).filter fun e => decide (e.nodeID ∉ F) := by
  induction F generalizing r with
  | nil => simp [removeAll]
  | cons n F ih =>
      have hstep : r.removeAll (n :: F) = (r.removeNode n).removeAll F := rfl
      rw [hstep, ih, owners_removeNode, List.filter_filter]
      apply List.filter_congr
      intro e _
      simp only [List.mem_cons, not_or, Bool.decide_and]
      exact Bool.and_comm _ _

/-! ## Rings of a single node -/

theorem getNode_of_forall {r : Hashring} {n : Bytes} (h : ∀ e ∈ r.entries, e.nodeID = n)
    (key : Bytes) : (r.getNode H key).1 = [] ∨ (r.getNode H key).1 = n := by
  unfold getNode
  cases he : r.entries[position r.entries (hashKey H key)]? with
  | none => exact .inl rfl
  | some e => exact .inr (h e (List.mem_of_getElem? he))

theorem mem_replicasFor_of_forall {r : Hashring} {n : Bytes} (hne : r.entries ≠ [])
    (h : ∀ e ∈ r.entries, e.nodeID = n) (key : Bytes) {count : Int} (hc : 0 < count) :
    n ∈ (r.replicasFor H key count).map Replica.nodeID := by
  rw [replicasFor_eq_take, walk_eq_rotate]
  cases hw : r.entries.rotate (position r.entries (hashKey H key)) with
  | nil => exact absurd (List.rotate_eq_nil_iff.1 hw) hne
  | cons e es =>
      have he : e.nodeID = n := h e (List.mem_rotate.1 (hw ▸ List.mem_cons_self))
      obtain ⟨c, hc'⟩ : ∃ c, count.toNat = c + 1 := ⟨count.toNat - 1, by omega⟩
      rw [hc', distinctOn, List.take_succ_cons, List.map_cons, List.map_cons]
      exact he ▸ List.mem_cons_self

/-! ## Slot ranges -/

theorem length_slotStep_le (owner : Nat → Replica) (l : SlotLoop) (slot : Nat) :
    (slotStep owner l slot).ranges.length ≤ l.ranges.length + 1 := by
  unfold slotStep
  split <;> simp

theorem length_foldl_slotStep_le (owner : Nat → Replica) (slots : List Nat) (l : SlotLoop) :
    (slots.foldl (slotStep owner) l).ranges.length ≤ l.ranges.length + slots.length := by
  induction slots generalizing l with
  | nil => simp
  | cons slot slots ih =>
      have h₁ := ih (slotStep owner l slot)
      have h₂ := length_slotStep_le owner l slot
      rw [List.foldl_cons, List.length_cons]
      omega

/-- There are at most as many ranges as slots. -/
theorem length_getSlotRanges_le (r : Hashring) : (r.getSlotRanges H).length ≤ numSlots := by
  unfold getSlotRanges
  split
  · simp
  · have h := length_foldl_slotStep_le (slotOwner H r.entries) (List.range' 1 (numSlots - 1))
      ⟨[], 0, slotOwner H r.entries 0⟩
    have hn : numSlots = 16384 := rfl
    simp only [List.length_range', List.length_nil] at h
    simp only [slotRanges, List.length_append, List.length_singleton]
    omega

end Hashring

end Hapartition
