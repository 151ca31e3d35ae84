import Hapartition.Ring.Membership
import Mathlib.Data.List.Chain

/-!
# Slot ranges

`GetSlotRanges` assigns every one of the 16384 slots to the node that the ring gives its label to,
and packs neighbouring slots of one node into ranges. The ranges tile the slots (`Tiles`), so every
slot lies in exactly one of them, and that range names the owner of the slot
(`existsUnique_slotRange`).

The owner of a slot and the owner of a key come from the same search: on a sorted ring it finds the
first virtual node at or above the hash, or the lowest one of all (`successor`).
-/

set_option autoImplicit false

namespace Hapartition

open Lib

/-- The slot lies in the range. -/
def SlotRange.Contains (r : SlotRange) (slot : Nat) : Prop := r.start ≤ slot ∧ slot ≤ r.stop

namespace Hashring

/-! ## Tilings -/

/-- The ranges lie end to end from `lo` up to but not including `hi`, each within the slots of its
node. -/
inductive Tiles (owner : Nat → Replica) : Nat → List SlotRange → Nat → Prop where
  | nil (lo : Nat) : Tiles owner lo [] lo
  | cons {r : SlotRange} {rs : List SlotRange} {hi : Nat} (hle : r.start ≤ r.stop)
      (howner : ∀ slot, r.Contains slot → owner slot = r.node)
      (htail : Tiles owner (r.stop + 1) rs hi) : Tiles owner r.start (r :: rs) hi

namespace Tiles

variable {owner : Nat → Replica} {lo hi : Nat} {rs : List SlotRange} {r : SlotRange}

theorem le (h : Tiles owner lo rs hi) : lo ≤ hi := by
  induction h with
  | nil => exact Nat.le_refl _
  | cons hle _ _ ih => omega

theorem snoc (h : Tiles owner lo rs r.start) (hle : r.start ≤ r.stop)
    (howner : ∀ slot, r.Contains slot → owner slot = r.node) :
    Tiles owner lo (rs ++ [r]) (r.stop + 1) := by
  -- on the tiling in front; the end point is named so that the induction may vary it
  generalize hhi : r.start = hi at h
  induction h with
  | nil lo =>
      subst hhi
      exact .cons hle howner (.nil _)
  | cons hle' howner' _ ih => exact .cons hle' howner' (ih hhi)

theorem bounds (h : Tiles owner lo rs hi) (hr : r ∈ rs) : lo ≤ r.start ∧ r.stop < hi := by
  induction h with
  | nil => simp at hr
  | cons hle _ htail ih =>
      rcases List.mem_cons.1 hr with rfl | hr
      · have := htail.le
        omega
      · have := ih hr
        omega

theorem start_le (h : Tiles owner lo rs hi) (hr : r ∈ rs) : r.start ≤ r.stop := by
  induction h with
  | nil => cases hr
  | cons hle _ _ ih =>
      rcases List.mem_cons.1 hr with rfl | hr
      · exact hle
      · exact ih hr

theorem eq_of_nil (h : Tiles owner lo [] hi) : lo = hi := by
  cases h
  rfl

theorem start_of_head? (h : Tiles owner lo rs hi) (hr : r ∈ rs.head?) : r.start = lo := by
  cases h with
  | nil => cases hr
  | cons =>
      cases hr
      rfl

theorem head?_start (h : Tiles owner lo rs hi) (hlt : lo < hi) :
    rs.head?.map SlotRange.start = some lo := by
  cases rs with
  | nil => exact absurd h.eq_of_nil (by omega)
  | cons r rs => exact congrArg some (h.start_of_head? rfl)

theorem getLast?_stop (h : Tiles owner lo rs hi) (hlt : lo < hi) :
    rs.getLast?.map SlotRange.stop = some (hi - 1) := by
  induction h with
  | nil => omega
  | @cons r rs hi hle _ htail ih =>
      cases rs with
      | nil =>
          obtain rfl := htail.eq_of_nil
          rfl
      | cons r' rs =>
          have hbounds := htail.bounds (r := r') List.mem_cons_self
          have hle' := htail.start_le (r := r') List.mem_cons_self
          rw [List.getLast?_cons_cons]
          exact ih (by omega)

/-- Each range starts where the one in front of it ends. -/
theorem isChain (h : Tiles owner lo rs hi) : rs.IsChain fun a b => b.start = a.stop + 1 := by
  induction h with
  | nil => exact .nil
  | cons _ _ htail ih =>
      rw [List.isChain_cons]
      refine ⟨?_, ih⟩
      intro r' hr'
      exact htail.start_of_head? hr'

/-- Every slot lies in one range, which names its owner. -/
theorem existsUnique (h : Tiles owner lo rs hi) {slot : Nat} (hlo : lo ≤ slot) (hhi : slot < hi) :
    ∃ r, (∀ r', r' ∈ rs ∧ r'.Contains slot ↔ r' = r) ∧ r.node = owner slot := by
  induction h with
  | nil => omega
  | @cons r rs hi hle howner htail ih =>
      by_cases hin : slot ≤ r.stop
      · -- the first range has it, and all the others start behind the slot
        refine ⟨r, ?_, (howner slot ⟨hlo, hin⟩).symm⟩
        intro r'
        constructor
        · rintro ⟨hmem, hcont⟩
          rcases List.mem_cons.1 hmem with rfl | hmem
          · rfl
          · have hbehind := (htail.bounds hmem).1
            have hstart := hcont.1
            omega
        · rintro rfl
          exact ⟨List.mem_cons_self, hlo, hin⟩
      · obtain ⟨r₁, hunique, hnode⟩ := ih (by omega) hhi
        refine ⟨r₁, ?_, hnode⟩
        intro r'
        rw [← hunique r', List.mem_cons]
        constructor
        · rintro ⟨rfl | hmem, hcont⟩
          · exact absurd hcont.2 hin
          · exact ⟨hmem, hcont⟩
        · rintro ⟨hmem, hcont⟩
          exact ⟨.inr hmem, hcont⟩

end Tiles

/-! ## The loop of `GetSlotRanges` -/

/-- The state of the loop in front of the slot `next`: the finished ranges tile the slots below the
current one, and the current owner has all slots since. -/
structure SlotInv (owner : Nat → Replica) (l : SlotLoop) (next : Nat) : Prop where
  tiles : Tiles owner 0 l.ranges l.currentStart
  lt : l.currentStart < next
  current : ∀ slot, l.currentStart ≤ slot → slot < next → owner slot = l.currentOwner

variable {owner : Nat → Replica}

/-- Flushing the current range extends the tiling up to the next slot. -/
theorem SlotInv.flush {l : SlotLoop} {next : Nat} (h : SlotInv owner l next) :
    Tiles owner 0 (l.ranges ++ [⟨l.currentStart, next - 1, l.currentOwner⟩]) next := by
  have hlt := h.lt
  have hend : next - 1 + 1 = next := by omega
  have htiles := h.tiles.snoc (r := ⟨l.currentStart, next - 1, l.currentOwner⟩)
    (Nat.le_sub_one_of_lt hlt) ?_
  · rwa [hend] at htiles
  · rintro slot ⟨hlo, hhi⟩
    apply h.current slot hlo
    simp only at hhi
    omega

/-- The step lemma, for owners that go by their IDs. -/
theorem SlotInv.slotStep (hid : ∀ s s', (owner s).nodeID = (owner s').nodeID → owner s = owner s')
    {l : SlotLoop} {next : Nat} (h : SlotInv owner l next) :
    SlotInv owner (slotStep owner l next) (next + 1) := by
  have hlt := h.lt
  unfold Hashring.slotStep
  split
  · -- a new owner: it has the next slot and no other yet
    refine ⟨h.flush, Nat.lt_succ_self _, ?_⟩
    intro slot hlo hhi
    have : slot = next := by
      simp only at hlo
      omega
    rw [this]
  next hsame =>
    refine ⟨h.tiles, by omega, ?_⟩
    intro slot hlo hhi
    by_cases hnext : slot = next
    · -- the owner of the first slot of the range has the same ID, so it is the same replica
      have hfirst := h.current l.currentStart (Nat.le_refl _) hlt
      rw [hnext, ← hfirst]
      apply hid
      rw [hfirst]
      exact not_not.1 hsame
    · exact h.current slot hlo (by omega)

/-- The run lemma. -/
theorem SlotInv.foldl (hid : ∀ s s', (owner s).nodeID = (owner s').nodeID → owner s = owner s')
    (n : Nat) : ∀ (next : Nat) (l : SlotLoop), SlotInv owner l next →
      SlotInv owner ((List.range' next n).foldl (Hashring.slotStep owner) l) (next + n) := by
  induction n with
  | zero => exact fun next l h => h
  | succ n ih =>
      intro next l h
      have hstep := ih (next + 1) _ (h.slotStep hid)
      rwa [Nat.add_right_comm, Nat.add_assoc] at hstep

theorem tiles_slotRanges
    (hid : ∀ s s', (owner s).nodeID = (owner s').nodeID → owner s = owner s') :
    Tiles owner 0 (slotRanges owner) numSlots := by
  have hstart : SlotInv owner ⟨[], 0, owner 0⟩ 1 := by
    refine ⟨.nil 0, Nat.one_pos, ?_⟩
    intro slot _ hlt
    rw [Nat.lt_one_iff.1 hlt]
  have hloop := SlotInv.foldl hid (numSlots - 1) 1 _ hstart
  exact hloop.flush

variable (H : Hashing)

/-- The nodes of the finished ranges and of the current one. -/
def SlotLoop.nodeIDs (l : SlotLoop) : List Bytes :=
  l.ranges.map (fun r => r.node.nodeID) ++ [l.currentOwner.nodeID]

/-- A range is finished only when the node changes. -/
theorem isChain_slotStep {l : SlotLoop} (h : l.nodeIDs.IsChain (· ≠ ·)) (slot : Nat) :
    (Hashring.slotStep owner l slot).nodeIDs.IsChain (· ≠ ·) := by
  unfold Hashring.slotStep
  split
  next hne =>
    rw [SlotLoop.nodeIDs, List.map_append, List.map_singleton, List.isChain_append]
    refine ⟨h, .singleton _, ?_⟩
    intro x hx y hy
    rw [List.getLast?_concat] at hx
    cases hx
    cases hy
    exact Ne.symm hne
  next => exact h

theorem isChain_foldl_slotStep (slots : List Nat) {l : SlotLoop} (h : l.nodeIDs.IsChain (· ≠ ·)) :
    (slots.foldl (Hashring.slotStep owner) l).nodeIDs.IsChain (· ≠ ·) := by
  induction slots generalizing l with
  | nil => exact h
  | cons slot slots ih => exact ih (isChain_slotStep h slot)

theorem isChain_slotRanges (owner : Nat → Replica) :
    (slotRanges owner).IsChain fun a b => a.node.nodeID ≠ b.node.nodeID := by
  have hloop : ((List.range' 1 (numSlots - 1)).foldl (Hashring.slotStep owner)
      ⟨[], 0, owner 0⟩).nodeIDs.IsChain (· ≠ ·) :=
    isChain_foldl_slotStep _ (.singleton _)
  rw [slotRanges]
  -- the loop is opaque from here on
  generalize (List.range' 1 (numSlots - 1)).foldl (Hashring.slotStep owner) ⟨[], 0, owner 0⟩ = l
    at hloop ⊢
  rw [← List.isChain_map (R := (· ≠ ·)) (fun r : SlotRange => r.node.nodeID), List.map_append,
    List.map_singleton]
  exact hloop

/-- The ID of a slot's owner determines the address that goes with it. -/
theorem slotOwner_eq_of_nodeID {entries : List RingEntry} {s s' : Nat}
    (h : (slotOwner H entries s).nodeID = (slotOwner H entries s').nodeID)
    (hs : position entries (hashKey H (slotLabel s)) < entries.length)
    (hs' : position entries (hashKey H (slotLabel s')) < entries.length) :
    slotOwner H entries s = slotOwner H entries s' := by
  unfold slotOwner at h ⊢
  rw [List.getElem?_eq_getElem hs, List.getElem?_eq_getElem hs'] at h ⊢
  simp only at h ⊢
  rw [h]

theorem getSlotRanges_eq {r : Hashring} (hne : r.entries ≠ []) :
    r.getSlotRanges H = slotRanges (slotOwner H r.entries) := by
  unfold getSlotRanges
  rw [if_neg (by simpa using hne)]

theorem tiles_getSlotRanges {r : Hashring} (hs : r.Sorted) (hne : r.entries ≠ []) :
    Tiles (slotOwner H r.entries) 0 (r.getSlotRanges H) numSlots := by
  have hlt : ∀ h, position r.entries h < r.entries.length := position_lt hs hne
  rw [getSlotRanges_eq H hne]
  apply tiles_slotRanges
  intro s s' h
  exact slotOwner_eq_of_nodeID H h (hlt _) (hlt _)

/-- Every slot lies in exactly one range, and the range names the owner of the slot. -/
theorem existsUnique_slotRange {r : Hashring} (hs : r.Sorted) (hne : r.entries ≠ []) {slot : Nat}
    (hslot : slot < numSlots) :
    ∃ range, (∀ r', r' ∈ r.getSlotRanges H ∧ r'.Contains slot ↔ r' = range) ∧
      range.node = slotOwner H r.entries slot :=
  (tiles_getSlotRanges H hs hne).existsUnique (Nat.zero_le slot) hslot

/-! ## Successors on the ring -/

/-- The first virtual node at or above `h`, or the lowest one when there is none. -/
def successor (r : Hashring) (h : UInt64) : Option RingEntry :=
  (r.entries.find? fun e => decide (h ≤ e.hash)).or r.entries.head?

theorem head?_clockwise_eq_successor (r : Hashring) (h : UInt64) :
    (clockwise RingEntry.hash h r.entries).head? = r.successor h := by
  unfold clockwise successor
  rw [List.head?_append, List.head?_filter]
  cases hfind : r.entries.find? (fun e => decide (h ≤ e.hash)) with
  | some e => rfl
  | none =>
      -- nothing at or above the hash: all points are below it, and the first is the lowest
      show (List.filter _ r.entries).head? = r.entries.head?
      congr 1
      apply List.filter_eq_self.2
      intro e he
      have habove := List.find?_eq_none.1 hfind e he
      simpa using habove

theorem head?_owners_eq_successor (r : Hashring) (key : Bytes) :
    (r.owners H key).head? = r.successor (hashKey H key) :=
  (head?_owners H r key).trans (head?_clockwise_eq_successor r _)

/-- The lookups read the successor of the hash. -/
theorem getElem?_position_eq_successor {r : Hashring} (hs : r.Sorted) (h : UInt64) :
    r.entries[position r.entries h]? = r.successor h :=
  (getElem?_position hs h).trans (head?_clockwise_eq_successor r h)

theorem exists_successor {r : Hashring} (hne : r.entries ≠ []) (h : UInt64) :
    ∃ e, r.successor h = some e ∧ e ∈ r.entries := by
  rw [← head?_clockwise_eq_successor]
  cases hc : clockwise RingEntry.hash h r.entries with
  | nil => exact absurd (clockwise_eq_nil_iff.1 hc) hne
  | cons e l => exact ⟨e, rfl, mem_clockwise.1 (hc ▸ List.mem_cons_self)⟩

theorem getNode_of_successor {r : Hashring} (hs : r.Sorted) {key : Bytes} {e : RingEntry}
    (h : r.successor (hashKey H key) = some e) : r.getNode H key = (e.nodeID, e.address) := by
  unfold getNode
  rw [getElem?_position_eq_successor hs, h]

theorem slotOwner_of_successor {r : Hashring} (hs : r.Sorted) {slot : Nat} {e : RingEntry}
    (h : r.successor (hashKey H (slotLabel slot)) = some e) :
    slotOwner H r.entries slot = ⟨e.nodeID, nodeAddr r.entries e.nodeID⟩ := by
  unfold slotOwner
  rw [getElem?_position_eq_successor hs, h]

/-- All virtual nodes of a node carry its one address, so `GetSlotRanges` finds it. -/
theorem Reflects.nodeAddr_eq {H : Hashing} {r : Hashring} {m : Members} (h : Reflects H r m)
    {e : RingEntry} (he : e ∈ r.entries) : nodeAddr r.entries e.nodeID = e.address := by
  unfold nodeAddr
  cases hfind : r.entries.find? (fun e' => decide (e'.nodeID = e.nodeID)) with
  | none =>
      have hno := List.find?_eq_none.1 hfind e he
      simp at hno
  | some e' =>
      have hid : e'.nodeID = e.nodeID := by
        simpa using List.find?_some hfind
      obtain ⟨n, a, c, i, hn, -, rfl⟩ := h.mem_entries.1 he
      obtain ⟨n', a', c', i', hn', -, rfl⟩ := h.mem_entries.1 (List.mem_of_find?_eq_some hfind)
      simp only at hid
      rw [hid, hn, Option.some.injEq, Prod.mk.injEq] at hn'
      exact hn'.1.symm

/-! ## Run-length encoding -/

/-- The ranges are the run-length encoding of the assignment of owners to the slots below `n`. -/
structure RunLength (owner : Nat → Replica) (n : Nat) (ranges : List SlotRange) : Prop where
  first : ranges.head?.map SlotRange.start = some 0
  last : ranges.getLast?.map SlotRange.stop = some (n - 1)
  start_le : ∀ r ∈ ranges, r.start ≤ r.stop
  contiguous : ranges.IsChain fun a b => b.start = a.stop + 1
  alternate : ranges.IsChain fun a b => a.node.nodeID ≠ b.node.nodeID
  owners : ∀ slot < n, ∃ r, (∀ r', r' ∈ ranges ∧ r'.Contains slot ↔ r' = r) ∧ r.node = owner slot

/-- The owner of a slot is the node that a lookup of its label selects. -/
theorem Reflects.slotOwner_eq {H : Hashing} {r : Hashring} {m : Members} (h : Reflects H r m)
    (hne : r.entries ≠ []) (slot : Nat) :
    slotOwner H r.entries slot =
      ⟨(r.getNode H (slotLabel slot)).1, (r.getNode H (slotLabel slot)).2⟩ := by
  obtain ⟨e, hsucc, he⟩ := exists_successor hne (hashKey H (slotLabel slot))
  rw [slotOwner_of_successor H h.sorted hsucc, getNode_of_successor H h.sorted hsucc,
    h.nodeAddr_eq he]

/-- **Slot ranges are the run-length encoding of slot ownership.** On every ring with a node that
`AddNode` and `RemoveNode` can build, the ranges start at 0, end at 16383, follow each other without
gap or overlap, change the node from each to the next, and name for every slot the node that a
lookup of its label selects, under the address that the node was last added with. -/
theorem slot_ranges_exact (id : Bytes) (ops : List Op) (hne : (build H id ops).entries ≠ []) :
    RunLength (fun slot => ⟨((build H id ops).getNode H (slotLabel slot)).1,
        ((build H id ops).getNode H (slotLabel slot)).2⟩) 16384 ((build H id ops).getSlotRanges H) ∧
      ∀ slot, ∃ c, (membership ops)[((build H id ops).getNode H (slotLabel slot)).1]? =
        some (((build H id ops).getNode H (slotLabel slot)).2, c) := by
  have hreflects := reflects_build H id ops
  have htiles := tiles_getSlotRanges H hreflects.sorted hne
  constructor
  · refine ⟨htiles.head?_start (by decide), htiles.getLast?_stop (by decide),
      fun r hr => htiles.start_le hr, htiles.isChain, ?_, ?_⟩
    · rw [getSlotRanges_eq H hne]
      exact isChain_slotRanges _
    · intro slot hslot
      obtain ⟨r, hunique, hnode⟩ := htiles.existsUnique (Nat.zero_le slot) hslot
      exact ⟨r, hunique, hnode.trans (hreflects.slotOwner_eq hne slot)⟩
  · intro slot
    obtain ⟨e, he, hget⟩ := exists_entry_of_getNode H hreflects.sorted hne (slotLabel slot)
    obtain ⟨n, a, c, i, hn, -, rfl⟩ := hreflects.mem_entries.1 he
    rw [hget]
    exact ⟨c, hn⟩

/-- Two nodes, one of which comes back under another address. -/
def readdedPair : List Op :=
  [.addNode (str "n1") (str "a:1") 2, .addNode (str "n2") (str "b:1") 0,
    .addNode (str "n1") (str "a:2") 2]

theorem slot_ranges_exact_pair :
    RunLength (fun slot =>
      ⟨((build .xxhash (str "n1") readdedPair).getNode .xxhash (slotLabel slot)).1,
        ((build .xxhash (str "n1") readdedPair).getNode .xxhash (slotLabel slot)).2⟩) 16384
      ((build .xxhash (str "n1") readdedPair).getSlotRanges .xxhash) :=
  (slot_ranges_exact .xxhash (str "n1") readdedPair
    ((reflects_build .xxhash _ _).entries_ne_nil (n := str "n2") (p := (str "b:1", 5))
      (by decide))).1

end Hashring

end Hapartition
