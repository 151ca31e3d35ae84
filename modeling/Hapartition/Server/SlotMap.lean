import Hapartition.Ring.Nearest
import Hapartition.Ring.Slots
import Hapartition.Server.Routing

/-!
# Routing by the published slot map

A cluster-aware client asks `CLUSTER KEYSLOT` for the slot of a key, looks the slot up in the reply
to `CLUSTER SLOTS` and sends its commands to the node it finds there. The slot of a key is its hash
modulo the number of slots, while the owner of a slot is found by hashing a label of the slot, so
the two ways to an owner search the ring at unrelated places. They meet exactly when the virtual
nodes found there belong to one node (`slot_map_serves_iff`); in general the client is redirected
(`slot_map_redirects`).
-/

set_option autoImplicit false

namespace Hapartition

open Lib
open Hashring (Op build)

namespace Server

variable {R : Runtime} {O : Outcomes} {s : Server}

/-- The arguments of `CLUSTER KEYSLOT key`. -/
def keySlotArgs (key : Bytes) : List Value :=
  [newBulkString (str "KEYSLOT"), newBulkString key]

/-- The arguments of `CLUSTER SLOTS`. -/
def slotsArgs : List Value := [newBulkString (str "SLOTS")]

/-- The slot of a key. -/
def keySlot (H : Hashing) (key : Bytes) : Nat := (Hashring.hashKey H key).toNat % 16384

theorem keySlot_lt (H : Hashing) (key : Bytes) : keySlot H key < Hashring.numSlots :=
  Nat.mod_lt _ (by decide)

theorem dispatch_cluster (args : List Value) :
    s.dispatch R O (str "CLUSTER") args = (s, s.handleCluster R args) := by
  have hname : CommandName.ofName (str "CLUSTER") = .cluster := by decide
  unfold dispatch
  rw [hname]

theorem dispatch_keySlot (key : Bytes) :
    s.dispatch R O (str "CLUSTER") (keySlotArgs key) =
      (s, .integer (Int64.ofNat (keySlot R.toHashing key))) := by
  have hsub : Subcommand.ofName (toUpper R.upper (str "KEYSLOT")) = .keyslot := by
    rw [toUpper_of_ascii (by decide)]
    decide
  rw [dispatch_cluster]
  simp [handleCluster, keySlotArgs, newBulkString, getBulkString, hsub, keySlot]

theorem dispatch_slots :
    s.dispatch R O (str "CLUSTER") slotsArgs = (s, s.handleClusterSlots R) := by
  have hsub : Subcommand.ofName (toUpper R.upper (str "SLOTS")) = .slots := by
    rw [toUpper_of_ascii (by decide)]
    decide
  rw [dispatch_cluster]
  simp [handleCluster, slotsArgs, newBulkString, getBulkString, hsub]

theorem dispatch_del (key : Bytes) :
    s.dispatch R O (str "DEL") [newBulkString key] =
      match s.moved R key with
      | some addr => (s, movedTo addr)
      | none => s.execDel O [key] := by
  have hname : CommandName.ofName (str "DEL") = .del := by decide
  unfold dispatch
  rw [hname]
  show s.handleDel R O [newBulkString key] = _
  unfold handleDel delArguments
  cases hmoved : s.moved R key <;> simp [newBulkString, getBulkString, hmoved]

/-- The server executes `DEL` on the key. -/
def Deletes (R : Runtime) (s : Server) (key : Bytes) : Prop :=
  ∀ O : Outcomes, s.dispatch R O (str "DEL") [newBulkString key] = s.execDel O [key]

/-- A client that takes the node of `key` from the published slot map comes to the node that the
ring gives the key to, and its commands are executed there. -/
def SlotMapServes (R : Runtime) (ring : Hashring) (key : Bytes) : Prop :=
  ∀ range ∈ ring.getSlotRanges R.toHashing, range.Contains (keySlot R.toHashing key) →
    (range.node.nodeID, range.node.address) = ring.getNode R.toHashing key ∧
    ∀ s : Server, s.ring = ring → s.nodeID = range.node.nodeID →
      s.Executes R key ∧ s.Deletes R key

/-- The two hashes fall to virtual nodes of one node. -/
def SameNode (ring : Hashring) (h h' : UInt64) : Prop :=
  (ring.successor h).map RingEntry.nodeID = (ring.successor h').map RingEntry.nodeID

theorem deletes_of_owner {key owner addr : Bytes}
    (h : s.ring.getNode R.toHashing key = (owner, addr)) (howner : owner = [] ∨ owner = s.nodeID) :
    s.Deletes R key := by
  have hmoved : s.moved R key = none := redirect_eq_none_iff.2 (by rwa [h])
  intro O
  rw [dispatch_del, hmoved]

/-- The published slot map sends a client to the node that serves its key if and only if the hash of
the key and the hash of the label of its slot fall to virtual nodes of one node. -/
theorem slot_map_serves_iff (id : Bytes) (ops : List Op) (key : Bytes)
    (hne : (build R.toHashing id ops).entries ≠ []) :
    (∀ (s : Server) (O : Outcomes), s.ring = build R.toHashing id ops →
      s.dispatch R O (str "CLUSTER") (keySlotArgs key) =
        (s, .integer (Int64.ofNat (keySlot R.toHashing key))) ∧
      s.dispatch R O (str "CLUSTER") slotsArgs =
        (s, .array (((build R.toHashing id ops).getSlotRanges R.toHashing).map slotEntry))) ∧
    (∃ range, ∀ r, r ∈ (build R.toHashing id ops).getSlotRanges R.toHashing ∧
      r.Contains (keySlot R.toHashing key) ↔ r = range) ∧
    (SlotMapServes R (build R.toHashing id ops) key ↔
      SameNode (build R.toHashing id ops) (Hashring.hashKey R.toHashing key)
        (Hashring.hashKey R.toHashing (Hashring.slotLabel (keySlot R.toHashing key)))) := by
  have hr := Hashring.reflects_build R.toHashing id ops
  generalize build R.toHashing id ops = ring at hne hr ⊢
  obtain ⟨range, hunique, hnode⟩ :=
    Hashring.existsUnique_slotRange R.toHashing hr.sorted hne (keySlot_lt R.toHashing key)
  obtain ⟨hrange, hcont⟩ := (hunique range).2 rfl
  obtain ⟨e, he, hmem⟩ := Hashring.exists_successor hne (Hashring.hashKey R.toHashing key)
  obtain ⟨e', he', hmem'⟩ := Hashring.exists_successor hne
    (Hashring.hashKey R.toHashing (Hashring.slotLabel (keySlot R.toHashing key)))
  have hget := Hashring.getNode_of_successor R.toHashing hr.sorted he
  have hslot : range.node = ⟨e'.nodeID, e'.address⟩ := by
    rw [hnode, Hashring.slotOwner_of_successor R.toHashing hr.sorted he', hr.nodeAddr_eq hmem']
  refine ⟨?_, ⟨range, hunique⟩, ?_⟩
  · intro s O hring
    refine ⟨dispatch_keySlot key, ?_⟩
    have hlen : (ring.getSlotRanges R.toHashing).length ≠ 0 :=
      Nat.ne_of_gt (List.length_pos_of_mem hrange)
    rw [dispatch_slots, handleClusterSlots, hring, if_neg hlen]
  · unfold SameNode
    rw [he, he', Option.map_some, Option.map_some, Option.some.injEq]
    constructor
    · intro hserves
      obtain ⟨heq, -⟩ := hserves range hrange hcont
      rw [hslot, hget, Prod.mk.injEq] at heq
      exact heq.1.symm
    · intro hid r hrm hrc
      obtain rfl := (hunique r).1 ⟨hrm, hrc⟩
      -- one ID on the ring goes with one address
      have haddr : e.address = e'.address := by
        rw [← hr.nodeAddr_eq hmem, ← hr.nodeAddr_eq hmem', hid]
      refine ⟨by rw [hslot, hget, hid, haddr], ?_⟩
      rintro s rfl hself
      rw [hslot] at hself
      have howner : e.nodeID = s.nodeID := hid.trans hself.symm
      exact ⟨executes_of_owner hget (.inr howner), deletes_of_owner hget (.inr howner)⟩

/-- The history of a cluster that two nodes joined with three virtual nodes each. -/
def threeEach : List Op :=
  [.addNode (str "n1") (str ":1") 3, .addNode (str "n2") (str ":2") 3]

/-- A key of the second node, which has the label of its slot as well. -/
theorem slot_map_serves_pair :
    SlotMapServes .ascii (build .xxhash (str "n1") threeEach) (str "y") ∧
      (build .xxhash (str "n1") threeEach).getNode .xxhash (str "y") = (str "n2", str ":2") := by
  have hne : (build .xxhash (str "n1") threeEach).entries ≠ [] := by decide +kernel
  refine ⟨(slot_map_serves_iff (R := .ascii) (str "n1") threeEach (str "y") hne).2.2.2 ?_, ?_⟩
  · show _ = _
    decide +kernel
  · decide +kernel

/-! ## Two nodes -/

/-- The history of a cluster that two nodes joined with 256 virtual nodes each. -/
def joinedPair : List Op :=
  [.addNode (str "n1") (str ":1") 256, .addNode (str "n2") (str ":2") 256]

/-- A node of that cluster. -/
def joinedServer (nodeID : Bytes) : Server :=
  { addr := []
    localID := nodeID
    store := Store.new
    ring := build .xxhash (str "n1") joinedPair
    gossip := none
    writeConcern := 1
    authToken := [] }

theorem lists_joinedPair :
    (build .xxhash (str "n1") joinedPair).Lists .xxhash [str "n2", str "n1"] :=
  ((Hashring.lists_new (str "n1")).addNode (str "n1") (str ":1")).addNode (str "n2") (str ":2")

/-- No virtual node of `n1` lies between the label of the slot 14911 and the 245th virtual node of
`n2`. -/
theorem far_slot_n1 : ∀ j < 256,
    ¬ (Hashring.hashKey .xxhash (Hashring.slotLabel 14911) ≤
        Hashring.hashKey .xxhash (vnodeLabel (str "n1") j) ∧
      Hashring.hashKey .xxhash (vnodeLabel (str "n1") j) ≤
        Hashring.hashKey .xxhash (vnodeLabel (str "n2") 245)) := by
  decide +kernel

theorem near_slot_n2 : Hashring.hashKey .xxhash (Hashring.slotLabel 14911) ≤
    Hashring.hashKey .xxhash (vnodeLabel (str "n2") 245) := by
  decide +kernel

/-- The slot of `foo` is published for `n2`. -/
theorem slotOwner_foo : ∃ range ∈ (build .xxhash (str "n1") joinedPair).getSlotRanges .xxhash,
    range.Contains 14911 ∧ range.node.nodeID = str "n2" := by
  have hl := lists_joinedPair
  obtain ⟨e, he, -, -⟩ := hl.exists_mem_entries (n := str "n2") (by decide) (i := 0) (by omega)
  obtain ⟨range, hunique, hnode⟩ := Hashring.existsUnique_slotRange .xxhash hl.sorted
    (List.ne_nil_of_mem he) (show 14911 < 16384 by decide)
  obtain ⟨hrange, hcont⟩ := (hunique range).2 rfl
  have hhead : ((build .xxhash (str "n1") joinedPair).owners .xxhash
      (Hashring.slotLabel 14911)).head?.map RingEntry.nodeID = some (str "n2") := by
    refine hl.head?_owners (by decide) (by omega) near_slot_n2 ?_
    intro n hn hne
    rcases List.mem_cons.1 hn with rfl | hn
    · exact absurd rfl hne
    · obtain rfl := List.mem_singleton.1 hn
      exact far_slot_n1
  rw [Hashring.head?_owners_eq_successor] at hhead
  obtain ⟨e', he', hid⟩ := Option.map_eq_some_iff.1 hhead
  refine ⟨range, hrange, hcont, ?_⟩
  rw [hnode, Hashring.slotOwner_of_successor .xxhash hl.sorted he', ← hid]

theorem getNode_foo : (build .xxhash (str "n1") joinedPair).getNode .xxhash (str "foo") =
    (str "n1", str ":1") := by
  have hl := lists_joinedPair
  have hr := Hashring.reflects_build .xxhash (str "n1") joinedPair
  have howner := Hashring.getNode_of_head? hl.sorted (Hashring.owners_foo hl (by decide)).1
  have hmem : (Hashring.membership joinedPair)[str "n1"]? = some (str ":1", 256) := by decide
  obtain ⟨owner, addr, c, hm, hget⟩ := hr.getNode_mem hmem (str "foo")
  obtain rfl : owner = str "n1" := by
    rw [hget] at howner
    exact howner
  rw [hmem, Option.some.injEq, Prod.mk.injEq] at hm
  rw [hget, ← hm.1]

/-- The slot of `foo` is 14911, the slot map gives it to `n2`, the key belongs to `n1`, and `n2`
answers with a redirect. -/
theorem slot_map_redirects :
    keySlot .xxhash (str "foo") = 14911 ∧
    (∃ range ∈ (build .xxhash (str "n1") joinedPair).getSlotRanges .xxhash,
      range.Contains 14911 ∧ range.node.nodeID = str "n2") ∧
    (∀ O, (joinedServer (str "n2")).dispatch .ascii O (str "GET") (getArgs (str "foo")) =
      (joinedServer (str "n2"), movedTo (str ":1"))) ∧
    ¬ SlotMapServes .ascii (build .xxhash (str "n1") joinedPair) (str "foo") := by
  have hslot : keySlot Runtime.ascii.toHashing (str "foo") = 14911 := by decide +kernel
  have hredirects : (joinedServer (str "n2")).Redirects .ascii (str "foo") (str ":1") :=
    redirects_of_other getNode_foo (by decide) (by decide)
  refine ⟨hslot, slotOwner_foo, fun O => (hredirects O []).2, ?_⟩
  intro hserves
  obtain ⟨range, hrange, hcont, hid⟩ := slotOwner_foo
  rw [← hslot] at hcont
  obtain ⟨heq, -⟩ := hserves range hrange hcont
  have hnode : range.node.nodeID = str "n1" := congrArg Prod.fst (heq.trans getNode_foo)
  rw [hid] at hnode
  exact absurd hnode (by decide)

end Server

end Hapartition
