import Hapartition.Lib.Decimal
import Hapartition.Lib.Dict
import Hapartition.Lib.Slices
import Hapartition.Lib.Sorting
import Hapartition.Lib.XXHash

/-!
# The consistent hash ring

`consistentHashring` of `internal/hashring/hashring.go`: virtual nodes sorted by hash, and the
lookups on them. The hash function and `sort.Slice` come from outside the repository; `Hashing`
collects them, and every definition and result takes it as a parameter.
-/

set_option autoImplicit false

namespace Hapartition

open Lib
open Std (ExtTreeMap)

/-- `xxhash.Sum64String` and `sort.Slice`. -/
structure Hashing where
  sum64 : Bytes → UInt64
  sorter : SliceSort

/-- The hash function that the program links, with a sort that `sort.Slice` may be. -/
def Hashing.xxhash : Hashing := ⟨XXHash.sum64, insertionSlice⟩

/-- The identity of a replica node. -/
structure Replica where
  nodeID : Bytes
  address : Bytes
  deriving DecidableEq, Repr

/-- A virtual node on the ring. -/
structure RingEntry where
  hash : UInt64
  nodeID : Bytes
  address : Bytes
  deriving DecidableEq, Repr

/-- A block of hash slots owned by one node. -/
structure SlotRange where
  start : Nat
  stop : Nat
  node : Replica
  deriving DecidableEq, Repr

/-- `consistentHashring`. -/
structure Hashring where
  localNodeID : Bytes
  replicas : Int
  entries : List RingEntry
  nodeReplicas : ExtTreeMap Bytes Int compare
  nodes : ExtTreeMap Bytes Unit compare

/-- The replica that a virtual node stands for. -/
def RingEntry.replica (e : RingEntry) : Replica := ⟨e.nodeID, e.address⟩

/-- `nodeID + ":" + strconv.Itoa(i)`. -/
def vnodeLabel (nodeID : Bytes) (i : Nat) : Bytes := nodeID ++ 58 :: itoa i

namespace Hashring

variable (H : Hashing)

/-- `HashKey`. -/
def hashKey (key : Bytes) : UInt64 := H.sum64 key

/-- `New`. -/
def new (localNodeID : Bytes) : Hashring := ⟨localNodeID, 5, [], ∅, ∅⟩

/-- `removeNodeLocked`. -/
def removeNodeLocked (r : Hashring) (nodeID : Bytes) : Hashring :=
  { r with
    nodes := r.nodes.erase nodeID
    nodeReplicas := r.nodeReplicas.erase nodeID
    entries := r.entries.filter fun e => decide (e.nodeID ≠ nodeID) }

/-- `RemoveNode`. -/
def removeNode (r : Hashring) (nodeID : Bytes) : Hashring := r.removeNodeLocked nodeID

/-- The number of virtual nodes that `AddNode` creates. -/
def effectiveReplicas (default replicas : Int) : Int := if replicas ≤ 0 then default else replicas

/-- The virtual nodes of a node. -/
def vnodes (nodeID address : Bytes) (replicas : Int) : List RingEntry :=
  (List.range replicas.toNat).map fun i => ⟨hashKey H (vnodeLabel nodeID i), nodeID, address⟩

/-- `AddNode`. -/
def addNode (r : Hashring) (nodeID address : Bytes) (replicas : Int) : Hashring :=
  let replicas := effectiveReplicas r.replicas replicas
  -- also for a node that is new: a node that comes back must not keep its old virtual nodes
  let r := r.removeNodeLocked nodeID
  { r with
    nodes := r.nodes.insert nodeID ()
    nodeReplicas := r.nodeReplicas.insert nodeID replicas
    entries := H.sorter.sort RingEntry.hash (r.entries ++ vnodes H nodeID address replicas) }

/-- The position at which a lookup for the hash `h` starts: `sort.Search` for the first virtual node
at or above it, wrapped around past the end. -/
def position (entries : List RingEntry) (h : UInt64) : Nat :=
  let idx := search entries.length fun i => entries[i]?.any fun e => h ≤ e.hash
  if idx = entries.length then 0 else idx

/-- `GetNode`; two empty strings on the empty ring. -/
def getNode (r : Hashring) (key : Bytes) : Bytes × Bytes :=
  match r.entries[position r.entries (hashKey H key)]? with
  | none => ([], [])
  | some e => (e.nodeID, e.address)

/-- The virtual nodes in the order in which the loop of `GetReplicas` reads them. -/
def walk (entries : List RingEntry) (idx : Nat) : List RingEntry :=
  (List.range entries.length).filterMap fun i => entries[(idx + i) % entries.length]?

/-- The loop of `GetReplicas`: skip nodes already seen, stop when there are `count`. -/
def collect (count : Int) : List RingEntry → List Bytes → List Replica → List Replica
  | [], _, replicas => replicas
  | e :: es, seen, replicas =>
      if e.nodeID ∈ seen then collect count es seen replicas
      -- the test comes after the node has been added
      else if count ≤ (replicas ++ [e.replica]).length then replicas ++ [e.replica]
      else collect count es (e.nodeID :: seen) (replicas ++ [e.replica])

/-- The replicas of a key, `count` of them at most: what `GetReplicas` returns. -/
def replicasFor (r : Hashring) (key : Bytes) (count : Int) : List Replica :=
  if r.entries.isEmpty || count ≤ 0 then []
  else collect count (walk r.entries (position r.entries (hashKey H key))) [] []

/-- `GetReplicas`. The slice for the result is made for `count` replicas, however few nodes there
are; the map of the nodes already seen takes any hint. -/
def getReplicas (A : Allocator) (r : Hashring) (key : Bytes) (count : Int64) :
    Except Panic (List Replica) :=
  if r.entries.isEmpty || count ≤ 0 then .ok []
  else do
    let replicas ← makeCapacity A count.toInt
    .ok (collect count.toInt (walk r.entries (position r.entries (hashKey H key))) [] replicas)

/-- The address under which a node first appears in `entries`. -/
def nodeAddr (entries : List RingEntry) (nodeID : Bytes) : Bytes :=
  match entries.find? fun e => decide (e.nodeID = nodeID) with
  | none => []
  | some e => e.address

/-- `numSlots`. -/
def numSlots : Nat := 16384

/-- The label that is hashed for a slot. -/
def slotLabel (slot : Nat) : Bytes := str "SLOT:" ++ itoa slot

/-- `getSlotOwner`. -/
def slotOwner (entries : List RingEntry) (slot : Nat) : Replica :=
  match entries[position entries (hashKey H (slotLabel slot))]? with
  | none => ⟨[], []⟩
  | some e => ⟨e.nodeID, nodeAddr entries e.nodeID⟩

/-- The state of the loop of `GetSlotRanges`. -/
structure SlotLoop where
  ranges : List SlotRange
  currentStart : Nat
  currentOwner : Replica

/-- One turn of the loop of `GetSlotRanges`. -/
def slotStep (owner : Nat → Replica) (s : SlotLoop) (slot : Nat) : SlotLoop :=
  if (owner slot).nodeID ≠ s.currentOwner.nodeID then
    ⟨s.ranges ++ [⟨s.currentStart, slot - 1, s.currentOwner⟩], slot, owner slot⟩
  else s

/-- The loop of `GetSlotRanges` with its final flush, for an assignment of owners to slots. -/
def slotRanges (owner : Nat → Replica) : List SlotRange :=
  let s := (List.range' 1 (numSlots - 1)).foldl (slotStep owner) ⟨[], 0, owner 0⟩
  s.ranges ++ [⟨s.currentStart, numSlots - 1, s.currentOwner⟩]

/-- `GetSlotRanges`. -/
def getSlotRanges (r : Hashring) : List SlotRange :=
  if r.entries.isEmpty then [] else slotRanges (slotOwner H r.entries)

/-- `Nodes`: the node IDs in ascending order. -/
def nodeIDs (r : Hashring) : List Bytes := r.nodes.keys

/-- `RingSnapshot`. -/
def ringSnapshot (r : Hashring) : List RingEntry := r.entries

end Hashring

end Hapartition
