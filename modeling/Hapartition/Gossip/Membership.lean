import Hapartition.Ring.Membership

/-!
# Membership callbacks

What the transport reports about other nodes, and what the handler makes of it: `handleJoin`,
`handleLeave` and `handleUpdate` of `internal/gossip/gossip.go`, on the ring that the handler shares
with the server and on its log of events.

The nodes of the ring are those whose last join or leave was a join. Their addresses are those of
the joins: an update is logged and does not reach the ring. So the ring shows the addresses last
reported exactly for histories in which no update since a join has changed one
(`ring_follows_iff`).
-/

set_option autoImplicit false

namespace Hapartition

open Lib
open Hashring (Members Op membership build)

/-! ## Events -/

/-- The types of cluster events. -/
inductive EventType where
  | join
  | leave
  | update
  deriving DecidableEq, Repr

/-- `ClusterEvent`; the fields that no callback sets are left out. -/
structure ClusterEvent where
  timestamp : Int
  type : EventType
  nodeName : Bytes
  redisAddr : Bytes
  deriving DecidableEq, Repr

/-- `eventRing`. A slot that was never written is `none`. -/
structure EventRing where
  buf : List (Option ClusterEvent)
  pos : Nat
  count : Nat
  deriving DecidableEq, Repr

/-- `newEventRing`. -/
def EventRing.new (capacity : Nat) : EventRing := ⟨List.replicate capacity none, 0, 0⟩

/-- `Push`. -/
def EventRing.push (r : EventRing) (e : ClusterEvent) : EventRing :=
  { buf := r.buf.set r.pos (some e)
    pos := (r.pos + 1) % r.buf.length
    count := if r.count < r.buf.length then r.count + 1 else r.count }

/-- `eventRingSize`. -/
def eventRingSize : Nat := 200

/-! ## The callbacks -/

/-- What the callbacks change. -/
structure View where
  ring : Hashring
  events : EventRing

/-- A report of the transport. -/
inductive Callback where
  | onJoin (nodeID redisAddr : Bytes)
  | onLeave (nodeID : Bytes)
  | onUpdate (nodeID redisAddr : Bytes)
  deriving DecidableEq, Repr

namespace View

variable (H : Hashing)

/-- An empty ring and an empty log. -/
def new (localNodeID : Bytes) : View := ⟨Hashring.new localNodeID, .new eventRingSize⟩

/-- `handleJoin`. -/
def handleJoin (v : View) (now : Int) (nodeID redisAddr : Bytes) : View :=
  { ring := v.ring.addNode H nodeID redisAddr 256
    events := v.events.push ⟨now, .join, nodeID, redisAddr⟩ }

/-- `handleLeave`. -/
def handleLeave (v : View) (now : Int) (nodeID : Bytes) : View :=
  { ring := v.ring.removeNode nodeID
    events := v.events.push ⟨now, .leave, nodeID, []⟩ }

/-- `handleUpdate`. -/
def handleUpdate (v : View) (now : Int) (nodeID redisAddr : Bytes) : View :=
  -- the ring is not told about the new address
  { v with events := v.events.push ⟨now, .update, nodeID, redisAddr⟩ }

/-- The handler of a callback, with the time at which it runs. -/
def handle (v : View) (c : Int × Callback) : View :=
  match c.2 with
  | .onJoin nodeID redisAddr => v.handleJoin H c.1 nodeID redisAddr
  | .onLeave nodeID => v.handleLeave c.1 nodeID
  | .onUpdate nodeID redisAddr => v.handleUpdate c.1 nodeID redisAddr

/-- A sequence of callbacks. -/
def handleAll (v : View) (cs : List (Int × Callback)) : View := cs.foldl (handle H) v

end View

/-! ## What has been reported -/

/-- The address of the last join of `id`, as long as no leave has followed it. -/
def Callback.joined (id : Bytes) (o : Option Bytes) : Callback → Option Bytes
  | .onJoin nodeID redisAddr => if nodeID = id then some redisAddr else o
  | .onLeave nodeID => if nodeID = id then none else o
  | .onUpdate _ _ => o

/-- The address last reported for `id`, by a join or by an update since the join. -/
def Callback.reported (id : Bytes) (o : Option Bytes) : Callback → Option Bytes
  | .onJoin nodeID redisAddr => if nodeID = id then some redisAddr else o
  | .onLeave nodeID => if nodeID = id then none else o
  | .onUpdate nodeID redisAddr => if nodeID = id ∧ o.isSome then some redisAddr else o

/-- `some` for the IDs whose last join or leave was a join. -/
def joinAddress (cs : List (Int × Callback)) (id : Bytes) : Option Bytes :=
  cs.foldl (fun o c => c.2.joined id o) none

/-- The address that the ring should show for `id`. -/
def reportedAddress (cs : List (Int × Callback)) (id : Bytes) : Option Bytes :=
  cs.foldl (fun o c => c.2.reported id o) none

/-- The ring follows the membership: its nodes are the IDs whose last join or leave was a join, and
its virtual nodes, hence redirects and replicas, have the addresses last reported. -/
structure Follows (H : Hashing) (ring : Hashring) (cs : List (Int × Callback)) : Prop where
  nodes : ∀ id, id ∈ ring.nodeIDs ↔ ∃ a, joinAddress cs id = some a
  entries : ∀ e ∈ ring.entries, reportedAddress cs e.nodeID = some e.address
  getNode : ring.entries ≠ [] → ∀ key,
    reportedAddress cs (ring.getNode H key).1 = some (ring.getNode H key).2
  replicasFor : ∀ (key : Bytes) (count : Int), ∀ r ∈ ring.replicasFor H key count,
    reportedAddress cs r.nodeID = some r.address

/-! ## The ring after a sequence of callbacks -/

variable {H : Hashing}

/-- The calls that a callback makes on the ring. -/
def Callback.ringOps : Callback → List Op
  | .onJoin nodeID redisAddr => [.addNode nodeID redisAddr 256]
  | .onLeave nodeID => [.removeNode nodeID]
  | .onUpdate _ _ => []

theorem View.ring_handleAll (v : View) (cs : List (Int × Callback)) :
    (v.handleAll H cs).ring = (cs.flatMap fun c => c.2.ringOps).foldl (Op.apply H) v.ring := by
  induction cs generalizing v with
  | nil => rfl
  | cons c cs ih =>
      have hstep : (v.handle H c).ring = c.2.ringOps.foldl (Op.apply H) v.ring := by
        unfold View.handle
        cases c.2 <;> rfl
      rw [List.flatMap_cons, List.foldl_append, ← hstep]
      exact ih (v.handle H c)

/-- The ring comes from the joins and leaves, in order. -/
theorem ring_handleAll (localNodeID : Bytes) (cs : List (Int × Callback)) :
    ((View.new localNodeID).handleAll H cs).ring =
      build H localNodeID (cs.flatMap fun c => c.2.ringOps) :=
  View.ring_handleAll _ cs

/-- The membership has the nodes that have joined, under the addresses of their joins. -/
theorem getElem?_membership_ringOps (cs : List (Int × Callback)) (id : Bytes) :
    (membership (cs.flatMap fun c => c.2.ringOps))[id]? =
      (joinAddress cs id).map fun a => (a, (256 : Int)) := by
  have key : ∀ (cs : List (Int × Callback)) (m : Members) (o : Option Bytes),
      m[id]? = o.map (fun a => (a, (256 : Int))) →
      ((cs.flatMap fun c => c.2.ringOps).foldl Op.members m)[id]? =
        (cs.foldl (fun o c => c.2.joined id o) o).map fun a => (a, (256 : Int)) := by
    intro cs
    induction cs with
    | nil => exact fun m o hm => hm
    | cons c cs ih =>
        intro m o hm
        rw [List.flatMap_cons, List.foldl_append, List.foldl_cons]
        apply ih
        cases c.2 with
        | onJoin nodeID redisAddr =>
            show (m.insert nodeID (redisAddr, 256))[id]? =
              (if nodeID = id then some redisAddr else o).map _
            rw [Dict.getElem?_insert]
            split
            · rfl
            · exact hm
        | onLeave nodeID =>
            show (m.erase nodeID)[id]? = (if nodeID = id then none else o).map _
            rw [Dict.getElem?_erase]
            split
            · rfl
            · exact hm
        | onUpdate nodeID redisAddr => exact hm
  exact key cs ∅ none (by simp)

/-- The virtual nodes are those of the nodes that have joined, at the addresses of their joins. -/
theorem exists_entry_iff_joinAddress {ring : Hashring} {cs : List (Int × Callback)}
    (hr : Hashring.Reflects H ring (membership (cs.flatMap fun c => c.2.ringOps)))
    {id addr : Bytes} :
    (∃ e ∈ ring.entries, e.nodeID = id ∧ e.address = addr) ↔ joinAddress cs id = some addr := by
  constructor
  · rintro ⟨e, he, rfl, rfl⟩
    obtain ⟨n, a, c, i, hn, -, rfl⟩ := hr.mem_entries.1 he
    rw [getElem?_membership_ringOps] at hn
    obtain ⟨a', ha', heq⟩ := Option.map_eq_some_iff.1 hn
    obtain ⟨rfl, -⟩ := Prod.mk.inj heq
    exact ha'
  · intro hjoin
    have hmember := getElem?_membership_ringOps cs id
    rw [hjoin] at hmember
    exact ⟨_, hr.mem_entries.2 ⟨id, _, 256, 0, hmember, by decide, rfl⟩, rfl, rfl⟩

/-- The ring follows the membership if and only if, for every node that has joined, the address last
reported is that of its join. The nodes are right in any case. -/
theorem ring_follows_iff (localNodeID : Bytes) (cs : List (Int × Callback)) :
    (∀ id, id ∈ ((View.new localNodeID).handleAll H cs).ring.nodeIDs ↔
      ∃ a, joinAddress cs id = some a) ∧
    (Follows H ((View.new localNodeID).handleAll H cs).ring cs ↔
      ∀ (id a : Bytes), joinAddress cs id = some a → reportedAddress cs id = some a) := by
  rw [ring_handleAll]
  have hr := Hashring.reflects_build H localNodeID (cs.flatMap fun c => c.2.ringOps)
  generalize build H localNodeID (cs.flatMap fun c => c.2.ringOps) = ring at hr
  have hnodes : ∀ id, id ∈ ring.nodeIDs ↔ ∃ a, joinAddress cs id = some a := by
    intro id
    rw [hr.mem_nodeIDs, getElem?_membership_ringOps]
    simp
  refine ⟨hnodes, ?_, ?_⟩
  · intro hf id a hjoin
    obtain ⟨e, he, rfl, rfl⟩ := (exists_entry_iff_joinAddress hr).2 hjoin
    exact hf.entries e he
  · intro h
    have hreported : ∀ e ∈ ring.entries, reportedAddress cs e.nodeID = some e.address := by
      intro e he
      exact h _ _ ((exists_entry_iff_joinAddress hr).1 ⟨e, he, rfl, rfl⟩)
    refine ⟨hnodes, hreported, ?_, ?_⟩
    · intro hne key
      obtain ⟨e, he, hget⟩ := Hashring.exists_entry_of_getNode H hr.sorted hne key
      rw [hget]
      exact hreported e he
    · intro key count r hmem
      obtain ⟨e, he, rfl⟩ := Hashring.exists_entry_of_mem_replicasFor H hr.sorted hmem
      exact hreported e he

/-- A node that joins and then changes its address. -/
def movedNode : List (Int × Callback) :=
  [(0, .onJoin (str "n1") (str "h1:6379")), (1, .onUpdate (str "n1") (str "h2:6379"))]

/-- The ring keeps the address of the join, and redirects clients to it. -/
theorem update_not_followed :
    reportedAddress movedNode (str "n1") = some (str "h2:6379") ∧
    ((View.new (str "n0")).handleAll .xxhash movedNode).ring.getNode .xxhash (str "foo") =
      (str "n1", str "h1:6379") ∧
    ¬ Follows .xxhash ((View.new (str "n0")).handleAll .xxhash movedNode).ring movedNode := by
  rw [ring_handleAll]
  have hr := Hashring.reflects_build .xxhash (str "n0") (movedNode.flatMap fun c => c.2.ringOps)
  generalize build .xxhash (str "n0") (movedNode.flatMap fun c => c.2.ringOps) = ring at hr
  have hn : (membership (movedNode.flatMap fun c => c.2.ringOps))[str "n1"]? =
      some (str "h1:6379", 256) := by
    rw [getElem?_membership_ringOps]
    decide
  -- there is one member, so every lookup gives its only address
  have hget : ring.getNode .xxhash (str "foo") = (str "n1", str "h1:6379") := by
    obtain ⟨owner, addr, c, howner, hget⟩ := hr.getNode_mem hn (str "foo")
    rw [getElem?_membership_ringOps] at howner
    have hjoin : joinAddress movedNode owner =
        if str "n1" = owner then some (str "h1:6379") else none := rfl
    rw [hjoin] at howner
    split at howner
    next heq =>
      obtain ⟨rfl, -⟩ := Prod.mk.inj (Option.some.inj howner)
      rw [hget, heq]
    next => cases howner
  refine ⟨by decide, hget, ?_⟩
  intro hf
  have hreported := hf.getNode (hr.entries_ne_nil hn) (str "foo")
  rw [hget] at hreported
  revert hreported
  decide

end Hapartition
