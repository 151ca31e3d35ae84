import Hapartition.Cluster.Call
import Hapartition.Lib.Transition

/-!
# The cluster

The nodes, what is in flight between them and the commands in progress, as one transition system.
A label (`Action`) carries everything that the code leaves to its environment: which node or call
moves next, what clients ask for, which packet arrives, what the membership layer reports, in which
order a map is ranged over.

- The network never forgets a packet. A packet that is delivered later, twice or never is therefore
  delay, duplication and loss; no order is kept. A send that reports an error puts its packet on the
  network all the same.
- Packets are made by the handlers only, and delivered to the node they name.
- Every node has its own ring, which joins and leaves change at that node only.
- A node ID belongs to one node for good, and a request ID is drawn once.

`NoOverflow` is the assumption on the clocks, `Initial` where runs start.
-/

set_option autoImplicit false

namespace Hapartition

open Lib
open Std (ExtTreeMap)

/-- The state of the cluster. `requests` and `acks` record what the calls have done so far and are
read by no node. -/
structure State where
  nodes : ExtTreeMap Bytes Node compare
  network : List Packet
  commands : List Command
  requests : List Request
  acks : List Ack

/-- The labels of the steps. -/
inductive Action where
  /-- A process starts, with a fresh store. -/
  | start (id addr : Bytes) (rf writeConcern : Int)
  /-- The transport of a node reports these members from now on. -/
  | members (id : Bytes) (members : List MemberInfo)
  /-- The transport of a node reports a join. -/
  | join (id nodeID redisAddr : Bytes)
  | leave (id nodeID : Bytes)
  /-- A client sends a write to a node that owns its keys. -/
  | set (id key value : Bytes)
  | del (id : Bytes) (keys : List Bytes) (order : List (Bytes × Entry))
  /-- A move of the call of a command. -/
  | call (i : Nat) (a : CallAction)
  | deliver (p : Packet)
  /-- One tick of the anti-entropy loop of a node. -/
  | exchange (id : Bytes) (snap : List (Bytes × Entry))
  /-- The transport takes the local state of a node for a push-pull exchange with `peer`. -/
  | push (id peer : Bytes) (snap : List (Bytes × Entry))

/-- A process after its start: the ring knows the node itself. -/
def Node.new (H : Hashing) (id addr : Bytes) (rf writeConcern : Int) : Node :=
  { addr := addr
    writeConcern := writeConcern
    store := Store.new
    ring := (Hashring.new id).addNode H id addr 256
    gossip := ⟨id, rf, [], ∅, 0⟩ }

namespace State

variable (H : Hashing) (C : Pb.Codec)

/-- One node moves and sends packets. -/
def onNode (s : State) (id : Bytes) (f : Node → Option (Node × List Packet)) : Option State :=
  match s.nodes[id]? with
  | none => none
  | some n =>
      match f n with
      | none => none
      | some (n', ps) =>
          some { s with nodes := s.nodes.insert id n', network := s.network ++ ps }

/-- A node accepts a write: its store has changed, and the replication of the entries begins. -/
def issue (s : State) (id : Bytes) (n : Node) (store : Store) (p : Bytes × Entry)
    (rest : List (Bytes × Entry)) : State :=
  { s with
    nodes := s.nodes.insert id { n with store := store }
    commands := s.commands ++ [⟨id, quorumOf n.writeConcern, p.1, p.2, rest, .start⟩] }

/-- `SET` at a node, past its checks. -/
def execSet (s : State) (id key value : Bytes) (n : Node) : Option State :=
  match redirect H n.ring n.gossip.nodeID key with
  | some _ => none
  | none =>
      let r := n.store.setFrom key value n.gossip.nodeID
      some (s.issue id n r.1 (key, r.2) [])

/-- `DEL` at a node, past its checks. The tombstones are replicated in the order in which their map
is ranged over. -/
def execDel (s : State) (id : Bytes) (keys : List Bytes) (order : List (Bytes × Entry))
    (n : Node) : Option State :=
  match keys.findSome? (redirect H n.ring n.gossip.nodeID) with
  | some _ => none
  | none =>
      let r := n.store.del n.gossip.nodeID keys
      if order.Perm r.2.2.toList then
        match order with
        | [] => none
        | p :: rest => some (s.issue id n r.1 p rest)
      else none

/-- The cluster after a move of a call. -/
def withEffect (s : State) (i : Nat) (id : Bytes) (e : Effect) : State :=
  { nodes := s.nodes.insert id e.node
    network := s.network ++ e.packets
    commands := s.commands.set i e.command
    requests := s.requests ++ e.requests
    acks := s.acks ++ e.acks }

/-- A move of the call of the command at index `i`. -/
def moveCall (s : State) (i : Nat) (a : CallAction) : Option State :=
  match s.commands[i]? with
  | none => none
  | some c =>
      match s.nodes[c.node]? with
      | none => none
      | some n =>
          (callStep H C n c (s.requests.map Request.id) c.phase a).map (s.withEffect i c.node)

/-- One step of the cluster. -/
def step (s : State) : Action → Option State
  | .start id addr rf writeConcern =>
      match s.nodes[id]? with
      | some _ => none
      | none => some { s with nodes := s.nodes.insert id (Node.new H id addr rf writeConcern) }
  | .members id members =>
      s.onNode id fun n => some ({ n with gossip := { n.gossip with members := members } }, [])
  | .join id nodeID redisAddr =>
      s.onNode id fun n => some ({ n with ring := n.ring.addNode H nodeID redisAddr 256 }, [])
  | .leave id nodeID =>
      s.onNode id fun n => some ({ n with ring := n.ring.removeNode nodeID }, [])
  | .set id key value => s.nodes[id]?.bind (s.execSet H id key value)
  | .del id keys order => s.nodes[id]?.bind (s.execDel H id keys order)
  | .call i a => s.moveCall H C i a
  | .deliver p =>
      if p ∈ s.network then s.onNode p.dst fun n => some (n.receive H C p) else none
  -- a snapshot lists the store, in any order
  | .exchange id snap =>
      s.onNode id fun n =>
        if snap.Perm n.store.snapshot.toList then some (n.exchange H C snap) else none
  | .push id peer snap =>
      s.onNode id fun n =>
        if snap.Perm n.store.snapshot.toList then some (n.push C peer snap) else none

/-- The step moves no clock past its maximum. -/
def NoOverflow (s : State) : Action → Prop
  | .set id _ _ => ∀ n ∈ s.nodes[id]?, n.store.clock.toInt + 1 ≤ Int64.maxValue.toInt
  | .del id keys _ =>
      ∀ n ∈ s.nodes[id]?, n.store.clock.toInt + keys.eraseDups.length ≤ Int64.maxValue.toInt
  | _ => True

/-- Runs start with fresh stores and nothing in flight. The rings may differ: each comes from a
history of its own. -/
structure Initial (s : State) : Prop where
  store : ∀ (id : Bytes) (n : Node), s.nodes[id]? = some n → n.store = Store.new
  nodeID : ∀ (id : Bytes) (n : Node), s.nodes[id]? = some n → n.gossip.nodeID = id
  pendingReqs : ∀ (id : Bytes) (n : Node), s.nodes[id]? = some n → n.gossip.pendingReqs = ∅
  ring : ∀ (id : Bytes) (n : Node), s.nodes[id]? = some n → ∃ ops, n.ring = Hashring.build H id ops
  network : s.network = []
  commands : s.commands = []
  requests : s.requests = []
  acks : s.acks = []

/-- The runs of the cluster in which no clock overflows. -/
abbrev Runs : State → List Action → State → Prop := Run (step H C) NoOverflow

/-- A cluster without nodes. -/
def empty : State := ⟨∅, [], [], [], []⟩

theorem initial_empty : Initial H empty := by
  constructor <;> simp [empty]

end State

/-! ## What a step does

The cases of a step, with the guards under which it is taken: a node starts, one node changes and
sends packets, a command is issued, or a call moves. -/

/-- The changes that a node makes outside commands, with the packets it sends. -/
inductive NodeMove (H : Hashing) (C : Pb.Codec) (s : State) (id : Bytes) (n : Node) :
    Action → Node → List Packet → Prop where
  | members (l : List MemberInfo) :
      NodeMove H C s id n (.members id l)
        { n with gossip := { n.gossip with members := l } } []
  | join (nodeID redisAddr : Bytes) :
      NodeMove H C s id n (.join id nodeID redisAddr)
        { n with ring := n.ring.addNode H nodeID redisAddr 256 } []
  | leave (nodeID : Bytes) :
      NodeMove H C s id n (.leave id nodeID) { n with ring := n.ring.removeNode nodeID } []
  | deliver (p : Packet) (hp : p ∈ s.network) (hdst : p.dst = id) :
      NodeMove H C s id n (.deliver p) (n.receive H C p).1 (n.receive H C p).2
  | exchange (snap : List (Bytes × Entry)) (hsnap : snap.Perm n.store.snapshot.toList) :
      NodeMove H C s id n (.exchange id snap) (n.exchange H C snap).1 (n.exchange H C snap).2
  | push (peer : Bytes) (snap : List (Bytes × Entry)) (hsnap : snap.Perm n.store.snapshot.toList) :
      NodeMove H C s id n (.push id peer snap) (n.push C peer snap).1 (n.push C peer snap).2

/-- The steps of the cluster. -/
inductive Move (H : Hashing) (C : Pb.Codec) (s : State) : Action → State → Prop where
  | start (id addr : Bytes) (rf writeConcern : Int) (hid : s.nodes[id]? = none) :
      Move H C s (.start id addr rf writeConcern)
        { s with nodes := s.nodes.insert id (Node.new H id addr rf writeConcern) }
  | node {a : Action} (id : Bytes) (n n' : Node) (ps : List Packet) (hn : s.nodes[id]? = some n)
      (hmove : NodeMove H C s id n a n' ps) :
      Move H C s a { s with nodes := s.nodes.insert id n', network := s.network ++ ps }
  | set (id key value : Bytes) (n : Node) (hn : s.nodes[id]? = some n)
      (howner : redirect H n.ring n.gossip.nodeID key = none) :
      Move H C s (.set id key value)
        (s.issue id n (n.store.setFrom key value n.gossip.nodeID).1
          (key, (n.store.setFrom key value n.gossip.nodeID).2) [])
  | del (id : Bytes) (keys : List Bytes) (p : Bytes × Entry) (rest : List (Bytes × Entry))
      (n : Node) (hn : s.nodes[id]? = some n)
      (hperm : (p :: rest).Perm (n.store.del n.gossip.nodeID keys).2.2.toList) :
      Move H C s (.del id keys (p :: rest))
        (s.issue id n (n.store.del n.gossip.nodeID keys).1 p rest)
  | call (i : Nat) (a : CallAction) (c : Command) (n : Node) (e : Effect)
      (hc : s.commands[i]? = some c) (hn : s.nodes[c.node]? = some n)
      (hmove : CallMove H C n c (s.requests.map Request.id) e) :
      Move H C s (.call i a) (s.withEffect i c.node e)

theorem State.onNode_eq_some {s t : State} {id : Bytes} {f : Node → Option (Node × List Packet)}
    (h : s.onNode id f = some t) :
    ∃ n n' ps, s.nodes[id]? = some n ∧ f n = some (n', ps) ∧
      t = { s with nodes := s.nodes.insert id n', network := s.network ++ ps } := by
  unfold State.onNode at h
  split at h
  · cases h
  next n hn =>
  split at h
  · cases h
  next n' ps hf => exact ⟨n, n', ps, hn, hf, (Option.some.inj h).symm⟩

theorem move_of_step {H : Hashing} {C : Pb.Codec} {s t : State} {a : Action}
    (h : s.step H C a = some t) : Move H C s a t := by
  cases a with
  | start id addr rf w =>
      simp only [State.step] at h
      split at h
      · cases h
      next hid => exact Option.some.inj h ▸ .start id addr rf w hid
  | members id l =>
      simp only [State.step] at h
      obtain ⟨n, n', ps, hn, hf, rfl⟩ := State.onNode_eq_some h
      cases hf
      exact .node id n _ _ hn (.members l)
  | join id nodeID redisAddr =>
      simp only [State.step] at h
      obtain ⟨n, n', ps, hn, hf, rfl⟩ := State.onNode_eq_some h
      cases hf
      exact .node id n _ _ hn (.join nodeID redisAddr)
  | leave id nodeID =>
      simp only [State.step] at h
      obtain ⟨n, n', ps, hn, hf, rfl⟩ := State.onNode_eq_some h
      cases hf
      exact .node id n _ _ hn (.leave nodeID)
  | set id key value =>
      obtain ⟨n, hn, hset⟩ := Option.bind_eq_some_iff.1 h
      unfold State.execSet at hset
      split at hset
      · cases hset
      next howner => exact Option.some.inj hset ▸ .set id key value n hn howner
  | del id keys order =>
      obtain ⟨n, hn, hdel⟩ := Option.bind_eq_some_iff.1 h
      unfold State.execDel at hdel
      split at hdel
      · cases hdel
      dsimp only at hdel
      by_cases hperm : order.Perm (n.store.del n.gossip.nodeID keys).2.2.toList
      · rw [if_pos hperm] at hdel
        cases order with
        | nil => cases hdel
        | cons p rest => exact Option.some.inj hdel ▸ .del id keys p rest n hn hperm
      · rw [if_neg hperm] at hdel
        cases hdel
  | call i a =>
      simp only [State.step, State.moveCall] at h
      split at h
      · cases h
      next c hc =>
      split at h
      · cases h
      next n hn =>
      obtain ⟨e, he, rfl⟩ := Option.map_eq_some_iff.1 h
      exact .call i a c n e hc hn (callMove_of_callStep he)
  | deliver p =>
      simp only [State.step] at h
      split at h
      next hp =>
        obtain ⟨n, n', ps, hn, hf, rfl⟩ := State.onNode_eq_some h
        obtain ⟨rfl, rfl⟩ := Prod.mk.inj (Option.some.inj hf)
        exact .node p.dst n _ _ hn (.deliver p hp rfl)
      next => cases h
  | exchange id snap =>
      simp only [State.step] at h
      obtain ⟨n, n', ps, hn, hf, rfl⟩ := State.onNode_eq_some h
      split at hf
      next hsnap =>
        obtain ⟨rfl, rfl⟩ := Prod.mk.inj (Option.some.inj hf)
        exact .node id n _ _ hn (.exchange snap hsnap)
      next => cases hf
  | push id peer snap =>
      simp only [State.step] at h
      obtain ⟨n, n', ps, hn, hf, rfl⟩ := State.onNode_eq_some h
      split at hf
      next hsnap =>
        obtain ⟨rfl, rfl⟩ := Prod.mk.inj (Option.some.inj hf)
        exact .node id n _ _ hn (.push peer snap hsnap)
      next => cases hf

/-- A node that owns the key accepts a `SET`. -/
theorem step_set {H : Hashing} {C : Pb.Codec} {s : State} {id key value : Bytes} {n : Node}
    (hn : s.nodes[id]? = some n) (howner : redirect H n.ring n.gossip.nodeID key = none) :
    s.step H C (.set id key value) =
      some (s.issue id n (n.store.setFrom key value n.gossip.nodeID).1
        (key, (n.store.setFrom key value n.gossip.nodeID).2) []) := by
  simp only [State.step, hn, Option.bind_some, State.execSet, howner]

/-- A `DEL` is accepted only if no key belongs to another node. -/
theorem owners_of_del {H : Hashing} {C : Pb.Codec} {s t : State} {id : Bytes} {keys : List Bytes}
    {order : List (Bytes × Entry)} {n : Node} (hn : s.nodes[id]? = some n)
    (h : s.step H C (.del id keys order) = some t) :
    ∀ key ∈ keys, redirect H n.ring n.gossip.nodeID key = none := by
  simp only [State.step, hn, Option.bind_some, State.execDel] at h
  split at h
  · cases h
  next howners => exact List.findSome?_eq_none_iff.1 howners

end Hapartition
