import Hapartition.Ring.Membership
import Hapartition.Server.Server

/-!
# A node and its quorum calls

`Node` is one process: the store and the ring that its server and its gossip handler share, and the
handler. `ReplicateWithQuorum` of `internal/gossip/gossip.go` waits for other nodes, so here it is a
machine (`Phase`) that other steps of the cluster interleave with. Its moves (`callStep`) are the
stretches of the source between two accesses to shared state:

- `localWrite`: the local merge, and the return of a call that needs no other replica;
- `lookup`: reading the ring, checking the number of replicas, marshalling the request and
  registering the channel;
- `send`: one turn of the loop of sends, `sendsDone` the check after it;
- `receive`, `timeout`, `finish`: the loop that waits for acknowledgements.

What a node does with a packet is `Node.receive`; `Node.exchange` and `Node.push` are the two ways
in which snapshots leave a node.
-/

set_option autoImplicit false

namespace Hapartition

open Lib
open Std (ExtTreeMap)

/-- One process of the cluster. -/
structure Node where
  addr : Bytes
  writeConcern : Int
  store : Store
  ring : Hashring
  gossip : Handler

/-- The server of the node, for commands that need no other node. -/
def Node.server (n : Node) : Server :=
  { addr := n.addr
    localID := n.gossip.nodeID
    store := n.store
    ring := n.ring
    gossip := some n.gossip
    writeConcern := n.writeConcern
    authToken := [] }

/-- How a packet reaches its receiver: as a message, or as the remote state of a push-pull
exchange. -/
inductive PacketKind where
  | message
  | state
  deriving DecidableEq, Repr

/-- Bytes on their way to a node. -/
structure Packet where
  dst : Bytes
  kind : PacketKind
  buf : Bytes
  deriving DecidableEq, Repr

/-! ## Quorum calls -/

/-- The local variables of a call of `ReplicateWithQuorum` that has read the ring. `ring` is the
ring it read; the source keeps only the replicas. -/
structure OpenCall where
  requestID : Bytes
  ring : Hashring
  buf : Bytes
  todo : List Replica
  sent : Nat
  expected : List Bytes
  acks : Nat
  acked : List Bytes

/-- How far a call has come. -/
inductive Phase where
  | start
  | lookup
  | sending (o : OpenCall)
  | collecting (o : OpenCall)
  | returned (err : Option QuorumError)

/-- A write command in progress at a node: the call it is in, and the tombstones of a `DEL` that it
has still to replicate. -/
structure Command where
  node : Bytes
  w : Int
  key : Bytes
  entry : Entry
  rest : List (Bytes × Entry)
  phase : Phase

/-- A request that some call has made, for the record. -/
structure Request where
  id : Bytes
  node : Bytes
  key : Bytes
  entry : Entry

/-- A call that returned nil, for the record: its node, arguments, and the ring it read its replica
set from. A call with `w ≤ 1` reads none; the ring of the node at its return stands in. -/
structure Ack where
  node : Bytes
  key : Bytes
  entry : Entry
  w : Int
  rf : Int
  ring : Hashring

/-- The moves of a call. `lookup` carries the UUID that it draws, `send` whether the transport
reported success. -/
inductive CallAction where
  | localWrite
  | lookup (requestID : Bytes)
  | send (ok : Bool)
  | sendsDone
  | receive
  | timeout
  | finish

/-- What a move changes: the node, the command, and what it adds to the network and the record. -/
structure Effect where
  node : Node
  command : Command
  packets : List Packet
  requests : List Request
  acks : List Ack

/-- The command after its call returned nil: on to the next tombstone, or done. -/
def Command.next (c : Command) : Command :=
  match c.rest with
  | [] => { c with phase := .returned none }
  | p :: rest => { c with key := p.1, entry := p.2, rest := rest, phase := .start }

/-- The command after its call returned an error. -/
def Command.fail (c : Command) (err : QuorumError) : Command :=
  { c with phase := .returned (some err) }

/-- The deferred removal of the channel of a request. -/
def Node.closeRequest (n : Node) (requestID : Bytes) : Node :=
  { n with gossip := { n.gossip with pendingReqs := n.gossip.pendingReqs.erase requestID } }

/-- The node with a channel for a request. -/
def Node.setChan (n : Node) (requestID : Bytes) (ch : AckChan) : Node :=
  { n with gossip := { n.gossip with pendingReqs := n.gossip.pendingReqs.insert requestID ch } }

/-- The record of a call that returned nil. -/
def Command.ack (c : Command) (n : Node) (ring : Hashring) : Ack :=
  ⟨c.node, c.key, c.entry, c.w, n.gossip.replicaRF, ring⟩

/-- The remote replicas of a key, in the order in which the ring lists them. -/
def Node.remoteNodes (H : Hashing) (n : Node) (key : Bytes) : List Replica :=
  (n.ring.replicasFor H key n.gossip.replicaRF).filter fun r => decide (r.nodeID ≠ n.gossip.nodeID)

/-- The request of a call. -/
def Command.request (c : Command) (n : Node) (requestID : Bytes) : Pb.GossipMessage :=
  .replicateReq ⟨requestID, n.gossip.nodeID, [Pb.Entry.of (c.key, c.entry)]⟩

/-- Counting an acknowledgement: only of a node that the request went to, only a success, only
once. -/
def OpenCall.count (o : OpenCall) (res : AckResult) : OpenCall :=
  if o.expected.contains res.nodeID && res.err.isNone && !o.acked.contains res.nodeID then
    { o with acked := res.nodeID :: o.acked, acks := o.acks + 1 }
  else o

/-- One turn of the loop of sends. A send that reports an error may have reached its receiver. -/
def OpenCall.sentTo (o : OpenCall) (r : Replica) (todo : List Replica) (ok : Bool) : OpenCall :=
  if ok then { o with todo := todo, expected := o.expected.insert r.nodeID, sent := o.sent + 1 }
  else { o with todo := todo }

/-- The local merge at the start of a call. -/
def Node.writeLocal (n : Node) (c : Command) : Node :=
  { n with store := (n.store.setWithVersion c.key c.entry).1 }

/-- The moves of `ReplicateWithQuorum`, by the phase they leave. A request ID is drawn outside
`used`. -/
def callStep (H : Hashing) (C : Pb.Codec) (n : Node) (c : Command) (used : List Bytes) :
    Phase → CallAction → Option Effect
  | .start, .localWrite =>
      -- `w <= 1`: nobody else is asked
      if c.w ≤ 1 then some ⟨n.writeLocal c, c.next, [], [], [c.ack n n.ring]⟩
      else some ⟨n.writeLocal c, { c with phase := .lookup }, [], [], []⟩
  | .lookup, .lookup requestID =>
      let remote := n.remoteNodes H c.key
      if (remote.length + 1 : Int) < c.w then
        some ⟨n, c.fail (.unavailable (Int64.ofNat (remote.length + 1)) (Int64.ofInt c.w)),
          [], [], []⟩
      else if used.contains requestID then none
      else
        match C.marshal (c.request n requestID) with
        | none => some ⟨n, c.fail (.marshal .invalidUtf8), [], [], []⟩
        | some buf =>
            -- the channel is registered before anything is sent
            some ⟨n.setChan requestID ⟨remote.length, []⟩,
              { c with phase := .sending ⟨requestID, n.ring, buf, remote, 0, [], 1, []⟩ },
              [], [⟨requestID, c.node, c.key, c.entry⟩], []⟩
  | .sending o, .send ok =>
      match o.todo with
      | [] => none
      | r :: todo =>
          some ⟨n, { c with phase := .sending (o.sentTo r todo ok) },
            [⟨r.nodeID, .message, o.buf⟩], [], []⟩
  | .sending o, .sendsDone =>
      if o.todo ≠ [] then none
      else if (o.sent + 1 : Int) < c.w then
        some ⟨n.closeRequest o.requestID,
          c.fail (.unreachable (Int64.ofNat (o.sent + 1)) (Int64.ofInt c.w)), [], [], []⟩
      else some ⟨n, { c with phase := .collecting o }, [], [], []⟩
  -- the loop `for acks < w`: a result from the channel or the deadline, whichever comes
  | .collecting o, .receive =>
      if (o.acks : Int) < c.w then
        match n.gossip.pendingReqs[o.requestID]? with
        | some ⟨cap, res :: buf⟩ =>
            some ⟨n.setChan o.requestID ⟨cap, buf⟩,
              { c with phase := .collecting (o.count res) }, [], [], []⟩
        | _ => none
      else none
  | .collecting o, .timeout =>
      if (o.acks : Int) < c.w then
        some ⟨n.closeRequest o.requestID,
          c.fail (.timeout (Int64.ofNat o.acks) (Int64.ofInt c.w)), [], [], []⟩
      else none
  | .collecting o, .finish =>
      if (o.acks : Int) < c.w then none
      else some ⟨n.closeRequest o.requestID, c.next, [], [], [c.ack n o.ring]⟩
  | _, _ => none

/-! ## What a move does

The moves of the two loops are listed with their guards by `callStep_sending` and
`callStep_collecting`. `CallMove` lists the effects that a move of any phase can have. The
invariants of the cluster go by its cases. -/

section Moves

variable {H : Hashing} {C : Pb.Codec} {n : Node} {c : Command} {used : List Bytes} {o : OpenCall}
  {a : CallAction} {e : Effect}

theorem callStep_sending (h : callStep H C n c used (.sending o) a = some e) :
    (∃ r todo ok, a = .send ok ∧ o.todo = r :: todo ∧
      e = ⟨n, { c with phase := .sending (o.sentTo r todo ok) },
        [⟨r.nodeID, .message, o.buf⟩], [], []⟩) ∨
    (a = .sendsDone ∧ o.todo = [] ∧ (o.sent + 1 : Int) < c.w ∧
      ∃ err, e = ⟨n.closeRequest o.requestID, c.fail err, [], [], []⟩) ∨
    (a = .sendsDone ∧ o.todo = [] ∧ c.w ≤ o.sent + 1 ∧
      e = ⟨n, { c with phase := .collecting o }, [], [], []⟩) := by
  cases a with
  | send ok =>
      simp only [callStep] at h
      split at h
      · cases h
      next r todo htodo => exact .inl ⟨r, todo, ok, rfl, htodo, (Option.some.inj h).symm⟩
  | sendsDone =>
      simp only [callStep] at h
      split at h
      · cases h
      next htodo =>
        split at h
        next hfew => exact .inr (.inl ⟨rfl, not_not.1 htodo, hfew, _, (Option.some.inj h).symm⟩)
        next hmany =>
          exact .inr (.inr ⟨rfl, not_not.1 htodo, not_lt.1 hmany, (Option.some.inj h).symm⟩)
  | _ => simp [callStep] at h

theorem callStep_collecting (h : callStep H C n c used (.collecting o) a = some e) :
    (∃ cap res buf, a = .receive ∧ n.gossip.pendingReqs[o.requestID]? = some ⟨cap, res :: buf⟩ ∧
      e = ⟨n.setChan o.requestID ⟨cap, buf⟩, { c with phase := .collecting (o.count res) },
        [], [], []⟩) ∨
    (a = .timeout ∧ (o.acks : Int) < c.w ∧
      ∃ err, e = ⟨n.closeRequest o.requestID, c.fail err, [], [], []⟩) ∨
    (a = .finish ∧ c.w ≤ o.acks ∧
      e = ⟨n.closeRequest o.requestID, c.next, [], [], [c.ack n o.ring]⟩) := by
  cases a with
  | receive =>
      simp only [callStep] at h
      split at h
      · split at h
        next cap res buf hch => exact .inl ⟨cap, res, buf, rfl, hch, (Option.some.inj h).symm⟩
        next => cases h
      · cases h
  | timeout =>
      simp only [callStep] at h
      split at h
      next hfew => exact .inr (.inl ⟨rfl, hfew, _, (Option.some.inj h).symm⟩)
      next => cases h
  | finish =>
      simp only [callStep] at h
      split at h
      next => cases h
      next hmany => exact .inr (.inr ⟨rfl, not_lt.1 hmany, (Option.some.inj h).symm⟩)
  | _ => simp [callStep] at h

end Moves

/-- The effects of the moves of a call. -/
inductive CallMove (H : Hashing) (C : Pb.Codec) (n : Node) (c : Command) (used : List Bytes) :
    Effect → Prop where
  /-- A call that needs no other replica returns. -/
  | alone (hp : c.phase = .start) (hw : c.w ≤ 1) :
      CallMove H C n c used ⟨n.writeLocal c, c.next, [], [], [c.ack n n.ring]⟩
  | wrote (hp : c.phase = .start) :
      CallMove H C n c used ⟨n.writeLocal c, { c with phase := .lookup }, [], [], []⟩
  /-- Too few replicas, or a request that cannot be marshalled. -/
  | failed (hp : c.phase = .lookup) (err : QuorumError) :
      CallMove H C n c used ⟨n, c.fail err, [], [], []⟩
  | opened (hp : c.phase = .lookup) (requestID buf : Bytes) (hfresh : requestID ∉ used)
      (hbuf : C.marshal (c.request n requestID) = some buf) :
      CallMove H C n c used
        ⟨n.setChan requestID ⟨(n.remoteNodes H c.key).length, []⟩,
          { c with
            phase := .sending ⟨requestID, n.ring, buf, n.remoteNodes H c.key, 0, [], 1, []⟩ },
          [], [⟨requestID, c.node, c.key, c.entry⟩], []⟩
  | sent (o : OpenCall) (hp : c.phase = .sending o) (r : Replica) (todo : List Replica)
      (htodo : o.todo = r :: todo) (ok : Bool) :
      CallMove H C n c used
        ⟨n, { c with phase := .sending (o.sentTo r todo ok) },
          [⟨r.nodeID, .message, o.buf⟩], [], []⟩
  /-- Too few sends, or the deadline. -/
  | closed (o : OpenCall) (hp : c.phase = .sending o ∨ c.phase = .collecting o)
      (err : QuorumError) :
      CallMove H C n c used ⟨n.closeRequest o.requestID, c.fail err, [], [], []⟩
  | waiting (o : OpenCall) (hp : c.phase = .sending o) :
      CallMove H C n c used ⟨n, { c with phase := .collecting o }, [], [], []⟩
  | received (o : OpenCall) (hp : c.phase = .collecting o) (cap : Nat) (res : AckResult)
      (buf : List AckResult) (hch : n.gossip.pendingReqs[o.requestID]? = some ⟨cap, res :: buf⟩) :
      CallMove H C n c used
        ⟨n.setChan o.requestID ⟨cap, buf⟩,
          { c with phase := .collecting (o.count res) }, [], [], []⟩
  | finished (o : OpenCall) (hp : c.phase = .collecting o) (hw : c.w ≤ o.acks) :
      CallMove H C n c used ⟨n.closeRequest o.requestID, c.next, [], [], [c.ack n o.ring]⟩

theorem callMove_of_callStep {H : Hashing} {C : Pb.Codec} {n : Node} {c : Command}
    {used : List Bytes} {a : CallAction} {e : Effect}
    (h : callStep H C n c used c.phase a = some e) : CallMove H C n c used e := by
  cases hp : c.phase with
  | start =>
      cases a with
      | localWrite =>
          simp only [hp, callStep] at h
          split at h
          next hw => exact Option.some.inj h ▸ .alone hp hw
          next => exact Option.some.inj h ▸ .wrote hp
      | _ => simp [hp, callStep] at h
  | lookup =>
      cases a with
      | lookup requestID =>
          simp only [hp, callStep] at h
          split at h
          · exact Option.some.inj h ▸ .failed hp _
          split at h
          · cases h
          next hused =>
          have hfresh : requestID ∉ used := by simpa using hused
          split at h
          · exact Option.some.inj h ▸ .failed hp _
          next buf hbuf => exact Option.some.inj h ▸ .opened hp requestID buf hfresh hbuf
      | _ => simp [hp, callStep] at h
  | sending o =>
      rw [hp] at h
      rcases callStep_sending h with ⟨r, todo, ok, -, htodo, rfl⟩ | ⟨-, -, -, err, rfl⟩ |
        ⟨-, -, -, rfl⟩
      · exact .sent o hp r todo htodo ok
      · exact .closed o (.inl hp) err
      · exact .waiting o hp
  | collecting o =>
      rw [hp] at h
      rcases callStep_collecting h with ⟨cap, res, buf, -, hch, rfl⟩ | ⟨-, -, err, rfl⟩ |
        ⟨-, hw, rfl⟩
      · exact .received o hp cap res buf hch
      · exact .closed o (.inr hp) err
      · exact .finished o hp hw
  | returned err => simp [hp, callStep] at h

/-! ## Packets -/

/-- `handleMessage`: the node afterwards, and the packets it sends. -/
def Node.handleMessage (H : Hashing) (C : Pb.Codec) (n : Node) (buf : Bytes) :
    Node × List Packet :=
  match C.unmarshal buf with
  | some (.entryBatch entries) =>
      ({ n with store := n.gossip.handleReplication H n.ring n.store entries }, [])
  | some (.replicateReq req) =>
      let r := n.gossip.handleReplicateRequest H n.ring n.store req
      -- the acknowledgement goes to the sender that the request names
      ({ n with store := r.1 },
        (C.marshal (.replicateResp r.2)).toList.map fun buf => ⟨req.senderId, .message, buf⟩)
  | some (.replicateResp resp) =>
      ({ n with gossip := n.gossip.handleReplicateResponse resp }, [])
  | _ => (n, [])

/-- A node receives a packet. -/
def Node.receive (H : Hashing) (C : Pb.Codec) (n : Node) (p : Packet) : Node × List Packet :=
  match p.kind with
  | .message => n.handleMessage H C p.buf
  | .state =>
      ({ n with store := n.gossip.handleMergeRemoteState H C n.ring n.store p.buf }, [])

/-- A tick of the anti-entropy loop, with the snapshot of the store as it is ranged over. -/
def Node.exchange (H : Hashing) (C : Pb.Codec) (n : Node) (snap : List (Bytes × Entry)) :
    Node × List Packet :=
  let r := n.gossip.exchangeState H C n.gossip.members snap
  ({ n with gossip := r.1 }, r.2.toList.map fun m => ⟨m.1, .message, m.2⟩)

/-- The local state of the node, on its way to `peer` in a push-pull exchange. -/
def Node.push (C : Pb.Codec) (n : Node) (peer : Bytes) (snap : List (Bytes × Entry)) :
    Node × List Packet :=
  (n, (Handler.handleLocalState C snap).toList.map fun buf => ⟨peer, .state, buf⟩)

end Hapartition
