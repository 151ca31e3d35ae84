import Hapartition.Cluster.Model

/-!
# What the cluster preserves

`HeldBy s id k e` says that node `id` holds at `k` the entry `e` or a newer one. Along every run
without overflow it never becomes false: all that ever happens to a store is a sequence of
merges. `Grows` is what a later state has of an earlier one.

`Inv` says what the packets, channels and calls of a reachable state stand for. An entry on its way
is held by some node; a successful acknowledgement, wherever it is, names a request whose entry its
node holds; an open call has counted only such nodes, each once and all of them replicas other than
the caller. The modules after this one show that every step keeps it.
-/

set_option autoImplicit false

namespace Hapartition

open Lib
open Std (ExtTreeMap)

/-- The IDs of the replica set of a key. -/
def replicaIDs (H : Hashing) (ring : Hashring) (key : Bytes) (rf : Int) : List Bytes :=
  (ring.replicasFor H key rf).map Replica.nodeID

namespace State

/-- Node `id` holds `e`, or a newer entry, at `k`. -/
def HeldBy (s : State) (id k : Bytes) (e : Entry) : Prop :=
  ∃ n, s.nodes[id]? = some n ∧ Covers n.store.tree[k]? e

/-- In the terms of the store: what the node has at `k` is `e` or wins over it. -/
theorem heldBy_iff {s : State} {id k : Bytes} {e : Entry} :
    s.HeldBy id k e ↔ ∃ n e', s.nodes[id]? = some n ∧ n.store.tree[k]? = some e' ∧
      (e' = e ∨ newer e' e = true) := by
  simp only [HeldBy, Covers, le_iff_eq_or_newer]
  constructor
  · rintro ⟨n, hn, e', he', hle⟩
    exact ⟨n, e', hn, he', hle⟩
  · rintro ⟨n, e', hn, he', hle⟩
    exact ⟨n, hn, e', he', hle⟩

/-- Some node holds `e`, or a newer entry, at `k`. -/
def Held (s : State) (k : Bytes) (e : Entry) : Prop := ∃ id, s.HeldBy id k e

/-- The entry of the request `requestID` is held by node `nodeID`. -/
def Acked (s : State) (requestID nodeID : Bytes) : Prop :=
  ∃ r ∈ s.requests, r.id = requestID ∧ s.HeldBy nodeID r.key r.entry

/-- The replication factor of a node. -/
def replicaRF (s : State) (id : Bytes) : Int :=
  match s.nodes[id]? with
  | some n => n.gossip.replicaRF
  | none => 0

theorem replicaRF_eq {s : State} {id : Bytes} {n : Node} (hn : s.nodes[id]? = some n) :
    s.replicaRF id = n.gossip.replicaRF := by
  simp only [replicaRF, hn]

/-! ## The invariant -/

/-- What a message stands for. -/
def MessageOk (s : State) : Pb.GossipMessage → Prop
  | .entryBatch entries => ∀ p ∈ Pb.pairs entries, s.Held p.1 p.2
  | .replicateReq req =>
      ∃ r ∈ s.requests, r.id = req.requestId ∧ req.entries = [Pb.Entry.of (r.key, r.entry)]
  | .replicateResp resp => resp.success = true → s.Acked resp.requestId resp.nodeId
  | .empty => True

/-- The bytes are those of a message that stands for what it says. -/
def BufOk (C : Pb.Codec) (s : State) (buf : Bytes) : Prop :=
  ∃ m, C.marshal m = some buf ∧ s.MessageOk m

/-- The state of one node. -/
structure NodeOk (s : State) (id : Bytes) (n : Node) : Prop where
  nodeID : n.gossip.nodeID = id
  clockOk : n.store.ClockOk
  sorted : n.ring.Sorted
  acked : ∀ (requestID : Bytes) (ch : AckChan) (res : AckResult),
    n.gossip.pendingReqs[requestID]? = some ch → res ∈ ch.buf → res.err = none →
      s.Acked requestID res.nodeID

/-- A replica of the key other than the caller. -/
def Peer (H : Hashing) (s : State) (c : Command) (ring : Hashring) (id : Bytes) : Prop :=
  id ≠ c.node ∧ id ∈ replicaIDs H ring c.key (s.replicaRF c.node)

/-- The local variables of an open call. -/
structure OpenOk (H : Hashing) (C : Pb.Codec) (s : State) (c : Command) (o : OpenCall) : Prop where
  request : ⟨o.requestID, c.node, c.key, c.entry⟩ ∈ s.requests
  buf : s.BufOk C o.buf
  sorted : o.ring.Sorted
  acks : o.acks = o.acked.length + 1
  nodup : o.acked.Nodup
  acked : ∀ id ∈ o.acked, id ∈ o.expected ∧ s.HeldBy id c.key c.entry
  expected : ∀ id ∈ o.expected, s.Peer H c o.ring id
  todo : ∀ r ∈ o.todo, s.Peer H c o.ring r.nodeID

/-- A command in progress: its node holds what is left to replicate, and wrote it. -/
structure CommandOk (H : Hashing) (C : Pb.Codec) (s : State) (c : Command) : Prop where
  held : ∀ p ∈ (c.key, c.entry) :: c.rest, s.HeldBy c.node p.1 p.2
  origin : ∀ p ∈ (c.key, c.entry) :: c.rest, p.2.origin = c.node
  phase : ∀ o, c.phase = .sending o ∨ c.phase = .collecting o → s.OpenOk H C c o

/-- A call that returned nil: its node and enough other replicas hold the entry. -/
structure AckOk (H : Hashing) (s : State) (r : Ack) : Prop where
  held : s.HeldBy r.node r.key r.entry
  origin : r.entry.origin = r.node
  sorted : r.ring.Sorted
  quorum : ∃ Q : List Bytes, Q.Nodup ∧ r.w ≤ Q.length + 1 ∧
    ∀ id ∈ Q, id ≠ r.node ∧ id ∈ replicaIDs H r.ring r.key r.rf ∧ s.HeldBy id r.key r.entry

/-- The invariant of the cluster. -/
structure Inv (H : Hashing) (C : Pb.Codec) (s : State) : Prop where
  node : ∀ (id : Bytes) (n : Node), s.nodes[id]? = some n → s.NodeOk id n
  packet : ∀ p ∈ s.network, s.BufOk C p.buf
  request : ∀ r ∈ s.requests, s.HeldBy r.node r.key r.entry
  ids : (s.requests.map Request.id).Nodup
  command : ∀ c ∈ s.commands, s.CommandOk H C c
  ack : ∀ r ∈ s.acks, s.AckOk H r

/-! ## Growing

Everything that the invariant says of one packet, channel or call is a statement that stays true
while stores grow and requests are added. -/

/-- Later in a run: no node has lost an entry, nothing on record is gone. -/
structure Grows (s t : State) : Prop where
  node : ∀ (id : Bytes) (n : Node), s.nodes[id]? = some n →
    ∃ n', t.nodes[id]? = some n' ∧ n'.gossip.replicaRF = n.gossip.replicaRF ∧
      n'.writeConcern = n.writeConcern ∧ n.store.clock ≤ n'.store.clock ∧
      ∀ (k : Bytes) (e : Entry), Covers n.store.tree[k]? e → Covers n'.store.tree[k]? e
  network : ∀ p ∈ s.network, p ∈ t.network
  requests : ∀ r ∈ s.requests, r ∈ t.requests
  acks : ∀ r ∈ s.acks, r ∈ t.acks

namespace Grows

variable {s t u : State}

theorem refl (s : State) : Grows s s :=
  ⟨fun _ n hn => ⟨n, hn, rfl, rfl, le_rfl, fun _ _ h => h⟩, fun _ h => h, fun _ h => h,
    fun _ h => h⟩

theorem trans (h : Grows s t) (h' : Grows t u) : Grows s u := by
  refine ⟨?_, fun p hp => h'.network p (h.network p hp),
    fun r hr => h'.requests r (h.requests r hr), fun r hr => h'.acks r (h.acks r hr)⟩
  intro id n hn
  obtain ⟨n', hn', hrf, hwc, hcl, hcov⟩ := h.node id n hn
  obtain ⟨n'', hn'', hrf', hwc', hcl', hcov'⟩ := h'.node id n' hn'
  exact ⟨n'', hn'', hrf'.trans hrf, hwc'.trans hwc, hcl.trans hcl',
    fun k e hc => hcov' k e (hcov k e hc)⟩

theorem heldBy (h : Grows s t) {id k : Bytes} {e : Entry} (hs : s.HeldBy id k e) :
    t.HeldBy id k e := by
  obtain ⟨n, hn, hc⟩ := hs
  obtain ⟨n', hn', -, -, -, hcov⟩ := h.node id n hn
  exact ⟨n', hn', hcov k e hc⟩

theorem held (h : Grows s t) {k : Bytes} {e : Entry} (hs : s.Held k e) : t.Held k e := by
  obtain ⟨id, hid⟩ := hs
  exact ⟨id, h.heldBy hid⟩

theorem acked (h : Grows s t) {requestID nodeID : Bytes} (hs : s.Acked requestID nodeID) :
    t.Acked requestID nodeID := by
  obtain ⟨r, hr, hid, hheld⟩ := hs
  exact ⟨r, h.requests r hr, hid, h.heldBy hheld⟩

theorem replicaRF (h : Grows s t) {id : Bytes} {n : Node} (hn : s.nodes[id]? = some n) :
    t.replicaRF id = s.replicaRF id := by
  obtain ⟨n', hn', hrf, -⟩ := h.node id n hn
  rw [replicaRF_eq hn, replicaRF_eq hn', hrf]

theorem bufOk (h : Grows s t) {C : Pb.Codec} {buf : Bytes} (hs : s.BufOk C buf) :
    t.BufOk C buf := by
  obtain ⟨m, hm, hok⟩ := hs
  refine ⟨m, hm, ?_⟩
  cases m with
  | entryBatch entries => exact fun p hp => h.held (hok p hp)
  | replicateReq req =>
      obtain ⟨r, hr, hid, hentries⟩ := hok
      exact ⟨r, h.requests r hr, hid, hentries⟩
  | replicateResp resp => exact fun hsuc => h.acked (hok hsuc)
  | empty => trivial

theorem nodeOk (h : Grows s t) {id : Bytes} {n : Node} (hs : s.NodeOk id n) : t.NodeOk id n :=
  ⟨hs.nodeID, hs.clockOk, hs.sorted,
    fun requestID ch res hch hres herr => h.acked (hs.acked requestID ch res hch hres herr)⟩

theorem openOk (h : Grows s t) {H : Hashing} {C : Pb.Codec} {c : Command} {o : OpenCall} {n : Node}
    (hn : s.nodes[c.node]? = some n) (hs : s.OpenOk H C c o) : t.OpenOk H C c o := by
  -- the replica sets in the two states are the same, since the factor of the caller is
  have hpeer : ∀ id, s.Peer H c o.ring id → t.Peer H c o.ring id := by
    rintro id ⟨hne, hmem⟩
    exact ⟨hne, by rwa [h.replicaRF hn]⟩
  exact
    { request := h.requests _ hs.request
      buf := h.bufOk hs.buf
      sorted := hs.sorted
      acks := hs.acks
      nodup := hs.nodup
      acked := fun id hid => ⟨(hs.acked id hid).1, h.heldBy (hs.acked id hid).2⟩
      expected := fun id hid => hpeer id (hs.expected id hid)
      todo := fun r hr => hpeer r.nodeID (hs.todo r hr) }

theorem commandOk (h : Grows s t) {H : Hashing} {C : Pb.Codec} {c : Command}
    (hs : s.CommandOk H C c) : t.CommandOk H C c := by
  obtain ⟨n, hn, -⟩ := hs.held _ List.mem_cons_self
  exact ⟨fun p hp => h.heldBy (hs.held p hp), hs.origin, fun o ho => h.openOk hn (hs.phase o ho)⟩

theorem ackOk (h : Grows s t) {H : Hashing} {r : Ack} (hs : s.AckOk H r) : t.AckOk H r := by
  obtain ⟨Q, hnodup, hw, hQ⟩ := hs.quorum
  refine ⟨h.heldBy hs.held, hs.origin, hs.sorted, Q, hnodup, hw, ?_⟩
  intro id hid
  obtain ⟨hne, hmem, hheld⟩ := hQ id hid
  exact ⟨hne, hmem, h.heldBy hheld⟩

end Grows

/-- The invariant of a later state, from that of an earlier one and what is new. -/
theorem Inv.of_grows {H : Hashing} {C : Pb.Codec} {s t : State} (hI : s.Inv H C) (hg : Grows s t)
    (hnode : ∀ (id : Bytes) (n : Node), t.nodes[id]? = some n →
      s.nodes[id]? = some n ∨ t.NodeOk id n)
    (hpacket : ∀ p ∈ t.network, p ∈ s.network ∨ t.BufOk C p.buf)
    (hrequest : ∀ r ∈ t.requests, r ∈ s.requests ∨ t.HeldBy r.node r.key r.entry)
    (hids : (t.requests.map Request.id).Nodup)
    (hcommand : ∀ c ∈ t.commands, c ∈ s.commands ∨ t.CommandOk H C c)
    (hack : ∀ r ∈ t.acks, r ∈ s.acks ∨ t.AckOk H r) : t.Inv H C where
  node id n hn := (hnode id n hn).elim (fun h => hg.nodeOk (hI.node id n h)) fun h => h
  packet p hp := (hpacket p hp).elim (fun h => hg.bufOk (hI.packet p h)) fun h => h
  request r hr := (hrequest r hr).elim (fun h => hg.heldBy (hI.request r h)) fun h => h
  ids := hids
  command c hc := (hcommand c hc).elim (fun h => hg.commandOk (hI.command c h)) fun h => h
  ack r hr := (hack r hr).elim (fun h => hg.ackOk (hI.ack r h)) fun h => h

end State

/-! ## One node changes -/

/-- `n'` is `n` after the merges `es`, with the same configuration. -/
structure Node.Grows (n : Node) (es : List (Bytes × Entry)) (n' : Node) : Prop where
  nodeID : n'.gossip.nodeID = n.gossip.nodeID
  replicaRF : n'.gossip.replicaRF = n.gossip.replicaRF
  writeConcern : n'.writeConcern = n.writeConcern
  absorbs : Store.AbsorbsAll n.store es n'.store
  sorted : n.ring.Sorted → n'.ring.Sorted

/-- A change that leaves the store and the configuration alone. -/
structure Node.SameData (n n' : Node) : Prop where
  nodeID : n'.gossip.nodeID = n.gossip.nodeID
  replicaRF : n'.gossip.replicaRF = n.gossip.replicaRF
  writeConcern : n'.writeConcern = n.writeConcern
  store : n'.store = n.store
  sorted : n.ring.Sorted → n'.ring.Sorted

theorem Node.SameData.grows {n n' : Node} (h : n.SameData n') : n.Grows [] n' :=
  ⟨h.nodeID, h.replicaRF, h.writeConcern, h.store ▸ .nil _, h.sorted⟩

/-- A change of the store. -/
theorem Node.Grows.of_absorbsAll {n : Node} {es : List (Bytes × Entry)} {store : Store}
    (h : Store.AbsorbsAll n.store es store) : n.Grows es { n with store := store } :=
  ⟨rfl, rfl, rfl, h, fun hs => hs⟩

namespace State

variable {H : Hashing} {C : Pb.Codec} {s t : State} {id : Bytes} {n n' : Node}
  {es : List (Bytes × Entry)}

/-- The cluster grows when one of its nodes does. -/
theorem grows_of_node (hn : s.nodes[id]? = some n) (hg : n.Grows es n')
    (hnodes : t.nodes = s.nodes.insert id n') (hnetwork : ∀ p ∈ s.network, p ∈ t.network)
    (hrequests : ∀ r ∈ s.requests, r ∈ t.requests) (hacks : ∀ r ∈ s.acks, r ∈ t.acks) :
    Grows s t := by
  refine ⟨?_, hnetwork, hrequests, hacks⟩
  intro id' m hm
  rw [hnodes]
  by_cases hid : id = id'
  · subst hid
    obtain rfl := Option.some.inj (hn.symm.trans hm)
    exact ⟨n', ExtTreeMap.getElem?_insert_self, hg.replicaRF, hg.writeConcern,
      hg.absorbs.clock_le, fun k e => hg.absorbs.covers⟩
  · rw [Dict.getElem?_insert_of_ne _ _ (Ne.symm hid)]
    exact ⟨m, hm, rfl, rfl, le_rfl, fun k e hc => hc⟩

/-- The nodes after one of them has changed. -/
theorem node_of_insert (hnodes : t.nodes = s.nodes.insert id n') (hok : t.NodeOk id n') :
    ∀ (id' : Bytes) (m : Node), t.nodes[id']? = some m →
      s.nodes[id']? = some m ∨ t.NodeOk id' m := by
  intro id' m hm
  rw [hnodes] at hm
  rcases Dict.getElem?_insert_eq_some hm with ⟨rfl, rfl⟩ | hold
  · exact .inr hok
  · exact .inl hold

/-- A node that has grown is in order if its channels are. -/
theorem NodeOk.of_grows (hok : s.NodeOk id n) (hg : n.Grows es n')
    (hacked : ∀ (requestID : Bytes) (ch : AckChan) (res : AckResult),
      n'.gossip.pendingReqs[requestID]? = some ch → res ∈ ch.buf → res.err = none →
        t.Acked requestID res.nodeID) : t.NodeOk id n' :=
  ⟨hg.nodeID.trans hok.nodeID, hg.absorbs.clockOk hok.clockOk, hg.sorted hok.sorted, hacked⟩

end State

end Hapartition
