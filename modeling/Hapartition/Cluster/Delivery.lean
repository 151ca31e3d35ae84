import Hapartition.Cluster.Invariant

/-!
# Packets and snapshots keep the invariant

What a node does outside commands is lawful (`lawful_of_nodeMove`): it merges entries that some node
holds already, routes true acknowledgements, and sends packets that stand for what they say. The
case that carries the protocol is the request (`lawful_handleReplicateRequest`): a replica reports
success when it has merged the entry, whether or not the entry replaced what it had, and merging is
enough for the replica to hold the entry or a newer one.
-/

set_option autoImplicit false

namespace Hapartition

open Lib
open Std (ExtTreeMap)

/-! ## Packets -/

namespace State

variable {H : Hashing} {C : Pb.Codec} {s : State} {id : Bytes} {n : Node}

/-- What a change of one node, outside commands, has to respect: it merges entries that some node
holds and that the node is a replica for, its channels hold true acknowledgements, and what it
sends is true once it has changed. -/
structure Lawful (H : Hashing) (C : Pb.Codec) (s : State) (id : Bytes) (n n' : Node)
    (ps : List Packet) : Prop where
  grows : ∃ es, n.Grows es n' ∧
    ∀ p ∈ es, s.Held p.1 p.2 ∧ n.gossip.isReplica H n.ring p.1 = true
  acked : ∀ (requestID : Bytes) (ch : AckChan) (res : AckResult),
    n'.gossip.pendingReqs[requestID]? = some ch → res ∈ ch.buf → res.err = none →
      s.Acked requestID res.nodeID
  packets : ∀ t, Grows s t → t.nodes[id]? = some n' → ∀ p ∈ ps, t.BufOk C p.buf

/-- A change that leaves store and channels alone. -/
theorem Lawful.of_sameData {n' : Node} {ps : List Packet} (hok : s.NodeOk id n)
    (hsame : n.SameData n') (hchan : n'.gossip.pendingReqs = n.gossip.pendingReqs)
    (hps : ∀ t, Grows s t → t.nodes[id]? = some n' → ∀ p ∈ ps, t.BufOk C p.buf) :
    s.Lawful H C id n n' ps where
  grows := ⟨[], hsame.grows, by simp⟩
  acked requestID ch res hch := hok.acked requestID ch res (hchan ▸ hch)
  packets := hps

/-- A batch is lawful when all its entries are held. -/
theorem lawful_handleReplication (hok : s.NodeOk id n) {entries : List Pb.Entry}
    (hheld : ∀ p ∈ Pb.pairs entries, s.Held p.1 p.2) :
    s.Lawful H C id n
      { n with store := n.gossip.handleReplication H n.ring n.store entries } [] where
  grows := by
    refine ⟨_, .of_absorbsAll (Handler.absorbsAll_handleReplication hok.clockOk entries), ?_⟩
    intro p hp
    obtain ⟨hmem, hrep⟩ := Handler.mem_accepted.1 hp
    exact ⟨hheld p hmem, hrep⟩
  acked := hok.acked
  packets := by simp

/-- A request is lawful, and so is its acknowledgement: success means that the node has merged the
entry, whether or not it replaced what the node had. -/
theorem lawful_handleReplicateRequest (hI : s.Inv H C) (hok : s.NodeOk id n)
    {req : Pb.ReplicateRequest} (hreq : s.MessageOk (.replicateReq req)) :
    s.Lawful H C id n
      { n with store := (n.gossip.handleReplicateRequest H n.ring n.store req).1 }
      ((C.marshal (.replicateResp
        (n.gossip.handleReplicateRequest H n.ring n.store req).2)).toList.map
        fun buf => ⟨req.senderId, .message, buf⟩) := by
  obtain ⟨r, hr, hid, hentries⟩ := hreq
  obtain ⟨es, habs, hmem, hall⟩ : ∃ es, Store.AbsorbsAll n.store es
      (n.gossip.applyRequest H n.ring n.store req.entries).1 ∧ _ ∧ _ :=
    Handler.absorbsAll_applyRequest hok.clockOk req.entries
  have hpairs : Pb.pairs req.entries = [(r.key, r.entry)] := by
    rw [hentries]
    exact Pb.pairs_map_of [(r.key, r.entry)]
  refine ⟨⟨es, .of_absorbsAll habs, ?_⟩, hok.acked, ?_⟩
  · intro p hp
    obtain ⟨hp', hrep⟩ := Handler.mem_accepted.1 (hmem p hp)
    rw [hpairs, List.mem_singleton] at hp'
    subst hp'
    exact ⟨⟨r.node, hI.request r hr⟩, hrep⟩
  · intro t hg ht p hp
    obtain ⟨buf, hbuf, rfl⟩ := List.mem_map.1 hp
    refine ⟨_, Option.mem_toList.1 hbuf, ?_⟩
    intro hsuc
    -- all entries were merged, in particular the one of the request
    have hes : es = [(r.key, r.entry)] := (hall hsuc).trans hpairs
    have hcov :
        Covers (n.gossip.handleReplicateRequest H n.ring n.store req).1.tree[r.key]? r.entry :=
      habs.covers_of_mem (p := (r.key, r.entry)) (by rw [hes]; exact List.mem_singleton_self _)
    have hnode : (n.gossip.handleReplicateRequest H n.ring n.store req).2.nodeId = id := hok.nodeID
    exact ⟨r, hg.requests r hr, hid, by rw [hnode]; exact ⟨_, ht, hcov⟩⟩

/-- What a channel holds after a try to send to it. -/
theorem mem_trySend {ch : AckChan} {res res' : AckResult} (h : res' ∈ (ch.trySend res).buf) :
    res' ∈ ch.buf ∨ res' = res := by
  unfold AckChan.trySend at h
  split at h
  · simpa using h
  · exact .inl h

/-- Routing a true acknowledgement is lawful. -/
theorem lawful_handleReplicateResponse (hok : s.NodeOk id n) {resp : Pb.ReplicateResponse}
    (hresp : s.MessageOk (.replicateResp resp)) :
    s.Lawful H C id n { n with gossip := n.gossip.handleReplicateResponse resp } [] := by
  cases hch : n.gossip.pendingReqs[resp.requestId]? with
  | none =>
      -- the call is over: the response is dropped
      have hsame : n.gossip.handleReplicateResponse resp = n.gossip := by
        simp only [Handler.handleReplicateResponse, hch]
      rw [hsame]
      exact .of_sameData hok ⟨rfl, rfl, rfl, rfl, fun hs => hs⟩ rfl (by simp)
  | some ch =>
      simp only [Handler.handleReplicateResponse, hch]
      refine ⟨⟨[], Node.SameData.grows ⟨rfl, rfl, rfl, rfl, fun hs => hs⟩, by simp⟩, ?_, by simp⟩
      intro requestID ch' res hch' hres herr
      rcases Dict.getElem?_insert_eq_some hch' with ⟨rfl, rfl⟩ | hother
      · rcases mem_trySend hres with hold | rfl
        · exact hok.acked resp.requestId ch res hch hold herr
        · -- the new result has no error, so the response reported success
          have hsuc : resp.success = true := by
            by_contra hs
            simp [hs] at herr
          exact hresp hsuc
      · exact hok.acked requestID ch' res hother hres herr

/-- Receiving a packet is lawful. -/
theorem lawful_receive (hI : s.Inv H C) (hok : s.NodeOk id n) {p : Packet}
    (hp : s.BufOk C p.buf) : s.Lawful H C id n (n.receive H C p).1 (n.receive H C p).2 := by
  obtain ⟨m, hm, hmsg⟩ := hp
  have hun : C.unmarshal p.buf = some m := C.unmarshal_marshal m p.buf hm
  have hidle : s.Lawful H C id n n [] :=
    .of_sameData hok ⟨rfl, rfl, rfl, rfl, fun hs => hs⟩ rfl (by simp)
  cases hk : p.kind with
  | message =>
      simp only [Node.receive, hk, Node.handleMessage, hun]
      cases m with
      | entryBatch entries => exact lawful_handleReplication hok hmsg
      | replicateReq req => exact lawful_handleReplicateRequest hI hok hmsg
      | replicateResp resp => exact lawful_handleReplicateResponse hok hmsg
      | empty => exact hidle
  | state =>
      simp only [Node.receive, hk, Handler.handleMergeRemoteState, hun]
      cases m with
      | entryBatch entries => exact lawful_handleReplication hok hmsg
      | replicateReq req => exact hidle
      | replicateResp resp => exact hidle
      | empty => exact hidle

/-! ## Snapshots -/

/-- A snapshot of the store of a node, marshalled, stands for what it says. -/
theorem bufOk_of_serializeStore {t : State} (ht : t.nodes[id]? = some n)
    {snap : List (Bytes × Entry)} (hsnap : snap.Perm n.store.snapshot.toList)
    {m : Pb.GossipMessage} (hser : Handler.serializeStore snap = some m) {buf : Bytes}
    (hbuf : C.marshal m = some buf) : t.BufOk C buf := by
  refine ⟨m, hbuf, ?_⟩
  unfold Handler.serializeStore at hser
  split at hser
  · cases hser
  obtain rfl := Option.some.inj hser
  intro p hp
  rw [Pb.pairs_map_of] at hp
  have hstored : n.store.tree[p.1]? = some p.2 :=
    ExtTreeMap.mem_toList_iff_getElem?_eq_some.1 (hsnap.mem_iff.1 hp)
  exact ⟨id, n, ht, p.2, hstored, le_rfl⟩

/-- What `exchangeState` leaves alone. -/
theorem exchangeState_fields (h : Handler) (members : List MemberInfo)
    (snap : List (Bytes × Entry)) :
    (h.exchangeState H C members snap).1.nodeID = h.nodeID ∧
      (h.exchangeState H C members snap).1.replicaRF = h.replicaRF ∧
      (h.exchangeState H C members snap).1.pendingReqs = h.pendingReqs := by
  rcases Handler.exchangeState_cases C h members snap with
    hnone | ⟨m, peer, pos, -, -, hsome⟩
  · rw [hnone]
    exact ⟨rfl, rfl, rfl⟩
  · rw [hsome]
    exact ⟨rfl, rfl, rfl⟩

theorem lawful_exchange (hok : s.NodeOk id n) {snap : List (Bytes × Entry)}
    (hsnap : snap.Perm n.store.snapshot.toList) :
    s.Lawful H C id n (n.exchange H C snap).1 (n.exchange H C snap).2 := by
  obtain ⟨hid, hrf, hpend⟩ := exchangeState_fields (H := H) (C := C) n.gossip n.gossip.members snap
  refine .of_sameData hok ⟨hid, hrf, rfl, rfl, fun hs => hs⟩ hpend ?_
  intro t _ ht p hp
  obtain ⟨q, hq, rfl⟩ := List.mem_map.1 hp
  obtain ⟨m, hm, hbuf⟩ := Handler.exchangeState_eq_some (Option.mem_toList.1 hq)
  exact bufOk_of_serializeStore ht hsnap hm hbuf

theorem lawful_push (hok : s.NodeOk id n) (peer : Bytes) {snap : List (Bytes × Entry)}
    (hsnap : snap.Perm n.store.snapshot.toList) :
    s.Lawful H C id n (n.push C peer snap).1 (n.push C peer snap).2 := by
  refine .of_sameData hok ⟨rfl, rfl, rfl, rfl, fun hs => hs⟩ rfl ?_
  intro t _ ht p hp
  obtain ⟨buf, hbuf, rfl⟩ := List.mem_map.1 hp
  obtain ⟨m, hm, hbuf'⟩ := Handler.handleLocalState_eq_some (Option.mem_toList.1 hbuf)
  exact bufOk_of_serializeStore ht hsnap hm hbuf'

/-- Whatever a node does outside commands is lawful. -/
theorem lawful_of_nodeMove (hI : s.Inv H C) (hn : s.nodes[id]? = some n) {a : Action} {n' : Node}
    {ps : List Packet} (hmove : NodeMove H C s id n a n' ps) : s.Lawful H C id n n' ps := by
  have hok := hI.node id n hn
  cases hmove with
  | members l =>
      refine .of_sameData hok ?_ rfl (by simp)
      exact ⟨rfl, rfl, rfl, rfl, fun hs => hs⟩
  | join nodeID redisAddr =>
      refine .of_sameData hok ?_ rfl (by simp)
      exact ⟨rfl, rfl, rfl, rfl, fun _ => H.sorter.sorted _ _⟩
  | leave nodeID =>
      refine .of_sameData hok ?_ rfl (by simp)
      exact ⟨rfl, rfl, rfl, rfl, fun hs => Hashring.sorted_removeNode hs nodeID⟩
  | deliver p hp _ => exact lawful_receive hI hok (hI.packet p hp)
  | exchange snap hsnap => exact lawful_exchange hok hsnap
  | push peer snap hsnap => exact lawful_push hok peer hsnap

end State

end Hapartition
