import Hapartition.Cluster.Reachable
import Hapartition.Ring.Nearest

/-!
# A write that is acknowledged

The cluster does what it is for: when a node owns a key, needs one other replica for its quorum, and
that replica is up and has the key on its ring, then a `SET` can be carried to its end
(`exists_set_run`). The run is the expected one: the local write, the request, the acknowledgement.
Two nodes that have started and joined each other meet these conditions for every key, with the
first of its owners in the role of the writer (`exists_pair`, `Joined.ready`).
-/

set_option autoImplicit false

namespace Hapartition

open Lib

namespace State

variable {H : Hashing} {C : Pb.Codec} {s : State} {i : Nat} {c : Command} {n : Node}

/-- The command at index `i` is `c`, and its node is `n`. -/
structure At (s : State) (i : Nat) (c : Command) (n : Node) : Prop where
  command : s.commands[i]? = some c
  node : s.nodes[c.node]? = some n

/-- A move of the call at index `i` changes its node, and adds its packets and records. -/
theorem At.exists_run (h : s.At i c n) {a : CallAction} {e : Effect}
    (he : callStep H C n c (s.requests.map Request.id) c.phase a = some e)
    (hnode : e.command.node = c.node) :
    ∃ t, Runs H C s [.call i a] t ∧ t.At i e.command e.node ∧
      (∀ x, x ≠ c.node → t.nodes[x]? = s.nodes[x]?) ∧ t.network = s.network ++ e.packets ∧
      t.requests = s.requests ++ e.requests ∧ t.acks = s.acks ++ e.acks := by
  have hstep : s.step H C (.call i a) = some (s.withEffect i c.node e) := by
    simp only [State.step, moveCall, h.command, h.node, he, Option.map_some]
  have hi := (List.getElem?_eq_some_iff.1 h.command).1
  refine ⟨_, .single trivial hstep, ⟨List.getElem?_set_self hi, ?_⟩, ?_, rfl, rfl, rfl⟩
  · rw [hnode]
    exact Std.ExtTreeMap.getElem?_insert_self
  · intro x hx
    exact Dict.getElem?_insert_of_ne _ _ hx

/-- A delivery changes the receiver and adds what it sends. -/
theorem exists_deliver_run {m m' : Node} {p : Packet} {ps : List Packet} (hp : p ∈ s.network)
    (hm : s.nodes[p.dst]? = some m) (hrec : m.receive H C p = (m', ps)) :
    ∃ t, Runs H C s [.deliver p] t ∧ t.nodes[p.dst]? = some m' ∧
      (∀ x, x ≠ p.dst → t.nodes[x]? = s.nodes[x]?) ∧ t.network = s.network ++ ps ∧
      t.commands = s.commands ∧ t.requests = s.requests ∧ t.acks = s.acks := by
  have hstep : s.step H C (.deliver p) = some
      { s with nodes := s.nodes.insert p.dst m', network := s.network ++ ps } := by
    simp only [State.step, if_pos hp, onNode, hm, hrec]
  exact ⟨_, .single trivial hstep, Std.ExtTreeMap.getElem?_insert_self,
    fun x hx => Dict.getElem?_insert_of_ne _ _ hx, rfl, rfl, rfl, rfl⟩

/-- A push-pull exchange: the receiver merges the snapshot of the sender. -/
theorem exists_push_run {id peer : Bytes} {m : Node} (hn : s.nodes[id]? = some n)
    (hm : s.nodes[peer]? = some m) {buf : Bytes}
    (hbuf : Handler.handleLocalState C n.store.snapshot.toList = some buf) :
    ∃ t, Runs H C s [.push id peer n.store.snapshot.toList, .deliver ⟨peer, .state, buf⟩] t ∧
      t.nodes[peer]? =
        some { m with store := m.gossip.handleMergeRemoteState H C m.ring m.store buf } := by
  have hstep : s.step H C (.push id peer n.store.snapshot.toList) = some
      { s with nodes := s.nodes.insert id n, network := s.network ++ [⟨peer, .state, buf⟩] } := by
    simp only [State.step, onNode, hn, if_pos (List.Perm.refl _), Node.push, hbuf]
    rfl
  -- the sender itself has not changed
  have hpeer : (s.nodes.insert id n)[peer]? = some m := by
    rw [Dict.getElem?_insert]
    split
    next hid => rw [← hid, hn] at hm; exact hm
    next => exact hm
  obtain ⟨t, hdeliver, hm', -⟩ := exists_deliver_run (H := H) (C := C)
    (s := { s with nodes := s.nodes.insert id n, network := s.network ++ [⟨peer, .state, buf⟩] })
    (p := ⟨peer, .state, buf⟩) (List.mem_append_right _ (List.mem_singleton_self _)) hpeer rfl
  exact ⟨t, .cons trivial hstep hdeliver, hm'⟩

/-- The node `n'` is `n` with another store, its channels apart. -/
structure Wrote (n n' : Node) (store : Store) : Prop where
  store : n'.store = store
  ring : n'.ring = n.ring
  writeConcern : n'.writeConcern = n.writeConcern
  nodeID : n'.gossip.nodeID = n.gossip.nodeID
  replicaRF : n'.gossip.replicaRF = n.gossip.replicaRF

/-! ## The run

The hypotheses of the run are collected in a structure: `id` is the node of the `SET`, `peer` the
other replica. -/

/-- A `SET` of `key` at `id` whose quorum is `id` and `peer`. -/
structure Ready (H : Hashing) (s : State) (id peer key value requestID : Bytes) (n m : Node) :
    Prop where
  node : s.nodes[id]? = some n
  peerNode : s.nodes[peer]? = some m
  ne : id ≠ peer
  nodeID : n.gossip.nodeID = id
  peerID : m.gossip.nodeID = peer
  owner : redirect H n.ring id key = none
  remote : (n.remoteNodes H key).map Replica.nodeID = [peer]
  quorum : quorumOf n.writeConcern = 2
  replica : m.gossip.isReplica H m.ring key = true
  clock : n.store.clock.toInt + 1 ≤ Int64.maxValue.toInt
  fresh : requestID ∉ s.requests.map Request.id
  valid : ∀ b ∈ [id, peer, key, value, requestID], validUtf8 b = true

namespace Ready

variable {id peer key value requestID : Bytes} {m : Node}

/-- The entry that the `SET` writes. -/
def entry (n : Node) (id value : Bytes) : Entry := ⟨value, n.store.clock + 1, id, false⟩

/-- The command of the `SET`, in a phase. -/
def command (n : Node) (id key value : Bytes) (ph : Phase) : Command :=
  ⟨id, 2, key, entry n id value, [], ph⟩

/-- The node after `SetFrom` and the local merge of the call. -/
def written (n : Node) (id key value : Bytes) : Node :=
  { n with
    store := ((n.store.setFrom key value id).1.setWithVersion key (entry n id value)).1 }

variable (h : Ready H s id peer key value requestID n m)

include h

/-- The request of the call can be marshalled. -/
theorem exists_request :
    ∃ buf, C.marshal (.replicateReq ⟨requestID, id, [Pb.Entry.of (key, entry n id value)]⟩) =
      some buf := by
  have hv := h.valid
  simp only [List.mem_cons, List.not_mem_nil, or_false, forall_eq_or_imp, forall_eq] at hv
  obtain ⟨hid, -, hkey, hvalue, hreq⟩ := hv
  refine C.exists_marshal ⟨hreq, hid, fun e he => ?_⟩
  obtain rfl := List.mem_singleton.1 he
  exact ⟨hkey, hvalue, hid⟩

/-- The acknowledgement of the other replica can be marshalled. -/
theorem exists_response :
    ∃ buf, C.marshal (.replicateResp ⟨requestID, peer, true⟩) = some buf :=
  C.exists_marshal ⟨h.valid _ (by simp), h.valid _ (by simp)⟩

/-- The `SET` is accepted, and its call is about to look up the replicas. -/
theorem exists_lookup :
    ∃ t, Runs H C s [.set id key value, .call s.commands.length .localWrite] t ∧
      t.At s.commands.length (command n id key value .lookup) (written n id key value) ∧
      (∀ x, x ≠ id → t.nodes[x]? = s.nodes[x]?) ∧
      t.network = s.network ∧ t.requests = s.requests ∧ t.acks = s.acks := by
  have hset : s.step H C (.set id key value) = some
      (s.issue id n (n.store.setFrom key value id).1 (key, entry n id value) []) := by
    simp only [State.step, h.node, Option.bind_some, execSet, h.nodeID, h.owner, Store.setFrom_snd]
    rfl
  have hat : (s.issue id n (n.store.setFrom key value id).1 (key, entry n id value) []).At
      s.commands.length (command n id key value .start)
      { n with store := (n.store.setFrom key value id).1 } := by
    refine ⟨?_, ?_⟩
    · simp only [issue, h.quorum, List.getElem?_append_right (le_refl _), Nat.sub_self,
        List.getElem?_cons_zero]
      rfl
    · exact Std.ExtTreeMap.getElem?_insert_self
  have hov : s.NoOverflow (.set id key value) := by
    intro n' hn'
    obtain rfl := Option.some.inj (h.node.symm.trans hn')
    exact h.clock
  obtain ⟨t, hrun, hat', hothers, hnet, hreq, hacks⟩ :=
    hat.exists_run (H := H) (C := C) (a := .localWrite) rfl rfl
  refine ⟨t, .cons hov hset hrun, hat', ?_, ?_, ?_, ?_⟩
  · intro x hx
    exact (hothers x hx).trans (Dict.getElem?_insert_of_ne _ _ hx)
  · exact hnet.trans (List.append_nil _)
  · exact hreq.trans (List.append_nil _)
  · exact hacks.trans (List.append_nil _)

/-- The lookup finds the other replica and registers the request. -/
theorem callStep_lookup {used : List Bytes} (hfresh : requestID ∉ used) {r : Replica}
    (hremote : n.remoteNodes H key = [r]) {buf : Bytes}
    (hbuf : C.marshal (.replicateReq ⟨requestID, id, [Pb.Entry.of (key, entry n id value)]⟩) =
      some buf) :
    callStep H C (written n id key value) (command n id key value .lookup) used .lookup
        (.lookup requestID) =
      some ⟨(written n id key value).setChan requestID ⟨1, []⟩,
        command n id key value (.sending ⟨requestID, n.ring, buf, [r], 0, [], 1, []⟩),
        [], [⟨requestID, id, key, entry n id value⟩], []⟩ := by
  have hkey : (written n id key value).remoteNodes H (command n id key value .lookup).key = [r] :=
    hremote
  have hmarshal : C.marshal ((command n id key value .lookup).request (written n id key value)
      requestID) = some buf := by
    show C.marshal (.replicateReq ⟨requestID, n.gossip.nodeID, _⟩) = some buf
    rw [h.nodeID]
    exact hbuf
  have hlen : ¬ (([r].length + 1 : Int) < (command n id key value .lookup).w) := by
    show ¬ ((1 + 1 : Int) < 2)
    omega
  have hused : ¬ used.contains requestID = true := by
    rw [List.contains_iff_mem]
    exact hfresh
  simp only [callStep, hkey, if_neg hlen, if_neg hused, hmarshal]
  rfl

/-- The call has sent its request and waits. -/
theorem exists_collecting {t : State}
    (hat : t.At i (command n id key value .lookup) (written n id key value))
    (hrequests : t.requests = s.requests) :
    ∃ buf u, C.marshal (.replicateReq ⟨requestID, id, [Pb.Entry.of (key, entry n id value)]⟩) =
        some buf ∧
      Runs H C t [.call i (.lookup requestID), .call i (.send true), .call i .sendsDone] u ∧
      u.At i (command n id key value (.collecting ⟨requestID, n.ring, buf, [], 1, [peer], 1, []⟩))
        ((written n id key value).setChan requestID ⟨1, []⟩) ∧
      (∀ x, x ≠ id → u.nodes[x]? = t.nodes[x]?) ∧
      u.network = t.network ++ [⟨peer, .message, buf⟩] ∧
      u.requests = t.requests ++ [⟨requestID, id, key, entry n id value⟩] ∧ u.acks = t.acks := by
  obtain ⟨buf, hbuf⟩ := h.exists_request (C := C)
  obtain ⟨r, hremote, rfl⟩ := List.map_eq_singleton_iff.1 h.remote
  have hfresh : requestID ∉ t.requests.map Request.id := hrequests ▸ h.fresh
  obtain ⟨t₁, hrun₁, hat₁, hothers₁, hnet₁, hreq₁, hacks₁⟩ :=
    hat.exists_run (h.callStep_lookup hfresh hremote hbuf) rfl
  obtain ⟨t₂, hrun₂, hat₂, hothers₂, hnet₂, hreq₂, hacks₂⟩ :=
    hat₁.exists_run (H := H) (C := C) (a := .send true) rfl rfl
  obtain ⟨t₃, hrun₃, hat₃, hothers₃, hnet₃, hreq₃, hacks₃⟩ :=
    hat₂.exists_run (H := H) (C := C) (a := .sendsDone) rfl rfl
  refine ⟨buf, t₃, hbuf, hrun₁.append (hrun₂.append hrun₃), hat₃, ?_, ?_, ?_, ?_⟩
  · intro x hx
    rw [hothers₃ x hx, hothers₂ x hx, hothers₁ x hx]
  · rw [hnet₃, hnet₂, hnet₁]
    simp
  · rw [hreq₃, hreq₂, hreq₁]
    simp
  · rw [hacks₃, hacks₂, hacks₁]
    simp

/-- The other replica merges the entry and reports success. -/
theorem receive_request {buf buf' : Bytes}
    (hbuf : C.marshal (.replicateReq ⟨requestID, id, [Pb.Entry.of (key, entry n id value)]⟩) =
      some buf)
    (hbuf' : C.marshal (.replicateResp ⟨requestID, peer, true⟩) = some buf') :
    m.receive H C ⟨peer, .message, buf⟩ =
      ({ m with store := (m.store.setWithVersion key (entry n id value)).1 },
        [⟨id, .message, buf'⟩]) := by
  have happly : m.gossip.applyRequest H m.ring m.store [Pb.Entry.of (key, entry n id value)] =
      ((m.store.setWithVersion key (entry n id value)).1, true) :=
    if_pos h.replica
  simp only [Node.receive, Node.handleMessage, C.unmarshal_marshal _ _ hbuf,
    Handler.handleReplicateRequest, happly, h.peerID, hbuf']
  rfl

omit h in
/-- The acknowledgement goes to the channel of the call. -/
theorem receive_response {n' : Node} {buf : Bytes}
    (hbuf : C.marshal (.replicateResp ⟨requestID, peer, true⟩) = some buf) :
    (n'.setChan requestID ⟨1, []⟩).receive H C ⟨id, .message, buf⟩ =
      ((n'.setChan requestID ⟨1, []⟩).setChan requestID ⟨1, [⟨peer, none⟩]⟩, []) := by
  have hch : (n'.setChan requestID ⟨1, []⟩).gossip.pendingReqs[requestID]? = some ⟨1, []⟩ :=
    Std.ExtTreeMap.getElem?_insert_self
  simp only [Node.receive, Node.handleMessage, C.unmarshal_marshal _ _ hbuf,
    Handler.handleReplicateResponse, hch]
  rfl

omit h in
/-- The call takes the acknowledgement from its channel and counts it. -/
theorem callStep_receive {used : List Bytes} {buf : Bytes} {n' : Node}
    (hch : n'.gossip.pendingReqs[requestID]? = some ⟨1, [⟨peer, none⟩]⟩) :
    callStep H C n'
        (command n id key value (.collecting ⟨requestID, n.ring, buf, [], 1, [peer], 1, []⟩)) used
        (.collecting ⟨requestID, n.ring, buf, [], 1, [peer], 1, []⟩) .receive =
      some ⟨n'.setChan requestID ⟨1, []⟩,
        command n id key value (.collecting ⟨requestID, n.ring, buf, [], 1, [peer], 2, [peer]⟩),
        [], [], []⟩ := by
  have hlt : ((1 : Nat) : Int) < (command n id key value .lookup).w := by
    show (1 : Int) < 2
    omega
  have hcount : OpenCall.count ⟨requestID, n.ring, buf, [], 1, [peer], 1, []⟩ ⟨peer, none⟩ =
      ⟨requestID, n.ring, buf, [], 1, [peer], 2, [peer]⟩ :=
    if_pos (by simp)
  simp only [callStep, hch, hcount]
  exact if_pos hlt

omit h in
/-- The acknowledgement is delivered, and the call returns nil. -/
theorem exists_acknowledged {t : State} {buf buf' : Bytes}
    (hbuf' : C.marshal (.replicateResp ⟨requestID, peer, true⟩) = some buf')
    (hat : t.At i
      (command n id key value (.collecting ⟨requestID, n.ring, buf, [], 1, [peer], 1, []⟩))
      ((written n id key value).setChan requestID ⟨1, []⟩))
    (hp : ⟨id, .message, buf'⟩ ∈ t.network) :
    ∃ as u, Runs H C t as u ∧
      u.nodes[id]? = some (((((written n id key value).setChan requestID ⟨1, []⟩).setChan requestID
        ⟨1, [⟨peer, none⟩]⟩).setChan requestID ⟨1, []⟩).closeRequest requestID) ∧
      (∀ x, x ≠ id → u.nodes[x]? = t.nodes[x]?) ∧ u.requests = t.requests ∧
      u.acks = t.acks ++ [⟨id, key, entry n id value, 2, n.gossip.replicaRF, n.ring⟩] := by
  obtain ⟨t₁, hrun₁, hid₁, hothers₁, -, hcmd₁, hreq₁, hacks₁⟩ :=
    exists_deliver_run hp hat.node (receive_response (H := H) hbuf')
  have hat₁ : t₁.At i
      (command n id key value (.collecting ⟨requestID, n.ring, buf, [], 1, [peer], 1, []⟩)) _ :=
    ⟨by rw [hcmd₁]; exact hat.command, hid₁⟩
  -- the call takes the acknowledgement from its channel
  obtain ⟨t₂, hrun₂, hat₂, hothers₂, -, hreq₂, hacks₂⟩ :=
    hat₁.exists_run (callStep_receive (H := H) (C := C) Std.ExtTreeMap.getElem?_insert_self) rfl
  obtain ⟨t₃, hrun₃, hat₃, hothers₃, -, hreq₃, hacks₃⟩ :=
    hat₂.exists_run (H := H) (C := C) (a := .finish) rfl rfl
  refine ⟨_, t₃, hrun₁.append (hrun₂.append hrun₃), hat₃.node, ?_, ?_, ?_⟩
  · intro x hx
    rw [hothers₃ x hx, hothers₂ x hx, hothers₁ x hx]
  · rw [hreq₃, hreq₂, hreq₁]
    simp
  · rw [hacks₃, hacks₂, hacks₁, List.append_nil]
    rfl

/-- Request and acknowledgement are delivered, and the call returns nil. -/
theorem exists_returned {t : State} {buf : Bytes}
    (hbuf : C.marshal (.replicateReq ⟨requestID, id, [Pb.Entry.of (key, entry n id value)]⟩) =
      some buf)
    (hat : t.At i
      (command n id key value (.collecting ⟨requestID, n.ring, buf, [], 1, [peer], 1, []⟩))
      ((written n id key value).setChan requestID ⟨1, []⟩))
    (hpeer : t.nodes[peer]? = some m) (hp : ⟨peer, .message, buf⟩ ∈ t.network) :
    ∃ as u, Runs H C t as u ∧
      u.nodes[id]? = some (((((written n id key value).setChan requestID ⟨1, []⟩).setChan requestID
        ⟨1, [⟨peer, none⟩]⟩).setChan requestID ⟨1, []⟩).closeRequest requestID) ∧
      u.nodes[peer]? =
        some { m with store := (m.store.setWithVersion key (entry n id value)).1 } ∧
      (∀ x, x ≠ id → x ≠ peer → u.nodes[x]? = t.nodes[x]?) ∧ u.requests = t.requests ∧
      u.acks = t.acks ++ [⟨id, key, entry n id value, 2, n.gossip.replicaRF, n.ring⟩] := by
  obtain ⟨buf', hbuf'⟩ := h.exists_response (C := C)
  obtain ⟨t₁, hrun₁, hpeer₁, hothers₁, hnet₁, hcmd₁, hreq₁, hacks₁⟩ :=
    exists_deliver_run hp hpeer (h.receive_request hbuf hbuf')
  have hat₁ : t₁.At i
      (command n id key value (.collecting ⟨requestID, n.ring, buf, [], 1, [peer], 1, []⟩))
      ((written n id key value).setChan requestID ⟨1, []⟩) :=
    ⟨by rw [hcmd₁]; exact hat.command, (hothers₁ id h.ne).trans hat.node⟩
  obtain ⟨as, t₂, hrun₂, hid₂, hothers₂, hreq₂, hacks₂⟩ := exists_acknowledged (H := H) hbuf' hat₁
    (by rw [hnet₁]; exact List.mem_append_right _ (List.mem_singleton_self _))
  refine ⟨_, t₂, hrun₁.append hrun₂, hid₂, (hothers₂ peer h.ne.symm).trans hpeer₁, ?_, ?_, ?_⟩
  · intro x hx hx'
    rw [hothers₂ x hx, hothers₁ x hx']
  · rw [hreq₂, hreq₁]
  · rw [hacks₂, hacks₁]

/-- The merge at the start of the call changes nothing: `SetFrom` has stored the entry. -/
theorem written_store : (written n id key value).store = (n.store.setFrom key value id).1 := by
  have hcov := (Store.absorbs_setFrom key value id h.clock).covers_self
  rw [Store.setFrom_snd] at hcov
  show (Store.setWithVersion _ key (entry n id value)).1 = _
  rw [entry, Store.setWithVersion_of_covers hcov]

/-- The `SET` is acknowledged: its node and the other replica have the entry, and no other node has
moved. -/
theorem exists_set_run :
    ∃ as t n', Runs H C s (.set id key value :: as) t ∧ t.nodes[id]? = some n' ∧
      Wrote n n' (n.store.setFrom key value id).1 ∧
      t.nodes[peer]? =
        some { m with store := (m.store.setWithVersion key (entry n id value)).1 } ∧
      (∀ x, x ≠ id → x ≠ peer → t.nodes[x]? = s.nodes[x]?) ∧
      t.requests = s.requests ++ [⟨requestID, id, key, entry n id value⟩] ∧
      t.acks = s.acks ++ [⟨id, key, entry n id value, 2, n.gossip.replicaRF, n.ring⟩] := by
  obtain ⟨t₁, hrun₁, hat₁, hothers₁, hnet₁, hreq₁, hacks₁⟩ := h.exists_lookup (C := C)
  obtain ⟨buf, t₂, hbuf, hrun₂, hat₂, hothers₂, hnet₂, hreq₂, hacks₂⟩ :=
    h.exists_collecting (C := C) hat₁ hreq₁
  have hpeer : t₂.nodes[peer]? = some m := by
    rw [hothers₂ peer h.ne.symm, hothers₁ peer h.ne.symm]
    exact h.peerNode
  have hp : ⟨peer, .message, buf⟩ ∈ t₂.network := by
    rw [hnet₂]
    exact List.mem_append_right _ (List.mem_singleton_self _)
  obtain ⟨as, t₃, hrun₃, hid₃, hpeer₃, hothers₃, hreq₃, hacks₃⟩ :=
    h.exists_returned hbuf hat₂ hpeer hp
  refine ⟨_, t₃, _, hrun₁.append (hrun₂.append hrun₃), hid₃, ?_, hpeer₃, ?_, ?_, ?_⟩
  · exact ⟨h.written_store, rfl, rfl, rfl, rfl⟩
  · intro x hx hx'
    rw [hothers₃ x hx hx', hothers₂ x hx, hothers₁ x hx]
  · rw [hreq₃, hreq₂, hreq₁]
  · rw [hacks₃, hacks₂, hacks₁]

end Ready

/-! ## Starting and joining -/

theorem exists_start_run {id : Bytes} (hid : s.nodes[id]? = none) (addr : Bytes) (rf w : Int) :
    ∃ t, Runs H C s [.start id addr rf w] t ∧ t.nodes[id]? = some (Node.new H id addr rf w) ∧
      (∀ x, x ≠ id → t.nodes[x]? = s.nodes[x]?) ∧ t.requests = s.requests ∧ t.acks = s.acks := by
  have hstep : s.step H C (.start id addr rf w) = some
      { s with nodes := s.nodes.insert id (Node.new H id addr rf w) } := by
    simp only [State.step, hid]
  exact ⟨_, .single trivial hstep, Std.ExtTreeMap.getElem?_insert_self,
    fun x hx => Dict.getElem?_insert_of_ne _ _ hx, rfl, rfl⟩

theorem exists_join_run {id : Bytes} (hn : s.nodes[id]? = some n) (nodeID addr : Bytes) :
    ∃ t, Runs H C s [.join id nodeID addr] t ∧
      t.nodes[id]? = some { n with ring := n.ring.addNode H nodeID addr 256 } ∧
      (∀ x, x ≠ id → t.nodes[x]? = s.nodes[x]?) ∧ t.requests = s.requests ∧ t.acks = s.acks := by
  have hstep : s.step H C (.join id nodeID addr) = some
      { s with
        nodes := s.nodes.insert id { n with ring := n.ring.addNode H nodeID addr 256 }
        network := s.network ++ [] } := by
    simp only [State.step, onNode, hn]
  exact ⟨_, .single trivial hstep, Std.ExtTreeMap.getElem?_insert_self,
    fun x hx => Dict.getElem?_insert_of_ne _ _ hx, rfl, rfl⟩

/-- A node with ID `id`, replication factor and write concern 2, whose ring lists `ids`. -/
structure Joined (H : Hashing) (n : Node) (id : Bytes) (ids : List Bytes) : Prop where
  nodeID : n.gossip.nodeID = id
  replicaRF : n.gossip.replicaRF = 2
  writeConcern : n.writeConcern = 2
  lists : n.ring.Lists H ids

theorem joined_new (H : Hashing) (id addr : Bytes) : Joined H (Node.new H id addr 2 2) id [id] :=
  ⟨rfl, rfl, rfl, (Hashring.lists_new id).addNode id addr⟩

namespace Joined

variable {id : Bytes} {ids : List Bytes}

theorem join (h : Joined H n id ids) (nodeID addr : Bytes) :
    Joined H { n with ring := n.ring.addNode H nodeID addr 256 } id (nodeID :: ids) :=
  ⟨h.nodeID, h.replicaRF, h.writeConcern, h.lists.addNode nodeID addr⟩

theorem setStore (h : Joined H n id ids) (store : Store) :
    Joined H { n with store := store } id ids :=
  ⟨h.nodeID, h.replicaRF, h.writeConcern, h.lists⟩

theorem wrote (h : Joined H n id ids) {n' : Node} {store : Store} (hw : Wrote n n' store) :
    Joined H n' id ids :=
  ⟨hw.nodeID.trans h.nodeID, hw.replicaRF.trans h.replicaRF, hw.writeConcern.trans h.writeConcern,
    hw.ring ▸ h.lists⟩

/-- The replica set of a key, from its first two owners. -/
theorem replicasFor (h : Joined H n id ids) {key first second : Bytes}
    (h₁ : (n.ring.owners H key).head?.map RingEntry.nodeID = some first)
    (h₂ : ((n.ring.removeNode first).owners H key).head?.map RingEntry.nodeID = some second) :
    (n.ring.replicasFor H key n.gossip.replicaRF).map Replica.nodeID = [first, second] := by
  rw [h.replicaRF]
  exact Hashring.replicasFor_two h.lists.sorted h₁ h₂

/-- Two nodes that agree on the first two owners of a key, and are these owners, are ready for a
`SET` of it. -/
theorem ready {id peer key value requestID : Bytes} {ids' : List Bytes} {m : Node}
    (h : Joined H n id ids) (h' : Joined H m peer ids') (hn : s.nodes[id]? = some n)
    (hm : s.nodes[peer]? = some m) (hne : id ≠ peer)
    (h₁ : (n.ring.owners H key).head?.map RingEntry.nodeID = some id)
    (h₂ : ((n.ring.removeNode id).owners H key).head?.map RingEntry.nodeID = some peer)
    (h₁' : (m.ring.owners H key).head?.map RingEntry.nodeID = some id)
    (h₂' : ((m.ring.removeNode id).owners H key).head?.map RingEntry.nodeID = some peer)
    (hclock : n.store.clock.toInt + 1 ≤ Int64.maxValue.toInt)
    (hfresh : requestID ∉ s.requests.map Request.id)
    (hvalid : ∀ b ∈ [id, peer, key, value, requestID], validUtf8 b = true) :
    Ready H s id peer key value requestID n m where
  node := hn
  peerNode := hm
  ne := hne
  nodeID := h.nodeID
  peerID := h'.nodeID
  owner := redirect_eq_none_iff.2 (.inr (Hashring.getNode_of_head? h.lists.sorted h₁))
  remote := by
    have hrep := h.replicasFor h₁ h₂
    have hfilter : (n.remoteNodes H key).map Replica.nodeID =
        ((n.ring.replicasFor H key n.gossip.replicaRF).map Replica.nodeID).filter
          fun x => decide (x ≠ n.gossip.nodeID) := by
      rw [List.filter_map]
      rfl
    rw [hfilter, hrep, h.nodeID]
    simp [Ne.symm hne]
  quorum := by
    rw [h.writeConcern]
    rfl
  replica := by
    rw [Handler.isReplica_iff, h'.replicasFor h₁' h₂', h'.nodeID]
    simp
  clock := hclock
  fresh := hfresh
  valid := hvalid

end Joined

/-- The nodes of the state are `a` and `b`, each on the ring of the other. -/
structure JoinedPair (H : Hashing) (s : State) (a b : Bytes) (na nb : Node) : Prop where
  node : s.nodes[a]? = some na
  peerNode : s.nodes[b]? = some nb
  joined : Joined H na a [b, a]
  peerJoined : Joined H nb b [a, b]
  others : ∀ x, x ≠ a → x ≠ b → s.nodes[x]? = none

/-- Two joined nodes after an acknowledged `SET` at the first of them. -/
theorem JoinedPair.exists_set_run {a b key value requestID : Bytes} {m : Node}
    (h : JoinedPair H s a b n m) (hready : Ready H s a b key value requestID n m) :
    ∃ as t n', Runs H C s (.set a key value :: as) t ∧
      JoinedPair H t a b n'
        { m with store := (m.store.setWithVersion key (Ready.entry n a value)).1 } ∧
      Wrote n n' (n.store.setFrom key value a).1 ∧
      t.requests = s.requests ++ [⟨requestID, a, key, Ready.entry n a value⟩] ∧
      t.acks = s.acks ++ [⟨a, key, Ready.entry n a value, 2, 2, n.ring⟩] := by
  obtain ⟨as, t, n', hrun, hn, hwrote, hm, hothers, hreq, hacks⟩ := hready.exists_set_run (C := C)
  rw [h.joined.replicaRF] at hacks
  refine ⟨as, t, n', hrun, ⟨hn, hm, h.joined.wrote hwrote, h.peerJoined.setStore _, ?_⟩,
    hwrote, hreq, hacks⟩
  intro x hx hx'
  rw [hothers x hx hx', h.others x hx hx']

/-- Two nodes start and join each other. -/
theorem exists_pair (H : Hashing) (C : Pb.Codec) {a b : Bytes} (hab : a ≠ b) (addrA addrB : Bytes) :
    ∃ as t na nb, Runs H C empty as t ∧ JoinedPair H t a b na nb ∧ na.store = Store.new ∧
      nb.store = Store.new ∧ t.requests = [] ∧ t.acks = [] := by
  have ha₀ : empty.nodes[a]? = none := by simp [empty]
  obtain ⟨t₁, hrun₁, ha₁, hothers₁, hreq₁, hacks₁⟩ :=
    exists_start_run (H := H) (C := C) ha₀ addrA 2 2
  have hb₁ : t₁.nodes[b]? = none := (hothers₁ b hab.symm).trans (by simp [empty])
  obtain ⟨t₂, hrun₂, hb₂, hothers₂, hreq₂, hacks₂⟩ :=
    exists_start_run (H := H) (C := C) hb₁ addrB 2 2
  have ha₂ := (hothers₂ a hab).trans ha₁
  obtain ⟨t₃, hrun₃, ha₃, hothers₃, hreq₃, hacks₃⟩ := exists_join_run (C := C) ha₂ b addrB
  have hb₃ := (hothers₃ b hab.symm).trans hb₂
  obtain ⟨t₄, hrun₄, hb₄, hothers₄, hreq₄, hacks₄⟩ := exists_join_run (C := C) hb₃ a addrA
  have hpair : JoinedPair H t₄ a b _ _ :=
    { node := (hothers₄ a hab).trans ha₃
      peerNode := hb₄
      joined := (joined_new H a addrA).join b addrB
      peerJoined := (joined_new H b addrB).join a addrA
      others := by
        intro x hxa hxb
        rw [hothers₄ x hxb, hothers₃ x hxa, hothers₂ x hxb, hothers₁ x hxa]
        simp [empty] }
  refine ⟨_, t₄, _, _, hrun₁.append (hrun₂.append (hrun₃.append hrun₄)), hpair, rfl, rfl, ?_, ?_⟩
  · rw [hreq₄, hreq₃, hreq₂, hreq₁]
    rfl
  · rw [hacks₄, hacks₃, hacks₂, hacks₁]
    rfl

end State

end Hapartition
