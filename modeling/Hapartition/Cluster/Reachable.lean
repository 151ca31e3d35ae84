import Hapartition.Cluster.Delivery

/-!
# Reachable states

The moves of a call keep its books (`OpenOk`): the nodes it has counted are distinct, are replicas
that it sent its request to, and hold its entry, because request IDs are unique and acknowledgements
are true. With the moves of the nodes this gives the step lemma and, by induction over the run, that
every reachable state satisfies the invariant (`inv_run`) and that nothing is ever lost on the way
(`grows_run`).
-/

set_option autoImplicit false

namespace Hapartition

open Lib

namespace State

/-! ## Calls -/

variable {H : Hashing} {C : Pb.Codec} {s : State} {id : Bytes} {n : Node} {c : Command}

/-- What a move of a call has to respect. -/
structure CallLawful (H : Hashing) (C : Pb.Codec) (s : State) (c : Command) (n : Node)
    (e : Effect) : Prop where
  grows : ∃ es, n.Grows es e.node ∧ ∀ p ∈ es, s.HeldBy c.node p.1 p.2
  acked : ∀ (requestID : Bytes) (ch : AckChan) (res : AckResult),
    e.node.gossip.pendingReqs[requestID]? = some ch → res ∈ ch.buf → res.err = none →
      s.Acked requestID res.nodeID
  packets : ∀ p ∈ e.packets, s.BufOk C p.buf
  requests : ∀ r ∈ e.requests, s.HeldBy r.node r.key r.entry
  ids : ((s.requests ++ e.requests).map Request.id).Nodup
  command : ∀ t, Grows s t → (∀ r ∈ e.requests, r ∈ t.requests) → t.CommandOk H C e.command
  acks : ∀ r ∈ e.acks, s.AckOk H r

/-- A command outside a call has only its entries to answer for. -/
theorem CommandOk.of_phase (hc : s.CommandOk H C c) {ph : Phase} {t : State} (hg : Grows s t)
    (hph : ∀ o, ph ≠ .sending o ∧ ph ≠ .collecting o) :
    t.CommandOk H C { c with phase := ph } :=
  ⟨fun p hp => hg.heldBy (hc.held p hp), hc.origin,
    fun o ho => ho.elim (fun h => absurd h (hph o).1) fun h => absurd h (hph o).2⟩

theorem CommandOk.next (hc : s.CommandOk H C c) {t : State} (hg : Grows s t) :
    t.CommandOk H C c.next := by
  unfold Command.next
  split
  · exact hc.of_phase hg fun o => ⟨by simp, by simp⟩
  next p rest hrest =>
    have hsub : ∀ q ∈ p :: rest, q ∈ (c.key, c.entry) :: c.rest := by
      rw [hrest]
      intro q hq
      exact List.mem_cons_of_mem _ hq
    exact ⟨fun q hq => hg.heldBy (hc.held q (hsub q hq)), fun q hq => hc.origin q (hsub q hq),
      fun o ho => by simp at ho⟩

/-- The command goes on with its call. -/
theorem CommandOk.of_open (hc : s.CommandOk H C c) {t : State} (hg : Grows s t) {ph : Phase}
    {o : OpenCall} (hph : ∀ o', ph = .sending o' ∨ ph = .collecting o' → o' = o)
    (ho : t.OpenOk H C c o) : t.CommandOk H C { c with phase := ph } := by
  refine ⟨fun p hp => hg.heldBy (hc.held p hp), hc.origin, ?_⟩
  intro o' ho'
  obtain rfl := hph o' ho'
  exact ⟨ho.request, ho.buf, ho.sorted, ho.acks, ho.nodup, ho.acked, ho.expected, ho.todo⟩

/-- Sending to the next replica keeps the books of the call. -/
theorem OpenOk.sentTo {o : OpenCall} (ho : s.OpenOk H C c o) {r : Replica} {todo : List Replica}
    (htodo : o.todo = r :: todo) (ok : Bool) : s.OpenOk H C c (o.sentTo r todo ok) := by
  have hr : s.Peer H c o.ring r.nodeID := ho.todo r (htodo ▸ List.mem_cons_self)
  have hrest : ∀ r' ∈ todo, s.Peer H c o.ring r'.nodeID := fun r' hr' =>
    ho.todo r' (htodo ▸ List.mem_cons_of_mem _ hr')
  cases ok with
  | false =>
      exact ⟨ho.request, ho.buf, ho.sorted, ho.acks, ho.nodup, ho.acked, ho.expected, hrest⟩
  | true =>
      refine ⟨ho.request, ho.buf, ho.sorted, ho.acks, ho.nodup, ?_, ?_, hrest⟩
      · intro id hid
        obtain ⟨hmem, hheld⟩ := ho.acked id hid
        exact ⟨List.mem_insert_of_mem hmem, hheld⟩
      · intro id hid
        rcases List.mem_insert_iff.1 hid with rfl | hmem
        · exact hr
        · exact ho.expected id hmem

/-- Counting a true result keeps the books of the call. -/
theorem OpenOk.count {o : OpenCall} (ho : s.OpenOk H C c o) {res : AckResult}
    (hres : res.err = none → s.HeldBy res.nodeID c.key c.entry) :
    s.OpenOk H C c (o.count res) := by
  unfold OpenCall.count
  split
  next h =>
    simp only [Bool.and_eq_true, Bool.not_eq_eq_eq_not, Bool.not_true, ← Bool.not_eq_true,
      List.contains_iff_mem, Option.isNone_iff_eq_none] at h
    obtain ⟨⟨hexp, herr⟩, hnew⟩ := h
    refine ⟨ho.request, ho.buf, ho.sorted, ?_, List.nodup_cons.2 ⟨hnew, ho.nodup⟩, ?_, ho.expected,
      ho.todo⟩
    · simp only [List.length_cons, ho.acks]
    · intro id hid
      rcases List.mem_cons.1 hid with rfl | hmem
      · exact ⟨hexp, hres herr⟩
      · exact ho.acked id hmem
  next => exact ho

/-- A result without error, taken from the channel of an open call, names a node that holds the
entry of the call. -/
theorem Inv.heldBy_of_acked (hI : s.Inv H C) {o : OpenCall} (ho : s.OpenOk H C c o) {id : Bytes}
    (hack : s.Acked o.requestID id) : s.HeldBy id c.key c.entry := by
  obtain ⟨r, hr, hid, hheld⟩ := hack
  -- request IDs are unique, so the acknowledged request is the one of the call
  have heq : r = ⟨o.requestID, c.node, c.key, c.entry⟩ :=
    List.inj_on_of_nodup_map hI.ids hr ho.request hid
  rw [heq] at hheld
  exact hheld

/-- A call may return nil once it has counted `w` nodes. -/
theorem ackOk_of_openOk (hc : s.CommandOk H C c) (hn : s.nodes[c.node]? = some n) {o : OpenCall}
    (ho : s.OpenOk H C c o) (hw : c.w ≤ o.acks) : s.AckOk H (c.ack n o.ring) := by
  refine ⟨hc.held _ List.mem_cons_self, hc.origin _ List.mem_cons_self, ho.sorted,
    o.acked, ho.nodup, ?_, fun id hid => ?_⟩
  · have := ho.acks
    show c.w ≤ _
    omega
  · obtain ⟨hexp, hheld⟩ := ho.acked id hid
    obtain ⟨hne, hmem⟩ := ho.expected id hexp
    rw [replicaRF_eq hn] at hmem
    exact ⟨hne, hmem, hheld⟩

/-! ## The moves of a call, one by one -/

theorem grows_writeLocal (hok : s.NodeOk id n) :
    n.Grows [(c.key, c.entry)] (n.writeLocal c) :=
  .of_absorbsAll (.single (p := (c.key, c.entry))
    (Store.absorbs_setWithVersion hok.clockOk c.key c.entry))

theorem sameData_setChan (n : Node) (requestID : Bytes) (ch : AckChan) :
    n.SameData (n.setChan requestID ch) :=
  ⟨rfl, rfl, rfl, rfl, fun hs => hs⟩

theorem sameData_closeRequest (n : Node) (requestID : Bytes) :
    n.SameData (n.closeRequest requestID) :=
  ⟨rfl, rfl, rfl, rfl, fun hs => hs⟩

/-- Channels after one of them was written. -/
theorem NodeOk.acked_setChan (hok : s.NodeOk id n) {requestID : Bytes} {ch : AckChan}
    (hch : ∀ res ∈ ch.buf, res.err = none → s.Acked requestID res.nodeID)
    (requestID' : Bytes) (ch' : AckChan) (res : AckResult)
    (h : (n.setChan requestID ch).gossip.pendingReqs[requestID']? = some ch') (hres : res ∈ ch'.buf)
    (herr : res.err = none) : s.Acked requestID' res.nodeID := by
  rcases Dict.getElem?_insert_eq_some h with ⟨rfl, rfl⟩ | hold
  · exact hch res hres herr
  · exact hok.acked requestID' ch' res hold hres herr

/-- Channels after one of them was removed. -/
theorem NodeOk.acked_closeRequest (hok : s.NodeOk id n) (requestID requestID' : Bytes)
    (ch : AckChan) (res : AckResult)
    (h : (n.closeRequest requestID).gossip.pendingReqs[requestID']? = some ch) (hres : res ∈ ch.buf)
    (herr : res.err = none) : s.Acked requestID' res.nodeID :=
  hok.acked requestID' ch res (Dict.getElem?_erase_eq_some h) hres herr

/-- A move that sends nothing and makes no request. -/
theorem CallLawful.of_quiet (hI : s.Inv H C) {n' : Node} {c' : Command} {acks : List Ack}
    (hgrows : ∃ es, n.Grows es n' ∧ ∀ p ∈ es, s.HeldBy c.node p.1 p.2)
    (hacked : ∀ (requestID : Bytes) (ch : AckChan) (res : AckResult),
      n'.gossip.pendingReqs[requestID]? = some ch → res ∈ ch.buf → res.err = none →
        s.Acked requestID res.nodeID)
    (hcommand : ∀ t, Grows s t → t.CommandOk H C c') (hacks : ∀ r ∈ acks, s.AckOk H r) :
    s.CallLawful H C c n ⟨n', c', [], [], acks⟩ where
  grows := hgrows
  acked := hacked
  packets := by simp
  requests := by simp
  ids := by simpa using hI.ids
  command t hg _ := hcommand t hg
  acks := hacks

/-- The remote replicas that a call asks are peers. -/
theorem peer_of_mem_remoteNodes (hok : s.NodeOk c.node n) (hn : s.nodes[c.node]? = some n)
    {r : Replica} (hr : r ∈ n.remoteNodes H c.key) : s.Peer H c n.ring r.nodeID := by
  obtain ⟨hmem, hne⟩ := List.mem_filter.1 hr
  refine ⟨hok.nodeID ▸ of_decide_eq_true hne, ?_⟩
  rw [replicaRF_eq hn]
  exact List.mem_map_of_mem hmem

/-- The books of a call that has just registered its request. -/
theorem openOk_opened {t : State} (hg : Grows s t) (hok : s.NodeOk c.node n)
    (hn : s.nodes[c.node]? = some n) {requestID buf : Bytes}
    (hbuf : C.marshal (c.request n requestID) = some buf)
    (hreq : ⟨requestID, c.node, c.key, c.entry⟩ ∈ t.requests) :
    t.OpenOk H C c ⟨requestID, n.ring, buf, n.remoteNodes H c.key, 0, [], 1, []⟩ where
  request := hreq
  buf := ⟨_, hbuf, _, hreq, rfl, rfl⟩
  sorted := hok.sorted
  acks := rfl
  nodup := List.nodup_nil
  acked := by simp
  expected := by simp
  todo r hr := by
    obtain ⟨hne, hmem⟩ := peer_of_mem_remoteNodes (c := c) hok hn hr
    exact ⟨hne, by rwa [hg.replicaRF hn]⟩

/-- Every move of a call is lawful. -/
theorem callLawful_of_callMove (hI : s.Inv H C) (hc : s.CommandOk H C c)
    (hn : s.nodes[c.node]? = some n) {e : Effect}
    (hmove : CallMove H C n c (s.requests.map Request.id) e) : s.CallLawful H C c n e := by
  have hok := hI.node c.node n hn
  have hheld : s.HeldBy c.node c.key c.entry := hc.held _ List.mem_cons_self
  have hlocal : ∃ es, n.Grows es (n.writeLocal c) ∧ ∀ p ∈ es, s.HeldBy c.node p.1 p.2 :=
    ⟨_, grows_writeLocal hok, by simpa using hheld⟩
  have hstill : ∃ es, n.Grows es n ∧ ∀ p ∈ es, s.HeldBy c.node p.1 p.2 :=
    ⟨[], Node.SameData.grows ⟨rfl, rfl, rfl, rfl, fun hs => hs⟩, by simp⟩
  have hclose : ∀ requestID, ∃ es, n.Grows es (n.closeRequest requestID) ∧
      ∀ p ∈ es, s.HeldBy c.node p.1 p.2 := fun requestID =>
    ⟨[], (sameData_closeRequest n requestID).grows, by simp⟩
  have hfail : ∀ (err : QuorumError) t, Grows s t → t.CommandOk H C (c.fail err) :=
    fun err t hg => hc.of_phase hg fun o => ⟨by simp, by simp⟩
  -- one case per move; only `received` has to know what an acknowledgement stands for
  cases hmove with
  | alone hp hw =>
      refine .of_quiet hI hlocal hok.acked (fun t hg => hc.next hg) ?_
      -- the local write alone is the quorum
      intro r hr
      obtain rfl := List.mem_singleton.1 hr
      exact ⟨hheld, hc.origin _ List.mem_cons_self, hok.sorted, [], List.nodup_nil, hw, by simp⟩
  | wrote hp =>
      refine .of_quiet hI hlocal hok.acked (fun t hg => ?_) (by simp)
      exact hc.of_phase hg fun o => ⟨by simp, by simp⟩
  | failed hp err => exact .of_quiet hI hstill hok.acked (hfail err) (by simp)
  | opened hp requestID buf hfresh hbuf =>
      refine ⟨⟨[], (sameData_setChan n _ _).grows, by simp⟩, hok.acked_setChan (by simp), by simp,
        ?_, ?_, ?_, by simp⟩
      · intro r hr
        obtain rfl := List.mem_singleton.1 hr
        exact hheld
      · rw [List.map_append, List.nodup_append_comm]
        exact List.nodup_cons.2 ⟨hfresh, hI.ids⟩
      · intro t hg hreq
        exact hc.of_open hg (by simp [eq_comm])
          (openOk_opened hg hok hn hbuf (hreq _ (List.mem_singleton_self _)))
  | sent o hp r todo htodo ok =>
      have ho := hc.phase o (.inl hp)
      refine ⟨hstill, hok.acked, ?_, by simp, by simpa using hI.ids, ?_, by simp⟩
      · intro p hp
        obtain rfl := List.mem_singleton.1 hp
        exact ho.buf
      · intro t hg _
        exact hc.of_open hg (by simp [eq_comm]) ((hg.openOk hn ho).sentTo htodo ok)
  | closed o hp err =>
      exact .of_quiet hI (hclose _) (hok.acked_closeRequest _) (hfail err) (by simp)
  | waiting o hp =>
      refine .of_quiet hI hstill hok.acked (fun t hg => ?_) (by simp)
      exact hc.of_open hg (by simp [eq_comm]) (hg.openOk hn (hc.phase o (.inl hp)))
  | received o hp cap res buf hch =>
      have ho := hc.phase o (.inr hp)
      have hmem : ∀ res' ∈ res :: buf, res'.err = none → s.Acked o.requestID res'.nodeID :=
        fun res' hres' => hok.acked o.requestID _ res' hch hres'
      refine .of_quiet hI ⟨[], (sameData_setChan n _ _).grows, by simp⟩
        (hok.acked_setChan fun res' hres' => hmem res' (List.mem_cons_of_mem _ hres'))
        (fun t hg => ?_) (by simp)
      have hcount : t.OpenOk H C c (o.count res) := (hg.openOk hn ho).count fun herr =>
        hg.heldBy (hI.heldBy_of_acked ho (hmem res List.mem_cons_self herr))
      exact hc.of_open hg (by simp [eq_comm]) hcount
  | finished o hp hw =>
      refine .of_quiet hI (hclose _) (hok.acked_closeRequest _) (fun t hg => hc.next hg) ?_
      intro r hr
      obtain rfl := List.mem_singleton.1 hr
      exact ackOk_of_openOk hc hn (hc.phase o (.inr hp)) hw

/-! ## Steps and runs -/

/-- A write command: the entries its node has just allocated are in its store. -/
theorem inv_issue (hI : s.Inv H C) (hn : s.nodes[id]? = some n) {store : Store}
    {es : List (Bytes × Entry)} (habs : Store.AbsorbsAll n.store es store) {p : Bytes × Entry}
    {rest : List (Bytes × Entry)} (hmem : ∀ q ∈ p :: rest, q ∈ es)
    (horigin : ∀ q ∈ p :: rest, q.2.origin = n.gossip.nodeID) :
    Grows s (s.issue id n store p rest) ∧ (s.issue id n store p rest).Inv H C := by
  have hok := hI.node id n hn
  have hgn := Node.Grows.of_absorbsAll habs
  have hg : Grows s (s.issue id n store p rest) :=
    grows_of_node hn hgn rfl (fun _ h => h) (fun _ h => h) fun _ h => h
  have hnode : (s.issue id n store p rest).nodes[id]? = some { n with store := store } :=
    Std.ExtTreeMap.getElem?_insert_self
  refine ⟨hg, hI.of_grows hg (node_of_insert rfl ?_) (fun _ h => .inl h)
    (fun _ h => .inl h) hI.ids ?_ fun _ h => .inl h⟩
  · exact (hg.nodeOk hok).of_grows hgn (hg.nodeOk hok).acked
  · intro c hc
    rcases List.mem_append.1 hc with hold | hnew
    · exact .inl hold
    · obtain rfl := List.mem_singleton.1 hnew
      refine .inr ⟨fun q hq => ⟨_, hnode, habs.covers_of_mem (hmem q hq)⟩, fun q hq => ?_,
        fun o ho => by simp at ho⟩
      exact (horigin q hq).trans hok.nodeID

/-- A node starts. -/
theorem inv_start (hI : s.Inv H C) (hid : s.nodes[id]? = none) (addr : Bytes) (rf w : Int) :
    Grows s { s with nodes := s.nodes.insert id (Node.new H id addr rf w) } ∧
      State.Inv H C { s with nodes := s.nodes.insert id (Node.new H id addr rf w) } := by
  have hg : Grows s { s with nodes := s.nodes.insert id (Node.new H id addr rf w) } := by
    refine ⟨?_, fun _ h => h, fun _ h => h, fun _ h => h⟩
    intro id' m hm
    have hne : id' ≠ id := by
      rintro rfl
      rw [hid] at hm
      cases hm
    exact ⟨m, (Dict.getElem?_insert_of_ne _ _ hne).trans hm, rfl, rfl, le_rfl, fun _ _ h => h⟩
  refine ⟨hg, hI.of_grows hg (node_of_insert rfl ?_) (fun _ h => .inl h) (fun _ h => .inl h)
    hI.ids (fun _ h => .inl h) fun _ h => .inl h⟩
  exact ⟨rfl, Store.clockOk_new, H.sorter.sorted _ _, by simp [Node.new]⟩

/-- A node moves outside commands. -/
theorem inv_node (hI : s.Inv H C) (hn : s.nodes[id]? = some n) {n' : Node} {ps : List Packet}
    (hl : s.Lawful H C id n n' ps) :
    Grows s { s with nodes := s.nodes.insert id n', network := s.network ++ ps } ∧
      State.Inv H C { s with nodes := s.nodes.insert id n', network := s.network ++ ps } := by
  obtain ⟨⟨es, hgn, -⟩, hacked, hpackets⟩ := hl
  have hg : Grows s { s with nodes := s.nodes.insert id n', network := s.network ++ ps } :=
    grows_of_node hn hgn rfl (fun _ h => List.mem_append_left _ h) (fun _ h => h) fun _ h => h
  have hnode : (s.nodes.insert id n')[id]? = some n' := Std.ExtTreeMap.getElem?_insert_self
  refine ⟨hg, hI.of_grows hg (node_of_insert rfl ?_) ?_ (fun _ h => .inl h) hI.ids
    (fun _ h => .inl h) fun _ h => .inl h⟩
  · exact (hI.node id n hn).of_grows hgn fun rid ch res hch hres herr =>
      hg.acked (hacked rid ch res hch hres herr)
  · intro p hp
    rcases List.mem_append.1 hp with hold | hnew
    · exact .inl hold
    · exact .inr (hpackets _ hg hnode p hnew)

/-- A call moves. -/
theorem inv_call (hI : s.Inv H C) (hn : s.nodes[c.node]? = some n) {e : Effect}
    (hl : s.CallLawful H C c n e) (i : Nat) :
    Grows s (s.withEffect i c.node e) ∧ (s.withEffect i c.node e).Inv H C := by
  obtain ⟨es, hgn, -⟩ := hl.grows
  have hg : Grows s (s.withEffect i c.node e) :=
    grows_of_node hn hgn rfl (fun _ h => List.mem_append_left _ h)
      (fun _ h => List.mem_append_left _ h) fun _ h => List.mem_append_left _ h
  refine ⟨hg, hI.of_grows hg (node_of_insert rfl ?_) ?_ ?_ hl.ids ?_ ?_⟩
  · exact (hI.node c.node n hn).of_grows hgn fun rid ch res hch hres herr =>
      hg.acked (hl.acked rid ch res hch hres herr)
  · intro p hp
    exact (List.mem_append.1 hp).imp id fun h => hg.bufOk (hl.packets p h)
  · intro r hr
    exact (List.mem_append.1 hr).imp id fun h => hg.heldBy (hl.requests r h)
  · intro c' hc'
    rcases List.mem_or_eq_of_mem_set hc' with hold | rfl
    · exact .inl hold
    · exact .inr (hl.command _ hg fun r hr => List.mem_append_right _ hr)
  · intro r hr
    exact (List.mem_append.1 hr).imp id fun h => hg.ackOk (hl.acks r h)

/-- The step lemma. -/
theorem inv_step {t : State} {a : Action} (hov : s.NoOverflow a) (hstep : s.step H C a = some t)
    (hI : s.Inv H C) : Grows s t ∧ t.Inv H C := by
  cases move_of_step hstep with
  | start id addr rf w hid => exact inv_start hI hid addr rf w
  | node id n n' ps hn hmove => exact inv_node hI hn (lawful_of_nodeMove hI hn hmove)
  | set id key value n hn howner =>
      have habs := Store.absorbs_setFrom key value n.gossip.nodeID (hov n hn)
      refine inv_issue hI hn (.single (p := (key, _)) habs) (fun q hq => hq) ?_
      intro q hq
      obtain rfl := List.mem_singleton.1 hq
      rw [Store.setFrom_snd]
  | del id keys p rest n hn hperm =>
      have hok := hI.node id n hn
      obtain ⟨es, hdel⟩ := Store.absorbsAll_del hok.clockOk n.gossip.nodeID keys (hov n hn)
      -- the entries of the command are the tombstones, each merged by the loop of `Del`
      have htomb : ∀ q ∈ p :: rest,
          (n.store.delLoop n.gossip.nodeID keys).tombstones[q.1]? = some q.2 := fun q hq =>
        Std.ExtTreeMap.mem_toList_iff_getElem?_eq_some.1 (hperm.mem_iff.1 hq)
      exact inv_issue hI hn hdel.absorbs (fun q hq => (hdel.mem_iff q.1 q.2).2 (htomb q hq))
        fun q hq => (hdel.fields q.1 q.2 (htomb q hq)).2.1
  | call i a c n e hc hn hmove =>
      have hcmd := hI.command c (List.mem_of_getElem? hc)
      exact inv_call hI hn (callLawful_of_callMove hI hcmd hn hmove) i

theorem inv_initial (h : s.Initial H) : s.Inv H C where
  node id n hn := by
    obtain ⟨ops, hops⟩ := h.ring id n hn
    refine ⟨h.nodeID id n hn, h.store id n hn ▸ Store.clockOk_new, ?_, ?_⟩
    · rw [hops]
      exact (Hashring.reflects_build H id ops).sorted
    · simp [h.pendingReqs id n hn]
  packet := by simp [h.network]
  request := by simp [h.requests]
  ids := by simp [h.requests]
  command := by simp [h.commands]
  ack := by simp [h.acks]

variable {t : State} {as : List Action}

/-- Every state of a run satisfies the invariant. -/
theorem inv_run (h : Runs H C s as t) (hs : s.Inv H C) : t.Inv H C :=
  h.invariant (fun hov hstep hI => (inv_step hov hstep hI).2) hs

/-- Nothing is lost along a run. -/
theorem grows_run (h : Runs H C s as t) (hs : s.Inv H C) : Grows s t :=
  Run.related (P := Inv H C) Grows.refl Grows.trans
    (fun hov hstep hI => (inv_step hov hstep hI).2)
    (fun hov hstep hI => (inv_step hov hstep hI).1) h hs

end State

end Hapartition
