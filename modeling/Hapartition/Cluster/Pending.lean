import Mathlib.Data.Fintype.EquivFin
import Hapartition.Cluster.Quorum

/-!
# The books of the open calls

A call of `ReplicateWithQuorum` registers a channel under its request ID, and takes it off again
when it returns, in whichever way. Over a whole run the channels of a node are exactly those of its
calls that are sending or collecting, one for each, and none of them ever holds more
acknowledgements than the replication factor, however many responses arrive (`pending_exact`):
nothing leaks.

Nor does a write hang. From every reachable state a command can be carried to its reply by its own
moves alone, and there are few of them (`command_returns`): no answer of another node is needed for
that, because the deadline ends the wait.
-/

set_option autoImplicit false

namespace Hapartition

open Lib
open Std (ExtTreeMap)

/-- The ID under which the call of a command has registered its channel. -/
def Command.openRequest (c : Command) : Option Bytes :=
  match c.phase with
  | .sending o => some o.requestID
  | .collecting o => some o.requestID
  | _ => none

/-- The sends that a call has still before it. -/
def Command.unsent (c : Command) : Nat :=
  match c.phase with
  | .sending o => o.todo.length
  | _ => 0

/-- The channels of a node are within their capacity, and that is at most the replication factor. -/
def Node.Bounded (n : Node) : Prop :=
  ∀ (requestID : Bytes) (ch : AckChan), n.gossip.pendingReqs[requestID]? = some ch →
    ch.buf.length ≤ ch.cap ∧ ch.cap ≤ n.gossip.replicaRF.toNat

namespace State

/-- The channels of the nodes against the calls that are open. -/
structure Registered (s : State) : Prop where
  present : ∀ c ∈ s.commands, ∃ n, s.nodes[c.node]? = some n
  used : ∀ c ∈ s.commands, ∀ (requestID : Bytes), c.openRequest = some requestID →
    requestID ∈ s.requests.map Request.id
  distinct : ∀ (i j : Nat) (c d : Command) (requestID : Bytes), s.commands[i]? = some c →
    s.commands[j]? = some d → c.openRequest = some requestID →
      d.openRequest = some requestID → i = j
  channel : ∀ (id : Bytes) (n : Node), s.nodes[id]? = some n → ∀ (requestID : Bytes),
    requestID ∈ n.gossip.pendingReqs ↔
      ∃ c ∈ s.commands, c.node = id ∧ c.openRequest = some requestID
  bounded : ∀ (id : Bytes) (n : Node), s.nodes[id]? = some n → n.Bounded
  unsent : ∀ c ∈ s.commands, ∀ (n : Node), s.nodes[c.node]? = some n →
    c.unsent ≤ n.gossip.replicaRF.toNat

variable {H : Hashing} {C : Pb.Codec} {s t : State} {id : Bytes} {n n' : Node} {c : Command}

/-! ## Nodes outside commands -/

/-- A change of a node that leaves its channels in place. -/
structure SameChannels (n n' : Node) : Prop where
  replicaRF : n'.gossip.replicaRF = n.gossip.replicaRF
  mem : ∀ (requestID : Bytes),
    requestID ∈ n'.gossip.pendingReqs ↔ requestID ∈ n.gossip.pendingReqs
  bounded : n.Bounded → n'.Bounded

theorem SameChannels.of_eq (hrf : n'.gossip.replicaRF = n.gossip.replicaRF)
    (hpend : n'.gossip.pendingReqs = n.gossip.pendingReqs) : SameChannels n n' := by
  refine ⟨hrf, fun requestID => by rw [hpend], fun h requestID ch hch => ?_⟩
  rw [hpend] at hch
  rw [hrf]
  exact h requestID ch hch

theorem length_trySend_le {ch : AckChan} (h : ch.buf.length ≤ ch.cap) (res : AckResult) :
    (ch.trySend res).buf.length ≤ (ch.trySend res).cap := by
  unfold AckChan.trySend
  split
  next hlt =>
    simp only [List.length_append, List.length_singleton]
    omega
  next => exact h

theorem cap_trySend (ch : AckChan) (res : AckResult) : (ch.trySend res).cap = ch.cap := by
  unfold AckChan.trySend
  split <;> rfl

/-- A response goes to a channel that is there, and leaves it within its capacity. -/
theorem sameChannels_response (n : Node) (resp : Pb.ReplicateResponse) :
    SameChannels n { n with gossip := n.gossip.handleReplicateResponse resp } := by
  cases hch : n.gossip.pendingReqs[resp.requestId]? with
  | none =>
      refine .of_eq ?_ ?_
      · simp only [Handler.handleReplicateResponse, hch]
      · simp only [Handler.handleReplicateResponse, hch]
  | some ch =>
      simp only [Handler.handleReplicateResponse, hch]
      refine ⟨rfl, fun requestID => ?_, fun h requestID ch' hch' => ?_⟩
      · have hmem : resp.requestId ∈ n.gossip.pendingReqs :=
          ExtTreeMap.mem_iff_isSome_getElem?.2 (by simp [hch])
        rw [ExtTreeMap.mem_insert]
        constructor
        · rintro (heq | hold)
          · rwa [← Std.LawfulEqCmp.eq_of_compare heq]
          · exact hold
        · exact .inr
      · rcases Dict.getElem?_insert_eq_some hch' with ⟨rfl, rfl⟩ | hold
        · obtain ⟨hbuf, hcap⟩ := h resp.requestId ch hch
          exact ⟨length_trySend_le hbuf _, (cap_trySend ch _).symm ▸ hcap⟩
        · exact h requestID ch' hold

theorem sameChannels_receive (n : Node) (p : Packet) : SameChannels n (n.receive H C p).1 := by
  unfold Node.receive
  split
  · unfold Node.handleMessage
    split
    · exact .of_eq rfl rfl
    · exact .of_eq rfl rfl
    · exact sameChannels_response n _
    · exact .of_eq rfl rfl
  · exact .of_eq rfl rfl

/-- Outside commands a node registers nothing and takes nothing off. -/
theorem sameChannels_of_nodeMove {a : Action} {ps : List Packet}
    (hmove : NodeMove H C s id n a n' ps) : SameChannels n n' := by
  cases hmove with
  | members l => exact .of_eq rfl rfl
  | join nodeID redisAddr => exact .of_eq rfl rfl
  | leave nodeID => exact .of_eq rfl rfl
  | deliver p hp hdst => exact sameChannels_receive n p
  | exchange snap hsnap =>
      obtain ⟨-, hrf, hpend⟩ :=
        exchangeState_fields (H := H) (C := C) n.gossip n.gossip.members snap
      exact .of_eq hrf hpend
  | push peer snap hsnap => exact .of_eq rfl rfl

/-! ## Calls -/

/-- What a move of a call does to the books. -/
structure Books (n : Node) (c : Command) (used : List Bytes) (e : Effect) : Prop where
  node : e.command.node = c.node
  replicaRF : e.node.gossip.replicaRF = n.gossip.replicaRF
  /-- The call stays open under its ID, or opens under an ID that nobody has used. -/
  request : ∀ (requestID : Bytes), e.command.openRequest = some requestID →
    c.openRequest = some requestID ∨
      requestID ∉ used ∧ requestID ∈ e.requests.map Request.id
  /-- The channel of the call is there while the call is open; the other channels stay. -/
  mem : (∀ (requestID : Bytes), c.openRequest = some requestID →
      requestID ∈ n.gossip.pendingReqs) → ∀ (requestID : Bytes),
    requestID ∈ e.node.gossip.pendingReqs ↔
      requestID ∈ n.gossip.pendingReqs ∧ c.openRequest ≠ some requestID ∨
        e.command.openRequest = some requestID
  bounded : n.Bounded → e.node.Bounded
  unsent : c.unsent ≤ n.gossip.replicaRF.toNat → e.command.unsent ≤ n.gossip.replicaRF.toNat

theorem openRequest_next (c : Command) : c.next.openRequest = none := by
  unfold Command.next
  split <;> rfl

theorem unsent_next (c : Command) : c.next.unsent = 0 := by
  unfold Command.next
  split <;> rfl

theorem node_next (c : Command) : c.next.node = c.node := by
  unfold Command.next
  split <;> rfl

/-- A move that leaves the channels, and the request of the call, as they are. -/
theorem Books.of_same {used : List Bytes} {e : Effect} (hnode : e.command.node = c.node)
    (hrf : e.node.gossip.replicaRF = n.gossip.replicaRF)
    (hpend : e.node.gossip.pendingReqs = n.gossip.pendingReqs)
    (hopen : e.command.openRequest = c.openRequest)
    (hunsent : c.unsent ≤ n.gossip.replicaRF.toNat → e.command.unsent ≤ n.gossip.replicaRF.toNat) :
    Books n c used e where
  node := hnode
  replicaRF := hrf
  request requestID h := .inl (hopen ▸ h)
  mem hin requestID := by
    rw [hpend, hopen]
    constructor
    · intro hmem
      by_cases heq : c.openRequest = some requestID
      · exact .inr heq
      · exact .inl ⟨hmem, heq⟩
    · rintro (⟨hmem, -⟩ | heq)
      · exact hmem
      · exact hin requestID heq
  bounded := (SameChannels.of_eq hrf hpend).bounded
  unsent := hunsent

/-- A move that ends an open call. -/
theorem Books.of_close {used : List Bytes} {requestID : Bytes} {c' : Command} {acks : List Ack}
    (hopen : c.openRequest = some requestID) (hnode : c'.node = c.node)
    (hclosed : c'.openRequest = none) (hunsent : c'.unsent = 0) :
    Books n c used ⟨n.closeRequest requestID, c', [], [], acks⟩ where
  node := hnode
  replicaRF := rfl
  request requestID' h := by
    rw [hclosed] at h
    cases h
  mem _ requestID' := by
    show requestID' ∈ n.gossip.pendingReqs.erase requestID ↔ _
    rw [ExtTreeMap.mem_erase, hopen, hclosed, ne_eq, Std.LawfulEqCmp.compare_eq_iff_eq]
    simp [and_comm]
  bounded h requestID' ch hch := h requestID' ch (Dict.getElem?_erase_eq_some hch)
  unsent _ := by rw [hunsent]; exact Nat.zero_le _

/-- Every move of a call keeps the books. -/
theorem books_of_callMove {used : List Bytes} {e : Effect} (hmove : CallMove H C n c used e) :
    Books n c used e := by
  have hidle : ∀ {c' : Command} {acks : List Ack} {n' : Node}, c.openRequest = none →
      c'.node = c.node → c'.openRequest = none → c'.unsent = 0 →
      n'.gossip = n.gossip → Books n c used ⟨n', c', [], [], acks⟩ := by
    intro c' acks n' hopen hnode hclosed hunsent hgossip
    refine .of_same hnode (by rw [hgossip]) (by rw [hgossip]) (hclosed.trans hopen.symm) fun _ => ?_
    rw [hunsent]
    exact Nat.zero_le _
  cases hmove with
  | alone hp hw =>
      exact hidle (by simp [Command.openRequest, hp]) (node_next c) (openRequest_next c)
        (unsent_next c) rfl
  | wrote hp => exact hidle (by simp [Command.openRequest, hp]) rfl rfl rfl rfl
  | failed hp err => exact hidle (by simp [Command.openRequest, hp]) rfl rfl rfl rfl
  | opened hp requestID buf hfresh hbuf =>
      have hopen : c.openRequest = none := by simp [Command.openRequest, hp]
      have hlen : (n.remoteNodes H c.key).length ≤ n.gossip.replicaRF.toNat :=
        (List.length_filter_le _ _).trans (Hashring.length_replicasFor_le H n.ring c.key _)
      refine ⟨rfl, rfl, ?_, ?_, ?_, fun _ => hlen⟩
      · intro requestID' h
        obtain rfl := Option.some.inj h
        exact .inr ⟨hfresh, List.mem_singleton_self _⟩
      · intro _ requestID'
        show requestID' ∈ n.gossip.pendingReqs.insert requestID _ ↔
          _ ∨ some requestID = some requestID'
        rw [ExtTreeMap.mem_insert, hopen, Std.LawfulEqCmp.compare_eq_iff_eq]
        simp [or_comm]
      · intro h requestID' ch hch
        rcases Dict.getElem?_insert_eq_some hch with ⟨rfl, rfl⟩ | hold
        · exact ⟨Nat.zero_le _, hlen⟩
        · exact h requestID' ch hold
  | sent o hp r todo htodo ok =>
      refine .of_same rfl rfl rfl ?_ ?_
      · simp only [Command.openRequest, hp, OpenCall.sentTo]
        split <;> rfl
      · intro h
        have hle : todo.length ≤ o.todo.length := by rw [htodo]; exact Nat.le_succ _
        simp only [Command.unsent, hp] at h
        simp only [Command.unsent, OpenCall.sentTo]
        split <;> exact hle.trans h
  | closed o hp err =>
      refine .of_close ?_ rfl rfl rfl
      rcases hp with hp | hp <;> simp only [Command.openRequest, hp]
  | waiting o hp =>
      exact .of_same rfl rfl rfl (by simp only [Command.openRequest, hp]) fun _ => Nat.zero_le _
  | received o hp cap res buf hch =>
      have hmem : o.requestID ∈ n.gossip.pendingReqs :=
        ExtTreeMap.mem_iff_isSome_getElem?.2 (by simp [hch])
      have hopen : c.openRequest = some o.requestID := by simp only [Command.openRequest, hp]
      have hcount : (o.count res).requestID = o.requestID := by
        unfold OpenCall.count
        split <;> rfl
      refine ⟨rfl, rfl, ?_, ?_, ?_, fun _ => Nat.zero_le _⟩
      · intro requestID h
        exact .inl (hopen.trans (hcount ▸ h))
      · intro _ requestID
        show requestID ∈ n.gossip.pendingReqs.insert o.requestID _ ↔
          _ ∨ some (o.count res).requestID = some requestID
        rw [ExtTreeMap.mem_insert, hopen, hcount, Std.LawfulEqCmp.compare_eq_iff_eq]
        by_cases heq : o.requestID = requestID
        · simp [heq]
        · simp [heq]
      · intro h requestID ch' hch'
        rcases Dict.getElem?_insert_eq_some hch' with ⟨rfl, rfl⟩ | hold
        · obtain ⟨hbuf, hcap⟩ := h o.requestID _ hch
          exact ⟨(Nat.le_succ buf.length).trans hbuf, hcap⟩
        · exact h requestID ch' hold
  | finished o hp hw =>
      exact .of_close (by simp only [Command.openRequest, hp]) (node_next c) (openRequest_next c)
        (unsent_next c)

/-! ## Steps and runs -/

theorem Registered.start (h : s.Registered) (hid : s.nodes[id]? = none) (addr : Bytes)
    (rf w : Int) : Registered { s with nodes := s.nodes.insert id (Node.new H id addr rf w) } := by
  have hother : ∀ c ∈ s.commands, c.node ≠ id := by
    rintro c hc rfl
    obtain ⟨n, hn⟩ := h.present c hc
    rw [hid] at hn
    cases hn
  refine ⟨?_, h.used, h.distinct, ?_, ?_, ?_⟩
  · intro c hc
    obtain ⟨n, hn⟩ := h.present c hc
    exact ⟨n, (Dict.getElem?_insert_of_ne _ _ (hother c hc)).trans hn⟩
  · intro id' n hn requestID
    rcases Dict.getElem?_insert_eq_some hn with ⟨rfl, rfl⟩ | hold
    · refine iff_of_false (by simp [Node.new]) ?_
      rintro ⟨c, hc, hnode, -⟩
      exact hother c hc hnode
    · exact h.channel id' n hold requestID
  · intro id' n hn
    rcases Dict.getElem?_insert_eq_some hn with ⟨rfl, rfl⟩ | hold
    · intro requestID ch hch
      simp [Node.new] at hch
    · exact h.bounded id' n hold
  · intro c hc n hn
    exact h.unsent c hc n (by rwa [Dict.getElem?_insert_of_ne _ _ (hother c hc)] at hn)

/-- A node that leaves its channels in place keeps the books. -/
theorem Registered.node (h : s.Registered) (hn : s.nodes[id]? = some n) (hsame : SameChannels n n')
    (network : List Packet) :
    Registered { s with nodes := s.nodes.insert id n', network := network } := by
  have hold : ∀ {id' : Bytes} {m : Node}, (s.nodes.insert id n')[id']? = some m →
      ∃ m', s.nodes[id']? = some m' ∧ SameChannels m' m := by
    intro id' m hm
    rcases Dict.getElem?_insert_eq_some hm with ⟨rfl, rfl⟩ | hm
    · exact ⟨n, hn, hsame⟩
    · exact ⟨m, hm, .of_eq rfl rfl⟩
  refine ⟨?_, h.used, h.distinct, ?_, ?_, ?_⟩
  · intro c hc
    obtain ⟨m, hm⟩ := h.present c hc
    by_cases hid : c.node = id
    · exact ⟨n', hid ▸ ExtTreeMap.getElem?_insert_self⟩
    · exact ⟨m, (Dict.getElem?_insert_of_ne _ _ hid).trans hm⟩
  · intro id' m hm requestID
    obtain ⟨m', hm', hsame'⟩ := hold hm
    exact (hsame'.mem requestID).trans (h.channel id' m' hm' requestID)
  · intro id' m hm
    obtain ⟨m', hm', hsame'⟩ := hold hm
    exact hsame'.bounded (h.bounded id' m' hm')
  · intro c hc m hm
    obtain ⟨m', hm', hsame'⟩ := hold hm
    rw [hsame'.replicaRF]
    exact h.unsent c hc m' hm'

/-- A new command has no call open yet. -/
theorem Registered.issue (h : s.Registered) (hn : s.nodes[id]? = some n) (store : Store)
    (p : Bytes × Entry) (rest : List (Bytes × Entry)) : Registered (s.issue id n store p rest) := by
  have hsame : SameChannels n { n with store := store } := .of_eq rfl rfl
  have hs := h.node hn hsame s.network
  have hlast : ∀ {i : Nat} {c : Command} {requestID : Bytes},
      (s.issue id n store p rest).commands[i]? = some c → c.openRequest = some requestID →
        s.commands[i]? = some c := by
    intro i c requestID hc hopen
    rw [State.issue, List.getElem?_append] at hc
    split at hc
    · exact hc
    · obtain rfl := List.mem_singleton.1 (List.mem_of_getElem? hc)
      cases hopen
  have hmem : ∀ {c : Command}, c ∈ (s.issue id n store p rest).commands →
      c ∈ s.commands ∨ c.node = id ∧ c.openRequest = none ∧ c.unsent = 0 := by
    intro c hc
    rcases List.mem_append.1 hc with hc | hc
    · exact .inl hc
    · obtain rfl := List.mem_singleton.1 hc
      exact .inr ⟨rfl, rfl, rfl⟩
  refine ⟨?_, ?_, ?_, ?_, hs.bounded, ?_⟩
  · intro c hc
    rcases hmem hc with hc | ⟨rfl, -⟩
    · exact hs.present c hc
    · exact ⟨_, ExtTreeMap.getElem?_insert_self⟩
  · intro c hc requestID hopen
    rcases hmem hc with hc | ⟨-, hnone, -⟩
    · exact h.used c hc requestID hopen
    · rw [hnone] at hopen
      cases hopen
  · intro i j c d requestID hc hd hcopen hdopen
    exact h.distinct i j c d requestID (hlast hc hcopen) (hlast hd hdopen) hcopen hdopen
  · intro id' m hm requestID
    rw [hs.channel id' m hm requestID]
    constructor
    · rintro ⟨c, hc, hnode⟩
      exact ⟨c, List.mem_append_left _ hc, hnode⟩
    · rintro ⟨c, hc, hnode, hopen⟩
      rcases hmem hc with hc | ⟨-, hnone, -⟩
      · exact ⟨c, hc, hnode, hopen⟩
      · rw [hnone] at hopen
        cases hopen
  · intro c hc m hm
    rcases hmem hc with hc | ⟨-, -, hzero⟩
    · exact hs.unsent c hc m hm
    · rw [hzero]
      exact Nat.zero_le _

/-- A move of a call keeps the books of all calls: request IDs are never used twice. -/
theorem Registered.call (h : s.Registered) {i : Nat} (hc : s.commands[i]? = some c)
    (hn : s.nodes[c.node]? = some n) {e : Effect}
    (hb : Books n c (s.requests.map Request.id) e) : (s.withEffect i c.node e).Registered := by
  have hi : i < s.commands.length := (List.getElem?_eq_some_iff.1 hc).1
  have hself : (s.commands.set i e.command)[i]? = some e.command := List.getElem?_set_self hi
  have hown := fun requestID hopen =>
    (h.channel c.node n hn requestID).2 ⟨c, List.mem_of_getElem? hc, rfl, hopen⟩
  -- the commands after the move: the one that moved, and the others
  have hcases : ∀ {j : Nat} {d : Command}, (s.commands.set i e.command)[j]? = some d →
      i = j ∧ d = e.command ∨ i ≠ j ∧ s.commands[j]? = some d := by
    intro j d hd
    by_cases hij : i = j
    · subst hij
      rw [hself] at hd
      exact .inl ⟨rfl, (Option.some.inj hd).symm⟩
    · rw [List.getElem?_set_ne hij] at hd
      exact .inr ⟨hij, hd⟩
  have hmem : ∀ {d : Command}, d ∈ s.commands.set i e.command → d = e.command ∨ d ∈ s.commands :=
    fun hd => (List.mem_or_eq_of_mem_set hd).symm
  have hnode : ∀ {id' : Bytes} {m : Node}, (s.nodes.insert c.node e.node)[id']? = some m →
      c.node = id' ∧ e.node = m ∨ c.node ≠ id' ∧ s.nodes[id']? = some m := by
    intro id' m hm
    rw [Dict.getElem?_insert] at hm
    split at hm
    next heq => exact .inl ⟨heq, Option.some.inj hm⟩
    next hne => exact .inr ⟨hne, hm⟩
  refine ⟨?_, ?_, ?_, ?_, ?_, ?_⟩
  · intro d hd
    show ∃ m, (s.nodes.insert c.node e.node)[d.node]? = some m
    by_cases hdn : d.node = c.node
    · exact ⟨e.node, hdn ▸ ExtTreeMap.getElem?_insert_self⟩
    · rcases hmem hd with rfl | hd
      · exact absurd hb.node hdn
      · obtain ⟨m, hm⟩ := h.present d hd
        exact ⟨m, (Dict.getElem?_insert_of_ne _ _ hdn).trans hm⟩
  · intro d hd requestID hopen
    show requestID ∈ (s.requests ++ e.requests).map Request.id
    rw [List.map_append, List.mem_append]
    rcases hmem hd with rfl | hd
    · rcases hb.request requestID hopen with hold | ⟨-, hnew⟩
      · exact .inl (h.used c (List.mem_of_getElem? hc) requestID hold)
      · exact .inr hnew
    · exact .inl (h.used d hd requestID hopen)
  · have key : ∀ {j : Nat} {d : Command} {requestID : Bytes}, i ≠ j → s.commands[j]? = some d →
        e.command.openRequest = some requestID → d.openRequest = some requestID → False := by
      intro j d requestID hij hd hopen hdopen
      rcases hb.request requestID hopen with hold | ⟨hfresh, -⟩
      · exact hij (h.distinct i j c d requestID hc hd hold hdopen)
      · exact hfresh (h.used d (List.mem_of_getElem? hd) requestID hdopen)
    intro j k d d' requestID hd hd' hopen hopen'
    rcases hcases hd with ⟨rfl, rfl⟩ | ⟨hij, hd⟩
    · rcases hcases hd' with ⟨rfl, -⟩ | ⟨hik, hd'⟩
      · rfl
      · exact (key hik hd' hopen hopen').elim
    · rcases hcases hd' with ⟨rfl, rfl⟩ | ⟨-, hd'⟩
      · exact (key hij hd hopen' hopen).elim
      · exact h.distinct j k d d' requestID hd hd' hopen hopen'
  · intro id' m hm requestID
    rcases hnode hm with ⟨rfl, rfl⟩ | ⟨hne, hm⟩
    · rw [hb.mem hown requestID]
      constructor
      · rintro (⟨hin, hother⟩ | hopen)
        · obtain ⟨d, hd, hdn, hdopen⟩ := (h.channel c.node n hn requestID).1 hin
          obtain ⟨j, hj⟩ := List.mem_iff_getElem?.1 hd
          have hij : i ≠ j := by
            rintro rfl
            obtain rfl := Option.some.inj (hc.symm.trans hj)
            exact hother hdopen
          exact ⟨d, List.mem_of_getElem? ((List.getElem?_set_ne hij).trans hj), hdn, hdopen⟩
        · exact ⟨e.command, List.mem_of_getElem? hself, hb.node, hopen⟩
      · rintro ⟨d, hd, hdn, hdopen⟩
        obtain ⟨j, hj⟩ := List.mem_iff_getElem?.1 hd
        rcases hcases hj with ⟨-, rfl⟩ | ⟨hij, hj⟩
        · exact .inr hdopen
        · refine .inl ⟨(h.channel c.node n hn requestID).2
            ⟨d, List.mem_of_getElem? hj, hdn, hdopen⟩, fun hopen => hij ?_⟩
          exact h.distinct i j c d requestID hc hj hopen hdopen
    · rw [h.channel id' m hm requestID]
      constructor
      · rintro ⟨d, hd, hdn, hdopen⟩
        obtain ⟨j, hj⟩ := List.mem_iff_getElem?.1 hd
        have hij : i ≠ j := by
          rintro rfl
          obtain rfl := Option.some.inj (hc.symm.trans hj)
          exact hne hdn
        exact ⟨d, List.mem_of_getElem? ((List.getElem?_set_ne hij).trans hj), hdn, hdopen⟩
      · rintro ⟨d, hd, hdn, hdopen⟩
        rcases hmem hd with rfl | hd
        · exact absurd (hb.node.symm.trans hdn) hne
        · exact ⟨d, hd, hdn, hdopen⟩
  · intro id' m hm
    rcases hnode hm with ⟨rfl, rfl⟩ | ⟨-, hm⟩
    · exact hb.bounded (h.bounded c.node n hn)
    · exact h.bounded id' m hm
  · intro d hd m hm
    rcases hnode hm with ⟨heq, rfl⟩ | ⟨hne, hm⟩
    · rw [hb.replicaRF]
      rcases hmem hd with rfl | hd
      · exact hb.unsent (h.unsent c (List.mem_of_getElem? hc) n hn)
      · exact h.unsent d hd n (heq ▸ hn)
    · rcases hmem hd with rfl | hd
      · exact absurd hb.node.symm hne
      · exact h.unsent d hd m hm

/-- The step lemma. -/
theorem registered_step {a : Action} (hstep : s.step H C a = some t) (h : s.Registered) :
    t.Registered := by
  cases move_of_step hstep with
  | start id addr rf w hid => exact h.start hid addr rf w
  | node id n n' ps hn hmove => exact h.node hn (sameChannels_of_nodeMove hmove) _
  | set id key value n hn howner => exact h.issue hn _ _ _
  | del id keys p rest n hn hperm => exact h.issue hn _ _ _
  | call i a c n e hc hn hmove => exact h.call hc hn (books_of_callMove hmove)

theorem registered_initial (h : s.Initial H) : s.Registered where
  present := by simp [h.commands]
  used := by simp [h.commands]
  distinct := by simp [h.commands]
  channel id n hn requestID := by simp [h.commands, h.pendingReqs id n hn]
  bounded id n hn requestID ch hch := by simp [h.pendingReqs id n hn] at hch
  unsent := by simp [h.commands]

/-- The run lemma. The clocks do not matter here, so all runs are meant. -/
theorem registered_run {ok : State → Action → Prop} {as : List Action}
    (hrun : Run (step H C) ok s as t) (h : s.Registered) : t.Registered :=
  hrun.invariant (fun _ hstep => registered_step hstep) h

/-- **No request leaks.** In every reachable state the channels of a node are those of its calls
that are sending or collecting, one for each, and each of them holds at most `ReplicaRF`
acknowledgements, whatever responses have arrived. -/
theorem pending_exact {s₀ : State} {ok : State → Action → Prop} {as : List Action}
    (h₀ : s₀.Initial H) (hrun : Run (step H C) ok s₀ as s) (hn : s.nodes[id]? = some n) :
    n.gossip.pendingReqs.keys.Perm
        ((s.commands.filter fun c => decide (c.node = id)).filterMap Command.openRequest) ∧
      ∀ (requestID : Bytes) (ch : AckChan), n.gossip.pendingReqs[requestID]? = some ch →
        ch.buf.length ≤ n.gossip.replicaRF.toNat := by
  have h := registered_run hrun (registered_initial h₀)
  constructor
  · apply (List.perm_ext_iff_of_nodup ExtTreeMap.nodup_keys ?_).2
    · intro requestID
      rw [ExtTreeMap.mem_keys, h.channel id n hn requestID, List.mem_filterMap]
      simp only [List.mem_filter, decide_eq_true_eq, and_assoc]
    · -- different places in the list of commands have different requests
      refine List.Nodup.sublist (List.filter_sublist.filterMap _) ?_
      rw [List.Nodup, List.pairwise_filterMap, List.pairwise_iff_getElem]
      rintro i j hi hj hij requestID hc requestID' hd rfl
      have heq := h.distinct i j _ _ requestID (List.getElem?_eq_getElem hi)
        (List.getElem?_eq_getElem hj) hc hd
      omega
  · intro requestID ch hch
    obtain ⟨hbuf, hcap⟩ := h.bounded id n hn requestID ch hch
    exact hbuf.trans hcap

/-- Two nodes, the first of which has sent the request of `SET foo a` and waits. -/
theorem exists_foo_waiting :
    ∃ as s i c n, Runs .xxhash Pb.protoCodec empty as s ∧ s.At i c n ∧ c.node = str "n1" ∧
      c.openRequest = some (str "r1") ∧ c.rest = [] ∧ n.gossip.replicaRF = 2 := by
  obtain ⟨as, s, n, m, hrun, hpair, hsn, hsm, hreq, -⟩ :=
    exists_pair .xxhash Pb.protoCodec (a := str "n1") (b := str "n2") (by decide) (str "h1:6379")
      (str "h2:6379")
  have hready : Ready .xxhash s (str "n1") (str "n2") (str "foo") (str "a") (str "r1") n m :=
    ready_foo hpair (by rw [hsn]; decide) (by simp [hreq]) (by decide) (by decide)
  obtain ⟨t, hrun', hat, -, -, hreq', -⟩ := hready.exists_lookup (C := Pb.protoCodec)
  obtain ⟨buf, u, -, hrun'', hat', -⟩ := hready.exists_collecting (C := Pb.protoCodec) hat hreq'
  exact ⟨_, u, _, _, _, hrun.append (hrun'.append hrun''), hat', rfl, rfl, rfl,
    hpair.joined.replicaRF⟩

theorem pending_exact_waiting :
    ∃ as s n, Runs .xxhash Pb.protoCodec empty as s ∧ s.nodes[str "n1"]? = some n ∧
      str "r1" ∈ n.gossip.pendingReqs.keys ∧ n.gossip.pendingReqs.keys.Perm
        ((s.commands.filter fun c => decide (c.node = str "n1")).filterMap
          Command.openRequest) := by
  obtain ⟨as, s, i, c, n, hrun, hat, hnode, hopen, -, -⟩ := exists_foo_waiting
  have hn : s.nodes[str "n1"]? = some n := hnode ▸ hat.node
  have hperm := (pending_exact (initial_empty _) hrun hn).1
  refine ⟨as, s, n, hrun, hn, hperm.mem_iff.2 (List.mem_filterMap.2 ⟨c, ?_, hopen⟩), hperm⟩
  exact List.mem_filter.2 ⟨List.mem_of_getElem? hat.command, by simpa using hnode⟩

/-! ## Every command can return -/

/-- The command at index `i` can be carried to its reply by at most `k` moves of its own. -/
def CanReturn (H : Hashing) (C : Pb.Codec) (s : State) (i k : Nat) : Prop :=
  ∃ as t c err, Runs H C s as t ∧ (∀ a ∈ as, ∃ m, a = .call i m) ∧ as.length ≤ k ∧
    t.commands[i]? = some c ∧ c.phase = .returned err

variable {i k : Nat}

theorem CanReturn.mono (h : CanReturn H C s i k) {k' : Nat} (hk : k ≤ k') :
    CanReturn H C s i k' := by
  obtain ⟨as, t, c, err, hrun, hown, hlen, hc, hph⟩ := h
  exact ⟨as, t, c, err, hrun, hown, hlen.trans hk, hc, hph⟩

theorem canReturn_of_returned {err : Option QuorumError} (h : s.At i c n)
    (hph : c.phase = .returned err) : CanReturn H C s i 0 :=
  ⟨[], s, c, err, .nil s, by simp, Nat.le_refl 0, h.command, hph⟩

/-- One move, and the rest. -/
theorem canReturn_of_step (h : s.At i c n) {a : CallAction} {e : Effect}
    (he : callStep H C n c (s.requests.map Request.id) c.phase a = some e)
    (hnode : e.command.node = c.node)
    (hrest : ∀ t, t.At i e.command e.node → CanReturn H C t i k) : CanReturn H C s i (k + 1) := by
  obtain ⟨t, hrun, hat, -⟩ := h.exists_run he hnode
  obtain ⟨as, u, c', err, hrun', hown, hlen, hc', hph⟩ := hrest t hat
  refine ⟨_, u, c', err, hrun.append hrun', ?_, ?_, hc', hph⟩
  · intro b hb
    rcases List.mem_append.1 hb with hb | hb
    · exact ⟨a, List.mem_singleton.1 hb⟩
    · exact hown b hb
  · simp only [List.length_append, List.length_singleton]
    omega

theorem next_withPhase (c : Command) (ph : Phase) :
    ({ c with phase := ph } : Command).next = c.next := by
  obtain ⟨node, w, key, entry, rest, phase⟩ := c
  cases rest <;> rfl

section Call

variable {rf : Int} (hnext : ∀ (t : State) (m : Node), m.gossip.replicaRF = rf → t.At i c.next m →
  CanReturn H C t i k)

include hnext

/-- A call that waits for acknowledgements has enough of them, or its deadline passes. -/
theorem canReturn_collecting {o : OpenCall} (hrf : n.gossip.replicaRF = rf)
    (h : s.At i { c with phase := .collecting o } n) : CanReturn H C s i (k + 1) := by
  by_cases hw : (o.acks : Int) < c.w
  · have hstep : callStep H C n { c with phase := .collecting o } (s.requests.map Request.id)
        (.collecting o) .timeout = some ⟨n.closeRequest o.requestID,
          c.fail (.timeout (Int64.ofNat o.acks) (Int64.ofInt c.w)), [], [], []⟩ := if_pos hw
    refine canReturn_of_step h hstep rfl fun t ht => ?_
    exact (canReturn_of_returned ht rfl).mono (Nat.zero_le k)
  · have hstep : callStep H C n { c with phase := .collecting o } (s.requests.map Request.id)
        (.collecting o) .finish = some ⟨n.closeRequest o.requestID,
          ({ c with phase := .collecting o } : Command).next, [], [],
          [({ c with phase := .collecting o } : Command).ack n o.ring]⟩ := if_neg hw
    refine canReturn_of_step h hstep (node_next _) fun t ht => ?_
    rw [next_withPhase] at ht
    exact hnext t (n.closeRequest o.requestID) hrf ht

/-- A call sends to the replicas that are left, and then gives up or waits. -/
theorem canReturn_sending {o : OpenCall} (hrf : n.gossip.replicaRF = rf)
    (h : s.At i { c with phase := .sending o } n) :
    CanReturn H C s i (k + 2 + o.todo.length) := by
  -- on the replicas that are left
  induction htodo : o.todo generalizing s o with
  | nil =>
      by_cases hw : (o.sent + 1 : Int) < c.w
      · have hstep : callStep H C n { c with phase := .sending o } (s.requests.map Request.id)
            (.sending o) .sendsDone = some ⟨n.closeRequest o.requestID,
              c.fail (.unreachable (Int64.ofNat (o.sent + 1)) (Int64.ofInt c.w)), [], [], []⟩ := by
          rw [callStep, if_neg (not_not.2 htodo), if_pos hw]
          rfl
        refine canReturn_of_step h hstep rfl fun t ht => ?_
        exact (canReturn_of_returned ht rfl).mono (Nat.zero_le _)
      · have hstep : callStep H C n { c with phase := .sending o } (s.requests.map Request.id)
            (.sending o) .sendsDone = some ⟨n, { c with phase := .collecting o }, [], [], []⟩ := by
          rw [callStep, if_neg (not_not.2 htodo), if_neg hw]
        exact canReturn_of_step h hstep rfl fun t ht => canReturn_collecting hnext hrf ht
  | cons r todo ih =>
      have hstep : callStep H C n { c with phase := .sending o } (s.requests.map Request.id)
          (.sending o) (.send false) =
            some ⟨n, { c with phase := .sending (o.sentTo r todo false) },
            [⟨r.nodeID, .message, o.buf⟩], [], []⟩ := by
        simp only [callStep, htodo]
      refine canReturn_of_step h hstep rfl fun t ht => ?_
      exact ih ht rfl

/-- A call reads the ring and opens its request, or fails before that. -/
theorem canReturn_lookup (hrf : n.gossip.replicaRF = rf)
    (h : s.At i { c with phase := .lookup } n) : CanReturn H C s i (k + 3 + rf.toNat) := by
  -- the ID that the call draws has not been used
  obtain ⟨requestID, hfresh⟩ :=
    Infinite.exists_notMem_finset (s.requests.map Request.id).toFinset
  have hfresh' : (s.requests.map Request.id).contains requestID = false := by
    simpa using hfresh
  have hfail : ∀ err, callStep H C n { c with phase := .lookup } (s.requests.map Request.id) .lookup
      (.lookup requestID) = some ⟨n, c.fail err, [], [], []⟩ →
        CanReturn H C s i (k + 3 + rf.toNat) := by
    intro err hstep
    refine (canReturn_of_step (k := 0) h hstep rfl fun t ht => ?_).mono (by omega)
    exact canReturn_of_returned ht rfl
  by_cases hw : ((n.remoteNodes H c.key).length + 1 : Int) < c.w
  · exact hfail _ (if_pos hw)
  · cases hbuf : C.marshal (({ c with phase := .lookup } : Command).request n requestID) with
    | none =>
        refine hfail (.marshal .invalidUtf8) ?_
        simp only [callStep, if_neg hw, hfresh', hbuf]
        rfl
    | some buf =>
        have hlen : (n.remoteNodes H c.key).length ≤ rf.toNat := by
          rw [← hrf]
          exact (List.length_filter_le _ _).trans (Hashring.length_replicasFor_le H n.ring c.key _)
        have hstep : callStep H C n { c with phase := .lookup } (s.requests.map Request.id) .lookup
            (.lookup requestID) = some ⟨n.setChan requestID ⟨(n.remoteNodes H c.key).length, []⟩,
              { c with
                phase := .sending ⟨requestID, n.ring, buf, n.remoteNodes H c.key, 0, [], 1, []⟩ },
              [], [⟨requestID, c.node, c.key, c.entry⟩], []⟩ := by
          simp only [callStep, if_neg hw, hfresh', hbuf]
          rfl
        refine (canReturn_of_step h hstep rfl fun t ht =>
          canReturn_sending hnext (n := n.setChan requestID _) hrf ht).mono ?_
        show k + 2 + (n.remoteNodes H c.key).length + 1 ≤ _
        omega

/-- A whole call: the local write, the lookup, the sends, and the end of the wait. -/
theorem canReturn_start (hrf : n.gossip.replicaRF = rf) (h : s.At i { c with phase := .start } n) :
    CanReturn H C s i (k + 4 + rf.toNat) := by
  by_cases hw : c.w ≤ 1
  · have hstep : callStep H C n { c with phase := .start } (s.requests.map Request.id) .start
        .localWrite = some ⟨n.writeLocal { c with phase := .start },
          ({ c with phase := .start } : Command).next, [], [],
          [({ c with phase := .start } : Command).ack n n.ring]⟩ := if_pos hw
    refine (canReturn_of_step (k := k) h hstep (node_next _) fun t ht => ?_).mono (by omega)
    rw [next_withPhase] at ht
    exact hnext t (n.writeLocal { c with phase := .start }) hrf ht
  · have hstep : callStep H C n { c with phase := .start } (s.requests.map Request.id) .start
        .localWrite = some ⟨n.writeLocal { c with phase := .start },
          { c with phase := .lookup }, [], [], []⟩ := if_neg hw
    refine (canReturn_of_step h hstep rfl fun t ht =>
      canReturn_lookup hnext (n := n.writeLocal { c with phase := .start }) hrf ht).mono ?_
    omega

end Call

/-- After a call has returned nil, the calls for the tombstones that are left. -/
theorem canReturn_next {rf : Int} (c : Command) (hrf : n.gossip.replicaRF = rf)
    (h : s.At i c.next n) : CanReturn H C s i (c.rest.length * (rf.toNat + 4)) := by
  obtain ⟨node, w, key, entry, rest, phase⟩ := c
  induction rest generalizing s n key entry phase with
  | nil => exact (canReturn_of_returned h rfl).mono (Nat.zero_le _)
  | cons p rest ih =>
      have hcall := canReturn_start (C := C) (H := H)
        (c := ⟨node, w, p.1, p.2, rest, .start⟩) (k := rest.length * (rf.toNat + 4))
        (fun t m hm ht => ih hm p.1 p.2 .start ht) hrf h
      refine hcall.mono (le_of_eq ?_)
      simp only [List.length_cons, Nat.add_mul]
      omega

/-- **No write hangs.** From every reachable state every command can be carried to its reply by
moves of its own call alone, whatever the other nodes and the network do or fail to do, in at most
`ReplicaRF + 4` moves for each key that is left. -/
theorem command_returns {s₀ : State} {as : List Action} (h₀ : s₀.Initial H)
    (hrun : Runs H C s₀ as s) (hc : s.commands[i]? = some c) :
    ∃ n, s.nodes[c.node]? = some n ∧
      CanReturn H C s i ((c.rest.length + 1) * (n.gossip.replicaRF.toNat + 4)) := by
  have hreg := registered_run hrun (registered_initial h₀)
  obtain ⟨n, hn⟩ := hreg.present c (List.mem_of_getElem? hc)
  have hunsent := hreg.unsent c (List.mem_of_getElem? hc) n hn
  refine ⟨n, hn, ?_⟩
  have hnext : ∀ (t : State) (m : Node), m.gossip.replicaRF = n.gossip.replicaRF →
      t.At i c.next m → CanReturn H C t i (c.rest.length * (n.gossip.replicaRF.toNat + 4)) :=
    fun t m hm ht => canReturn_next c hm ht
  have hbound : ∀ {k : Nat}, k ≤ c.rest.length * (n.gossip.replicaRF.toNat + 4) + 4 +
      n.gossip.replicaRF.toNat → k ≤ (c.rest.length + 1) * (n.gossip.replicaRF.toNat + 4) := by
    intro k hk
    rw [Nat.add_mul]
    omega
  have hat : ∀ {ph : Phase}, c.phase = ph → s.At i { c with phase := ph } n := by
    rintro _ rfl
    exact ⟨hc, hn⟩
  cases hph : c.phase with
  | start => exact (canReturn_start hnext rfl (hat hph)).mono (hbound (by omega))
  | lookup => exact (canReturn_lookup hnext rfl (hat hph)).mono (hbound (by omega))
  | sending o =>
      simp only [Command.unsent, hph] at hunsent
      exact (canReturn_sending hnext rfl (hat hph)).mono (hbound (by omega))
  | collecting o => exact (canReturn_collecting hnext rfl (hat hph)).mono (hbound (by omega))
  | returned err => exact (canReturn_of_returned (hat hph) rfl).mono (Nat.zero_le _)

theorem command_returns_waiting :
    ∃ as s i c, Runs .xxhash Pb.protoCodec empty as s ∧ s.commands[i]? = some c ∧
      c.openRequest = some (str "r1") ∧ CanReturn .xxhash Pb.protoCodec s i 6 := by
  obtain ⟨as, s, i, c, n, hrun, hat, -, hopen, hrest, hrf⟩ := exists_foo_waiting
  obtain ⟨n', hn', hreturn⟩ := command_returns (initial_empty _) hrun hat.command
  obtain rfl := Option.some.inj (hat.node.symm.trans hn')
  rw [hrest, hrf] at hreturn
  exact ⟨as, s, i, c, hrun, hat.command, hopen, hreturn⟩

end State

end Hapartition
