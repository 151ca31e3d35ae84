import Hapartition.Cluster.Model
import Hapartition.Store.Delete

/-!
# Where entries come from

An entry gets into a store in three ways only: its node allocates it, a packet brings it to a
replica of its key, or a call merges again what its command holds. An entry gets into a packet from
a store or from a command. This module says so for every kind of step, exactly and whatever the
clocks do. `Present` collects the places in which an entry can be; `present_of_step` is the
conclusion: a step brings in no entry but those that it allocates (`issued`).
-/

set_option autoImplicit false

namespace Hapartition

open Lib
open Std (ExtTreeMap)

/-! ## Entries in packets and commands -/

/-- The entries that a message carries. -/
def Pb.GossipMessage.carried : Pb.GossipMessage → List (Bytes × Hapartition.Entry)
  | .entryBatch entries => Pb.pairs entries
  | .replicateReq req => Pb.pairs req.entries
  | .replicateResp _ => []
  | .empty => []

/-- The entries that the bytes of a packet carry. -/
def carried (C : Pb.Codec) (buf : Bytes) : List (Bytes × Entry) :=
  match C.unmarshal buf with
  | some m => m.carried
  | none => []

theorem carried_of_marshal {C : Pb.Codec} {m : Pb.GossipMessage} {buf : Bytes}
    (h : C.marshal m = some buf) : carried C buf = m.carried := by
  simp only [carried, C.unmarshal_marshal m buf h]

/-- A snapshot carries what it lists. -/
theorem carried_of_serializeStore {C : Pb.Codec} {snap : List (Bytes × Entry)}
    {m : Pb.GossipMessage} {buf : Bytes} (hm : Handler.serializeStore snap = some m)
    (hbuf : C.marshal m = some buf) : carried C buf = snap := by
  rw [carried_of_marshal hbuf]
  unfold Handler.serializeStore at hm
  split at hm
  · cases hm
  · obtain rfl := Option.some.inj hm
    exact Pb.pairs_map_of snap

/-- The entries in the request of a call. -/
def Phase.carried (C : Pb.Codec) : Phase → List (Bytes × Entry)
  | .sending o => Hapartition.carried C o.buf
  | .collecting o => Hapartition.carried C o.buf
  | _ => []

/-- The entries that a command has still to replicate. -/
def Command.pending (c : Command) : List (Bytes × Entry) := (c.key, c.entry) :: c.rest

/-- Those entries, and what the call of the command is sending. -/
def Command.entries (C : Pb.Codec) (c : Command) : List (Bytes × Entry) :=
  c.pending ++ c.phase.carried C

variable {H : Hashing} {C : Pb.Codec} {s t : State} {id : Bytes} {n n' : Node}
  {ps : List Packet} {a : Action} {p : Bytes × Entry}

/-! ## Configuration -/

/-- Steps that leave the nodes and their rings as they are. -/
def Action.Fixed : Action → Prop
  | .start _ _ _ _ => False
  | .join _ _ _ => False
  | .leave _ _ => False
  | _ => True

/-- The node has the same ring, ID and replication factor. -/
structure Node.SameSite (n n' : Node) : Prop where
  ring : n'.ring = n.ring
  nodeID : n'.gossip.nodeID = n.gossip.nodeID
  replicaRF : n'.gossip.replicaRF = n.gossip.replicaRF

theorem Node.SameSite.refl (n : Node) : n.SameSite n := ⟨rfl, rfl, rfl⟩

theorem Node.SameSite.trans {n₁ n₂ n₃ : Node} (h : n₁.SameSite n₂) (h' : n₂.SameSite n₃) :
    n₁.SameSite n₃ :=
  ⟨h'.ring.trans h.ring, h'.nodeID.trans h.nodeID, h'.replicaRF.trans h.replicaRF⟩

/-- The replica check of a node depends on its site only. -/
theorem Node.SameSite.isReplica_eq (h : n.SameSite n') (key : Bytes) :
    n'.gossip.isReplica H n'.ring key = n.gossip.isReplica H n.ring key := by
  rw [Handler.isReplica, Handler.isReplica, h.ring, h.nodeID, h.replicaRF]

theorem Node.sameSite_handleMessage (buf : Bytes) : n.SameSite (n.handleMessage H C buf).1 := by
  unfold Node.handleMessage
  split
  · exact ⟨rfl, rfl, rfl⟩
  · exact ⟨rfl, rfl, rfl⟩
  next resp _ =>
    -- an acknowledgement changes the channels at most
    unfold Handler.handleReplicateResponse
    dsimp only
    split <;> exact ⟨rfl, rfl, rfl⟩
  · exact .refl n

theorem Node.sameSite_exchange (snap : List (Bytes × Entry)) :
    n.SameSite (n.exchange H C snap).1 := by
  rw [Node.exchange]
  rcases Handler.exchangeState_cases C n.gossip n.gossip.members snap with
    hnone | ⟨m, peer, pos, -, -, hsome⟩
  · rw [hnone]
    exact .refl n
  · rw [hsome]
    exact ⟨rfl, rfl, rfl⟩

theorem NodeMove.sameSite (hmove : NodeMove H C s id n a n' ps) (hfixed : a.Fixed) :
    n.SameSite n' := by
  cases hmove with
  | join | leave => exact hfixed.elim
  | members | push => exact ⟨rfl, rfl, rfl⟩
  | exchange snap hsnap => exact Node.sameSite_exchange snap
  | deliver p hp hdst =>
      unfold Node.receive
      cases p.kind with
      | message => exact Node.sameSite_handleMessage p.buf
      | state => exact ⟨rfl, rfl, rfl⟩

theorem CallMove.sameSite {c : Command} {used : List Bytes} {x : Effect}
    (hmove : CallMove H C n c used x) : n.SameSite x.node := by
  cases hmove <;> exact ⟨rfl, rfl, rfl⟩

/-! ## Moves of a node -/

/-- What a batch changes in the store is what it carries, for keys that the node is a replica of. -/
theorem Node.stored_handleReplication {buf k : Bytes} {e : Entry} {entries : List Pb.Entry}
    (hm : C.unmarshal buf = some (.entryBatch entries))
    (h : (n.gossip.handleReplication H n.ring n.store entries).tree[k]? = some e) :
    n.store.tree[k]? = some e ∨ (k, e) ∈ carried C buf ∧ n.gossip.isReplica H n.ring k = true := by
  rw [carried, hm]
  exact (Handler.getElem?_handleReplication_eq_some h).imp_right Handler.mem_accepted.1

/-- What a message changes in the store is what it carries, for keys that the node is a replica
of. -/
theorem Node.stored_handleMessage {buf k : Bytes} {e : Entry}
    (h : (n.handleMessage H C buf).1.store.tree[k]? = some e) :
    n.store.tree[k]? = some e ∨ (k, e) ∈ carried C buf ∧ n.gossip.isReplica H n.ring k = true := by
  unfold Node.handleMessage at h
  split at h
  next entries hm => exact stored_handleReplication hm h
  next req hm =>
    rw [carried, hm]
    exact (Handler.getElem?_applyRequest_eq_some h).imp_right Handler.mem_accepted.1
  next => exact .inl h
  next => exact .inl h

theorem Node.stored_receive {q : Packet} {k : Bytes} {e : Entry}
    (h : (n.receive H C q).1.store.tree[k]? = some e) :
    n.store.tree[k]? = some e ∨
      (k, e) ∈ carried C q.buf ∧ n.gossip.isReplica H n.ring k = true := by
  unfold Node.receive at h
  split at h
  next => exact stored_handleMessage h
  next =>
    simp only [Handler.handleMergeRemoteState] at h
    split at h
    next entries hm => exact stored_handleReplication hm h
    next => exact .inl h

/-- The only packets that answer a packet are acknowledgements. -/
theorem Node.carried_receive {q q' : Packet} (h : q' ∈ (n.receive H C q).2) :
    carried C q'.buf = [] := by
  unfold Node.receive Node.handleMessage at h
  split at h
  · split at h
    · simp at h
    · obtain ⟨buf, hbuf, rfl⟩ := List.mem_map.1 h
      rw [carried_of_marshal (Option.mem_toList.1 hbuf)]
      rfl
    · simp at h
    · simp at h
  · simp at h

theorem Node.carried_exchange {snap : List (Bytes × Entry)} {q : Packet}
    (h : q ∈ (n.exchange H C snap).2) : carried C q.buf = snap := by
  obtain ⟨m, hm, rfl⟩ := List.mem_map.1 h
  obtain ⟨snapshot, hsnap, hbuf⟩ := Handler.exchangeState_eq_some (Option.mem_toList.1 hm)
  exact carried_of_serializeStore hsnap hbuf

theorem Node.carried_push {peer : Bytes} {snap : List (Bytes × Entry)} {q : Packet}
    (h : q ∈ (n.push C peer snap).2) : carried C q.buf = snap := by
  obtain ⟨buf, hbuf, rfl⟩ := List.mem_map.1 h
  obtain ⟨m, hm, hmarshal⟩ := Handler.handleLocalState_eq_some (Option.mem_toList.1 hbuf)
  exact carried_of_serializeStore hm hmarshal

/-- What a node stores after a move outside commands was there, or came in a packet for a key that
the node is a replica of. -/
theorem NodeMove.stored (hmove : NodeMove H C s id n a n' ps) {k : Bytes} {e : Entry}
    (h : n'.store.tree[k]? = some e) :
    n.store.tree[k]? = some e ∨
      (∃ q ∈ s.network, (k, e) ∈ carried C q.buf) ∧ n.gossip.isReplica H n.ring k = true := by
  cases hmove with
  | members | join | leave | exchange | push => exact .inl h
  | deliver q hq hdst =>
      apply (Node.stored_receive h).imp_right
      rintro ⟨hcarried, hrep⟩
      exact ⟨⟨q, hq, hcarried⟩, hrep⟩

/-- The packets that a node sends outside commands carry stored entries. -/
theorem NodeMove.carried (hmove : NodeMove H C s id n a n' ps) {q : Packet} (hq : q ∈ ps)
    (hp : p ∈ carried C q.buf) : n.store.tree[p.1]? = some p.2 := by
  -- a snapshot lists the store
  have hstored : ∀ snap : List (Bytes × Entry), snap.Perm n.store.snapshot.toList → p ∈ snap →
      n.store.tree[p.1]? = some p.2 := by
    intro snap hsnap hmem
    exact ExtTreeMap.mem_toList_iff_getElem?_eq_some.1 (hsnap.mem_iff.1 hmem)
  cases hmove with
  | members | join | leave => cases hq
  | deliver r hr hdst =>
      rw [Node.carried_receive hq] at hp
      cases hp
  | exchange snap hsnap =>
      rw [Node.carried_exchange hq] at hp
      exact hstored snap hsnap hp
  | push peer snap hsnap =>
      rw [Node.carried_push hq] at hp
      exact hstored snap hsnap hp

/-! ## Moves of a call -/

variable {c : Command} {used : List Bytes} {x : Effect}

/-- The only write of a call is the merge of its own entry. -/
theorem CallMove.stored (hmove : CallMove H C n c used x) {k : Bytes} {e : Entry}
    (h : x.node.store.tree[k]? = some e) :
    n.store.tree[k]? = some e ∨ k = c.key ∧ e = c.entry := by
  cases hmove with
  | alone | wrote => exact Store.getElem?_setWithVersion_eq_some h
  | failed | opened | sent | closed | waiting | received | finished => exact .inl h

theorem CallMove.command_node (hmove : CallMove H C n c used x) : x.command.node = c.node := by
  have hnext : c.next.node = c.node := by
    unfold Command.next
    split <;> rfl
  cases hmove with
  | alone | finished => exact hnext
  | wrote | failed | opened | sent | closed | waiting | received => rfl

/-- A command goes on to its next tombstone, or keeps what it has. -/
theorem Command.pending_next (hp : p ∈ c.next.pending) : p ∈ c.pending := by
  unfold Command.next at hp
  split at hp
  · exact hp
  next q rest hrest =>
    refine List.mem_cons_of_mem _ ?_
    rw [hrest]
    exact hp

theorem CallMove.pending (hmove : CallMove H C n c used x) (hp : p ∈ x.command.pending) :
    p ∈ c.pending := by
  cases hmove with
  | alone | finished => exact Command.pending_next hp
  | wrote | failed | opened | sent | closed | waiting | received => exact hp

/-- The request of a call carries the entry of the call, from its start to its end. -/
theorem CallMove.phase_carried (hmove : CallMove H C n c used x)
    (hp : p ∈ x.command.phase.carried C) : p ∈ c.entries C := by
  have hnext : c.next.phase.carried C = [] := by
    unfold Command.next
    split <;> rfl
  cases hmove with
  | alone | finished =>
      rw [hnext] at hp
      cases hp
  | wrote | failed | closed => cases hp
  | opened hphase requestID buf hfresh hbuf =>
      have hreq : p ∈ Hapartition.carried C buf := hp
      rw [carried_of_marshal hbuf] at hreq
      obtain rfl := List.mem_singleton.1 hreq
      exact List.mem_append_left _ List.mem_cons_self
  | sent o hphase r todo htodo ok =>
      have hbuf : (o.sentTo r todo ok).buf = o.buf := by
        unfold OpenCall.sentTo
        split <;> rfl
      refine List.mem_append_right _ ?_
      simpa only [Phase.carried, hphase, hbuf] using hp
  | waiting o hphase =>
      refine List.mem_append_right _ ?_
      rw [hphase]
      exact hp
  | received o hphase cap res buf hch =>
      have hbuf : (o.count res).buf = o.buf := by
        unfold OpenCall.count
        split <;> rfl
      refine List.mem_append_right _ ?_
      simpa only [Phase.carried, hphase, hbuf] using hp

/-- A move of a call gives its command no new entries. -/
theorem CallMove.entries (hmove : CallMove H C n c used x) (hp : p ∈ x.command.entries C) :
    p ∈ c.entries C := by
  rcases List.mem_append.1 hp with hpending | hcarried
  · exact List.mem_append_left _ (hmove.pending hpending)
  · exact hmove.phase_carried hcarried

/-- The packets of a call carry what its command has. -/
theorem CallMove.carried (hmove : CallMove H C n c used x) {q : Packet} (hq : q ∈ x.packets)
    (hp : p ∈ carried C q.buf) : p ∈ c.entries C := by
  cases hmove with
  | alone | wrote | failed | opened | closed | waiting | received | finished => cases hq
  | sent o hphase r todo htodo ok =>
      obtain rfl := List.mem_singleton.1 hq
      refine List.mem_append_right _ ?_
      rw [hphase]
      exact hp

/-! ## Steps of the cluster -/

namespace State

/-- The places in which an entry can be. -/
inductive Present (C : Pb.Codec) (s : State) (p : Bytes × Entry) : Prop where
  | stored (id : Bytes) (n : Node) (hn : s.nodes[id]? = some n)
      (h : n.store.tree[p.1]? = some p.2)
  | inFlight (q : Packet) (hq : q ∈ s.network) (h : p ∈ carried C q.buf)
  | command (c : Command) (hc : c ∈ s.commands) (h : p ∈ c.entries C)

/-- The entries that a step allocates, in the order in which it allocates them. -/
def issued (s : State) : Action → List (Bytes × Entry)
  | .set id key value =>
      match s.nodes[id]? with
      | some n => [(key, (n.store.setFrom key value n.gossip.nodeID).2)]
      | none => []
  -- a key that is given twice is deleted at its first occurrence
  | .del id keys _ =>
      match s.nodes[id]? with
      | some n => Store.listed (n.store.del n.gossip.nodeID keys).2.2 keys.eraseDups
      | none => []
  | _ => []

theorem issued_del {keys : List Bytes} {order : List (Bytes × Entry)}
    (hn : s.nodes[id]? = some n) :
    s.issued (.del id keys order) =
      Store.listed (n.store.del n.gossip.nodeID keys).2.2 keys.eraseDups := by
  simp only [issued, hn]

theorem issued_set {key value : Bytes} (hn : s.nodes[id]? = some n) :
    s.issued (.set id key value) = [(key, (n.store.setFrom key value n.gossip.nodeID).2)] := by
  simp only [issued, hn]

/-- The entries of a `DEL` are its tombstones. -/
theorem mem_issued_del {keys : List Bytes} {order : List (Bytes × Entry)}
    (hn : s.nodes[id]? = some n) :
    p ∈ s.issued (.del id keys order) ↔
      (n.store.del n.gossip.nodeID keys).2.2[p.1]? = some p.2 := by
  simp only [issued_del hn, Store.listed, List.mem_filterMap, List.mem_eraseDups,
    Option.map_eq_some_iff]
  constructor
  · rintro ⟨k, hk, e, he, rfl⟩
    exact he
  · intro he
    exact ⟨p.1, Store.mem_of_tombstones_del he, p.2, he, rfl⟩

/-- An entry after one node has changed, its packets are sent and one command is in a new state. -/
theorem Present.of_change {t : State} {P : Prop} (hp : Present C t p)
    (hnodes : t.nodes = s.nodes.insert id n')
    (hnode : n'.store.tree[p.1]? = some p.2 → Present C s p ∨ P)
    (hpacket : ∀ q ∈ t.network, p ∈ carried C q.buf → q ∈ s.network ∨ Present C s p)
    (hcommand : ∀ c ∈ t.commands, p ∈ c.entries C → c ∈ s.commands ∨ Present C s p ∨ P) :
    Present C s p ∨ P := by
  cases hp with
  | stored id' m hm h =>
      rw [hnodes] at hm
      rcases Dict.getElem?_insert_eq_some hm with ⟨-, rfl⟩ | hold
      · exact hnode h
      · exact .inl (.stored id' m hold h)
  | inFlight q hq h =>
      rcases hpacket q hq h with hold | hs
      · exact .inl (.inFlight q hold h)
      · exact .inl hs
  | command c hc h =>
      rcases hcommand c hc h with hold | hs
      · exact .inl (.command c hold h)
      · exact hs

/-- The entries after a node has accepted a write. -/
theorem Present.of_issue {store : Store} {q : Bytes × Entry} {rest : List (Bytes × Entry)}
    {P : Prop} (hn : s.nodes[id]? = some n) (hp : Present C (s.issue id n store q rest) p)
    (hstore : store.tree[p.1]? = some p.2 → n.store.tree[p.1]? = some p.2 ∨ P)
    (hcommand : p ∈ q :: rest → P) : Present C s p ∨ P := by
  refine hp.of_change rfl ?_ (fun q hq _ => .inl hq) ?_
  · intro h
    exact (hstore h).imp_left (.stored id n hn)
  · intro c hc hmem
    rcases List.mem_append.1 hc with hold | hnew
    · exact .inl hold
    · obtain rfl := List.mem_singleton.1 hnew
      refine .inr (.inr (hcommand ?_))
      simpa [Command.entries, Command.pending, Phase.carried] using hmem

/-- A step brings in no entry but those that it allocates. -/
theorem present_of_step (hstep : s.step H C a = some t) (hp : Present C t p) :
    Present C s p ∨ p ∈ s.issued a := by
  cases move_of_step hstep with
  | start id addr rf w hid =>
      refine hp.of_change rfl ?_ (fun q hq _ => .inl hq) (fun c hc _ => .inl hc)
      intro h
      simp [Node.new, Store.new] at h
  | node id n n' ps hn hmove =>
      refine hp.of_change rfl ?_ ?_ (fun c hc _ => .inl hc)
      · intro h
        rcases hmove.stored h with hold | ⟨⟨q, hq, hcarried⟩, -⟩
        · exact .inl (.stored id n hn hold)
        · exact .inl (.inFlight q hq hcarried)
      · intro q hq hcarried
        rcases List.mem_append.1 hq with hold | hnew
        · exact .inl hold
        · exact .inr (.stored id n hn (hmove.carried hnew hcarried))
  | set id key value n hn howner =>
      rw [issued_set hn]
      refine hp.of_issue hn ?_ (fun h => h)
      intro h
      apply (Store.getElem?_setFrom_eq_some h).imp_right
      rintro ⟨hkey, hentry⟩
      exact List.mem_singleton.2 (Prod.ext hkey hentry)
  | del id keys q rest n hn hperm =>
      rw [mem_issued_del hn]
      refine hp.of_issue hn Store.getElem?_del_eq_some ?_
      intro hmem
      exact ExtTreeMap.mem_toList_iff_getElem?_eq_some.1 (hperm.mem_iff.1 hmem)
  | call i b c n x hc hn hmove =>
      have hcmem : c ∈ s.commands := List.mem_of_getElem? hc
      refine hp.of_change rfl ?_ ?_ ?_
      · intro h
        rcases hmove.stored h with hold | ⟨hkey, hentry⟩
        · exact .inl (.stored c.node n hn hold)
        · refine .inl (.command c hcmem (List.mem_append_left _ ?_))
          exact List.mem_cons.2 (.inl (Prod.ext hkey hentry))
      · intro q hq hcarried
        rcases List.mem_append.1 hq with hold | hnew
        · exact .inl hold
        · exact .inr (.command c hcmem (hmove.carried hnew hcarried))
      · intro d hd hmem
        rcases List.mem_or_eq_of_mem_set hd with hold | rfl
        · exact .inl hold
        · exact .inr (.inl (.command c hcmem (hmove.entries hmem)))

end State

end Hapartition
