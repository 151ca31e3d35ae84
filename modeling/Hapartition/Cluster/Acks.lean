import Mathlib.Data.Finset.Card
import Hapartition.Cluster.Call
import Hapartition.Lib.Mailbox
import Hapartition.Lib.Transition

/-!
# Counting acknowledgements

A call of `ReplicateWithQuorum` from the registration of its channel to its return, with the
responses that reach the node meanwhile. The channel has room for one response of each remote
replica and is not read before the last send; `handleReplicateResponse` drops what it has no room
for. So which acknowledgements count depends on how responses, sends and receives interleave.

- `CallRuns` are the interleavings: moves of the call, responses for its request, and whatever else
  happens at the node. `drained` restricts them to those in which the deadline finds the channel
  empty.
- `Counted` says what `acks` and `acked` are after the responses that the call has received.
- `Account` is what is known of the call after given outcomes of its sends and given responses. One
  event preserves it (`Account.step`), and so does a run (`Account.run`).
-/

set_option autoImplicit false

namespace Hapartition

open Lib

/-! ## Responses and the channel -/

/-- What `handleReplicateResponse` sends to the channel. -/
def AckResult.of (resp : Pb.ReplicateResponse) : AckResult :=
  ⟨resp.nodeId, if resp.success then none
    else some (str "replica " ++ resp.nodeId ++ str " rejected write")⟩

theorem AckResult.nodeID_of (resp : Pb.ReplicateResponse) :
    (AckResult.of resp).nodeID = resp.nodeId := rfl

theorem AckResult.isNone_err_of (resp : Pb.ReplicateResponse) :
    (AckResult.of resp).err.isNone = resp.success := by
  unfold AckResult.of
  cases resp.success with
  | true => rfl
  | false => rfl

theorem AckChan.trySend_of (cap : Nat) (buf : List Pb.ReplicateResponse)
    (resp : Pb.ReplicateResponse) :
    AckChan.trySend ⟨cap, buf.map .of⟩ (.of resp) = ⟨cap, (offer cap buf resp).map .of⟩ := by
  rw [AckChan.trySend, offer, List.length_map]
  split
  · rw [List.map_append, List.map_singleton]
  · rfl

theorem Handler.chan_handleReplicateResponse {h : Handler} {resp : Pb.ReplicateResponse} {cap : Nat}
    {buf : List Pb.ReplicateResponse}
    (hch : h.pendingReqs[resp.requestId]? = some ⟨cap, buf.map .of⟩) :
    (h.handleReplicateResponse resp).pendingReqs[resp.requestId]? =
      some ⟨cap, (offer cap buf resp).map .of⟩ := by
  rw [handleReplicateResponse, hch, ← AckChan.trySend_of]
  exact Std.ExtTreeMap.getElem?_insert_self

/-- The nodes to which the request was sent successfully. -/
def reached (remote : List Replica) (oks : List Bool) : List Bytes :=
  ((remote.zip oks).filter Prod.snd).map fun p => p.1.nodeID

theorem reached_concat {remote : List Replica} {oks : List Bool} (h : remote.length = oks.length)
    (r : Replica) (ok : Bool) :
    reached (remote ++ [r]) (oks ++ [ok]) =
      reached remote oks ++ if ok then [r.nodeID] else [] := by
  rw [reached, List.zip_append h, List.filter_append, List.map_append]
  cases ok with
  | true => rfl
  | false => rfl

/-- The nodes among `nodes` with a successful response. -/
def acknowledging (nodes : List Bytes) (resps : List Pb.ReplicateResponse) : Finset Bytes :=
  ((resps.filter fun r => r.success && nodes.contains r.nodeId).map (·.nodeId)).toFinset

theorem mem_acknowledging {nodes : List Bytes} {resps : List Pb.ReplicateResponse} {x : Bytes} :
    x ∈ acknowledging nodes resps ↔ x ∈ nodes ∧ ∃ r ∈ resps, r.success = true ∧ r.nodeId = x := by
  simp only [acknowledging, List.mem_toFinset, List.mem_map, List.mem_filter, Bool.and_eq_true,
    List.contains_iff_mem]
  constructor
  · rintro ⟨r, ⟨hr, hsuccess, hnode⟩, rfl⟩
    exact ⟨hnode, r, hr, hsuccess, rfl⟩
  · rintro ⟨hx, r, hr, hsuccess, rfl⟩
    exact ⟨r, ⟨hr, hsuccess, hx⟩, rfl⟩

theorem acknowledging_mono (nodes : List Bytes) {resps resps' : List Pb.ReplicateResponse}
    (h : resps ⊆ resps') :
    (acknowledging nodes resps).card ≤ (acknowledging nodes resps').card := by
  apply Finset.card_le_card
  intro x hx
  obtain ⟨hnode, r, hr, hsuccess⟩ := mem_acknowledging.1 hx
  exact mem_acknowledging.2 ⟨hnode, r, h hr, hsuccess⟩

/-! ## The count

The collecting loop counts every node once, so `acks` is one more than the number of nodes that have
acknowledged by the responses received so far. -/

/-- The variables `acks` and `acked` after the responses in `received`. -/
structure Counted (nodes : List Bytes) (received : List Pb.ReplicateResponse) (o : OpenCall) :
    Prop where
  expected : ∀ x, x ∈ o.expected ↔ x ∈ nodes
  nodup : o.acked.Nodup
  mem : ∀ x, x ∈ o.acked ↔ x ∈ acknowledging nodes received
  acks : o.acks = o.acked.length + 1

namespace Counted

variable {nodes : List Bytes} {received : List Pb.ReplicateResponse} {o : OpenCall}

theorem acks_eq (h : Counted nodes received o) :
    o.acks = (acknowledging nodes received).card + 1 := by
  have hset : o.acked.toFinset = acknowledging nodes received := by
    ext x
    rw [List.mem_toFinset, h.mem]
  rw [h.acks, ← hset, List.toFinset_card_of_nodup h.nodup]

/-- A send adds its receiver to the nodes that may acknowledge. -/
theorem sentTo (h : Counted nodes [] o) (r : Replica) (todo : List Replica) (ok : Bool) :
    Counted (nodes ++ if ok then [r.nodeID] else []) [] (o.sentTo r todo ok) := by
  have hnone : o.acked = [] := by
    apply List.eq_nil_iff_forall_not_mem.2
    intro x hx
    obtain ⟨-, resp, hresp, -⟩ := mem_acknowledging.1 ((h.mem x).1 hx)
    cases hresp
  cases ok with
  | true =>
      refine ⟨?_, h.nodup, ?_, h.acks⟩
      · intro x
        simp [OpenCall.sentTo, List.mem_insert_iff, h.expected, or_comm]
      · intro x
        simp [OpenCall.sentTo, hnone, acknowledging]
  | false =>
      rw [if_neg Bool.false_ne_true, List.append_nil]
      exact ⟨h.expected, h.nodup, h.mem, h.acks⟩

theorem count (h : Counted nodes received o) (resp : Pb.ReplicateResponse) :
    Counted nodes (received ++ [resp]) (o.count (.of resp)) := by
  -- a node acknowledges by the new response or has done so before
  have hmem : ∀ x, x ∈ acknowledging nodes (received ++ [resp]) ↔
      x ∈ o.acked ∨ (x ∈ nodes ∧ resp.success = true ∧ resp.nodeId = x) := by
    intro x
    simp only [h.mem, mem_acknowledging, List.mem_append, List.mem_singleton, or_and_right,
      exists_or, exists_eq_left, and_or_left]
  have hcond : (o.expected.contains resp.nodeId && resp.success &&
      !o.acked.contains resp.nodeId) = true ↔
        (resp.nodeId ∈ nodes ∧ resp.success = true) ∧ resp.nodeId ∉ o.acked := by
    simp [h.expected]
  rw [OpenCall.count, AckResult.isNone_err_of, AckResult.nodeID_of]
  split
  next hcounts =>
    obtain ⟨⟨hnode, hsuccess⟩, hnew⟩ := hcond.1 hcounts
    refine ⟨h.expected, List.nodup_cons.2 ⟨hnew, h.nodup⟩, ?_, ?_⟩
    · intro x
      rw [hmem, List.mem_cons]
      constructor
      · rintro (rfl | hold)
        · exact .inr ⟨hnode, hsuccess, rfl⟩
        · exact .inl hold
      · rintro (hold | ⟨-, -, rfl⟩)
        · exact .inr hold
        · exact .inl rfl
    · rw [List.length_cons, h.acks]
  next hskips =>
    refine ⟨h.expected, h.nodup, ?_, h.acks⟩
    intro x
    rw [hmem]
    constructor
    · exact .inl
    · rintro (hold | ⟨hnode, hsuccess, rfl⟩)
      · exact hold
      · -- it would have been counted, had it not been before
        by_contra hnew
        exact hskips (hcond.2 ⟨⟨hnode, hsuccess⟩, hnew⟩)

end Counted

theorem OpenCall.todo_sentTo (o : OpenCall) (r : Replica) (todo : List Replica) (ok : Bool) :
    (o.sentTo r todo ok).todo = todo := by
  cases ok with
  | true => rfl
  | false => rfl

theorem OpenCall.requestID_sentTo (o : OpenCall) (r : Replica) (todo : List Replica) (ok : Bool) :
    (o.sentTo r todo ok).requestID = o.requestID := by
  cases ok with
  | true => rfl
  | false => rfl

theorem OpenCall.sent_sentTo {o : OpenCall} {oks : List Bool} (h : o.sent = oks.count true)
    {r : Replica} {todo : List Replica} {ok : Bool} :
    (o.sentTo r todo ok).sent = (oks ++ [ok]).count true := by
  rw [List.count_append, ← h]
  cases ok with
  | true => rfl
  | false => rfl

theorem OpenCall.requestID_count {o : OpenCall} {res : AckResult} :
    (o.count res).requestID = o.requestID := by
  unfold OpenCall.count
  split
  · rfl
  · rfl

/-! ## Interleavings -/

/-- What happens at the node while the call runs: a move of the call, a response for its request, or
anything else. -/
inductive CallEvent where
  | move (a : CallAction)
  | deliver (resp : Pb.ReplicateResponse)
  | other (n : Node)

/-- A node with a call of it, and what the call has returned. -/
structure CallState where
  node : Node
  command : Command
  result : Option (Option QuorumError)

/-- What a call returns with a move, if it returns. -/
def Effect.result (e : Effect) : Option (Option QuorumError) :=
  match e.acks, e.command.phase with
  | _ :: _, _ => some none
  | [], .returned err => some err
  | [], _ => none

/-- One event. -/
def CallState.step (H : Hashing) (C : Pb.Codec) (s : CallState) : CallEvent → Option CallState
  | .move a =>
      match s.result with
      | some _ => none
      | none =>
          (callStep H C s.node s.command [] s.command.phase a).map fun e =>
            ⟨e.node, e.command, e.result⟩
  | .deliver resp =>
      some { s with node.gossip := s.node.gossip.handleReplicateResponse resp }
  | .other n => some { s with node := n }

/-- The events that concern the request: its responses come before the deadline, and no other event
touches its channel. If the channel is to be `drained`, the deadline is taken only when nothing is
left in it. -/
def CallState.Admits (requestID : Bytes) (drained : Prop) (s : CallState) : CallEvent → Prop
  | .move .timeout => drained → ∃ cap, s.node.gossip.pendingReqs[requestID]? = some ⟨cap, []⟩
  | .move _ => True
  | .deliver resp => resp.requestId = requestID ∧ ∀ err, s.result ≠ some (some err)
  | .other n => n.gossip.pendingReqs[requestID]? = s.node.gossip.pendingReqs[requestID]?

/-- The interleavings of a call with what happens at its node. -/
def CallRuns (H : Hashing) (C : Pb.Codec) (requestID : Bytes) (drained : Prop) :
    CallState → List CallEvent → CallState → Prop :=
  Run (CallState.step H C) (CallState.Admits requestID drained)

/-- The outcomes of the sends in a list of events. -/
def sends : List CallEvent → List Bool :=
  List.filterMap fun
    | .move (.send ok) => some ok
    | _ => none

/-- The responses in a list of events. -/
def responses : List CallEvent → List Pb.ReplicateResponse :=
  List.filterMap fun
    | .deliver resp => some resp
    | _ => none

theorem sends_append (as bs : List CallEvent) : sends (as ++ bs) = sends as ++ sends bs :=
  List.filterMap_append

theorem responses_append (as bs : List CallEvent) :
    responses (as ++ bs) = responses as ++ responses bs :=
  List.filterMap_append

/-! ## The account of a call -/

/-- The state of a call whose sends had the outcomes `oks` so far and for which the responses
`resps` were delivered: by its phase while it runs, and by its result afterwards. -/
inductive Account (w : Int) (requestID : Bytes) (remote : List Replica) (drained : Prop) :
    List Bool → List Pb.ReplicateResponse → CallState → Prop where
  | sending {oks : List Bool} {resps buf : List Pb.ReplicateResponse} {n : Node} {c : Command}
      {o : OpenCall} {done : List Replica}
      (hphase : c.phase = .sending o) (hw : c.w = w) (hid : o.requestID = requestID)
      (hremote : remote = done ++ o.todo) (hlen : done.length = oks.length)
      (hsent : o.sent = oks.count true) (hcounted : Counted (reached done oks) [] o)
      (hch : n.gossip.pendingReqs[requestID]? = some ⟨remote.length, buf.map .of⟩)
      (hkept : Kept remote.length resps [] buf) :
      Account w requestID remote drained oks resps ⟨n, c, none⟩
  | collecting {oks : List Bool} {resps received buf : List Pb.ReplicateResponse} {n : Node}
      {c : Command} {o : OpenCall}
      (hphase : c.phase = .collecting o) (hw : c.w = w) (hid : o.requestID = requestID)
      (hcounted : Counted (reached remote oks) received o)
      (hch : n.gossip.pendingReqs[requestID]? = some ⟨remote.length, buf.map .of⟩)
      (hkept : Kept remote.length resps received buf) :
      Account w requestID remote drained oks resps ⟨n, c, none⟩
  /-- Too few sends succeeded. -/
  | unreachable {oks : List Bool} {resps : List Pb.ReplicateResponse} {n : Node} {c : Command}
      {err : QuorumError} (hfew : (oks.count true + 1 : Int) < w) :
      Account w requestID remote drained oks resps ⟨n, c, some (some err)⟩
  | timedOut {oks : List Bool} {resps received buf : List Pb.ReplicateResponse} {n : Node}
      {c : Command} {err : QuorumError} (hkept : Kept remote.length resps received buf)
      (hdrained : drained → buf = [])
      (hfew : ((acknowledging (reached remote oks) received).card + 1 : Int) < w) :
      Account w requestID remote drained oks resps ⟨n, c, some (some err)⟩
  | acknowledged {oks : List Bool} {resps received : List Pb.ReplicateResponse} {n : Node}
      {c : Command} (hreceived : received.Sublist resps)
      (hmany : w ≤ (acknowledging (reached remote oks) received).card + 1) :
      Account w requestID remote drained oks resps ⟨n, c, some none⟩

namespace Account

variable {H : Hashing} {C : Pb.Codec} {w : Int} {requestID : Bytes} {remote : List Replica}
  {drained : Prop} {oks : List Bool} {resps : List Pb.ReplicateResponse} {s t : CallState}

theorem deliver (h : Account w requestID remote drained oks resps s)
    {resp : Pb.ReplicateResponse} (hid : resp.requestId = requestID)
    (hopen : ∀ err, s.result ≠ some (some err)) :
    Account w requestID remote drained oks (resps ++ [resp])
      { s with node.gossip := s.node.gossip.handleReplicateResponse resp } := by
  subst hid
  cases h with
  | sending hphase hw hid hremote hlen hsent hcounted hch hkept =>
      exact .sending hphase hw hid hremote hlen hsent hcounted
        (Handler.chan_handleReplicateResponse hch) (hkept.offer resp)
  | collecting hphase hw hid hcounted hch hkept =>
      exact .collecting hphase hw hid hcounted (Handler.chan_handleReplicateResponse hch)
        (hkept.offer resp)
  | unreachable hfew => exact absurd rfl (hopen _)
  | timedOut hkept hdrained hfew => exact absurd rfl (hopen _)
  | acknowledged hreceived hmany =>
      -- the call has returned, and the response is dropped
      exact .acknowledged (hreceived.trans (List.sublist_append_left _ _)) hmany

theorem other (h : Account w requestID remote drained oks resps s) {n : Node}
    (hn : n.gossip.pendingReqs[requestID]? = s.node.gossip.pendingReqs[requestID]?) :
    Account w requestID remote drained oks resps { s with node := n } := by
  cases h with
  | sending hphase hw hid hremote hlen hsent hcounted hch hkept =>
      exact .sending hphase hw hid hremote hlen hsent hcounted (hn.trans hch) hkept
  | collecting hphase hw hid hcounted hch hkept =>
      exact .collecting hphase hw hid hcounted (hn.trans hch) hkept
  | unreachable hfew => exact .unreachable hfew
  | timedOut hkept hdrained hfew => exact .timedOut hkept hdrained hfew
  | acknowledged hreceived hmany => exact .acknowledged hreceived hmany

/-- A call that has sent all its requests has a channel with the first responses. -/
theorem of_sending {n : Node} {c : Command} {o : OpenCall}
    (h : Account w requestID remote drained oks resps ⟨n, c, none⟩) (hphase : c.phase = .sending o)
    (htodo : o.todo = []) :
    c.w = w ∧ o.requestID = requestID ∧ o.sent = oks.count true ∧
      Counted (reached remote oks) [] o ∧
      n.gossip.pendingReqs[requestID]? =
        some ⟨remote.length, (resps.take remote.length).map .of⟩ := by
  cases h with
  | sending hphase' hw hid hremote hlen hsent hcounted hch hkept =>
      obtain rfl := Phase.sending.inj (hphase.symm.trans hphase')
      rw [htodo, List.append_nil] at hremote
      subst hremote
      exact ⟨hw, hid, hsent, hcounted, hkept.unread ▸ hch⟩
  | collecting hphase' => cases hphase.symm.trans hphase'

theorem move (h : Account w requestID remote drained oks resps s) {a : CallAction}
    (hok : s.Admits requestID drained (.move a)) (hstep : s.step H C (.move a) = some t) :
    Account w requestID remote drained (oks ++ sends [.move a]) resps t := by
  cases h with
  | @sending buf n c o done hphase hw hid hremote hlen hsent hcounted hch hkept =>
      subst hw
      obtain ⟨e, he, rfl⟩ := Option.map_eq_some_iff.1 hstep
      rw [hphase] at he
      rcases callStep_sending he with ⟨r, todo, ok, rfl, htodo, rfl⟩ | ⟨rfl, -, hfew, err, rfl⟩ |
        ⟨rfl, htodo, -, rfl⟩
      · have hremote' : remote = (done ++ [r]) ++ (o.sentTo r todo ok).todo := by
          rw [hremote, htodo, OpenCall.todo_sentTo, List.append_assoc, List.singleton_append]
        have hlen' : (done ++ [r]).length = (oks ++ [ok]).length := by
          rw [List.length_append, List.length_append, hlen]
          rfl
        have hcounted' := hcounted.sentTo r todo ok
        rw [← reached_concat hlen] at hcounted'
        exact .sending rfl rfl ((OpenCall.requestID_sentTo ..).trans hid) hremote' hlen'
          (OpenCall.sent_sentTo hsent) hcounted' hch hkept
      · rw [hsent] at hfew
        exact (List.append_nil oks).symm ▸ .unreachable hfew
      · -- the loop of sends is over
        rw [htodo, List.append_nil] at hremote
        subst hremote
        exact (List.append_nil oks).symm ▸ .collecting rfl rfl hid hcounted hch hkept
  | @collecting received buf n c o hphase hw hid hcounted hch hkept =>
      subst hw hid
      obtain ⟨e, he, rfl⟩ := Option.map_eq_some_iff.1 hstep
      rw [hphase] at he
      rcases callStep_collecting he with ⟨cap, res, rest, rfl, hch', rfl⟩ | ⟨rfl, hfew, err, rfl⟩ |
        ⟨rfl, hmany, rfl⟩
      · obtain ⟨rfl, hbuf⟩ := AckChan.mk.inj (Option.some.inj (hch.symm.trans hch'))
        obtain ⟨resp, buf', rfl, rfl, rfl⟩ := List.map_eq_cons_iff.1 hbuf
        exact (List.append_nil oks).symm ▸ .collecting rfl rfl OpenCall.requestID_count
          (hcounted.count resp) Std.ExtTreeMap.getElem?_insert_self hkept.receive
      · have hdrained : drained → buf = [] := by
          intro hd
          obtain ⟨cap, hempty⟩ := hok hd
          obtain ⟨-, hbuf⟩ := AckChan.mk.inj (Option.some.inj (hch.symm.trans hempty))
          exact List.map_eq_nil_iff.1 hbuf
        rw [hcounted.acks_eq] at hfew
        exact (List.append_nil oks).symm ▸ .timedOut hkept hdrained hfew
      · rw [hcounted.acks_eq] at hmany
        exact (List.append_nil oks).symm ▸ .acknowledged hkept.received_sublist hmany
  | unreachable hfew => cases hstep
  | timedOut hkept hdrained hfew => cases hstep
  | acknowledged hreceived hmany => cases hstep

theorem step (h : Account w requestID remote drained oks resps s) {ev : CallEvent}
    (hok : s.Admits requestID drained ev) (hstep : s.step H C ev = some t) :
    Account w requestID remote drained (oks ++ sends [ev]) (resps ++ responses [ev]) t := by
  cases ev with
  | move a =>
      have hmove := h.move hok hstep
      rwa [← List.append_nil resps] at hmove
  | deliver resp =>
      obtain rfl := Option.some.inj hstep
      have hdeliver := h.deliver hok.1 hok.2
      rwa [← List.append_nil oks] at hdeliver
  | other n =>
      obtain rfl := Option.some.inj hstep
      have hother := h.other hok
      rwa [← List.append_nil oks, ← List.append_nil resps] at hother

/-- A run adds its sends and responses to the account. -/
theorem run {evs : List CallEvent} (hrun : CallRuns H C requestID drained s evs t)
    (h : Account w requestID remote drained oks resps s) :
    Account w requestID remote drained (oks ++ sends evs) (resps ++ responses evs) t := by
  induction hrun generalizing oks resps with
  | nil => rwa [← List.append_nil oks, ← List.append_nil resps] at h
  | @cons s u t ev evs hok hstep _ ih =>
      have hnext := ih (h.step hok hstep)
      rwa [List.append_assoc, List.append_assoc, ← sends_append, ← responses_append] at hnext

end Account

end Hapartition
