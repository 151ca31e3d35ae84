import Hapartition.Gossip.Message
import Hapartition.Ring.Lookup
import Hapartition.Store.Absorb

/-!
# The gossip handler

The replication half of `Handler` in `internal/gossip/gossip.go`: applying batches and requests,
routing acknowledgements, and anti-entropy. The store and the ring are shared with the server, so
they are arguments and results here; `Handler` keeps what the handler alone holds. The replication
factor is one for which `GetReplicas` can make its result, so that its callers get `replicasFor`.

A batch is a sequence of merges of those of its entries that the node is a replica for
(`absorbsAll_handleReplication`), and so is a request up to its first foreign entry
(`absorbsAll_applyRequest`).
-/

set_option autoImplicit false

namespace Hapartition

open Lib
open Std (ExtTreeMap)

/-- `MemberInfo`; the gossip address and the status are read by nothing modelled here. -/
structure MemberInfo where
  name : Bytes
  redisAddr : Bytes
  deriving DecidableEq, Repr

/-- `ackResult`. -/
structure AckResult where
  nodeID : Bytes
  err : Option Bytes
  deriving DecidableEq, Repr

/-- A buffered `chan ackResult`. -/
structure AckChan where
  cap : Nat
  buf : List AckResult
  deriving DecidableEq, Repr

/-- The state of the handler besides the shared store and ring. `members` is what the transport's
`Members()` lists at present. -/
structure Handler where
  nodeID : Bytes
  replicaRF : Int
  members : List MemberInfo
  pendingReqs : ExtTreeMap Bytes AckChan compare
  antiEntropyPos : Nat

/-- A send that does not block: a value for a full channel is dropped. -/
def AckChan.trySend (ch : AckChan) (res : AckResult) : AckChan :=
  if ch.buf.length < ch.cap then { ch with buf := ch.buf ++ [res] } else ch

namespace Handler

variable (H : Hashing)

/-! ## Applying entries -/

/-- Whether the node is in the replica set of the key. -/
def isReplica (h : Handler) (ring : Hashring) (key : Bytes) : Bool :=
  (ring.replicasFor H key h.replicaRF).any fun replica => decide (replica.nodeID = h.nodeID)

/-- `HandleReplication`. -/
def handleReplication (h : Handler) (ring : Hashring) : Store → List Pb.Entry → Store
  | store, [] => store
  | store, e :: es =>
      if h.isReplica H ring e.key then
        h.handleReplication ring (store.setWithVersion e.key e.entry).1 es
      else h.handleReplication ring store es

/-- The loop of `handleReplicateRequest`: it stops at the first entry of a foreign key. -/
def applyRequest (h : Handler) (ring : Hashring) : Store → List Pb.Entry → Store × Bool
  | store, [] => (store, true)
  | store, e :: es =>
      if h.isReplica H ring e.key then
        h.applyRequest ring (store.setWithVersion e.key e.entry).1 es
      else (store, false)

/-- `handleReplicateRequest`: the store afterwards, and the response for the sender. -/
def handleReplicateRequest (h : Handler) (ring : Hashring) (store : Store)
    (req : Pb.ReplicateRequest) : Store × Pb.ReplicateResponse :=
  let r := h.applyRequest H ring store req.entries
  (r.1, ⟨req.requestId, h.nodeID, r.2⟩)

/-- `handleReplicateResponse`: the acknowledgement goes to the channel of its request, if the call
is still waiting. -/
def handleReplicateResponse (h : Handler) (resp : Pb.ReplicateResponse) : Handler :=
  match h.pendingReqs[resp.requestId]? with
  | none => h
  | some ch =>
      let err := if resp.success then none
        else some (str "replica " ++ resp.nodeId ++ str " rejected write")
      { h with pendingReqs := h.pendingReqs.insert resp.requestId (ch.trySend ⟨resp.nodeId, err⟩) }

/-! ## Anti-entropy -/

/-- `serializeStore`, from the snapshot in the order in which the map is ranged over. -/
def serializeStore (snap : List (Bytes × Entry)) : Option Pb.GossipMessage :=
  if snap.isEmpty then none else some (.entryBatch (snap.map Pb.Entry.of))

/-- The peers of `exchangeState`: the other members, sorted by name. -/
def peers (h : Handler) (members : List MemberInfo) : List MemberInfo :=
  H.sorter.sort MemberInfo.name (members.filter fun m => decide (m.name ≠ h.nodeID))

/-- The peer whose turn it is. -/
def nextPeer (h : Handler) (members : List MemberInfo) : Option MemberInfo :=
  (h.peers H members)[h.antiEntropyPos % (h.peers H members).length]?

/-- `exchangeState`: the handler afterwards, and the message for the transport with its receiver. -/
def exchangeState (C : Pb.Codec) (h : Handler) (members : List MemberInfo)
    (snap : List (Bytes × Entry)) : Handler × Option (Bytes × Bytes) :=
  match serializeStore snap with
  | none => (h, none)
  | some snapshot =>
      if members.length ≤ 1 then (h, none)
      else
        match h.nextPeer H members with
        | none => (h, none)
        | some peer =>
            -- the turn passes on whether or not the message can be marshalled
            let n := (h.peers H members).length
            let h' := { h with antiEntropyPos := (h.antiEntropyPos % n + 1) % n }
            match C.marshal snapshot with
            | none => (h', none)
            | some buf => (h', some (peer.name, buf))

/-- `handleLocalState`; `none` is the nil slice. -/
def handleLocalState (C : Pb.Codec) (snap : List (Bytes × Entry)) : Option Bytes :=
  match serializeStore snap with
  | none => none
  | some snapshot => C.marshal snapshot

/-- `handleMergeRemoteState`. -/
def handleMergeRemoteState (C : Pb.Codec) (h : Handler) (ring : Hashring) (store : Store)
    (buf : Bytes) : Store :=
  match C.unmarshal buf with
  | some (.entryBatch entries) => h.handleReplication H ring store entries
  | _ => store

/-! ## What the handlers send and store -/

variable {H} {h : Handler} {ring : Hashring}

theorem serializeStore_of_ne_nil {snap : List (Bytes × Entry)} (hne : snap ≠ []) :
    serializeStore snap = some (.entryBatch (snap.map Pb.Entry.of)) :=
  if_neg (mt List.isEmpty_iff.1 hne)

/-- `exchangeState` with a peer: the turn passes on, and all else depends on the marshalling. -/
theorem exchangeState_eq (C : Pb.Codec) {members : List MemberInfo} {snap : List (Bytes × Entry)}
    {m : Pb.GossipMessage} {peer : MemberInfo} (hm : serializeStore snap = some m)
    (hlen : ¬ members.length ≤ 1) (hpeer : h.nextPeer H members = some peer) :
    h.exchangeState H C members snap =
      ({ h with antiEntropyPos := (h.antiEntropyPos % (h.peers H members).length + 1) %
          (h.peers H members).length },
        (C.marshal m).map fun buf => (peer.name, buf)) := by
  simp only [exchangeState, hm, if_neg hlen, hpeer]
  cases C.marshal m <;> rfl

/-- All that `exchangeState` can do. -/
theorem exchangeState_cases (C : Pb.Codec) (h : Handler) (members : List MemberInfo)
    (snap : List (Bytes × Entry)) :
    h.exchangeState H C members snap = (h, none) ∨
      ∃ m peer pos, serializeStore snap = some m ∧ h.nextPeer H members = some peer ∧
        h.exchangeState H C members snap =
          ({ h with antiEntropyPos := pos }, (C.marshal m).map fun buf => (peer.name, buf)) := by
  cases hm : serializeStore snap with
  | none =>
      left
      simp only [exchangeState, hm]
  | some m =>
      by_cases hlen : members.length ≤ 1
      · left
        simp only [exchangeState, hm, if_pos hlen]
      · cases hpeer : h.nextPeer H members with
        | none =>
            left
            simp only [exchangeState, hm, if_neg hlen, hpeer]
        | some peer => exact .inr ⟨m, peer, _, rfl, rfl, exchangeState_eq C hm hlen hpeer⟩

/-- What `exchangeState` hands to the transport is the marshalled snapshot. -/
theorem exchangeState_eq_some {C : Pb.Codec} {members : List MemberInfo}
    {snap : List (Bytes × Entry)} {q : Bytes × Bytes}
    (hq : (h.exchangeState H C members snap).2 = some q) :
    ∃ m, serializeStore snap = some m ∧ C.marshal m = some q.2 := by
  rcases exchangeState_cases C h members snap with hnone | ⟨m, peer, pos, hm, -, hsome⟩
  · rw [hnone] at hq
    cases hq
  · rw [hsome] at hq
    obtain ⟨buf, hbuf, rfl⟩ := Option.map_eq_some_iff.1 hq
    exact ⟨m, hm, hbuf⟩

/-- A local state is the marshalled snapshot. -/
theorem handleLocalState_eq_some {C : Pb.Codec} {snap : List (Bytes × Entry)} {buf : Bytes}
    (hbuf : handleLocalState C snap = some buf) :
    ∃ m, serializeStore snap = some m ∧ C.marshal m = some buf := by
  unfold handleLocalState at hbuf
  split at hbuf
  · cases hbuf
  next m hm => exact ⟨m, hm, hbuf⟩

theorem isReplica_iff {key : Bytes} :
    h.isReplica H ring key = true ↔
      h.nodeID ∈ (ring.replicasFor H key h.replicaRF).map Replica.nodeID := by
  simp [isReplica, List.any_eq_true]

/-- The entries of a batch that the node is a replica for. -/
def accepted (H : Hashing) (h : Handler) (ring : Hashring) (entries : List Pb.Entry) :
    List (Bytes × Entry) :=
  (Pb.pairs entries).filter fun p => h.isReplica H ring p.1

theorem mem_accepted {entries : List Pb.Entry} {p : Bytes × Entry} :
    p ∈ h.accepted H ring entries ↔ p ∈ Pb.pairs entries ∧ h.isReplica H ring p.1 = true :=
  List.mem_filter

theorem accepted_cons_of_mem {e : Pb.Entry} {es : List Pb.Entry} {p : Bytes × Entry}
    (hp : p ∈ h.accepted H ring es) : p ∈ h.accepted H ring (e :: es) := by
  obtain ⟨hmem, hrep⟩ := mem_accepted.1 hp
  exact mem_accepted.2 ⟨List.mem_cons_of_mem _ hmem, hrep⟩

/-- The merge of the first entry of a batch, if the node is a replica for it, and of the others
after it. -/
theorem stored_or_accepted {store : Store} {e : Pb.Entry} {es : List Pb.Entry} {k : Bytes}
    {entry : Entry} (hrep : h.isReplica H ring e.key = true)
    (hk : (store.setWithVersion e.key e.entry).1.tree[k]? = some entry ∨
      (k, entry) ∈ h.accepted H ring es) :
    store.tree[k]? = some entry ∨ (k, entry) ∈ h.accepted H ring (e :: es) := by
  rcases hk with hstored | hacc
  · rcases Store.getElem?_setWithVersion_eq_some hstored with hold | ⟨rfl, rfl⟩
    · exact .inl hold
    · exact .inr (mem_accepted.2 ⟨List.mem_cons_self, hrep⟩)
  · exact .inr (accepted_cons_of_mem hacc)

/-- What is stored after a batch was stored before, or is an entry that the node accepted. -/
theorem getElem?_handleReplication_eq_some {store : Store} {entries : List Pb.Entry} {k : Bytes}
    {entry : Entry} (hk : (h.handleReplication H ring store entries).tree[k]? = some entry) :
    store.tree[k]? = some entry ∨ (k, entry) ∈ h.accepted H ring entries := by
  induction entries generalizing store with
  | nil => exact .inl hk
  | cons e es ih =>
      rw [handleReplication] at hk
      split at hk
      next hrep => exact stored_or_accepted hrep (ih hk)
      next => exact (ih hk).imp_right accepted_cons_of_mem

theorem getElem?_applyRequest_eq_some {store : Store} {entries : List Pb.Entry} {k : Bytes}
    {entry : Entry} (hk : (h.applyRequest H ring store entries).1.tree[k]? = some entry) :
    store.tree[k]? = some entry ∨ (k, entry) ∈ h.accepted H ring entries := by
  induction entries generalizing store with
  | nil => exact .inl hk
  | cons e es ih =>
      rw [applyRequest] at hk
      split at hk
      next hrep => exact stored_or_accepted hrep (ih hk)
      next => exact .inl hk

/-- A batch merges the entries that the node is a replica for. -/
theorem absorbsAll_handleReplication {store : Store} (hs : store.ClockOk)
    (entries : List Pb.Entry) :
    Store.AbsorbsAll store (h.accepted H ring entries)
      (h.handleReplication H ring store entries) := by
  induction entries generalizing store with
  | nil => exact .nil store
  | cons e es ih =>
      have hcons : h.accepted H ring (e :: es) =
          if h.isReplica H ring e.key then (e.key, e.entry) :: h.accepted H ring es
          else h.accepted H ring es := by
        simp [accepted, Pb.pairs, List.filter_cons]
      rw [hcons, handleReplication]
      have hab := Store.absorbs_setWithVersion hs e.key e.entry
      split
      · exact .cons (p := (e.key, e.entry)) hab (ih (hab.clockOk hs))
      · exact ih hs

/-- A request merges its entries, in order, up to the first that is not the node's. -/
theorem absorbsAll_applyRequest {store : Store} (hs : store.ClockOk) (entries : List Pb.Entry) :
    ∃ es, Store.AbsorbsAll store es (h.applyRequest H ring store entries).1 ∧
      (∀ p ∈ es, p ∈ h.accepted H ring entries) ∧
      ((h.applyRequest H ring store entries).2 = true → es = Pb.pairs entries) := by
  induction entries generalizing store with
  | nil => exact ⟨[], .nil store, by simp, fun _ => rfl⟩
  | cons e es ih =>
      rw [applyRequest]
      have hab := Store.absorbs_setWithVersion hs e.key e.entry
      split
      next hrep =>
        obtain ⟨l, hl, hmem, hall⟩ := ih (hab.clockOk hs)
        refine ⟨(e.key, e.entry) :: l, .cons (p := (e.key, e.entry)) hab hl, ?_, ?_⟩
        · intro p hp
          rw [mem_accepted]
          rcases List.mem_cons.1 hp with rfl | hp
          · exact ⟨List.mem_cons_self, hrep⟩
          · obtain ⟨hpairs, hrep'⟩ := mem_accepted.1 (hmem p hp)
            exact ⟨List.mem_cons_of_mem _ hpairs, hrep'⟩
        · intro htrue
          rw [hall htrue]
          rfl
      -- a foreign entry stops the loop: what came before it stays merged
      next => exact ⟨[], .nil store, by simp, by simp⟩

end Handler

end Hapartition
