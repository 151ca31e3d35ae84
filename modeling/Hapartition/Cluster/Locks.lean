import Hapartition.Cluster.Quorum

/-!
# Between the locks

In the cluster model a packet is handled, and a write is checked and stored, in one step. The source
takes a lock for each access: `HandleReplication` and `handleReplicateRequest` look up the ring and
merge into the store entry by entry, and a `SET` or `DEL` looks up the owner of every key before it
reaches the store. Between two locks any other goroutine may run, a join or leave on the same node
included, so that an entry may be merged, or a write stored, under another ring than the one it was
checked against.

`Threads` adds the goroutines that are between two locks to the cluster. Every run of the cluster is
a run of `Threads` in which no goroutine is interrupted (`runs_threads`). Acknowledged writes are
durable in all of them (`durable_between_locks`): what a replica reports is decided by its merges,
not by the ring at the time of its answer.
-/

set_option autoImplicit false

namespace Hapartition

open Lib
open Std (ExtTreeMap)

/-! ## The goroutines -/

/-- The loop of `HandleReplication` or, with an answer due, of `handleReplicateRequest`. -/
structure Applying where
  node : Bytes
  /-- The ID of a request and its sender; nobody waits for an answer to a batch. -/
  answer : Option (Bytes × Bytes)
  /-- The entry that has passed the replica check, on its way to the store. -/
  checked : Option Pb.Entry
  todo : List Pb.Entry
  success : Bool

/-- The writes that clients send. -/
inductive Write where
  | set (key value : Bytes)
  | del (keys : List Bytes)

/-- The keys whose owner is looked up. -/
def Write.keys : Write → List Bytes
  | .set key _ => [key]
  | .del keys => keys

/-- A write on its way to the store, with the keys it has still to look up. -/
structure Writing where
  node : Bytes
  write : Write
  todo : List Bytes

/-- The cluster, with the goroutines that are between two locks. -/
structure Threads where
  cluster : State
  applying : List Applying
  writing : List Writing

/-- The goroutine that a packet with entries starts. -/
def Applying.ofPacket (C : Pb.Codec) (p : Packet) : Option Applying :=
  match C.unmarshal p.buf, p.kind with
  | some (.entryBatch entries), _ => some ⟨p.dst, none, none, entries, true⟩
  | some (.replicateReq req), .message =>
      some ⟨p.dst, some (req.requestId, req.senderId), none, req.entries, true⟩
  | _, _ => none

/-- The goroutine goes on to its next lock: the node afterwards with what it sends, and what is left
of the goroutine. -/
def Applying.turn (H : Hashing) (C : Pb.Codec) (n : Node) (g : Applying) :
    Node × List Packet × Option Applying :=
  match g.checked, g.todo with
  | some e, _ =>
      ({ n with store := (n.store.setWithVersion e.key e.entry).1 }, [],
        some { g with checked := none })
  | none, e :: es =>
      if n.gossip.isReplica H n.ring e.key then
        (n, [], some { g with checked := some e, todo := es })
      else
        match g.answer with
        | none => (n, [], some { g with todo := es })
        -- a request is given up at its first foreign entry
        | some _ => (n, [], some { g with todo := [], success := false })
  | none, [] =>
      match g.answer with
      | none => (n, [], none)
      | some (requestId, senderId) =>
          (n, (C.marshal (.replicateResp ⟨requestId, n.gossip.nodeID, g.success⟩)).toList.map
            fun buf => ⟨senderId, .message, buf⟩, none)

/-- The steps of the cluster in which no goroutine lets go of a lock and takes another. -/
def Action.oneLock (C : Pb.Codec) : Action → Bool
  | .set _ _ _ => false
  | .del _ _ _ => false
  | .deliver p => (Applying.ofPacket C p).isNone
  | _ => true

/-- The labels of the steps. -/
inductive ThreadAction where
  | cluster (a : Action)
  /-- A packet with entries arrives. -/
  | take (p : Packet)
  | apply (i : Nat)
  /-- A client sends a write. -/
  | accept (id : Bytes) (w : Write)
  /-- A write looks up the owner of its next key. -/
  | check (i : Nat)
  /-- A write has looked up all its keys, and reaches the store. -/
  | store (i : Nat) (order : List (Bytes × Entry))

/-- One node has changed and sent packets. -/
def State.afterNode (s : State) (id : Bytes) (n : Node) (ps : List Packet) : State :=
  { s with nodes := s.nodes.insert id n, network := s.network ++ ps }

/-- The write reaches the store of its node. -/
def Write.issue (s : State) (id : Bytes) (n : Node) (order : List (Bytes × Entry)) :
    Write → Option State
  | .set key value =>
      let r := n.store.setFrom key value n.gossip.nodeID
      some (s.issue id n r.1 (key, r.2) [])
  | .del keys =>
      let r := n.store.del n.gossip.nodeID keys
      if order.Perm r.2.2.toList then
        match order with
        | [] => none
        | p :: rest => some (s.issue id n r.1 p rest)
      else none

/-- A list without its element at `i`, or with another one in its place. -/
def putAt {α : Type} (l : List α) (i : Nat) : Option α → List α
  | none => l.eraseIdx i
  | some x => l.set i x

namespace Threads

variable (H : Hashing) (C : Pb.Codec)

/-- The goroutine at index `i` goes on at its node. -/
def onApplying (s : Threads) (i : Nat) (g : Applying) (n : Node) : Threads :=
  let r := g.turn H C n
  { s with
    cluster := s.cluster.afterNode g.node r.1 r.2.1
    applying := putAt s.applying i r.2.2 }

/-- The write at index `i` looks up its next key: a foreign key ends it with a redirect. -/
def onCheck (s : Threads) (i : Nat) (w : Writing) (n : Node) : Option Threads :=
  match w.todo with
  | [] => none
  | key :: todo =>
      match redirect H n.ring n.gossip.nodeID key with
      | some _ => some { s with writing := putAt s.writing i none }
      | none => some { s with writing := putAt s.writing i (some { w with todo := todo }) }

/-- The write at index `i` reaches the store. -/
def onStore (s : Threads) (i : Nat) (order : List (Bytes × Entry)) (w : Writing) (n : Node) :
    Option Threads :=
  match w.todo with
  | [] =>
      (w.write.issue s.cluster w.node n order).map fun c =>
        { s with cluster := c, writing := putAt s.writing i none }
  | _ :: _ => none

/-- One step. -/
def step (s : Threads) : ThreadAction → Option Threads
  | .cluster a =>
      if a.oneLock C then (s.cluster.step H C a).map fun c => { s with cluster := c } else none
  | .take p =>
      if p ∈ s.cluster.network ∧ (s.cluster.nodes[p.dst]?).isSome then
        (Applying.ofPacket C p).map fun g => { s with applying := s.applying ++ [g] }
      else none
  | .apply i =>
      s.applying[i]?.bind fun g => (s.cluster.nodes[g.node]?).map (s.onApplying H C i g)
  | .accept id w =>
      (s.cluster.nodes[id]?).map fun _ => { s with writing := s.writing ++ [⟨id, w, w.keys⟩] }
  | .check i =>
      s.writing[i]?.bind fun w => (s.cluster.nodes[w.node]?).bind (s.onCheck H i w)
  | .store i order =>
      s.writing[i]?.bind fun w => (s.cluster.nodes[w.node]?).bind (s.onStore i order w)

/-- The step moves no clock past its maximum. -/
def NoOverflow (s : Threads) : ThreadAction → Prop
  | .cluster a => s.cluster.NoOverflow a
  | .store i _ =>
      ∀ w ∈ s.writing[i]?, ∀ n ∈ s.cluster.nodes[w.node]?,
        n.store.clock.toInt + w.write.keys.eraseDups.length ≤ Int64.maxValue.toInt
  | _ => True

/-- The runs in which no clock overflows. -/
abbrev Runs : Threads → List ThreadAction → Threads → Prop := Run (step H C) NoOverflow

end Threads

/-! ## What a step does -/

section Steps

variable {H : Hashing} {C : Pb.Codec} {s t : Threads} {n : Node}

/-- A write that reaches the store does what the command does in the cluster. -/
inductive Issued (s : State) (id : Bytes) (n : Node) : Write → State → Prop where
  | set (key value : Bytes) :
      Issued s id n (.set key value)
        (s.issue id n (n.store.setFrom key value n.gossip.nodeID).1
          (key, (n.store.setFrom key value n.gossip.nodeID).2) [])
  | del (keys : List Bytes) (p : Bytes × Entry) (rest : List (Bytes × Entry))
      (hperm : (p :: rest).Perm (n.store.del n.gossip.nodeID keys).2.2.toList) :
      Issued s id n (.del keys) (s.issue id n (n.store.del n.gossip.nodeID keys).1 p rest)

theorem issued_of_issue {s t : State} {id : Bytes} {order : List (Bytes × Entry)} {w : Write}
    (h : w.issue s id n order = some t) : Issued s id n w t := by
  cases w with
  | set key value => exact Option.some.inj h ▸ .set key value
  | del keys =>
      simp only [Write.issue] at h
      split at h
      next hperm =>
        cases order with
        | nil => cases h
        | cons p rest => exact Option.some.inj h ▸ .del keys p rest hperm
      next => cases h

/-- The steps, each with what it changes. -/
inductive ThreadMove (H : Hashing) (C : Pb.Codec) (s : Threads) :
    ThreadAction → Threads → Prop where
  | cluster (a : Action) (c : State) (hstep : s.cluster.step H C a = some c) :
      ThreadMove H C s (.cluster a) { s with cluster := c }
  | take (p : Packet) (hp : p ∈ s.cluster.network) (g : Applying)
      (hg : Applying.ofPacket C p = some g) :
      ThreadMove H C s (.take p) { s with applying := s.applying ++ [g] }
  | apply (i : Nat) (g : Applying) (n : Node) (hg : s.applying[i]? = some g)
      (hn : s.cluster.nodes[g.node]? = some n) :
      ThreadMove H C s (.apply i) (s.onApplying H C i g n)
  /-- A client sends a write, or a write looks up a key: nothing is stored. -/
  | idle (a : ThreadAction) (writing : List Writing) :
      ThreadMove H C s a { s with writing := writing }
  | store (i : Nat) (order : List (Bytes × Entry)) (w : Writing) (n : Node) (c : State)
      (hw : s.writing[i]? = some w) (hn : s.cluster.nodes[w.node]? = some n)
      (hissued : Issued s.cluster w.node n w.write c) :
      ThreadMove H C s (.store i order)
        { s with cluster := c, writing := putAt s.writing i none }

theorem threadMove_of_step {a : ThreadAction} (h : s.step H C a = some t) :
    ThreadMove H C s a t := by
  cases a with
  | cluster a =>
      simp only [Threads.step] at h
      split at h
      · obtain ⟨c, hc, rfl⟩ := Option.map_eq_some_iff.1 h
        exact .cluster a c hc
      · cases h
  | take p =>
      simp only [Threads.step] at h
      split at h
      next hp =>
        obtain ⟨g, hg, rfl⟩ := Option.map_eq_some_iff.1 h
        exact .take p hp.1 g hg
      next => cases h
  | apply i =>
      obtain ⟨g, hg, h⟩ := Option.bind_eq_some_iff.1 h
      obtain ⟨n, hn, rfl⟩ := Option.map_eq_some_iff.1 h
      exact .apply i g n hg hn
  | accept id w =>
      obtain ⟨n, -, rfl⟩ := Option.map_eq_some_iff.1 h
      exact .idle _ _
  | check i =>
      obtain ⟨w, -, h⟩ := Option.bind_eq_some_iff.1 h
      obtain ⟨n, -, h⟩ := Option.bind_eq_some_iff.1 h
      unfold Threads.onCheck at h
      split at h
      · cases h
      · split at h
        · exact Option.some.inj h ▸ .idle _ _
        · exact Option.some.inj h ▸ .idle _ _
  | store i order =>
      obtain ⟨w, hw, h⟩ := Option.bind_eq_some_iff.1 h
      obtain ⟨n, hn, h⟩ := Option.bind_eq_some_iff.1 h
      unfold Threads.onStore at h
      split at h
      · obtain ⟨c, hc, rfl⟩ := Option.map_eq_some_iff.1 h
        exact .store i order w n c hw hn (issued_of_issue hc)
      · cases h

theorem mem_putAt {α : Type} {l : List α} {i : Nat} {o : Option α} {x : α}
    (h : x ∈ putAt l i o) : x ∈ l ∨ o = some x := by
  cases o with
  | none => exact .inl (List.mem_of_mem_eraseIdx h)
  | some y => exact (List.mem_or_eq_of_mem_set h).imp_right fun heq => congrArg some heq.symm

end Steps

/-! ## The invariant -/

namespace State

variable {H : Hashing} {C : Pb.Codec} {s t : State}

/-- What the goroutine of a request may report: its node holds the entry of the request, or has
still to merge it. -/
def ApplyingOk (s : State) (g : Applying) : Prop :=
  ∀ requestId senderId, g.answer = some (requestId, senderId) →
    ∃ r ∈ s.requests, r.id = requestId ∧ (g.success = true →
      s.HeldBy g.node r.key r.entry ∨ Pb.Entry.of (r.key, r.entry) ∈ g.checked.toList ++ g.todo)

theorem ApplyingOk.mono {g : Applying} (h : s.ApplyingOk g) (hg : Grows s t) : t.ApplyingOk g := by
  intro requestId senderId hanswer
  obtain ⟨r, hr, hid, hheld⟩ := h requestId senderId hanswer
  exact ⟨r, hg.requests r hr, hid, fun hsuc => (hheld hsuc).imp_left hg.heldBy⟩

/-- A packet of the cluster starts a goroutine that has all its entries before it. -/
theorem applyingOk_ofPacket (hI : s.Inv H C) {p : Packet} (hp : p ∈ s.network) {g : Applying}
    (hg : Applying.ofPacket C p = some g) : s.ApplyingOk g := by
  obtain ⟨m, hm, hok⟩ := hI.packet p hp
  rw [Applying.ofPacket, C.unmarshal_marshal m p.buf hm] at hg
  split at hg
  · obtain rfl := Option.some.inj hg
    exact fun _ _ hanswer => nomatch hanswer
  next req hreq _ =>
    obtain rfl := Option.some.inj hg
    obtain rfl := Option.some.inj hreq
    obtain ⟨r, hr, hid, hentries⟩ := hok
    intro requestId senderId hanswer
    obtain ⟨rfl, -⟩ := Prod.mk.inj (Option.some.inj hanswer)
    refine ⟨r, hr, hid, fun _ => .inr ?_⟩
    show Pb.Entry.of (r.key, r.entry) ∈ [] ++ req.entries
    rw [hentries]
    exact List.mem_singleton_self _
  · cases hg

/-- A node that merges entries, and sends packets that are true afterwards, keeps the invariant. -/
theorem inv_afterNode {id : Bytes} {n n' : Node} {es : List (Bytes × Entry)} (ps : List Packet)
    (hI : s.Inv H C) (hn : s.nodes[id]? = some n) (hgn : n.Grows es n')
    (hchan : n'.gossip.pendingReqs = n.gossip.pendingReqs)
    (hps : ∀ p ∈ ps, (s.afterNode id n' ps).BufOk C p.buf) :
    Grows s (s.afterNode id n' ps) ∧ (s.afterNode id n' ps).Inv H C := by
  have hok := hI.node id n hn
  have hg : Grows s (s.afterNode id n' ps) :=
    grows_of_node hn hgn rfl (fun _ h => List.mem_append_left _ h) (fun _ h => h) fun _ h => h
  refine ⟨hg, hI.of_grows hg (node_of_insert rfl ?_) ?_ (fun _ h => .inl h) hI.ids
    (fun _ h => .inl h) fun _ h => .inl h⟩
  · refine hok.of_grows hgn fun requestID ch res hch hres herr => hg.acked ?_
    exact hok.acked requestID ch res (hchan ▸ hch) hres herr
  · intro p hp
    exact (List.mem_append.1 hp).imp_right (hps p)

/-- A turn merges the entry that has passed its check, if there is one, and sends an answer only at
the end of the loop. -/
theorem turn_cases (n : Node) (g : Applying) :
    (∃ e, g.checked = some e ∧ g.turn H C n =
      ({ n with store := (n.store.setWithVersion e.key e.entry).1 }, [],
        some { g with checked := none })) ∨
    (∃ g', g.checked = none ∧ g.turn H C n = (n, [], some g') ∧ g'.node = g.node ∧
      g'.answer = g.answer ∧ (g'.success = true → g.answer ≠ none →
        g.success = true ∧ g'.checked.toList ++ g'.todo = g.todo)) ∨
    (g.checked = none ∧ g.todo = [] ∧ ∃ ps, g.turn H C n = (n, ps, none) ∧
      ∀ p ∈ ps, ∃ requestId senderId, g.answer = some (requestId, senderId) ∧
        C.marshal (.replicateResp ⟨requestId, n.gossip.nodeID, g.success⟩) = some p.buf) := by
  unfold Applying.turn
  split
  next e hchecked => exact .inl ⟨e, hchecked, rfl⟩
  next e es hchecked htodo =>
    right; left
    split
    · exact ⟨_, hchecked, rfl, rfl, rfl, fun hsuc _ => ⟨hsuc, htodo.symm⟩⟩
    · split
      next hnone => exact ⟨_, hchecked, rfl, rfl, rfl, fun _ hsome => absurd hnone hsome⟩
      next => exact ⟨_, hchecked, rfl, rfl, rfl, fun hsuc _ => nomatch hsuc⟩
  next hchecked htodo =>
    right; right
    refine ⟨hchecked, htodo, ?_⟩
    split
    · exact ⟨[], rfl, by simp⟩
    next requestId senderId hanswer =>
      refine ⟨_, rfl, fun p hp => ⟨requestId, senderId, hanswer, ?_⟩⟩
      obtain ⟨buf, hbuf, rfl⟩ := List.mem_map.1 hp
      exact Option.mem_toList.1 hbuf

end State

/-- The invariant of the cluster, and that of every goroutine. -/
structure Threads.Inv (H : Hashing) (C : Pb.Codec) (s : Threads) : Prop where
  cluster : s.cluster.Inv H C
  applying : ∀ g ∈ s.applying, s.cluster.ApplyingOk g

namespace Threads

variable {H : Hashing} {C : Pb.Codec} {s t : Threads}

/-- A turn of a goroutine keeps the invariant. -/
theorem inv_onApplying (hI : s.Inv H C) {i : Nat} {g : Applying} {n : Node}
    (hg : s.applying[i]? = some g) (hn : s.cluster.nodes[g.node]? = some n) :
    s.cluster.Grows (s.onApplying H C i g n).cluster ∧ (s.onApplying H C i g n).Inv H C := by
  have hgok := hI.applying g (List.mem_of_getElem? hg)
  have hok := hI.cluster.node g.node n hn
  have hsame : n.Grows [] n := Node.SameData.grows ⟨rfl, rfl, rfl, rfl, fun hs => hs⟩
  -- the other goroutines are as before; the cluster has grown under them
  have hrest : ∀ {c : State} {o : Option Applying}, s.cluster.Grows c → c.Inv H C →
      (∀ g', o = some g' → c.ApplyingOk g') →
        s.cluster.Grows c ∧ Inv H C { s with cluster := c, applying := putAt s.applying i o } := by
    intro c o hgrows hInv ho
    refine ⟨hgrows, hInv, fun g' hg' => ?_⟩
    rcases mem_putAt hg' with hold | hnew
    · exact (hI.applying g' hold).mono hgrows
    · exact ho g' hnew
  rw [onApplying]
  rcases State.turn_cases (H := H) (C := C) n g with
    ⟨e, hchecked, hturn⟩ | ⟨g', hchecked, hturn, hnode, hanswer, hkeep⟩ |
      ⟨hchecked, htodo, ps, hturn, hps⟩
  · rw [hturn]
    have habs := Store.absorbs_setWithVersion hok.clockOk e.key e.entry
    obtain ⟨hgrows, hInv⟩ := State.inv_afterNode [] hI.cluster hn
      (.of_absorbsAll (.single (p := (e.key, e.entry)) habs)) rfl (by simp)
    refine hrest hgrows hInv ?_
    intro g' hg' requestId senderId hanswer
    obtain rfl := Option.some.inj hg'
    obtain ⟨r, hr, hid, hheld⟩ := hgok requestId senderId hanswer
    refine ⟨r, hr, hid, fun hsuc => ?_⟩
    rcases hheld hsuc with hheld | hmem
    · exact .inl (hgrows.heldBy hheld)
    · rw [hchecked] at hmem
      rcases List.mem_cons.1 hmem with rfl | hmem
      · -- the entry of the request is the one that was merged
        exact .inl ⟨_, ExtTreeMap.getElem?_insert_self, habs.covers_self⟩
      · exact .inr hmem
  · rw [hturn]
    obtain ⟨hgrows, hInv⟩ := State.inv_afterNode [] hI.cluster hn hsame rfl (by simp)
    refine hrest hgrows hInv ?_
    intro g'' hg'' requestId senderId hanswer'
    obtain rfl := Option.some.inj hg''
    have hsome : g.answer = some (requestId, senderId) := hanswer.symm.trans hanswer'
    obtain ⟨r, hr, hid, hheld⟩ := hgok requestId senderId hsome
    refine ⟨r, hr, hid, fun hsuc => ?_⟩
    obtain ⟨hsuc', htodo⟩ := hkeep hsuc (by simp [hsome])
    rw [htodo, hnode]
    refine (hheld hsuc').imp hgrows.heldBy fun hmem => ?_
    rwa [hchecked] at hmem
  · rw [hturn]
    have hgrows : s.cluster.Grows (s.cluster.afterNode g.node n ps) :=
      State.grows_of_node hn hsame rfl (fun _ h => List.mem_append_left _ h) (fun _ h => h)
        fun _ h => h
    have hsent : ∀ p ∈ ps, (s.cluster.afterNode g.node n ps).BufOk C p.buf := by
      intro p hp
      obtain ⟨requestId, senderId, hanswer, hbuf⟩ := hps p hp
      obtain ⟨r, hr, hid, hheld⟩ := hgok requestId senderId hanswer
      refine ⟨_, hbuf, fun hsuc => ⟨r, hr, hid, ?_⟩⟩
      -- nothing is left to merge, so the node holds the entry
      rw [hchecked, htodo] at hheld
      rw [hok.nodeID]
      exact hgrows.heldBy ((hheld hsuc).resolve_right (by simp))
    exact hrest hgrows (State.inv_afterNode ps hI.cluster hn hsame rfl hsent).2 (by simp)

/-- The step lemma. -/
theorem inv_step {a : ThreadAction} (hov : s.NoOverflow a) (hstep : s.step H C a = some t)
    (hI : s.Inv H C) : s.cluster.Grows t.cluster ∧ t.Inv H C := by
  have hrest : ∀ {c : State} {writing : List Writing}, s.cluster.Grows c ∧ c.Inv H C →
      s.cluster.Grows c ∧ Inv H C { s with cluster := c, writing := writing } := by
    rintro c writing ⟨hgrows, hInv⟩
    exact ⟨hgrows, hInv, fun g hg => (hI.applying g hg).mono hgrows⟩
  cases threadMove_of_step hstep with
  | cluster a c hc => exact hrest (State.inv_step hov hc hI.cluster)
  | take p hp g hg =>
      refine ⟨.refl _, hI.cluster, fun g' hg' => ?_⟩
      rcases List.mem_append.1 hg' with hold | hnew
      · exact hI.applying g' hold
      · obtain rfl := List.mem_singleton.1 hnew
        exact State.applyingOk_ofPacket hI.cluster hp hg
  | apply i g n hg hn => exact inv_onApplying hI hg hn
  | idle a writing => exact hrest ⟨.refl _, hI.cluster⟩
  | store i order w n c hw hn hissued =>
      refine hrest ?_
      have hclock := hov w hw n hn
      cases w with
      | mk node write todo =>
      cases hissued with
      | set key value =>
          have habs := Store.absorbs_setFrom key value n.gossip.nodeID (s := n.store) (by
            simpa [Write.keys, List.eraseDups_cons] using hclock)
          refine State.inv_issue hI.cluster hn (.single (p := (key, _)) habs) (fun q hq => hq) ?_
          intro q hq
          obtain rfl := List.mem_singleton.1 hq
          rw [Store.setFrom_snd]
      | del keys p rest hperm =>
          have hok := hI.cluster.node node n hn
          obtain ⟨es, hdel⟩ := Store.absorbsAll_del hok.clockOk n.gossip.nodeID keys hclock
          have htomb : ∀ q ∈ p :: rest,
              (n.store.delLoop n.gossip.nodeID keys).tombstones[q.1]? = some q.2 := fun q hq =>
            ExtTreeMap.mem_toList_iff_getElem?_eq_some.1 (hperm.mem_iff.1 hq)
          exact State.inv_issue hI.cluster hn hdel.absorbs
            (fun q hq => (hdel.mem_iff q.1 q.2).2 (htomb q hq))
            fun q hq => (hdel.fields q.1 q.2 (htomb q hq)).2.1

theorem inv_run {as : List ThreadAction} (h : Runs H C s as t) (hs : s.Inv H C) : t.Inv H C :=
  h.invariant (fun hov hstep hI => (inv_step hov hstep hI).2) hs

theorem grows_run {as : List ThreadAction} (h : Runs H C s as t) (hs : s.Inv H C) :
    s.cluster.Grows t.cluster :=
  Run.related (P := Inv H C) (R := fun s t => s.cluster.Grows t.cluster) (fun _ => .refl _)
    State.Grows.trans (fun hov hstep hI => (inv_step hov hstep hI).2)
    (fun hov hstep hI => (inv_step hov hstep hI).1) h hs

/-! ## Goroutines that are not interrupted -/

section Uninterrupted

variable {c : State} {id : Bytes} {n : Node} (l : List Applying) (ws : List Writing)

theorem putAt_last {α : Type} (l : List α) (x : α) (o : Option α) :
    putAt (l ++ [x]) l.length o = l ++ o.toList := by
  cases o with
  | none => simp [putAt, List.eraseIdx_append_of_length_le]
  | some y => simp [putAt]

theorem afterNode_self (hn : c.nodes[id]? = some n) : c.afterNode id n [] = c := by
  rw [State.afterNode, Dict.insert_eq_self hn, List.append_nil]

theorem afterNode_afterNode (n' : Node) (ps ps' : List Packet) :
    (c.afterNode id n ps).afterNode id n' ps' = c.afterNode id n' (ps ++ ps') := by
  simp only [State.afterNode, Dict.insert_insert, List.append_assoc]

theorem getElem?_afterNode (c : State) (id : Bytes) (n : Node) (ps : List Packet) :
    (c.afterNode id n ps).nodes[id]? = some n :=
  ExtTreeMap.getElem?_insert_self

/-- One turn of the goroutine that came last. -/
theorem runs_turn {g : Applying} (hn : c.nodes[g.node]? = some n) {n' : Node} {ps : List Packet}
    {o : Option Applying} (hturn : g.turn H C n = (n', ps, o)) :
    Runs H C ⟨c, l ++ [g], ws⟩ [.apply l.length] ⟨c.afterNode g.node n' ps, l ++ o.toList, ws⟩ := by
  refine .single trivial ?_
  simp only [step, List.getElem?_concat_length, Option.bind_some, hn, Option.map_some, onApplying,
    hturn, putAt_last]

/-- A turn that reads only. -/
theorem runs_check_turn {g g' : Applying} (hn : c.nodes[g.node]? = some n)
    (hturn : g.turn H C n = (n, [], some g')) :
    Runs H C ⟨c, l ++ [g], ws⟩ [.apply l.length] ⟨c, l ++ [g'], ws⟩ := by
  have hrun := runs_turn l ws hn hturn
  rwa [afterNode_self hn] at hrun

/-- The check and the merge of the first entry of a loop. -/
theorem runs_merge (hn : c.nodes[id]? = some n) {e : Pb.Entry} {es : List Pb.Entry}
    {answer : Option (Bytes × Bytes)} (hrep : n.gossip.isReplica H n.ring e.key = true) :
    Runs H C ⟨c, l ++ [⟨id, answer, none, e :: es, true⟩], ws⟩ [.apply l.length, .apply l.length]
      ⟨c.afterNode id { n with store := (n.store.setWithVersion e.key e.entry).1 } [],
        l ++ [⟨id, answer, none, es, true⟩], ws⟩ :=
  (runs_check_turn (g := ⟨id, answer, none, e :: es, true⟩) l ws hn (if_pos hrep)).append
    (runs_turn (g := ⟨id, answer, some e, es, true⟩) l ws hn rfl)

/-- A batch that is applied without interruption. -/
theorem exists_batch_run (hn : c.nodes[id]? = some n) (es : List Pb.Entry) :
    ∃ as, Runs H C ⟨c, l ++ [⟨id, none, none, es, true⟩], ws⟩ as
      ⟨c.afterNode id { n with store := n.gossip.handleReplication H n.ring n.store es } [], l,
        ws⟩ := by
  induction es generalizing c n with
  | nil =>
      have hrun := runs_turn (H := H) (C := C) (g := ⟨id, none, none, [], true⟩) l ws hn rfl
      rw [Option.toList_none, List.append_nil] at hrun
      exact ⟨_, hrun⟩
  | cons e es ih =>
      rw [Handler.handleReplication]
      split
      next hrep =>
        obtain ⟨as, hrun⟩ := ih (getElem?_afterNode c id
          { n with store := (n.store.setWithVersion e.key e.entry).1 } [])
        rw [afterNode_afterNode] at hrun
        exact ⟨_, (runs_merge l ws hn hrep).append hrun⟩
      next hrep =>
        obtain ⟨as, hrun⟩ := ih hn
        exact ⟨_, (runs_check_turn (g := ⟨id, none, none, e :: es, true⟩) l ws hn
          (if_neg hrep)).append hrun⟩

/-- The answer to a request. -/
def answerPackets (C : Pb.Codec) (n : Node) (requestId senderId : Bytes) (success : Bool) :
    List Packet :=
  (C.marshal (.replicateResp ⟨requestId, n.gossip.nodeID, success⟩)).toList.map
    fun buf => ⟨senderId, .message, buf⟩

/-- A request that is applied without interruption. -/
theorem exists_request_run (hn : c.nodes[id]? = some n) (requestId senderId : Bytes)
    (es : List Pb.Entry) :
    ∃ as, Runs H C ⟨c, l ++ [⟨id, some (requestId, senderId), none, es, true⟩], ws⟩ as
      ⟨c.afterNode id { n with store := (n.gossip.applyRequest H n.ring n.store es).1 }
        (answerPackets C n requestId senderId (n.gossip.applyRequest H n.ring n.store es).2),
        l, ws⟩ := by
  have hanswer : ∀ {c : State} {n : Node} (success : Bool), c.nodes[id]? = some n →
      Runs H C ⟨c, l ++ [⟨id, some (requestId, senderId), none, [], success⟩], ws⟩ [.apply l.length]
        ⟨c.afterNode id n (answerPackets C n requestId senderId success), l, ws⟩ := by
    intro c n success hn
    have hrun := runs_turn (H := H) (C := C)
      (g := ⟨id, some (requestId, senderId), none, [], success⟩) l ws hn rfl
    rwa [Option.toList_none, List.append_nil] at hrun
  induction es generalizing c n with
  | nil => exact ⟨_, hanswer true hn⟩
  | cons e es ih =>
      rw [Handler.applyRequest]
      split
      next hrep =>
        obtain ⟨as, hrun⟩ := ih (getElem?_afterNode c id
          { n with store := (n.store.setWithVersion e.key e.entry).1 } [])
        rw [afterNode_afterNode] at hrun
        exact ⟨_, (runs_merge l ws hn hrep).append hrun⟩
      next hrep =>
        exact ⟨_, (runs_check_turn (g := ⟨id, some (requestId, senderId), none, e :: es, true⟩) l ws
          hn (if_neg hrep)).append (hanswer false hn)⟩

theorem runs_take {p : Packet} (hp : p ∈ c.network) (hn : c.nodes[p.dst]? = some n) {g : Applying}
    (hg : Applying.ofPacket C p = some g) : Runs H C ⟨c, l, ws⟩ [.take p] ⟨c, l ++ [g], ws⟩ := by
  have hok : p ∈ c.network ∧ (c.nodes[p.dst]?).isSome := ⟨hp, by simp [hn]⟩
  refine .single trivial ?_
  simp only [step, if_pos hok, hg, Option.map_some]

/-- A packet that is handled without interruption. -/
theorem exists_deliver_threads {p : Packet} (hp : p ∈ c.network) (hn : c.nodes[p.dst]? = some n)
    {g : Applying} (hg : Applying.ofPacket C p = some g) :
    ∃ as, Runs H C ⟨c, l, ws⟩ as
      ⟨c.afterNode p.dst (n.receive H C p).1 (n.receive H C p).2, l, ws⟩ := by
  have htake := runs_take (H := H) l ws hp hn hg
  unfold Applying.ofPacket at hg
  split at hg
  next entries hun =>
    obtain rfl := Option.some.inj hg
    obtain ⟨as, hrun⟩ := exists_batch_run (H := H) (C := C) l ws hn entries
    refine ⟨.take p :: as, htake.append ?_⟩
    cases hkind : p.kind with
    | message =>
        simp only [Node.receive, hkind, Node.handleMessage, hun]
        exact hrun
    | state =>
        simp only [Node.receive, hkind, Handler.handleMergeRemoteState, hun]
        exact hrun
  next req hun hkind =>
    obtain rfl := Option.some.inj hg
    obtain ⟨as, hrun⟩ := exists_request_run (H := H) (C := C) l ws hn req.requestId req.senderId
      req.entries
    refine ⟨.take p :: as, htake.append ?_⟩
    simp only [Node.receive, hkind, Node.handleMessage, hun]
    exact hrun
  next => cases hg

/-- A write whose keys are all the node's own looks them up one after the other. -/
theorem exists_check_run (hn : c.nodes[id]? = some n) (w : Write) {keys : List Bytes}
    (hkeys : ∀ key ∈ keys, redirect H n.ring n.gossip.nodeID key = none) :
    ∃ as, Runs H C ⟨c, l, ws ++ [⟨id, w, keys⟩]⟩ as ⟨c, l, ws ++ [⟨id, w, []⟩]⟩ := by
  induction keys with
  | nil => exact ⟨[], .nil _⟩
  | cons key keys ih =>
      obtain ⟨hkey, hrest⟩ := List.forall_mem_cons.1 hkeys
      obtain ⟨as, hrun⟩ := ih hrest
      refine ⟨.check ws.length :: as, .cons trivial ?_ hrun⟩
      simp only [step, List.getElem?_concat_length, Option.bind_some, hn, onCheck, hkey, putAt_last,
        Option.toList_some]

/-- A write that is checked and stored without interruption. -/
theorem exists_write_run (hn : c.nodes[id]? = some n) (w : Write)
    (hkeys : ∀ key ∈ w.keys, redirect H n.ring n.gossip.nodeID key = none)
    (hclock : n.store.clock.toInt + w.keys.eraseDups.length ≤ Int64.maxValue.toInt)
    (order : List (Bytes × Entry)) {c' : State} (hissue : w.issue c id n order = some c') :
    ∃ as, Runs H C ⟨c, l, ws⟩ as ⟨c', l, ws⟩ := by
  have haccept : Runs H C ⟨c, l, ws⟩ [.accept id w] ⟨c, l, ws ++ [⟨id, w, w.keys⟩]⟩ := by
    refine .single trivial ?_
    simp only [step, hn, Option.map_some]
  obtain ⟨as, hcheck⟩ := exists_check_run (C := C) l ws hn w hkeys
  have hstore : Runs H C ⟨c, l, ws ++ [⟨id, w, []⟩]⟩ [.store ws.length order] ⟨c', l, ws⟩ := by
    refine .single ?_ ?_
    · intro w' hw' n' hn'
      rw [Option.mem_def, List.getElem?_concat_length, Option.some.injEq] at hw'
      subst hw'
      rw [Option.mem_def, hn, Option.some.injEq] at hn'
      subst hn'
      exact hclock
    · simp only [step, List.getElem?_concat_length, Option.bind_some, hn, onStore, hissue,
        Option.map_some, putAt_last, Option.toList_none, List.append_nil]
  exact ⟨_, haccept.append (hcheck.append hstore)⟩

/-- A step of the cluster is a run in which one goroutine does all that it has to do. -/
theorem exists_run_of_step {a : Action} {c' : State} (hov : c.NoOverflow a)
    (hstep : c.step H C a = some c') : ∃ as, Runs H C ⟨c, l, ws⟩ as ⟨c', l, ws⟩ := by
  by_cases hlock : a.oneLock C = true
  · refine ⟨[.cluster a], .single hov ?_⟩
    simp only [step, if_pos hlock, hstep, Option.map_some]
  · cases a with
    | set id key value =>
        cases move_of_step hstep with
        | node _ _ _ _ _ hmove => cases hmove
        | set _ _ _ n hn howner =>
            have hclock := hov n hn
            refine exists_write_run l ws hn (.set key value) ?_ ?_ [] rfl
            · simpa [Write.keys] using howner
            · simpa [Write.keys, List.eraseDups_cons] using hclock
    | del id keys order =>
        obtain ⟨n, hn, hdel⟩ := Option.bind_eq_some_iff.1 hstep
        refine exists_write_run l ws hn (.del keys) (owners_of_del hn hstep) (hov n hn) order ?_
        unfold State.execDel at hdel
        split at hdel
        · cases hdel
        · exact hdel
    | deliver p =>
        cases move_of_step hstep with
        | node _ n _ ps hn hmove =>
            cases hmove with
            | deliver _ hp hdst =>
                subst hdst
                obtain ⟨g, hg⟩ := Option.ne_none_iff_exists'.1 fun hnone =>
                  hlock (Option.isNone_iff_eq_none.2 hnone)
                exact exists_deliver_threads l ws hp hn hg
    | _ => exact absurd rfl hlock

end Uninterrupted

/-- **The cluster model is the part of the behaviour between the locks in which no goroutine is
interrupted.** Every run of it is a run of the goroutines that ends in the same state. -/
theorem runs_threads {c c' : State} {as : List Action} (h : c.Runs H C as c') (l : List Applying)
    (ws : List Writing) : ∃ bs, Runs H C ⟨c, l, ws⟩ bs ⟨c', l, ws⟩ := by
  induction h with
  | nil => exact ⟨[], .nil _⟩
  | cons hov hstep _ ih =>
      obtain ⟨bs₁, h₁⟩ := exists_run_of_step l ws hov hstep
      obtain ⟨bs₂, h₂⟩ := ih
      exact ⟨_, h₁.append h₂⟩

/-! ## Durability -/

/-- **Acknowledged writes are durable between the locks, too.** When a call has returned nil on a
node that is in its own replica set, `w` distinct members of that set hold its entry or newer ones,
and go on to do so, however the goroutines of the nodes are interleaved at their locks. -/
theorem durable_between_locks {s₀ s₁ : Threads} {as : List ThreadAction}
    (h₀ : s₀.cluster.Initial H) (happlying : s₀.applying = []) (h₁ : Runs H C s₀ as s₁) {r : Ack}
    (hr : r ∈ s₁.cluster.acks) (hself : r.node ∈ replicaIDs H r.ring r.key r.rf) :
    ∃ Q : List Bytes, Q.Nodup ∧ r.w ≤ Q.length ∧
      ∀ id ∈ Q, id ∈ replicaIDs H r.ring r.key r.rf ∧
        ∀ (bs : List ThreadAction) (s₂ : Threads), Runs H C s₁ bs s₂ →
          s₂.cluster.HeldBy id r.key r.entry := by
  have hI : s₁.Inv H C := inv_run h₁ ⟨State.inv_initial h₀, by simp [happlying]⟩
  obtain ⟨Q, hnodup, hw, hQ⟩ := (hI.cluster.ack r hr).exists_quorum hself
  refine ⟨Q, hnodup, hw, ?_⟩
  intro id hid
  obtain ⟨hrep, hheld⟩ := hQ id hid
  refine ⟨hrep, ?_⟩
  intro bs s₂ h₂
  exact (grows_run h₂ hI).heldBy hheld

/-- A command does not notice what happens at other nodes. -/
theorem at_afterNode {c : State} {i : Nat} {cmd : Command} {n : Node} {id : Bytes}
    (h : c.At i cmd n) (m : Node) (ps : List Packet) (hne : cmd.node ≠ id) :
    (c.afterNode id m ps).At i cmd n :=
  ⟨h.command, (Dict.getElem?_insert_of_ne _ _ hne).trans h.node⟩

/-- A request of one entry, with a leave between the replica check and the merge. -/
theorem runs_leave_between {c : State} {n : Node} (ws : List Writing) {p : Packet}
    {requestId senderId : Bytes} {e : Pb.Entry} (hp : p ∈ c.network)
    (hn : c.nodes[p.dst]? = some n)
    (hg : Applying.ofPacket C p = some ⟨p.dst, some (requestId, senderId), none, [e], true⟩)
    (hrep : n.gossip.isReplica H n.ring e.key = true) (nodeID : Bytes) :
    Runs H C ⟨c, [], ws⟩
      [.take p, .apply 0, .cluster (.leave p.dst nodeID), .apply 0, .apply 0]
      ⟨c.afterNode p.dst
        { n with
          ring := n.ring.removeNode nodeID
          store := (n.store.setWithVersion e.key e.entry).1 }
        (answerPackets C n requestId senderId true), [], ws⟩ := by
  have htake := runs_take (H := H) [] ws hp hn hg
  have hcheck : Runs H C ⟨c, [] ++ [⟨p.dst, some (requestId, senderId), none, [e], true⟩], ws⟩
      [.apply 0] ⟨c, [] ++ [⟨p.dst, some (requestId, senderId), some e, [], true⟩], ws⟩ :=
    runs_check_turn (g := ⟨p.dst, some (requestId, senderId), none, [e], true⟩) [] ws hn
      (if_pos hrep)
  have hleave : Runs H C ⟨c, [] ++ [⟨p.dst, some (requestId, senderId), some e, [], true⟩], ws⟩
      [.cluster (.leave p.dst nodeID)]
      ⟨c.afterNode p.dst { n with ring := n.ring.removeNode nodeID } [],
        [] ++ [⟨p.dst, some (requestId, senderId), some e, [], true⟩], ws⟩ := by
    refine .single trivial ?_
    simp only [step, Action.oneLock, if_true, State.step, State.onNode, hn, Option.map_some]
    rfl
  -- the goroutine goes on under another ring
  have hmerge := runs_turn (H := H) (C := C)
    (g := ⟨p.dst, some (requestId, senderId), some e, [], true⟩) [] ws
    (getElem?_afterNode c p.dst { n with ring := n.ring.removeNode nodeID } []) rfl
  have hanswer := runs_turn (H := H) (C := C)
    (g := ⟨p.dst, some (requestId, senderId), none, [], true⟩) [] ws
    (getElem?_afterNode (c.afterNode p.dst { n with ring := n.ring.removeNode nodeID } []) p.dst
      { n with
        ring := n.ring.removeNode nodeID
        store := (n.store.setWithVersion e.key e.entry).1 } []) rfl
  rw [afterNode_afterNode, afterNode_afterNode] at hanswer
  rw [afterNode_afterNode] at hmerge
  exact htake.append (hcheck.append (hleave.append (hmerge.append hanswer)))

/-- `SET foo a` at `n1`, acknowledged by `n2` although `n2` was told between its replica check and
its merge that `n1` has left. -/
theorem durable_between_locks_pair :
    ∃ as p bs s r,
      Runs .xxhash Pb.protoCodec ⟨State.empty, [], []⟩ (as ++ [.take p, .apply 0,
        .cluster (.leave (str "n2") (str "n1")), .apply 0, .apply 0] ++ bs) s ∧
      r ∈ s.cluster.acks ∧ r.w = 2 ∧ r.key = str "foo" ∧
      ∃ Q : List Bytes, Q.Nodup ∧ r.w ≤ Q.length ∧
        ∀ id ∈ Q, id ∈ replicaIDs .xxhash r.ring r.key r.rf ∧
          ∀ (bs : List ThreadAction) (s₂ : Threads), Runs .xxhash Pb.protoCodec s bs s₂ →
            s₂.cluster.HeldBy id r.key r.entry := by
  obtain ⟨as, s, n, m, hrun, hpair, hsn, hsm, hreq, hacks⟩ :=
    State.exists_pair .xxhash Pb.protoCodec (a := str "n1") (b := str "n2") (by decide)
      (str "h1:6379") (str "h2:6379")
  have hready : State.Ready .xxhash s (str "n1") (str "n2") (str "foo") (str "a") (str "r1") n m :=
    State.ready_foo hpair (by rw [hsn]; decide) (by simp [hreq]) (by decide) (by decide)
  -- the request is on its way to `n2`
  obtain ⟨t₁, hrun₁, hat₁, hothers₁, -, hreq₁, -⟩ := hready.exists_lookup (C := Pb.protoCodec)
  obtain ⟨buf, t₂, hbuf, hrun₂, hat₂, hothers₂, hnet₂, -, -⟩ :=
    hready.exists_collecting (C := Pb.protoCodec) hat₁ hreq₁
  have hm₂ : t₂.nodes[str "n2"]? = some m := by
    rw [hothers₂ _ (by decide), hothers₁ _ (by decide)]
    exact hpair.peerNode
  have hp : ⟨str "n2", .message, buf⟩ ∈ t₂.network := by
    rw [hnet₂]
    exact List.mem_append_right _ (List.mem_singleton_self _)
  obtain ⟨cs, hbefore⟩ := runs_threads (hrun.append (hrun₁.append hrun₂)) [] []
  have hg : Applying.ofPacket Pb.protoCodec ⟨str "n2", .message, buf⟩ =
      some ⟨str "n2", some (str "r1", str "n1"), none,
        [Pb.Entry.of (str "foo", State.Ready.entry n (str "n1") (str "a"))], true⟩ := by
    rw [Applying.ofPacket, Pb.protoCodec.unmarshal_marshal _ _ hbuf]
  have hbetween := runs_leave_between [] hp hm₂ hg hready.replica (str "n1")
  -- the answer says that `n2` has the entry, and the call returns nil
  obtain ⟨buf', hbuf'⟩ := hready.exists_response (C := Pb.protoCodec)
  have hanswer : answerPackets Pb.protoCodec m (str "r1") (str "n1") true =
      [⟨str "n1", .message, buf'⟩] := by
    rw [answerPackets, hready.peerID, hbuf']
    rfl
  rw [hanswer] at hbetween
  have hat₃ := at_afterNode hat₂
    { m with
      ring := m.ring.removeNode (str "n1")
      store := (m.store.setWithVersion (str "foo") (State.Ready.entry n (str "n1") (str "a"))).1 }
    [⟨str "n1", .message, buf'⟩] (show str "n1" ≠ str "n2" by decide)
  obtain ⟨ds, u, hrun₃, -, -, -, hacks₃⟩ :=
    State.Ready.exists_acknowledged (H := .xxhash) hbuf' hat₃
    (List.mem_append_right _ (List.mem_singleton_self _))
  obtain ⟨es, hafter⟩ := runs_threads hrun₃ [] []
  have hrun' := (hbefore.append hbetween).append hafter
  have hr : ⟨str "n1", str "foo", State.Ready.entry n (str "n1") (str "a"), 2, n.gossip.replicaRF,
      n.ring⟩ ∈ u.acks := by
    rw [hacks₃]
    exact List.mem_append_right _ (List.mem_singleton_self _)
  have hself : str "n1" ∈ replicaIDs .xxhash n.ring (str "foo") n.gossip.replicaRF := by
    obtain ⟨h₁, h₂⟩ := Hashring.owners_foo hpair.joined.lists (by decide)
    rw [replicaIDs, hpair.joined.replicasFor h₁ h₂]
    exact List.mem_cons_self
  exact ⟨cs, _, es, _, _, hrun', hr, rfl, rfl,
    durable_between_locks (State.initial_empty _) rfl hrun' hr hself⟩

end Threads

end Hapartition
