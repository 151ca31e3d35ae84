import Hapartition.Cluster.Provenance
import Hapartition.Cluster.Quorum

/-!
# Anti-entropy converges

Once clients have stopped writing and the rings stand still, no node makes up an entry: everything
that is merged from then on, in whatever order and however often, was held by some node before
(`Settled`). When, in addition, every node has got a later snapshot of every other delivered, each
replica of a key holds exactly the newest entry that any node had (`anti_entropy_converges`). A node
that is not a replica of the key keeps what it has: it rejects the entry in a batch, and the calls
that it still has in progress write only what its store has already.
-/

set_option autoImplicit false

namespace Hapartition

open Lib
open Std (ExtTreeMap)

/-- Steps without client writes, joins, leaves and new nodes: calls in progress, deliveries, and
anti-entropy. -/
def Action.Quiet : Action → Prop
  | .members _ _ => True
  | .call _ _ => True
  | .deliver _ => True
  | .exchange _ _ => True
  | .push _ _ _ => True
  | _ => False

/-- The node ships the packet `p`, a snapshot of its store, in this step. -/
def Node.Ships (H : Hashing) (C : Pb.Codec) (n : Node) (id : Bytes) (p : Packet) : Action → Prop
  | .exchange id' snap => id' = id ∧ p ∈ (n.exchange H C snap).2
  | .push id' peer snap => id' = id ∧ p ∈ (n.push C peer snap).2
  | _ => False

namespace State

variable {H : Hashing} {C : Pb.Codec} {s t : State} {id : Bytes} {n n' : Node}

/-- Along the run `as` from `s` to `t`, a snapshot of the store of `a` was taken and then delivered
to `b`. -/
def Exchanged (H : Hashing) (C : Pb.Codec) (s : State) (as : List Action) (t : State)
    (a b : Bytes) : Prop :=
  ∃ as₁ act as₂ p as₃ u n, as = as₁ ++ act :: (as₂ ++ .deliver p :: as₃) ∧ Runs H C s as₁ u ∧
    Runs H C u (act :: (as₂ ++ .deliver p :: as₃)) t ∧ u.nodes[a]? = some n ∧
    n.Ships H C a p act ∧ p.dst = b

/-- The entries that the nodes hold at `k`. -/
def entriesAt (s : State) (k : Bytes) : Set Entry :=
  { e | ∃ (id : Bytes) (n : Node), s.nodes[id]? = some n ∧ n.store.tree[k]? = some e }

/-! ## One quiet step -/

/-- What a quiet step does to a node: ring and factor stay, and what it merges was held by some node
before, and is for a key of the node or covered by its store already. -/
structure Settles (H : Hashing) (s : State) (n n' : Node) : Prop where
  ring : n'.ring = n.ring
  gossip : n'.gossip.nodeID = n.gossip.nodeID ∧ n'.gossip.replicaRF = n.gossip.replicaRF
  absorbs : ∃ es, Store.AbsorbsAll n.store es n'.store ∧ ∀ p ∈ es, s.Held p.1 p.2 ∧
    (n.gossip.isReplica H n.ring p.1 = true ∨ Covers n.store.tree[p.1]? p.2)

theorem Settles.refl (n : Node) : Settles H s n n :=
  ⟨rfl, ⟨rfl, rfl⟩, [], .nil _, by simp⟩

theorem fixed_of_quiet {a : Action} (hq : a.Quiet) : a.Fixed := by
  cases a with
  | start | join | leave | set | del => exact hq.elim
  | members | call | deliver | exchange | push => trivial

/-- The step lemma: after a quiet step every node was there before, and has settled. -/
theorem settles_step {a : Action} (hI : s.Inv H C) (hq : a.Quiet) (hstep : s.step H C a = some t)
    (hn' : t.nodes[id]? = some n') : ∃ n, s.nodes[id]? = some n ∧ Settles H s n n' := by
  cases move_of_step hstep with
  | start => exact hq.elim
  | set => exact hq.elim
  | del => exact hq.elim
  | node id₁ m m' ps hm hmove =>
      obtain ⟨⟨es, hg, hes⟩, -, -⟩ := lawful_of_nodeMove hI hm hmove
      have hsite := hmove.sameSite (fixed_of_quiet hq)
      rcases Dict.getElem?_insert_eq_some hn' with ⟨rfl, rfl⟩ | hold
      · refine ⟨m, hm, hsite.ring, ⟨hsite.nodeID, hsite.replicaRF⟩, es, hg.absorbs, ?_⟩
        intro p hp
        exact ⟨(hes p hp).1, .inl (hes p hp).2⟩
      · exact ⟨n', hold, .refl n'⟩
  | call i a c m e hc hm hmove =>
      obtain ⟨es, hg, hes⟩ :=
        (callLawful_of_callMove hI (hI.command c (List.mem_of_getElem? hc)) hm hmove).grows
      rcases Dict.getElem?_insert_eq_some hn' with ⟨rfl, rfl⟩ | hold
      · refine ⟨m, hm, hmove.sameSite.ring, ⟨hg.nodeID, hg.replicaRF⟩, es, hg.absorbs, ?_⟩
        intro p hp
        -- what a call writes locally its node holds already
        obtain ⟨m', hm', hcov⟩ := hes p hp
        obtain rfl := Option.some.inj (hm.symm.trans hm')
        exact ⟨⟨c.node, m, hm, hcov⟩, .inr hcov⟩
      · exact ⟨n', hold, .refl n'⟩

/-! ## Quiet runs -/

/-- What the nodes of `t` have become since `s`: rings and factors are the same, keys of other nodes
are untouched, and nobody has more than the newest entry of `s`. -/
structure Settled (H : Hashing) (s t : State) : Prop where
  node : ∀ (id : Bytes) (n' : Node), t.nodes[id]? = some n' → ∃ n, s.nodes[id]? = some n ∧
    n'.ring = n.ring ∧ n'.gossip.nodeID = n.gossip.nodeID ∧
    n'.gossip.replicaRF = n.gossip.replicaRF ∧
    ∀ k, ¬ n.gossip.isReplica H n.ring k = true → n'.store.tree[k]? = n.store.tree[k]?
  bounded : ∀ k, ∀ e ∈ t.entriesAt k, ∃ e₀ ∈ s.entriesAt k, e ≤ e₀

theorem Settled.refl (s : State) : Settled H s s :=
  ⟨fun _ n hn => ⟨n, hn, rfl, rfl, rfl, fun _ _ => rfl⟩, fun _ e he => ⟨e, he, le_rfl⟩⟩

theorem Settled.step {u : State} {a : Action} (h : Settled H s t) (hI : t.Inv H C) (hq : a.Quiet)
    (hstep : t.step H C a = some u) : Settled H s u := by
  constructor
  · intro id n'' hn''
    obtain ⟨n', hn', hring', ⟨hid', hrf'⟩, es, habs, hes⟩ := settles_step hI hq hstep hn''
    obtain ⟨n, hn, hring, hid, hrf, hkeep⟩ := h.node id n' hn'
    refine ⟨n, hn, hring'.trans hring, hid'.trans hid, hrf'.trans hrf, ?_⟩
    intro k hk
    rw [← hkeep k hk]
    refine habs.getElem?_of_covers fun p hp hpk => ?_
    -- not being a replica of `k`, the node merges at `k` only what it has
    subst hpk
    refine (hes p hp).2.resolve_left fun hrep => hk ?_
    rwa [Node.SameSite.isReplica_eq ⟨hring, hid, hrf⟩] at hrep
  · rintro k e ⟨id, n'', hn'', he⟩
    obtain ⟨n', hn', -, -, es, habs, hes⟩ := settles_step hI hq hstep hn''
    rcases habs.mem_or_mem he with hold | hnew
    · exact h.bounded k e ⟨id, n', hn', hold⟩
    · obtain ⟨id₁, m, hm, e', he', hle⟩ := (hes _ hnew).1
      obtain ⟨e₀, he₀, hle₀⟩ := h.bounded k e' ⟨id₁, m, hm, he'⟩
      exact ⟨e₀, he₀, hle.trans hle₀⟩

/-- The run lemma. -/
theorem settled_run {as : List Action} (hI : s.Inv H C) (hrun : Runs H C s as t)
    (hq : ∀ a ∈ as, a.Quiet) : Settled H s t := by
  -- a step settles only from a state with the invariant, so the two go together
  have key : t.Inv H C ∧ Settled H s t :=
    (hrun.and_of_forall hq).invariant (P := fun u => u.Inv H C ∧ Settled H s u)
      (fun hok hstep h => ⟨(inv_step hok.1 hstep h.1).2, h.2.step h.1 hok.2 hstep⟩)
      ⟨hI, .refl s⟩
  exact key.2

/-! ## Snapshots on their way -/

/-- A marshalled snapshot lists every entry of the store. -/
theorem exists_entries_of_serializeStore {snap : List (Bytes × Entry)} {m : Pb.GossipMessage}
    {buf : Bytes} (hsnap : snap.Perm n.store.snapshot.toList)
    (hm : Handler.serializeStore snap = some m) (hbuf : C.marshal m = some buf) {k : Bytes}
    {e : Entry} (he : n.store.tree[k]? = some e) :
    ∃ entries, C.unmarshal buf = some (.entryBatch entries) ∧ (k, e) ∈ Pb.pairs entries := by
  unfold Handler.serializeStore at hm
  split at hm
  · cases hm
  obtain rfl := Option.some.inj hm
  refine ⟨_, C.unmarshal_marshal _ _ hbuf, ?_⟩
  rw [Pb.pairs_map_of]
  exact hsnap.mem_iff.2 (ExtTreeMap.mem_toList_iff_getElem?_eq_some.2 he)

/-- The packet that a node ships lists every entry of its store. -/
theorem exists_entries_of_ships {a : Action} {p : Packet} (hn : s.nodes[id]? = some n)
    (hships : n.Ships H C id p a) (hstep : s.step H C a = some t) {k : Bytes} {e : Entry}
    (he : n.store.tree[k]? = some e) :
    ∃ entries, C.unmarshal p.buf = some (.entryBatch entries) ∧ (k, e) ∈ Pb.pairs entries := by
  cases move_of_step hstep with
  | node id' m n' ps hm hmove =>
      cases hmove with
      | exchange snap hsnap =>
          obtain ⟨rfl, hp⟩ := hships
          obtain rfl := Option.some.inj (hn.symm.trans hm)
          obtain ⟨q, hq, rfl⟩ := List.mem_map.1 hp
          obtain ⟨m, hm, hbuf⟩ := Handler.exchangeState_eq_some (Option.mem_toList.1 hq)
          exact exists_entries_of_serializeStore hsnap hm hbuf he
      | push peer snap hsnap =>
          obtain ⟨rfl, hp⟩ := hships
          obtain rfl := Option.some.inj (hn.symm.trans hm)
          obtain ⟨buf, hbuf, rfl⟩ := List.mem_map.1 hp
          obtain ⟨m, hm, hbuf'⟩ := Handler.handleLocalState_eq_some (Option.mem_toList.1 hbuf)
          exact exists_entries_of_serializeStore hsnap hm hbuf' he
      | _ => exact hships.elim
  | _ => exact hships.elim

/-- A replica that receives a batch holds its entries afterwards, in whichever way the batch
arrived. -/
theorem covers_receive {p : Packet} {entries : List Pb.Entry} (hclock : n.store.ClockOk)
    (hun : C.unmarshal p.buf = some (.entryBatch entries)) {q : Bytes × Entry}
    (hq : q ∈ Pb.pairs entries) (hrep : n.gossip.isReplica H n.ring q.1 = true) :
    Covers (n.receive H C p).1.store.tree[q.1]? q.2 := by
  have hstore : (n.receive H C p).1.store =
      n.gossip.handleReplication H n.ring n.store entries := by
    cases hk : p.kind with
    | message => simp only [Node.receive, hk, Node.handleMessage, hun]
    | state => simp only [Node.receive, hk, Handler.handleMergeRemoteState, hun]
  rw [hstore]
  exact (Handler.absorbsAll_handleReplication hclock entries).covers_of_mem
    (Handler.mem_accepted.2 ⟨hq, hrep⟩)

/-- An exchange carries what the sender held at the start over to a replica. -/
theorem Exchanged.heldBy {as : List Action} {a b : Bytes} (hI : s.Inv H C)
    (hq : ∀ act ∈ as, act.Quiet) (hex : Exchanged H C s as t a b) {k : Bytes} {e : Entry}
    (he : s.HeldBy a k e) {m : Node} (hm : t.nodes[b]? = some m)
    (hrep : m.gossip.isReplica H m.ring k = true) : Covers m.store.tree[k]? e := by
  obtain ⟨as₁, act, as₂, p, as₃, u, n, rfl, hrun₁, hrun₂, hn, hships, rfl⟩ := hex
  have hIu := inv_run hrun₁ hI
  -- the sender still holds the entry when it takes the snapshot
  obtain ⟨n', hn', e', he', hle⟩ := (grows_run hrun₁ hI).heldBy he
  obtain rfl := Option.some.inj (hn.symm.trans hn')
  cases hrun₂ with
  | cons hov hstep hrun₂ =>
  obtain ⟨entries, hun, hmem⟩ := exists_entries_of_ships hn hships hstep he'
  obtain ⟨v, hrunv, hrunt⟩ := hrun₂.of_append
  have hIv := inv_run (hrun₁.append (.cons hov hstep hrunv)) hI
  have hsettled : Settled H v t := settled_run hIv hrunt fun act' hact' => hq act' (by simp [hact'])
  obtain ⟨mv, hmv, hring, hid, hrf, -⟩ := hsettled.node _ m hm
  cases hrunt with
  | cons hov' hdeliver hrun₃ =>
  obtain ⟨-, hIw⟩ := inv_step hov' hdeliver hIv
  -- the receiver is a replica by the ring it had all along
  rw [Node.SameSite.isReplica_eq ⟨hring, hid, hrf⟩] at hrep
  have hcov := covers_receive (hIv.node _ mv hmv).clockOk hun hmem hrep
  obtain ⟨m', hm', hcov'⟩ : t.HeldBy p.dst k e' := by
    refine (grows_run hrun₃ hIw).heldBy ?_
    cases move_of_step hdeliver with
    | node id mv' _ ps hmv' hmove =>
        cases hmove with
        | deliver p hp hdst =>
            subst hdst
            obtain rfl := Option.some.inj (hmv.symm.trans hmv')
            exact ⟨_, by simp, hcov⟩
  obtain rfl := Option.some.inj (hm.symm.trans hm')
  exact hcov'.mono hle

/-! ## Convergence -/

/-- By its own ring, a node is a replica of the key exactly when the lookup lists its ID. -/
theorem Inv.isReplica_iff_mem (hI : s.Inv H C) (hn : s.nodes[id]? = some n) (k : Bytes) :
    n.gossip.isReplica H n.ring k = true ↔ id ∈ replicaIDs H n.ring k n.gossip.replicaRF := by
  rw [Handler.isReplica_iff, (hI.node id n hn).nodeID]
  rfl

/-- A replica that has got a snapshot from every node that had anything covers all that was there at
the start. -/
theorem covers_entriesAt {as : List Action} {b : Bytes} {m : Node} {k : Bytes} (hI : s.Inv H C)
    (hrun : Runs H C s as t) (hquiet : ∀ a ∈ as, a.Quiet)
    (hpairs : ∀ (a : Bytes) (na : Node), s.nodes[a]? = some na → a ≠ b → na.store.snapshot ≠ ∅ →
      Exchanged H C s as t a b)
    (hm : t.nodes[b]? = some m) (hrep : m.gossip.isReplica H m.ring k = true) :
    ∀ e ∈ s.entriesAt k, Covers m.store.tree[k]? e := by
  rintro e ⟨a, na, hna, he⟩
  by_cases hab : a = b
  · -- what the replica had itself it still has
    subst hab
    obtain ⟨m', hm', hcov⟩ := (grows_run hrun hI).heldBy ⟨na, hna, e, he, le_rfl⟩
    obtain rfl := Option.some.inj (hm.symm.trans hm')
    exact hcov
  · have hne : na.store.snapshot ≠ ∅ := by
      intro hempty
      have hnone : na.store.snapshot[k]? = none := by simp [hempty]
      exact absurd (he.symm.trans hnone) (by simp)
    exact (hpairs a na hna hab hne).heldBy hI hquiet ⟨na, hna, e, he, le_rfl⟩ hm hrep

/-- Nothing newer than the entries of the start is around; a register that covers all of them holds
the newest. -/
theorem Settled.isNewest (h : Settled H s t) {b : Bytes} {m : Node} {k : Bytes}
    (hm : t.nodes[b]? = some m) (hcovers : ∀ e ∈ s.entriesAt k, Covers m.store.tree[k]? e) :
    IsNewest m.store.tree[k]? (s.entriesAt k) := by
  refine ⟨fun e he => ?_, hcovers⟩
  obtain ⟨e₀, he₀, hle⟩ := h.bounded k e ⟨b, m, hm, he⟩
  obtain ⟨e', he', hle'⟩ := hcovers e₀ he₀
  obtain rfl := Option.some.inj (he.symm.trans he')
  rwa [le_antisymm hle hle']

/-- From any reachable state, after a run without client writes and ring changes in which every node
with a non-empty store had a snapshot delivered to every other node: a replica of a key holds
exactly the newest entry that any node held at the start, so all replicas agree, and a node that is
no replica of the key has what it had. Each node goes by its own ring; the rings need not agree. -/
theorem anti_entropy_converges {s₀ : State} {as₀ as : List Action} (h₀ : s₀.Initial H)
    (hreach : Runs H C s₀ as₀ s) (hrun : Runs H C s as t) (hquiet : ∀ a ∈ as, a.Quiet)
    (hpairs : ∀ (a b : Bytes) (na nb : Node), s.nodes[a]? = some na → s.nodes[b]? = some nb →
      a ≠ b → na.store.snapshot ≠ ∅ → Exchanged H C s as t a b)
    {b : Bytes} {m : Node} (hm : t.nodes[b]? = some m) (k : Bytes) :
    (b ∈ replicaIDs H m.ring k m.gossip.replicaRF →
      IsNewest m.store.tree[k]? (s.entriesAt k) ∧
      ∀ (b' : Bytes) (m' : Node), t.nodes[b']? = some m' →
        b' ∈ replicaIDs H m'.ring k m'.gossip.replicaRF → m'.store.tree[k]? = m.store.tree[k]?) ∧
    (b ∉ replicaIDs H m.ring k m.gossip.replicaRF →
      ∃ n, s.nodes[b]? = some n ∧ m.store.tree[k]? = n.store.tree[k]?) := by
  have hI := inv_run hreach (inv_initial h₀)
  have hIt := inv_run hrun hI
  have hsettled := settled_run hI hrun hquiet
  have hnewest : ∀ (b : Bytes) (m : Node), t.nodes[b]? = some m →
      b ∈ replicaIDs H m.ring k m.gossip.replicaRF →
        IsNewest m.store.tree[k]? (s.entriesAt k) := by
    intro b m hm hb
    obtain ⟨nb, hnb, -⟩ := hsettled.node b m hm
    refine hsettled.isNewest hm (covers_entriesAt hI hrun hquiet ?_ hm
      ((hIt.isReplica_iff_mem hm k).2 hb))
    intro a na hna hab hne
    exact hpairs a b na nb hna hnb hab hne
  constructor
  · intro hb
    refine ⟨hnewest b m hm hb, ?_⟩
    intro b' m' hm' hb'
    exact (hnewest b' m' hm' hb').unique (hnewest b m hm hb)
  · intro hb
    obtain ⟨n, hn, hring, hid, hrf, hkeep⟩ := hsettled.node b m hm
    refine ⟨n, hn, hkeep k fun hr => hb ((hIt.isReplica_iff_mem hm k).1 ?_)⟩
    rwa [Node.SameSite.isReplica_eq ⟨hring, hid, hrf⟩]

/-- Two nodes, the first of which has accepted `SET foo a` and asked nobody yet. -/
theorem exists_foo_accepted :
    ∃ as s n m, Runs .xxhash Pb.protoCodec empty as s ∧
      s.nodes[str "n1"]? = some n ∧ s.nodes[str "n2"]? = some m ∧
      Joined .xxhash m (str "n2") [str "n1", str "n2"] ∧
      n.store = (Store.new.setFrom (str "foo") (str "a") (str "n1")).1 ∧ m.store = Store.new ∧
      ∀ x, x ≠ str "n1" → x ≠ str "n2" → s.nodes[x]? = none := by
  obtain ⟨as, s, n, m, hrun, hpair, hsn, hsm, hreq, -⟩ :=
    exists_pair .xxhash Pb.protoCodec (a := str "n1") (b := str "n2") (by decide) (str "h1:6379")
      (str "h2:6379")
  have hready : Ready .xxhash s (str "n1") (str "n2") (str "foo") (str "a") (str "r1") n m :=
    ready_foo hpair (by rw [hsn]; decide) (by simp [hreq]) (by decide) (by decide)
  obtain ⟨t, hrun', hat, hothers', hnet, hreq', hacks'⟩ := hready.exists_lookup (C := Pb.protoCodec)
  refine ⟨_, t, _, m, hrun.append hrun', hat.node, ?_, hpair.peerJoined, ?_, hsm, ?_⟩
  · rw [hothers' _ (by decide)]
    exact hpair.peerNode
  · rw [hready.written_store, hsn]
  · intro x hx hx'
    rw [hothers' x hx, hpair.others x hx hx']

theorem anti_entropy_converges_pair :
    ∃ as₀ s as t m, Runs .xxhash Pb.protoCodec empty as₀ s ∧ Runs .xxhash Pb.protoCodec s as t ∧
      t.nodes[str "n2"]? = some m ∧
      ⟨str "a", 1, str "n1", false⟩ ∈ s.entriesAt (str "foo") ∧
      IsNewest m.store.tree[str "foo"]? (s.entriesAt (str "foo")) := by
  obtain ⟨as₀, s, n, m, hreach, hn, hm, hjm, hsn, hsm, hothers⟩ := exists_foo_accepted
  obtain ⟨h₁, h₂⟩ := Hashring.owners_foo hjm.lists (by decide)
  have htree : n.store.tree[str "foo"]? = some ⟨str "a", 1, str "n1", false⟩ := by
    rw [hsn]
    rfl
  -- the snapshot of `n1` is pushed to `n2` and delivered
  obtain ⟨buf, hbuf⟩ : ∃ buf, Handler.handleLocalState Pb.protoCodec n.store.snapshot.toList =
      some buf := by
    rw [hsn]
    exact Option.isSome_iff_exists.1 (by decide +kernel)
  obtain ⟨t, hrun, hm'⟩ := exists_push_run (H := .xxhash) (C := Pb.protoCodec) hn hm hbuf
  have hquiet : ∀ a ∈ [Action.push (str "n1") (str "n2") n.store.snapshot.toList,
      .deliver ⟨str "n2", .state, buf⟩], a.Quiet := by
    simp [Action.Quiet]
  have hpairs : ∀ (a b : Bytes) (na nb : Node), s.nodes[a]? = some na → s.nodes[b]? = some nb →
      a ≠ b → na.store.snapshot ≠ ∅ → Exchanged .xxhash Pb.protoCodec s
        [.push (str "n1") (str "n2") n.store.snapshot.toList, .deliver ⟨str "n2", .state, buf⟩] t
        a b := by
    intro a b na nb hna hnb hab hne
    have hmem : ∀ (x : Bytes) (nx : Node), s.nodes[x]? = some nx → x = str "n1" ∨ x = str "n2" := by
      intro x nx hx
      by_contra hno
      rw [not_or] at hno
      rw [hothers x hno.1 hno.2] at hx
      cases hx
    rcases hmem a na hna with rfl | rfl
    · obtain rfl := (hmem b nb hnb).resolve_left (Ne.symm hab)
      exact ⟨[], _, [], _, [], s, n, rfl, .nil s, hrun, hn,
        ⟨rfl, by simp only [Node.push, hbuf]; exact List.mem_singleton_self _⟩, rfl⟩
    · -- the store of `n2` is empty
      obtain rfl := Option.some.inj (hm.symm.trans hna)
      rw [hsm] at hne
      exact absurd rfl hne
  refine ⟨as₀, s, _, t, _, hreach, hrun, hm', ⟨_, n, hn, htree⟩, ?_⟩
  refine ((anti_entropy_converges (initial_empty _) hreach hrun hquiet hpairs hm' (str "foo")).1
    ?_).1
  show str "n2" ∈ (m.ring.replicasFor .xxhash (str "foo") m.gossip.replicaRF).map Replica.nodeID
  rw [hjm.replicasFor h₁ h₂]
  simp

end State

end Hapartition
