import Hapartition.Cluster.Identity
import Hapartition.Cluster.RealTime
import Hapartition.Cluster.Schedule
import Hapartition.Server.PlainMap
import Hapartition.Store.Merge

/-!
# The history of a key

As long as all nodes send the writes of a key to one node, its owner, the cluster is a map as far as
this key goes. Versions, tombstones and comparisons decide what replication makes of an entry; none
of them shows at the owner. The entries that the owner has written at the key ascend in the order of
the writes, every entry of the key that is anywhere in the cluster is one of them, and the owner
holds the last (`Owned`). A merge at the owner therefore changes nothing, however late or often a
packet comes, `GET` answers as the map that the clients have written (`clientMap`), and another node
holds something that this map once held (`owner_history`).

When anti-entropy has gone round after the last write, every replica holds what the owner holds, and
goes on holding it while rings change: whichever of them takes over the key answers as the map
(`failover_map`).
-/

set_option autoImplicit false

namespace Hapartition

open Lib
open Std (ExtTreeMap)

/-! ## The map that the clients write -/

/-- What `GET` shows of an entry. -/
def Entry.visible (e : Entry) : Option Bytes := (Store.shown e).map Prod.fst

theorem Store.visible_get (s : Store) (key : Bytes) :
    (s.get key).map Prod.fst = s.tree[key]?.bind Entry.visible := by
  cases h : s.tree[key]? with
  | none => simp [Store.get, h]
  | some e => simp [Store.get_of_getElem? h, Entry.visible]

/-- What a request writes at the key: a value, nothing, or not at all. -/
def KeyRequest.written (key : Bytes) : KeyRequest → Option (Option Bytes)
  | .set key' value => if key' = key then some (some value) else none
  | .get _ => none
  | .del keys => if keys.contains key then some none else none

theorem KeyRequest.getElem?_apply (m : PlainMap) (r : KeyRequest) (key : Bytes) :
    (r.apply m).1[key]? = (r.written key).getD m[key]? := by
  cases r with
  | set key' value =>
      rw [KeyRequest.apply, Dict.getElem?_insert, written]
      split <;> rfl
  | get => rfl
  | del keys =>
      simp only [KeyRequest.apply, Dict.getElem?_foldl_erase, written, List.contains_iff_mem]
      split <;> rfl

namespace Action

/-- The request of a client that a step executes. -/
def keyRequest : Action → Option KeyRequest
  | .set _ key value => some (.set key value)
  | .del _ keys _ => some (.del keys)
  | _ => none

/-- The step on the map. -/
def onMap (m : PlainMap) (a : Action) : PlainMap :=
  match a.keyRequest with
  | some r => (r.apply m).1
  | none => m

/-- What a step writes at the key. -/
def written (key : Bytes) (a : Action) : Option (Option Bytes) :=
  a.keyRequest.bind (KeyRequest.written key)

theorem getElem?_onMap (m : PlainMap) (a : Action) (key : Bytes) :
    (a.onMap m)[key]? = (a.written key).getD m[key]? := by
  unfold onMap written
  cases a.keyRequest with
  | none => rfl
  | some r => exact r.getElem?_apply m key

/-- Steps in which no client writes. -/
def NoWrite (a : Action) : Prop := a.keyRequest = none

end Action

/-- The map after the writes of a run, in their order. -/
def clientMap (as : List Action) : PlainMap := as.foldl Action.onMap ∅

/-- The map has at a key what was written there last. -/
theorem getElem?_clientMap (as : List Action) (key : Bytes) :
    (clientMap as)[key]? = (as.filterMap (Action.written key)).getLast?.join := by
  induction as using List.reverseRecOn with
  | nil => simp [clientMap]
  | append_singleton as a ih =>
      have hlast : clientMap (as ++ [a]) = a.onMap (clientMap as) := List.foldl_concat ..
      rw [hlast, Action.getElem?_onMap, ih, List.filterMap_append]
      cases h : a.written key <;> simp [h]

namespace State

variable {H : Hashing} {C : Pb.Codec} {s t : State} {a : Action} {as : List Action}
  {owner key : Bytes} {ws : List Entry} {e : Entry}

/-! ## One step -/

/-- What node `id` has at the key. -/
def register (s : State) (id key : Bytes) : Option Entry := s.nodes[id]?.bind (·.store.tree[key]?)

theorem register_eq {id : Bytes} {n : Node} (hn : s.nodes[id]? = some n) (key : Bytes) :
    s.register id key = n.store.tree[key]? := by
  rw [register, hn, Option.bind_some]

theorem present_of_register {id : Bytes} (h : s.register id key = some e) :
    Present C s (key, e) := by
  obtain ⟨n, hn, he⟩ := Option.bind_eq_some_iff.1 h
  exact .stored id n hn he

theorem covers_register_iff {id : Bytes} : Covers (s.register id key) e ↔ s.HeldBy id key e := by
  constructor
  · rintro ⟨e', he', hle⟩
    obtain ⟨n, hn, hstored⟩ := Option.bind_eq_some_iff.1 he'
    exact ⟨n, hn, e', hstored, hle⟩
  · rintro ⟨n, hn, hcov⟩
    rwa [register_eq hn]

theorem Grows.covers_register (h : Grows s t) {id : Bytes} (hcov : Covers (s.register id key) e) :
    Covers (t.register id key) e :=
  covers_register_iff.2 (h.heldBy (covers_register_iff.1 hcov))

/-- A step that allocates an entry at the key writes there what the entry shows. -/
theorem written_of_issued (h : (key, e) ∈ s.issued a) : a.written key = some e.visible := by
  cases a with
  | set id key' value =>
      simp only [issued] at h
      split at h
      next n hn =>
        rw [Store.setFrom_snd] at h
        obtain ⟨rfl, rfl⟩ := Prod.mk.inj (List.mem_singleton.1 h)
        exact if_pos rfl
      next => cases h
  | del id keys order =>
      cases hn : s.nodes[id]? with
      | none => simp [issued, hn] at h
      | some n =>
          have htomb : (n.store.del n.gossip.nodeID keys).2.2[key]? = some e :=
            (mem_issued_del hn).1 h
          have hmem : key ∈ keys := Store.mem_of_tombstones_del htomb
          obtain ⟨e', he', -, hdel⟩ := Store.exists_tombstone_del n.store n.gossip.nodeID hmem
          obtain rfl := Option.some.inj (htomb.symm.trans he')
          have hvisible : e.visible = none := by
            simp [Entry.visible, Store.shown, hdel]
          rw [hvisible]
          exact if_pos (List.contains_iff_mem.2 hmem)
  | start | members | join | leave | call | deliver | exchange | push => cases h

/-- A step that is taken writes at no key at which it allocates no entry. -/
theorem written_of_not_issued (hstep : s.step H C a = some t) (h : ∀ e, (key, e) ∉ s.issued a) :
    a.written key = none := by
  cases move_of_step hstep with
  | start => rfl
  | node id n n' ps hn hmove => cases hmove <;> rfl
  | call => rfl
  | set id key' value n hn howner =>
      refine if_neg ?_
      rintro rfl
      exact h _ (by rw [issued_set hn]; exact List.mem_singleton_self _)
  | del id keys p rest n hn hperm =>
      refine if_neg fun hmem => ?_
      obtain ⟨e, he, -⟩ := Store.exists_tombstone_del n.store n.gossip.nodeID
        (List.contains_iff_mem.1 hmem)
      exact h e ((mem_issued_del hn).2 he)

/-- The key is routed to one node, by all nodes. -/
def RoutedTo (H : Hashing) (s : State) (owner key : Bytes) : Prop :=
  ∀ (id : Bytes) (n : Node), s.nodes[id]? = some n → (n.ring.getNode H key).1 = owner

/-- The nodes stay where they are in a step that changes no ring. -/
theorem sameSite_of_step (hfixed : a.Fixed) (hstep : s.step H C a = some t) {id : Bytes} {n' : Node}
    (hn' : t.nodes[id]? = some n') : ∃ n, s.nodes[id]? = some n ∧ n.SameSite n' := by
  have hchange : ∀ {id₁ : Bytes} {m m' : Node}, s.nodes[id₁]? = some m →
      (s.nodes.insert id₁ m')[id]? = some n' → m.SameSite m' →
        ∃ n, s.nodes[id]? = some n ∧ n.SameSite n' := by
    intro id₁ m m' hm h hsite
    rcases Dict.getElem?_insert_eq_some h with ⟨rfl, rfl⟩ | hold
    · exact ⟨m, hm, hsite⟩
    · exact ⟨n', hold, .refl n'⟩
  cases move_of_step hstep with
  | start => exact hfixed.elim
  | node id n n' ps hn hmove => exact hchange hn hn' (hmove.sameSite hfixed)
  | set id key value n hn howner => exact hchange hn hn' ⟨rfl, rfl, rfl⟩
  | del id keys p rest n hn hperm => exact hchange hn hn' ⟨rfl, rfl, rfl⟩
  | call i b c n x hc hn hmove => exact hchange hn hn' hmove.sameSite

theorem RoutedTo.step (h : s.RoutedTo H owner key) (hfixed : a.Fixed)
    (hstep : s.step H C a = some t) : t.RoutedTo H owner key := by
  intro id n' hn'
  obtain ⟨n, hn, hsite⟩ := sameSite_of_step hfixed hstep hn'
  rw [hsite.ring]
  exact h id n hn

/-- Only the owner accepts writes. -/
theorem RoutedTo.eq_owner (h : s.RoutedTo H owner key) (howner : owner ≠ []) (hI : s.Inv H C)
    {id : Bytes} {n : Node} (hn : s.nodes[id]? = some n)
    (hkey : redirect H n.ring n.gossip.nodeID key = none) : id = owner := by
  rw [redirect_eq_none_iff, h id n hn, (hI.node id n hn).nodeID] at hkey
  exact (hkey.resolve_left howner).symm

/-- An entry that a step allocates at the key is allocated by the owner, above its clock, and is
what the owner has there afterwards. -/
theorem RoutedTo.of_issued (h : s.RoutedTo H owner key) (howner : owner ≠ []) (hI : s.Inv H C)
    (hov : s.NoOverflow a) (hstep : s.step H C a = some t) (he : (key, e) ∈ s.issued a) :
    t.register owner key = some e ∧ ∀ n, s.nodes[owner]? = some n → n.store.clock < e.version := by
  have hnode : ∀ {id : Bytes} {n : Node} {store : Store} {p : Bytes × Entry}
      {rest : List (Bytes × Entry)}, s.nodes[id]? = some n →
      redirect H n.ring n.gossip.nodeID key = none → store.tree[key]? = some e →
      n.store.clock < e.version → (s.issue id n store p rest).register owner key = some e ∧
        ∀ n, s.nodes[owner]? = some n → n.store.clock < e.version := by
    intro id n store p rest hn hkey hstored hlt
    obtain rfl := h.eq_owner howner hI hn hkey
    refine ⟨(register_eq ExtTreeMap.getElem?_insert_self key).trans hstored, ?_⟩
    intro n' hn'
    obtain rfl := Option.some.inj (hn.symm.trans hn')
    exact hlt
  cases move_of_step hstep with
  | start | call => cases he
  | node id n n' ps hn hmove => cases hmove <;> cases he
  | set id key' value n hn hkey =>
      rw [issued_set hn] at he
      obtain ⟨rfl, rfl⟩ := Prod.mk.inj (List.mem_singleton.1 he)
      have hlt : n.store.clock < (n.store.setFrom key value n.gossip.nodeID).2.version := by
        rw [Store.setFrom_snd]
        exact Store.clock_lt_add_one (hov n hn)
      refine hnode hn hkey ?_ hlt
      rw [Store.getElem?_setFrom, if_pos rfl]
      exact Store.merge_eq_some_of_clock_lt (hI.node id n hn).clockOk key hlt
  | del id keys p rest n hn hperm =>
      have htomb := (mem_issued_del hn).1 he
      obtain ⟨es, hdel⟩ :=
        Store.absorbsAll_del (hI.node id n hn).clockOk n.gossip.nodeID keys (hov n hn)
      exact hnode hn (owners_of_del hn hstep key (Store.mem_of_tombstones_del htomb))
        (Store.stored_del htomb) (hdel.fields key e htomb).2.2

/-! ## The history -/

/-- The entries `ws` are the history of the key: what the steps `as` have written there, in
ascending order. Whatever the cluster has of the key is one of them, and the owner has the last. -/
structure Owned (H : Hashing) (C : Pb.Codec) (owner key : Bytes) (s : State) (as : List Action)
    (ws : List Entry) : Prop where
  routed : s.RoutedTo H owner key
  written : ws.map Entry.visible = as.filterMap (Action.written key)
  ascending : ws.Pairwise (· < ·)
  present : ∀ e, Present C s (key, e) → e ∈ ws
  last : s.register owner key = ws.getLast?

namespace Owned

theorem covers (h : Owned H C owner key s as ws) (he : e ∈ ws) :
    Covers (s.register owner key) e := by
  rw [h.last]
  exact (isNewest_getLast? h.ascending).covers e he

/-- The owner shows what the map has. -/
theorem visible (h : Owned H C owner key s as ws) :
    ws.getLast?.bind Entry.visible = (clientMap as)[key]? := by
  rw [getElem?_clientMap, ← h.written, List.getLast?_map]
  cases ws.getLast? <;> rfl

/-- Where nothing is written at the key, the register of a node with the last write stays as it is:
what is merged into it is part of the history. -/
theorem last_of_grows {id : Bytes} (hascending : ws.Pairwise (· < ·))
    (hpresent : ∀ e, Present C t (key, e) → e ∈ ws) (hgrows : Grows s t)
    (hlast : s.register id key = ws.getLast?) : t.register id key = ws.getLast? := by
  refine IsNewest.unique ⟨fun e he => hpresent e (present_of_register he), ?_⟩
    (isNewest_getLast? hascending)
  intro e he
  refine hgrows.covers_register ?_
  rw [hlast]
  exact (isNewest_getLast? hascending).covers e he

/-- The step lemma. -/
theorem step (h : Owned H C owner key s as ws) (howner : owner ≠ []) (hI : s.Inv H C)
    (hov : s.NoOverflow a) (hfixed : a.Fixed) (hstep : s.step H C a = some t) :
    ∃ ws', Owned H C owner key t (as ++ [a]) ws' := by
  have hgrows : Grows s t := (inv_step hov hstep hI).1
  have hrouted := h.routed.step hfixed hstep
  by_cases hissued : ∃ e, (key, e) ∈ s.issued a
  · obtain ⟨e, he⟩ := hissued
    obtain ⟨hreg, hclock⟩ := h.routed.of_issued howner hI hov hstep he
    refine ⟨ws ++ [e], hrouted, ?_, ?_, ?_, ?_⟩
    · rw [List.map_append, List.filterMap_append, h.written]
      simp [written_of_issued he]
    · -- the history is at most at the clock of the owner, the new entry is above it
      refine List.pairwise_append.2 ⟨h.ascending, List.pairwise_singleton _ _, ?_⟩
      intro e' he' e'' he''
      obtain rfl := List.mem_singleton.1 he''
      obtain ⟨n, hn, hcov⟩ := covers_register_iff.1 (h.covers he')
      exact Entry.lt_of_version_lt
        ((hI.version_le_clock hn ⟨n, hn, hcov⟩).trans_lt (hclock n hn))
    · intro e' he'
      rcases present_of_step hstep he' with hold | hnew
      · exact List.mem_append_left _ (h.present e' hold)
      · -- one entry at each key
        have hreg' := (h.routed.of_issued howner hI hov hstep hnew).1
        obtain rfl := Option.some.inj (hreg.symm.trans hreg')
        exact List.mem_append_right _ (List.mem_singleton_self e)
    · rw [hreg, List.getLast?_concat]
  · have hnone : ∀ e, (key, e) ∉ s.issued a := not_exists.1 hissued
    have hpresent : ∀ e, Present C t (key, e) → e ∈ ws := by
      intro e he
      exact h.present e ((present_of_step hstep he).resolve_right (hnone e))
    refine ⟨ws, hrouted, ?_, h.ascending, hpresent,
      last_of_grows h.ascending hpresent hgrows h.last⟩
    rw [List.filterMap_append, h.written]
    simp [written_of_not_issued hstep hnone]

/-- The run lemma. -/
theorem run {bs : List Action}
    (hrun : Run (State.step H C) (fun s a => s.NoOverflow a ∧ a.Fixed) s bs t)
    (h : Owned H C owner key s as ws) (howner : owner ≠ []) (hI : s.Inv H C) :
    ∃ ws', Owned H C owner key t (as ++ bs) ws' := by
  induction hrun generalizing as ws with
  | nil s =>
      rw [List.append_nil]
      exact ⟨ws, h⟩
  | @cons s u t a bs hok hstep _ ih =>
      obtain ⟨ws', h'⟩ := h.step howner hI hok.1 hok.2 hstep
      obtain ⟨ws'', h''⟩ := ih h' (inv_step hok.1 hstep hI).2
      rw [List.append_assoc] at h''
      exact ⟨ws'', h''⟩

end Owned

theorem owned_initial (h₀ : s.Initial H) (hrouted : s.RoutedTo H owner key) :
    Owned H C owner key s [] [] where
  routed := hrouted
  written := rfl
  ascending := .nil
  present e he := by
    have hnil := (traced_initial h₀).present _ he
    cases hnil
  last := by
    cases hn : s.nodes[owner]? with
    | none => rw [register, hn, Option.bind_none, List.getLast?_nil]
    | some n =>
        rw [register_eq hn, h₀.store owner n hn]
        simp [Store.new]

theorem exists_owned {s₀ : State} (howner : owner ≠ []) (h₀ : s₀.Initial H)
    (hrouted : s₀.RoutedTo H owner key)
    (hrun : Run (State.step H C) (fun s a => s.NoOverflow a ∧ a.Fixed) s₀ as s) :
    s.Inv H C ∧ ∃ ws, Owned H C owner key s as ws := by
  refine ⟨hrun.invariant (fun hok hstep hI => (inv_step hok.1 hstep hI).2) (inv_initial h₀), ?_⟩
  exact (owned_initial h₀ hrouted).run hrun howner (inv_initial h₀)

variable {R : Runtime}

/-- A node that is not redirected answers `GET` with what its entry shows. -/
theorem get_of_redirect (O : Outcomes) {n : Node}
    (hkey : redirect R.toHashing n.ring n.gossip.nodeID key = none) :
    (n.server.dispatch R O (str "GET") (Server.getArgs key)).2 =
      .bulkString (n.store.tree[key]?.bind Entry.visible) := by
  have hmoved : n.server.moved R key = none := hkey
  rw [Server.dispatch_get, hmoved]
  dsimp only
  rw [Server.execGet_eq, ← Store.visible_get]
  rfl

/-- **At its owner a key is a plain register.** While no ring changes and all nodes route the key to
one node, the entries that the writes of the run have made ascend in the order of the writes; every
entry of the key, stored, in flight or in a command, is one of them; and the owner holds the last,
so that it answers `GET` as the map that the clients have written, acknowledged or not. -/
theorem owner_history {s₀ : State} (howner : owner ≠ []) (h₀ : s₀.Initial R.toHashing)
    (hrouted : s₀.RoutedTo R.toHashing owner key)
    (hrun : Run (State.step R.toHashing C) (fun s a => s.NoOverflow a ∧ a.Fixed) s₀ as s) :
    ∃ ws : List Entry, ws.map Entry.visible = as.filterMap (Action.written key) ∧
      ws.Pairwise (· < ·) ∧ (∀ e, Present C s (key, e) → e ∈ ws) ∧
      ∀ (O : Outcomes) (n : Node), s.nodes[owner]? = some n →
        n.store.snapshot[key]? = ws.getLast? ∧
        (n.server.dispatch R O (str "GET") (Server.getArgs key)).2 =
          .bulkString (clientMap as)[key]? := by
  obtain ⟨hI, ws, h⟩ := exists_owned howner h₀ hrouted hrun
  refine ⟨ws, h.written, h.ascending, h.present, ?_⟩
  intro O n hn
  have hkey : redirect R.toHashing n.ring n.gossip.nodeID key = none := by
    rw [redirect_eq_none_iff, h.routed owner n hn, (hI.node owner n hn).nodeID]
    exact .inr rfl
  have hlast : n.store.tree[key]? = ws.getLast? := (register_eq hn key).symm.trans h.last
  refine ⟨hlast, ?_⟩
  rw [get_of_redirect O hkey, hlast, h.visible]

/-- Both nodes of the pair route `foo` to `n1`. -/
theorem routedTo_knownPair : knownPair.RoutedTo .xxhash (str "n1") (str "foo") := by
  intro id n hn
  have hjoined : ∃ ids : List Bytes, Joined .xxhash n id ids ∧ ids.Perm [str "n1", str "n2"] := by
    rcases nodes_knownPair hn with ⟨rfl, rfl⟩ | ⟨rfl, rfl⟩
    · exact ⟨_, joined_knownNode _ _, by decide⟩
    · exact ⟨_, joined_knownNode _ _, by decide⟩
  obtain ⟨ids, hlists, hperm⟩ := hjoined
  exact Hashring.getNode_of_head? hlists.lists.sorted (Hashring.owners_foo hlists.lists hperm).1

theorem fixedRuns_knownWritten :
    Run (State.step .xxhash Pb.protoCodec) (fun s a => s.NoOverflow a ∧ a.Fixed) knownPair
      [.set (str "n1") (str "foo") (str "a")] knownWritten :=
  runs_knownWritten.and_of_forall fun a ha => by
    obtain rfl := List.mem_singleton.1 ha
    trivial

theorem clientMap_foo :
    (clientMap [.set (str "n1") (str "foo") (str "a")])[str "foo"]? = some (str "a") := by
  rw [getElem?_clientMap]
  rfl

/-- A second write at `n1`. -/
theorem exists_rewritten :
    ∃ t n, Run (State.step .xxhash Pb.protoCodec) (fun s a => s.NoOverflow a ∧ a.Fixed) knownPair
        [.set (str "n1") (str "foo") (str "a"), .set (str "n1") (str "foo") (str "b")] t ∧
      t.nodes[str "n1"]? = some n := by
  have hlists := (joined_knownNode (str "n1") (str "n2")).lists
  obtain ⟨h₁, -⟩ := Hashring.owners_foo hlists (by decide)
  have hkey : redirect .xxhash knownWriter.ring (str "n1") (str "foo") = none :=
    redirect_eq_none_iff.2 (.inr (Hashring.getNode_of_head? hlists.sorted h₁))
  refine ⟨_, _, fixedRuns_knownWritten.append (.single ⟨?_, trivial⟩
    (step_set writer_knownWritten hkey)), ExtTreeMap.getElem?_insert_self⟩
  intro n hn
  obtain rfl := Option.some.inj (writer_knownWritten.symm.trans hn)
  decide

/-- The pair after `SET foo a` and `SET foo b`. -/
theorem owner_history_pair :
    ∃ (t : State) (n : Node) (ws : List Entry), t.nodes[str "n1"]? = some n ∧
      ws.map Entry.visible = [some (str "a"), some (str "b")] ∧ ws.Pairwise (· < ·) ∧
      (∀ e, Present Pb.protoCodec t (str "foo", e) → e ∈ ws) ∧
      n.store.snapshot[str "foo"]? = ws.getLast? ∧
      ∀ O, (n.server.dispatch .ascii O (str "GET") (Server.getArgs (str "foo"))).2 =
        newBulkString (str "b") := by
  obtain ⟨t, n, hrun, hn⟩ := exists_rewritten
  obtain ⟨ws, hwritten, hascending, hpresent, hget⟩ := owner_history (R := .ascii) (by decide)
    initial_knownPair routedTo_knownPair hrun
  refine ⟨t, n, ws, hn, hwritten, hascending, hpresent, (hget .success n hn).1, fun O => ?_⟩
  rw [(hget O n hn).2, getElem?_clientMap]
  rfl

/-! ## Another node takes over -/

theorem issued_of_noWrite (h : a.NoWrite) : s.issued a = [] := by
  cases a with
  | set | del => cases h
  | start | members | join | leave | call | deliver | exchange | push => rfl

theorem noWrite_of_quiet (h : a.Quiet) : a.NoWrite := by
  cases a with
  | start | join | leave | set | del => exact h.elim
  | members | call | deliver | exchange | push => rfl

/-- Without writes no entry comes in. -/
theorem present_of_run (hrun : Runs H C s as t) (hno : ∀ a ∈ as, a.NoWrite) {p : Bytes × Entry}
    (hp : Present C t p) : Present C s p := by
  induction hrun with
  | nil => exact hp
  | cons hok hstep _ ih =>
      have hnext := ih (fun a ha => hno a (List.mem_cons_of_mem _ ha)) hp
      refine (present_of_step hstep hnext).resolve_right ?_
      rw [issued_of_noWrite (hno _ List.mem_cons_self)]
      exact List.not_mem_nil

/-- After anti-entropy has gone round, every replica of the key has the last write. -/
theorem Owned.last_of_exchanged {as₀ : List Action} (h : Owned H C owner key s as₀ ws)
    (hI : s.Inv H C) (hrun : Runs H C s as t) (hquiet : ∀ a ∈ as, a.Quiet) {b : Bytes} {m : Node}
    (hpairs : ∀ (a : Bytes) (na : Node), s.nodes[a]? = some na → a ≠ b → na.store.snapshot ≠ ∅ →
      Exchanged H C s as t a b)
    (hm : t.nodes[b]? = some m) (hb : b ∈ replicaIDs H m.ring key m.gossip.replicaRF) :
    t.register b key = ws.getLast? := by
  have hnewest : IsNewest (t.register b key) (s.entriesAt key) := by
    rw [register_eq hm]
    exact (settled_run hI hrun hquiet).isNewest hm (covers_entriesAt hI hrun hquiet hpairs hm
      (((inv_run hrun hI).isReplica_iff_mem hm key).2 hb))
  refine hnewest.unique ⟨?_, ?_⟩
  · intro e he
    obtain ⟨n, hn, hstored⟩ := Option.bind_eq_some_iff.1 (h.last.trans he)
    exact ⟨owner, n, hn, hstored⟩
  · rintro e ⟨id, n, hn, hstored⟩
    exact (isNewest_getLast? h.ascending).covers e (h.present e (.stored id n hn hstored))

/-- **A replica that takes over answers as the map.** Clients write while no ring changes and all
nodes route the key to its owner. Then they stop, and every node with a non-empty store has a
snapshot delivered to every other. From then on, nodes may join, leave and be added in any order: a
replica of the key keeps the entry that the owner had when the clients stopped, and if it is asked
for the key and does not redirect it answers `GET` as the map that they have written. -/
theorem failover_map {s₀ u : State} {as₀ bs : List Action} (howner : owner ≠ [])
    (h₀ : s₀.Initial R.toHashing) (hrouted : s₀.RoutedTo R.toHashing owner key)
    (hreach : Run (State.step R.toHashing C) (fun s a => s.NoOverflow a ∧ a.Fixed) s₀ as₀ s)
    (hrun : Runs R.toHashing C s as t) (hquiet : ∀ a ∈ as, a.Quiet) {b : Bytes} {m m' : Node}
    (hpairs : ∀ (a : Bytes) (na : Node), s.nodes[a]? = some na → a ≠ b → na.store.snapshot ≠ ∅ →
      Exchanged R.toHashing C s as t a b)
    (hm : t.nodes[b]? = some m) (hb : b ∈ replicaIDs R.toHashing m.ring key m.gossip.replicaRF)
    (hlater : Runs R.toHashing C t bs u) (hno : ∀ a ∈ bs, a.NoWrite)
    (hm' : u.nodes[b]? = some m') :
    m'.store.snapshot[key]? = s.register owner key ∧
      (redirect R.toHashing m'.ring b key = none → ∀ O : Outcomes,
        (m'.server.dispatch R O (str "GET") (Server.getArgs key)).2 =
          .bulkString (clientMap as₀)[key]?) := by
  obtain ⟨hI, ws, h⟩ := exists_owned howner h₀ hrouted hreach
  have hIt := inv_run hrun hI
  have hpresent : ∀ e, Present C u (key, e) → e ∈ ws := by
    intro e he
    exact h.present e (present_of_run hrun (fun a ha => noWrite_of_quiet (hquiet a ha))
      (present_of_run hlater hno he))
  -- what is merged after the last write is part of the history, so the replica keeps its entry
  have hlast : u.register b key = ws.getLast? :=
    Owned.last_of_grows h.ascending hpresent (grows_run hlater hIt)
      (h.last_of_exchanged hI hrun hquiet hpairs hm hb)
  have hkept : m'.store.tree[key]? = ws.getLast? := (register_eq hm' key).symm.trans hlast
  refine ⟨hkept.trans h.last.symm, ?_⟩
  intro hkey O
  rw [← ((inv_run hlater hIt).node b m' hm').nodeID] at hkey
  rw [get_of_redirect O hkey, hkept, h.visible]

theorem exists_leave_run {id : Bytes} {n : Node} (hn : s.nodes[id]? = some n) (nodeID : Bytes) :
    ∃ t, Runs H C s [.leave id nodeID] t ∧
      t.nodes[id]? = some { n with ring := n.ring.removeNode nodeID } := by
  have hstep : s.step H C (.leave id nodeID) = some
      { s with
        nodes := s.nodes.insert id { n with ring := n.ring.removeNode nodeID }
        network := s.network ++ [] } := by
    simp only [State.step, onNode, hn]
  exact ⟨_, .single trivial hstep, ExtTreeMap.getElem?_insert_self⟩

/-- `SET foo a` at `n1`, its store pushed to `n2`, and `n1` gone: `n2` has the entry and answers. -/
theorem failover_map_pair :
    ∃ as s m, Runs .xxhash Pb.protoCodec knownWritten as s ∧ s.nodes[str "n2"]? = some m ∧
      m.store.snapshot[str "foo"]? = some ⟨str "a", 1, str "n1", false⟩ ∧
      ∀ O, (m.server.dispatch .ascii O (str "GET") (Server.getArgs (str "foo"))).2 =
        newBulkString (str "a") := by
  obtain ⟨h₁, h₂⟩ := Hashring.owners_foo (joined_knownNode (str "n2") (str "n1")).lists (by decide)
  obtain ⟨buf, hbuf⟩ : ∃ buf, Handler.handleLocalState Pb.protoCodec
      knownWriter.store.snapshot.toList = some buf :=
    Option.isSome_iff_exists.1 (by decide +kernel)
  obtain ⟨t, hrun, hm⟩ := exists_push_run (H := .xxhash) (C := Pb.protoCodec) writer_knownWritten
    peer_knownWritten hbuf
  obtain ⟨u, hleave, hm'⟩ := exists_leave_run (H := .xxhash) (C := Pb.protoCodec) hm (str "n1")
  have hpairs : ∀ (a : Bytes) (na : Node), knownWritten.nodes[a]? = some na → a ≠ str "n2" →
      na.store.snapshot ≠ ∅ → Exchanged .xxhash Pb.protoCodec knownWritten
        [.push (str "n1") (str "n2") knownWriter.store.snapshot.toList,
          .deliver ⟨str "n2", .state, buf⟩] t a (str "n2") := by
    intro a na hna hne _
    obtain ⟨rfl, rfl⟩ := (nodes_knownWritten hna).resolve_right fun h => hne h.1
    exact ⟨[], _, [], _, [], knownWritten, knownWriter, rfl, .nil _, hrun, writer_knownWritten,
      ⟨rfl, by simp only [Node.push, hbuf]; exact List.mem_singleton_self _⟩, rfl⟩
  have hreplica : str "n2" ∈ replicaIDs .xxhash (knownNode (str "n2") (str "n1")).ring (str "foo")
      (knownNode (str "n2") (str "n1")).gossip.replicaRF := by
    rw [replicaIDs, (joined_knownNode (str "n2") (str "n1")).replicasFor h₁ h₂]
    simp
  have hno : ∀ a ∈ [Action.leave (str "n2") (str "n1")], a.NoWrite := by
    intro a ha
    obtain rfl := List.mem_singleton.1 ha
    rfl
  obtain ⟨hkept, hget⟩ := failover_map (R := .ascii) (by decide) initial_knownPair
    routedTo_knownPair fixedRuns_knownWritten hrun (by simp [Action.Quiet]) hpairs hm hreplica
    hleave hno hm'
  refine ⟨_, u, _, hrun.append hleave, hm', hkept, fun O => ?_⟩
  -- without `n1` the key is that of `n2`
  rw [hget ?_ O, clientMap_foo]
  · rfl
  · exact redirect_eq_none_iff.2 (.inr (Hashring.getNode_of_head?
      (Hashring.sorted_removeNode (joined_knownNode (str "n2") (str "n1")).lists.sorted _) h₂))

end State

end Hapartition
