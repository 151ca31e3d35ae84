import Hapartition.Cluster.Quorum
import Hapartition.Server.ReadBack

/-!
# Fully acknowledged writes survive removals

A write that every one of the `ReplicaRF` replicas of its key acknowledged is held by all of them
(`AckOk.all_replicas`). The owner of the key after fewer than `ReplicaRF` nodes have left the ring
is the first of its former owners that stayed, and at least one of the replicas stayed; so the new
owner is one of the replicas, and `GET` finds the write there (`removals_survived`).
-/

set_option autoImplicit false

namespace Hapartition

open Lib

/-! ## The owner after removals -/

namespace Hashring

variable {H : Hashing} {r : Hashring} {key : Bytes} {rf : Int}

/-- With fewer removals than replicas, a replica is the new owner. -/
theorem getNode_removeAll_mem (hs : r.Sorted) {F : List Bytes}
    (hF : F.length < (replicaIDs H r key rf).length) :
    ((r.removeAll F).getNode H key).1 ∈ replicaIDs H r key rf ∧
      ((r.removeAll F).getNode H key).1 ∉ F := by
  have hids : replicaIDs H r key rf =
      ((r.owners H key).take rf.toNat).map RingEntry.nodeID := by
    rw [replicaIDs, replicasFor_eq H r hs, List.map_map]
    rfl
  obtain ⟨id, hid, hnot⟩ := exists_mem_not_mem (nodup_replicasFor H r key rf) hF
  have hid' : id ∈ replicaIDs H r key rf := hid
  rw [hids] at hid'
  obtain ⟨e, he, rfl⟩ := List.mem_map.1 hid'
  obtain ⟨b, hb, hhead, hpb⟩ :=
    exists_head?_filter (p := fun e => decide (e.nodeID ∉ F)) ⟨e, he, decide_eq_true hnot⟩
  -- removing nodes filters the list of owners, so its new head is the owner
  have hget : ((r.removeAll F).getNode H key).1 = b.nodeID := by
    refine getNode_of_head? (sorted_removeAll hs F) ?_
    rw [owners_removeAll, hhead]
    rfl
  rw [hget, hids]
  exact ⟨List.mem_map_of_mem hb, of_decide_eq_true hpb⟩

end Hashring

namespace State

variable {C : Pb.Codec} {s : State}

/-! ## All replicas -/

/-- A call that waited for as many nodes as there are replicas has all of them. -/
theorem AckOk.all_replicas {H : Hashing} {r : Ack} (h : s.AckOk H r) (hw : r.w = r.rf)
    (hself : r.node ∈ replicaIDs H r.ring r.key r.rf) :
    r.rf ≤ (replicaIDs H r.ring r.key r.rf).length ∧
      ∀ id ∈ replicaIDs H r.ring r.key r.rf, s.HeldBy id r.key r.entry := by
  obtain ⟨Q, hnodup, hlen, hQ⟩ := h.exists_quorum hself
  -- distinct replicas, and as many as there are
  have hsub : Q.Subperm (replicaIDs H r.ring r.key r.rf) :=
    List.subperm_of_subset hnodup fun id hid => (hQ id hid).1
  have hle : (replicaIDs H r.ring r.key r.rf).length ≤ r.rf.toNat := by
    rw [replicaIDs, List.length_map]
    exact Hashring.length_replicasFor_le H r.ring r.key r.rf
  have hQlen := hsub.length_le
  have hperm : Q.Perm (replicaIDs H r.ring r.key r.rf) := hsub.perm_of_length_le (by omega)
  exact ⟨by omega, fun id hid => (hQ id (hperm.mem_iff.2 hid)).2⟩

/-- The owner after fewer than `ReplicaRF` removals is outside the removed nodes and holds the
write. -/
theorem AckOk.owner_after_removals {H : Hashing} {r : Ack} (h : s.AckOk H r) (hw : r.w = r.rf)
    (howner : (r.ring.getNode H r.key).1 = r.node) {F : List Bytes} (hF : (F.length : Int) < r.rf) :
    ((r.ring.removeAll F).getNode H r.key).1 ∉ F ∧
      s.HeldBy ((r.ring.removeAll F).getNode H r.key).1 r.key r.entry := by
  by_cases hne : r.ring.owners H r.key = []
  · -- a ring without nodes: the call counted nobody else, so nothing was removed
    obtain ⟨Q, -, hlen, hQ⟩ := h.quorum
    have hids : replicaIDs H r.ring r.key r.rf = [] := by
      rw [replicaIDs, Hashring.replicasFor_eq H r.ring h.sorted, hne]
      simp
    have hQnil : Q = [] := by
      apply List.eq_nil_iff_forall_not_mem.2
      intro id hid
      have := (hQ id hid).2.1
      simp [hids] at this
    have hFnil : F = [] := List.length_eq_zero_iff.1 (by
      rw [hQnil] at hlen
      simp only [List.length_nil] at hlen
      omega)
    subst hFnil
    refine ⟨List.not_mem_nil, ?_⟩
    show s.HeldBy (r.ring.getNode H r.key).1 r.key r.entry
    rw [howner]
    exact h.held
  · have hself : r.node ∈ replicaIDs H r.ring r.key r.rf := by
      rw [← howner]
      exact Hashring.getNode_mem_replicasFor H h.sorted (by omega) hne
    obtain ⟨hlen, hall⟩ := h.all_replicas hw hself
    have hfew : F.length < (replicaIDs H r.ring r.key r.rf).length := by omega
    obtain ⟨hmem, hnot⟩ := Hashring.getNode_removeAll_mem h.sorted hfew
    exact ⟨hnot, hall _ hmem⟩

/-! ## Reading at the new owner -/

/-- A node that owns the key by its own ring answers `GET` with what it holds. -/
theorem get_of_heldBy {R : Runtime} (O : Outcomes) (hI : s.Inv R.toHashing C) {id key : Bytes}
    {e : Entry} (hheld : s.HeldBy id key e) {n : Node} (hn : s.nodes[id]? = some n)
    (howner : (n.ring.getNode R.toHashing key).1 = id) :
    ∃ e', n.store.tree[key]? = some e' ∧ (e' = e ∨ newer e' e = true) ∧
      (n.server.dispatch R O (str "GET") (Server.getArgs key)).2 =
        if e'.deleted then nullBulkString else newBulkString e'.value := by
  obtain ⟨n', e', hn', hstored, hnewer⟩ := heldBy_iff.1 hheld
  obtain rfl := Option.some.inj (hn.symm.trans hn')
  have hself : n.server.nodeID = id := (hI.node id n hn).nodeID
  have hmoved : n.server.moved R key = none :=
    redirect_eq_none_iff.2 (.inr (howner.trans hself.symm))
  have hget : n.server.store.get key =
      if e'.deleted then none else some (e'.value, e'.version) := by
    show n.store.get key = _
    unfold Store.get
    rw [hstored]
  refine ⟨e', hstored, hnewer, ?_⟩
  rw [Server.dispatch_get, hmoved]
  dsimp only
  rw [Server.execGet, hget]
  cases e'.deleted <;> rfl

/-- A call with `w = ReplicaRF` returned nil on the owner of its key. Then after the removal of any
fewer than `ReplicaRF` nodes, in any order, the owner of the key is none of them, holds the entry or
a newer one in every later state, and answers `GET` with what it holds once its own ring names it
the owner. -/
theorem removals_survived {R : Runtime} {s₀ s₁ : State} {as : List Action}
    (h₀ : s₀.Initial R.toHashing) (h₁ : Runs R.toHashing C s₀ as s₁) {r : Ack} (hr : r ∈ s₁.acks)
    (hw : r.w = r.rf) (howner : (r.ring.getNode R.toHashing r.key).1 = r.node) {F : List Bytes}
    (hF : (F.length : Int) < r.rf) :
    ∃ owner, ((r.ring.removeAll F).getNode R.toHashing r.key).1 = owner ∧ owner ∉ F ∧
      ∀ (bs : List Action) (s₂ : State), Runs R.toHashing C s₁ bs s₂ →
        s₂.HeldBy owner r.key r.entry ∧
        ∀ (O : Outcomes) (n : Node), s₂.nodes[owner]? = some n →
          (n.ring.getNode R.toHashing r.key).1 = owner →
            ∃ e', n.store.tree[r.key]? = some e' ∧ (e' = r.entry ∨ newer e' r.entry = true) ∧
              (n.server.dispatch R O (str "GET") (Server.getArgs r.key)).2 =
                if e'.deleted then nullBulkString else newBulkString e'.value := by
  have hI₁ : s₁.Inv R.toHashing C := inv_run h₁ (inv_initial h₀)
  obtain ⟨hnot, hheld⟩ := (hI₁.ack r hr).owner_after_removals hw howner hF
  refine ⟨_, rfl, hnot, ?_⟩
  intro bs s₂ h₂
  have hheld₂ := (grows_run h₂ hI₁).heldBy hheld
  refine ⟨hheld₂, ?_⟩
  intro O n hn hserves
  exact get_of_heldBy O (inv_run h₂ hI₁) hheld₂ hn hserves

theorem removals_survived_pair :
    ∃ as s r, Runs .xxhash Pb.protoCodec empty as s ∧ r ∈ s.acks ∧ r.w = r.rf ∧
      ∃ owner, ((r.ring.removeAll [str "n1"]).getNode .xxhash r.key).1 = owner ∧
        owner ∉ [str "n1"] ∧
        ∀ (bs : List Action) (s₂ : State), Runs .xxhash Pb.protoCodec s bs s₂ →
          s₂.HeldBy owner r.key r.entry ∧
          ∀ (O : Outcomes) (n : Node), s₂.nodes[owner]? = some n →
            (n.ring.getNode .xxhash r.key).1 = owner →
              ∃ e', n.store.tree[r.key]? = some e' ∧ (e' = r.entry ∨ newer e' r.entry = true) ∧
                (n.server.dispatch .ascii O (str "GET") (Server.getArgs r.key)).2 =
                  if e'.deleted then nullBulkString else newBulkString e'.value := by
  obtain ⟨as, s, n, m, hrun, hpair, -, -, -, hacks⟩ := exists_foo_run
  obtain ⟨h₁, -⟩ := Hashring.owners_foo hpair.joined.lists (by decide)
  have hr : ⟨str "n1", str "foo", ⟨str "a", 1, str "n1", false⟩, 2, 2, n.ring⟩ ∈ s.acks := by
    rw [hacks]
    exact List.mem_singleton_self _
  refine ⟨as, s, _, hrun, hr, rfl, ?_⟩
  exact removals_survived (R := .ascii) (initial_empty _) hrun hr rfl
    (Hashring.getNode_of_head? hpair.joined.lists.sorted h₁) (F := [str "n1"]) (by simp)

end State

end Hapartition
