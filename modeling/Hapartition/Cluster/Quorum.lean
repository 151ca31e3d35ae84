import Hapartition.Cluster.Progress
import Hapartition.Gossip.Proto

/-!
# Acknowledged writes are durable on a quorum

A call of `ReplicateWithQuorum` that returned nil is on record with the ring that it read. Its
caller and the replicas that it counted hold the entry, or newer ones, from then on
(`acknowledged_durable`). Nothing is assumed of the order, the number or the loss of messages, of
the rings of the other nodes, or of what other commands do meanwhile.
-/

set_option autoImplicit false

namespace Hapartition

open Lib

namespace State

variable {H : Hashing} {C : Pb.Codec} {s : State}

/-- The caller and the nodes it counted, as one list. -/
theorem AckOk.exists_holders {r : Ack} (h : s.AckOk H r) :
    ∃ Q : List Bytes, Q.Nodup ∧ r.w ≤ Q.length ∧ r.node ∈ Q ∧
      ∀ id ∈ Q, (id = r.node ∨ id ∈ replicaIDs H r.ring r.key r.rf) ∧
        s.HeldBy id r.key r.entry := by
  obtain ⟨Q, hnodup, hw, hQ⟩ := h.quorum
  refine ⟨r.node :: Q, List.nodup_cons.2 ⟨?_, hnodup⟩, ?_, List.mem_cons_self, ?_⟩
  · -- the caller is not among the nodes it counted
    intro hmem
    exact (hQ r.node hmem).1 rfl
  · rw [List.length_cons]
    exact_mod_cast hw
  · intro id hid
    rcases List.mem_cons.1 hid with rfl | hmem
    · exact ⟨.inl rfl, h.held⟩
    · obtain ⟨-, hrep, hheld⟩ := hQ id hmem
      exact ⟨.inr hrep, hheld⟩

/-- They are all replicas when the caller is. -/
theorem AckOk.exists_quorum {r : Ack} (h : s.AckOk H r)
    (hself : r.node ∈ replicaIDs H r.ring r.key r.rf) :
    ∃ Q : List Bytes, Q.Nodup ∧ r.w ≤ Q.length ∧
      ∀ id ∈ Q, id ∈ replicaIDs H r.ring r.key r.rf ∧ s.HeldBy id r.key r.entry := by
  obtain ⟨Q, hnodup, hw, -, hQ⟩ := h.exists_holders
  refine ⟨Q, hnodup, hw, ?_⟩
  intro id hid
  obtain ⟨hrep, hheld⟩ := hQ id hid
  exact ⟨hrep.elim (fun heq => heq ▸ hself) fun hmem => hmem, hheld⟩

/-- When a call has returned nil on a node that is in its own replica set, `w` distinct members of
that set hold its entry or newer ones, and go on to do so in every later state. -/
theorem acknowledged_durable {s₀ s₁ : State} {as : List Action} (h₀ : s₀.Initial H)
    (h₁ : Runs H C s₀ as s₁) {r : Ack} (hr : r ∈ s₁.acks)
    (hself : r.node ∈ replicaIDs H r.ring r.key r.rf) :
    ∃ Q : List Bytes, Q.Nodup ∧ r.w ≤ Q.length ∧
      ∀ id ∈ Q, id ∈ replicaIDs H r.ring r.key r.rf ∧
        ∀ (bs : List Action) (s₂ : State), Runs H C s₁ bs s₂ → s₂.HeldBy id r.key r.entry := by
  have hI : s₁.Inv H C := inv_run h₁ (inv_initial h₀)
  obtain ⟨Q, hnodup, hw, hQ⟩ := (hI.ack r hr).exists_quorum hself
  refine ⟨Q, hnodup, hw, ?_⟩
  intro id hid
  obtain ⟨hrep, hheld⟩ := hQ id hid
  refine ⟨hrep, ?_⟩
  intro bs s₂ h₂
  exact (grows_run h₂ hI).heldBy hheld

/-! ## Two nodes -/

/-- Two joined nodes `n1` and `n2` are ready for a `SET` of `foo` at `n1`. -/
theorem ready_foo {n m : Node} {value requestID : Bytes}
    (hpair : JoinedPair .xxhash s (str "n1") (str "n2") n m)
    (hclock : n.store.clock.toInt + 1 ≤ Int64.maxValue.toInt)
    (hfresh : requestID ∉ s.requests.map Request.id) (hvalue : validUtf8 value = true)
    (hreq : validUtf8 requestID = true) :
    Ready .xxhash s (str "n1") (str "n2") (str "foo") value requestID n m := by
  obtain ⟨h₁, h₂⟩ := Hashring.owners_foo hpair.joined.lists (by decide)
  obtain ⟨h₁', h₂'⟩ := Hashring.owners_foo hpair.peerJoined.lists (by decide)
  refine hpair.joined.ready hpair.peerJoined hpair.node hpair.peerNode (by decide) h₁ h₂ h₁' h₂'
    hclock hfresh ?_
  simp only [List.forall_mem_cons, hvalue, hreq]
  decide

/-- The nodes `n1` and `n2` with an acknowledged `SET foo a`. -/
theorem exists_foo_run :
    ∃ as t n m, Runs .xxhash Pb.protoCodec empty as t ∧
      JoinedPair .xxhash t (str "n1") (str "n2") n m ∧
      n.store = (Store.new.setFrom (str "foo") (str "a") (str "n1")).1 ∧
      m.store = (Store.new.setWithVersion (str "foo") ⟨str "a", 1, str "n1", false⟩).1 ∧
      t.requests.map Request.id = [str "r1"] ∧
      t.acks = [⟨str "n1", str "foo", ⟨str "a", 1, str "n1", false⟩, 2, 2, n.ring⟩] := by
  obtain ⟨as, s, n, m, hrun, hpair, hsn, hsm, hreq, hacks⟩ :=
    exists_pair .xxhash Pb.protoCodec (a := str "n1") (b := str "n2") (by decide) (str "h1:6379")
      (str "h2:6379")
  have hready : Ready .xxhash s (str "n1") (str "n2") (str "foo") (str "a") (str "r1") n m :=
    ready_foo hpair (by rw [hsn]; decide) (by simp [hreq]) (by decide) (by decide)
  obtain ⟨bs, t, n', hrun', hpair', hwrote, hreq', hacks'⟩ :=
    hpair.exists_set_run (C := Pb.protoCodec) hready
  have hentry : Ready.entry n (str "n1") (str "a") = ⟨str "a", 1, str "n1", false⟩ := by
    unfold Ready.entry
    rw [hsn]
    rfl
  rw [hentry] at hpair' hreq' hacks'
  refine ⟨_, t, n', _, hrun.append hrun', hpair', ?_, ?_, ?_, ?_⟩
  · rw [hwrote.store, hsn]
  · rw [hsm]
  · rw [hreq', hreq]
    rfl
  · rw [hacks', hacks, hwrote.ring]
    rfl

theorem acknowledged_durable_pair :
    ∃ as s r, Runs .xxhash Pb.protoCodec empty as s ∧ r ∈ s.acks ∧ r.w = 2 ∧
      ∃ Q : List Bytes, Q.Nodup ∧ r.w ≤ Q.length ∧
        ∀ id ∈ Q, id ∈ replicaIDs .xxhash r.ring r.key r.rf ∧
          ∀ (bs : List Action) (s₂ : State), Runs .xxhash Pb.protoCodec s bs s₂ →
            s₂.HeldBy id r.key r.entry := by
  obtain ⟨as, s, n, m, hrun, hpair, -, -, -, hacks⟩ := exists_foo_run
  obtain ⟨h₁, h₂⟩ := Hashring.owners_foo hpair.joined.lists (by decide)
  have hr : ⟨str "n1", str "foo", ⟨str "a", 1, str "n1", false⟩, 2, 2, n.ring⟩ ∈ s.acks := by
    rw [hacks]
    exact List.mem_singleton_self _
  have hself : str "n1" ∈ replicaIDs .xxhash n.ring (str "foo") 2 := by
    rw [replicaIDs, Hashring.replicasFor_two hpair.joined.lists.sorted h₁ h₂]
    exact List.mem_cons_self
  exact ⟨as, s, _, hrun, hr, rfl, acknowledged_durable (initial_empty _) hrun hr hself⟩

end State

end Hapartition
