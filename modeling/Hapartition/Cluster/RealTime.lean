import Hapartition.Cluster.Quorum

/-!
# Real-time order of acknowledged writes

A node allocates versions from its own clock, and the clock has seen only what the node has merged.
Of two acknowledged writes of a key, the second wins over the first exactly when the clock of its
node had reached the version of the first, or stood one below it and the node ID decides
(`second_set_newer_iff`). A node that holds the first write has reached it. A node that joined after
the first write and became the owner of the key has not: it allocates a version that is too small,
the other replica reports success and keeps what it has, and the write is acknowledged although the
next anti-entropy round undoes it (`acknowledged_set_undone`).
-/

set_option autoImplicit false

namespace Hapartition

open Lib

/-- Without wrapping, the versions below the next one are those that the clock has reached. -/
theorem lt_add_one_iff_le {v c : Int64} (h : c.toInt + 1 ≤ Int64.maxValue.toInt) :
    v < c + 1 ↔ v ≤ c := by
  rw [Int64.lt_iff_toInt_lt, Int64.le_iff_toInt_le, toInt_add_one h]
  omega

/-- The comparison of entries of different nodes. -/
theorem newer_iff_of_origin_ne {a b : Entry} (h : a.origin ≠ b.origin) :
    newer a b = true ↔ b.version < a.version ∨ (b.version = a.version ∧ b.origin < a.origin) := by
  unfold newer
  by_cases hv : a.version = b.version
  · rw [if_neg (not_not.2 hv), if_pos h, decide_eq_true_eq, hv]
    simp
  · rw [if_pos hv, decide_eq_true_eq]
    simp [Ne.symm hv]

namespace State

variable {H : Hashing} {C : Pb.Codec} {s : State}

/-- The versions that a node holds are within its clock. -/
theorem Inv.version_le_clock (hI : s.Inv H C) {id k : Bytes} {n : Node} {e : Entry}
    (hn : s.nodes[id]? = some n) (hheld : s.HeldBy id k e) : e.version ≤ n.store.clock := by
  obtain ⟨n', hn', e', he', hle⟩ := hheld
  obtain rfl := Option.some.inj (hn.symm.trans hn')
  exact (Entry.version_le_of_le hle).trans ((hI.node id n hn).clockOk k e' he')

/-- The clock of the node has reached the write `r`, or the next version of the node wins over it by
the node IDs. -/
def Reached (n : Node) (id : Bytes) (r : Ack) : Prop :=
  r.entry.version ≤ n.store.clock ∨ (r.entry.version = n.store.clock + 1 ∧ r.node < id)

/-- A node that holds a write has reached it. -/
theorem reached_of_heldBy (hI : s.Inv H C) {id : Bytes} {n : Node} {r : Ack}
    (hn : s.nodes[id]? = some n) (hheld : s.HeldBy id r.key r.entry) : Reached n id r :=
  .inl (hI.version_le_clock hn hheld)

/-- The next entry of a node wins over an acknowledged one exactly when the node has reached it. -/
theorem newer_setFrom_iff (hI : s.Inv H C) {r : Ack} (hr : r ∈ s.acks) {id : Bytes} {n : Node}
    (hn : s.nodes[id]? = some n) (hov : n.store.clock.toInt + 1 ≤ Int64.maxValue.toInt)
    (value : Bytes) :
    newer ⟨value, n.store.clock + 1, id, false⟩ r.entry = true ↔ Reached n id r := by
  have hack := hI.ack r hr
  by_cases hid : r.node = id
  · -- the node's own write: its clock is past it
    have hle : r.entry.version ≤ n.store.clock := hI.version_le_clock hn (hid ▸ hack.held)
    refine iff_of_true (newer_iff_lt.2 (Entry.lt_of_version_lt ?_)) (.inl hle)
    exact (lt_add_one_iff_le hov).2 hle
  · -- another node's write: with equal versions the node IDs decide
    have hne : id ≠ r.entry.origin := by
      rw [hack.origin]
      exact Ne.symm hid
    rw [newer_iff_of_origin_ne hne, lt_add_one_iff_le hov, hack.origin]
    exact Iff.rfl

/-- A `SET` is issued in `s₁` at the node `id`, after the write `r` of the same key was
acknowledged, and is acknowledged in turn. Its entry wins over that of `r` exactly when the node had
reached `r` in the state before. In that case the entry of `r` never comes back: the node and the
replicas that acknowledged hold the second entry or newer ones in every later state. -/
theorem second_set_newer_iff {s₀ s₁ s₂ : State} {as bs : List Action} (h₀ : s₀.Initial H)
    (h₁ : Runs H C s₀ as s₁) {r : Ack} (hr : r ∈ s₁.acks) {id value : Bytes} {n : Node}
    (hn : s₁.nodes[id]? = some n) (h₂ : Runs H C s₁ (.set id r.key value :: bs) s₂) {r' : Ack}
    (hr' : r' ∈ s₂.acks) (hnode : r'.node = id) (hkey : r'.key = r.key)
    (hentry : r'.entry = (n.store.setFrom r.key value id).2) :
    (newer r'.entry r.entry = true ↔ Reached n id r) ∧
      (Reached n id r → ∃ Q : List Bytes, Q.Nodup ∧ r'.w ≤ Q.length ∧ id ∈ Q ∧
        ∀ x ∈ Q, ∀ (cs : List Action) (s₃ : State), Runs H C s₂ cs s₃ →
          ∃ m e, s₃.nodes[x]? = some m ∧ m.store.tree[r.key]? = some e ∧
            newer e r.entry = true) := by
  have hI₁ : s₁.Inv H C := inv_run h₁ (inv_initial h₀)
  have hI₂ : s₂.Inv H C := inv_run h₂ hI₁
  have hov : n.store.clock.toInt + 1 ≤ Int64.maxValue.toInt := by
    cases h₂ with
    | cons hov _ _ => exact hov n hn
  have hiff : newer r'.entry r.entry = true ↔ Reached n id r := by
    rw [hentry, Store.setFrom_snd]
    exact newer_setFrom_iff hI₁ hr hn hov value
  refine ⟨hiff, ?_⟩
  intro hreached
  obtain ⟨Q, hnodup, hw, hself, hQ⟩ := (hI₂.ack r' hr').exists_holders
  refine ⟨Q, hnodup, hw, hnode ▸ hself, ?_⟩
  intro x hx cs s₃ h₃
  have hheld := (grows_run h₃ hI₂).heldBy (hQ x hx).2
  obtain ⟨m, hm, e, he, hle⟩ := hheld
  refine ⟨m, e, hm, hkey ▸ he, newer_iff_lt.2 ?_⟩
  exact (newer_iff_lt.1 (hiff.2 hreached)).trans_le hle

/-- After `SET foo a`, the same node writes `foo` again. -/
theorem second_set_newer_iff_pair :
    ∃ as s₁ n r bs s₂ r', Runs .xxhash Pb.protoCodec empty as s₁ ∧ r ∈ s₁.acks ∧
      Runs .xxhash Pb.protoCodec s₁ (.set (str "n1") r.key (str "a2") :: bs) s₂ ∧ r' ∈ s₂.acks ∧
      (newer r'.entry r.entry = true ↔ Reached n (str "n1") r) ∧
      (Reached n (str "n1") r → ∃ Q : List Bytes, Q.Nodup ∧ r'.w ≤ Q.length ∧ str "n1" ∈ Q ∧
        ∀ x ∈ Q, ∀ (cs : List Action) (s₃ : State), Runs .xxhash Pb.protoCodec s₂ cs s₃ →
          ∃ m e, s₃.nodes[x]? = some m ∧ m.store.tree[r.key]? = some e ∧
            newer e r.entry = true) := by
  obtain ⟨as, s, n, m, hrun, hpair, hsn, -, hreq, hacks⟩ := exists_foo_run
  have hready : Ready .xxhash s (str "n1") (str "n2") (str "foo") (str "a2") (str "r2") n m :=
    ready_foo hpair (by rw [hsn]; decide) (by rw [hreq]; decide) (by decide) (by decide)
  obtain ⟨bs, t, n', hrun', -, -, -, hacks'⟩ := hpair.exists_set_run (C := Pb.protoCodec) hready
  have hr : ⟨str "n1", str "foo", ⟨str "a", 1, str "n1", false⟩, 2, 2, n.ring⟩ ∈ s.acks := by
    rw [hacks]
    exact List.mem_singleton_self _
  have hr' : ⟨str "n1", str "foo", Ready.entry n (str "n1") (str "a2"), 2, 2, n.ring⟩ ∈ t.acks := by
    rw [hacks']
    exact List.mem_append_right _ (List.mem_singleton_self _)
  have hentry : Ready.entry n (str "n1") (str "a2") =
      (n.store.setFrom (str "foo") (str "a2") (str "n1")).2 := (Store.setFrom_snd _ _ _ _).symm
  exact ⟨as, s, n, _, bs, t, _, hrun, hr, hrun', hr',
    second_set_newer_iff (initial_empty _) hrun hr hpair.node hrun' hr' rfl rfl hentry⟩

/-! ## A new owner

The node `n3` joins `n1` and `n2`. Its 171st virtual node is the nearest to `foo`. -/

theorem near_n3 : Hashring.hashKey .xxhash (str "foo") ≤
    Hashring.hashKey .xxhash (vnodeLabel (str "n3") 171) := by
  decide +kernel

theorem n3_le_n1 : Hashring.hashKey .xxhash (vnodeLabel (str "n3") 171) ≤
    Hashring.hashKey .xxhash (vnodeLabel (str "n1") 79) := by
  decide +kernel

theorem far_n1 : ∀ j < 256,
    ¬ (Hashring.hashKey .xxhash (str "foo") ≤
        Hashring.hashKey .xxhash (vnodeLabel (str "n1") j) ∧
      Hashring.hashKey .xxhash (vnodeLabel (str "n1") j) ≤
        Hashring.hashKey .xxhash (vnodeLabel (str "n3") 171)) := by
  decide +kernel

/-- On rings of the three nodes, the owners of `foo` are `n3` and then `n1`. -/
theorem owners_foo_joined {ring : Hashring} {ids : List Bytes} (h : ring.Lists .xxhash ids)
    (hperm : ids.Perm [str "n1", str "n2", str "n3"]) :
    (ring.owners .xxhash (str "foo")).head?.map RingEntry.nodeID = some (str "n3") ∧
      ((ring.removeNode (str "n3")).owners .xxhash (str "foo")).head?.map RingEntry.nodeID =
        some (str "n1") := by
  have hids : ∀ n, n ∈ ids ↔ n = str "n1" ∨ n = str "n2" ∨ n = str "n3" := by
    simp [hperm.mem_iff]
  constructor
  · refine h.head?_owners ((hids _).2 (.inr (.inr rfl))) (by omega) near_n3 ?_
    intro n hn hne j hj hbetween
    rcases (hids n).1 hn with rfl | rfl | rfl
    · exact far_n1 j hj hbetween
    · exact Hashring.far_n2 j hj ⟨hbetween.1, hbetween.2.trans n3_le_n1⟩
    · exact hne rfl
  · exact (Hashring.owners_foo (h.removeNode _) (hperm.filter _)).1

/-- The entry of the second write of `n1`. -/
def second : Entry := ⟨str "a2", 2, str "n1", false⟩

/-- The nodes `n1` and `n2` after two acknowledged writes of `foo` at `n1`. -/
theorem exists_foo_twice :
    ∃ as t n m, Runs .xxhash Pb.protoCodec empty as t ∧
      JoinedPair .xxhash t (str "n1") (str "n2") n m ∧
      n.store = ((Store.new.setFrom (str "foo") (str "a") (str "n1")).1.setFrom (str "foo")
        (str "a2") (str "n1")).1 ∧
      t.requests.map Request.id = [str "r1", str "r2"] ∧
      ∃ ring, ⟨str "n1", str "foo", second, 2, 2, ring⟩ ∈ t.acks := by
  obtain ⟨as, s, n, m, hrun, hpair, hsn, -, hreq, -⟩ := exists_foo_run
  have hready : Ready .xxhash s (str "n1") (str "n2") (str "foo") (str "a2") (str "r2") n m :=
    ready_foo hpair (by rw [hsn]; decide) (by rw [hreq]; decide) (by decide) (by decide)
  obtain ⟨bs, t, n', hrun', hpair', hwrote, hreq', hacks'⟩ :=
    hpair.exists_set_run (C := Pb.protoCodec) hready
  have hentry : Ready.entry n (str "n1") (str "a2") = second := by
    unfold Ready.entry
    rw [hsn]
    rfl
  rw [hentry] at hreq' hacks'
  refine ⟨_, t, n', _, hrun.append hrun', hpair', ?_, ?_, n.ring, ?_⟩
  · rw [hwrote.store, hsn]
  · rw [hreq', List.map_append, hreq]
    rfl
  · rw [hacks']
    exact List.mem_append_right _ (List.mem_singleton_self _)

/-- Then `n3` starts, and all three nodes put all three on their rings. -/
theorem exists_foo_joined :
    ∃ as t n o, Runs .xxhash Pb.protoCodec empty as t ∧
      t.nodes[str "n1"]? = some n ∧ t.nodes[str "n3"]? = some o ∧
      (∀ (x : Bytes) (nx : Node), t.nodes[x]? = some nx → ∃ ids, Joined .xxhash nx x ids ∧
        ids.Perm [str "n1", str "n2", str "n3"]) ∧
      n.store = ((Store.new.setFrom (str "foo") (str "a") (str "n1")).1.setFrom (str "foo")
        (str "a2") (str "n1")).1 ∧
      o.store = Store.new ∧ t.requests.map Request.id = [str "r1", str "r2"] ∧
      ∃ ring, ⟨str "n1", str "foo", second, 2, 2, ring⟩ ∈ t.acks := by
  obtain ⟨as, s, n, m, hrun, ⟨hn, hm, hjn, hjm, hothers⟩, hsn, hreq, ring, hacks⟩ :=
    exists_foo_twice
  have h₁₂ : str "n1" ≠ str "n2" := by decide
  have h₁₃ : str "n1" ≠ str "n3" := by decide
  have h₂₃ : str "n2" ≠ str "n3" := by decide
  obtain ⟨t₁, hrun₁, ho₁, hothers₁, hreq₁, hacks₁⟩ :=
    exists_start_run (H := .xxhash) (C := Pb.protoCodec) (hothers _ h₁₃.symm h₂₃.symm)
      (str "h3:6379") 2 2
  obtain ⟨t₂, hrun₂, hn₂, hothers₂, hreq₂, hacks₂⟩ :=
    exists_join_run (C := Pb.protoCodec) ((hothers₁ _ h₁₃).trans hn) (str "n3") (str "h3:6379")
  obtain ⟨t₃, hrun₃, hm₃, hothers₃, hreq₃, hacks₃⟩ :=
    exists_join_run (C := Pb.protoCodec)
      ((hothers₂ _ h₁₂.symm).trans ((hothers₁ _ h₂₃).trans hm)) (str "n3") (str "h3:6379")
  obtain ⟨t₄, hrun₄, ho₄, hothers₄, hreq₄, hacks₄⟩ :=
    exists_join_run (C := Pb.protoCodec)
      ((hothers₃ _ h₂₃.symm).trans ((hothers₂ _ h₁₃.symm).trans ho₁)) (str "n1") (str "h1:6379")
  obtain ⟨t₅, hrun₅, ho₅, hothers₅, hreq₅, hacks₅⟩ :=
    exists_join_run (C := Pb.protoCodec) ho₄ (str "n2") (str "h2:6379")
  have hn₅ := (hothers₅ _ h₁₃).trans ((hothers₄ _ h₁₃).trans ((hothers₃ _ h₁₂).trans hn₂))
  have hm₅ := (hothers₅ _ h₂₃).trans ((hothers₄ _ h₂₃).trans hm₃)
  refine ⟨_, t₅, _, _,
    hrun.append (hrun₁.append (hrun₂.append (hrun₃.append (hrun₄.append hrun₅)))), hn₅, ho₅, ?_,
    hsn, rfl, ?_, ring, ?_⟩
  · intro x nx hx
    by_cases hx₁ : x = str "n1"
    · subst hx₁
      obtain rfl := Option.some.inj (hn₅.symm.trans hx)
      exact ⟨_, hjn.join (str "n3") (str "h3:6379"), by decide⟩
    by_cases hx₂ : x = str "n2"
    · subst hx₂
      obtain rfl := Option.some.inj (hm₅.symm.trans hx)
      exact ⟨_, hjm.join (str "n3") (str "h3:6379"), by decide⟩
    by_cases hx₃ : x = str "n3"
    · subst hx₃
      obtain rfl := Option.some.inj (ho₅.symm.trans hx)
      exact ⟨_, ((joined_new .xxhash (str "n3") (str "h3:6379")).join (str "n1")
        (str "h1:6379")).join (str "n2") (str "h2:6379"), by decide⟩
    · rw [hothers₅ x hx₃, hothers₄ x hx₃, hothers₃ x hx₂, hothers₂ x hx₁, hothers₁ x hx₃,
        hothers x hx₁ hx₂] at hx
      cases hx
  · rw [hreq₅, hreq₄, hreq₃, hreq₂, hreq₁, hreq]
  · rw [hacks₅, hacks₄, hacks₃, hacks₂, hacks₁]
    exact hacks

/-- Every node has `w = ReplicaRF = 2` and lists the three nodes. The write of `second` at `n1` was
acknowledged. Then `SET foo b` at `n3`, which owns the key, is acknowledged with an entry that does
not win over `second`; the replica `n1` has kept `second`, and a push from it puts `second` in the
place of the later write at `n3`. -/
theorem acknowledged_set_undone :
    ∃ as s₁ r bs s₂ r' cs s₃ o, Runs .xxhash Pb.protoCodec empty as s₁ ∧
      (∀ (x : Bytes) (nx : Node), s₁.nodes[x]? = some nx → ∃ ids, Joined .xxhash nx x ids ∧
        ids.Perm [str "n1", str "n2", str "n3"]) ∧
      r ∈ s₁.acks ∧ r.key = str "foo" ∧ r.entry = second ∧
      Runs .xxhash Pb.protoCodec s₁ (.set (str "n3") (str "foo") (str "b") :: bs) s₂ ∧
      r' ∈ s₂.acks ∧ r'.node = str "n3" ∧ r'.key = str "foo" ∧
      r'.entry = ⟨str "b", 1, str "n3", false⟩ ∧ newer r'.entry r.entry = false ∧
      Runs .xxhash Pb.protoCodec s₂ cs s₃ ∧ s₃.nodes[str "n3"]? = some o ∧
      o.store.tree[str "foo"]? = some second := by
  obtain ⟨as, s, n, o, hrun, hn, ho, hjoined, hsn, hso, hreq, ring, hack⟩ := exists_foo_joined
  obtain ⟨ids, hjn, hids⟩ := hjoined _ n hn
  obtain ⟨ids', hjo, hids'⟩ := hjoined _ o ho
  obtain ⟨h₁, h₂⟩ := owners_foo_joined hjo.lists hids'
  obtain ⟨h₁', h₂'⟩ := owners_foo_joined hjn.lists hids
  have hready : Ready .xxhash s (str "n3") (str "n1") (str "foo") (str "b") (str "r3") o n :=
    hjo.ready hjn ho hn (by decide) h₁ h₂ h₁' h₂' (by rw [hso]; decide)
      (by rw [hreq]; decide) (by decide)
  obtain ⟨bs, t, o', hrun', ho', hwrote, hn', hothers', hreq', hacks'⟩ :=
    hready.exists_set_run (C := Pb.protoCodec)
  have hentry : Ready.entry o (str "n3") (str "b") = ⟨str "b", 1, str "n3", false⟩ := by
    unfold Ready.entry
    rw [hso]
    rfl
  rw [hentry] at hn' hacks'
  -- `n1` acknowledged the request without storing its entry, so its snapshot has `second`
  have hsnap :
      (n.store.setWithVersion (str "foo") ⟨str "b", 1, str "n3", false⟩).1.snapshot.toList =
        [(str "foo", second)] := by
    rw [hsn]
    decide +kernel
  obtain ⟨buf, hbuf⟩ :
      ∃ buf, Pb.protoCodec.marshal (.entryBatch [Pb.Entry.of (str "foo", second)]) = some buf :=
    Pb.Codec.exists_marshal (by decide)
  have hlocal : Handler.handleLocalState Pb.protoCodec
      (n.store.setWithVersion (str "foo") ⟨str "b", 1, str "n3", false⟩).1.snapshot.toList =
        some buf := by
    rw [hsnap]
    exact hbuf
  obtain ⟨v, hpush, ho''⟩ := exists_push_run (H := .xxhash) (C := Pb.protoCodec) hn' ho' hlocal
  refine ⟨as, s, _, bs, t, _, _, v, _, hrun, hjoined, hack, rfl, rfl, hrun',
    by rw [hacks']; exact List.mem_append_right _ (List.mem_singleton_self _), rfl, rfl, rfl, rfl,
    hpush, ho'', ?_⟩
  -- `n3` is a replica of the key, and `second` wins over its own write
  have hrep : o'.gossip.isReplica .xxhash o'.ring (str "foo") = true := by
    have hjo' := hjo.wrote hwrote
    rw [← hwrote.ring] at h₁ h₂
    rw [Handler.isReplica_iff, hjo'.replicasFor h₁ h₂, hjo'.nodeID]
    exact List.mem_cons_self
  have hmerge : o'.gossip.handleMergeRemoteState .xxhash Pb.protoCodec o'.ring o'.store buf =
      (o'.store.setWithVersion (str "foo") second).1 := by
    unfold Handler.handleMergeRemoteState
    rw [Pb.protoCodec.unmarshal_marshal _ _ hbuf]
    exact if_pos hrep
  show (o'.gossip.handleMergeRemoteState .xxhash Pb.protoCodec o'.ring o'.store buf).tree[_]? =
    some second
  rw [hmerge, hwrote.store, hso]
  rfl

end State

end Hapartition
