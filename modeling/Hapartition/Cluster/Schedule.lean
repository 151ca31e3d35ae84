import Hapartition.Cluster.Convergence
import Hapartition.Gossip.AntiEntropy

/-!
# The anti-entropy loop suffices

A node sends its store to one peer in every tick of `antiEntropyLoop`, and the turn passes round the
sorted peers. In a cluster of `n` nodes that know each other, `n - 1` ticks of a node therefore
reach everybody, whatever else happens between them: deliveries, calls in progress, push-pull
exchanges, and new answers of the transport that list the members in another order. With as many
ticks of every node that has anything, and the packets of these ticks delivered, all replicas
converge (`ticks_converge`).

The strings in the stores must be UTF-8, or nothing is sent at all. They are as long as clients
write text (`Text`): no other entry can get into a store or onto the network.
-/

set_option autoImplicit false

namespace Hapartition

open Lib
open Std (ExtTreeMap)

/-- A client writes valid UTF-8 only, to a node with such an ID. -/
def Action.Text : Action → Prop
  | .set id key value => validUtf8 id = true ∧ validUtf8 key = true ∧ validUtf8 value = true
  | .del id keys _ => validUtf8 id = true ∧ ∀ key ∈ keys, validUtf8 key = true
  | _ => True

/-- What the transport reports from this step on is the given nodes. -/
def Action.Reports (ids : List Bytes) : Action → Prop
  | .members _ l => (l.map MemberInfo.name).Perm ids
  | _ => True

/-- A tick of the anti-entropy loop of the node. -/
def Action.isTick (id : Bytes) : Action → Bool
  | .exchange id' _ => decide (id' = id)
  | _ => false

namespace State

variable {H : Hashing} {C : Pb.Codec} {s t : State} {id : Bytes} {n n' : Node}

/-! ## Text -/

/-- Every entry that is anywhere in the cluster is valid UTF-8. -/
def Text (C : Pb.Codec) (s : State) : Prop :=
  ∀ p, Present C s p → (Pb.Entry.of p).Valid

theorem text_initial (h : s.Initial H) : s.Text C := by
  intro p hp
  cases hp with
  | stored id n hn he =>
      rw [h.store id n hn] at he
      simp [Store.new] at he
  | inFlight q hq => simp [h.network] at hq
  | command c hc => simp [h.commands] at hc

/-- An accepted write of text allocates text: the origin of its entries is the node. -/
theorem valid_of_issued {a : Action} (hI : s.Inv H C) (ha : a.Text) {p : Bytes × Entry}
    (hp : p ∈ s.issued a) : (Pb.Entry.of p).Valid := by
  cases a with
  | set id key value =>
      cases hn : s.nodes[id]? with
      | none => simp [issued, hn] at hp
      | some n =>
          rw [issued_set hn, (hI.node id n hn).nodeID, Store.setFrom_snd] at hp
          obtain rfl := List.mem_singleton.1 hp
          exact ⟨ha.2.1, ha.2.2, ha.1⟩
  | del id keys order =>
      cases hn : s.nodes[id]? with
      | none => simp [issued, hn] at hp
      | some n =>
          rw [mem_issued_del hn, (hI.node id n hn).nodeID] at hp
          have hkey := Store.mem_of_tombstones_del hp
          obtain ⟨i, hi⟩ := List.mem_iff_getElem?.1 (List.mem_eraseDups.2 hkey)
          have hentry := Option.some.inj (hp.symm.trans (Store.tombstone_del n.store id hi))
          rw [Pb.Entry.of, hentry]
          exact ⟨ha.2 _ hkey, rfl, ha.1⟩
  | _ => simp [issued] at hp

theorem text_step {a : Action} (hI : s.Inv H C) (ha : a.Text) (hstep : s.step H C a = some t)
    (h : s.Text C) : t.Text C := by
  intro p hp
  rcases present_of_step hstep hp with hold | hnew
  · exact h p hold
  · exact valid_of_issued hI ha hnew

/-- As long as clients write text, there is nothing but text. -/
theorem text_run {as : List Action} (hI : s.Inv H C) (hrun : Runs H C s as t)
    (has : ∀ a ∈ as, a.Text) (h : s.Text C) : t.Text C := by
  have key : t.Inv H C ∧ t.Text C :=
    (hrun.and_of_forall has).invariant (P := fun u => u.Inv H C ∧ u.Text C)
      (fun hok hstep h => ⟨(inv_step hok.1 hstep h.1).2, text_step h.1 hok.2 hstep h.2⟩) ⟨hI, h⟩
  exact key.2

/-! ## Ticks of one node -/

/-- The node has the members and the turn that it had. -/
structure SameTurn (n n' : Node) : Prop where
  members : n'.gossip.members = n.gossip.members
  pos : n'.gossip.antiEntropyPos = n.gossip.antiEntropyPos

theorem sameTurn_handleMessage (n : Node) (buf : Bytes) :
    SameTurn n (n.handleMessage H C buf).1 := by
  unfold Node.handleMessage
  split
  · exact ⟨rfl, rfl⟩
  · exact ⟨rfl, rfl⟩
  next resp _ =>
    unfold Handler.handleReplicateResponse
    dsimp only
    split <;> exact ⟨rfl, rfl⟩
  · exact ⟨rfl, rfl⟩

theorem sameTurn_receive (n : Node) (p : Packet) : SameTurn n (n.receive H C p).1 := by
  unfold Node.receive
  cases p.kind with
  | state => exact ⟨rfl, rfl⟩
  | message => exact sameTurn_handleMessage n p.buf

theorem sameTurn_of_callMove {c : Command} {used : List Bytes} {e : Effect}
    (hmove : CallMove H C n c used e) : SameTurn n e.node := by
  cases hmove <;> exact ⟨rfl, rfl⟩

theorem members_exchange (n : Node) (snap : List (Bytes × Entry)) :
    (n.exchange H C snap).1.gossip.members = n.gossip.members := by
  rw [Node.exchange]
  rcases Handler.exchangeState_cases C n.gossip n.gossip.members snap with
    hnone | ⟨m, peer, pos, -, -, hsome⟩
  · rw [hnone]
  · rw [hsome]

/-- What a quiet step does to the members and the turn of a node. -/
theorem turn_step {a : Action} (hq : a.Quiet) (hstep : s.step H C a = some t)
    (hn : s.nodes[id]? = some n) :
    ∃ n', t.nodes[id]? = some n' ∧
      ((∃ snap, a = .exchange id snap ∧ snap.Perm n.store.snapshot.toList ∧
          n' = (n.exchange H C snap).1) ∨
        (a.isTick id = false ∧ n'.gossip.antiEntropyPos = n.gossip.antiEntropyPos ∧
          (n'.gossip.members = n.gossip.members ∨ a = .members id n'.gossip.members))) := by
  -- the steps of the other nodes leave this one alone
  have hother : ∀ (id' : Bytes) (m : Node), id ≠ id' → (s.nodes.insert id' m)[id]? = some n :=
    fun id' m hne => (Dict.getElem?_insert_of_ne _ _ hne).trans hn
  cases move_of_step hstep with
  | start => exact hq.elim
  | set => exact hq.elim
  | del => exact hq.elim
  | call i a c m e hc hm hmove =>
      by_cases hid : id = c.node
      · subst hid
        obtain rfl := Option.some.inj (hn.symm.trans hm)
        have hsame := sameTurn_of_callMove hmove
        exact ⟨e.node, by simp [withEffect], .inr ⟨rfl, hsame.pos, .inl hsame.members⟩⟩
      · exact ⟨n, hother _ _ hid, .inr ⟨rfl, rfl, .inl rfl⟩⟩
  | node id' m m' ps hm hmove =>
      by_cases hid : id = id'
      · subst hid
        obtain rfl := Option.some.inj (hn.symm.trans hm)
        refine ⟨m', by simp, ?_⟩
        cases hmove with
        | join | leave => exact hq.elim
        | members l => exact .inr ⟨rfl, rfl, .inr rfl⟩
        | push => exact .inr ⟨rfl, rfl, .inl rfl⟩
        | exchange snap hsnap => exact .inl ⟨snap, rfl, hsnap, rfl⟩
        | deliver p hp hdst =>
            have hsame := sameTurn_receive (H := H) (C := C) n p
            exact .inr ⟨rfl, hsame.pos, .inl hsame.members⟩
      · refine ⟨n, hother _ _ hid, .inr ⟨?_, rfl, .inl rfl⟩⟩
        cases hmove with
        | exchange => exact decide_eq_false (Ne.symm hid)
        | _ => rfl

/-- A state in which the node `id` has something to send, its transport lists it together with the
peers `names`, and everything can be marshalled. -/
structure Fit (H : Hashing) (C : Pb.Codec) (s : State) (id : Bytes) (names : List Bytes)
    (n : Node) : Prop where
  inv : s.Inv H C
  text : s.Text C
  node : s.nodes[id]? = some n
  listed : (n.gossip.members.map MemberInfo.name).Perm (id :: names)
  nonempty : n.store.snapshot ≠ ∅

theorem Text.utf8 (h : s.Text C) (hn : s.nodes[id]? = some n) : n.store.Utf8 :=
  fun key e he => h (key, e) (.stored id n hn he)

variable {names : List Bytes}

/-- What such a node meets in its next tick. -/
def Fit.round (h : Fit H C s id names n) {snap : List (Bytes × Entry)}
    (hsnap : snap.Perm n.store.snapshot.toList) : Round id names where
  members := n.gossip.members
  store := n.store
  snap := snap
  sendErr := none
  listed := h.listed
  snapshot := hsnap
  nonempty := by
    rintro rfl
    refine h.nonempty (ExtTreeMap.isEmpty_iff.1 ?_)
    rw [← ExtTreeMap.isEmpty_toList, ← hsnap.nil_eq]
    rfl

/-- A tick passes the turn on, and sends a packet to the peer whose turn it was. -/
theorem Fit.tick (h : Fit H C s id names n) (hself : id ∉ names) (hpos : 0 < names.length)
    {snap : List (Bytes × Entry)} (hsnap : snap.Perm n.store.snapshot.toList) :
    (n.exchange H C snap).1.gossip.antiEntropyPos =
        (n.gossip.antiEntropyPos + 1) % names.length ∧
      ∃ p ∈ (n.exchange H C snap).2,
        (H.sorter.sort (fun name => name) names)[n.gossip.antiEntropyPos % names.length]? =
          some p.dst := by
  obtain ⟨-, hnext, -, hcall⟩ := Handler.exchange_spec (H := H) (C := C)
    (h.inv.node id n h.node).nodeID hself (h.round hsnap) hpos
  obtain ⟨call, hcall, hname⟩ := hcall (h.text.utf8 h.node)
  refine ⟨hnext, ?_⟩
  obtain ⟨q, hq, rfl⟩ := Option.map_eq_some_iff.1 hcall
  exact ⟨_, List.mem_map_of_mem (Option.mem_toList.2 hq), hname⟩

/-- The step lemma: a node stays fit for the next tick. -/
theorem Fit.step {a : Action} (h : Fit H C s id names n) (hov : s.NoOverflow a) (hq : a.Quiet)
    (hmembers : a.Reports (id :: names)) (hstep : s.step H C a = some t) :
    ∃ n', Fit H C t id names n' ∧
      ((∃ snap, a = .exchange id snap ∧ snap.Perm n.store.snapshot.toList ∧
          n' = (n.exchange H C snap).1) ∨
        (a.isTick id = false ∧ n'.gossip.antiEntropyPos = n.gossip.antiEntropyPos)) := by
  obtain ⟨hgrows, hI⟩ := inv_step hov hstep h.inv
  obtain ⟨n', hn', hturn⟩ := turn_step hq hstep h.node
  have htext : t.Text C := by
    refine text_step h.inv ?_ hstep h.text
    cases a with
    | set | del => exact hq.elim
    | _ => trivial
  have hnonempty : n'.store.snapshot ≠ ∅ := by
    obtain ⟨p, hp⟩ := List.exists_mem_of_ne_nil _ ((h.round (.refl _)).nonempty)
    obtain ⟨m, hm, e, he, -⟩ := hgrows.heldBy
      ⟨n, h.node, p.2, ExtTreeMap.mem_toList_iff_getElem?_eq_some.1 hp, le_rfl⟩
    obtain rfl := Option.some.inj (hn'.symm.trans hm)
    intro hempty
    have hnone : n'.store.snapshot[p.1]? = none := by simp [hempty]
    exact absurd (he.symm.trans hnone) (by simp)
  refine ⟨n', ⟨hI, htext, hn', ?_, hnonempty⟩, hturn.imp_right fun hother => ⟨hother.1, hother.2.1⟩⟩
  rcases hturn with ⟨snap, -, -, rfl⟩ | ⟨-, -, hsame | rfl⟩
  · rw [members_exchange]
    exact h.listed
  · rw [hsame]
    exact h.listed
  · exact hmembers

/-- Where the run has more ticks of the node than it takes for the turn to come to `b`, one of them
sends a packet to `b`. -/
theorem Fit.exists_tick {as : List Action} {b : Bytes} (hself : id ∉ names)
    (hpos : 0 < names.length) (hrun : Runs H C s as t) (h : Fit H C s id names n)
    (hq : ∀ a ∈ as, a.Quiet) (hmembers : ∀ a ∈ as, a.Reports (id :: names)) {j : Nat}
    (hj : (H.sorter.sort (fun name => name) names)[(j + n.gossip.antiEntropyPos) % names.length]? =
      some b)
    (hcount : j < as.countP (Action.isTick id)) :
    ∃ as₁ snap as₂ u m p, as = as₁ ++ .exchange id snap :: as₂ ∧ Runs H C s as₁ u ∧
      Runs H C u (.exchange id snap :: as₂) t ∧ u.nodes[id]? = some m ∧
      p ∈ (m.exchange H C snap).2 ∧ p.dst = b := by
  induction hrun generalizing n j with
  | nil => exact absurd hcount (Nat.not_lt_zero j)
  | @cons s u t a as hov hstep hrun ih =>
      obtain ⟨hqa, hqas⟩ := List.forall_mem_cons.1 hq
      obtain ⟨hma, hmas⟩ := List.forall_mem_cons.1 hmembers
      -- a packet that a later tick sends
      have hlater : ∀ {n' : Node} {j' : Nat}, Fit H C u id names n' →
          (H.sorter.sort (fun name => name) names)[(j' + n'.gossip.antiEntropyPos) %
            names.length]? = some b → j' < as.countP (Action.isTick id) →
          ∃ as₁ snap as₂ v m p, a :: as = as₁ ++ .exchange id snap :: as₂ ∧ Runs H C s as₁ v ∧
            Runs H C v (.exchange id snap :: as₂) t ∧ v.nodes[id]? = some m ∧
            p ∈ (m.exchange H C snap).2 ∧ p.dst = b := by
        intro n' j' hfit hj' hcount'
        obtain ⟨as₁, snap, as₂, v, m, p, rfl, hrun₁, hrest⟩ := ih hfit hqas hmas hj' hcount'
        exact ⟨a :: as₁, snap, as₂, v, m, p, rfl, .cons hov hstep hrun₁, hrest⟩
      obtain ⟨n', hfit, ⟨snap, rfl, hsnap, rfl⟩ | ⟨hno, hsame⟩⟩ := h.step hov hqa hma hstep
      · obtain ⟨hnext, p, hp, hdst⟩ := h.tick hself hpos hsnap
        cases j with
        | zero =>
            rw [Nat.zero_add, hdst, Option.some.injEq] at hj
            exact ⟨[], snap, as, s, n, p, rfl, .nil s, .cons hov hstep hrun, h.node, hp, hj⟩
        | succ j =>
            rw [List.countP_cons_of_pos (show Action.isTick id (.exchange id snap) = true from
              decide_eq_true rfl)] at hcount
            refine hlater hfit ?_ (Nat.lt_of_succ_lt_succ hcount)
            rw [hnext, Nat.add_mod_mod, ← hj]
            congr 2
            omega
      · apply hlater hfit
        · rw [hsame]
          exact hj
        · rwa [List.countP_cons_of_neg (by simp [hno])] at hcount

/-! ## Ticks of all nodes -/

/-- Every packet that a tick of the run sends is delivered later in it. -/
def Delivered (H : Hashing) (C : Pb.Codec) (s : State) (as : List Action) : Prop :=
  ∀ as₁ id snap as₂ u n p, as = as₁ ++ .exchange id snap :: as₂ → Runs H C s as₁ u →
    u.nodes[id]? = some n → p ∈ (n.exchange H C snap).2 → Action.deliver p ∈ as₂

/-- A number of turns after which it is that of the peer at `i`, less than there are peers. -/
theorem exists_turns {len i : Nat} (pos : Nat) (hi : i < len) : ∃ j < len, (j + pos) % len = i := by
  have hlen : 0 < len := by omega
  refine ⟨(i + (len - pos % len)) % len, Nat.mod_lt _ hlen, ?_⟩
  have hmod := Nat.mod_lt pos hlen
  have hsum : i + (len - pos % len) + pos = i + len * (pos / len + 1) := by
    have hdiv := Nat.mod_add_div pos len
    rw [Nat.mul_add, Nat.mul_one]
    omega
  rw [Nat.mod_add_mod, hsum, Nat.add_mul_mod_self_left, Nat.mod_eq_of_lt hi]

/-- As many ticks of a node as it has peers, with their packets delivered, are an exchange with each
of them. -/
theorem Fit.exchanged {as : List Action} {b : Bytes} (h : Fit H C s id names n) (hself : id ∉ names)
    (hb : b ∈ names) (hrun : Runs H C s as t) (hq : ∀ a ∈ as, a.Quiet)
    (hmembers : ∀ a ∈ as, a.Reports (id :: names))
    (hticks : names.length ≤ as.countP (Action.isTick id)) (hdelivered : Delivered H C s as) :
    Exchanged H C s as t id b := by
  have hsort := H.sorter.perm (fun name => name) names
  obtain ⟨i, hi, hib⟩ := List.mem_iff_getElem.1 (hsort.mem_iff.2 hb)
  rw [hsort.length_eq] at hi
  obtain ⟨j, hj, hturn⟩ := exists_turns n.gossip.antiEntropyPos hi
  obtain ⟨as₁, snap, as₂, u, m, p, rfl, hrun₁, hrun₂, hm, hp, hdst⟩ :=
    Fit.exists_tick (b := b) hself (by omega) hrun h hq hmembers (j := j)
      (by rw [hturn, ← hib]; exact List.getElem?_eq_getElem _) (by omega)
  obtain ⟨as₂, as₃, rfl⟩ := List.append_of_mem
    (hdelivered as₁ id snap as₂ u m p rfl hrun₁ hm hp)
  exact ⟨as₁, _, as₂, p, as₃, u, m, rfl, hrun₁, hrun₂, hm, ⟨rfl, hp⟩, hdst⟩

/-- **The anti-entropy loop suffices.** Let clients have written nothing but text, and let every
transport list all nodes. In a run without further writes and ring changes in which every node with
a non-empty store ticks at least once for each other node, and the packets of the ticks are
delivered, every replica of a key ends up with the newest entry that any node held, whatever else
happens in between, and so all replicas agree. -/
theorem ticks_converge {s₀ : State} {as₀ as : List Action} (h₀ : s₀.Initial H)
    (hreach : Runs H C s₀ as₀ s) (htext : ∀ a ∈ as₀, a.Text) (hrun : Runs H C s as t)
    (hquiet : ∀ a ∈ as, a.Quiet)
    (hlisted : ∀ (id : Bytes) (n : Node), s.nodes[id]? = some n →
      (n.gossip.members.map MemberInfo.name).Perm s.nodes.keys)
    (hmembers : ∀ a ∈ as, a.Reports s.nodes.keys)
    (hticks : ∀ (id : Bytes) (n : Node), s.nodes[id]? = some n → n.store.snapshot ≠ ∅ →
      s.nodes.keys.length - 1 ≤ as.countP (Action.isTick id))
    (hdelivered : Delivered H C s as) {b : Bytes} {m : Node} (hm : t.nodes[b]? = some m) {k : Bytes}
    (hb : b ∈ replicaIDs H m.ring k m.gossip.replicaRF) :
    IsNewest m.store.tree[k]? (s.entriesAt k) ∧
      ∀ (b' : Bytes) (m' : Node), t.nodes[b']? = some m' →
        b' ∈ replicaIDs H m'.ring k m'.gossip.replicaRF → m'.store.tree[k]? = m.store.tree[k]? := by
  have hI := inv_run hreach (inv_initial h₀)
  have hIt := inv_run hrun hI
  have hsettled := settled_run hI hrun hquiet
  have hs : s.Text C := text_run (inv_initial h₀) hreach htext (text_initial h₀)
  have hnewest : ∀ (b : Bytes) (m : Node), t.nodes[b]? = some m →
      b ∈ replicaIDs H m.ring k m.gossip.replicaRF →
        IsNewest m.store.tree[k]? (s.entriesAt k) := by
    intro b m hm hb
    refine hsettled.isNewest hm (covers_entriesAt hI hrun hquiet ?_ hm
      ((hIt.isReplica_iff_mem hm k).2 hb))
    intro a na hna hab hne
    obtain ⟨nb, hnb, -⟩ := hsettled.node b m hm
    -- the peers of `a` are the other nodes
    have hkeys : ∀ {id n}, s.nodes[id]? = some n → id ∈ s.nodes.keys := by
      intro id n hn
      rw [ExtTreeMap.mem_keys, ExtTreeMap.mem_iff_isSome_getElem?, hn]
      rfl
    have hperm : s.nodes.keys.Perm (a :: s.nodes.keys.erase a) := List.perm_cons_erase (hkeys hna)
    have hself : a ∉ s.nodes.keys.erase a := by
      rw [ExtTreeMap.nodup_keys.mem_erase_iff]
      exact fun h => h.1 rfl
    have hfit : Fit H C s a (s.nodes.keys.erase a) na :=
      ⟨hI, hs, hna, (hlisted a na hna).trans hperm, hne⟩
    refine hfit.exchanged hself ((List.mem_erase_of_ne (Ne.symm hab)).2 (hkeys hnb)) hrun
      hquiet ?_ ?_ hdelivered
    · intro act hact
      have hreports := hmembers act hact
      cases act with
      | members id l => exact hreports.trans hperm
      | _ => trivial
    · rw [List.length_erase_of_mem (hkeys hna)]
      exact hticks a na hna hne
  refine ⟨hnewest b m hm hb, ?_⟩
  intro b' m' hm' hb'
  exact (hnewest b' m' hm' hb').unique (hnewest b m hm hb)

/-! ## One tick in a cluster of two nodes -/

/-- A tick of one node, and the delivery of its packet. -/
theorem exists_tick_run {peer : Bytes} {m : Node} (hn : s.nodes[id]? = some n)
    (hm : s.nodes[peer]? = some m) (hne : peer ≠ id) {p : Packet}
    (hp : p ∈ (n.exchange H C n.store.snapshot.toList).2) (hdst : p.dst = peer) :
    ∃ t, Runs H C s [.exchange id n.store.snapshot.toList, .deliver p] t ∧
      t.nodes[peer]? = some (m.receive H C p).1 ∧
      Delivered H C s [.exchange id n.store.snapshot.toList, .deliver p] := by
  subst hdst
  obtain ⟨u, hu⟩ : ∃ u : State, u = { s with
      nodes := s.nodes.insert id (n.exchange H C n.store.snapshot.toList).1
      network := s.network ++ (n.exchange H C n.store.snapshot.toList).2 } := ⟨_, rfl⟩
  have htick : s.step H C (.exchange id n.store.snapshot.toList) = some u := by
    rw [hu]
    simp only [State.step, onNode, hn, if_pos (List.Perm.refl _)]
  have hpu : p ∈ u.network := hu ▸ List.mem_append_right s.network hp
  have hmu : u.nodes[p.dst]? = some m := by
    rw [hu]
    exact (Dict.getElem?_insert_of_ne _ _ hne).trans hm
  have hdeliver : u.step H C (.deliver p) = some
      { u with
        nodes := u.nodes.insert p.dst (m.receive H C p).1
        network := u.network ++ (m.receive H C p).2 } := by
    simp only [State.step, onNode, hmu, if_pos hpu]
  refine ⟨_, .cons trivial htick (.single trivial hdeliver), ExtTreeMap.getElem?_insert_self, ?_⟩
  intro as₁ id' snap as₂ u n' q has hrun hn' hq
  cases as₁ with
  | nil =>
      cases has
      cases hrun
      obtain rfl := Option.some.inj (hn.symm.trans hn')
      -- a tick sends one packet at most
      obtain ⟨x, hx, rfl⟩ := List.mem_map.1 hp
      obtain ⟨y, hy, rfl⟩ := List.mem_map.1 hq
      obtain rfl := Option.some.inj ((Option.mem_toList.1 hx).symm.trans (Option.mem_toList.1 hy))
      exact List.mem_singleton_self _
  | cons a as₁ =>
      obtain ⟨-, hrest⟩ := List.cons.inj has
      rcases as₁ with _ | ⟨b, as₁⟩
      · cases hrest
      · exact absurd (List.cons.inj hrest).2 (by simp)

/-- The node `id` of a cluster with the nodes `n1` and `n2`. Its turn was left by earlier ticks. -/
def knownNode (id other : Bytes) : Node :=
  { Node.new .xxhash id (str "h:6379") 2 2 with
    ring := (Node.new .xxhash id (str "h:6379") 2 2).ring.addNode .xxhash other (str "h:6379") 256
    gossip := ⟨id, 2, [⟨str "n2", str "h:6379"⟩, ⟨str "n1", str "h:6379"⟩], ∅, 7⟩ }

theorem joined_knownNode (id other : Bytes) : Joined .xxhash (knownNode id other) id [other, id] :=
  ⟨rfl, rfl, rfl, ((joined_new .xxhash id (str "h:6379")).join other (str "h:6379")).lists⟩

/-- Two nodes that know each other and have nothing stored. -/
def knownPair : State :=
  ⟨((∅ : ExtTreeMap Bytes Node compare).insert (str "n1") (knownNode (str "n1") (str "n2"))).insert
    (str "n2") (knownNode (str "n2") (str "n1")), [], [], [], []⟩

theorem nodes_knownPair (hn : knownPair.nodes[id]? = some n) :
    (id = str "n1" ∧ n = knownNode (str "n1") (str "n2")) ∨
      (id = str "n2" ∧ n = knownNode (str "n2") (str "n1")) := by
  rcases Dict.getElem?_insert_eq_some hn with ⟨rfl, rfl⟩ | hn
  · exact .inr ⟨rfl, rfl⟩
  · rcases Dict.getElem?_insert_eq_some hn with ⟨rfl, rfl⟩ | hn
    · exact .inl ⟨rfl, rfl⟩
    · simp at hn

theorem initial_knownPair : knownPair.Initial .xxhash where
  store id n hn := by
    rcases nodes_knownPair hn with ⟨rfl, rfl⟩ | ⟨rfl, rfl⟩ <;> rfl
  nodeID id n hn := by
    rcases nodes_knownPair hn with ⟨rfl, rfl⟩ | ⟨rfl, rfl⟩ <;> rfl
  pendingReqs id n hn := by
    rcases nodes_knownPair hn with ⟨rfl, rfl⟩ | ⟨rfl, rfl⟩ <;> rfl
  ring id n hn := by
    rcases nodes_knownPair hn with ⟨rfl, rfl⟩ | ⟨rfl, rfl⟩
    · exact ⟨[.addNode (str "n1") (str "h:6379") 256, .addNode (str "n2") (str "h:6379") 256], rfl⟩
    · exact ⟨[.addNode (str "n2") (str "h:6379") 256, .addNode (str "n1") (str "h:6379") 256], rfl⟩
  network := rfl
  commands := rfl
  requests := rfl
  acks := rfl

/-- `n1` has accepted `SET foo a`. -/
def knownWritten : State :=
  knownPair.issue (str "n1") (knownNode (str "n1") (str "n2"))
    (Store.new.setFrom (str "foo") (str "a") (str "n1")).1
    (str "foo", (Store.new.setFrom (str "foo") (str "a") (str "n1")).2) []

/-- The node `n1` there. -/
def knownWriter : Node :=
  { knownNode (str "n1") (str "n2") with
    store := (Store.new.setFrom (str "foo") (str "a") (str "n1")).1 }

theorem writer_knownWritten : knownWritten.nodes[str "n1"]? = some knownWriter :=
  ExtTreeMap.getElem?_insert_self

theorem peer_knownWritten :
    knownWritten.nodes[str "n2"]? = some (knownNode (str "n2") (str "n1")) :=
  (Dict.getElem?_insert_of_ne _ _ (by decide)).trans ExtTreeMap.getElem?_insert_self

theorem nodes_knownWritten (hn : knownWritten.nodes[id]? = some n) :
    (id = str "n1" ∧ n = knownWriter) ∨ (id = str "n2" ∧ n = knownNode (str "n2") (str "n1")) := by
  rcases Dict.getElem?_insert_eq_some hn with ⟨rfl, rfl⟩ | hold
  · exact .inl ⟨rfl, rfl⟩
  · rcases nodes_knownPair hold with ⟨rfl, -⟩ | hpeer
    · exact .inl ⟨rfl, Option.some.inj (hn.symm.trans writer_knownWritten)⟩
    · exact .inr hpeer

theorem keys_knownWritten : [str "n1", str "n2"].Perm knownWritten.nodes.keys := by
  refine (List.perm_ext_iff_of_nodup (by decide) ExtTreeMap.nodup_keys).2 fun id => ?_
  rw [ExtTreeMap.mem_keys, ExtTreeMap.mem_iff_isSome_getElem?, Option.isSome_iff_exists,
    List.mem_pair]
  constructor
  · rintro (rfl | rfl)
    · exact ⟨_, writer_knownWritten⟩
    · exact ⟨_, peer_knownWritten⟩
  · rintro ⟨n, hn⟩
    exact (nodes_knownWritten hn).imp And.left And.left

theorem runs_knownWritten :
    Runs .xxhash Pb.protoCodec knownPair [.set (str "n1") (str "foo") (str "a")] knownWritten := by
  have hlists := (joined_knownNode (str "n1") (str "n2")).lists
  obtain ⟨h₁, -⟩ := Hashring.owners_foo hlists (by decide)
  have hn₀ : knownPair.nodes[str "n1"]? = some (knownNode (str "n1") (str "n2")) :=
    (Dict.getElem?_insert_of_ne _ _ (by decide)).trans ExtTreeMap.getElem?_insert_self
  refine .single ?_ (step_set hn₀
    (redirect_eq_none_iff.2 (.inr (Hashring.getNode_of_head? hlists.sorted h₁))))
  intro n hn
  obtain rfl := Option.some.inj (hn₀.symm.trans hn)
  decide

/-- `SET foo a` at `n1`, and one tick of its loop, whose packet is delivered. -/
theorem ticks_converge_pair :
    ∃ p t m, Runs .xxhash Pb.protoCodec knownWritten
        [.exchange (str "n1") knownWriter.store.snapshot.toList, .deliver p] t ∧
      t.nodes[str "n2"]? = some m ∧
      ⟨str "a", 1, str "n1", false⟩ ∈ knownWritten.entriesAt (str "foo") ∧
      IsNewest m.store.tree[str "foo"]? (knownWritten.entriesAt (str "foo")) := by
  have hreach := runs_knownWritten
  have htext : ∀ a ∈ [Action.set (str "n1") (str "foo") (str "a")], a.Text := by
    intro a ha
    obtain rfl := List.mem_singleton.1 ha
    exact ⟨by decide, by decide, by decide⟩
  have hI := inv_initial (C := Pb.protoCodec) initial_knownPair
  have hentry : knownWriter.store.tree[str "foo"]? = some ⟨str "a", 1, str "n1", false⟩ := rfl
  have hfit : Fit .xxhash Pb.protoCodec knownWritten (str "n1") [str "n2"] knownWriter :=
    { inv := inv_run hreach hI
      text := text_run hI hreach htext (text_initial initial_knownPair)
      node := writer_knownWritten
      listed := List.Perm.swap _ _ _
      nonempty := by
        intro hempty
        have hnone : knownWriter.store.snapshot[str "foo"]? = none := by simp [hempty]
        exact absurd (hentry.symm.trans hnone) (by simp) }
  obtain ⟨-, p, hp, hdst⟩ := hfit.tick (by decide) (by decide) (.refl _)
  rw [List.perm_singleton.1 (Hashing.xxhash.sorter.perm (fun name => name) [str "n2"])] at hdst
  obtain ⟨t, hrun, hm, hdelivered⟩ :=
    exists_tick_run writer_knownWritten peer_knownWritten (by decide) hp (Option.some.inj hdst).symm
  have hquiet : ∀ a ∈ [Action.exchange (str "n1") knownWriter.store.snapshot.toList, .deliver p],
      a.Quiet := by
    simp [Action.Quiet]
  refine ⟨p, t, _, hrun, hm, ⟨_, _, writer_knownWritten, hentry⟩, ?_⟩
  refine (ticks_converge initial_knownPair hreach htext hrun hquiet ?_ ?_ ?_ hdelivered hm ?_).1
  · intro id n hn
    refine List.Perm.trans ?_ keys_knownWritten
    rcases nodes_knownWritten hn with ⟨rfl, rfl⟩ | ⟨rfl, rfl⟩ <;> exact List.Perm.swap _ _ _
  · simp [Action.Reports]
  · intro id n hn hne
    rw [← keys_knownWritten.length_eq]
    rcases nodes_knownWritten hn with ⟨rfl, rfl⟩ | ⟨rfl, rfl⟩
    · exact Nat.le_of_eq rfl
    · exact absurd rfl hne
  · -- the ring of `n2` has not changed
    obtain ⟨n, hn, hring, -, hrf, -⟩ := (settled_run hfit.inv hrun hquiet).node _ _ hm
    obtain rfl := Option.some.inj (peer_knownWritten.symm.trans hn)
    have hjoined := joined_knownNode (str "n2") (str "n1")
    obtain ⟨h₁, h₂⟩ := Hashring.owners_foo hjoined.lists (by decide)
    rw [hring, hrf, replicaIDs, hjoined.replicasFor h₁ h₂]
    simp

end State

end Hapartition
