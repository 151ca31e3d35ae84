import Hapartition.Cluster.Invariant
import Hapartition.Cluster.Provenance
import Hapartition.Gossip.Proto
import Hapartition.Server.Routing

/-!
# Keys stay with their replicas

Four paths write to a store. `SET` and `DEL` are guarded by the owner of the key, replication
requests and batches by its replica set; the local merge of a call has no guard of its own and
repeats what its command holds. With fixed rings the first guard implies the second, so that a node
stores keys that it is a replica of and no others (`replica_placement`), however packets are
delayed, repeated or lost and whatever the clocks do.

The empty node ID is the exception: nobody is redirected to it, so any node accepts writes for the
keys that its ring gives to that ID (`empty_id_misplaced`).
-/

set_option autoImplicit false

namespace Hapartition

open Lib
open Std (ExtTreeMap)
open Hashring (build)

namespace State

variable {H : Hashing} {C : Pb.Codec} {s₀ s t : State} {id : Bytes} {n n' : Node}

/-- Node `id` is a replica of the key. -/
def ReplicaOf (H : Hashing) (s : State) (id key : Bytes) : Prop :=
  ∃ n, s.nodes[id]? = some n ∧ n.gossip.isReplica H n.ring key = true

/-- Every node is a replica of the keys that it accepts writes for. -/
def OwnersReplicate (H : Hashing) (s : State) : Prop :=
  ∀ (id : Bytes) (n : Node) (key : Bytes), s.nodes[id]? = some n →
    redirect H n.ring n.gossip.nodeID key = none → n.gossip.isReplica H n.ring key = true

/-- Since `s₀`, the nodes are the same, and stores and commands have keys of their node only. -/
structure Placed (H : Hashing) (s₀ s : State) : Prop where
  site : ∀ (id : Bytes) (n : Node), s.nodes[id]? = some n →
    ∃ n₀, s₀.nodes[id]? = some n₀ ∧ n₀.SameSite n
  stored : ∀ (id : Bytes) (n : Node) (k : Bytes) (e : Entry), s.nodes[id]? = some n →
    n.store.tree[k]? = some e → s₀.ReplicaOf H id k
  command : ∀ c ∈ s.commands, ∀ p ∈ c.pending, s₀.ReplicaOf H c.node p.1

namespace Placed

/-- The replica check of a node is the one that it had at the start. -/
theorem replicaOf (h : Placed H s₀ s) (hn : s.nodes[id]? = some n) {key : Bytes}
    (hrep : n.gossip.isReplica H n.ring key = true) : s₀.ReplicaOf H id key := by
  obtain ⟨n₀, hn₀, hsite⟩ := h.site id n hn
  exact ⟨n₀, hn₀, hsite.isReplica_eq key ▸ hrep⟩

/-- A node that accepts a write for a key is a replica of it. -/
theorem replicaOf_of_redirect (h : Placed H s₀ s) (ho : s₀.OwnersReplicate H)
    (hn : s.nodes[id]? = some n) {key : Bytes}
    (howner : redirect H n.ring n.gossip.nodeID key = none) : s₀.ReplicaOf H id key := by
  obtain ⟨n₀, hn₀, hsite⟩ := h.site id n hn
  rw [hsite.ring, hsite.nodeID] at howner
  exact ⟨n₀, hn₀, ho id n₀ key hn₀ howner⟩

/-- One node changes, and one command is new or in a new state. -/
theorem of_change (h : Placed H s₀ s) (hn : s.nodes[id]? = some n)
    (hnodes : t.nodes = s.nodes.insert id n') (hsite : n.SameSite n')
    (hstored : ∀ (k : Bytes) (e : Entry), n'.store.tree[k]? = some e →
      n.store.tree[k]? = some e ∨ s₀.ReplicaOf H id k)
    (hcommand : ∀ c ∈ t.commands, c ∈ s.commands ∨
      ∀ p ∈ c.pending, s₀.ReplicaOf H c.node p.1) : Placed H s₀ t := by
  constructor
  · intro id' m hm
    rw [hnodes] at hm
    rcases Dict.getElem?_insert_eq_some hm with ⟨rfl, rfl⟩ | hold
    · obtain ⟨n₀, hn₀, hsite₀⟩ := h.site id n hn
      exact ⟨n₀, hn₀, hsite₀.trans hsite⟩
    · exact h.site id' m hold
  · intro id' m k e hm hk
    rw [hnodes] at hm
    rcases Dict.getElem?_insert_eq_some hm with ⟨rfl, rfl⟩ | hold
    · rcases hstored k e hk with hbefore | hrep
      · exact h.stored id n k e hn hbefore
      · exact hrep
    · exact h.stored id' m k e hold hk
  · intro c hc
    rcases hcommand c hc with hold | hnew
    · exact h.command c hold
    · exact hnew

/-- A node accepts a write for keys that it is a replica of. -/
theorem issue (h : Placed H s₀ s) (hn : s.nodes[id]? = some n) {store : Store} {p : Bytes × Entry}
    {rest : List (Bytes × Entry)}
    (hstore : ∀ (k : Bytes) (e : Entry), store.tree[k]? = some e →
      n.store.tree[k]? = some e ∨ s₀.ReplicaOf H id k)
    (hkeys : ∀ q ∈ p :: rest, s₀.ReplicaOf H id q.1) : Placed H s₀ (s.issue id n store p rest) := by
  refine h.of_change hn rfl ⟨rfl, rfl, rfl⟩ hstore ?_
  intro c hc
  rcases List.mem_append.1 hc with hold | hnew
  · exact .inl hold
  · obtain rfl := List.mem_singleton.1 hnew
    exact .inr hkeys

/-- The step lemma. -/
theorem step {a : Action} (h : Placed H s₀ s) (ho : s₀.OwnersReplicate H) (hfixed : a.Fixed)
    (hstep : s.step H C a = some t) : Placed H s₀ t := by
  cases move_of_step hstep with
  | start => exact hfixed.elim
  | node id n n' ps hn hmove =>
      refine h.of_change hn rfl (hmove.sameSite hfixed) ?_ (fun c hc => .inl hc)
      intro k e hk
      apply (hmove.stored hk).imp_right
      rintro ⟨-, hrep⟩
      exact h.replicaOf hn hrep
  | set id key value n hn howner =>
      have hrep := h.replicaOf_of_redirect ho hn howner
      refine h.issue hn ?_ ?_
      · intro k e hk
        apply (Store.getElem?_setFrom_eq_some hk).imp_right
        rintro ⟨rfl, -⟩
        exact hrep
      · intro q hq
        obtain rfl := List.mem_singleton.1 hq
        exact hrep
  | del id keys p rest n hn hperm =>
      -- all keys are checked, so every tombstone is for a key of the node
      have htomb : ∀ (k : Bytes) (e : Entry),
          (n.store.del n.gossip.nodeID keys).2.2[k]? = some e → s₀.ReplicaOf H id k := by
        intro k e hk
        have howner := owners_of_del hn hstep k (Store.mem_of_tombstones_del hk)
        exact h.replicaOf_of_redirect ho hn howner
      refine h.issue hn ?_ ?_
      · intro k e hk
        exact (Store.getElem?_del_eq_some hk).imp_right (htomb k e)
      · intro q hq
        exact htomb q.1 q.2 (ExtTreeMap.mem_toList_iff_getElem?_eq_some.1 (hperm.mem_iff.1 hq))
  | call i b c n x hc hn hmove =>
      have hcmd := h.command c (List.mem_of_getElem? hc)
      refine h.of_change hn rfl hmove.sameSite ?_ ?_
      · intro k e hk
        apply (hmove.stored hk).imp_right
        rintro ⟨rfl, -⟩
        exact hcmd (c.key, c.entry) List.mem_cons_self
      · intro d hd
        rcases List.mem_or_eq_of_mem_set hd with hold | rfl
        · exact .inl hold
        · refine .inr ?_
          intro p hp
          rw [hmove.command_node]
          exact hcmd p (hmove.pending hp)

end Placed

theorem placed_initial (h₀ : s₀.Initial H) : Placed H s₀ s₀ where
  site id n hn := ⟨n, hn, .refl n⟩
  stored id n k e hn hk := by
    rw [h₀.store id n hn] at hk
    simp [Store.new] at hk
  command := by simp [h₀.commands]

/-- On the ring of a membership without the empty ID, a node that is a member and is not redirected
is the owner, and the owner is the first replica. -/
theorem isReplica_of_redirect {ring : Hashring} {g : Handler} {localNodeID : Bytes}
    {ops : List Hashring.Op} (hring : ring = build H localNodeID ops)
    (hself : g.nodeID ∈ ring.nodeIDs) (hempty : [] ∉ ring.nodeIDs) (hrf : 1 ≤ g.replicaRF)
    {key : Bytes} (howner : redirect H ring g.nodeID key = none) :
    g.isReplica H ring key = true := by
  have hr : Hashring.Reflects H ring (Hashring.membership ops) :=
    hring ▸ Hashring.reflects_build H localNodeID ops
  obtain ⟨p, hp⟩ := hr.mem_nodeIDs.1 hself
  obtain ⟨owner, addr, c, hmem, hget⟩ := hr.getNode_mem hp key
  have hne : owner ≠ [] := by
    rintro rfl
    exact hempty (hr.mem_nodeIDs.2 ⟨_, hmem⟩)
  have hown : (ring.getNode H key).1 = g.nodeID := by
    refine (redirect_eq_none_iff.1 howner).resolve_left ?_
    rwa [hget]
  rw [Handler.isReplica_iff, ← hown]
  exact Hashring.getNode_mem_replicasFor H hr.sorted (by omega)
    (Hashring.owners_ne_nil H (hr.entries_ne_nil hp) key)

variable {R : Runtime}

/-- In a cluster whose nodes are on their own rings, with no empty ID there and a replication factor
of at least one, and whose membership is fixed, every key in the snapshot of a node has the node
among its replicas, and a client command, whatever it is, does not change that. -/
theorem replica_placement {as : List Action} (h₀ : s₀.Initial R.toHashing)
    (hsite : ∀ (id : Bytes) (n : Node), s₀.nodes[id]? = some n →
      id ∈ n.ring.nodeIDs ∧ [] ∉ n.ring.nodeIDs ∧ 1 ≤ n.gossip.replicaRF)
    (hrun : Run (State.step R.toHashing C) (fun _ a => a.Fixed) s₀ as s)
    (hn : s.nodes[id]? = some n) :
    ∃ n₀, s₀.nodes[id]? = some n₀ ∧ n₀.SameSite n ∧
      (∀ (k : Bytes) (e : Entry), n.store.snapshot[k]? = some e →
        id ∈ replicaIDs R.toHashing n₀.ring k n₀.gossip.replicaRF) ∧
      ∀ (O : Outcomes) (cmd : Bytes) (args : List Value) (k : Bytes) (e : Entry),
        (n.server.dispatch R O cmd args).1.store.snapshot[k]? = some e →
          id ∈ replicaIDs R.toHashing n₀.ring k n₀.gossip.replicaRF := by
  have howners : s₀.OwnersReplicate R.toHashing := by
    intro id n key hn howner
    obtain ⟨ops, hops⟩ := h₀.ring id n hn
    obtain ⟨hself, hempty, hrf⟩ := hsite id n hn
    rw [← h₀.nodeID id n hn] at hself
    exact isReplica_of_redirect hops hself hempty hrf howner
  have hplaced : Placed R.toHashing s₀ s :=
    hrun.invariant (fun hfixed hstep h => h.step howners hfixed hstep) (placed_initial h₀)
  obtain ⟨n₀, hn₀, hsame⟩ := hplaced.site id n hn
  have hreplica : ∀ k, s₀.ReplicaOf R.toHashing id k →
      id ∈ replicaIDs R.toHashing n₀.ring k n₀.gossip.replicaRF := by
    rintro k ⟨m, hm, hrep⟩
    obtain rfl := Option.some.inj (hn₀.symm.trans hm)
    have hmem := Handler.isReplica_iff.1 hrep
    rwa [h₀.nodeID id n₀ hn₀] at hmem
  refine ⟨n₀, hn₀, hsame, ?_, ?_⟩
  · intro k e hk
    exact hreplica k (hplaced.stored id n k e hn hk)
  · intro O cmd args k e hk
    rcases Server.stored_dispatch hk with hstored | howner
    · exact hreplica k (hplaced.stored id n k e hn hstored)
    · exact hreplica k (hplaced.replicaOf_of_redirect howners hn howner)

/-! ## Two nodes -/

/-- A node of a cluster of two nodes with one virtual node each and one replica per key. -/
def pairNode (a b id : Bytes) : Node :=
  { addr := []
    writeConcern := 1
    store := Store.new
    ring := build Runtime.ascii.toHashing id (Server.twoNodeOps a b)
    gossip := ⟨id, 1, [], ∅, 0⟩ }

/-- That cluster at its start. -/
def pairCluster (a b : Bytes) : State :=
  { empty with
    nodes := ((∅ : ExtTreeMap Bytes Node compare).insert a (pairNode a b a)).insert b
      (pairNode a b b) }

theorem getElem?_pairCluster {a b id : Bytes} {n : Node}
    (hn : (pairCluster a b).nodes[id]? = some n) : (id = a ∨ id = b) ∧ n = pairNode a b id := by
  rcases Dict.getElem?_insert_eq_some hn with ⟨rfl, rfl⟩ | hn
  · exact ⟨.inr rfl, rfl⟩
  rcases Dict.getElem?_insert_eq_some hn with ⟨rfl, rfl⟩ | hn
  · exact ⟨.inl rfl, rfl⟩
  · simp at hn

theorem initial_pairCluster (a b : Bytes) :
    (pairCluster a b).Initial Runtime.ascii.toHashing := by
  constructor
  case ring =>
    intro id n hn
    rw [(getElem?_pairCluster hn).2]
    exact ⟨_, rfl⟩
  case network | commands | requests | acks => rfl
  all_goals
    intro id n hn
    rw [(getElem?_pairCluster hn).2]
    rfl

/-- The node `id` of that cluster after it has accepted a write. -/
def pairWritten (a b id key value : Bytes) : Node :=
  { pairNode a b id with store := (Store.new.setFrom key value id).1 }

/-- A node that is not redirected accepts a write. -/
theorem exists_run_pairCluster {a b id key : Bytes} (value : Bytes) (hid : id = a ∨ id = b)
    (howner : redirect Runtime.ascii.toHashing (pairNode a b id).ring id key = none) :
    ∃ s, Run (State.step Runtime.ascii.toHashing C) (fun _ a => a.Fixed) (pairCluster a b)
        [.set id key value] s ∧
      s.nodes[id]? = some (pairWritten a b id key value) := by
  have hn : (pairCluster a b).nodes[id]? = some (pairNode a b id) := by
    show (((∅ : ExtTreeMap Bytes Node compare).insert a (pairNode a b a)).insert b
      (pairNode a b b))[id]? = _
    rw [Dict.getElem?_insert, Dict.getElem?_insert]
    split
    next h => rw [h]
    next h =>
      obtain rfl : id = a := hid.resolve_right (Ne.symm h)
      exact if_pos rfl
  exact ⟨_, .single trivial (step_set hn howner), ExtTreeMap.getElem?_insert_self⟩

theorem stored_pairWritten (a b id key value : Bytes) :
    (pairWritten a b id key value).store.snapshot[key]? = some ⟨value, 1, id, false⟩ := by
  show (Store.new.setFrom key value id).1.tree[key]? = _
  rw [Store.getElem?_setFrom, if_pos rfl, Store.setFrom_snd]
  simp [Store.new, merge]

/-- The nodes `a` and `b`, of which `a` owns the key `c` and stores it. -/
theorem replica_placement_pair :
    ∃ s, Run (State.step Runtime.ascii.toHashing Pb.protoCodec) (fun _ a => a.Fixed)
        (pairCluster (str "a") (str "b")) [.set (str "a") (str "c") (str "v")] s ∧
      s.nodes[str "a"]? = some (pairWritten (str "a") (str "b") (str "a") (str "c") (str "v")) ∧
      ∃ n₀, (pairCluster (str "a") (str "b")).nodes[str "a"]? = some n₀ ∧
        str "a" ∈ replicaIDs Runtime.ascii.toHashing n₀.ring (str "c") n₀.gossip.replicaRF := by
  have howner : redirect Runtime.ascii.toHashing (pairNode (str "a") (str "b") (str "a")).ring
      (str "a") (str "c") = none := by
    decide +kernel
  obtain ⟨s, hrun, hn⟩ := exists_run_pairCluster (C := Pb.protoCodec) (str "v") (.inl rfl) howner
  have hsite : ∀ (id : Bytes) (n : Node), (pairCluster (str "a") (str "b")).nodes[id]? = some n →
      id ∈ n.ring.nodeIDs ∧ [] ∉ n.ring.nodeIDs ∧ 1 ≤ n.gossip.replicaRF := by
    intro id n hn
    obtain ⟨hid, rfl⟩ := getElem?_pairCluster hn
    rcases hid with rfl | rfl <;> decide +kernel
  obtain ⟨n₀, hn₀, -, hstored, -⟩ := replica_placement (initial_pairCluster _ _) hsite hrun hn
  exact ⟨s, hrun, hn, n₀, hn₀, hstored _ _ (stored_pairWritten _ _ _ _ _)⟩

/-- With the empty ID on the ring, the node `b` stores the key `c`, whose only replica is the node
with that ID. -/
theorem empty_id_misplaced :
    (pairCluster [] (str "b")).Initial Runtime.ascii.toHashing ∧
    (∀ (id : Bytes) (n : Node), (pairCluster [] (str "b")).nodes[id]? = some n →
      id ∈ n.ring.nodeIDs ∧ n.gossip.replicaRF = 1) ∧
    ∃ s n, Run (State.step Runtime.ascii.toHashing Pb.protoCodec) (fun _ a => a.Fixed)
        (pairCluster [] (str "b")) [.set (str "b") (str "c") (str "v")] s ∧
      s.nodes[str "b"]? = some n ∧
      n.store.snapshot[str "c"]? = some ⟨str "v", 1, str "b", false⟩ ∧
      str "b" ∉ replicaIDs Runtime.ascii.toHashing n.ring (str "c") 1 := by
  have howner : redirect Runtime.ascii.toHashing (pairNode [] (str "b") (str "b")).ring
      (str "b") (str "c") = none :=
    redirect_eq_none_iff.2 (.inl (congrArg Prod.fst (Server.getNode_empty_id (str "b"))))
  obtain ⟨s, hrun, hn⟩ := exists_run_pairCluster (C := Pb.protoCodec) (str "v") (.inr rfl) howner
  refine ⟨initial_pairCluster _ _, ?_, s, _, hrun, hn, stored_pairWritten _ _ _ _ _, ?_⟩
  · intro id n hn
    obtain ⟨hid, rfl⟩ := getElem?_pairCluster hn
    rcases hid with rfl | rfl <;> decide +kernel
  · decide +kernel

end State

end Hapartition
