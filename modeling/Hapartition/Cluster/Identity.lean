import Hapartition.Cluster.Provenance
import Hapartition.Cluster.Quorum
import Mathlib.Data.List.Pairwise

/-!
# The identity of writes

A version and an origin name one write of the whole run. The writes of a run, in the order in which
they are allocated, are `writes`; `Traced` ties every entry that is anywhere in the cluster to one
of them, and every write to the clock of its origin, which has moved past its version for good. Two
writes of one origin therefore have ascending versions, and two entries with the same version and
origin are the same (`write_identity`), so that the comparison of entries never has to decide
between two values by their bytes.
-/

set_option autoImplicit false

namespace Hapartition

open Lib
open Std (ExtTreeMap)

namespace State

variable {H : Hashing} {C : Pb.Codec} {s t : State} {id : Bytes} {n : Node} {a : Action}
  {as : List Action} {W : List (Bytes × Entry)}

/-- The writes that the nodes allocate along a list of labels, in order. -/
def writes (H : Hashing) (C : Pb.Codec) : State → List Action → List (Bytes × Entry)
  | _, [] => []
  | s, a :: as =>
      match s.step H C a with
      | some t => s.issued a ++ writes H C t as
      | none => []

/-- The second write has a higher version, if one origin made both. -/
def Ordered (p q : Bytes × Entry) : Prop := p.2.origin = q.2.origin → p.2.version < q.2.version

/-- The two are the same, if version and origin are. -/
def Identified (p q : Bytes × Entry) : Prop :=
  p.2.version = q.2.version → p.2.origin = q.2.origin → p = q

instance : Std.Symm Identified := ⟨fun _ _ h hv ho => (h hv.symm ho.symm).symm⟩

/-- The entries in the cluster, and the clocks, in terms of the writes so far. -/
structure Traced (C : Pb.Codec) (s : State) (W : List (Bytes × Entry)) : Prop where
  present : ∀ p, Present C s p → p ∈ W
  ordered : W.Pairwise Ordered
  bounded : ∀ p ∈ W, ∃ n, s.nodes[p.2.origin]? = some n ∧ p.2.version ≤ n.store.clock

/-- Two writes with one version and one origin are one write. -/
theorem eq_of_ordered (hW : W.Pairwise Ordered) {p q : Bytes × Entry} (hp : p ∈ W) (hq : q ∈ W)
    (hversion : p.2.version = q.2.version) (horigin : p.2.origin = q.2.origin) : p = q := by
  have hidentified : W.Pairwise Identified := by
    refine hW.imp ?_
    intro a b hab hv ho
    exact absurd hv (hab ho).ne
  exact hidentified.forall_of_forall (fun _ _ _ _ => rfl) hp hq hversion horigin

/-! ## One step -/

/-- The writes of a step are above the clock that their node had and not above the one it has
afterwards. -/
structure Allocated (s t : State) (p : Bytes × Entry) : Prop where
  before : ∀ n, s.nodes[p.2.origin]? = some n → n.store.clock < p.2.version
  after : ∃ n, t.nodes[p.2.origin]? = some n ∧ p.2.version ≤ n.store.clock

theorem issued_spec_set {key value : Bytes} (hI : s.Inv H C) (hn : s.nodes[id]? = some n)
    (hw : n.store.clock.toInt + 1 ≤ Int64.maxValue.toInt)
    (ht : t.nodes[id]? = some { n with store := (n.store.setFrom key value n.gossip.nodeID).1 })
    {p : Bytes × Entry} (hp : p ∈ s.issued (.set id key value)) : Allocated s t p := by
  rw [issued_set hn, Store.setFrom_snd] at hp
  obtain rfl := List.mem_singleton.1 hp
  have hid : n.gossip.nodeID = id := (hI.node id n hn).nodeID
  constructor
  · intro m hm
    simp only [hid, hn, Option.some.injEq] at hm
    subst hm
    exact Store.clock_lt_add_one hw
  · refine ⟨_, by simpa only [hid] using ht, ?_⟩
    rw [Store.setFrom_clock]

theorem issued_spec_del {keys : List Bytes} {order : List (Bytes × Entry)} (hI : s.Inv H C)
    (hI' : t.Inv H C) (hn : s.nodes[id]? = some n)
    (hw : n.store.clock.toInt + keys.eraseDups.length ≤ Int64.maxValue.toInt)
    (ht : t.nodes[id]? = some { n with store := (n.store.del n.gossip.nodeID keys).1 })
    {p : Bytes × Entry} (hp : p ∈ s.issued (.del id keys order)) : Allocated s t p := by
  have hid : n.gossip.nodeID = id := (hI.node id n hn).nodeID
  have htomb := (mem_issued_del hn).1 hp
  obtain ⟨es, hdel⟩ := Store.absorbsAll_del (hI.node id n hn).clockOk n.gossip.nodeID keys hw
  obtain ⟨-, horigin, hlt⟩ := hdel.fields p.1 p.2 htomb
  rw [hid] at horigin
  constructor
  · intro m hm
    rw [horigin, hn] at hm
    obtain rfl := Option.some.inj hm
    exact hlt
  · rw [horigin]
    exact ⟨_, ht, (hI'.node id _ ht).clockOk p.1 p.2 (Store.stored_del htomb)⟩

/-- What a step allocates, it allocates in order and at the clock of the node. -/
theorem issued_spec (hI : s.Inv H C) (hov : s.NoOverflow a) (hstep : s.step H C a = some t) :
    (s.issued a).Pairwise Ordered ∧ ∀ p ∈ s.issued a, Allocated s t p := by
  have hI' : t.Inv H C := (inv_step hov hstep hI).2
  cases move_of_step hstep with
  | start => exact ⟨.nil, by simp [issued]⟩
  | node id n n' ps hn hmove => cases hmove <;> exact ⟨.nil, by simp [issued]⟩
  | call => exact ⟨.nil, by simp [issued]⟩
  | set id key value n hn howner =>
      refine ⟨?_, fun p hp => issued_spec_set hI hn (hov n hn) ExtTreeMap.getElem?_insert_self hp⟩
      rw [issued_set hn]
      exact List.pairwise_singleton _ _
  | del id keys q rest n hn hperm =>
      refine ⟨?_, fun p hp =>
        issued_spec_del hI hI' hn (hov n hn) ExtTreeMap.getElem?_insert_self hp⟩
      rw [issued_del hn]
      refine (Store.ascending_del n.gossip.nodeID (hov n hn)).imp ?_
      intro p q hpq _
      exact hpq

/-- The step lemma. -/
theorem Traced.step (h : Traced C s W) (hI : s.Inv H C) (hov : s.NoOverflow a)
    (hstep : s.step H C a = some t) : Traced C t (W ++ s.issued a) := by
  obtain ⟨hissued, hclock⟩ := issued_spec hI hov hstep
  have hgrows : Grows s t := (inv_step hov hstep hI).1
  constructor
  · intro p hp
    rw [List.mem_append]
    exact (present_of_step hstep hp).imp_left (h.present p)
  · refine List.pairwise_append.2 ⟨h.ordered, hissued, ?_⟩
    -- an earlier write is at most at the clock, a new one is above it
    intro p hp q hq horigin
    obtain ⟨n, hn, hle⟩ := h.bounded p hp
    rw [horigin] at hn
    exact hle.trans_lt ((hclock q hq).before n hn)
  · intro p hp
    rcases List.mem_append.1 hp with hold | hnew
    · obtain ⟨n, hn, hle⟩ := h.bounded p hold
      obtain ⟨n', hn', -, -, hmono, -⟩ := hgrows.node _ n hn
      exact ⟨n', hn', hle.trans hmono⟩
    · exact (hclock p hnew).after

theorem traced_initial (h₀ : s.Initial H) : Traced C s [] where
  present p hp := by
    cases hp with
    | stored id n hn h =>
        rw [h₀.store id n hn] at h
        simp [Store.new] at h
    | inFlight q hq h => simp [h₀.network] at hq
    | command c hc h => simp [h₀.commands] at hc
  ordered := .nil
  bounded := by simp

/-- The run lemma. -/
theorem Traced.run (hrun : Runs H C s as t) (h : Traced C s W) (hI : s.Inv H C) :
    Traced C t (W ++ writes H C s as) := by
  induction hrun generalizing W with
  | nil s => simpa [writes] using h
  | @cons s u t a as hov hstep hrun ih =>
      have hnext := ih (h.step hI hov hstep) (inv_step hov hstep hI).2
      rw [List.append_assoc] at hnext
      simpa only [writes, hstep] using hnext

/-- Along every run without overflow, every entry that is anywhere in the cluster is one of the
writes of the run; the writes of one origin have ascending versions in the order in which they were
allocated; and two entries with the same version and origin, now and at any later time, are the same
and for the same key. -/
theorem write_identity {s₀ : State} (h₀ : s₀.Initial H) (hrun : Runs H C s₀ as s) :
    (∀ p, Present C s p → p ∈ writes H C s₀ as) ∧
    (writes H C s₀ as).Pairwise (fun p q => p.2.origin = q.2.origin → p.2.version < q.2.version) ∧
    ∀ (bs : List Action) (t : State) (p q : Bytes × Entry), Runs H C s bs t → Present C s p →
      Present C t q → p.2.version = q.2.version → p.2.origin = q.2.origin → p = q := by
  have hI : s.Inv H C := inv_run hrun (inv_initial h₀)
  have htraced : Traced C s (writes H C s₀ as) := by
    simpa using (traced_initial h₀).run hrun (inv_initial h₀)
  refine ⟨htraced.present, htraced.ordered, ?_⟩
  intro bs t p q hrun' hp hq hversion horigin
  have hlater := htraced.run hrun' hI
  have hpW := List.mem_append_left (writes H C s bs) (htraced.present p hp)
  exact eq_of_ordered hlater.ordered hpW (hlater.present q hq) hversion horigin

/-- A `SET foo b` at the first of two joined nodes, before it is replicated. -/
theorem JoinedPair.exists_second_set {s : State} {n m : Node}
    (h : JoinedPair .xxhash s (str "n1") (str "n2") n m) (hclock : n.store.clock = 1) :
    ∃ t, Runs .xxhash Pb.protoCodec s [.set (str "n1") (str "foo") (str "b")] t ∧
      t.nodes[str "n1"]? =
        some { n with store := (n.store.setFrom (str "foo") (str "b") n.gossip.nodeID).1 } ∧
      t.nodes[str "n2"]? = some m := by
  obtain ⟨h₁, -⟩ := Hashring.owners_foo h.joined.lists (by decide)
  have hkey : redirect .xxhash n.ring n.gossip.nodeID (str "foo") = none := by
    rw [redirect_eq_none_iff, h.joined.nodeID]
    exact .inr (Hashring.getNode_of_head? h.joined.lists.sorted h₁)
  refine ⟨_, .single ?_ (step_set h.node hkey), ExtTreeMap.getElem?_insert_self,
    (Dict.getElem?_insert_of_ne _ _ (by decide)).trans h.peerNode⟩
  intro n' hn'
  obtain rfl := Option.some.inj (h.node.symm.trans hn')
  rw [hclock]
  decide

/-- After an acknowledged `SET foo a` on two nodes and a `SET foo b`, one node holds the second
write of the run and the other still the first, the only entry with its version and origin. -/
theorem write_identity_pair :
    ∃ as s t, Runs .xxhash Pb.protoCodec empty as s ∧
      Runs .xxhash Pb.protoCodec s [.set (str "n1") (str "foo") (str "b")] t ∧
      Present Pb.protoCodec t (str "foo", ⟨str "a", 1, str "n1", false⟩) ∧
      Present Pb.protoCodec t (str "foo", ⟨str "b", 2, str "n1", false⟩) ∧
      (∀ p, Present Pb.protoCodec t p →
        p ∈ writes .xxhash Pb.protoCodec empty (as ++ [.set (str "n1") (str "foo") (str "b")])) ∧
      ∀ q, Present Pb.protoCodec t q → q.2.version = 1 → q.2.origin = str "n1" →
        q = (str "foo", ⟨str "a", 1, str "n1", false⟩) := by
  obtain ⟨as, s, n, m, hrun, hpair, hsn, hsm, -⟩ := exists_foo_run
  obtain ⟨t, hset, hn, hm⟩ := hpair.exists_second_set (by rw [hsn]; rfl)
  have ha : Present Pb.protoCodec s (str "foo", ⟨str "a", 1, str "n1", false⟩) := by
    refine .stored (str "n2") m hpair.peerNode ?_
    rw [hsm]
    decide
  refine ⟨as, s, t, hrun, hset, .stored (str "n2") m hm ?_, .stored (str "n1") _ hn ?_,
    (write_identity (initial_empty _) (hrun.append hset)).1, ?_⟩
  · rw [hsm]
    decide
  · show (n.store.setFrom (str "foo") (str "b") n.gossip.nodeID).1.tree[str "foo"]? = _
    rw [hsn, hpair.joined.nodeID]
    decide
  · intro q hq hversion horigin
    exact ((write_identity (initial_empty _) hrun).2.2 _ t _ q hset ha hq hversion.symm
      horigin.symm).symm

end State

end Hapartition
