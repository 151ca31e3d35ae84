import Hapartition.Gossip.Handler
import Hapartition.Ring.Membership
import Hapartition.Store.Merge

/-!
# Rejected replication requests

`handleReplicateRequest` checks and applies the entries of a request in one pass, and stops at the
first one of a foreign key. So a request is rejected exactly if it has such an entry, but the
entries in front of it are merged by then (`applyRequest_eq`). The store is left as it was if and
only if it covers them (`request_rejected_iff`).
-/

set_option autoImplicit false

namespace Hapartition.Handler

open Lib

variable (H : Hashing) (h : Handler) (ring : Hashring)

/-- The entries of a request in front of the first one of a foreign key. -/
def ownPart (entries : List Pb.Entry) : List Pb.Entry :=
  entries.takeWhile fun e => h.isReplica H ring e.key

/-- The pass over a request merges the entries in front of the first foreign one. -/
theorem applyRequest_eq (store : Store) (entries : List Pb.Entry) :
    h.applyRequest H ring store entries =
      (store.mergeAll (Pb.pairs (h.ownPart H ring entries)),
        entries.all fun e => h.isReplica H ring e.key) := by
  induction entries generalizing store with
  | nil => rfl
  | cons e es ih =>
      rw [applyRequest, ownPart, List.takeWhile_cons, List.all_cons]
      cases h.isReplica H ring e.key with
      | true =>
          rw [if_pos rfl, if_pos rfl, ih, Bool.true_and]
          rfl
      | false => rfl

/-- What is stored under the key of the entry is not older. -/
def NotNewer (store : Store) (e : Pb.Entry) : Prop :=
  ∃ old, store.snapshot[e.key]? = some old ∧ newer e.entry old = false

theorem covers_iff_notNewer {store : Store} {e : Pb.Entry} :
    Covers store.tree[e.key]? e.entry ↔ NotNewer store e := by
  apply exists_congr
  intro old
  rw [newer_eq_false_iff]
  rfl

theorem success_iff (store : Store) (req : Pb.ReplicateRequest) :
    (h.handleReplicateRequest H ring store req).2.success = true ↔
      ∀ e ∈ req.entries, h.nodeID ∈ (ring.replicasFor H e.key h.replicaRF).map Replica.nodeID := by
  have hresponse : (h.handleReplicateRequest H ring store req).2.success =
      req.entries.all fun e => h.isReplica H ring e.key := by
    rw [handleReplicateRequest, applyRequest_eq]
  rw [hresponse, List.all_eq_true]
  apply forall₂_congr
  intro e _
  exact isReplica_iff

theorem store_unchanged_iff (store : Store) (req : Pb.ReplicateRequest) :
    (h.handleReplicateRequest H ring store req).1 = store ↔
      ∀ e ∈ h.ownPart H ring req.entries, NotNewer store e := by
  have hstore : (h.handleReplicateRequest H ring store req).1 =
      store.mergeAll (Pb.pairs (h.ownPart H ring req.entries)) := by
    rw [handleReplicateRequest, applyRequest_eq]
  rw [hstore, Store.mergeAll_eq_self_iff, Pb.pairs, List.forall_mem_map]
  apply forall₂_congr
  intro e _
  exact covers_iff_notNewer

/-- **Rejected requests.** A request is answered with success if and only if the node is a replica
for the key of every entry. A request that is not leaves the store as it was if and only if no entry
in front of the first foreign one is newer than what is stored under its key. -/
theorem request_rejected_iff (store : Store) (req : Pb.ReplicateRequest) :
    ((h.handleReplicateRequest H ring store req).2.success = true ↔
      ∀ e ∈ req.entries, h.nodeID ∈ (ring.replicasFor H e.key h.replicaRF).map Replica.nodeID) ∧
    (((h.handleReplicateRequest H ring store req).2.success = false →
        (h.handleReplicateRequest H ring store req).1 = store) ↔
      ((∃ e ∈ req.entries,
          h.nodeID ∉ (ring.replicasFor H e.key h.replicaRF).map Replica.nodeID) →
        ∀ e ∈ h.ownPart H ring req.entries, NotNewer store e)) := by
  have hsuccess := success_iff H h ring store req
  refine ⟨hsuccess, ?_⟩
  rw [store_unchanged_iff, ← Bool.not_eq_true, hsuccess]
  push Not
  exact Iff.rfl

/-- A node that is a replica for `a` but not for `b`. -/
def halfOwner : Handler := ⟨str "n1", 1, [], ∅, 0⟩

def halfRing : Hashring :=
  Hashring.build .xxhash (str "n1") [.addNode (str "n1") (str "a:1") 1,
    .addNode (str "n2") (str "b:1") 1]

/-- A request with an entry for each. -/
def mixedRequest : Pb.ReplicateRequest :=
  ⟨str "r", str "n2",
    [⟨str "a", str "1", 7, str "n2", false⟩, ⟨str "b", str "2", 8, str "n2", false⟩]⟩

/-- The request is rejected, but its first entry is stored. -/
theorem rejected_request_stored :
    (halfOwner.handleReplicateRequest .xxhash halfRing .new mixedRequest).2.success = false ∧
    (halfOwner.handleReplicateRequest .xxhash halfRing .new mixedRequest).1.get (str "a") =
      some (str "1", 7) ∧
    (halfOwner.handleReplicateRequest .xxhash halfRing .new mixedRequest).1.len = 1 ∧
    (halfOwner.handleReplicateRequest .xxhash halfRing .new mixedRequest).1.clock = 7 ∧
    (halfOwner.handleReplicateRequest .xxhash halfRing .new mixedRequest).1 ≠ .new := by
  have hlen : (halfOwner.handleReplicateRequest .xxhash halfRing .new mixedRequest).1.len = 1 := by
    decide +kernel
  refine ⟨by decide +kernel, by decide +kernel, hlen, by decide +kernel, ?_⟩
  intro hnew
  rw [hnew] at hlen
  cases hlen

end Hapartition.Handler
