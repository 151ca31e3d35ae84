import Hapartition.Merkle.Compare
import Hapartition.Store.Merge

/-!
# What an empty difference says about synchronisation

A tree hashes keys, values and versions of live entries, while a merge compares versions, origins,
deletions and values of all entries. `live_data_in_sync` says what is left to synchronise when
`Diff` finds nothing: the live data of the two stores is the same, so merging one snapshot into the
other changes no `Get` and no `Len`; the stores themselves stay as they are only if they agree in
tombstones and origins too. `tombstone_not_compared` is a pair of stores that do not.
-/

set_option autoImplicit false

namespace Hapartition

open Lib
open Std (ExtTreeMap)

/-! ## Merging a snapshot -/

namespace Store

variable {s : Store}

theorem mem_perm_snapshot {l : List (Bytes × Entry)} (hl : l.Perm s.snapshot.toList)
    {p : Bytes × Entry} : p ∈ l ↔ s.tree[p.1]? = some p.2 := by
  rw [hl.mem_iff, snapshot, ExtTreeMap.mem_toList_iff_getElem?_eq_some]

/-- Entries that cover each other are equal. -/
theorem getElem?_of_covers_both {t : Store} {ls lt : List (Bytes × Entry)}
    (hls : ls.Perm s.snapshot.toList) (hlt : lt.Perm t.snapshot.toList)
    (hst : ∀ p ∈ ls, Covers t.tree[p.1]? p.2) (hts : ∀ p ∈ lt, Covers s.tree[p.1]? p.2) {k : Bytes}
    {e : Entry} (he : s.tree[k]? = some e) : t.tree[k]? = some e := by
  obtain ⟨e', he', hle⟩ := hst (k, e) ((mem_perm_snapshot hls).2 he)
  obtain ⟨e'', he'', hle'⟩ := hts (k, e') ((mem_perm_snapshot hlt).2 he')
  have hsame : e'' = e := Option.some.inj (he''.symm.trans he)
  exact he'.trans (congrArg some (le_antisymm (hle'.trans_eq hsame) hle))

/-- Two stores leave each other as they are if and only if they hold the same. -/
theorem mergeAll_snapshot_eq_self_iff {a b : Store} {la lb : List (Bytes × Entry)}
    (hla : la.Perm a.snapshot.toList) (hlb : lb.Perm b.snapshot.toList) :
    a.mergeAll lb = a ∧ b.mergeAll la = b ↔ a.snapshot = b.snapshot := by
  rw [mergeAll_eq_self_iff, mergeAll_eq_self_iff]
  constructor
  · rintro ⟨hab, hba⟩
    apply ExtTreeMap.ext_getElem?
    intro k
    apply Option.ext
    intro e
    exact ⟨getElem?_of_covers_both hla hlb hba hab, getElem?_of_covers_both hlb hla hab hba⟩
  · intro h
    have htree : a.tree = b.tree := h
    constructor
    · intro p hp
      exact ⟨p.2, htree ▸ (mem_perm_snapshot hlb).1 hp, le_refl _⟩
    · intro p hp
      exact ⟨p.2, htree ▸ (mem_perm_snapshot hla).1 hp, le_refl _⟩

end Store

/-! ## Stores without a difference -/

namespace Merkle

/-- What one of two stores with the same live data holds shows what the other one shows. -/
theorem shown_of_liveTriples {a b : Store} (h : liveTriples a = liveTriples b)
    {lb : List (Bytes × Entry)} (hlb : lb.Perm b.snapshot.toList) :
    ∀ p ∈ lb, a.get p.1 = Store.shown p.2 := by
  intro p hp
  rw [liveTriples_eq_iff.1 h, Store.get_of_getElem? ((Store.mem_perm_snapshot hlb).1 hp)]

/-- So merging its snapshot changes no `Get` and no `Len`. -/
theorem mergeAll_of_liveTriples {a b : Store} (ha : a.LengthOk) (h : liveTriples a = liveTriples b)
    {lb : List (Bytes × Entry)} (hlb : lb.Perm b.snapshot.toList) :
    (∀ key, (a.mergeAll lb).get key = a.get key) ∧ (a.mergeAll lb).len = a.len := by
  have hget := Store.get_mergeAll (shown_of_liveTriples h hlb)
  exact ⟨hget, Store.len_congr (Store.lengthOk_mergeAll ha lb) ha hget⟩

/-- **An empty difference means that the live data is the same.** For any number of leaves for which
`Build` returns on both stores, if `Diff` finds nothing (and SHA-256 is injective on what is
hashed), the stores have the same live triples; merging each snapshot into the other store, in any
order, changes no `Get` and no `Len`; and it leaves both stores as they are if and only if the
snapshots are equal. -/
theorem live_data_in_sync {A : Hasher} {fits : Nat → Bool} {a b : Store} {n : Int64} {N : Nat}
    {ta tb : Tree} (ha : a.Reachable) (hb : b.Reachable) (hsa : ShortEntries a)
    (hsb : ShortEntries b) (hta : build A fits a n = .ok ta) (htb : build A fits b n = .ok tb)
    (hN : (leafCount n).toInt = N)
    (hinj : Set.InjOn A.sha256 (hashed a N ta ∪ hashed b N tb)) (hdiff : diff ta tb = .ok [])
    {la lb : List (Bytes × Entry)} (hla : la.Perm a.snapshot.toList)
    (hlb : lb.Perm b.snapshot.toList) :
    liveTriples a = liveTriples b ∧
      ((∀ key, (a.mergeAll lb).get key = a.get key) ∧ (a.mergeAll lb).len = a.len) ∧
      ((∀ key, (b.mergeAll la).get key = b.get key) ∧ (b.mergeAll la).len = b.len) ∧
      (a.mergeAll lb = a ∧ b.mergeAll la = b ↔ a.snapshot = b.snapshot) := by
  have hBuiltA := built_of_build hta hN
  have hBuiltB := built_of_build htb hN
  have hpos : 0 < N := by
    have := leafCount_pos n
    omega
  have hlive : liveTriples a = liveTriples b := by
    rw [← forall_bucket_eq_iff hpos]
    intro i hi
    rw [← leafHash_eq_iff hsa hsb hinj hi]
    exact (diff_eq_nil_iff hBuiltA hBuiltB hdiff).1 rfl i hi
  exact ⟨hlive, mergeAll_of_liveTriples ha.lengthOk hlive hlb,
    mergeAll_of_liveTriples hb.lengthOk hlive.symm hla, Store.mergeAll_snapshot_eq_self_iff hla hlb⟩

/-- A write and a delete at `n1`. -/
def writer : Store :=
  ((Store.new.setFrom (str "a") (str "1") (str "n1")).1.del (str "n1") [str "b"]).1

/-- The write has been replicated, the delete has not. -/
def replica : Store := (Store.new.setWithVersion (str "a") ⟨str "1", 1, str "n1", false⟩).1

theorem writer_reachable : writer.Reachable :=
  ⟨[.setFrom (str "a") (str "1") (str "n1"), .del (str "n1") [str "b"]], rfl⟩

theorem replica_reachable : replica.Reachable :=
  ⟨[.setWithVersion (str "a") ⟨str "1", 1, str "n1", false⟩], rfl⟩

/-- Their trees with two leaves do not differ. -/
theorem writer_replica_trees :
    ∃ ta tb, build Hasher.standard (fun _ => true) writer 2 = .ok ta ∧
      build Hasher.standard (fun _ => true) replica 2 = .ok tb ∧
      Set.InjOn Sha256.sum256 (hashed writer 2 ta ∪ hashed replica 2 tb) ∧ diff ta tb = .ok [] := by
  have hfits : Allocatable (fun _ => true) (leafCount 2) := ⟨rfl, by decide, rfl⟩
  obtain ⟨ta, hta, hBuiltA⟩ : ∃ t, build Hasher.standard (fun _ => true) writer 2 = .ok t ∧
      Built Hasher.standard writer 2 t := build_ok hfits rfl (by decide)
  obtain ⟨tb, htb, hBuiltB⟩ : ∃ t, build Hasher.standard (fun _ => true) replica 2 = .ok t ∧
      Built Hasher.standard replica 2 t := build_ok hfits rfl (by decide)
  have hbuckets : ∀ i < 2, bucket writer 2 i = bucket replica 2 i := by
    decide +kernel
  have hdiff := diff_eq hBuiltA hBuiltB
  have hnil := (diff_eq_nil_iff hBuiltA hBuiltB hdiff).2 fun i hi => by rw [hbuckets i hi]
  rw [hnil] at hdiff
  exact ⟨ta, tb, hta, htb, injOn_hashedTwo hBuiltA hBuiltB (by decide +kernel), hdiff⟩

/-- The write and the delete of one node against the replicated write. -/
theorem live_data_in_sync_pair :
    liveTriples writer = liveTriples replica ∧
      (writer.mergeAll replica.snapshot.toList = writer ∧
        replica.mergeAll writer.snapshot.toList = replica ↔
          writer.snapshot = replica.snapshot) := by
  obtain ⟨ta, tb, hta, htb, hinj, hdiff⟩ := writer_replica_trees
  obtain ⟨hlive, -, -, hmerge⟩ := live_data_in_sync writer_reachable replica_reachable
    (shortEntries_of_iterate (by decide +kernel)) (shortEntries_of_iterate (by decide +kernel))
    hta htb rfl hinj hdiff (.refl _) (.refl _)
  exact ⟨hlive, hmerge⟩

/-- The trees do not differ, and yet merging the snapshot of the writer changes the replica: the
tombstone is not in the tree. -/
theorem tombstone_not_compared :
    writer.Reachable ∧ replica.Reachable ∧ ∃ ta tb,
      build Hasher.standard (fun _ => true) writer 2 = .ok ta ∧
      build Hasher.standard (fun _ => true) replica 2 = .ok tb ∧
      Set.InjOn Sha256.sum256 (hashed writer 2 ta ∪ hashed replica 2 tb) ∧ diff ta tb = .ok [] ∧
      (replica.mergeAll writer.snapshot.toList).snapshot[str "b"]? ≠
        replica.snapshot[str "b"]? := by
  obtain ⟨ta, tb, hta, htb, hinj, hdiff⟩ := writer_replica_trees
  exact ⟨writer_reachable, replica_reachable, ta, tb, hta, htb, hinj, hdiff, by decide +kernel⟩

end Merkle

end Hapartition
