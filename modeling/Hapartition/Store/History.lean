import Hapartition.Store.Delete

/-!
# The store is the join of its history

A history is a finite sequence of calls of `Set`, `SetFrom`, `Del` and `SetWithVersion` on a store
made by `New`. `run` returns the final store and every entry for a key that some `SetFrom` or `Del`
returned or that was passed to `SetWithVersion`. In a history in which no increment of the clock
wraps (in particular one in which the clock stays below the 64-bit maximum), the store holds at
every key the newest of these entries, and the clock is the greatest of `0` and their versions
(`joinOf_run`). The store is thus a function of the *set* of entries it has seen
(`store_join_of_history`).
-/

set_option autoImplicit false

namespace Hapartition

open Lib
open Std (ExtTreeMap)

namespace Store

/-- One call on the store. -/
inductive Op where
  | set (key value : Bytes)
  | setFrom (key value origin : Bytes)
  | del (origin : Bytes) (keys : List Bytes)
  | setWithVersion (key : Bytes) (entry : Entry)

namespace Op

/-- The store after the call. -/
def apply (s : Store) : Op → Store
  | .set key value => (s.set key value).1
  | .setFrom key value origin => (s.setFrom key value origin).1
  | .del origin keys => (s.del origin keys).1
  | .setWithVersion key entry => (s.setWithVersion key entry).1

/-- The entries that the call returned, or was passed. -/
def entries (s : Store) : Op → List (Bytes × Entry)
  | .set key value => [(key, (s.setFrom key value []).2)]
  | .setFrom key value origin => [(key, (s.setFrom key value origin).2)]
  | .del origin keys => (s.del origin keys).2.2.toList
  | .setWithVersion key entry => [(key, entry)]

/-- The number of versions that the call allocates. -/
def allocations : Op → Nat
  | .set _ _ => 1
  | .setFrom _ _ _ => 1
  | .del _ keys => keys.eraseDups.length
  | .setWithVersion _ _ => 0

/-- No increment of the clock during the call wraps. -/
def NoWrap (s : Store) (op : Op) : Prop :=
  s.clock.toInt + op.allocations ≤ Int64.maxValue.toInt

/-- Every call is a sequence of merges of its entries. -/
theorem absorbsAll {s : Store} (hs : s.ClockOk) (op : Op) (hw : op.NoWrap s) :
    ∃ es, AbsorbsAll s es (op.apply s) ∧ ∀ p, p ∈ es ↔ p ∈ op.entries s := by
  cases op with
  | set key value =>
      exact ⟨_, .single (p := (key, _)) (absorbs_setFrom key value [] hw), fun p => Iff.rfl⟩
  | setFrom key value origin =>
      exact ⟨_, .single (p := (key, _)) (absorbs_setFrom key value origin hw), fun p => Iff.rfl⟩
  | del origin keys =>
      obtain ⟨es, hd⟩ := absorbsAll_del hs origin keys hw
      refine ⟨es, hd.absorbs, ?_⟩
      intro p
      rw [entries, ExtTreeMap.mem_toList_iff_getElem?_eq_some]
      exact hd.mem_iff p.1 p.2
  | setWithVersion key entry =>
      exact ⟨_, .single (p := (key, entry)) (absorbs_setWithVersion hs key entry), fun p => Iff.rfl⟩

theorem lengthOk {s : Store} (h : s.LengthOk) (op : Op) : (op.apply s).LengthOk := by
  cases op with
  | set key value => exact lengthOk_setFrom h key value []
  | setFrom key value origin => exact lengthOk_setFrom h key value origin
  | del origin keys => exact lengthOk_del h origin keys
  | setWithVersion key entry => exact lengthOk_setWithVersion h key entry

end Op

/-- The store after a sequence of calls, and the entries the calls returned or were passed. -/
def run : Store → List Op → Store × List (Bytes × Entry)
  | s, [] => (s, [])
  | s, op :: ops => ((run (op.apply s) ops).1, op.entries s ++ (run (op.apply s) ops).2)

/-- A store that calls on a new store lead to. -/
def Reachable (s : Store) : Prop := ∃ ops, (run new ops).1 = s

/-- No increment of the clock during the calls wraps. -/
def NoWrapRun : Store → List Op → Prop
  | _, [] => True
  | s, op :: ops => op.NoWrap s ∧ NoWrapRun (op.apply s) ops

/-- `o` is the maximum, in the order of `newer`, of the entries `S`, or nothing when there are
none. -/
def HoldsNewest (o : Option Entry) (S : Set Entry) : Prop :=
  match o with
  | none => S = ∅
  | some e => e ∈ S ∧ ∀ e' ∈ S, e' = e ∨ newer e e' = true

theorem holdsNewest_of_isNewest {o : Option Entry} {S : Set Entry} (h : IsNewest o S) :
    HoldsNewest o S := by
  cases o with
  | none =>
      apply Set.eq_empty_of_forall_notMem
      intro e he
      obtain ⟨b, hb, -⟩ := h.covers e he
      simp at hb
  | some e =>
      refine ⟨h.mem e rfl, ?_⟩
      intro e' he'
      rw [newer_iff_lt]
      exact (h.isGreatest.2 he').eq_or_lt

/-- The store is the join of the entries `H`. -/
structure JoinOf (s : Store) (H : Set (Bytes × Entry)) : Prop where
  entry : ∀ k, IsNewest s.tree[k]? {e | (k, e) ∈ H}
  clock : IsGreatest (insert 0 {v | ∃ p ∈ H, p.2.version = v}) s.clock

namespace JoinOf

variable {s t : Store} {H : Set (Bytes × Entry)}

theorem new : JoinOf new ∅ where
  entry k := by
    simpa [Store.new] using isNewest_empty (α := Entry)
  clock := by
    simp [Store.new]

theorem version_le (h : JoinOf s H) {p : Bytes × Entry} (hp : p ∈ H) : p.2.version ≤ s.clock :=
  h.clock.2 (Or.inr ⟨p, hp, rfl⟩)

theorem clockOk (h : JoinOf s H) : s.ClockOk := by
  intro k e he
  have hmem : (k, e) ∈ H := (h.entry k).mem e he
  exact h.version_le (p := (k, e)) hmem

/-- One merge adds one entry to the history. -/
theorem absorbs (h : JoinOf s H) {k : Bytes} {e : Entry} (ha : Absorbs s k e t) :
    JoinOf t (insert (k, e) H) where
  entry a := by
    rw [ha.tree]
    by_cases hk : k = a
    · subst hk
      rw [if_pos rfl]
      have hset : {e' | (k, e') ∈ insert (k, e) H} = insert e {e' | (k, e') ∈ H} := by
        ext e'
        simp
      rw [hset]
      exact (h.entry k).merge e
    · rw [if_neg hk]
      have hset : {e' | (a, e') ∈ insert (k, e) H} = {e' | (a, e') ∈ H} := by
        ext e'
        simp [Ne.symm hk]
      rw [hset]
      exact h.entry a
  clock := by
    rw [ha.clock]
    have hset : (insert 0 {v | ∃ p ∈ insert (k, e) H, p.2.version = v} : Set Int64) =
        insert e.version (insert 0 {v | ∃ p ∈ H, p.2.version = v}) := by
      ext v
      simp [or_left_comm, eq_comm]
    rw [hset, max_comm]
    exact h.clock.insert e.version

theorem absorbsAll {es : List (Bytes × Entry)} (hab : AbsorbsAll s es t) :
    ∀ {H : Set (Bytes × Entry)}, JoinOf s H → JoinOf t (H ∪ {p | p ∈ es}) := by
  induction hab with
  | nil s =>
      intro H h
      simpa using h
  | @cons s t u p es ha _ ih =>
      intro H h
      have hset : insert p H ∪ {q | q ∈ es} = H ∪ {q | q ∈ p :: es} := by
        ext q
        simp only [Set.mem_union, Set.mem_insert_iff, Set.mem_ofPred_eq, List.mem_cons]
        tauto
      exact hset ▸ ih (h.absorbs ha)

/-- Two stores that are the join of one history hold the same entries under the same clock. -/
theorem unique (h : JoinOf s H) (h' : JoinOf t H) : s.tree = t.tree ∧ s.clock = t.clock :=
  ⟨ExtTreeMap.ext_getElem? fun k => (h.entry k).unique (h'.entry k), h.clock.unique h'.clock⟩

/-- An entry of the history is rejected when it comes again. -/
theorem redeliver (h : JoinOf s H) {p : Bytes × Entry} (hp : p ∈ H) :
    s.setWithVersion p.1 p.2 = (s, false) :=
  setWithVersion_of_covers ((h.entry p.1).covers p.2 hp)

end JoinOf

/-- A run from the join of `H` ends in the join of `H` and the entries of the run. -/
theorem joinOf_run {s : Store} {H : Set (Bytes × Entry)} (hs : JoinOf s H) (ops : List Op)
    (hw : NoWrapRun s ops) : JoinOf (run s ops).1 (H ∪ {p | p ∈ (run s ops).2}) := by
  induction ops generalizing s H with
  | nil => simpa [run] using hs
  | cons op ops ih =>
      -- the join bounds the stored versions by the clock, which makes the next call a merge
      obtain ⟨es, hab, hmem⟩ := op.absorbsAll hs.clockOk hw.1
      have h := ih (hs.absorbsAll hab) hw.2
      have hset : H ∪ {p | p ∈ es} ∪ {p | p ∈ (run (op.apply s) ops).2} =
          H ∪ {p | p ∈ (run s (op :: ops)).2} := by
        ext p
        simp [run, hmem, or_assoc]
      exact hset ▸ h

theorem joinOf_run_new (ops : List Op) (hw : NoWrapRun new ops) :
    JoinOf (run new ops).1 {p | p ∈ (run new ops).2} := by
  simpa using joinOf_run JoinOf.new ops hw

theorem lengthOk_run {s : Store} (hs : s.LengthOk) (ops : List Op) : (run s ops).1.LengthOk := by
  induction ops generalizing s with
  | nil => exact hs
  | cons op ops ih => exact ih (op.lengthOk hs)

theorem Reachable.lengthOk {s : Store} (h : s.Reachable) : s.LengthOk := by
  obtain ⟨ops, rfl⟩ := h
  exact lengthOk_run lengthOk_new ops

/-- A local write takes effect with a version above all stored ones. -/
theorem setFrom_takes_effect {s : Store} (hs : s.ClockOk) (key value origin : Bytes)
    (hw : (Op.setFrom key value origin).NoWrap s) :
    (s.setFrom key value origin).1.tree[key]? = some (s.setFrom key value origin).2 ∧
      ∀ (k : Bytes) (e : Entry), s.tree[k]? = some e →
        e.version < (s.setFrom key value origin).2.version := by
  have hlt : s.clock < (s.setFrom key value origin).2.version := by
    rw [setFrom_snd]
    exact clock_lt_add_one hw
  constructor
  · rw [getElem?_setFrom, if_pos rfl, merge_eq_some_of_clock_lt hs key hlt]
  · intro k e he
    exact (hs k e he).trans_lt hlt

/-- So does a local delete: it leaves a tombstone of its own at every key it lists. -/
theorem del_takes_effect {s : Store} (hs : s.ClockOk) (origin : Bytes) (keys : List Bytes)
    (hw : (Op.del origin keys).NoWrap s) :
    (∀ k ∈ keys, ∃ t, (s.del origin keys).2.2[k]? = some t ∧ t.deleted = true ∧
      t.origin = origin) ∧
    ∀ (k : Bytes) (t : Entry), (s.del origin keys).2.2[k]? = some t →
      (s.del origin keys).1.tree[k]? = some t ∧
        ∀ (k' : Bytes) (e : Entry), s.tree[k']? = some e → e.version < t.version := by
  obtain ⟨es, hd⟩ := absorbsAll_del hs origin keys hw
  constructor
  · intro k hk
    obtain ⟨t, ht, -, -⟩ := exists_tombstone_del s origin hk
    obtain ⟨hdeleted, horigin, -⟩ := hd.fields k t ht
    exact ⟨t, ht, hdeleted, horigin⟩
  · intro k t ht
    exact ⟨stored_del ht, fun k' e he => (hs k' e he).trans_lt (hd.fields k t ht).2.2⟩

/-- **The store is the join of its history.** At every key it holds the newest entry it has seen,
its clock is the greatest of `0` and the versions it has seen, two stores that have seen the same
entries agree in `Snapshot`, `Len` and next version, local writes and deletes take effect above all
stored versions, and an entry that comes again is rejected without a change. -/
theorem store_join_of_history (ops : List Op) (hw : NoWrapRun new ops) :
    (∀ k, HoldsNewest (run new ops).1.snapshot[k]? {e | (k, e) ∈ (run new ops).2}) ∧
    IsGreatest (insert 0 {v | ∃ p ∈ (run new ops).2, p.2.version = v}) (run new ops).1.clock ∧
    (∀ ops', NoWrapRun new ops' → (∀ p, p ∈ (run new ops).2 ↔ p ∈ (run new ops').2) →
      (run new ops).1.snapshot = (run new ops').1.snapshot ∧
      (run new ops).1.len = (run new ops').1.len ∧
      ∀ key value origin, ((run new ops).1.setFrom key value origin).2.version =
        ((run new ops').1.setFrom key value origin).2.version) ∧
    (∀ key value origin, (Op.setFrom key value origin).NoWrap (run new ops).1 →
      ((run new ops).1.setFrom key value origin).1.tree[key]? =
        some ((run new ops).1.setFrom key value origin).2 ∧
      ∀ (k : Bytes) (e : Entry), (run new ops).1.tree[k]? = some e →
        e.version < ((run new ops).1.setFrom key value origin).2.version) ∧
    (∀ origin keys, (Op.del origin keys).NoWrap (run new ops).1 →
      (∀ k ∈ keys, ∃ t, ((run new ops).1.del origin keys).2.2[k]? = some t ∧ t.deleted = true ∧
        t.origin = origin) ∧
      ∀ (k : Bytes) (t : Entry), ((run new ops).1.del origin keys).2.2[k]? = some t →
        ((run new ops).1.del origin keys).1.tree[k]? = some t ∧
        ∀ (k' : Bytes) (e : Entry), (run new ops).1.tree[k']? = some e → e.version < t.version) ∧
    ∀ p ∈ (run new ops).2, (run new ops).1.setWithVersion p.1 p.2 = ((run new ops).1, false) := by
  have h := joinOf_run_new ops hw
  refine ⟨fun k => holdsNewest_of_isNewest (h.entry k), h.clock, ?_, ?_, ?_, ?_⟩
  · intro ops' hw' hsame
    have h' := joinOf_run_new ops' hw'
    have hset : {p | p ∈ (run new ops').2} = {p | p ∈ (run new ops).2} := by
      ext p
      exact (hsame p).symm
    obtain ⟨htree, hclock⟩ := h.unique (hset ▸ h')
    refine ⟨htree, ?_, fun key value origin => ?_⟩
    · -- `Len` counts the live entries, so it is a function of the tree
      have hl := lengthOk_run lengthOk_new ops
      have hl' := lengthOk_run lengthOk_new ops'
      unfold LengthOk at hl hl'
      rw [len, len, hl, hl', htree]
    · rw [setFrom_snd, setFrom_snd, hclock]
  · intro key value origin hw'
    exact setFrom_takes_effect h.clockOk key value origin hw'
  · intro origin keys hw'
    exact del_takes_effect h.clockOk origin keys hw'
  · intro p hp
    exact h.redeliver hp

/-- A history with a write, a replicated entry that loses, a delete with a repeated key and a late
duplicate. -/
theorem store_join_of_history_sample :
    HoldsNewest
      (run new [.setFrom (str "k") (str "v") (str "n1"),
        .setWithVersion (str "k") ⟨str "w", 1, str "n0", false⟩,
        .del (str "n1") [str "k", str "k"],
        .setWithVersion (str "k") ⟨str "v", 1, str "n1", false⟩]).1.snapshot[str "k"]?
      {e | (str "k", e) ∈ (run new [.setFrom (str "k") (str "v") (str "n1"),
        .setWithVersion (str "k") ⟨str "w", 1, str "n0", false⟩,
        .del (str "n1") [str "k", str "k"],
        .setWithVersion (str "k") ⟨str "v", 1, str "n1", false⟩]).2} :=
  (store_join_of_history
    [.setFrom (str "k") (str "v") (str "n1"),
      .setWithVersion (str "k") ⟨str "w", 1, str "n0", false⟩,
      .del (str "n1") [str "k", str "k"],
      .setWithVersion (str "k") ⟨str "v", 1, str "n1", false⟩]
    (by simp only [NoWrapRun, Op.NoWrap]; decide)).1 (str "k")

end Store

end Hapartition
