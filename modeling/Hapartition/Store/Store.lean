import Hapartition.Store.Entry
import Hapartition.Lib.Dict

/-!
# The versioned key-value store

`Store` and its operations, from `pkg/store/store.go`. The B-tree of items is an ordered map from
keys to entries; the mutex makes every operation atomic, so each is a function of the state before
it. The clock is the wrapping 64-bit counter of the source.

A write through `SetFrom` or `SetWithVersion` is a merge into the register of its key
(`getElem?_setFrom`, `getElem?_setWithVersion`); `Del` overwrites. The counter behind `Len` is the
number of entries that are no tombstones (`LengthOk`), whatever the clock does.
-/

set_option autoImplicit false

namespace Hapartition

open Lib
open Std (ExtTreeMap)

/-- `pkg/store.Store`. -/
structure Store where
  tree : ExtTreeMap Bytes Entry compare
  clock : Int64
  length : Int

/-- The state of the loop of `Del`: the store, the count of live keys met and the tombstone map. -/
structure DelLoop where
  store : Store
  n : Int
  tombstones : ExtTreeMap Bytes Entry compare

namespace Store

/-- `New`. -/
def new : Store := ⟨∅, 0, 0⟩

/-- `SetFrom`. -/
def setFrom (s : Store) (key value origin : Bytes) : Store × Entry :=
  let clock := s.clock + 1
  let entry : Entry := ⟨value, clock, origin, false⟩
  match s.tree[key]? with
  | none => (⟨s.tree.insert key entry, clock, s.length + 1⟩, entry)
  | some old =>
      -- the entry is returned in any case, also when it loses against the stored one
      if newer entry old then
        (⟨s.tree.insert key entry, clock, if old.deleted then s.length + 1 else s.length⟩, entry)
      else (⟨s.tree, clock, s.length⟩, entry)

/-- `Set`. -/
def set (s : Store) (key value : Bytes) : Store × Int64 :=
  let r := s.setFrom key value []
  (r.1, r.2.version)

/-- The length after `SetWithVersion` has replaced `old` by `entry`. -/
def lengthAfter (length : Int) (old : Option Entry) (entry : Entry) : Int :=
  if !entry.deleted && old.all (·.deleted) then length + 1
  else if old.any (!·.deleted) && entry.deleted then length - 1
  else length

/-- `SetWithVersion`. -/
def setWithVersion (s : Store) (key : Bytes) (entry : Entry) : Store × Bool :=
  if s.tree[key]?.any fun old => !newer entry old then (s, false)
  -- the clock follows only an entry that is stored
  else
    (⟨s.tree.insert key entry, if s.clock < entry.version then entry.version else s.clock,
      lengthAfter s.length s.tree[key]? entry⟩, true)

/-- `Get`: the value and version of a live key. -/
def get (s : Store) (key : Bytes) : Option (Bytes × Int64) :=
  match s.tree[key]? with
  | none => none
  | some it => if it.deleted then none else some (it.value, it.version)

/-- `Snapshot`. -/
def snapshot (s : Store) : ExtTreeMap Bytes Entry compare := s.tree

/-- `Len`. -/
def len (s : Store) : Int := s.length

/-- One turn of the loop of `Del`. -/
def delKey (origin : Bytes) (d : DelLoop) (key : Bytes) : DelLoop :=
  -- a key that is given twice is deleted once
  if d.tombstones.contains key then d
  else
    -- no comparison: the tombstone replaces whatever is stored
    let live := d.store.tree[key]?.any (!·.deleted)
    let entry : Entry := ⟨[], d.store.clock + 1, origin, true⟩
    { store :=
        ⟨d.store.tree.insert key entry, d.store.clock + 1,
          if live then d.store.length - 1 else d.store.length⟩
      n := if live then d.n + 1 else d.n
      tombstones := d.tombstones.insert key entry }

/-- The loop of `Del` over `keys`. -/
def delLoop (s : Store) (origin : Bytes) (keys : List Bytes) : DelLoop :=
  keys.foldl (delKey origin) ⟨s, 0, ∅⟩

/-- `Del`: the new store, the count of live keys removed and the tombstones. -/
def del (s : Store) (origin : Bytes) (keys : List Bytes) :
    Store × Int × ExtTreeMap Bytes Entry compare :=
  let d := s.delLoop origin keys
  (d.store, d.n, d.tombstones)

/-! ## What a write does to the registers -/

/-- The entry that `SetFrom` allocates. -/
theorem setFrom_snd (s : Store) (key value origin : Bytes) :
    (s.setFrom key value origin).2 = ⟨value, s.clock + 1, origin, false⟩ := by
  unfold setFrom
  cases s.tree[key]? with
  | none => rfl
  | some old => simp only; split <;> rfl

theorem setFrom_clock (s : Store) (key value origin : Bytes) :
    (s.setFrom key value origin).1.clock = s.clock + 1 := by
  unfold setFrom
  cases s.tree[key]? with
  | none => rfl
  | some old => simp only; split <;> rfl

/-- `SetFrom` merges its entry into the register of the key. -/
theorem getElem?_setFrom (s : Store) (key value origin a : Bytes) :
    (s.setFrom key value origin).1.tree[a]? =
      if key = a then merge s.tree[key]? (s.setFrom key value origin).2 else s.tree[a]? := by
  rw [setFrom_snd]
  unfold setFrom
  cases h : s.tree[key]? with
  | none => simp only [Dict.getElem?_insert, merge]
  | some old =>
      simp only [merge, ← newer_iff_lt]
      split
      · rw [Dict.getElem?_insert]
      · by_cases ha : key = a
        · rw [if_pos ha, ← ha, h]
        · rw [if_neg ha]

/-- `SetWithVersion` merges its entry into the register of the key. -/
theorem getElem?_setWithVersion (s : Store) (key : Bytes) (entry : Entry) (a : Bytes) :
    (s.setWithVersion key entry).1.tree[a]? =
      if key = a then merge s.tree[key]? entry else s.tree[a]? := by
  unfold setWithVersion
  cases h : s.tree[key]? with
  | none => simp [merge, Dict.getElem?_insert]
  | some old =>
      simp only [Option.any_some, merge, ← newer_iff_lt]
      by_cases hn : newer entry old = true
      · simp [hn, Dict.getElem?_insert]
      · by_cases ha : key = a
        · simp [hn, ← ha, h]
        · simp [hn, ha]

section Registers

variable {tree : ExtTreeMap Bytes Entry compare} {key k : Bytes} {entry e : Entry}

/-- What a register holds after a merge at `key` it held before, or it is the entry merged. -/
theorem eq_some_of_merge_at (h : (if key = k then merge tree[key]? entry else tree[k]?) = some e) :
    tree[k]? = some e ∨ k = key ∧ e = entry := by
  by_cases hk : key = k
  · subst hk
    rw [if_pos rfl] at h
    exact (merge_eq_some h).imp_right fun he => ⟨rfl, he⟩
  · rw [if_neg hk] at h
    exact .inl h

/-- What a register covers it still covers after a merge at `key`. -/
theorem covers_merge_at (h : Covers tree[k]? e) :
    Covers (if key = k then merge tree[key]? entry else tree[k]?) e := by
  by_cases hk : key = k
  · subst hk
    rw [if_pos rfl]
    exact h.merge entry
  · rwa [if_neg hk]

end Registers

/-- What is stored after `SetFrom` was stored before, or is the new entry. -/
theorem getElem?_setFrom_eq_some {s : Store} {key value origin k : Bytes} {e : Entry}
    (h : (s.setFrom key value origin).1.tree[k]? = some e) :
    s.tree[k]? = some e ∨ k = key ∧ e = (s.setFrom key value origin).2 := by
  rw [getElem?_setFrom] at h
  exact eq_some_of_merge_at h

/-- What is stored after `SetWithVersion` was stored before, or is the entry passed to it. -/
theorem getElem?_setWithVersion_eq_some {s : Store} {key k : Bytes} {entry e : Entry}
    (h : (s.setWithVersion key entry).1.tree[k]? = some e) :
    s.tree[k]? = some e ∨ k = key ∧ e = entry := by
  rw [getElem?_setWithVersion] at h
  exact eq_some_of_merge_at h

/-- A covered entry is rejected and leaves the store as it was. -/
theorem setWithVersion_of_covers {s : Store} {key : Bytes} {entry : Entry}
    (h : Covers s.tree[key]? entry) : s.setWithVersion key entry = (s, false) := by
  obtain ⟨old, hold, hle⟩ := h
  unfold setWithVersion
  rw [hold, Option.any_some, newer_eq_false_iff.2 hle]
  rfl

/-! ## The length counter -/

/-- The length is the number of live entries. -/
def LengthOk (s : Store) : Prop := s.length = Dict.count s.tree (!·.deleted)

theorem lengthOk_new : new.LengthOk := by
  rfl

/-- The counter is right after an insertion that moves it by the change of the live count. -/
theorem lengthOk_insert {s : Store} (h : s.LengthOk) (key : Bytes) (entry : Entry) (clock : Int64)
    {length : Int}
    (hl : length + Dict.weight (!·.deleted) s.tree[key]? =
      s.length + Dict.weight (!·.deleted) (some entry)) :
    LengthOk ⟨s.tree.insert key entry, clock, length⟩ := by
  have hc := Dict.count_insert s.tree key entry (!·.deleted)
  unfold LengthOk at h ⊢
  simp only
  omega

theorem lengthOk_setFrom {s : Store} (h : s.LengthOk) (key value origin : Bytes) :
    (s.setFrom key value origin).1.LengthOk := by
  unfold setFrom
  cases hk : s.tree[key]? with
  | none =>
      refine lengthOk_insert h _ _ _ ?_
      simp [hk, Dict.weight]
  | some old =>
      simp only
      split
      · refine lengthOk_insert h _ _ _ ?_
        rw [hk]
        cases hd : old.deleted <;> simp [Dict.weight, hd]
      · exact h

theorem lengthOk_setWithVersion {s : Store} (h : s.LengthOk) (key : Bytes) (entry : Entry) :
    (s.setWithVersion key entry).1.LengthOk := by
  unfold setWithVersion
  split
  · exact h
  · refine lengthOk_insert h _ _ _ ?_
    cases hk : s.tree[key]? with
    | none => cases hd : entry.deleted <;> simp [Dict.weight, lengthAfter, hd]
    | some old =>
        cases hd : entry.deleted <;> cases ho : old.deleted <;>
          simp [Dict.weight, lengthAfter, hd, ho]

theorem lengthOk_delKey (origin : Bytes) {d : DelLoop} (h : d.store.LengthOk) (key : Bytes) :
    (delKey origin d key).store.LengthOk := by
  unfold delKey
  split
  · exact h
  · refine lengthOk_insert h _ _ _ ?_
    cases hk : d.store.tree[key]? with
    | none => simp [Dict.weight]
    | some old => cases ho : old.deleted <;> simp [Dict.weight, ho]

theorem lengthOk_del {s : Store} (h : s.LengthOk) (origin : Bytes) (keys : List Bytes) :
    (s.del origin keys).1.LengthOk := by
  -- the loop may be in any state that has the invariant
  have key : ∀ (keys : List Bytes) (d : DelLoop), d.store.LengthOk →
      (keys.foldl (delKey origin) d).store.LengthOk := by
    intro keys
    induction keys with
    | nil => exact fun d hd => hd
    | cons k ks ih => exact fun d hd => ih _ (lengthOk_delKey origin hd k)
  exact key keys _ h

end Store

end Hapartition
