import Hapartition.Store.Absorb

/-!
# Deleting several keys

What `Del` does key by key, by the turns of its loop (`Deletes`). Each listed key gets one
tombstone, at its first occurrence, which is stored and never touched again by the loop; other keys
keep their entries. The count is the number of distinct listed keys that were live, and the versions
are the next ones in the order in which the keys are listed first.
-/

set_option autoImplicit false

namespace Hapartition

open Lib
open Std (ExtTreeMap)

namespace Store

variable {origin : Bytes} {d d' : DelLoop} {ks : List Bytes} {k : Bytes} {e : Entry}

/-! ## One turn -/

theorem store_delKey {key : Bytes} (h : ¬ d.tombstones.contains key = true) :
    (delKey origin d key).store.tree = d.store.tree.insert key (d.store.tombstone origin) := by
  rw [delKey, if_neg h]
  rfl

/-- One turn of the loop of `Del` keeps the tombstones there are. -/
theorem tombstones_delKey {key : Bytes} (h : ¬ d.tombstones.contains key = true)
    (hk : d.tombstones[k]? = some e) : (delKey origin d key).tombstones[k]? = some e := by
  have hne : k ≠ key := by
    rintro rfl
    rw [ExtTreeMap.contains_eq_isSome_getElem?, hk] at h
    exact h rfl
  rw [delKey_tombstones h, Dict.getElem?_insert_of_ne _ _ hne]
  exact hk

/-! ## The tombstones -/

/-- The keys to delete have no tombstone yet. -/
theorem Deletes.not_contains (h : Deletes origin d ks d') (hk : k ∈ ks) :
    d.tombstones[k]? = none := by
  induction h with
  | nil => cases hk
  | @cons d d' key ks hnew _ ih =>
      rcases List.mem_cons.1 hk with rfl | hrest
      · simpa using hnew
      · -- a tombstone from before this turn would still be there after it
        cases hold : d.tombstones[k]? with
        | none => rfl
        | some e =>
            rw [tombstones_delKey hnew hold] at ih
            cases ih hrest

theorem Deletes.tombstones (h : Deletes origin d ks d') (hk : d.tombstones[k]? = some e) :
    d'.tombstones[k]? = some e := by
  induction h with
  | nil => exact hk
  | cons hnew _ ih => exact ih (tombstones_delKey hnew hk)

/-- The loop of `Del` stores its tombstones, and no later turn touches them. -/
theorem Deletes.stored (h : Deletes origin d ks d')
    (hd : ∀ (k : Bytes) (e : Entry), d.tombstones[k]? = some e → d.store.tree[k]? = some e)
    (hk : d'.tombstones[k]? = some e) : d'.store.tree[k]? = some e := by
  induction h with
  | nil => exact hd k e hk
  | @cons d d' key ks hnew _ ih =>
      refine ih ?_ hk
      -- the turn writes one entry to the store and to the tombstones, under the same key
      intro a e he
      rw [delKey_tombstones hnew, Dict.getElem?_insert] at he
      rw [store_delKey hnew, Dict.getElem?_insert]
      by_cases ha : key = a
      · rwa [if_pos ha] at he ⊢
      · rw [if_neg ha] at he ⊢
        exact hd a e he

/-- The loop of `Del` makes tombstones for its keys only. -/
theorem Deletes.tombstones_or_mem (h : Deletes origin d ks d') (hk : d'.tombstones[k]? = some e) :
    d.tombstones[k]? = some e ∨ k ∈ ks := by
  induction h with
  | nil => exact .inl hk
  | cons hnew _ ih =>
      rcases ih hk with htomb | hmem
      · rw [delKey_tombstones hnew] at htomb
        rcases Dict.getElem?_insert_eq_some htomb with ⟨rfl, -⟩ | hold
        · exact .inr List.mem_cons_self
        · exact .inl hold
      · exact .inr (List.mem_cons_of_mem _ hmem)

/-- What is stored in the course of `Del` was stored before, or is one of its tombstones. -/
theorem Deletes.stored_or_tombstone (h : Deletes origin d ks d') (hk : d'.store.tree[k]? = some e) :
    d.store.tree[k]? = some e ∨ d'.tombstones[k]? = some e := by
  induction h with
  | nil => exact .inl hk
  | cons hnew hrest ih =>
      rcases ih hk with hstored | htomb
      · rw [store_delKey hnew] at hstored
        rcases Dict.getElem?_insert_eq_some hstored with ⟨rfl, rfl⟩ | hold
        · -- the tombstone of this turn is in the map from here on
          refine .inr (hrest.tombstones ?_)
          rw [delKey_tombstones hnew]
          exact ExtTreeMap.getElem?_insert_self
        · exact .inl hold
      · exact .inr htomb

/-- The loop of `Del` leaves other keys alone. -/
theorem Deletes.unlisted (h : Deletes origin d ks d') (hk : k ∉ ks) :
    d'.store.tree[k]? = d.store.tree[k]? := by
  induction h with
  | nil => rfl
  | cons hnew _ ih =>
      obtain ⟨hne, hrest⟩ := not_or.1 (mt List.mem_cons.2 hk)
      rw [ih hrest, store_delKey hnew, Dict.getElem?_insert_of_ne _ _ hne]

/-- The loop of `Del` gives its keys the next versions, in the order in which it deletes them. -/
theorem Deletes.tombstone (h : Deletes origin d ks d') {i : Nat} (hk : ks[i]? = some k) :
    d'.tombstones[k]? = some ⟨[], d.store.clock + Int64.ofNat (i + 1), origin, true⟩ := by
  induction h generalizing i with
  | nil => cases hk
  | @cons d d' key ks hnew hrest ih =>
      cases i with
      | zero =>
          obtain rfl : key = k := Option.some.inj hk
          apply hrest.tombstones
          rw [delKey_tombstones hnew]
          exact ExtTreeMap.getElem?_insert_self
      | succ i => rw [ih hk, clock_delKey origin hnew, add_one_add_ofNat]

/-! ## The count and the clock -/

/-- The store has a value for the key. -/
def live (s : Store) (key : Bytes) : Bool := s.tree[key]?.any (!·.deleted)

theorem live_eq_isSome_get (s : Store) (key : Bytes) : s.live key = (s.get key).isSome := by
  unfold live get
  cases s.tree[key]? with
  | none => rfl
  | some e => cases hd : e.deleted <;> simp [hd]

theorem count_delKey (origin : Bytes) {d : DelLoop} {key : Bytes}
    (h : ¬ d.tombstones.contains key = true) :
    (delKey origin d key).n = d.n + if d.store.live key then 1 else 0 := by
  rw [delKey, if_neg h]
  show (if d.store.live key then d.n + 1 else d.n) = _
  split <;> simp

/-- The loop of `Del` counts the keys that are live when it starts: no turn changes what another key
has. -/
theorem Deletes.count (h : Deletes origin d ks d') :
    d'.n = d.n + (ks.filter d.store.live).length := by
  induction h with
  | nil => simp
  | @cons d d' key ks hnew hrest ih =>
      have hsame : ks.filter (delKey origin d key).store.live = ks.filter d.store.live := by
        apply List.filter_congr
        intro k hk
        have hne : k ≠ key := by
          rintro rfl
          have hnone := hrest.not_contains hk
          rw [delKey_tombstones hnew, ExtTreeMap.getElem?_insert_self] at hnone
          cases hnone
        rw [live, live, store_delKey hnew, Dict.getElem?_insert_of_ne _ _ hne]
      rw [ih, hsame, count_delKey origin hnew, List.filter_cons]
      split
      · rw [List.length_cons]
        omega
      · omega

theorem Deletes.clock (h : Deletes origin d ks d') :
    d'.store.clock = d.store.clock + Int64.ofNat ks.length := by
  induction h with
  | nil => exact (Int64.add_zero _).symm
  | cons hnew _ ih =>
      rw [ih, clock_delKey origin hnew, List.length_cons, add_one_add_ofNat]

/-- What a turn of the loop of `Del` takes from the length it adds to the count. -/
theorem len_delKey (origin : Bytes) (d : DelLoop) (key : Bytes) :
    (delKey origin d key).store.len + (delKey origin d key).n = d.store.len + d.n := by
  unfold delKey
  split
  · rfl
  · dsimp only [len]
    split
    · omega
    · rfl

theorem Deletes.len (h : Deletes origin d ks d') : d'.store.len + d'.n = d.store.len + d.n := by
  induction h with
  | nil => rfl
  | cons _ _ ih => exact ih.trans (len_delKey origin _ _)

/-! ## The whole call -/

variable {s : Store} {keys : List Bytes}

theorem stored_del (h : (s.del origin keys).2.2[k]? = some e) :
    (s.del origin keys).1.tree[k]? = some e :=
  (deletes_del s origin keys).stored (by simp) h

theorem mem_of_tombstones_del (h : (s.del origin keys).2.2[k]? = some e) : k ∈ keys := by
  rcases (deletes_del s origin keys).tombstones_or_mem h with hstart | hmem
  · simp at hstart
  · exact List.mem_eraseDups.1 hmem

theorem getElem?_del_eq_some (h : (s.del origin keys).1.tree[k]? = some e) :
    s.tree[k]? = some e ∨ (s.del origin keys).2.2[k]? = some e :=
  (deletes_del s origin keys).stored_or_tombstone h

theorem getElem?_del_of_not_mem (hk : k ∉ keys) :
    (s.del origin keys).1.tree[k]? = s.tree[k]? :=
  (deletes_del s origin keys).unlisted (mt List.mem_eraseDups.1 hk)

/-- The tombstone of the key that is listed first as number `i`. -/
theorem tombstone_del (s : Store) (origin : Bytes) {i : Nat}
    (hk : keys.eraseDups[i]? = some k) :
    (s.del origin keys).2.2[k]? = some ⟨[], s.clock + Int64.ofNat (i + 1), origin, true⟩ :=
  (deletes_del s origin keys).tombstone hk

/-- A listed key has a tombstone in the end. -/
theorem exists_tombstone_del (s : Store) (origin : Bytes) (hk : k ∈ keys) :
    ∃ e, (s.del origin keys).2.2[k]? = some e ∧ (s.del origin keys).1.tree[k]? = some e ∧
      e.deleted = true := by
  obtain ⟨i, hi⟩ := List.mem_iff_getElem?.1 (List.mem_eraseDups.2 hk)
  have he := tombstone_del s origin hi
  exact ⟨_, he, stored_del he, rfl⟩

/-- After `Del`, the listed keys are gone and the others are as before. -/
theorem get_del (s : Store) (origin : Bytes) (keys : List Bytes) (a : Bytes) :
    (s.del origin keys).1.get a = if a ∈ keys then none else s.get a := by
  by_cases hmem : a ∈ keys
  · obtain ⟨e, -, he, hdel⟩ := exists_tombstone_del s origin hmem
    rw [if_pos hmem]
    simp [get, he, hdel]
  · rw [if_neg hmem, get, get, getElem?_del_of_not_mem hmem]

/-- `Del` returns the number of distinct listed keys that were live. -/
theorem count_del (s : Store) (origin : Bytes) (keys : List Bytes) :
    (s.del origin keys).2.1 = (keys.eraseDups.filter s.live).length :=
  (deletes_del s origin keys).count.trans (Int.zero_add _)

/-- `Del` allocates one version for each distinct listed key. -/
theorem clock_del (origin : Bytes)
    (hw : s.clock.toInt + keys.eraseDups.length ≤ Int64.maxValue.toInt) :
    (s.del origin keys).1.clock.toInt = s.clock.toInt + keys.eraseDups.length := by
  rw [← toInt_add_ofNat hw]
  exact congrArg Int64.toInt (deletes_del s origin keys).clock

/-- What `Del` takes from the length is its count. -/
theorem len_del (s : Store) (origin : Bytes) (keys : List Bytes) :
    (s.del origin keys).1.len = s.len - (s.del origin keys).2.1 := by
  have h : (s.del origin keys).1.len + (s.del origin keys).2.1 = s.len + 0 :=
    (deletes_del s origin keys).len
  omega

/-! ## The order of tombstones -/

/-- The tombstones of a map, in the order of a list of keys. -/
def listed (tombstones : ExtTreeMap Bytes Entry compare) (keys : List Bytes) :
    List (Bytes × Entry) :=
  keys.filterMap fun k => tombstones[k]?.map fun e => (k, e)

/-- Without wrapping, the version of the key that is listed first as number `i`. -/
theorem version_del (hw : s.clock.toInt + keys.eraseDups.length ≤ Int64.maxValue.toInt) {i : Nat}
    (hi : i < keys.eraseDups.length) :
    (s.clock + Int64.ofNat (i + 1)).toInt = s.clock.toInt + 1 + i := by
  rw [toInt_add_ofNat (by omega)]
  omega

/-- `Del` without wrapping gives its keys ascending versions, in the order in which they are listed
first. -/
theorem ascending_del (origin : Bytes)
    (hw : s.clock.toInt + keys.eraseDups.length ≤ Int64.maxValue.toInt) :
    (listed (s.del origin keys).2.2 keys.eraseDups).Pairwise
      fun p q => p.2.version < q.2.version := by
  apply List.pairwise_filterMap.2
  apply List.pairwise_iff_getElem.2
  intro i j hi hj hij p hp q hq
  rw [tombstone_del _ _ (List.getElem?_eq_getElem hi)] at hp
  rw [tombstone_del _ _ (List.getElem?_eq_getElem hj)] at hq
  obtain rfl := Option.some.inj hp
  obtain rfl := Option.some.inj hq
  rw [Int64.lt_iff_toInt_lt, version_del hw hi, version_del hw hj]
  omega

end Store

end Hapartition
