import Hapartition.Store.Delete

/-!
# Several keys in one call, or one call for each key

`Del` with a list of keys is the sequence of `Del` calls for its distinct keys, in the order in
which they are listed first (`del_eq_delEach`). `del_deletesEach` puts together what a call with
several keys does: its count, its tombstones with their versions, the other keys, and the length.
-/

set_option autoImplicit false

namespace Hapartition

open Lib
open Std (ExtTreeMap)

namespace Store

/-! ## One call for each key -/

/-- `Del` for one more key: the counts add up, and the tombstones are collected. -/
def delNext (origin : Bytes) (out : Store × Int × ExtTreeMap Bytes Entry compare) (key : Bytes) :
    Store × Int × ExtTreeMap Bytes Entry compare :=
  let r := out.1.del origin [key]
  (r.1, out.2.1 + r.2.1, out.2.2 ∪ r.2.2)

/-- One call of `Del` after the other, each with one key. -/
def delEach (s : Store) (origin : Bytes) (keys : List Bytes) :
    Store × Int × ExtTreeMap Bytes Entry compare :=
  keys.foldl (delNext origin) (s, 0, ∅)

/-- A turn of the loop of `Del` on a new key is a call with this key. -/
theorem delKey_eq_delNext (origin : Bytes) {d : DelLoop} {key : Bytes}
    (h : ¬ d.tombstones.contains key = true) :
    ((delKey origin d key).store, (delKey origin d key).n, (delKey origin d key).tombstones) =
      delNext origin (d.store, d.n, d.tombstones) key := by
  have hempty : ¬ (DelLoop.mk d.store 0 ∅).tombstones.contains key = true := by simp
  have hstore : (delKey origin d key).store = (d.store.del origin [key]).1 := by
    show _ = (delKey origin ⟨d.store, 0, ∅⟩ key).store
    rw [delKey, delKey, if_neg h, if_neg hempty]
  have hcount : (delKey origin d key).n = d.n + (d.store.del origin [key]).2.1 := by
    show _ = d.n + (delKey origin ⟨d.store, 0, ∅⟩ key).n
    rw [count_delKey origin h, count_delKey origin hempty, Int.zero_add]
  have htomb : (delKey origin d key).tombstones =
      d.tombstones ∪ (d.store.del origin [key]).2.2 := by
    show _ = d.tombstones ∪ (delKey origin ⟨d.store, 0, ∅⟩ key).tombstones
    rw [delKey_tombstones h, delKey_tombstones hempty]
    exact (Dict.union_insert_empty _ _ _).symm
  rw [hstore, hcount, htomb]
  rfl

theorem Deletes.foldl_delNext {origin : Bytes} {d d' : DelLoop} {ks : List Bytes}
    (h : Deletes origin d ks d') :
    (d'.store, d'.n, d'.tombstones) = ks.foldl (delNext origin) (d.store, d.n, d.tombstones) := by
  induction h with
  | nil => rfl
  | cons hnew _ ih => rw [ih, List.foldl_cons, ← delKey_eq_delNext origin hnew]

/-- `Del` with a list of keys is the sequence of its distinct deletes. -/
theorem del_eq_delEach (s : Store) (origin : Bytes) (keys : List Bytes) :
    s.del origin keys = s.delEach origin keys.eraseDups :=
  (deletes_del s origin keys).foldl_delNext

/-! ## A call with several keys -/

/-- What a call with the keys `keys` returns and leaves behind, if it deletes each of them once. -/
structure DeletesEach (s : Store) (origin : Bytes) (keys : List Bytes)
    (out : Store × Int × ExtTreeMap Bytes Entry compare) : Prop where
  /-- The count is that of the distinct listed keys that were live. -/
  count : out.2.1 = (keys.eraseDups.filter s.live).length
  /-- The tombstones are those of the listed keys. -/
  domain : ∀ k, k ∈ out.2.2 ↔ k ∈ keys
  /-- The key that is listed first as number `i` has the version `i + 1` above the clock. -/
  tombstone : ∀ (i : Nat) (k : Bytes), keys.eraseDups[i]? = some k →
    ∃ e, out.2.2[k]? = some e ∧ out.1.tree[k]? = some e ∧
      e.version.toInt = s.clock.toInt + 1 + i ∧ e.origin = origin ∧ e.deleted = true
  unlisted : ∀ k, k ∉ keys → out.1.tree[k]? = s.tree[k]?
  len : out.1.len = s.len - out.2.1
  /-- State, count and tombstones are those of one call after the other. -/
  sequence : out = s.delEach origin keys.eraseDups

/-- **`Del` with several keys.** As long as the clock does not overflow, a call deletes each of its
distinct keys once. -/
theorem del_deletesEach (s : Store) (origin : Bytes) (keys : List Bytes)
    (hw : s.clock.toInt + keys.eraseDups.length ≤ Int64.maxValue.toInt) :
    DeletesEach s origin keys (s.del origin keys) where
  count := count_del s origin keys
  domain := by
    intro k
    constructor
    · intro hk
      obtain ⟨e, he⟩ := Option.isSome_iff_exists.1 (ExtTreeMap.isSome_getElem?_iff_mem.2 hk)
      exact mem_of_tombstones_del he
    · intro hk
      obtain ⟨e, he, -⟩ := exists_tombstone_del s origin hk
      exact ExtTreeMap.isSome_getElem?_iff_mem.1 (Option.isSome_iff_exists.2 ⟨e, he⟩)
  tombstone := by
    intro i k hk
    have he := tombstone_del s origin hk
    obtain ⟨hi, -⟩ := List.getElem?_eq_some_iff.1 hk
    exact ⟨_, he, stored_del he, version_del hw hi, rfl, rfl⟩
  unlisted := fun _ hk => getElem?_del_of_not_mem hk
  len := len_del s origin keys
  sequence := del_eq_delEach s origin keys

/-- A live key that is listed twice, and a key that the store has never seen. -/
theorem del_deletesEach_pair :
    DeletesEach (Store.new.set (str "a") (str "1")).1 (str "n1")
      [str "b", str "a", str "b", str "a"]
      ((Store.new.set (str "a") (str "1")).1.del (str "n1") [str "b", str "a", str "b", str "a"]) :=
  del_deletesEach _ _ _ (by decide)

end Store

end Hapartition
