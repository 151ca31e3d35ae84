import Hapartition.Store.History
import Hapartition.Store.Iterate
import Mathlib.Data.Set.Card

/-!
# What is live in a store

`Len`, `Get`, `Iterate`, `Snapshot` and `Range` see the same keys. The counter behind `Len` is right
after every sequence of calls (`lengthOk_run`); the other four read the tree. `live_count`
puts them together.
-/

set_option autoImplicit false

namespace Hapartition.Store

open Lib

variable {s : Store}

/-- The calls that a full `Iterate` makes to its function, in order. -/
def calls (s : Store) : List (Bytes × Entry) := s.iterateWith (fun out p => (out ++ [p], true)) []

/-- The keys for which `Get` reports a value. -/
def liveKeys (s : Store) : Set Bytes := {key | (s.get key).isSome}

theorem calls_eq_iterate (s : Store) : s.calls = s.iterate := by
  rw [calls, iterateWith_eq_map (p := fun _ => true) (g := id), List.filter_true, List.map_id]
  intro out x
  rfl

theorem mem_liveKeys {key : Bytes} : key ∈ s.liveKeys ↔ ∃ e, (key, e) ∈ s.iterate := by
  rw [liveKeys, Set.mem_ofPred_eq, Option.isSome_iff_exists]
  constructor
  · rintro ⟨p, hget⟩
    obtain ⟨e, he, -⟩ := get_eq_some_iff.1 hget
    exact ⟨e, he⟩
  · rintro ⟨e, he⟩
    exact ⟨_, get_eq_some_iff.2 ⟨e, he, rfl⟩⟩

/-- No key is shown twice. -/
theorem nodup_keys_iterate (s : Store) : (s.iterate.map Prod.fst).Nodup := by
  apply List.Pairwise.map (R := fun p q : Bytes × Entry => p.1 < q.1)
  · intro p q h
    exact h.ne
  · exact s.iterate_pairwise

theorem liveKeys_eq (s : Store) : s.liveKeys = ((s.iterate.map Prod.fst).toFinset : Set Bytes) := by
  ext key
  rw [mem_liveKeys, Finset.mem_coe, List.mem_toFinset, List.mem_map]
  constructor
  · rintro ⟨e, he⟩
    exact ⟨(key, e), he, rfl⟩
  · rintro ⟨p, hp, rfl⟩
    exact ⟨p.2, hp⟩

theorem ncard_liveKeys (s : Store) : s.liveKeys.ncard = s.iterate.length := by
  rw [liveKeys_eq, Set.ncard_coe_finset, List.toFinset_card_of_nodup s.nodup_keys_iterate,
    List.length_map]

/-- `Range` shows the part of what `Iterate` shows that lies between its bounds. -/
theorem range_eq (s : Store) (start stop : Bytes) :
    s.range start stop =
      (s.iterate.filter fun p => start ≤ p.1 ∧ p.1 < stop).map Prod.snd := by
  rw [range, Dict.ascendRange, Dict.visitWhile_eq_append (g := Prod.snd) fun _ _ => rfl,
    List.nil_append, List.filter_filter, iterate, List.filter_filter]
  congr 2
  funext p
  rw [Bool.and_comm]
  congr 1
  rw [Bool.eq_iff_iff, Bool.and_eq_true, Bool.not_eq_true', ← Bool.not_eq_true,
    Ordering.isLT_iff_eq_lt, Ordering.isLT_iff_eq_lt, compare_eq_lt_iff, compare_eq_lt_iff, not_lt,
    decide_eq_true_iff]

/-- All ways to look at a store agree on what is live in it. -/
structure LiveCount (s : Store) : Prop where
  len_nonneg : 0 ≤ s.len
  finite_liveKeys : s.liveKeys.Finite
  len_eq_liveKeys : s.len = s.liveKeys.ncard
  len_eq_calls : s.len = s.calls.length
  len_eq_snapshot : s.len = (s.snapshot.toList.filter fun p => !p.2.deleted).length
  calls_ascending : s.calls.Pairwise fun p q => p.1 < q.1
  calls_keys : ∀ key, (∃ e, (key, e) ∈ s.calls) ↔ key ∈ s.liveKeys
  calls_entries : ∀ key e, (key, e) ∈ s.calls ↔ s.snapshot[key]? = some e ∧ e.deleted = false
  range_calls : ∀ start stop, s.range start stop =
    (s.calls.filter fun p => start ≤ p.1 ∧ p.1 < stop).map Prod.snd

/-- The counter is the only part that a sequence of calls could get wrong. -/
theorem LengthOk.liveCount (h : s.LengthOk) : LiveCount s where
  len_nonneg := by
    rw [← length_iterate h]
    exact Int.natCast_nonneg _
  finite_liveKeys := by
    rw [liveKeys_eq]
    exact Finset.finite_toSet _
  len_eq_liveKeys := by rw [ncard_liveKeys, length_iterate h]
  len_eq_calls := by rw [calls_eq_iterate, length_iterate h]
  len_eq_snapshot := (length_iterate h).symm
  calls_ascending := by
    rw [calls_eq_iterate]
    exact s.iterate_pairwise
  calls_keys key := by rw [calls_eq_iterate, mem_liveKeys]
  calls_entries key e := by
    rw [calls_eq_iterate]
    exact mem_iterate
  range_calls start stop := by rw [calls_eq_iterate, range_eq]

/-- **The live count.** After any sequence of calls on a new store, `Len` is not negative, and is
the number of keys that `Get` reports, of calls that a full `Iterate` makes and of entries in
`Snapshot` that are not deleted; `Iterate` shows exactly those keys with their entries, in strictly
ascending order, and `Range` those of the entries whose keys are between its bounds, in the same
order. -/
theorem live_count (ops : List Op) : LiveCount (run new ops).1 :=
  (lengthOk_run lengthOk_new ops).liveCount

end Hapartition.Store
