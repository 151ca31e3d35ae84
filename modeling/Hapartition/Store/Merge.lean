import Hapartition.Store.Store

/-!
# Merging a list of entries

`mergeAll` calls `SetWithVersion` for one entry after the other. It leaves a store as it is exactly
if the store covers all the entries (`mergeAll_eq_self_iff`), and changes no `Get` if each of them
shows what is shown already (`get_mergeAll`).
-/

set_option autoImplicit false

namespace Hapartition

open Lib

namespace Store

variable {s : Store}

/-- The store after `SetWithVersion` for each entry of a list. -/
def mergeAll (s : Store) (l : List (Bytes × Entry)) : Store :=
  l.foldl (fun s p => (s.setWithVersion p.1 p.2).1) s

/-- What `Get` makes of a stored entry. -/
def shown (e : Entry) : Option (Bytes × Int64) :=
  if e.deleted then none else some (e.value, e.version)

theorem get_of_getElem? {key : Bytes} {e : Entry} (h : s.tree[key]? = some e) :
    s.get key = shown e := by
  rw [get, h]
  rfl

/-- Merging an entry that shows what is shown already changes no `Get`. -/
theorem get_setWithVersion {key : Bytes} {e : Entry} (h : s.get key = shown e) (k : Bytes) :
    (s.setWithVersion key e).1.get k = s.get k := by
  have htree := getElem?_setWithVersion s key e k
  by_cases hk : key = k
  · subst hk
    rw [if_pos rfl] at htree
    rcases merge_eq_or s.tree[key]? e with hold | hnew
    · rw [hold] at htree
      rw [get, get, htree]
    · rw [hnew] at htree
      rw [get_of_getElem? htree, h]
  · rw [if_neg hk] at htree
    rw [get, get, htree]

theorem get_mergeAll {l : List (Bytes × Entry)} (h : ∀ p ∈ l, s.get p.1 = shown p.2)
    (k : Bytes) : (s.mergeAll l).get k = s.get k := by
  induction l generalizing s with
  | nil => rfl
  | cons p l ih =>
      have hstep := get_setWithVersion (h p List.mem_cons_self)
      show ((s.setWithVersion p.1 p.2).1.mergeAll l).get k = s.get k
      rw [ih, hstep]
      intro q hq
      rw [hstep]
      exact h q (List.mem_cons_of_mem p hq)

theorem lengthOk_mergeAll (hs : s.LengthOk) (l : List (Bytes × Entry)) :
    (s.mergeAll l).LengthOk := by
  induction l generalizing s with
  | nil => exact hs
  | cons p l ih => exact ih (lengthOk_setWithVersion hs p.1 p.2)

theorem covers_mergeAll {k : Bytes} {e : Entry} (h : Covers s.tree[k]? e)
    (l : List (Bytes × Entry)) : Covers (s.mergeAll l).tree[k]? e := by
  induction l generalizing s with
  | nil => exact h
  | cons p l ih =>
      apply ih
      rw [getElem?_setWithVersion]
      exact covers_merge_at h

theorem covers_mergeAll_of_mem {l : List (Bytes × Entry)} {p : Bytes × Entry} (hp : p ∈ l) :
    Covers (s.mergeAll l).tree[p.1]? p.2 := by
  induction l generalizing s with
  | nil => cases hp
  | cons q l ih =>
      rcases List.mem_cons.1 hp with rfl | hp
      · refine covers_mergeAll (s := (s.setWithVersion p.1 p.2).1) ?_ l
        rw [getElem?_setWithVersion, if_pos rfl]
        exact covers_merge_self _ _
      · exact ih hp

/-- A store is left as it is by entries it covers, and by no others. -/
theorem mergeAll_eq_self_iff {l : List (Bytes × Entry)} :
    s.mergeAll l = s ↔ ∀ p ∈ l, Covers s.tree[p.1]? p.2 := by
  constructor
  · intro h p hp
    have hcovers := covers_mergeAll_of_mem (s := s) hp
    rwa [h] at hcovers
  · intro h
    induction l with
    | nil => rfl
    | cons p l ih =>
        show (s.setWithVersion p.1 p.2).1.mergeAll l = s
        rw [setWithVersion_of_covers (h p List.mem_cons_self)]
        exact ih fun q hq => h q (List.mem_cons_of_mem p hq)

end Store

end Hapartition
