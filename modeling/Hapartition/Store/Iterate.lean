import Hapartition.Lib.Sorting
import Hapartition.Store.Store

/-!
# Iterating over a store

`Iterate` and `Range` walk the B-tree in ascending order and skip tombstones. `iterate` lists the
calls that `Iterate` makes to a function that never stops it (`iterateWith_eq_map`). The list has
each live key once, in ascending order, and as many elements as `Len` says.
-/

set_option autoImplicit false

namespace Hapartition

open Lib
open Std (ExtTreeMap)

namespace Store

/-- The calls that `Iterate` makes to a function that always returns true. -/
def iterate (s : Store) : List (Bytes × Entry) := s.tree.toList.filter fun p => !p.2.deleted

/-- `Iterate`, for a function that works on a state and says whether to go on. -/
def iterateWith {σ : Type} (s : Store) (fn : σ → Bytes × Entry → σ × Bool) (acc : σ) : σ :=
  Dict.ascend s.tree (fun acc it => if it.2.deleted then (acc, true) else fn acc it) acc

/-- `Range`. -/
def range (s : Store) (start stop : Bytes) : List Entry :=
  Dict.ascendRange s.tree start stop
    (fun out it => (if !it.2.deleted then out ++ [it.2] else out, true)) []

/-- What a function that never stops `Iterate` collects, for the entries it chooses. -/
theorem iterateWith_eq_map {δ : Type} {s : Store} {fn : List δ → Bytes × Entry → List δ × Bool}
    {p : Bytes × Entry → Bool} {g : Bytes × Entry → δ}
    (hfn : ∀ out x, fn out x = (if p x then out ++ [g x] else out, true)) :
    s.iterateWith fn [] = (s.iterate.filter p).map g := by
  rw [iterateWith, Dict.ascend,
    Dict.visitWhile_eq_append (p := fun x => p x && !x.2.deleted) (g := g), List.nil_append,
    iterate, List.filter_filter]
  intro out x
  cases x.2.deleted with
  | true => rw [if_pos rfl, Bool.not_true, Bool.and_false, if_neg Bool.false_ne_true]
  | false => rw [if_neg Bool.false_ne_true, Bool.not_false, Bool.and_true, hfn]

theorem mem_iterate {s : Store} {p : Bytes × Entry} :
    p ∈ s.iterate ↔ s.tree[p.1]? = some p.2 ∧ p.2.deleted = false := by
  rw [iterate, List.mem_filter, ExtTreeMap.mem_toList_iff_getElem?_eq_some, Bool.not_eq_true']

theorem iterate_pairwise (s : Store) : s.iterate.Pairwise fun p q => p.1 < q.1 := by
  apply List.Pairwise.filter
  apply (ExtTreeMap.ordered_keys_toList (t := s.tree)).imp
  intro p q h
  exact compare_eq_lt_iff.1 h

/-- `Get` finds what `Iterate` shows. -/
theorem get_eq_some_iff {s : Store} {key : Bytes} {p : Bytes × Int64} :
    s.get key = some p ↔ ∃ e, (key, e) ∈ s.iterate ∧ p = (e.value, e.version) := by
  simp only [mem_iterate]
  unfold get
  cases hkey : s.tree[key]? with
  | none => simp
  | some e =>
      constructor
      · intro h
        cases hdel : e.deleted with
        | true => simp [hdel] at h
        | false =>
            simp only [hdel, Bool.false_eq_true, if_false, Option.some.injEq] at h
            exact ⟨e, ⟨rfl, hdel⟩, h.symm⟩
      · rintro ⟨e', ⟨he, hdel⟩, rfl⟩
        cases he
        simp [hdel]

theorem iterate_eq_nil_iff {s : Store} : s.iterate = [] ↔ ∀ key, s.get key = none := by
  rw [List.eq_nil_iff_forall_not_mem]
  constructor
  · intro h key
    apply Option.eq_none_iff_forall_ne_some.2
    intro p hget
    obtain ⟨e, he, -⟩ := get_eq_some_iff.1 hget
    exact h _ he
  · rintro h ⟨key, e⟩ he
    have hget := get_eq_some_iff.2 ⟨e, he, rfl⟩
    rw [h key] at hget
    cases hget

/-- `Len` is the number of calls. -/
theorem length_iterate {s : Store} (h : s.LengthOk) : (s.iterate.length : Int) = s.len := by
  rw [len, h, Dict.count, iterate, List.countP_eq_length_filter]

/-- `Len` is a function of what `Get` shows. -/
theorem len_congr {s t : Store} (hs : s.LengthOk) (ht : t.LengthOk)
    (h : ∀ key, s.get key = t.get key) : s.len = t.len := by
  -- the lists of what is shown are in order and have the same elements
  have hmem : ∀ (s : Store) (x : Bytes × Bytes × Int64),
      x ∈ s.iterate.map (fun p => (p.1, p.2.value, p.2.version)) ↔ s.get x.1 = some x.2 := by
    rintro s ⟨key, shown⟩
    rw [get_eq_some_iff, List.mem_map]
    constructor
    · rintro ⟨p, hp, hx⟩
      obtain ⟨rfl, rfl⟩ := Prod.mk.inj hx
      exact ⟨p.2, hp, rfl⟩
    · rintro ⟨e, he, hx⟩
      exact ⟨(key, e), he, congrArg (Prod.mk key) hx.symm⟩
  have horder : ∀ s : Store, (s.iterate.map (fun p => (p.1, p.2.value, p.2.version))).Pairwise
      fun x y => x.1 < y.1 := by
    intro s
    apply List.Pairwise.map _ _ s.iterate_pairwise
    intro p q hpq
    exact hpq
  have hlist := eq_of_pairwise_lt Prod.fst (horder s) (horder t) (by
    intro x
    rw [hmem, hmem, h])
  have hlength := congrArg List.length hlist
  rw [List.length_map, List.length_map] at hlength
  rw [← length_iterate hs, ← length_iterate ht, hlength]

end Store

end Hapartition
