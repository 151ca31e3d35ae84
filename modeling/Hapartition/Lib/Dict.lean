import Std.Data.ExtTreeMap
import Mathlib.Data.List.Perm.Basic
import Mathlib.Data.List.Nodup

/-!
# Ordered maps

Facts about the extensional ordered maps of the standard library that are stated there for a general
comparison and are used here for a lawful one: lookup after an insertion as a case split on equality
of keys, the entry list after an insertion up to order, and counting entries. `ascend` and
`ascendRange` are the walks of an ordered tree with a function that may end them.
-/

set_option autoImplicit false

namespace Hapartition.Lib.Dict

open Std

universe u v

variable {α : Type u} {β : Type v} {cmp : α → α → Ordering} [TransCmp cmp] [LawfulEqCmp cmp]

theorem nodup_toList (t : ExtTreeMap α β cmp) : t.toList.Nodup := by
  refine (ExtTreeMap.distinct_keys_toList (t := t)).imp ?_
  rintro a b h rfl
  exact h ReflCmp.compare_self

variable [DecidableEq α]

theorem getElem?_insert (t : ExtTreeMap α β cmp) (k a : α) (v : β) :
    (t.insert k v)[a]? = if k = a then some v else t[a]? := by
  rw [ExtTreeMap.getElem?_insert]
  by_cases h : k = a
  · rw [if_pos h, if_pos (h ▸ ReflCmp.compare_self)]
  · rw [if_neg h, if_neg (fun hc => h (LawfulEqCmp.eq_of_compare hc))]

theorem getElem?_erase (t : ExtTreeMap α β cmp) (k a : α) :
    (t.erase k)[a]? = if k = a then none else t[a]? := by
  rw [ExtTreeMap.getElem?_erase]
  by_cases h : k = a
  · rw [if_pos h, if_pos (h ▸ ReflCmp.compare_self)]
  · rw [if_neg h, if_neg (fun hc => h (LawfulEqCmp.eq_of_compare hc))]

theorem getElem?_insert_of_ne (t : ExtTreeMap α β cmp) {k a : α} (v : β) (h : a ≠ k) :
    (t.insert k v)[a]? = t[a]? := by
  rw [getElem?_insert, if_neg (Ne.symm h)]

theorem insert_eq_self {t : ExtTreeMap α β cmp} {k : α} {v : β} (h : t[k]? = some v) :
    t.insert k v = t := by
  refine ExtTreeMap.ext_getElem? fun a => ?_
  rw [getElem?_insert]
  split
  next heq => rw [← heq, h]
  next => rfl

theorem insert_insert (t : ExtTreeMap α β cmp) (k : α) (v w : β) :
    (t.insert k v).insert k w = t.insert k w := by
  refine ExtTreeMap.ext_getElem? fun a => ?_
  simp only [getElem?_insert]
  split <;> rfl

theorem union_insert_empty (t : ExtTreeMap α β cmp) (k : α) (v : β) :
    t ∪ (∅ : ExtTreeMap α β cmp).insert k v = t.insert k v := by
  apply ExtTreeMap.ext_getElem?
  intro a
  rw [ExtTreeMap.getElem?_union, getElem?_insert, getElem?_insert]
  by_cases ha : k = a
  · rw [if_pos ha, if_pos ha]
    rfl
  · rw [if_neg ha, if_neg ha, ExtTreeMap.getElem?_empty]
    rfl

/-- What is found after an insertion is the new entry, or was there before. -/
theorem getElem?_insert_eq_some {t : ExtTreeMap α β cmp} {k a : α} {v w : β}
    (h : (t.insert k v)[a]? = some w) : k = a ∧ v = w ∨ t[a]? = some w := by
  rw [getElem?_insert] at h
  split at h
  next hk => exact .inl ⟨hk, Option.some.inj h⟩
  next => exact .inr h

/-- A property of all entries, after one of them was written. -/
theorem forall_insert {P : α → β → Prop} {t : ExtTreeMap α β cmp} {k : α} {v : β} (hnew : P k v)
    (hold : ∀ (a : α) (w : β), a ≠ k → t[a]? = some w → P a w) :
    ∀ (a : α) (w : β), (t.insert k v)[a]? = some w → P a w := by
  intro a w h
  rw [getElem?_insert] at h
  split at h
  next hk => exact hk ▸ Option.some.inj h ▸ hnew
  next hk => exact hold a w (Ne.symm hk) h

/-- What is found after a deletion was there before. -/
theorem getElem?_erase_eq_some {t : ExtTreeMap α β cmp} {k a : α} {w : β}
    (h : (t.erase k)[a]? = some w) : t[a]? = some w := by
  rw [getElem?_erase] at h
  split at h
  · cases h
  · exact h

theorem getElem?_foldl_erase (t : ExtTreeMap α β cmp) (ks : List α) (a : α) :
    (ks.foldl (fun t k => t.erase k) t)[a]? = if a ∈ ks then none else t[a]? := by
  induction ks generalizing t with
  | nil => rw [List.foldl_nil, if_neg List.not_mem_nil]
  | cons k ks ih =>
      rw [List.foldl_cons, ih, getElem?_erase]
      by_cases ha : a ∈ ks
      · rw [if_pos ha, if_pos (List.mem_cons_of_mem k ha)]
      · by_cases hk : k = a
        · rw [if_neg ha, if_pos hk, if_pos (List.mem_cons.2 (.inl hk.symm))]
        · rw [if_neg ha, if_neg hk, if_neg]
          intro hmem
          exact (List.mem_cons.1 hmem).elim (fun h => hk h.symm) ha

theorem toList_erase_perm (t : ExtTreeMap α β cmp) (k : α) :
    (t.erase k).toList.Perm (t.toList.filter fun p => decide (p.1 ≠ k)) := by
  refine (List.perm_ext_iff_of_nodup (nodup_toList _) ((nodup_toList t).filter _)).2 ?_
  rintro ⟨a, b⟩
  rw [ExtTreeMap.mem_toList_iff_getElem?_eq_some, getElem?_erase, List.mem_filter,
    ExtTreeMap.mem_toList_iff_getElem?_eq_some]
  by_cases h : k = a
  · simp [h]
  · simp [h, Ne.symm h]

/-- Inserting drops the entry of the key, if any, and adds the new one. -/
theorem toList_insert_perm (t : ExtTreeMap α β cmp) (k : α) (v : β) :
    (t.insert k v).toList.Perm ((k, v) :: t.toList.filter fun p => decide (p.1 ≠ k)) := by
  refine (List.perm_ext_iff_of_nodup (nodup_toList _) ?_).2 ?_
  · refine List.nodup_cons.2 ⟨?_, (nodup_toList t).filter _⟩
    simp
  · rintro ⟨a, b⟩
    rw [ExtTreeMap.mem_toList_iff_getElem?_eq_some, getElem?_insert, List.mem_cons, List.mem_filter,
      ExtTreeMap.mem_toList_iff_getElem?_eq_some]
    by_cases h : k = a
    · subst h
      simp [eq_comm]
    · simp [h, Ne.symm h]

theorem filter_ne_of_getElem?_eq_none {t : ExtTreeMap α β cmp} {k : α} (h : t[k]? = none) :
    t.toList.filter (fun p => decide (p.1 ≠ k)) = t.toList := by
  refine List.filter_eq_self.2 ?_
  rintro ⟨a, b⟩ hab
  rw [ExtTreeMap.mem_toList_iff_getElem?_eq_some] at hab
  refine decide_eq_true ?_
  rintro rfl
  rw [h] at hab
  simp at hab

theorem toList_perm_of_getElem?_eq_some {t : ExtTreeMap α β cmp} {k : α} {v : β}
    (h : t[k]? = some v) :
    t.toList.Perm ((k, v) :: t.toList.filter fun p => decide (p.1 ≠ k)) := by
  -- inserting what is there changes nothing, so the lemma for an insertion applies
  have ht : t.insert k v = t := by
    apply ExtTreeMap.ext_getElem?
    intro a
    rw [getElem?_insert]
    by_cases ha : k = a
    · rw [if_pos ha, ← ha, h]
    · rw [if_neg ha]
  conv_lhs => rw [← ht]
  exact toList_insert_perm t k v

/-- The number of entries that satisfy `p`. -/
def count (t : ExtTreeMap α β cmp) (p : β → Bool) : Nat := t.toList.countP fun e => p e.2

/-- The contribution of an optional entry to a count. -/
def weight (p : β → Bool) : Option β → Nat
  | none => 0
  | some v => if p v then 1 else 0

/-- An insertion exchanges the contribution of the old entry of the key for that of the new one. -/
theorem count_insert (t : ExtTreeMap α β cmp) (k : α) (v : β) (p : β → Bool) :
    count (t.insert k v) p + weight p t[k]? = count t p + weight p (some v) := by
  unfold count
  rw [(toList_insert_perm t k v).countP_eq, List.countP_cons]
  cases h : t[k]? with
  | none =>
      rw [filter_ne_of_getElem?_eq_none h]
      simp only [weight]
      omega
  | some w =>
      rw [(toList_perm_of_getElem?_eq_some h).countP_eq, List.countP_cons]
      simp only [weight]
      omega

/-! ## Walks in ascending order -/

section Walk

universe w

variable {σ : Type w} {γ : Type v}

/-- Calls of `visit` on one element after the other, until one returns false. -/
def visitWhile (visit : σ → γ → σ × Bool) : List γ → σ → σ
  | [], s => s
  | x :: xs, s => if (visit s x).2 then visitWhile visit xs (visit s x).1 else (visit s x).1

/-- A walk that is never ended, and that does nothing on some of the elements. -/
theorem visitWhile_eq_foldl_filter {visit : σ → γ → σ × Bool} {p : γ → Bool} {f : σ → γ → σ}
    (hvisit : ∀ s x, visit s x = (if p x then f s x else s, true)) (xs : List γ) (s : σ) :
    visitWhile visit xs s = (xs.filter p).foldl f s := by
  induction xs generalizing s with
  | nil => rfl
  | cons x xs ih =>
      rw [visitWhile, hvisit, if_pos rfl, ih]
      cases hp : p x with
      | true => rw [List.filter_cons_of_pos hp, List.foldl_cons, if_pos rfl]
      | false => rw [List.filter_cons_of_neg (by simp [hp]), if_neg (by simp)]

/-- A walk that collects something for some of the elements. -/
theorem visitWhile_eq_append {δ : Type w} {visit : List δ → γ → List δ × Bool} {p : γ → Bool}
    {g : γ → δ} (hvisit : ∀ out x, visit out x = (if p x then out ++ [g x] else out, true))
    (xs : List γ) (out : List δ) :
    visitWhile visit xs out = out ++ (xs.filter p).map g := by
  rw [visitWhile_eq_foldl_filter (f := fun out x => out ++ [g x]) hvisit]
  induction xs.filter p generalizing out with
  | nil => rw [List.foldl_nil, List.map_nil, List.append_nil]
  | cons x xs ih =>
      rw [List.foldl_cons, ih, List.map_cons, List.append_assoc, List.singleton_append]

/-- A walk over all entries. -/
def ascend (t : ExtTreeMap α β cmp) (visit : σ → α × β → σ × Bool) (s : σ) : σ :=
  visitWhile visit t.toList s

/-- A walk over the entries from `greaterOrEqual` on and below `lessThan`. -/
def ascendRange (t : ExtTreeMap α β cmp) (greaterOrEqual lessThan : α)
    (visit : σ → α × β → σ × Bool) (s : σ) : σ :=
  visitWhile visit
    (t.toList.filter fun p => !(cmp p.1 greaterOrEqual).isLT && (cmp p.1 lessThan).isLT) s

end Walk

end Hapartition.Lib.Dict
