import Mathlib.Order.Bounds.Basic
import Mathlib.Order.Basic

/-!
# Registers that keep the greatest value

A register over a linear order holds nothing or one value. Merging a value keeps the greater of the
two (`merge`). `Covers o a` says that the register holds `a` or something above it, and
`IsNewest o S` that it holds the greatest element of `S`, or nothing when `S` is empty. Merging adds
one element to the set (`IsNewest.merge`), and two registers that hold the newest element of one set
are equal (`IsNewest.unique`): the order and the multiplicity of the merges do not matter.
-/

set_option autoImplicit false

namespace Hapartition.Lib

universe u

variable {α : Type u} [LinearOrder α]

/-- Merge a value into a register: the greater one stays. -/
def merge (o : Option α) (a : α) : Option α :=
  match o with
  | none => some a
  | some b => if b < a then some a else some b

/-- The register holds `a` or a greater value. -/
def Covers (o : Option α) (a : α) : Prop := ∃ b, o = some b ∧ a ≤ b

/-- The register holds the greatest element of `S`, or nothing when `S` is empty. -/
structure IsNewest (o : Option α) (S : Set α) : Prop where
  mem : ∀ a, o = some a → a ∈ S
  covers : ∀ a ∈ S, Covers o a

/-! ## Merging -/

theorem covers_merge_self (o : Option α) (a : α) : Covers (merge o a) a := by
  cases o with
  | none => exact ⟨a, rfl, le_refl a⟩
  | some b =>
      by_cases h : b < a
      · exact ⟨a, if_pos h, le_refl a⟩
      · exact ⟨b, if_neg h, not_lt.1 h⟩

/-- What a register covers it still covers after a merge. -/
theorem Covers.merge {o : Option α} {a : α} (h : Covers o a) (b : α) : Covers (merge o b) a := by
  obtain ⟨c, rfl, hac⟩ := h
  by_cases hcb : c < b
  · exact ⟨b, if_pos hcb, hac.trans hcb.le⟩
  · exact ⟨c, if_neg hcb, hac⟩

theorem Covers.mono {o : Option α} {a b : α} (h : Covers o b) (hab : a ≤ b) : Covers o a := by
  obtain ⟨c, hc, hbc⟩ := h
  exact ⟨c, hc, hab.trans hbc⟩

/-- Merging a covered value changes nothing. -/
theorem merge_eq_of_covers {o : Option α} {a : α} (h : Covers o a) : merge o a = o := by
  obtain ⟨b, rfl, hab⟩ := h
  exact if_neg (not_lt.2 hab)

/-- The merged register holds the old value or the new one. -/
theorem merge_eq_or (o : Option α) (a : α) : merge o a = o ∨ merge o a = some a := by
  cases o with
  | none => exact Or.inr rfl
  | some b =>
      by_cases h : b < a
      · exact Or.inr (if_pos h)
      · exact Or.inl (if_neg h)

theorem merge_eq_some {o : Option α} {a b : α} (h : merge o a = some b) : o = some b ∨ b = a := by
  rcases merge_eq_or o a with hm | hm
  · exact .inl (hm ▸ h)
  · exact .inr (Option.some.inj (h.symm.trans hm))

/-! ## The newest element of a set -/

theorem isNewest_empty : IsNewest (none : Option α) ∅ :=
  ⟨fun _ h => by simp at h, fun _ h => h.elim⟩

theorem IsNewest.merge {o : Option α} {S : Set α} (h : IsNewest o S) (a : α) :
    IsNewest (merge o a) (insert a S) where
  mem b hb := by
    rcases merge_eq_some hb with hold | hnew
    · exact Or.inr (h.mem b hold)
    · exact Or.inl hnew
  covers b hb := by
    rcases hb with rfl | hb
    · exact covers_merge_self o b
    · exact (h.covers b hb).merge a

/-- A set has at most one newest register. -/
theorem IsNewest.unique {o o' : Option α} {S : Set α} (h : IsNewest o S) (h' : IsNewest o' S) :
    o = o' := by
  cases o with
  | none =>
      cases o' with
      | none => rfl
      | some b =>
          obtain ⟨c, hc, -⟩ := h.covers b (h'.mem b rfl)
          simp at hc
  | some a =>
      obtain ⟨b, rfl, hab⟩ := h'.covers a (h.mem a rfl)
      obtain ⟨c, hc, hbc⟩ := h.covers b (h'.mem b rfl)
      rw [Option.some.injEq] at hc
      subst hc
      exact congrArg some (le_antisymm hab hbc)

/-- The last element of an ascending list is its newest. -/
theorem isNewest_getLast? {l : List α} (h : l.Pairwise (· < ·)) :
    IsNewest l.getLast? { a | a ∈ l } := by
  refine ⟨fun a ha => List.mem_of_getLast? ha, fun a ha => ?_⟩
  rcases List.eq_nil_or_concat l with rfl | ⟨l, b, hl⟩
  · cases ha
  · rw [List.concat_eq_append] at hl
    subst hl
    refine ⟨b, List.getLast?_concat, ?_⟩
    rcases List.mem_append.1 ha with hold | hlast
    · exact ((List.pairwise_append.1 h).2.2 a hold b (List.mem_singleton_self b)).le
    · exact (List.mem_singleton.1 hlast).le

theorem IsNewest.isGreatest {a : α} {S : Set α} (h : IsNewest (some a) S) : IsGreatest S a := by
  refine ⟨h.mem a rfl, ?_⟩
  intro b hb
  obtain ⟨c, hc, hbc⟩ := h.covers b hb
  rw [Option.some.injEq] at hc
  exact hc ▸ hbc

end Hapartition.Lib
