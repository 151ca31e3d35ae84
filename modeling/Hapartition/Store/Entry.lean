import Hapartition.Lib.Bytes
import Hapartition.Lib.Newest
import Mathlib.Data.Prod.Lex
import Mathlib.Order.BooleanAlgebra.Basic

/-!
# Versioned entries and the last-writer-wins comparison

`Entry` and `newer` of `pkg/store/store.go`. The comparison goes through version, origin, deletion
flag and value, in this order; `newer_iff_lt` identifies it with the strict part of a linear order
on entries, so an entry that is not older than another is equal to it or newer
(`le_iff_eq_or_newer`).
-/

set_option autoImplicit false

namespace Hapartition

open Lib

/-- A versioned value or, with `deleted` set, a tombstone. -/
structure Entry where
  value : Bytes
  version : Int64
  origin : Bytes
  deleted : Bool
  deriving DecidableEq, Repr

/-- `newer(a, b)`: `a` wins over `b`. -/
def newer (a b : Entry) : Bool :=
  if a.version ≠ b.version then decide (b.version < a.version)
  else if a.origin ≠ b.origin then decide (b.origin < a.origin)
  else if a.deleted ≠ b.deleted then a.deleted
  else decide (b.value < a.value)

namespace Entry

/-- The fields in the order in which `newer` compares them. -/
def rank (e : Entry) : Int64 ×ₗ Bytes ×ₗ Bool ×ₗ Bytes :=
  toLex (e.version, toLex (e.origin, toLex (e.deleted, e.value)))

theorem rank_injective : Function.Injective rank := by
  intro a b h
  cases a
  cases b
  have h' := congrArg ofLex h
  simp only [rank, ofLex_toLex, Prod.mk.injEq, EmbeddingLike.apply_eq_iff_eq] at h'
  obtain ⟨rfl, rfl, rfl, rfl⟩ := h'
  rfl

instance : LinearOrder Entry := LinearOrder.lift' rank rank_injective

theorem lt_iff_rank {a b : Entry} : a < b ↔ rank a < rank b := Iff.rfl

theorem le_iff_rank {a b : Entry} : a ≤ b ↔ rank a ≤ rank b := Iff.rfl

/-- A smaller version makes a smaller entry. -/
theorem lt_of_version_lt {a b : Entry} (h : a.version < b.version) : a < b :=
  lt_iff_rank.2 (Prod.Lex.toLex_lt_toLex.2 (Or.inl h))

theorem version_le_of_le {a b : Entry} (h : a ≤ b) : a.version ≤ b.version := by
  rcases Prod.Lex.toLex_le_toLex.1 (le_iff_rank.1 h) with hv | ⟨hv, -⟩
  · exact hv.le
  · exact hv.le

end Entry

/-- The comparison of the source is the strict order on entries. -/
theorem newer_iff_lt {a b : Entry} : newer a b = true ↔ b < a := by
  rw [Entry.lt_iff_rank, Entry.rank, Entry.rank, Prod.Lex.toLex_lt_toLex, Prod.Lex.toLex_lt_toLex,
    Prod.Lex.toLex_lt_toLex]
  unfold newer
  -- one split per level of the comparison, in its order
  by_cases hv : a.version = b.version
  · by_cases ho : a.origin = b.origin
    · by_cases hd : a.deleted = b.deleted
      · simp [hv, ho, hd]
      · cases ha : a.deleted <;> cases hb : b.deleted <;> simp_all
    · simp [hv, ho, Ne.symm ho]
  · simp [hv, Ne.symm hv]

theorem newer_eq_false_iff {a b : Entry} : newer a b = false ↔ a ≤ b := by
  rw [← Bool.not_eq_true, newer_iff_lt, not_lt]

/-- `e'` is `e` or newer than `e`. -/
theorem le_iff_eq_or_newer {e e' : Entry} : e ≤ e' ↔ e' = e ∨ newer e' e = true := by
  rw [newer_iff_lt, le_iff_eq_or_lt, eq_comm]

end Hapartition
