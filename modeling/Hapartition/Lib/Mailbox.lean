import Mathlib.Data.List.Basic

/-!
# Mailboxes that drop

A mailbox of bounded capacity whose senders never block: what is offered to a full one is lost. Its
reader takes the messages in the order in which they got in.

`Kept cap offered received buf` says what is known of a mailbox at any time, from the messages that
were offered to it so far, those that the reader has, and those that wait. Both moves preserve it
(`Kept.offer`, `Kept.receive`). No message is made up or overtaken, and the first `cap` messages get
in whatever the reader does; before the reader's first move nothing else does (`Kept.unread`).
-/

set_option autoImplicit false

namespace Hapartition.Lib

variable {α : Type*}

/-- What waits after `x` was offered. -/
def offer (cap : Nat) (buf : List α) (x : α) : List α :=
  if buf.length < cap then buf ++ [x] else buf

/-- A mailbox against the messages offered to it and those received from it. -/
structure Kept (cap : Nat) (offered received buf : List α) : Prop where
  length_le : buf.length ≤ cap
  sublist : (received ++ buf).Sublist offered
  first : offered.take cap <+: received ++ buf

namespace Kept

variable {cap : Nat} {offered received buf : List α} {x : α}

theorem empty (cap : Nat) : Kept cap ([] : List α) [] [] :=
  ⟨Nat.zero_le cap, .slnil, by rw [List.take_nil]; exact List.nil_prefix⟩

theorem offer (h : Kept cap offered received buf) (x : α) :
    Kept cap (offered ++ [x]) received (Lib.offer cap buf x) := by
  unfold Lib.offer
  split
  next hroom =>
    refine ⟨by rw [List.length_append]; exact hroom, ?_, ?_⟩
    · rw [← List.append_assoc]
      exact h.sublist.append (.refl [x])
    · rw [← List.append_assoc]
      rcases Nat.lt_or_ge offered.length cap with hfew | hmany
      · -- fewer than `cap` so far: all of them got in, and so does `x`
        have hall : offered = received ++ buf :=
          (List.take_of_length_le (Nat.le_of_lt hfew) ▸ h.first).sublist.antisymm h.sublist
        rw [← hall]
        exact List.take_prefix cap _
      · rw [List.take_append_of_le_length hmany]
        exact h.first.trans (List.prefix_append _ _)
  next hfull =>
    -- a full mailbox has been offered `cap` messages before
    have hmany : cap ≤ offered.length :=
      calc cap ≤ buf.length := Nat.le_of_not_lt hfull
        _ ≤ (received ++ buf).length := by simp
        _ ≤ offered.length := h.sublist.length_le
    refine ⟨h.length_le, h.sublist.trans (List.sublist_append_left _ _), ?_⟩
    rw [List.take_append_of_le_length hmany]
    exact h.first

theorem receive (h : Kept cap offered received (x :: buf)) :
    Kept cap offered (received ++ [x]) buf := by
  have hsame : (received ++ [x]) ++ buf = received ++ x :: buf := by simp
  exact ⟨Nat.le_of_succ_le h.length_le, hsame ▸ h.sublist, hsame ▸ h.first⟩

theorem received_sublist (h : Kept cap offered received buf) : received.Sublist offered :=
  (List.sublist_append_left _ _).trans h.sublist

/-- While nothing is received, the first `cap` messages are all that get in. -/
theorem unread (h : Kept cap offered [] buf) : buf = offered.take cap := by
  have hlen : buf.length ≤ (offered.take cap).length := by
    rw [List.length_take]
    exact Nat.le_min.2 ⟨h.length_le, h.sublist.length_le⟩
  exact (h.first.eq_of_length_le hlen).symm

end Kept

end Hapartition.Lib
