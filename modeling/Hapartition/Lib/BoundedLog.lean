import Mathlib.Data.List.DropRight
import Mathlib.Data.List.Rotate

/-!
# Bounded logs in circular buffers

A `BoundedLog` of capacity `c` keeps the last `c` elements pushed to it (`entries_foldl_push`) and
hands out the last of them (`recent_foldl_push`). A circular buffer holds such a log if, read from
the place that is written next, it is the free places followed by the entries of the log (`Holds`).
Writing the next place is a push (`Holds.push`), and the last entries are one piece of the buffer,
or two if they wrap around its end (`Holds.drop_take`, `Holds.drop_append_take`).
-/

set_option autoImplicit false

namespace Hapartition.Lib

universe u

variable {α : Type u} {c : Nat}

/-! ## The last elements of a list -/

theorem rtake_of_length_le {l : List α} (h : l.length ≤ c) : l.rtake c = l := by
  rw [List.rtake, Nat.sub_eq_zero_of_le h, List.drop_zero]

theorem length_rtake_le (l : List α) (c : Nat) : (l.rtake c).length ≤ c := by
  rw [List.rtake, List.length_drop]
  omega

theorem rtake_rtake {k : Nat} (h : k ≤ c) (l : List α) : (l.rtake c).rtake k = l.rtake k := by
  rw [List.rtake, List.rtake, List.rtake, List.length_drop, List.drop_drop]
  congr 1
  omega

theorem rtake_rtake_append (l l' : List α) : (l.rtake c ++ l').rtake c = (l ++ l').rtake c := by
  have hle : l.length - c ≤ l.length := Nat.sub_le _ _
  rw [List.rtake, List.rtake, List.rtake, ← List.drop_append_of_le_length hle, List.drop_drop,
    List.length_drop, List.length_append]
  congr 1
  omega

/-! ## Bounded logs -/

/-- The last entries of a log, at most `c` of them, oldest first. -/
structure BoundedLog (α : Type u) (c : Nat) where
  entries : List α
  length_le : entries.length ≤ c

namespace BoundedLog

def empty : BoundedLog α c := ⟨[], Nat.zero_le c⟩

def push (l : BoundedLog α c) (x : α) : BoundedLog α c :=
  ⟨(l.entries ++ [x]).rtake c, length_rtake_le _ c⟩

/-- The last `n` entries, or all if `n` is not positive or there are fewer. -/
def recent (l : BoundedLog α c) (n : Int) : List α :=
  if n ≤ 0 ∨ (l.entries.length : Int) < n then l.entries else l.entries.rtake n.toNat

theorem entries_foldl_push (xs : List α) (l : BoundedLog α c) :
    (xs.foldl push l).entries = (l.entries ++ xs).rtake c := by
  induction xs generalizing l with
  | nil => rw [List.foldl_nil, List.append_nil, rtake_of_length_le l.length_le]
  | cons x xs ih =>
      rw [List.foldl_cons, ih, push, rtake_rtake_append, List.append_assoc]
      rfl

/-- A log hands out the last elements of all that were pushed. -/
theorem recent_foldl_push (xs : List α) (n : Int) :
    (xs.foldl push (empty : BoundedLog α c)).recent n =
      xs.rtake
        (if n ≤ 0 ∨ ((min xs.length c : Nat) : Int) < n then min xs.length c else n.toNat) := by
  have hentries : (xs.foldl push (empty : BoundedLog α c)).entries = xs.rtake c :=
    entries_foldl_push xs empty
  have hlength : (xs.rtake c).length = min xs.length c := by
    rw [List.rtake, List.length_drop]
    omega
  rw [recent, hentries, hlength]
  split
  · rw [List.rtake, List.rtake]
    congr 1
    omega
  · exact rtake_rtake (by omega) xs

end BoundedLog

/-! ## Circular buffers -/

/-- Writing the place from which a list is rotated, and rotating once more. -/
theorem rotate_set_succ {l : List α} {p : Nat} (hp : p < l.length) (x : α) :
    (l.set p x).rotate (p + 1) = (l.rotate p ++ [x]).tail := by
  have hset : (l.set p x).rotate p = x :: l.drop (p + 1) ++ l.take p := by
    rw [List.rotate_eq_drop_append_take (by rw [List.length_set]; omega), List.drop_set,
      if_neg (Nat.lt_irrefl p), List.drop_eq_getElem_cons hp, Nat.sub_self, List.set_cons_zero,
      List.take_set, List.set_eq_of_length_le (List.length_take_le p l)]
  rw [← List.rotate_rotate, hset, List.rotate_eq_drop_append_take hp.le,
    List.drop_eq_getElem_cons hp, List.cons_append, List.cons_append, List.cons_append,
    List.tail_cons]
  exact (List.rotate_cons_succ _ _ 0).trans (List.rotate_zero _)

/-- The places of a log in a buffer of size `c`, after a push: a free place is used up, or the
oldest entry makes room. -/
theorem tail_append_some (hc : 0 < c) {l : List α} (hle : l.length ≤ c) (x : α) :
    (List.replicate (c - l.length) none ++ l.map some ++ [some x]).tail =
      List.replicate (c - ((l ++ [x]).rtake c).length) none ++ ((l ++ [x]).rtake c).map some := by
  by_cases hroom : l.length < c
  · have hfree : c - l.length = (c - (l.length + 1)) + 1 := by omega
    have hall : (l ++ [x]).rtake c = l ++ [x] := rtake_of_length_le (by
      rw [List.length_append, List.length_singleton]
      exact hroom)
    rw [hall, List.length_append, List.length_singleton, List.map_append, hfree,
      List.replicate_succ, List.cons_append, List.cons_append, List.tail_cons, List.append_assoc]
    rfl
  · have hfull : l.length = c := by omega
    cases l with
    | nil => exact absurd hfull hc.ne
    | cons y l =>
        have hlast : (y :: l ++ [x]).rtake c = l ++ [x] := by
          rw [List.rtake, List.length_append, hfull, List.length_singleton, Nat.add_sub_cancel_left]
          rfl
        rw [List.length_cons] at hfull
        rw [hlast, List.length_cons, List.length_append, List.length_singleton, hfull, Nat.sub_self,
          List.map_append]
        rfl

/-- The buffer holds the log: from the next place on come the free places, then the entries. -/
structure Holds (buf : List (Option α)) (pos : Nat) (log : BoundedLog α c) : Prop where
  length_eq : buf.length = c
  pos_lt : pos < c
  rotate_eq : buf.rotate pos =
    List.replicate (c - log.entries.length) none ++ log.entries.map some

namespace Holds

variable {buf : List (Option α)} {pos k : Nat} {log : BoundedLog α c}

theorem replicate_none (hc : 0 < c) :
    Holds (List.replicate c none) 0 (BoundedLog.empty : BoundedLog α c) where
  length_eq := List.length_replicate
  pos_lt := hc
  rotate_eq := by
    rw [List.rotate_zero]
    exact (List.append_nil _).symm

theorem push (h : Holds buf pos log) (x : α) :
    Holds (buf.set pos (some x)) ((pos + 1) % buf.length) (log.push x) where
  length_eq := by rw [List.length_set, h.length_eq]
  pos_lt := by
    rw [h.length_eq]
    exact Nat.mod_lt _ (Nat.zero_lt_of_lt h.pos_lt)
  rotate_eq := by
    have hpos : pos < buf.length := by
      rw [h.length_eq]
      exact h.pos_lt
    have hmod := List.rotate_mod (buf.set pos (some x)) (pos + 1)
    rw [List.length_set] at hmod
    rw [hmod, rotate_set_succ hpos, h.rotate_eq]
    exact tail_append_some (Nat.zero_lt_of_lt h.pos_lt) log.length_le x

/-- The last `k` entries, in the order of the buffer. -/
theorem drop_rotate (h : Holds buf pos log) (hk : k ≤ log.entries.length) :
    (buf.rotate pos).drop (c - k) = (log.entries.rtake k).map some := by
  have hle := log.length_le
  have hfree : (List.replicate (c - log.entries.length) (none : Option α)).length ≤ c - k := by
    rw [List.length_replicate]
    omega
  rw [h.rotate_eq, List.drop_append, List.drop_of_length_le hfree, List.nil_append,
    List.length_replicate, List.rtake, List.map_drop]
  congr 1
  omega

/-- Entries that do not wrap around the end are one piece. -/
theorem drop_take (h : Holds buf pos log) (hk : k ≤ log.entries.length) (hpos : k ≤ pos) :
    (buf.take pos).drop (pos - k) = (log.entries.rtake k).map some := by
  have hlt := h.pos_lt
  have hlen : (buf.drop pos).length = c - pos := by rw [List.length_drop, h.length_eq]
  rw [← h.drop_rotate hk, List.rotate_eq_drop_append_take (by rw [h.length_eq]; omega),
    List.drop_append, List.drop_of_length_le (hlen.trans_le (by omega)), List.nil_append, hlen]
  congr 1
  omega

/-- Entries that wrap around the end are two pieces. -/
theorem drop_append_take (h : Holds buf pos log) (hk : k ≤ log.entries.length) (hpos : pos < k) :
    buf.drop (c + pos - k) ++ buf.take pos = (log.entries.rtake k).map some := by
  have hlt := h.pos_lt
  have hle := log.length_le
  have hlen : (buf.drop pos).length = c - pos := by rw [List.length_drop, h.length_eq]
  have hzero : c - k - (c - pos) = 0 := by omega
  have hplace : pos + (c - k) = c + pos - k := by omega
  rw [← h.drop_rotate hk, List.rotate_eq_drop_append_take (by rw [h.length_eq]; omega),
    List.drop_append, hlen, hzero, List.drop_zero, List.drop_drop, hplace]

end Holds

end Hapartition.Lib
