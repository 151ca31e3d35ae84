import Mathlib.Data.List.Basic

/-!
# Buffered writers

A writer with a buffer of fixed size, over a sink that may fail after any number of elements.
`BufWriter` is the writer of Go's package `bufio`: a block that does not fit is written through the
buffer, or past it if it is empty, and after the first failure nothing is written any more.

Nothing gets lost or out of order: after blocks that are each flushed, the sink has taken what was
handed to the writer, cut where the sink failed (`Holds.foldl`).
-/

set_option autoImplicit false

namespace Hapartition.Lib

variable {α : Type*}

/-! ## Sinks -/

/-- A connection to write to. It takes `room` more elements before it fails; with `none` it never
does. -/
structure Sink (α : Type*) where
  written : List α
  room : Option Nat

namespace Sink

/-- A write: the sink afterwards, how much it has taken, and whether that was all. -/
def write (k : Sink α) (p : List α) : Sink α × Nat × Bool :=
  match k.room with
  | none => (⟨k.written ++ p, none⟩, p.length, true)
  | some r =>
      if p.length ≤ r then (⟨k.written ++ p, some (r - p.length)⟩, p.length, true)
      else (⟨k.written ++ p.take r, some 0⟩, r, false)

/-- How many elements the sink takes in total. -/
def limit (k : Sink α) : Option Nat := k.room.map (k.written.length + ·)

/-- What a write can do. -/
theorem write_cases (k : Sink α) (p : List α) :
    (∃ k', k.write p = (k', p.length, true) ∧ k'.written = k.written ++ p ∧ k'.limit = k.limit) ∨
      ∃ k' r, k.write p = (k', r, false) ∧ r < p.length ∧ k'.written = k.written ++ p.take r ∧
        k'.limit = k.limit ∧ k.limit = some (k.written.length + r) := by
  rw [write, limit]
  cases hroom : k.room with
  | none => exact .inl ⟨_, rfl, rfl, rfl⟩
  | some r =>
      by_cases hle : p.length ≤ r
      · refine .inl ⟨_, if_pos hle, rfl, ?_⟩
        simp only [limit, Option.map_some, List.length_append, Option.some.injEq]
        omega
      · refine .inr ⟨_, r, if_neg hle, by omega, rfl, ?_, rfl⟩
        simp only [limit, Option.map_some, List.length_append, List.length_take, Option.some.injEq]
        omega

end Sink

/-! ## The writer -/

/-- A writer with a buffer of `size` places. -/
structure BufWriter (α : Type*) (size : Nat) where
  buf : List α
  failed : Bool
  sink : Sink α
  fits : buf.length ≤ size

namespace BufWriter

variable {size : Nat}

/-- A writer over a connection. -/
def new (sink : Sink α) : BufWriter α size := ⟨[], false, sink, Nat.zero_le _⟩

/-- `Flush`. -/
def flush (w : BufWriter α size) : BufWriter α size :=
  if w.failed = true then w
  else if w.buf = [] then w
  else
    match w.sink.write w.buf with
    | (sink, _, true) => ⟨[], false, sink, Nat.zero_le _⟩
    -- what the sink has taken leaves the buffer
    | (sink, n, false) =>
        ⟨w.buf.drop n, true, sink, by
          have := w.fits
          rw [List.length_drop]
          omega⟩

/-- As much of a block as there is room for. -/
def copyIn (w : BufWriter α size) (p : List α) : BufWriter α size :=
  ⟨w.buf ++ p.take (size - w.buf.length), w.failed, w.sink, by
    have := w.fits
    rw [List.length_append, List.length_take]
    omega⟩

/-- What `Write` may still have to do, for its termination: the block first, then the buffer. -/
def pending (w : BufWriter α size) (p : List α) : Nat :=
  if w.failed = true then 0 else 1 + 2 * p.length + w.buf.length

theorem flush_of_failed {w : BufWriter α size} (h : w.failed = true) : w.flush = w := if_pos h

theorem flush_cases {w : BufWriter α size} (h : w.failed = false) :
    ((w.flush).failed = false ∧ w.flush.buf = [] ∧
        w.flush.sink.written = w.sink.written ++ w.buf ∧ w.flush.sink.limit = w.sink.limit) ∨
      ∃ r, w.flush.failed = true ∧ r < w.buf.length ∧
        w.flush.sink.written = w.sink.written ++ w.buf.take r ∧
        w.flush.sink.limit = w.sink.limit ∧ w.sink.limit = some (w.sink.written.length + r) := by
  rw [flush, if_neg (by simp [h])]
  by_cases hbuf : w.buf = []
  · rw [if_pos hbuf]
    exact .inl ⟨h, hbuf, by rw [hbuf, List.append_nil], rfl⟩
  · rw [if_neg hbuf]
    rcases w.sink.write_cases w.buf with ⟨k, hk, hwritten, hlimit⟩ |
      ⟨k, r, hk, hr, hwritten, hlimit, htotal⟩
    · rw [hk]
      exact .inl ⟨rfl, rfl, hwritten, hlimit⟩
    · rw [hk]
      exact .inr ⟨r, rfl, hr, hwritten, hlimit, htotal⟩

/-- The block itself is handed to the sink. -/
def writeDirect (w : BufWriter α size) (p : List α) : BufWriter α size :=
  { w with failed := !(w.sink.write p).2.2, sink := (w.sink.write p).1 }

theorem pending_of_failed {w : BufWriter α size} (h : w.failed = true) (p : List α) :
    w.pending p = 0 := if_pos h

theorem pending_of_ok {w : BufWriter α size} (h : w.failed = false) (p : List α) :
    w.pending p = 1 + 2 * p.length + w.buf.length := if_neg (by simp [h])

theorem pending_writeDirect {w : BufWriter α size} {p : List α} (hw : w.failed = false)
    (hbuf : w.buf = []) (hp : 0 < p.length) :
    (w.writeDirect p).pending (p.drop (w.sink.write p).2.1) < w.pending p := by
  rw [pending_of_ok hw]
  rcases w.sink.write_cases p with ⟨k, hk, -⟩ | ⟨k, r, hk, -⟩
  · have hok : (w.writeDirect p).failed = false := by rw [writeDirect, hk]; rfl
    have hbuf' : (w.writeDirect p).buf = [] := hbuf
    rw [pending_of_ok hok, hk, hbuf', List.drop_length]
    simp only [List.length_nil]
    omega
  · have hfailed : (w.writeDirect p).failed = true := by rw [writeDirect, hk]; rfl
    rw [pending_of_failed hfailed]
    omega

theorem pending_flush {w : BufWriter α size} {p : List α} (hw : w.failed = false)
    (hbuf : w.buf ≠ []) :
    (w.copyIn p).flush.pending (p.drop (size - w.buf.length)) < w.pending p := by
  have hpos := List.length_pos_of_ne_nil hbuf
  rw [pending_of_ok hw]
  rcases flush_cases (w := w.copyIn p) hw with ⟨hok, hempty, -⟩ | ⟨r, hfailed, -⟩
  · rw [pending_of_ok hok, hempty, List.length_drop, List.length_nil]
    omega
  · rw [pending_of_failed hfailed]
    omega

/-- The loop of `Write`, and the copy of what is left at its end. -/
def write (w : BufWriter α size) (p : List α) : BufWriter α size :=
  if hloop : size - w.buf.length < p.length ∧ w.failed = false then
    if hbuf : w.buf = [] then
      -- a large block and an empty buffer: no copy
      have := pending_writeDirect hloop.2 hbuf (Nat.lt_of_le_of_lt (Nat.zero_le _) hloop.1)
      (w.writeDirect p).write (p.drop (w.sink.write p).2.1)
    else
      have := pending_flush (p := p) hloop.2 hbuf
      (w.copyIn p).flush.write (p.drop (size - w.buf.length))
  else if w.failed = true then w
  else w.copyIn p
  termination_by w.pending p

theorem write_of_failed {w : BufWriter α size} (h : w.failed = true) (p : List α) :
    w.write p = w := by
  rw [write, dif_neg (by simp [h]), if_pos h]

/-! ## What arrives -/

/-- The writer has been handed `input`, over a sink that takes `limit` elements in total. -/
structure Holds (limit : Option Nat) (input : List α) (w : BufWriter α size) : Prop where
  total : w.sink.limit = limit
  ok : w.failed = false → w.sink.written ++ w.buf = input
  failed : w.failed = true → ∃ n, limit = some n ∧ n ≤ input.length ∧ w.sink.written = input.take n

variable {limit : Option Nat} {input : List α} {w : BufWriter α size}

theorem holds_new (sink : Sink α) :
    Holds sink.limit sink.written (new sink : BufWriter α size) where
  total := rfl
  ok _ := List.append_nil _
  failed h := nomatch h

theorem Holds.of_ok (hw : w.failed = false) (htotal : w.sink.limit = limit)
    (hinput : w.sink.written ++ w.buf = input) : Holds limit input w :=
  ⟨htotal, fun _ => hinput, fun hno => absurd (hw.symm.trans hno) (by simp)⟩

/-- A write that failed has cut the input where the sink had enough. -/
theorem Holds.of_cut {written p : List α} {r : Nat} (hw : w.failed = true)
    (htotal : w.sink.limit = limit) (hlimit : limit = some (written.length + r)) (hr : r < p.length)
    (hwritten : w.sink.written = written ++ p.take r) : Holds limit (written ++ p) w := by
  refine ⟨htotal, fun hno => absurd (hw.symm.trans hno) (by simp), fun _ => ?_⟩
  refine ⟨_, hlimit, by rw [List.length_append]; omega, ?_⟩
  rw [hwritten, List.take_length_add_append]

/-- After a failure, more input makes no difference. -/
theorem Holds.of_failed (h : Holds limit input w) (hw : w.failed = true) (p : List α) :
    Holds limit (input ++ p) w := by
  refine ⟨h.total, fun hok => absurd (hw.symm.trans hok) (by simp), fun _ => ?_⟩
  obtain ⟨n, hn, hle, hwritten⟩ := h.failed hw
  refine ⟨n, hn, by rw [List.length_append]; omega, ?_⟩
  rw [hwritten, List.take_append_of_le_length hle]

theorem Holds.flush (h : Holds limit input w) : Holds limit input w.flush := by
  cases hw : w.failed with
  | true => rwa [flush_of_failed hw]
  | false =>
      have hinput := h.ok hw
      rcases flush_cases hw with ⟨hok, hempty, hwritten, hlimit⟩ |
        ⟨r, hfailed, hr, hwritten, hlimit, htotal⟩
      · apply Holds.of_ok hok (hlimit.trans h.total)
        rw [hempty, hwritten, hinput, List.append_nil]
      · rw [← hinput]
        exact .of_cut hfailed (hlimit.trans h.total) (h.total.symm.trans htotal) hr hwritten

theorem Holds.writeDirect (h : Holds limit input w) (hw : w.failed = false) (hbuf : w.buf = [])
    (p : List α) : Holds limit (input ++ p) (w.writeDirect p) ∧
      ((w.writeDirect p).failed = false → p.drop (w.sink.write p).2.1 = []) := by
  have hinput : w.sink.written = input := by rw [← h.ok hw, hbuf, List.append_nil]
  rcases w.sink.write_cases p with ⟨k, hk, hwritten, hlimit⟩ |
    ⟨k, r, hk, hr, hwritten, hlimit, htotal⟩
  · have hok : (w.writeDirect p).failed = false := by rw [BufWriter.writeDirect, hk]; rfl
    have hsink : (w.writeDirect p).sink = k := congrArg Prod.fst hk
    refine ⟨.of_ok hok (by rw [hsink, hlimit, h.total]) ?_, fun _ => by rw [hk, List.drop_length]⟩
    show (w.writeDirect p).sink.written ++ w.buf = _
    rw [hsink, hwritten, hinput, hbuf, List.append_nil]
  · have hfailed : (w.writeDirect p).failed = true := by rw [BufWriter.writeDirect, hk]; rfl
    have hsink : (w.writeDirect p).sink = k := congrArg Prod.fst hk
    refine ⟨?_, fun hno => absurd (hfailed.symm.trans hno) (by simp)⟩
    rw [← hinput]
    exact .of_cut hfailed (by rw [hsink, hlimit, h.total]) (h.total.symm.trans htotal) hr
      (by rw [hsink, hwritten])

theorem Holds.copyIn (h : Holds limit input w) (hw : w.failed = false) (p : List α) :
    Holds limit (input ++ p.take (size - w.buf.length)) (w.copyIn p) := by
  apply Holds.of_ok (w := w.copyIn p) hw h.total
  rw [← h.ok hw, List.append_assoc]
  rfl

/-- `Write`, by the recursion of its loop: each round hands on a part of the block, or the writer
has failed and the rest of it does not matter. -/
theorem Holds.write (h : Holds limit input w) (p : List α) :
    Holds limit (input ++ p) (w.write p) := by
  fun_induction BufWriter.write w p generalizing input with
  | case1 w p hloop hbuf _ ih =>
      obtain ⟨hdirect, hall⟩ := h.writeDirect hloop.2 hbuf p
      cases hw : (w.writeDirect p).failed with
      | true => rwa [write_of_failed hw]
      | false =>
          have hrest := ih hdirect
          rw [hall hw, List.append_nil] at hrest
          rwa [hall hw]
  | case2 w p hloop hbuf _ ih =>
      have hrest := ih (h.copyIn hloop.2 p).flush
      rwa [List.append_assoc, List.take_append_drop] at hrest
  | case3 w p hloop hfailed => exact h.of_failed hfailed p
  | case4 w p hloop hok =>
      have hw : w.failed = false := by simpa using hok
      have hfits : p.length ≤ size - w.buf.length := by
        by_contra hlt
        exact hloop ⟨by omega, hw⟩
      have hcopy := h.copyIn hw p
      rwa [List.take_of_length_le hfits] at hcopy

/-- The input as far as the sink takes it. -/
def cut (limit : Option Nat) (input : List α) : List α :=
  match limit with
  | none => input
  | some n => input.take n

/-- With nothing left in the buffer, the sink has what was handed to the writer, up to where it
failed. -/
theorem Holds.written_eq (h : Holds limit input w) (hempty : w.failed = false → w.buf = []) :
    w.sink.written = cut limit input := by
  cases hw : w.failed with
  | true =>
      obtain ⟨n, rfl, -, hwritten⟩ := h.failed hw
      exact hwritten
  | false =>
      have hinput := h.ok hw
      rw [hempty hw, List.append_nil] at hinput
      rw [hinput]
      cases limit with
      | none => rfl
      | some n =>
          -- nothing has been refused, so the input is within the limit
          obtain ⟨r, -, hr⟩ := Option.map_eq_some_iff.1 h.total
          rw [hinput] at hr
          exact (List.take_of_length_le (by omega)).symm

theorem buf_flush (w : BufWriter α size) (h : w.flush.failed = false) : w.flush.buf = [] := by
  cases hw : w.failed with
  | true =>
      rw [flush_of_failed hw, hw] at h
      cases h
  | false =>
      rcases flush_cases hw with ⟨-, hempty, -⟩ | ⟨r, hfailed, -⟩
      · exact hempty
      · rw [hfailed] at h
        cases h

/-- A block is written and flushed. -/
def writeFlush (w : BufWriter α size) (p : List α) : BufWriter α size := (w.write p).flush

/-- The run lemma: one block after the other, each of them flushed. -/
theorem Holds.foldl (h : Holds limit input w) (hempty : w.failed = false → w.buf = [])
    (ps : List (List α)) :
    (ps.foldl writeFlush w).sink.written = cut limit (input ++ ps.flatten) := by
  induction ps generalizing input w with
  | nil =>
      rw [List.flatten_nil, List.append_nil]
      exact h.written_eq hempty
  | cons p ps ih =>
      rw [List.foldl_cons, List.flatten_cons, ← List.append_assoc]
      exact ih (h.write p).flush (buf_flush _)

end BufWriter

end Hapartition.Lib
