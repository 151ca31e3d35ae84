import Mathlib.Data.List.Basic

/-!
# Buffered readers

A reader with a buffer of fixed size, over a source that delivers its data in pieces of any length.
`BufReader` is the reader of Go's package `bufio`: the window is the part of the buffer that has
been filled and not yet handed out, and a source that has ended is reported once and then asked
again.

All that a client of the reader can see is the rest of the stream (`BufReader.rest`), not the pieces
in which it arrives: `readByte_of_rest_cons`, `sliced_readSlice` and `readFull_spec` say what the
operations return in terms of it alone.
-/

set_option autoImplicit false

namespace Hapartition.Lib

variable {α : Type*}

/-! ## Sources -/

/-- What a connection still delivers before it ends, piece by piece. A read that delivers nothing
reports the end, so no piece is empty. -/
structure Source (α : Type*) where
  pieces : List (List α)
  nonempty : ∀ piece ∈ pieces, piece ≠ []

namespace Source

/-- The stream that the pieces make up. -/
def all (src : Source α) : List α := src.pieces.flatten

/-- A read of at most `k` elements: of the first piece, as much as fits; `none` is the end. -/
def read (k : Nat) : Source α → Option (List α) × Source α
  | ⟨[], h⟩ => (none, ⟨[], h⟩)
  | ⟨piece :: pieces, h⟩ =>
      if hk : piece.length ≤ k then
        (some piece, ⟨pieces, fun p hp => h p (List.mem_cons_of_mem _ hp)⟩)
      else
        (some (piece.take k), ⟨piece.drop k :: pieces, by
          intro p hp
          rcases List.mem_cons.1 hp with rfl | hp
          · rw [Ne, List.drop_eq_nil_iff]
            exact hk
          · exact h p (List.mem_cons_of_mem _ hp)⟩)

theorem read_eq_none {k : Nat} {src src' : Source α} (h : src.read k = (none, src')) :
    src.all = [] ∧ src' = src := by
  match src with
  | ⟨[], _⟩ => exact ⟨rfl, (Prod.mk.inj h).2.symm⟩
  | ⟨piece :: pieces, _⟩ =>
      rw [read] at h
      split at h <;> cases (Prod.mk.inj h).1

theorem read_eq_some {k : Nat} (hk : 0 < k) {src src' : Source α} {d : List α}
    (h : src.read k = (some d, src')) : d ≠ [] ∧ d.length ≤ k ∧ src.all = d ++ src'.all := by
  match src with
  | ⟨[], _⟩ => cases (Prod.mk.inj h).1
  | ⟨piece :: pieces, hpieces⟩ =>
      have hne := hpieces piece List.mem_cons_self
      rw [read] at h
      split at h
      next hle =>
        obtain ⟨hd, rfl⟩ := Prod.mk.inj h
        obtain rfl := Option.some.inj hd
        exact ⟨hne, hle, rfl⟩
      next hle =>
        obtain ⟨hd, rfl⟩ := Prod.mk.inj h
        obtain rfl := Option.some.inj hd
        refine ⟨?_, List.length_take_le _ _, ?_⟩
        · rw [Ne, List.take_eq_nil_iff, not_or]
          exact ⟨by omega, hne⟩
        · simp only [all, List.flatten_cons, ← List.append_assoc, List.take_append_drop]

end Source

/-! ## The reader -/

/-- A reader with a buffer of `size` places: `off` is the number of places before the window, `last`
the element that `unreadByte` puts back, `ended` the pending report of the end of the source. -/
structure BufReader (α : Type*) (size : Nat) where
  off : Nat
  window : List α
  ended : Bool
  last : Option α
  src : Source α
  size_min : 16 ≤ size
  fits : off + window.length ≤ size
  exhausted : ended = true → src.all = []
  /-- The end is found out when there is room for more. -/
  room : ended = true → off + window.length < size

/-- How `readSlice` ended. -/
inductive SliceStop where
  | delim
  | full
  | ended
  deriving DecidableEq, Repr

namespace BufReader

variable {size : Nat}

/-- A reader over a fresh connection. -/
def new (hsize : 16 ≤ size) (src : Source α) : BufReader α size where
  off := 0
  window := []
  ended := false
  last := none
  src := src
  size_min := hsize
  fits := Nat.zero_le _
  exhausted h := nomatch h
  room h := nomatch h

/-- What is still to be read: the window, and what the source delivers. -/
def rest (b : BufReader α size) : List α := b.window ++ b.src.all

theorem size_pos (b : BufReader α size) : 0 < size :=
  Nat.lt_of_lt_of_le (Nat.succ_pos _) b.size_min

theorem length_window_le (b : BufReader α size) : b.window.length ≤ size := by
  have := b.fits
  omega

/-- The first `n` elements of the window are handed out. -/
def advance (b : BufReader α size) (n : Nat) : BufReader α size :=
  { b with
    off := b.off + min n b.window.length
    window := b.window.drop n
    fits := by
      have := b.fits
      rw [List.length_drop]
      omega
    room := by
      intro hended
      have := b.room hended
      rw [List.length_drop]
      omega }

/-- The pending end is reported, once. -/
def clearEnd (b : BufReader α size) : BufReader α size :=
  { b with
    ended := false
    exhausted := fun h => nomatch h
    room := fun h => nomatch h }

/-- `lastByte` is set to the last of the elements handed out, if there are any. -/
def setLast (b : BufReader α size) (d : List α) : BufReader α size :=
  { b with last := d.getLast?.or b.last }

/-- `fill`: the window is moved to the start of the buffer, and what one read delivers is added. -/
def fill (b : BufReader α size) (h : b.window.length < size) : BufReader α size :=
  match hread : b.src.read (size - b.window.length) with
  | (none, src) =>
      { b with
        off := 0
        ended := true
        src := src
        fits := by
          have := b.length_window_le
          omega
        exhausted := by
          obtain ⟨hall, rfl⟩ := Source.read_eq_none hread
          exact fun _ => hall
        room := by
          intro _
          rwa [Nat.zero_add] }
  | (some d, src) =>
      { b with
        off := 0
        window := b.window ++ d
        src := src
        fits := by
          obtain ⟨-, hlen, -⟩ := Source.read_eq_some (by omega) hread
          rw [List.length_append]
          omega
        exhausted := by
          intro hended
          obtain ⟨hne, -, hall⟩ := Source.read_eq_some (by omega) hread
          rw [b.exhausted hended] at hall
          exact absurd (List.append_eq_nil_iff.1 hall.symm).1 hne
        room := by
          intro hended
          obtain ⟨hne, -, hall⟩ := Source.read_eq_some (by omega) hread
          rw [b.exhausted hended] at hall
          exact absurd (List.append_eq_nil_iff.1 hall.symm).1 hne }

/-- What `fill` can do: nothing is lost, and either the end is reported or the window grows. -/
theorem fill_cases (b : BufReader α size) (h : b.window.length < size) :
    (b.fill h).rest = b.rest ∧
      (((b.fill h).window = b.window ∧ (b.fill h).ended = true) ∨
        (∃ d, d ≠ [] ∧ (b.fill h).window = b.window ++ d ∧ (b.fill h).ended = b.ended)) := by
  unfold fill
  split
  next src hread =>
    obtain ⟨-, rfl⟩ := Source.read_eq_none hread
    exact ⟨rfl, .inl ⟨rfl, rfl⟩⟩
  next d src hread =>
    obtain ⟨hne, -, hall⟩ := Source.read_eq_some (by omega) hread
    refine ⟨?_, .inr ⟨d, hne, rfl, rfl⟩⟩
    rw [rest, rest, hall]
    exact List.append_assoc _ _ _

/-! ## Single elements -/

/-- The head of the window. -/
def takeByte (b : BufReader α size) : Option α × BufReader α size :=
  match b.window with
  | [] => (none, b.clearEnd)
  | c :: _ => (some c, (b.advance 1).setLast [c])

/-- `ReadByte`, with `none` at the end of the stream. With an empty window the loop of the source
fills it; when that brings nothing, the end has been reported. -/
def readByte (b : BufReader α size) : Option α × BufReader α size :=
  if h : b.window = [] ∧ b.ended = false then
    (b.fill (by rw [h.1]; exact b.size_pos)).takeByte
  else b.takeByte

/-- `UnreadByte`; an error leaves the reader as it is. -/
def unreadByte (b : BufReader α size) : BufReader α size :=
  match b.last with
  | none => b
  | some c =>
      if h : b.off = 0 then
        if hw : b.window = [] then
          { b with
            window := [c]
            last := none
            fits := by
              have := b.size_min
              rw [h, List.length_singleton]
              omega
            room := by
              have := b.size_min
              rw [h, List.length_singleton]
              omega }
        else b
      else
        { b with
          off := b.off - 1
          window := c :: b.window
          last := none
          fits := by
            have := b.fits
            rw [List.length_cons]
            omega
          room := by
            intro hended
            have := b.room hended
            rw [List.length_cons]
            omega }

theorem takeByte_of_window {b : BufReader α size} {c : α} {t : List α} (h : b.window = c :: t) :
    b.takeByte.1 = some c ∧ b.takeByte.2.rest = t ++ b.src.all ∧
      b.takeByte.2.unreadByte.rest = c :: (t ++ b.src.all) := by
  have hoff : ((b.advance 1).setLast [c]).off ≠ 0 := by
    show b.off + min 1 b.window.length ≠ 0
    rw [h, List.length_cons]
    omega
  have hrest : ((b.advance 1).setLast [c]).rest = t ++ b.src.all := by
    show b.window.drop 1 ++ b.src.all = _
    rw [h]
    rfl
  have htake : b.takeByte = (some c, (b.advance 1).setLast [c]) := by
    rw [takeByte, h]
  have hunread : ((b.advance 1).setLast [c]).unreadByte.rest = c :: (t ++ b.src.all) := by
    rw [unreadByte]
    show (if h : _ then _ else _ : BufReader α size).rest = _
    rw [dif_neg hoff]
    exact congrArg (c :: ·) hrest
  rw [htake]
  exact ⟨rfl, hrest, hunread⟩

theorem takeByte_of_nil {b : BufReader α size} (h : b.window = []) : b.takeByte.1 = none := by
  rw [takeByte, h]

/-- With the end pending, the window is all that is left. -/
theorem rest_of_ended {b : BufReader α size} (h : b.ended = true) : b.rest = b.window := by
  rw [rest, b.exhausted h, List.append_nil]

theorem window_eq_nil_of_rest {b : BufReader α size} (h : b.rest = []) : b.window = [] :=
  (List.append_eq_nil_iff.1 h).1

/-- `ReadByte` at the end of the stream. -/
theorem readByte_of_rest_nil {b : BufReader α size} (h : b.rest = []) : b.readByte.1 = none := by
  rw [readByte]
  split
  next hcond =>
    apply takeByte_of_nil
    apply window_eq_nil_of_rest
    rw [(b.fill_cases _).1, h]
  next => exact takeByte_of_nil (window_eq_nil_of_rest h)

/-- `ReadByte` returns the head of what is left, and `UnreadByte` right after it puts it back. -/
theorem readByte_of_rest_cons {b : BufReader α size} {c : α} {t : List α} (h : b.rest = c :: t) :
    b.readByte.1 = some c ∧ b.readByte.2.rest = t ∧ b.readByte.2.unreadByte.rest = c :: t := by
  -- a reader with something left has something in the window, unless it may still ask for it
  have hwindow : ∀ b' : BufReader α size, b'.rest = c :: t → b'.window ≠ [] →
      b'.takeByte.1 = some c ∧ b'.takeByte.2.rest = t ∧
        b'.takeByte.2.unreadByte.rest = c :: t := by
    intro b' hrest hne
    obtain ⟨c', t', hw⟩ := List.exists_cons_of_ne_nil hne
    rw [rest, hw] at hrest
    obtain ⟨rfl, rfl⟩ := List.cons.inj hrest
    exact takeByte_of_window hw
  have hended : ∀ b' : BufReader α size, b'.rest = c :: t → b'.ended = true → b'.window ≠ [] := by
    intro b' hrest hend hw
    rw [rest_of_ended hend, hw] at hrest
    cases hrest
  rw [readByte]
  split
  next hcond =>
    obtain ⟨hrest, hfill⟩ := b.fill_cases (by rw [hcond.1]; exact b.size_pos)
    rw [h] at hrest
    have hne : (b.fill (by rw [hcond.1]; exact b.size_pos)).window ≠ [] := by
      rcases hfill with ⟨-, hend⟩ | ⟨d, hne, hw, -⟩
      · exact hended _ hrest hend
      · rw [hw]
        exact List.append_ne_nil_of_right_ne_nil _ hne
    exact hwindow _ hrest hne
  next hcond =>
    apply hwindow b h
    intro hw
    rw [not_and, Bool.not_eq_false] at hcond
    exact hended b h (hcond hw) hw

@[simp] theorem rest_clearEnd (b : BufReader α size) : b.clearEnd.rest = b.rest := rfl

theorem rest_advance (b : BufReader α size) {n : Nat} (hn : n ≤ b.window.length) :
    (b.advance n).rest = b.rest.drop n := by
  rw [rest, rest, List.drop_append_of_le_length hn]
  rfl

theorem rest_advance_all (b : BufReader α size) : (b.advance b.window.length).rest = b.src.all := by
  rw [rest_advance b (Nat.le_refl _), rest, List.drop_left]

/-! ## Slices -/

section Slices

variable [DecidableEq α] (delim : α)

/-- The loop of `ReadSlice`. The first `scanned` elements of the window are known not to be the
delimiter and are not looked at again. -/
def readSliceLoop (scanned : Nat) (b : BufReader α size) : List α × SliceStop × BufReader α size :=
  match (b.window.drop scanned).findIdx? (· = delim) with
  | some i => (b.window.take (scanned + i + 1), .delim, b.advance (scanned + i + 1))
  | none =>
      if b.ended = true then (b.window, .ended, (b.advance b.window.length).clearEnd)
      else if hfull : size ≤ b.window.length then (b.window, .full, b.advance b.window.length)
      else readSliceLoop b.window.length (b.fill (by omega))
  termination_by size - b.window.length + if b.ended then 0 else 1
  decreasing_by
    obtain ⟨-, ⟨hw, hend⟩ | ⟨d, hne, hw, hend⟩⟩ := b.fill_cases (by omega)
    · rw [hw, hend, if_pos rfl, if_neg ‹_›]
      omega
    · have hlen := List.length_pos_of_ne_nil hne
      rw [hw, hend, List.length_append]
      omega

/-- `ReadSlice`. -/
def readSlice (b : BufReader α size) : List α × SliceStop × BufReader α size :=
  let out := b.readSliceLoop delim 0
  (out.1, out.2.1, out.2.2.setLast out.1)

/-- What a reader with a buffer of `size` places slices off a stream: the part up to and including
the first delimiter, or a full buffer without one, or all that is left. -/
inductive Sliced (size : Nat) (s : List α) : List α → SliceStop → List α → Prop where
  | delim (l t : List α) (hs : s = l ++ delim :: t) (hl : delim ∉ l) (hlen : l.length < size) :
      Sliced size s (l ++ [delim]) .delim t
  | full (hlen : size ≤ s.length) (hno : delim ∉ s.take size) :
      Sliced size s (s.take size) .full (s.drop size)
  | ended (hlen : s.length < size) (hno : delim ∉ s) : Sliced size s s .ended []

variable {delim}

/-- The delimiter found at `i` splits the window. -/
theorem window_of_findIdx? {w : List α} {scanned i : Nat} (hscanned : delim ∉ w.take scanned)
    (hi : (w.drop scanned).findIdx? (· = delim) = some i) :
    scanned + i < w.length ∧ w = w.take (scanned + i) ++ delim :: w.drop (scanned + i + 1) ∧
      delim ∉ w.take (scanned + i) := by
  obtain ⟨hlt, heq, hbefore⟩ := List.findIdx?_eq_some_iff_getElem.1 hi
  rw [List.length_drop] at hlt
  have hget : ∃ h : scanned + i < w.length, w[scanned + i] = delim :=
    ⟨by omega, by simpa using heq⟩
  obtain ⟨hlt', hget⟩ := hget
  refine ⟨by omega, ?_, ?_⟩
  · conv_lhs => rw [← List.take_append_drop (scanned + i) w,
      List.drop_eq_getElem_cons (by omega), hget]
  · intro hmem
    rw [List.take_add, List.mem_append] at hmem
    rcases hmem with hmem | hmem
    · exact hscanned hmem
    · obtain ⟨j, hj, hjd⟩ := List.mem_iff_getElem.1 hmem
      rw [List.length_take, List.length_drop] at hj
      exact absurd (by simpa using hjd) (by simpa using hbefore j (by omega))

/-- The loop of `ReadSlice`, by the recursion of its definition: a round that fills the buffer does
not change what is left, and has scanned the window. -/
theorem sliced_readSliceLoop (b : BufReader α size) {scanned : Nat}
    (hscanned : delim ∉ b.window.take scanned) :
    Sliced delim size b.rest (b.readSliceLoop delim scanned).1
      (b.readSliceLoop delim scanned).2.1 (b.readSliceLoop delim scanned).2.2.rest := by
  have hnone : ∀ {w : List α} {k : Nat}, delim ∉ w.take k →
      (w.drop k).findIdx? (· = delim) = none → delim ∉ w := by
    intro w k htake hfind hmem
    rw [← List.take_append_drop k w, List.mem_append] at hmem
    refine hmem.elim htake fun hmem => ?_
    simpa using List.findIdx?_eq_none_iff.1 hfind delim hmem
  fun_induction readSliceLoop delim scanned b with
  | case1 scanned b i hi =>
      obtain ⟨hlt, hw, hno⟩ := window_of_findIdx? hscanned hi
      have hle := b.length_window_le
      have hout : b.window.take (scanned + i + 1) = b.window.take (scanned + i) ++ [delim] := by
        conv_lhs => rw [hw]
        rw [List.take_append, List.take_of_length_le (by rw [List.length_take]; omega),
          List.length_take, Nat.min_eq_left (by omega)]
        simp
      have hrest : b.rest = b.window.take (scanned + i) ++
          delim :: (b.window.drop (scanned + i + 1) ++ b.src.all) := by
        conv_lhs => rw [rest, hw]
        rw [List.append_assoc, List.cons_append]
      rw [hout, show (b.advance (scanned + i + 1)).rest =
        b.window.drop (scanned + i + 1) ++ b.src.all from rfl]
      exact .delim _ _ hrest hno (by rw [List.length_take]; omega)
  | case2 scanned b hfind hended =>
      have hroom := b.room hended
      rw [rest_clearEnd, rest_advance_all, b.exhausted hended, rest_of_ended hended]
      exact .ended (by omega) (hnone hscanned hfind)
  | case3 scanned b hfind hended hfull =>
      have hlen : b.window.length = size := by
        have := b.length_window_le
        omega
      have htake : b.rest.take size = b.window := List.take_left' hlen
      have hdrop : b.rest.drop size = b.src.all := List.drop_left' hlen
      rw [rest_advance_all, ← hdrop, ← htake]
      apply Sliced.full
      · rw [rest, List.length_append]
        omega
      · rw [htake]
        exact hnone hscanned hfind
  | case4 scanned b hfind hended hfull ih =>
      obtain ⟨hrest, hfill⟩ := b.fill_cases (by omega)
      rw [hrest] at ih
      apply ih
      have hno := hnone hscanned hfind
      rcases hfill with ⟨hw, -⟩ | ⟨d, -, hw, -⟩
      · rwa [hw, List.take_length]
      · rwa [hw, List.take_left]

theorem sliced_readSlice (delim : α) (b : BufReader α size) :
    Sliced delim size b.rest (b.readSlice delim).1 (b.readSlice delim).2.1
      (b.readSlice delim).2.2.rest :=
  sliced_readSliceLoop b (by simp)

end Slices

/-! ## Blocks -/

/-- At most `k` elements of the window. -/
def takeBlock (b : BufReader α size) (k : Nat) : Option (List α) × BufReader α size :=
  if b.window = [] then (none, b.clearEnd)
  else (some (b.window.take k), (b.advance k).setLast (b.window.take k))

/-- A read of the source into the block of the caller, past the buffer. -/
def readDirect (b : BufReader α size) (k : Nat) (h : b.ended = false) :
    Option (List α) × BufReader α size :=
  let out := b.src.read k
  (out.1, ({ b with
    src := out.2
    exhausted := fun hended => absurd hended (by simp [h]) } : BufReader α size).setLast
      (out.1.getD []))

/-- `Read` into a block of `k` places, with `none` at the end of the stream. With an empty window
there is one read of the source: into the block if it is at least as large as the buffer, and into
the buffer otherwise. -/
def read (b : BufReader α size) (k : Nat) : Option (List α) × BufReader α size :=
  if k = 0 then
    if b.window = [] ∧ b.ended = true then (none, b.clearEnd) else (some [], b)
  else if h : b.window = [] ∧ b.ended = false then
    if size ≤ k then b.readDirect k h.2
    else (b.fill (by rw [h.1]; exact b.size_pos)).takeBlock k
  else b.takeBlock k

/-- What a read of a block that is not empty can do. -/
structure BlockRead (b : BufReader α size) (k : Nat) (d : List α) (b' : BufReader α size) :
    Prop where
  ne_nil : d ≠ []
  length_le : d.length ≤ k
  rest : b.rest = d ++ b'.rest

theorem takeBlock_cases (b : BufReader α size) {k : Nat} (hk : 0 < k) :
    (b.window = [] ∧ (b.takeBlock k).1 = none) ∨
      ∃ d b', b.takeBlock k = (some d, b') ∧ BlockRead b k d b' := by
  rw [takeBlock]
  by_cases hw : b.window = []
  · rw [if_pos hw]
    exact .inl ⟨hw, rfl⟩
  · rw [if_neg hw]
    refine .inr ⟨_, _, rfl, ?_, List.length_take_le _ _, ?_⟩
    · rw [Ne, List.take_eq_nil_iff, not_or]
      exact ⟨by omega, hw⟩
    · show b.window ++ b.src.all = b.window.take k ++ (b.window.drop k ++ b.src.all)
      rw [← List.append_assoc, List.take_append_drop]

theorem read_cases (b : BufReader α size) {k : Nat} (hk : 0 < k) :
    (b.rest = [] ∧ (b.read k).1 = none) ∨ ∃ d b', b.read k = (some d, b') ∧ BlockRead b k d b' := by
  rw [read, if_neg (by omega)]
  split
  next h =>
    have hlt : b.window.length < size := by
      rw [h.1]
      exact b.size_pos
    have hrest : b.rest = b.src.all := by rw [BufReader.rest, h.1, List.nil_append]
    split
    next hlarge =>
      cases hread : b.src.read k with
      | mk o src =>
          cases o with
          | none =>
              exact .inl ⟨hrest.trans (Source.read_eq_none hread).1, congrArg Prod.fst hread⟩
          | some d =>
              obtain ⟨hne, hlen, hall⟩ := Source.read_eq_some hk hread
              have hfst : (b.readDirect k h.2).1 = some d := congrArg Prod.fst hread
              refine .inr ⟨d, (b.readDirect k h.2).2, Prod.ext hfst rfl, hne, hlen, ?_⟩
              show b.rest = d ++ (b.window ++ (b.src.read k).2.all)
              rw [hrest, h.1, hread, hall]
              rfl
    next hsmall =>
      obtain ⟨hfill, hbrought⟩ := b.fill_cases hlt
      rcases (b.fill hlt).takeBlock_cases hk with ⟨hw, hnone⟩ | ⟨d, b', heq, hblock⟩
      · refine .inl ⟨?_, hnone⟩
        -- a fill that brings nothing has found the end
        rcases hbrought with ⟨-, hend⟩ | ⟨d, hne, hwin, -⟩
        · rw [← hfill, rest_of_ended hend, hw]
        · rw [hwin] at hw
          exact absurd (List.append_eq_nil_iff.1 hw).2 hne
      · refine .inr ⟨d, b', heq, hblock.ne_nil, hblock.length_le, ?_⟩
        rw [← hfill, hblock.rest]
  next h =>
    rcases b.takeBlock_cases hk with ⟨hw, hnone⟩ | hsome
    · rw [not_and, Bool.not_eq_false] at h
      exact .inl ⟨by rw [rest_of_ended (h hw), hw], hnone⟩
    · exact .inr hsome

theorem blockRead_of_read {b b' : BufReader α size} {k : Nat} (hk : k ≠ 0) {d : List α}
    (h : b.read k = (some d, b')) : BlockRead b k d b' := by
  rcases b.read_cases (Nat.pos_of_ne_zero hk) with ⟨-, hnone⟩ | ⟨d', b'', heq, hblock⟩
  · rw [h] at hnone
    cases hnone
  · obtain ⟨hd, rfl⟩ := Prod.mk.inj (h.symm.trans heq)
    obtain rfl := Option.some.inj hd
    exact hblock

/-- `io.ReadFull` into a block of `k` places, with `none` if the stream ends before. -/
def readFull (b : BufReader α size) (k : Nat) : Option (List α) × BufReader α size :=
  if hk : k = 0 then (some [], b)
  else
    match hread : b.read k with
    | (none, b') => (none, b')
    | (some d, b') =>
        have : k - d.length < k :=
          Nat.sub_lt (Nat.pos_of_ne_zero hk)
            (List.length_pos_of_ne_nil (blockRead_of_read hk hread).ne_nil)
        let out := readFull b' (k - d.length)
        (out.1.map (d ++ ·), out.2)
  termination_by k

/-- `ReadFull` returns what is left of the stream, up to the length of the block, or fails if that
is too little. -/
theorem readFull_spec (b : BufReader α size) (k : Nat) :
    (b.rest.length < k ∧ (b.readFull k).1 = none) ∨
      (k ≤ b.rest.length ∧ (b.readFull k).1 = some (b.rest.take k) ∧
        (b.readFull k).2.rest = b.rest.drop k) := by
  induction k using Nat.strongRecOn generalizing b with
  | ind k ih =>
      rw [readFull]
      by_cases hk : k = 0
      · subst hk
        exact .inr ⟨Nat.zero_le _, rfl, rfl⟩
      rw [dif_neg hk]
      split
      next b' hread =>
        rcases b.read_cases (Nat.pos_of_ne_zero hk) with ⟨hrest, -⟩ | ⟨d, b'', heq, -⟩
        · exact .inl ⟨by rw [hrest, List.length_nil]; omega, rfl⟩
        · cases hread.symm.trans heq
      next d b' hread =>
        have hblock := blockRead_of_read hk hread
        have hpos := List.length_pos_of_ne_nil hblock.ne_nil
        have hle := hblock.length_le
        have hlen : b.rest.length = d.length + b'.rest.length := by
          rw [hblock.rest, List.length_append]
        rcases ih (k - d.length) (by omega) b' with ⟨hlt, hnone⟩ | ⟨hge, hsome, hrest⟩
        · refine .inl ⟨by omega, ?_⟩
          show Option.map _ _ = _
          rw [hnone, Option.map_none]
        · refine .inr ⟨by omega, ?_, ?_⟩
          · show Option.map _ _ = _
            rw [hsome, Option.map_some, hblock.rest, List.take_append, List.take_of_length_le hle]
          · show (b'.readFull _).2.rest = _
            rw [hrest, hblock.rest, List.drop_append, List.drop_of_length_le hle, List.nil_append]

end BufReader

end Hapartition.Lib
