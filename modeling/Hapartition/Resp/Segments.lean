import Hapartition.Lib.Buffered
import Hapartition.Resp.Reader

/-!
# The reader does not see segments

`Reader` of `pkg/api/reader.go` once more, this time over the buffered reader that it holds: every
function asks `ReadByte`, `UnreadByte`, `ReadSlice` and `io.ReadFull` for what it needs, and the
connection delivers the bytes in segments of any length.

Whatever the segments are, it returns what the functions on the whole stream return, and leaves what
they leave (`readValues_segments`).
-/

set_option autoImplicit false

namespace Hapartition

open Lib (Bytes str atoi fields Source BufReader)

/-- `Reader`. -/
abbrev Reader : Type := BufReader UInt8 bufferSize

namespace Reader

/-- `NewReader`, on a connection. -/
def ofSource (src : Source UInt8) : Reader := BufReader.new (by decide) src

/-! ## The functions of the reader -/

/-- The loop of `readLine`, with the number of rounds it may still take. -/
def readLineLoop : Nat → Bytes → Reader → Except ReadError (Bytes × Reader)
  | 0, _, _ => .error .lineTooLong
  | n + 1, line, rd =>
      match rd.readSlice 10 with
      | (part, stop, rd) =>
          if maxLineLength < line.length + part.length then .error .lineTooLong
          else
            match stop with
            | .delim => (finishLine (line ++ part) []).map fun p => (p.1, rd)
            | .full => readLineLoop n (line ++ part) rd
            | .ended => .error .eof

/-- `readLine`. -/
def readLine (rd : Reader) : Except ReadError (Bytes × Reader) :=
  readLineLoop (maxLineLength / bufferSize + 1) [] rd

/-- A line, then what is done with it. -/
def withLine {β : Type} (rd : Reader) (f : Bytes → Reader → Except ReadError (β × Reader)) :
    Except ReadError (β × Reader) :=
  match rd.readLine with
  | .error err => .error err
  | .ok (line, rd) => f line rd

/-- `readSimpleString`. -/
def readSimpleString (rd : Reader) : Except ReadError (Value × Reader) :=
  rd.withLine fun line rd => .ok (.simpleString line, rd)

/-- `readError`. -/
def readError (rd : Reader) : Except ReadError (Value × Reader) :=
  rd.withLine fun line rd => .ok (.error line, rd)

/-- `readInteger`. -/
def readInteger (rd : Reader) : Except ReadError (Value × Reader) :=
  rd.withLine fun line rd =>
    match atoi line with
    | none => .error (.invalidInteger line)
    | some n => .ok (.integer n, rd)

/-- One byte, read into a slice of length one. -/
def readOne (rd : Reader) : Option UInt8 × Reader :=
  match rd.readFull 1 with
  | (none, rd) => (none, rd)
  | (some buf, rd) => (buf.head?, rd)

/-- The trailing CRLF of a bulk string. -/
def readTrailer (data : Bytes) (rd : Reader) : Except ReadError (Value × Reader) :=
  match readOne rd with
  | (none, _) => .error .missingCR
  | (some cr, rd) =>
      if cr ≠ 13 then .error (.expectedCR cr)
      else
        match readOne rd with
        | (none, _) => .error .missingLF
        | (some lf, rd) =>
            if lf ≠ 10 then .error (.expectedLF lf)
            else .ok (.bulkString (some data), rd)

/-- `readBulkString`. -/
def readBulkString (rd : Reader) : Except ReadError (Value × Reader) :=
  rd.withLine fun line rd =>
    if line = str "-1" then .ok (nullBulkString, rd)
    else
      match atoi line with
      | none => .error (.invalidBulkLength line)
      | some n =>
          if n < 0 then .error (.negativeBulkLength n)
          else if (maxBulkStringLength : Int) < n.toInt then .error (.bulkTooLong n)
          else
            match rd.readFull n.toInt.toNat with
            | (none, _) => .error .shortBulk
            | (some buf, rd) => readTrailer buf rd

/-- The loop of `readArray`: `n` elements from index `i` on. -/
def readElements (read : Reader → Except ReadError (Value × Reader)) (i : Nat) :
    Nat → Reader → Except ReadError (List Value × Reader)
  | 0, rd => .ok ([], rd)
  | n + 1, rd =>
      match read rd with
      | .error err => .error (.element i err)
      | .ok (v, rd) =>
          match readElements read (i + 1) n rd with
          | .error err => .error err
          | .ok (vs, rd) => .ok (v :: vs, rd)

/-- `readArray`, given the reader of its elements. -/
def readArray (read : Reader → Except ReadError (Value × Reader)) (rd : Reader) :
    Except ReadError (Value × Reader) :=
  rd.withLine fun line rd =>
    if line = str "-1" then .ok (.nil, rd)
    else
      match atoi line with
      | none => .error (.invalidArrayLength line)
      | some n =>
          if n < 0 then .error (.negativeArrayLength n)
          else if (maxArrayLength : Int) < n.toInt then .error (.arrayTooLong n)
          else
            match readElements read 0 n.toInt.toNat rd with
            | .error err => .error err
            | .ok (vs, rd) => .ok (.array vs, rd)

/-- `readInline`. -/
def readInline (rd : Reader) : Except ReadError (Value × Reader) :=
  rd.withLine fun line rd => .ok (.array ((fields line).map newBulkString), rd)

/-- The switch of `readValue`, given what it does on an array. -/
def readSwitch (onArray : Reader → Except ReadError (Value × Reader)) (rd : Reader) :
    Except ReadError (Value × Reader) :=
  match rd.readByte with
  | (none, _) => .error .eof
  | (some b, rd) =>
      if b = 43 then readSimpleString rd
      else if b = 45 then readError rd
      else if b = 58 then readInteger rd
      else if b = 36 then readBulkString rd
      else if b = 42 then onArray rd
      else readInline rd.unreadByte

/-- `readValue` at depth `maxArrayDepth - room`. -/
def readValueWithin : Nat → Reader → Except ReadError (Value × Reader)
  | 0 => readSwitch fun _ => .error .arrayNesting
  | room + 1 => readSwitch (readArray (readValueWithin room))

/-- `ReadValue`. -/
def readValue (rd : Reader) : Except ReadError (Value × Reader) :=
  readValueWithin maxArrayDepth rd

/-- `n` calls of `ReadValue` in a row. -/
def readValues : Nat → Reader → Except ReadError (List Value × Reader)
  | 0, rd => .ok ([], rd)
  | n + 1, rd =>
      match rd.readValue with
      | .error err => .error err
      | .ok (v, rd) =>
          match readValues n rd with
          | .error err => .error err
          | .ok (vs, rd) => .ok (v :: vs, rd)

/-! ## Agreement with the stream -/

/-- The same value with the same bytes left, or the same error. -/
inductive Agrees {β : Type} :
    Except ReadError (β × Reader) → Except ReadError (β × Bytes) → Prop where
  | ok (v : β) (rd : Reader) : Agrees (.ok (v, rd)) (.ok (v, rd.rest))
  | error (err : ReadError) : Agrees (.error err) (.error err)

theorem Agrees.map_eq {β : Type} {x : Except ReadError (β × Reader)}
    {y : Except ReadError (β × Bytes)} (h : Agrees x y) :
    x.map (fun p => (p.1, p.2.rest)) = y := by
  cases h with
  | ok v rd => rfl
  | error err => rfl

/-- How a slice ended, on the stream. -/
def sliceEnd : Lib.SliceStop → SliceEnd
  | .delim => .delim
  | .full => .bufferFull
  | .ended => .eof

theorem readSlice_of_sliced {s part rest : Bytes} {stop : Lib.SliceStop}
    (h : BufReader.Sliced 10 bufferSize s part stop rest) :
    readSlice s = (part, sliceEnd stop, rest) := by
  have hall : ∀ {l : Bytes}, (10 : UInt8) ∉ l → l.takeWhile (· ≠ 10) = l := by
    intro l hl
    rw [List.takeWhile_eq_self_iff]
    intro b hb
    exact decide_eq_true (ne_of_mem_of_not_mem hb hl)
  cases h with
  | delim l _ hs hl hlen =>
      -- the buffer holds the line feed
      have htake : s.take bufferSize = l ++ 10 :: rest.take (bufferSize - l.length - 1) := by
        rw [hs, List.take_append, List.take_of_length_le (by omega),
          show bufferSize - l.length = bufferSize - l.length - 1 + 1 by omega, List.take_succ_cons,
          Nat.add_sub_cancel]
      have hhead : (s.take bufferSize).takeWhile (· ≠ 10) = l := by
        rw [htake, List.takeWhile_append_of_pos, List.takeWhile_cons_of_neg (by simp),
          List.append_nil]
        intro b hb
        exact decide_eq_true (ne_of_mem_of_not_mem hb hl)
      have hlt : l.length < (s.take bufferSize).length := by
        rw [htake, List.length_append, List.length_cons]
        omega
      simp only [readSlice, hhead, if_pos hlt]
      rw [hs]
      simp [sliceEnd]
  | full hlen hno =>
      simp only [readSlice, hall hno, if_neg (Nat.lt_irrefl _), if_pos hlen, sliceEnd]
  | ended hlen hno =>
      rw [readSlice, List.take_of_length_le (by omega)]
      simp only [hall hno, if_neg (Nat.lt_irrefl _), if_neg (Nat.not_le.2 hlen), sliceEnd]

theorem finishLine_eq_map (line rest : Bytes) :
    finishLine line rest = (finishLine line []).map fun p => (p.1, rest) := by
  unfold finishLine
  split <;> rfl

/-- The loop of `readLine`, by induction on its rounds. -/
theorem agrees_readLineLoop (n : Nat) (line : Bytes) (rd : Reader) :
    Agrees (readLineLoop n line rd) (Hapartition.readLineLoop n line rd.rest) := by
  induction n generalizing line rd with
  | zero => exact .error _
  | succ n ih =>
      have hslice := readSlice_of_sliced (BufReader.sliced_readSlice 10 rd)
      rw [readLineLoop, Hapartition.readLineLoop, hslice]
      obtain ⟨part, stop, rd'⟩ := rd.readSlice 10
      dsimp only
      by_cases hmax : maxLineLength < line.length + part.length
      · rw [if_pos hmax, if_pos hmax]
        exact .error _
      rw [if_neg hmax, if_neg hmax]
      cases stop with
      | delim =>
          simp only [sliceEnd]
          rw [finishLine_eq_map _ rd'.rest]
          cases finishLine (line ++ part) [] with
          | error err => exact .error err
          | ok p => exact .ok p.1 rd'
      | full => exact ih (line ++ part) rd'
      | ended => exact .error _

theorem agrees_withLine {β : Type} (rd : Reader)
    {f : Bytes → Reader → Except ReadError (β × Reader)}
    {g : Bytes → Bytes → Except ReadError (β × Bytes)}
    (h : ∀ line rd', Agrees (f line rd') (g line rd'.rest)) :
    Agrees (withLine rd f) (Hapartition.withLine rd.rest g) := by
  have hline : Agrees (readLine rd) (Hapartition.readLine rd.rest) := agrees_readLineLoop _ [] rd
  rw [withLine, Hapartition.withLine]
  generalize readLine rd = x at hline
  generalize Hapartition.readLine rd.rest = y at hline
  cases hline with
  | ok line rd' => exact h line rd'
  | error err => exact .error err

theorem agrees_readInteger (rd : Reader) :
    Agrees (readInteger rd) (Hapartition.readInteger rd.rest) := by
  apply agrees_withLine
  intro line rd
  cases atoi line with
  | none => exact .error _
  | some n => exact .ok _ rd

theorem readOne_cases (rd : Reader) :
    (rd.rest = [] ∧ ∃ rd', readOne rd = (none, rd')) ∨
      ∃ b rd', rd.rest = b :: rd'.rest ∧ readOne rd = (some b, rd') := by
  rw [readOne]
  rcases rd.readFull_spec 1 with ⟨hlt, hnone⟩ | ⟨hle, hsome, hrest⟩
  · left
    split
    next rd' _ => exact ⟨List.length_eq_zero_iff.1 (by omega), rd', rfl⟩
    next hread => rw [hread] at hnone; cases hnone
  · right
    obtain ⟨b, s, hs⟩ := List.exists_cons_of_length_pos hle
    split
    next hread => rw [hread] at hsome; cases hsome
    next buf rd' hread =>
      rw [hread] at hsome hrest
      rw [hs] at hsome hrest
      obtain rfl := Option.some.inj hsome
      exact ⟨b, rd', by rw [hs, hrest]; rfl, rfl⟩

theorem agrees_readTrailer (data : Bytes) (rd : Reader) :
    Agrees (readTrailer data rd) (Hapartition.readTrailer data rd.rest) := by
  rw [readTrailer]
  rcases readOne_cases rd with ⟨hrest, rd₁, hread⟩ | ⟨cr, rd₁, hrest, hread⟩
  · rw [hread, hrest]
    exact .error _
  rw [hread, hrest]
  dsimp only
  rcases readOne_cases rd₁ with ⟨hrest₁, rd₂, hread₁⟩ | ⟨lf, rd₂, hrest₁, hread₁⟩
  · rw [hread₁, hrest₁, Hapartition.readTrailer]
    split <;> exact .error _
  · rw [hread₁, hrest₁, Hapartition.readTrailer]
    split
    · exact .error _
    dsimp only
    split
    · exact .error _
    · exact .ok _ rd₂

theorem agrees_readBulkString (rd : Reader) :
    Agrees (readBulkString rd) (Hapartition.readBulkString rd.rest) := by
  apply agrees_withLine
  intro line rd
  by_cases hnull : line = str "-1"
  · rw [if_pos hnull, if_pos hnull]
    exact .ok _ rd
  rw [if_neg hnull, if_neg hnull]
  cases atoi line with
  | none => exact .error _
  | some n =>
      dsimp only
      split
      · exact .error _
      split
      · exact .error _
      rcases rd.readFull_spec n.toInt.toNat with ⟨hlt, hnone⟩ | ⟨hle, hsome, hrest⟩
      · rw [if_pos hlt]
        split
        next => exact .error _
        next hread => rw [hread] at hnone; cases hnone
      · rw [if_neg (Nat.not_lt.2 hle)]
        split
        next hread => rw [hread] at hsome; cases hsome
        next buf rd' hread =>
          rw [hread] at hsome hrest
          obtain rfl := Option.some.inj hsome
          rw [← hrest]
          exact agrees_readTrailer _ rd'

section Elements

variable {read : Reader → Except ReadError (Value × Reader)}
  {read' : Bytes → Except ReadError (Value × Bytes)} (h : ∀ rd, Agrees (read rd) (read' rd.rest))

include h

theorem agrees_readElements (i n : Nat) (rd : Reader) :
    Agrees (readElements read i n rd) (Hapartition.readElements read' i n rd.rest) := by
  induction n generalizing i rd with
  | zero => exact .ok _ rd
  | succ n ih =>
      have hfirst := h rd
      rw [readElements, Hapartition.readElements]
      generalize read rd = x at hfirst
      generalize read' rd.rest = y at hfirst
      cases hfirst with
      | error err => exact .error _
      | ok v rd' =>
          have hothers := ih (i + 1) rd'
          dsimp only
          generalize readElements read (i + 1) n rd' = x at hothers
          generalize Hapartition.readElements read' (i + 1) n rd'.rest = y at hothers
          cases hothers with
          | error err => exact .error _
          | ok vs rd'' => exact .ok _ rd''

theorem agrees_readArray (rd : Reader) :
    Agrees (readArray read rd) (Hapartition.readArray read' rd.rest) := by
  apply agrees_withLine
  intro line rd
  by_cases hnull : line = str "-1"
  · rw [if_pos hnull, if_pos hnull]
    exact .ok _ rd
  rw [if_neg hnull, if_neg hnull]
  cases atoi line with
  | none => exact .error _
  | some n =>
      dsimp only
      split
      · exact .error _
      split
      · exact .error _
      have helems := agrees_readElements h 0 n.toInt.toNat rd
      generalize readElements read 0 n.toInt.toNat rd = x at helems
      generalize Hapartition.readElements read' 0 n.toInt.toNat rd.rest = y at helems
      cases helems with
      | error err => exact .error _
      | ok vs rd' => exact .ok _ rd'

/-- The switch: the byte that it has looked at is put back for an inline command. -/
theorem agrees_readSwitch (rd : Reader) :
    Agrees (readSwitch read rd) (Hapartition.readSwitch read' rd.rest) := by
  rw [readSwitch]
  cases hrest : rd.rest with
  | nil =>
      have hnone := BufReader.readByte_of_rest_nil hrest
      rw [Hapartition.readSwitch]
      split
      next => exact .error _
      next hread => rw [hread] at hnone; cases hnone
  | cons b s =>
      obtain ⟨hsome, hafter, hunread⟩ := BufReader.readByte_of_rest_cons hrest
      rw [Hapartition.readSwitch]
      split
      next hread => rw [hread] at hsome; cases hsome
      next b' rd' hread =>
        rw [hread] at hsome hafter hunread
        obtain rfl := Option.some.inj hsome
        rw [← hunread, ← hafter]
        split
        · exact agrees_withLine rd' fun line rd => .ok _ rd
        split
        · exact agrees_withLine rd' fun line rd => .ok _ rd
        split
        · exact agrees_readInteger rd'
        split
        · exact agrees_readBulkString rd'
        split
        · exact h rd'
        · exact agrees_withLine rd'.unreadByte fun line rd => .ok _ rd

end Elements

/-- `readValue`, by induction on the nesting that is still allowed. -/
theorem agrees_readValueWithin (room : Nat) (rd : Reader) :
    Agrees (readValueWithin room rd) (Hapartition.readValueWithin room rd.rest) := by
  induction room generalizing rd with
  | zero => exact agrees_readSwitch (fun _ => .error _) rd
  | succ room ih => exact agrees_readSwitch (agrees_readArray ih) rd

theorem agrees_readValue (rd : Reader) : Agrees (readValue rd) (Hapartition.readValue rd.rest) :=
  agrees_readValueWithin maxArrayDepth rd

theorem agrees_readValues (n : Nat) (rd : Reader) :
    Agrees (readValues n rd) (Hapartition.readValues n rd.rest) := by
  induction n generalizing rd with
  | zero => exact .ok _ rd
  | succ n ih =>
      have hfirst := agrees_readValue rd
      rw [readValues, Hapartition.readValues]
      generalize readValue rd = x at hfirst
      generalize Hapartition.readValue rd.rest = y at hfirst
      cases hfirst with
      | error err => exact .error _
      | ok v rd' =>
          have hothers := ih rd'
          dsimp only
          generalize readValues n rd' = x at hothers
          generalize Hapartition.readValues n rd'.rest = y at hothers
          cases hothers with
          | error err => exact .error _
          | ok vs rd'' => exact .ok _ rd''

/-- **The reader does not see segments.** Any number of calls of `ReadValue`, over a connection that
delivers its bytes in segments of any length, return the values that they return on the whole stream
and leave the same bytes unread, or fail with the same error. -/
theorem readValues_segments (src : Source UInt8) (n : Nat) :
    (readValues n (ofSource src)).map (fun p => (p.1, p.2.rest)) =
      Hapartition.readValues n src.all :=
  (agrees_readValues n (ofSource src)).map_eq

end Reader

end Hapartition
