import Mathlib.Data.List.TakeWhile
import Hapartition.Lib.Utf8
import Hapartition.Resp.Value

/-!
# The RESP reader

`Reader` of `pkg/api/reader.go`, as functions from the unread bytes of a connection to a value and
the bytes still unread. The stream ends after the last byte: a read past it is `io.EOF`.

- `readSlice` is `bufio.Reader.ReadSlice('\n')` with the default buffer, `readLine` the loop over
  it.
- `readElements` is the loop of `readArray`, over any element reader.
- `readValue` is `ReadValue`: the switch on the first byte, arrays nested at most 32 deep.
- `FitsLine` and `readLine_eq_ok_iff` say what `readLine` computes: the bytes up to the first line
  feed, without the final CRLF, when they fit in the line limit.
-/

set_option autoImplicit false

namespace Hapartition

open Lib (Bytes str atoi fields)

/-! ## Limits and errors -/

/-- `maxBulkStringLength`, 64 MiB. -/
def maxBulkStringLength : Nat := 64 * 2 ^ 20

/-- `maxArrayLength`. -/
def maxArrayLength : Nat := 2 ^ 20

/-- `maxLineLength`, 64 KiB, line terminator included. -/
def maxLineLength : Nat := 64 * 2 ^ 10

/-- `maxArrayDepth`. -/
def maxArrayDepth : Nat := 32

/-- The size of the buffer that `bufio.NewReader` allocates. -/
def bufferSize : Nat := 4096

/-- The errors of the reader, with the data their texts print. -/
inductive ReadError where
  | eof
  | arrayNesting
  | lineTooLong
  | missingCRLF
  | invalidInteger (s : Bytes)
  | invalidBulkLength (s : Bytes)
  | negativeBulkLength (n : Int64)
  | bulkTooLong (n : Int64)
  | shortBulk
  | missingCR
  | expectedCR (b : UInt8)
  | missingLF
  | expectedLF (b : UInt8)
  | invalidArrayLength (s : Bytes)
  | negativeArrayLength (n : Int64)
  | arrayTooLong (n : Int64)
  /-- `resp: array element %d: %w`. -/
  | element (i : Nat) (err : ReadError)
  deriving DecidableEq, Repr

/-! ## Lines -/

/-- How `ReadSlice` ended. -/
inductive SliceEnd where
  | delim
  | bufferFull
  | eof
  deriving DecidableEq, Repr

/-- `ReadSlice('\n')`: the bytes up to and including the first line feed, or the full buffer if it
holds none, or all that is left. -/
def readSlice (s : Bytes) : Bytes × SliceEnd × Bytes :=
  let head := (s.take bufferSize).takeWhile (· ≠ 10)
  if head.length < (s.take bufferSize).length then
    (head ++ [10], .delim, s.drop (head.length + 1))
  else if bufferSize ≤ s.length then (s.take bufferSize, .bufferFull, s.drop bufferSize)
  else (s, .eof, [])

/-- The end of `readLine`: the line must end in CRLF, which is cut off. -/
def finishLine (line rest : Bytes) : Except ReadError (Bytes × Bytes) :=
  if line.length < 2 ∨ (line)[line.length - 2]? ≠ some 13 then .error .missingCRLF
  else .ok (line.take (line.length - 2), rest)

/-- The loop of `readLine`, with the number of rounds it may still take. Each round that does not
leave the loop adds a full buffer, so the limit stops it within `maxLineLength / bufferSize + 1`. -/
def readLineLoop : Nat → Bytes → Bytes → Except ReadError (Bytes × Bytes)
  | 0, _, _ => .error .lineTooLong
  | n + 1, line, s =>
      match readSlice s with
      | (part, stop, rest) =>
          -- the limit is checked before the way the slice ended
          if maxLineLength < line.length + part.length then .error .lineTooLong
          else
            match stop with
            | .delim => finishLine (line ++ part) rest
            | .bufferFull => readLineLoop n (line ++ part) rest
            | .eof => .error .eof

/-- `readLine`. -/
def readLine (s : Bytes) : Except ReadError (Bytes × Bytes) :=
  readLineLoop (maxLineLength / bufferSize + 1) [] s

/-! ## What a line is -/

/-- The three ways a slice ends, each with what was read and what is left. -/
theorem readSlice_cases (s : Bytes) :
    (∃ l rest, s = l ++ 10 :: rest ∧ 10 ∉ l ∧ readSlice s = (l ++ [10], .delim, rest)) ∨
      (bufferSize ≤ s.length ∧ 10 ∉ s.take bufferSize ∧
        readSlice s = (s.take bufferSize, .bufferFull, s.drop bufferSize)) ∨
      (10 ∉ s ∧ readSlice s = (s, .eof, [])) := by
  have hhead : ∀ b ∈ (s.take bufferSize).takeWhile (· ≠ 10), b ≠ 10 := fun b hb => by
    simpa using List.mem_takeWhile_imp hb
  by_cases hlen : ((s.take bufferSize).takeWhile (· ≠ 10)).length < (s.take bufferSize).length
  · -- the buffer holds a line feed: the head stops right before it
    left
    obtain ⟨tail, hcut⟩ := Lib.eq_takeWhile_append_of_length_lt hlen
    have hs : s = (s.take bufferSize).takeWhile (· ≠ 10) ++ 10 :: (tail ++ s.drop bufferSize) := by
      conv_lhs => rw [← List.take_append_drop bufferSize s, hcut]
      simp
    refine ⟨_, _, hs, fun hmem => hhead 10 hmem rfl, ?_⟩
    have hrest : s.drop (((s.take bufferSize).takeWhile (· ≠ 10)).length + 1)
        = tail ++ s.drop bufferSize := by
      generalize (s.take bufferSize).takeWhile (· ≠ 10) = l at hs
      generalize tail ++ s.drop bufferSize = rest at hs
      rw [hs]
      simp
    rw [readSlice, if_pos hlen, hrest]
  · right
    have hall : (s.take bufferSize).takeWhile (· ≠ 10) = s.take bufferSize :=
      (List.takeWhile_prefix _).eq_of_length_le (by omega)
    rw [hall] at hhead
    by_cases hfull : bufferSize ≤ s.length
    · exact .inl ⟨hfull, fun hmem => hhead 10 hmem rfl, by
        rw [readSlice, if_neg hlen, if_pos hfull]⟩
    · rw [List.take_of_length_le (by omega)] at hhead
      exact .inr ⟨fun hmem => hhead 10 hmem rfl, by rw [readSlice, if_neg hlen, if_neg hfull]⟩

/-- The end of `readLine` accepts a line that ends in CR before its line feed, and cuts off both. -/
theorem finishLine_eq_ok_iff {l rest out rest' : Bytes} :
    finishLine (l ++ [10]) rest = .ok (out, rest') ↔ l = out ++ [13] ∧ rest' = rest := by
  unfold finishLine
  constructor
  · intro h
    split at h
    · cases h
    next hcr =>
      obtain ⟨hout, rfl⟩ := Prod.mk.inj (Except.ok.inj h)
      simp only [List.length_append, List.length_singleton, not_or, not_lt, ne_eq, not_not,
        show l.length + 1 - 2 = l.length - 1 by omega] at hcr hout
      obtain ⟨hlong, hcr⟩ := hcr
      refine ⟨?_, rfl⟩
      -- the byte before the line feed is the last of `l`
      rw [List.getElem?_append_left (by omega), List.getElem?_eq_getElem (by omega)] at hcr
      rw [← hout, List.take_append_of_le_length (by omega)]
      conv_lhs => rw [← List.take_append_drop (l.length - 1) l]
      rw [List.drop_eq_getElem_cons (by omega), List.drop_of_length_le (by omega),
        Option.some.inj hcr]
  · rintro ⟨rfl, rfl⟩
    rw [if_neg (by simp)]
    simp

/-- The loop on a stream whose first line feed stands after `l`. -/
theorem readLineLoop_line {l : Bytes} (rest : Bytes) (hl : 10 ∉ l) {n : Nat} {line : Bytes}
    (hmax : line.length + l.length + 1 ≤ maxLineLength) (hn : l.length < n * bufferSize) :
    readLineLoop n line (l ++ 10 :: rest) = finishLine (line ++ (l ++ [10])) rest := by
  induction n generalizing l line with
  | zero => simp at hn
  | succ n ih =>
      rw [readLineLoop]
      rcases readSlice_cases (l ++ 10 :: rest) with
        ⟨l', rest', hs, hl', hslice⟩ | ⟨hfull, hno, hslice⟩ | ⟨hno, -⟩
      · -- the slice ends at the first line feed, which is the one after `l`
        obtain ⟨rfl, rfl⟩ := Lib.append_cons_inj_of_notMem hl hl' hs
        simp only [hslice, List.length_append, List.length_singleton]
        rw [if_neg (by omega)]
      · -- a full buffer without a line feed is a part of `l`
        have hle : bufferSize ≤ l.length := by
          by_contra hlt
          refine hno (List.mem_take_iff_getElem.2 ⟨l.length, ?_, ?_⟩)
          · simp only [List.length_append, List.length_cons]
            omega
          · simp
        simp only [hslice]
        rw [List.take_append_of_le_length hle, List.drop_append_of_le_length hle, if_neg (by
          simp only [List.length_take]
          omega)]
        rw [ih (fun h => hl (List.mem_of_mem_drop h)) (by
            simp only [List.length_append, List.length_take, List.length_drop]
            omega) (by
            simp only [List.length_drop]
            rw [Nat.add_mul] at hn
            omega)]
        rw [List.append_assoc, ← List.append_assoc (l.take bufferSize), List.take_append_drop]
      · exact absurd (List.mem_append_right l List.mem_cons_self) hno

/-- What the loop has read when it succeeds. -/
theorem readLineLoop_eq_ok {n : Nat} {line s out rest : Bytes}
    (h : readLineLoop n line s = .ok (out, rest)) :
    ∃ l, s = l ++ 10 :: rest ∧ 10 ∉ l ∧ line.length + l.length + 1 ≤ maxLineLength ∧
      finishLine (line ++ (l ++ [10])) rest = .ok (out, rest) := by
  induction n generalizing line s with
  | zero => simp [readLineLoop] at h
  | succ n ih =>
      rw [readLineLoop] at h
      rcases readSlice_cases s with
        ⟨l, rest', hs, hl, hslice⟩ | ⟨hfull, hno, hslice⟩ | ⟨-, hslice⟩
      · simp only [hslice] at h
        split at h
        · simp at h
        next hmax =>
          obtain rfl : rest = rest' := by
            rw [← List.append_assoc] at h
            exact (finishLine_eq_ok_iff.1 h).2
          simp only [List.length_append, List.length_singleton] at hmax
          exact ⟨l, hs, hl, by omega, h⟩
      · simp only [hslice] at h
        split at h
        · simp at h
        next hmax =>
          obtain ⟨l, hs, hl, hlen, hfin⟩ := ih h
          refine ⟨s.take bufferSize ++ l, ?_, ?_, ?_, ?_⟩
          · rw [List.append_assoc, ← hs, List.take_append_drop]
          · simp [hno, hl]
          · simp only [List.length_append] at hlen ⊢
            omega
          · simpa using hfin
      · simp only [hslice] at h
        split at h <;> simp at h

/-- `readLine` returns a line exactly when the stream starts with it and CRLF, it holds no line
feed and it fits in the limit. -/
theorem readLine_eq_ok_iff {s line rest : Bytes} :
    readLine s = .ok (line, rest) ↔
      s = line ++ crlf ++ rest ∧ 10 ∉ line ∧ line.length + 2 ≤ maxLineLength := by
  constructor
  · intro h
    obtain ⟨l, hs, hl, hlen, hfin⟩ := readLineLoop_eq_ok h
    obtain ⟨rfl, -⟩ := finishLine_eq_ok_iff.1 hfin
    refine ⟨by simpa [crlf] using hs, fun hmem => hl (by simp [hmem]), ?_⟩
    simp only [List.length_nil, List.length_append, List.length_singleton] at hlen
    omega
  · rintro ⟨rfl, hno, hlen⟩
    have h13 : (10 : UInt8) ∉ line ++ [13] := by
      simp only [List.mem_append, List.mem_singleton, not_or]
      exact ⟨hno, by decide⟩
    have hloop : readLineLoop (maxLineLength / bufferSize + 1) [] (line ++ [13] ++ 10 :: rest)
        = finishLine ([] ++ (line ++ [13] ++ [10])) rest := by
      refine readLineLoop_line rest h13 ?_ ?_
      · simp only [List.length_append, List.length_singleton, List.length_nil]
        omega
      · simp only [List.length_append, List.length_singleton, maxLineLength, bufferSize] at hlen ⊢
        omega
    rw [readLine, show line ++ crlf ++ rest = line ++ [13] ++ 10 :: rest by simp [crlf], hloop]
    exact finishLine_eq_ok_iff.2 ⟨rfl, rfl⟩

/-- What fits in a line of the protocol. -/
def FitsLine (s : Bytes) : Prop :=
  10 ∉ s ∧ s.length ≤ 65534

instance (s : Bytes) : Decidable (FitsLine s) :=
  inferInstanceAs (Decidable (_ ∧ _))

theorem readLine_eq_ok_iff_fitsLine {s line rest : Bytes} :
    readLine s = .ok (line, rest) ↔ s = line ++ crlf ++ rest ∧ FitsLine line := by
  have hmax : line.length + 2 ≤ maxLineLength ↔ line.length ≤ 65534 := by
    rw [show maxLineLength = 65536 from rfl]
    omega
  rw [readLine_eq_ok_iff, hmax, FitsLine]

/-! ## Values -/

/-- A line, then what is done with it; an error of `readLine` is passed on. -/
def withLine {β : Type} (s : Bytes) (f : Bytes → Bytes → Except ReadError (β × Bytes)) :
    Except ReadError (β × Bytes) :=
  match readLine s with
  | .error err => .error err
  | .ok (line, rest) => f line rest

/-- `readSimpleString`. -/
def readSimpleString (s : Bytes) : Except ReadError (Value × Bytes) :=
  withLine s fun line rest => .ok (.simpleString line, rest)

/-- `readError`. -/
def readError (s : Bytes) : Except ReadError (Value × Bytes) :=
  withLine s fun line rest => .ok (.error line, rest)

/-- `readInteger`. -/
def readInteger (s : Bytes) : Except ReadError (Value × Bytes) :=
  withLine s fun line rest =>
    match atoi line with
    | none => .error (.invalidInteger line)
    | some n => .ok (.integer n, rest)

/-- The trailing CRLF of a bulk string, read byte by byte. -/
def readTrailer (data : Bytes) : Bytes → Except ReadError (Value × Bytes)
  | [] => .error .missingCR
  | [cr] => if cr ≠ 13 then .error (.expectedCR cr) else .error .missingLF
  | cr :: lf :: rest =>
      if cr ≠ 13 then .error (.expectedCR cr)
      else if lf ≠ 10 then .error (.expectedLF lf)
      else .ok (.bulkString (some data), rest)

/-- `readBulkString`. -/
def readBulkString (s : Bytes) : Except ReadError (Value × Bytes) :=
  withLine s fun line rest =>
    if line = str "-1" then .ok (nullBulkString, rest)
    else
      match atoi line with
      | none => .error (.invalidBulkLength line)
      | some n =>
          if n < 0 then .error (.negativeBulkLength n)
          else if (maxBulkStringLength : Int) < n.toInt then .error (.bulkTooLong n)
          else if rest.length < n.toInt.toNat then .error .shortBulk
          else readTrailer (rest.take n.toInt.toNat) (rest.drop n.toInt.toNat)

/-- The loop of `readArray`: `n` elements from index `i` on. -/
def readElements (read : Bytes → Except ReadError (Value × Bytes)) (i : Nat) :
    Nat → Bytes → Except ReadError (List Value × Bytes)
  | 0, s => .ok ([], s)
  | n + 1, s =>
      match read s with
      | .error err => .error (.element i err)
      | .ok (v, rest) =>
          match readElements read (i + 1) n rest with
          | .error err => .error err
          | .ok (vs, rest') => .ok (v :: vs, rest')

/-- `readArray`, given the reader of its elements; the null array is the nil value. -/
def readArray (read : Bytes → Except ReadError (Value × Bytes)) (s : Bytes) :
    Except ReadError (Value × Bytes) :=
  withLine s fun line rest =>
    if line = str "-1" then .ok (.nil, rest)
    else
      match atoi line with
      | none => .error (.invalidArrayLength line)
      | some n =>
          if n < 0 then .error (.negativeArrayLength n)
          else if (maxArrayLength : Int) < n.toInt then .error (.arrayTooLong n)
          else
            match readElements read 0 n.toInt.toNat rest with
            | .error err => .error err
            | .ok (vs, rest') => .ok (.array vs, rest')

/-- `readInline`: the fields of a line as bulk strings. -/
def readInline (s : Bytes) : Except ReadError (Value × Bytes) :=
  withLine s fun line rest => .ok (.array ((fields line).map newBulkString), rest)

/-- The switch of `readValue`, given what it does on an array. -/
def readSwitch (onArray : Bytes → Except ReadError (Value × Bytes)) :
    Bytes → Except ReadError (Value × Bytes)
  | [] => .error .eof
  | b :: rest =>
      if b = 43 then readSimpleString rest
      else if b = 45 then readError rest
      else if b = 58 then readInteger rest
      else if b = 36 then readBulkString rest
      else if b = 42 then onArray rest
      else readInline (b :: rest)

/-- `readValue` at depth `maxArrayDepth - room`. -/
def readValueWithin : Nat → Bytes → Except ReadError (Value × Bytes)
  | 0 => readSwitch fun _ => .error .arrayNesting
  | room + 1 => readSwitch (readArray (readValueWithin room))

/-- `ReadValue`. -/
def readValue (s : Bytes) : Except ReadError (Value × Bytes) :=
  readValueWithin maxArrayDepth s

/-- `n` calls of `ReadValue` in a row. -/
def readValues : Nat → Bytes → Except ReadError (List Value × Bytes)
  | 0, s => .ok ([], s)
  | n + 1, s =>
      match readValue s with
      | .error err => .error err
      | .ok (v, rest) =>
          match readValues n rest with
          | .error err => .error err
          | .ok (vs, rest') => .ok (v :: vs, rest')

theorem readElements_succ {read : Bytes → Except ReadError (Value × Bytes)} {i n : Nat}
    {s rest rest' : Bytes} {v : Value} {vs : List Value} (hv : read s = .ok (v, rest))
    (hvs : readElements read (i + 1) n rest = .ok (vs, rest')) :
    readElements read i (n + 1) s = .ok (v :: vs, rest') := by
  rw [readElements, hv]
  simp only [hvs]

/-- Elements that are read have been read one after the other. -/
theorem readElements_succ_eq_ok {read : Bytes → Except ReadError (Value × Bytes)} {i n : Nat}
    {s : Bytes} {r : List Value × Bytes} (h : readElements read i (n + 1) s = .ok r) :
    ∃ v rest vs rest', read s = .ok (v, rest) ∧
      readElements read (i + 1) n rest = .ok (vs, rest') ∧ r = (v :: vs, rest') := by
  rw [readElements] at h
  split at h
  · cases h
  next v rest hv =>
    split at h
    · cases h
    next vs rest' hvs => exact ⟨v, rest, vs, rest', hv, hvs, (Except.ok.inj h).symm⟩

theorem withLine_of_readLine {β : Type} {s line rest : Bytes}
    (f : Bytes → Bytes → Except ReadError (β × Bytes)) (h : readLine s = .ok (line, rest)) :
    withLine s f = f line rest := by
  rw [withLine, h]

theorem withLine_eq_ok {β : Type} {s : Bytes} {f : Bytes → Bytes → Except ReadError (β × Bytes)}
    {r : β × Bytes} (h : withLine s f = .ok r) :
    ∃ line rest, readLine s = .ok (line, rest) ∧ f line rest = .ok r := by
  rw [withLine] at h
  cases hline : readLine s with
  | error err => simp [hline] at h
  | ok p => exact ⟨p.1, p.2, rfl, by simpa [hline] using h⟩

end Hapartition
