import Hapartition.Resp.Reader

/-!
# What the reader accepts

A `Form` is the syntax tree of a value on the wire: its header lines as they stand there, the null
forms and inline commands included. It has bytes (`Form.bytes`), a meaning (`Form.value`) and is
valid with `room` levels of arrays allowed (`Form.Valid`), in the terms of the protocol and not of
the reader. The reader is faithful to it (`readValueWithin_eq_ok_iff`): it returns a value exactly
on the streams that start with the bytes of a valid form, the value is the meaning of the form, and
what follows is left unread. The induction is on the levels allowed, as in the reader; the elements
of an array are the induction `readElements_eq_ok_iff`.
-/

set_option autoImplicit false

namespace Hapartition

open Lib (Bytes str atoi fields)

/-! ## Forms -/

/-- A value as it stands on the wire. -/
inductive Form where
  | simpleString (line : Bytes)
  | error (line : Bytes)
  /-- A number and the line that it is read from. -/
  | integer (line : Bytes) (n : Int64)
  | nullBulkString
  | bulkString (line data : Bytes)
  | nullArray
  | array (line : Bytes) (elems : List Form)
  | inline (line : Bytes)

/-- The bytes that start a form other than an inline command. -/
def marks : Bytes := str "+-:$*"

/-- The line is a numeral for the length `n`. -/
def Announces (line : Bytes) (n : Nat) : Prop := ∃ m, atoi line = some m ∧ m.toInt = n

namespace Form

mutual

/-- The bytes of a form. -/
def bytes : Form → Bytes
  | .simpleString line => str "+" ++ (line ++ crlf)
  | .error line => str "-" ++ (line ++ crlf)
  | .integer line _ => str ":" ++ (line ++ crlf)
  | .nullBulkString => str "$" ++ (str "-1" ++ crlf)
  | .bulkString line data => str "$" ++ (line ++ crlf ++ (data ++ crlf))
  | .nullArray => str "*" ++ (str "-1" ++ crlf)
  | .array line elems => str "*" ++ (line ++ crlf ++ bytesAll elems)
  | .inline line => line ++ crlf

/-- The bytes of several forms, one after the other. -/
def bytesAll : List Form → Bytes
  | [] => []
  | f :: fs => f.bytes ++ bytesAll fs

end

mutual

/-- The value that a form stands for. -/
def value : Form → Value
  | .simpleString line => .simpleString line
  | .error line => .error line
  | .integer _ n => .integer n
  | .nullBulkString => .bulkString none
  | .bulkString _ data => .bulkString (some data)
  | .nullArray => .nil
  | .array _ elems => .array (valueAll elems)
  | .inline line => .array ((fields line).map newBulkString)

def valueAll : List Form → List Value
  | [] => []
  | f :: fs => f.value :: valueAll fs

end

/-- A form that keeps to the limits of the protocol, with `room` levels of arrays allowed. -/
inductive Valid : Nat → Form → Prop where
  | simpleString {room : Nat} {line : Bytes} (hfits : FitsLine line) :
      Valid room (.simpleString line)
  | error {room : Nat} {line : Bytes} (hfits : FitsLine line) : Valid room (.error line)
  | integer {room : Nat} {line : Bytes} {n : Int64} (hfits : FitsLine line)
      (hn : atoi line = some n) : Valid room (.integer line n)
  | nullBulkString {room : Nat} : Valid room .nullBulkString
  | bulkString {room : Nat} {line data : Bytes} (hfits : FitsLine line)
      (hann : Announces line data.length) (hmax : data.length ≤ maxBulkStringLength) :
      Valid room (.bulkString line data)
  | nullArray {room : Nat} : Valid (room + 1) .nullArray
  | array {room : Nat} {line : Bytes} {elems : List Form} (hfits : FitsLine line)
      (hann : Announces line elems.length) (hmax : elems.length ≤ maxArrayLength)
      (helems : ∀ f ∈ elems, Valid room f) : Valid (room + 1) (.array line elems)
  /-- An inline command is an array, but no level is taken for it. -/
  | inline {room : Nat} {line : Bytes} (hfits : FitsLine line)
      (hmark : ∀ b ∈ line.head?, b ∉ marks) : Valid room (.inline line)

theorem valueAll_eq_map (fs : List Form) : valueAll fs = fs.map value := by
  induction fs with
  | nil => rfl
  | cons f fs ih => rw [valueAll, ih, List.map_cons]

theorem length_valueAll (fs : List Form) : (valueAll fs).length = fs.length := by
  rw [valueAll_eq_map, List.length_map]

end Form

/-! ## The switch on the first byte -/

section Switch

variable (onArray : Bytes → Except ReadError (Value × Bytes)) (s : Bytes)

theorem readSwitch_simpleString : readSwitch onArray (str "+" ++ s) = readSimpleString s := by
  rw [show str "+" ++ s = 43 :: s from rfl, readSwitch, if_pos rfl]

theorem readSwitch_error : readSwitch onArray (str "-" ++ s) = readError s := by
  rw [show str "-" ++ s = 45 :: s from rfl, readSwitch, if_neg (by decide), if_pos rfl]

theorem readSwitch_integer : readSwitch onArray (str ":" ++ s) = readInteger s := by
  rw [show str ":" ++ s = 58 :: s from rfl, readSwitch, if_neg (by decide), if_neg (by decide),
    if_pos rfl]

theorem readSwitch_bulkString : readSwitch onArray (str "$" ++ s) = readBulkString s := by
  rw [show str "$" ++ s = 36 :: s from rfl, readSwitch, if_neg (by decide), if_neg (by decide),
    if_neg (by decide), if_pos rfl]

theorem readSwitch_array : readSwitch onArray (str "*" ++ s) = onArray s := by
  rw [show str "*" ++ s = 42 :: s from rfl, readSwitch, if_neg (by decide), if_neg (by decide),
    if_neg (by decide), if_neg (by decide), if_pos rfl]

end Switch

/-! ## Parts of a form -/

section Parts

variable {s rest : Bytes} {v : Value}

theorem Announces.ne_null {line : Bytes} {n : Nat} (h : Announces line n) : line ≠ str "-1" := by
  rintro rfl
  obtain ⟨m, hm, hn⟩ := h
  have hminus : atoi (str "-1") = some (-1) := by decide
  rw [hminus] at hm
  cases hm
  have hneg : (-1 : Int64).toInt = -1 := by decide
  omega

theorem readTrailer_eq_ok_iff {data : Bytes} :
    readTrailer data s = .ok (v, rest) ↔ s = crlf ++ rest ∧ v = .bulkString (some data) := by
  constructor
  · intro h
    match s with
    | [] => cases h
    | [cr] =>
        rw [readTrailer] at h
        split at h <;> cases h
    | cr :: lf :: s =>
        rw [readTrailer] at h
        split at h
        · cases h
        split at h
        · cases h
        next hcr hlf =>
          obtain ⟨rfl, rfl⟩ := Prod.mk.inj (Except.ok.inj h)
          rw [not_not.1 hcr, not_not.1 hlf]
          exact ⟨rfl, rfl⟩
  · rintro ⟨rfl, rfl⟩
    rfl

/-- A length that passes the tests of the reader. -/
theorem exists_length {n : Int64} {limit : Nat} (hneg : ¬ n < 0)
    (hmax : ¬ (limit : Int) < n.toInt) : ∃ k : Nat, n.toInt = k ∧ k ≤ limit := by
  rw [Int64.lt_iff_toInt_lt, Int64.toInt_zero] at hneg
  exact ⟨n.toInt.toNat, by omega, by omega⟩

theorem length_tests {n : Int64} {k limit : Nat} (hn : n.toInt = k) (hk : k ≤ limit) :
    ¬ n < 0 ∧ ¬ (limit : Int) < n.toInt := by
  rw [Int64.lt_iff_toInt_lt, Int64.toInt_zero]
  omega

/-- A reader of one line returns what is made of the line. -/
theorem withLine_eq_ok_iff {β : Type} {f : Bytes → Bytes → Except ReadError (β × Bytes)}
    {r : β × Bytes} :
    withLine s f = .ok r ↔
      ∃ line rest, FitsLine line ∧ s = line ++ crlf ++ rest ∧ f line rest = .ok r := by
  constructor
  · intro h
    obtain ⟨line, rest, hline, hf⟩ := withLine_eq_ok h
    obtain ⟨hs, hfits⟩ := readLine_eq_ok_iff_fitsLine.1 hline
    exact ⟨line, rest, hfits, hs, hf⟩
  · rintro ⟨line, rest, hfits, hs, hf⟩
    rw [withLine_of_readLine f (readLine_eq_ok_iff_fitsLine.2 ⟨hs, hfits⟩), hf]

/-- The line with the length of a bulk string or an array: null, or a length within its limit. -/
theorem announced_eq_ok_iff {β : Type} {line : Bytes} {limit : Nat} {null r : β}
    {invalid : ReadError} {negative tooLong : Int64 → ReadError}
    {body : Int64 → Except ReadError β} :
    (if line = str "-1" then .ok null
      else
        match atoi line with
        | none => .error invalid
        | some n =>
            if n < 0 then .error (negative n)
            else if (limit : Int) < n.toInt then .error (tooLong n)
            else body n) = Except.ok r ↔
      (line = str "-1" ∧ null = r) ∨
      ∃ (n : Int64) (k : Nat), atoi line = some n ∧ n.toInt = k ∧ k ≤ limit ∧ body n = .ok r := by
  constructor
  · intro h
    split at h
    next hnull => exact .inl ⟨hnull, Except.ok.inj h⟩
    next =>
      cases hatoi : atoi line with
      | none => simp [hatoi] at h
      | some n =>
          simp only [hatoi] at h
          split at h
          · cases h
          split at h
          · cases h
          next hneg hmax =>
            obtain ⟨k, hk, hlimit⟩ := exists_length hneg hmax
            exact .inr ⟨n, k, rfl, hk, hlimit, h⟩
  · rintro (⟨rfl, rfl⟩ | ⟨n, k, hatoi, hk, hlimit, h⟩)
    · rw [if_pos rfl]
    · have hnull : line ≠ str "-1" := Announces.ne_null ⟨n, hatoi, hk⟩
      obtain ⟨hneg, hmax⟩ := length_tests hk hlimit
      rw [if_neg hnull]
      simp only [hatoi]
      rw [if_neg hneg, if_neg hmax, h]

theorem readBulkString_eq_ok_iff :
    readBulkString s = .ok (v, rest) ↔
      (s = str "-1" ++ crlf ++ rest ∧ v = .bulkString none) ∨
      ∃ line data, FitsLine line ∧ Announces line data.length ∧
        data.length ≤ maxBulkStringLength ∧ s = line ++ crlf ++ (data ++ (crlf ++ rest)) ∧
        v = .bulkString (some data) := by
  rw [readBulkString, withLine_eq_ok_iff]
  constructor
  · rintro ⟨line, body, hfits, rfl, hbody⟩
    rcases announced_eq_ok_iff.1 hbody with ⟨rfl, hr⟩ | ⟨n, k, hatoi, hk, hlimit, hdata⟩
    · obtain ⟨rfl, rfl⟩ := Prod.mk.inj hr
      exact .inl ⟨rfl, rfl⟩
    · rw [hk, Int.toNat_natCast] at hdata
      split at hdata
      · cases hdata
      next hshort =>
        obtain ⟨htrailer, rfl⟩ := readTrailer_eq_ok_iff.1 hdata
        have hlen : (body.take k).length = k := by
          rw [List.length_take]
          omega
        refine .inr ⟨line, body.take k, hfits, ⟨n, hatoi, by rw [hk, hlen]⟩, by omega, ?_, rfl⟩
        rw [← htrailer, List.take_append_drop]
  · rintro (⟨rfl, rfl⟩ | ⟨line, data, hfits, ⟨n, hatoi, hn⟩, hlimit, rfl, rfl⟩)
    · exact ⟨str "-1", rest, by decide, rfl, if_pos rfl⟩
    · refine ⟨line, _, hfits, rfl, announced_eq_ok_iff.2 (.inr ⟨n, _, hatoi, hn, hlimit, ?_⟩)⟩
      rw [hn, Int.toNat_natCast, if_neg (by simp), List.take_left, List.drop_left]
      exact readTrailer_eq_ok_iff.2 ⟨rfl, rfl⟩

theorem readArray_eq_ok_iff {read : Bytes → Except ReadError (Value × Bytes)} :
    readArray read s = .ok (v, rest) ↔
      (s = str "-1" ++ crlf ++ rest ∧ v = .nil) ∨
      ∃ line n body vs, FitsLine line ∧ Announces line n ∧ n ≤ maxArrayLength ∧
        s = line ++ crlf ++ body ∧ readElements read 0 n body = .ok (vs, rest) ∧ v = .array vs := by
  rw [readArray, withLine_eq_ok_iff]
  constructor
  · rintro ⟨line, body, hfits, rfl, hbody⟩
    rcases announced_eq_ok_iff.1 hbody with ⟨rfl, hr⟩ | ⟨n, k, hatoi, hk, hlimit, helems⟩
    · obtain ⟨rfl, rfl⟩ := Prod.mk.inj hr
      exact .inl ⟨rfl, rfl⟩
    · rw [hk, Int.toNat_natCast] at helems
      cases hread : readElements read 0 k body with
      | error err => simp [hread] at helems
      | ok q =>
          simp only [hread, Except.ok.injEq, Prod.mk.injEq] at helems
          obtain ⟨rfl, rfl⟩ := helems
          exact .inr ⟨line, k, body, q.1, hfits, ⟨n, hatoi, hk⟩, hlimit, rfl, hread, rfl⟩
  · rintro (⟨rfl, rfl⟩ | ⟨line, k, body, vs, hfits, ⟨n, hatoi, hn⟩, hlimit, rfl, helems, rfl⟩)
    · exact ⟨str "-1", rest, by decide, rfl, if_pos rfl⟩
    · refine ⟨line, body, hfits, rfl, announced_eq_ok_iff.2 (.inr ⟨n, k, hatoi, hn, hlimit, ?_⟩)⟩
      rw [hn, Int.toNat_natCast, helems]

/-- The switch on the first byte. -/
theorem readSwitch_eq_ok_iff {onArray : Bytes → Except ReadError (Value × Bytes)}
    {r : Value × Bytes} :
    readSwitch onArray s = .ok r ↔
      (∃ t, s = str "+" ++ t ∧ readSimpleString t = .ok r) ∨
      (∃ t, s = str "-" ++ t ∧ readError t = .ok r) ∨
      (∃ t, s = str ":" ++ t ∧ readInteger t = .ok r) ∨
      (∃ t, s = str "$" ++ t ∧ readBulkString t = .ok r) ∨
      (∃ t, s = str "*" ++ t ∧ onArray t = .ok r) ∨
      ((∃ b ∈ s.head?, b ∉ marks) ∧ readInline s = .ok r) := by
  constructor
  · intro h
    cases s with
    | nil => cases h
    | cons b t =>
        rw [readSwitch] at h
        split at h
        next hb => exact .inl ⟨t, by rw [hb]; rfl, h⟩
        next hplus =>
        split at h
        next hb => exact .inr (.inl ⟨t, by rw [hb]; rfl, h⟩)
        next hminus =>
        split at h
        next hb => exact .inr (.inr (.inl ⟨t, by rw [hb]; rfl, h⟩))
        next hcolon =>
        split at h
        next hb => exact .inr (.inr (.inr (.inl ⟨t, by rw [hb]; rfl, h⟩)))
        next hdollar =>
        split at h
        next hb => exact .inr (.inr (.inr (.inr (.inl ⟨t, by rw [hb]; rfl, h⟩))))
        next hstar =>
        refine .inr (.inr (.inr (.inr (.inr ⟨⟨b, rfl, ?_⟩, h⟩))))
        rw [show marks = [43, 45, 58, 36, 42] from rfl]
        simp [hplus, hminus, hcolon, hdollar, hstar]
  · rintro (⟨t, rfl, h⟩ | ⟨t, rfl, h⟩ | ⟨t, rfl, h⟩ | ⟨t, rfl, h⟩ | ⟨t, rfl, h⟩
      | ⟨⟨b, hb, hmark⟩, h⟩)
    · rw [readSwitch_simpleString, h]
    · rw [readSwitch_error, h]
    · rw [readSwitch_integer, h]
    · rw [readSwitch_bulkString, h]
    · rw [readSwitch_array, h]
    · cases s with
      | nil => cases hb
      | cons b' t =>
          obtain rfl : b' = b := Option.some.inj hb
          rw [show marks = [43, 45, 58, 36, 42] from rfl] at hmark
          simp only [List.mem_cons, List.not_mem_nil, or_false, not_or] at hmark
          obtain ⟨hplus, hminus, hcolon, hdollar, hstar⟩ := hmark
          rw [readSwitch, if_neg hplus, if_neg hminus, if_neg hcolon, if_neg hdollar,
            if_neg hstar, h]

end Parts

/-! ## The reader returns what a form stands for -/

/-- The stream starts with a form of the kind `P`, which stands for the value. -/
def Starts (P : Form → Prop) (s : Bytes) (r : Value × Bytes) : Prop :=
  ∃ f, P f ∧ s = f.bytes ++ r.2 ∧ f.value = r.1

theorem readElements_eq_ok_iff {read : Bytes → Except ReadError (Value × Bytes)} {P : Form → Prop}
    (hread : ∀ s r, read s = .ok r ↔ Starts P s r) {i n : Nat} {s rest : Bytes} {vs : List Value} :
    readElements read i n s = .ok (vs, rest) ↔
      ∃ fs : List Form, fs.length = n ∧ (∀ f ∈ fs, P f) ∧ s = Form.bytesAll fs ++ rest ∧
        Form.valueAll fs = vs := by
  induction n generalizing i s vs with
  | zero =>
      constructor
      · intro h
        obtain ⟨rfl, rfl⟩ := Prod.mk.inj (Except.ok.inj h)
        exact ⟨[], rfl, by simp, rfl, rfl⟩
      · rintro ⟨fs, hlen, -, rfl, rfl⟩
        obtain rfl := List.length_eq_zero_iff.1 hlen
        rfl
  | succ n ih =>
      constructor
      · intro h
        obtain ⟨v, rest', vs', rest'', hv, hvs, hr⟩ := readElements_succ_eq_ok h
        obtain ⟨rfl, rfl⟩ := Prod.mk.inj hr
        obtain ⟨f, hf, rfl, rfl⟩ := (hread _ _).1 hv
        obtain ⟨fs, hlen, hfs, rfl, rfl⟩ := ih.1 hvs
        refine ⟨f :: fs, by rw [List.length_cons, hlen], ?_, ?_, rfl⟩
        · exact List.forall_mem_cons.2 ⟨hf, hfs⟩
        · rw [Form.bytesAll, List.append_assoc]
      · rintro ⟨fs, hlen, hfs, rfl, rfl⟩
        cases fs with
        | nil => cases hlen
        | cons f fs =>
            rw [Form.bytesAll, List.append_assoc]
            exact readElements_succ
              ((hread _ (_, Form.bytesAll fs ++ rest)).2 ⟨f, hfs f List.mem_cons_self, rfl, rfl⟩)
              (ih.2 ⟨fs, Nat.succ.inj hlen,
                fun g hg => hfs g (List.mem_cons_of_mem f hg), rfl, rfl⟩)

/-- A value that is no array stands in a form that is valid at every level. -/
theorem exists_form_of_readSwitch {onArray : Bytes → Except ReadError (Value × Bytes)} {s : Bytes}
    {r : Value × Bytes} (h : readSwitch onArray s = .ok r) (room : Nat) :
    (∃ t, s = str "*" ++ t ∧ onArray t = .ok r) ∨ Starts (Form.Valid room) s r := by
  obtain ⟨v, rest⟩ := r
  rcases readSwitch_eq_ok_iff.1 h with
    ⟨t, rfl, h⟩ | ⟨t, rfl, h⟩ | ⟨t, rfl, h⟩ | ⟨t, rfl, h⟩ | ⟨t, rfl, h⟩ | ⟨⟨b, hb, hmark⟩, h⟩
  · obtain ⟨line, rest', hfits, rfl, hf⟩ := withLine_eq_ok_iff.1 h
    obtain ⟨rfl, rfl⟩ := Prod.mk.inj (Except.ok.inj hf)
    exact .inr ⟨.simpleString line, .simpleString hfits, by simp [Form.bytes], rfl⟩
  · obtain ⟨line, rest', hfits, rfl, hf⟩ := withLine_eq_ok_iff.1 h
    obtain ⟨rfl, rfl⟩ := Prod.mk.inj (Except.ok.inj hf)
    exact .inr ⟨.error line, .error hfits, by simp [Form.bytes], rfl⟩
  · obtain ⟨line, rest', hfits, rfl, hf⟩ := withLine_eq_ok_iff.1 h
    cases hatoi : atoi line with
    | none => simp [hatoi] at hf
    | some n =>
        simp only [hatoi, Except.ok.injEq, Prod.mk.injEq] at hf
        obtain ⟨rfl, rfl⟩ := hf
        exact .inr ⟨.integer line n, .integer hfits hatoi, by simp [Form.bytes], rfl⟩
  · rcases readBulkString_eq_ok_iff.1 h with ⟨rfl, rfl⟩ | ⟨line, data, hfits, hann, hmax, rfl, rfl⟩
    · exact .inr ⟨.nullBulkString, .nullBulkString, by simp [Form.bytes], rfl⟩
    · exact .inr ⟨.bulkString line data, .bulkString hfits hann hmax, by simp [Form.bytes], rfl⟩
  · exact .inl ⟨t, rfl, h⟩
  · obtain ⟨line, rest', hfits, rfl, hf⟩ := withLine_eq_ok_iff.1 h
    obtain ⟨rfl, rfl⟩ := Prod.mk.inj (Except.ok.inj hf)
    refine .inr ⟨.inline line, .inline hfits ?_, rfl, rfl⟩
    intro b' hb'
    -- the first byte of the line is the first byte of the stream
    cases line with
    | nil => cases hb'
    | cons c line =>
        cases hb'
        cases hb
        exact hmark

/-- A valid form is read as its value, provided that for its arrays. -/
theorem readSwitch_form {onArray : Bytes → Except ReadError (Value × Bytes)} {room : Nat} {f : Form}
    (h : f.Valid room) (rest : Bytes)
    (hnull : f = .nullArray → onArray (str "-1" ++ crlf ++ rest) = .ok (.nil, rest))
    (harray : ∀ line elems, f = .array line elems →
      onArray (line ++ crlf ++ (Form.bytesAll elems ++ rest)) =
        .ok (.array (Form.valueAll elems), rest)) :
    readSwitch onArray (f.bytes ++ rest) = .ok (f.value, rest) := by
  rw [readSwitch_eq_ok_iff]
  cases h with
  | @simpleString _ line hfits =>
      exact .inl ⟨_, List.append_assoc _ _ _, withLine_eq_ok_iff.2 ⟨line, rest, hfits, rfl, rfl⟩⟩
  | @error _ line hfits =>
      exact .inr (.inl ⟨_, List.append_assoc _ _ _,
        withLine_eq_ok_iff.2 ⟨line, rest, hfits, rfl, rfl⟩⟩)
  | @integer _ line n hfits hn =>
      refine .inr (.inr (.inl ⟨_, List.append_assoc _ _ _,
        withLine_eq_ok_iff.2 ⟨line, rest, hfits, rfl, ?_⟩⟩))
      rw [hn]
      rfl
  | nullBulkString =>
      exact .inr (.inr (.inr (.inl ⟨_, List.append_assoc _ _ _,
        readBulkString_eq_ok_iff.2 (.inl ⟨rfl, rfl⟩)⟩)))
  | @bulkString _ line data hfits hann hmax =>
      refine .inr (.inr (.inr (.inl ⟨_, List.append_assoc _ _ _,
        readBulkString_eq_ok_iff.2 (.inr ⟨line, data, hfits, hann, hmax, ?_, rfl⟩)⟩)))
      rw [List.append_assoc, List.append_assoc data]
  | nullArray =>
      exact .inr (.inr (.inr (.inr (.inl ⟨_, List.append_assoc _ _ _, hnull rfl⟩))))
  | @array _ line elems =>
      refine .inr (.inr (.inr (.inr (.inl ⟨_, List.append_assoc _ _ _, ?_⟩))))
      rw [List.append_assoc (line ++ crlf)]
      exact harray line elems rfl
  | @inline _ line hfits hmark =>
      refine .inr (.inr (.inr (.inr
        (.inr ⟨?_, withLine_eq_ok_iff.2 ⟨line, rest, hfits, rfl, rfl⟩⟩))))
      cases line with
      | nil => exact ⟨13, rfl, by decide⟩
      | cons b line => exact ⟨b, rfl, hmark b rfl⟩

/-- An array is read as its value, provided that for its elements. -/
theorem readArray_eq_ok_iff_starts {room : Nat}
    (hread : ∀ s r, readValueWithin room s = .ok r ↔ Starts (Form.Valid room) s r) {t : Bytes}
    {r : Value × Bytes} :
    readArray (readValueWithin room) t = .ok r ↔
      (t = str "-1" ++ crlf ++ r.2 ∧ r.1 = .nil) ∨
      ∃ line elems, (Form.array line elems).Valid (room + 1) ∧
        t = line ++ crlf ++ (Form.bytesAll elems ++ r.2) ∧ r.1 = .array (Form.valueAll elems) := by
  obtain ⟨v, rest⟩ := r
  rw [readArray_eq_ok_iff]
  apply or_congr_right
  constructor
  · rintro ⟨line, n, body, vs, hfits, hann, hmax, rfl, helems, rfl⟩
    obtain ⟨fs, rfl, hfs, rfl, rfl⟩ := (readElements_eq_ok_iff hread).1 helems
    exact ⟨line, fs, .array hfits hann hmax hfs, rfl, rfl⟩
  · rintro ⟨line, elems, hvalid, rfl, rfl⟩
    cases hvalid with
    | array hfits hann hmax helems =>
        exact ⟨line, elems.length, _, _, hfits, hann, hmax, rfl,
          (readElements_eq_ok_iff hread).2 ⟨elems, rfl, helems, rfl, rfl⟩, rfl⟩

/-- **The reader is faithful to the forms.** -/
theorem readValueWithin_eq_ok_iff {room : Nat} {s : Bytes} {r : Value × Bytes} :
    readValueWithin room s = .ok r ↔ Starts (Form.Valid room) s r := by
  induction room generalizing s r with
  | zero =>
      rw [readValueWithin]
      constructor
      · intro h
        rcases exists_form_of_readSwitch h 0 with ⟨t, -, h⟩ | hstarts
        · cases h
        · exact hstarts
      · obtain ⟨v, rest⟩ := r
        rintro ⟨f, hf, rfl, rfl⟩
        -- no array is valid here
        apply readSwitch_form hf
        · rintro rfl
          cases hf
        · rintro line elems rfl
          cases hf
  | succ room ih =>
      rw [readValueWithin]
      have hread : ∀ s r, readValueWithin room s = .ok r ↔ Starts (Form.Valid room) s r :=
        fun s r => ih
      constructor
      · intro h
        rcases exists_form_of_readSwitch h (room + 1) with ⟨t, rfl, h⟩ | hstarts
        · rcases (readArray_eq_ok_iff_starts hread).1 h with
            ⟨rfl, hv⟩ | ⟨line, elems, hvalid, rfl, hv⟩
          · exact ⟨.nullArray, .nullArray, by simp [Form.bytes], hv.symm⟩
          · exact ⟨.array line elems, hvalid, by simp [Form.bytes], hv.symm⟩
        · exact hstarts
      · obtain ⟨v, rest⟩ := r
        rintro ⟨f, hf, rfl, rfl⟩
        apply readSwitch_form hf
        · rintro rfl
          exact (readArray_eq_ok_iff_starts hread).2 (.inl ⟨rfl, rfl⟩)
        · rintro line elems rfl
          exact (readArray_eq_ok_iff_starts hread).2 (.inr ⟨line, elems, hf, rfl, rfl⟩)

/-- A valid form is read as its value, whatever follows. -/
theorem readValueWithin_form {room : Nat} {f : Form} (h : f.Valid room) (rest : Bytes) :
    readValueWithin room (f.bytes ++ rest) = .ok (f.value, rest) :=
  readValueWithin_eq_ok_iff.2 ⟨f, h, rfl, rfl⟩

end Hapartition
