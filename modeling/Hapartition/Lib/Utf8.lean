import Mathlib.Algebra.Order.BigOperators.Group.List
import Mathlib.Algebra.Order.Group.Nat
import Mathlib.Algebra.Ring.Nat
import Hapartition.Lib.Bytes

/-!
# UTF-8 text

The reading of a byte string as a sequence of code points, with the conventions of the Go packages
`unicode/utf8` and `strings`: a byte that starts no well-formed encoding is one unit that stands for
the replacement character. On top of it: validity, splitting at white space (`strings.Fields`) and
conversion to upper case (`strings.ToUpper`). The case table of Unicode is a parameter of the last.
-/

set_option autoImplicit false

namespace Hapartition.Lib

/-- The replacement character, `utf8.RuneError`. -/
def runeError : Nat := 0xFFFD

/-- `b` is a byte from `lo` to `hi`. -/
def inRange (lo hi b : UInt8) : Bool := lo ≤ b && b ≤ hi

/-- The low `k` bits of a byte, as a number. -/
def lowBits (k : Nat) (b : UInt8) : Nat := b.toNat % 2 ^ k

/-- The code point at the front and the length of its encoding; nothing when the front is no
well-formed encoding. Overlong forms, surrogates and values past U+10FFFF are not well formed. -/
def decodeRune : Bytes → Option (Nat × Nat)
  | [] => none
  | b0 :: rest =>
      if b0 < 0x80 then some (b0.toNat, 1)
      else if inRange 0xC2 0xDF b0 then
        match rest with
        | b1 :: _ =>
            if inRange 0x80 0xBF b1 then some (lowBits 5 b0 * 64 + lowBits 6 b1, 2) else none
        | _ => none
      else if inRange 0xE0 0xEF b0 then
        -- 0xE0 would allow overlong forms and 0xED surrogates: the second byte has a narrower range
        match rest with
        | b1 :: b2 :: _ =>
            if inRange (if b0 = 0xE0 then 0xA0 else 0x80) (if b0 = 0xED then 0x9F else 0xBF) b1 &&
                inRange 0x80 0xBF b2 then
              some ((lowBits 4 b0 * 64 + lowBits 6 b1) * 64 + lowBits 6 b2, 3)
            else none
        | _ => none
      else if inRange 0xF0 0xF4 b0 then
        -- likewise 0xF0 for overlong forms and 0xF4 for values past the last code point
        match rest with
        | b1 :: b2 :: b3 :: _ =>
            if inRange (if b0 = 0xF0 then 0x90 else 0x80) (if b0 = 0xF4 then 0x8F else 0xBF) b1 &&
                inRange 0x80 0xBF b2 && inRange 0x80 0xBF b3 then
              some (((lowBits 3 b0 * 64 + lowBits 6 b1) * 64 + lowBits 6 b2) * 64 + lowBits 6 b3, 4)
            else none
        | _ => none
      else none

/-- A byte string cut into code points, each with the bytes it was read from. The first argument
bounds the number of units; the length of the string always suffices. -/
def runesAux : Nat → Bytes → List (Nat × Bytes)
  | _, [] => []
  | 0, _ :: _ => []
  | n + 1, b :: p =>
      match decodeRune (b :: p) with
      | some (r, k) => (r, (b :: p).take k) :: runesAux n ((b :: p).drop k)
      | none => (runeError, [b]) :: runesAux n p

/-- The code points of a string, as a `range` loop over it reads them. -/
def runes (p : Bytes) : List (Nat × Bytes) := runesAux p.length p

/-- Well-formedness of the whole string, with the same bound. -/
def validAux : Nat → Bytes → Bool
  | _, [] => true
  | 0, _ :: _ => false
  | n + 1, b :: p =>
      match decodeRune (b :: p) with
      | some (_, k) => validAux n ((b :: p).drop k)
      | none => false

/-- `utf8.ValidString`. -/
def validUtf8 (p : Bytes) : Bool := validAux p.length p

/-- The encoding of a code point; values that are none are written as the replacement character. -/
def encodeRune (r : Nat) : Bytes :=
  if r < 0x80 then [UInt8.ofNat r]
  else if r < 0x800 then [UInt8.ofNat (0xC0 + r / 64), UInt8.ofNat (0x80 + r % 64)]
  else if 0xD800 ≤ r ∧ r ≤ 0xDFFF then [0xEF, 0xBF, 0xBD]
  else if r < 0x10000 then
    [UInt8.ofNat (0xE0 + r / 4096), UInt8.ofNat (0x80 + r / 64 % 64), UInt8.ofNat (0x80 + r % 64)]
  else if r ≤ 0x10FFFF then
    [UInt8.ofNat (0xF0 + r / 262144), UInt8.ofNat (0x80 + r / 4096 % 64),
      UInt8.ofNat (0x80 + r / 64 % 64), UInt8.ofNat (0x80 + r % 64)]
  else [0xEF, 0xBF, 0xBD]

/-- `unicode.IsSpace`. -/
def isSpace (r : Nat) : Bool :=
  r ∈ [0x09, 0x0A, 0x0B, 0x0C, 0x0D, 0x20, 0x85, 0xA0, 0x1680, 0x2028, 0x2029, 0x202F, 0x205F,
    0x3000] || (0x2000 ≤ r && r ≤ 0x200A)

/-- The loop of `strings.Fields`: `cur` is the field being read. -/
def fieldsAux : List (Nat × Bytes) → Bytes → List Bytes
  | [], cur => if cur.isEmpty then [] else [cur]
  | (r, raw) :: rs, cur =>
      if isSpace r then
        if cur.isEmpty then fieldsAux rs [] else cur :: fieldsAux rs []
      else fieldsAux rs (cur ++ raw)

/-- `strings.Fields`. -/
def fields (s : Bytes) : List Bytes := fieldsAux (runes s) []

/-- The units of a string hold no more bytes than the string. -/
theorem sum_length_runesAux_le (n : Nat) (p : Bytes) :
    ((runesAux n p).map fun r => r.2.length).sum ≤ p.length := by
  induction n generalizing p with
  | zero => cases p <;> simp [runesAux]
  | succ n ih =>
      cases p with
      | nil => simp [runesAux]
      | cons b p =>
          rw [runesAux]
          split
          next r k _ =>
            have hrest := ih ((b :: p).drop k)
            rw [List.map_cons, List.sum_cons, List.length_take]
            rw [List.length_drop] at hrest
            omega
          next =>
            have hrest := ih p
            rw [List.map_cons, List.sum_cons, List.length_singleton, List.length_cons]
            omega

/-- No field is empty. -/
theorem pos_of_mem_fieldsAux {rs : List (Nat × Bytes)} {cur field : Bytes}
    (h : field ∈ fieldsAux rs cur) : 1 ≤ field.length := by
  induction rs generalizing cur with
  | nil =>
      rw [fieldsAux] at h
      split at h
      · cases h
      next hcur =>
        rw [List.mem_singleton.1 h]
        exact List.length_pos_iff.2 fun hnil => hcur (List.isEmpty_iff.2 hnil)
  | cons r rs ih =>
      rw [fieldsAux] at h
      split at h
      · split at h
        · exact ih h
        next hcur =>
          rcases List.mem_cons.1 h with rfl | h
          · exact List.length_pos_iff.2 fun hnil => hcur (List.isEmpty_iff.2 hnil)
          · exact ih h
      · exact ih h

theorem sum_length_fieldsAux_le (rs : List (Nat × Bytes)) (cur : Bytes) :
    ((fieldsAux rs cur).map List.length).sum ≤
      cur.length + (rs.map fun r => r.2.length).sum := by
  induction rs generalizing cur with
  | nil =>
      rw [fieldsAux]
      split
      · simp
      · simp
  | cons r rs ih =>
      rw [fieldsAux, List.map_cons, List.sum_cons]
      split
      · have hrest := ih []
        rw [List.length_nil] at hrest
        split
        · omega
        · rw [List.map_cons, List.sum_cons]
          omega
      · have hrest := ih (cur ++ r.2)
        rw [List.length_append] at hrest
        omega

/-- The fields of a string hold no more bytes than the string. -/
theorem sum_length_fields_le (s : Bytes) : ((fields s).map List.length).sum ≤ s.length := by
  have hfields := sum_length_fieldsAux_le (runes s) []
  have hrunes := sum_length_runesAux_le s.length s
  rw [List.length_nil, runes] at hfields
  rw [fields, runes]
  omega

theorem length_le_of_mem_fields {s field : Bytes} (h : field ∈ fields s) :
    field.length ≤ s.length := by
  have hle := List.le_sum_of_mem (List.mem_map_of_mem (f := List.length) h)
  exact hle.trans (sum_length_fields_le s)

theorem length_fields_le (s : Bytes) : (fields s).length ≤ s.length := by
  have hle := List.length_le_sum_of_one_le ((fields s).map List.length) (by
    intro k hk
    obtain ⟨field, hfield, rfl⟩ := List.mem_map.1 hk
    exact pos_of_mem_fieldsAux hfield)
  rw [List.length_map] at hle
  exact hle.trans (sum_length_fields_le s)

/-- Upper case of an ASCII byte. -/
def upperAscii (b : UInt8) : UInt8 := if inRange 97 122 b then b - 32 else b

/-- `strings.ToUpper`, for the case table `upper` (`unicode.ToUpper`) outside the ASCII strings. -/
def toUpper (upper : Nat → Nat) (s : Bytes) : Bytes :=
  if s.all (· < 0x80) then s.map upperAscii
  else (runes s).flatMap fun r => encodeRune (upper r.1)

/-- On ASCII the case table is not consulted. -/
theorem toUpper_of_ascii {upper : Nat → Nat} {s : Bytes} (h : s.all (· < 0x80) = true) :
    toUpper upper s = s.map upperAscii :=
  if_pos h

end Hapartition.Lib
