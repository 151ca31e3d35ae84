import Mathlib.Data.Nat.Digits.Defs
import Hapartition.Lib.Bytes

/-!
# Decimal numerals

`itoa` prints an integer in base ten, as `strconv.Itoa` and the verb `%d` do. `atoi` reads one, as
`strconv.Atoi` does: an optional sign, at least one digit and nothing else, with a value in the
64-bit range. Reading undoes printing (`atoi_itoa`), and a numeral holds only digits and a sign.
-/

set_option autoImplicit false

namespace Hapartition.Lib

/-- The digits of a natural number, most significant first. -/
def itoaNat (n : Nat) : Bytes := (Nat.toDigits 10 n).map fun c => UInt8.ofNat c.toNat

/-- Base-ten numeral of an integer. -/
def itoa (n : Int) : Bytes :=
  if n < 0 then 45 :: itoaNat n.natAbs else itoaNat n.natAbs

/-- An ASCII digit. -/
def isDigit (b : UInt8) : Bool := 48 ≤ b && b ≤ 57

/-- The value of a string of digits. -/
def digitsValue (l : Bytes) : Nat := l.foldl (fun acc b => 10 * acc + (b.toNat - 48)) 0

/-- An unsigned numeral: at least one byte, all digits. -/
def atou (l : Bytes) : Option Nat :=
  if l.isEmpty || !l.all isDigit then none else some (digitsValue l)

/-- The integer before the range check. -/
def atoiUnbounded (l : Bytes) : Option Int :=
  if l.head? = some 43 then (atou l.tail).map Int.ofNat
  else if l.head? = some 45 then (atou l.tail).map fun n => -Int.ofNat n
  else (atou l).map Int.ofNat

/-- The numeral reader; out-of-range values are errors. -/
def atoi (l : Bytes) : Option Int64 :=
  match atoiUnbounded l with
  | none => none
  | some n => if -2 ^ 63 ≤ n ∧ n < 2 ^ 63 then some (Int64.ofInt n) else none

/-- The unsigned scanner of `atoiValue`: it stops with the greatest 64-bit value as soon as the
number leaves the range, and fails at a byte that is no digit. -/
def scanUint : Bytes → Nat → Option Nat
  | [], n => some n
  | b :: l, n =>
      if !isDigit b then none
      -- the bytes after the overflow are not looked at, whatever they are
      else if 2 ^ 64 ≤ 10 * n + (b.toNat - 48) then some (2 ^ 64 - 1)
      else scanUint l (10 * n + (b.toNat - 48))

/-- The value that `strconv.Atoi` returns along with its error, if any: zero for a malformed
numeral, the nearest 64-bit value for one out of range. -/
def atoiValue (l : Bytes) : Int64 :=
  let neg := l.head? = some 45
  let digits := if l.head? = some 43 ∨ neg then l.tail else l
  if digits.isEmpty then 0
  else
    match scanUint digits 0 with
    | none => 0
    | some n =>
        if neg then Int64.ofInt (max (-2 ^ 63) (-(n : Int))) else Int64.ofInt (min (2 ^ 63 - 1) n)

/-! ## Digits -/

theorem toNat_of_isDigit {c : Char} (h : c.isDigit = true) : 48 ≤ c.toNat ∧ c.toNat ≤ 57 := by
  simp only [Char.isDigit, Bool.and_eq_true, decide_eq_true_eq] at h
  exact h

theorem toNat_ofNat_of_isDigit {c : Char} (h : c.isDigit = true) :
    (UInt8.ofNat c.toNat).toNat = c.toNat := by
  have := toNat_of_isDigit h
  rw [UInt8.toNat_ofNat']
  omega

theorem isDigit_itoaNat {n : Nat} {b : UInt8} (h : b ∈ itoaNat n) : isDigit b = true := by
  obtain ⟨c, hc, rfl⟩ := List.mem_map.1 h
  have hd := Nat.isDigit_of_mem_toDigits (by decide) (by decide) hc
  have hb := toNat_of_isDigit hd
  simp only [isDigit, Bool.and_eq_true, decide_eq_true_eq, UInt8.le_iff_toNat_le,
    toNat_ofNat_of_isDigit hd]
  exact hb

theorem itoaNat_ne_nil (n : Nat) : itoaNat n ≠ [] := by
  simp [itoaNat, Nat.toDigits_ne_nil]

theorem digitsValue_itoaNat (n : Nat) : digitsValue (itoaNat n) = n := by
  -- the fold over bytes is the fold of the core library over digit characters, from any start
  have key : ∀ (l : List Char) (acc : Nat), (∀ c ∈ l, c.isDigit = true) →
      (l.map fun c => UInt8.ofNat c.toNat).foldl (fun acc b => 10 * acc + (b.toNat - 48)) acc =
        Nat.ofDigitChars 10 l acc := by
    intro l
    induction l with
    | nil => exact fun acc _ => rfl
    | cons c l ih =>
        intro acc h
        rw [List.map_cons, List.foldl_cons, toNat_ofNat_of_isDigit (h c List.mem_cons_self),
          ih _ fun d hd => h d (List.mem_cons_of_mem _ hd)]
        rfl
  rw [digitsValue, itoaNat,
    key _ _ fun c hc => Nat.isDigit_of_mem_toDigits (by decide) (by decide) hc]
  exact Nat.ofDigitChars_ten_toDigits

theorem atou_itoaNat (n : Nat) : atou (itoaNat n) = some n := by
  have hall : (itoaNat n).all isDigit = true := List.all_eq_true.2 fun b hb => isDigit_itoaNat hb
  have hne : (itoaNat n).isEmpty = false := by
    simpa using itoaNat_ne_nil n
  rw [atou, hall, hne, digitsValue_itoaNat]
  rfl

/-! ## Signed numerals -/

theorem atoiUnbounded_of_isDigit {b : UInt8} {l : Bytes} (h : isDigit b = true) :
    atoiUnbounded (b :: l) = (atou (b :: l)).map Int.ofNat := by
  have hplus : b ≠ 43 := by
    rintro rfl
    simp [isDigit] at h
  have hminus : b ≠ 45 := by
    rintro rfl
    simp [isDigit] at h
  rw [atoiUnbounded, List.head?_cons, if_neg (by simpa using hplus), if_neg (by simpa using hminus)]

theorem atoiUnbounded_itoa (n : Int) : atoiUnbounded (itoa n) = some n := by
  unfold itoa
  split
  · next h =>
      rw [atoiUnbounded, List.head?_cons, if_neg (by decide), if_pos rfl, List.tail_cons,
        atou_itoaNat, Option.map_some, Int.ofNat_eq_natCast]
      congr 1
      omega
  · next h =>
      obtain ⟨b, l, hl⟩ := List.exists_cons_of_ne_nil (itoaNat_ne_nil n.natAbs)
      have hb : isDigit b = true := isDigit_itoaNat (hl ▸ List.mem_cons_self)
      -- the first byte is a digit, so it is not taken for a sign
      rw [hl, atoiUnbounded_of_isDigit hb, ← hl, atou_itoaNat, Option.map_some,
        Int.ofNat_eq_natCast]
      congr 1
      omega

/-- Reading undoes printing. -/
theorem atoi_itoa (n : Int64) : atoi (itoa n.toInt) = some n := by
  have hlo := n.le_toInt
  have hhi := n.toInt_lt
  rw [atoi, atoiUnbounded_itoa]
  simp only [hlo, hhi, and_self, if_true, Int64.ofInt_toInt]

/-- A numeral is made of digits, after an optional minus sign. -/
theorem mem_itoa {n : Int} {b : UInt8} (h : b ∈ itoa n) : b = 45 ∨ isDigit b = true := by
  unfold itoa at h
  split at h
  · rcases List.mem_cons.1 h with rfl | h
    · exact Or.inl rfl
    · exact Or.inr (isDigit_itoaNat h)
  · exact Or.inr (isDigit_itoaNat h)

theorem length_itoa_le {n : Int} {e : Nat} (he : 0 < e) (h : n.natAbs < 10 ^ e) :
    (itoa n).length ≤ e + 1 := by
  have hdigits : (itoaNat n.natAbs).length ≤ e := by
    rw [itoaNat, List.length_map]
    exact Nat.toDigits_length 10 _ e he h
  unfold itoa
  split
  · simpa using hdigits
  · omega

/-- Reading back a natural number in the range. -/
theorem atoi_itoa_natCast {n : Nat} (h : n < 2 ^ 63) : atoi (itoa n) = some (Int64.ofNat n) := by
  have := atoi_itoa (Int64.ofNat n)
  rwa [Int64.toInt_ofNat_of_lt h] at this

end Hapartition.Lib
