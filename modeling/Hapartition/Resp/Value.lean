import Hapartition.Lib.Decimal

/-!
# RESP values and their encoding

The values of `pkg/api/types.go` and the bytes `Resp()` gives for them.

- `Value` is the interface with its five implementations. A Go interface may also be nil: the
  reader hands out such a value for the null array, so it is a constructor of its own.
- `Value.resp` is `Resp()`. It is partial: `Resp()` on a nil interface panics.
- `respAll` is what writing several values one after the other puts on the connection.
-/

set_option autoImplicit false

namespace Hapartition

open Lib (Bytes str itoa)

/-- A RESP value. -/
inductive Value where
  /-- The nil interface: what `readValue` returns for the null array `*-1`. -/
  | nil
  | simpleString (s : Bytes)
  | error (s : Bytes)
  | integer (n : Int64)
  /-- `none` is `Data == nil`, the null bulk string. -/
  | bulkString (data : Option Bytes)
  | array (elems : List Value)
  deriving Repr

/-- The line terminator `\r\n`. -/
def crlf : Bytes :=
  [13, 10]

/-- `NewBulkString`. -/
def newBulkString (s : Bytes) : Value :=
  .bulkString (some s)

/-- `NullBulkString`. -/
def nullBulkString : Value :=
  .bulkString none

/-- `OK`. -/
def Value.ok : Value :=
  .simpleString (str "OK")

/-- `PONG`. -/
def Value.pong : Value :=
  .simpleString (str "PONG")

mutual

/-- `Resp()`: the RESP encoding of a value, `none` where the call panics on a nil interface. -/
def Value.resp : Value → Option Bytes
  | .nil => none
  | .simpleString s => some (str "+" ++ s ++ crlf)
  | .error s => some (str "-" ++ s ++ crlf)
  | .integer n => some (str ":" ++ itoa n.toInt ++ crlf)
  | .bulkString none => some (str "$-1" ++ crlf)
  | .bulkString (some data) =>
      some (str "$" ++ itoa data.length ++ crlf ++ data ++ crlf)
  | .array elems =>
      match respAll elems with
      | none => none
      | some b => some (str "*" ++ itoa elems.length ++ crlf ++ b)

/-- The encodings of a list of values, one after the other: the loop of `Array.Resp()`. -/
def respAll : List Value → Option Bytes
  | [] => some []
  | v :: vs =>
      match v.resp, respAll vs with
      | some b, some bs => some (b ++ bs)
      | _, _ => none

end

theorem respAll_cons_eq_some {v : Value} {vs : List Value} {b : Bytes}
    (h : respAll (v :: vs) = some b) :
    ∃ bv bvs, v.resp = some bv ∧ respAll vs = some bvs ∧ b = bv ++ bvs := by
  rw [respAll] at h
  split at h
  next bv bvs hv hvs => exact ⟨bv, bvs, hv, hvs, (Option.some.inj h).symm⟩
  next => cases h

theorem Value.resp_array_eq_some {elems : List Value} {b : Bytes}
    (h : (Value.array elems).resp = some b) :
    ∃ bs, respAll elems = some bs ∧ b = str "*" ++ itoa elems.length ++ crlf ++ bs := by
  rw [Value.resp] at h
  split at h
  · cases h
  next bs hbs => exact ⟨bs, hbs, (Option.some.inj h).symm⟩

end Hapartition
