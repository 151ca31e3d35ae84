import Hapartition.Lib.Bytes

/-!
# xxHash64

The 64-bit xxHash of a byte string with seed zero, after its specification: four lanes over blocks
of 32 bytes, then words of eight and four bytes, then single bytes, then the final mixing.
-/

set_option autoImplicit false

namespace Hapartition.Lib.XXHash

def prime1 : UInt64 := 11400714785074694791
def prime2 : UInt64 := 14029467366897019727
def prime3 : UInt64 := 1609587929392839161
def prime4 : UInt64 := 9650029242287828579
def prime5 : UInt64 := 2870177450012600261

/-- Rotation to the left, by less than 64 bits and more than none. -/
def rotl (x r : UInt64) : UInt64 := (x <<< r) ||| (x >>> (64 - r))

/-- A little-endian word. -/
def word (b : Bytes) : UInt64 := b.foldr (fun x acc => acc * 256 + x.toUInt64) 0

/-- One lane of one block. -/
def round (acc input : UInt64) : UInt64 := rotl (acc + input * prime2) 31 * prime1

/-- A lane mixed into the hash. -/
def mergeRound (acc lane : UInt64) : UInt64 := (acc ^^^ round 0 lane) * prime1 + prime4

/-- The four lanes. -/
structure Lanes where
  v1 : UInt64
  v2 : UInt64
  v3 : UInt64
  v4 : UInt64

/-- The lanes after all blocks of 32 bytes, and the bytes left over. -/
def blocks : Nat → Lanes → Bytes → Lanes × Bytes
  | 0, v, b => (v, b)
  | fuel + 1, v, b =>
      if b.length < 32 then (v, b)
      else
        blocks fuel
          ⟨round v.v1 (word (b.take 8)), round v.v2 (word ((b.drop 8).take 8)),
            round v.v3 (word ((b.drop 16).take 8)), round v.v4 (word ((b.drop 24).take 8))⟩
          (b.drop 32)

/-- Words of eight bytes. -/
def words8 : Nat → UInt64 → Bytes → UInt64 × Bytes
  | 0, h, b => (h, b)
  | fuel + 1, h, b =>
      if b.length < 8 then (h, b)
      else words8 fuel (rotl (h ^^^ round 0 (word (b.take 8))) 27 * prime1 + prime4) (b.drop 8)

/-- A word of four bytes, then single bytes. -/
def tail (h : UInt64) (b : Bytes) : UInt64 :=
  let (h, b) :=
    if b.length < 4 then (h, b)
    else (rotl (h ^^^ word (b.take 4) * prime1) 23 * prime2 + prime3, b.drop 4)
  b.foldl (fun h x => rotl (h ^^^ x.toUInt64 * prime5) 11 * prime1) h

/-- The final mixing. -/
def avalanche (h : UInt64) : UInt64 :=
  let h := (h ^^^ (h >>> 33)) * prime2
  let h := (h ^^^ (h >>> 29)) * prime3
  h ^^^ (h >>> 32)

/-- The hash of a byte string. -/
def sum64 (b : Bytes) : UInt64 :=
  let (h, rest) :=
    if b.length < 32 then (prime5, b)
    else
      let (v, rest) := blocks b.length ⟨prime1 + prime2, prime2, 0, 0 - prime1⟩ b
      let h := rotl v.v1 1 + rotl v.v2 7 + rotl v.v3 12 + rotl v.v4 18
      (mergeRound (mergeRound (mergeRound (mergeRound h v.v1) v.v2) v.v3) v.v4, rest)
  let (h, rest) := words8 b.length (h + UInt64.ofNat b.length) rest
  avalanche (tail h rest)

-- the published test vectors of the empty string, a single byte and a string over one block
example : sum64 [] = 0xEF46DB3751D8E999 := by decide +kernel
example : sum64 (str "a") = 0xD24EC4F1A98C6E5B := by decide +kernel
example : sum64 (str "Nobody inspects the spammish repetition") = 0xFBCEA83C8A378BF1 := by
  decide +kernel

end Hapartition.Lib.XXHash
