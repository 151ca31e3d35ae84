import Hapartition.Lib.Bytes
import Mathlib.Algebra.Group.Nat.Defs

/-!
# Digests

The 64-bit FNV-1a hash, SHA-256, and big-endian numbers, which SHA-256 and the messages that are
hashed with it are written in. SHA-256 follows its standard: the message is padded to blocks of 64
bytes, and each block is mixed into eight words over 64 rounds.
-/

set_option autoImplicit false

namespace Hapartition.Lib

/-- The last `k` bytes of a number, the most significant first. -/
def bigEndian : Nat → Nat → Bytes
  | 0, _ => []
  | k + 1, n => bigEndian k (n / 256) ++ [UInt8.ofNat n]

theorem length_bigEndian (k n : Nat) : (bigEndian k n).length = k := by
  induction k generalizing n with
  | zero => rfl
  | succ k ih => rw [bigEndian, List.length_append, ih, List.length_singleton]

/-- Numbers that fit are determined by their bytes. -/
theorem bigEndian_inj {k n m : Nat} (hn : n < 256 ^ k) (hm : m < 256 ^ k)
    (h : bigEndian k n = bigEndian k m) : n = m := by
  induction k generalizing n m with
  | zero => omega
  | succ k ih =>
      rw [bigEndian, bigEndian] at h
      obtain ⟨hinit, hlast⟩ := List.append_inj' h rfl
      have hdiv : n / 256 = m / 256 := by
        apply ih _ _ hinit
        · rw [Nat.pow_succ, Nat.mul_comm] at hn
          exact Nat.div_lt_of_lt_mul hn
        · rw [Nat.pow_succ, Nat.mul_comm] at hm
          exact Nat.div_lt_of_lt_mul hm
      have hmod : n % 256 = m % 256 := by
        have hbyte := congrArg UInt8.toNat (List.cons.inj hlast).1
        simpa using hbyte
      omega

/-- FNV-1a with 64 bits. -/
def fnv1a (b : Bytes) : UInt64 :=
  b.foldl (fun h x => (h ^^^ x.toUInt64) * 1099511628211) 14695981039346656037

-- the test vector of the authors of the function
example : fnv1a (str "foobar") = 0x85944171f73967e8 := by decide +kernel

namespace Sha256

/-- Rotation to the right, by less than 32 bits and more than none. -/
def rotr (x r : UInt32) : UInt32 := (x >>> r) ||| (x <<< (32 - r))

/-- The constants of the rounds. -/
def roundConstants : List UInt32 :=
  [0x428a2f98, 0x71374491, 0xb5c0fbcf, 0xe9b5dba5, 0x3956c25b, 0x59f111f1, 0x923f82a4, 0xab1c5ed5,
    0xd807aa98, 0x12835b01, 0x243185be, 0x550c7dc3, 0x72be5d74, 0x80deb1fe, 0x9bdc06a7, 0xc19bf174,
    0xe49b69c1, 0xefbe4786, 0x0fc19dc6, 0x240ca1cc, 0x2de92c6f, 0x4a7484aa, 0x5cb0a9dc, 0x76f988da,
    0x983e5152, 0xa831c66d, 0xb00327c8, 0xbf597fc7, 0xc6e00bf3, 0xd5a79147, 0x06ca6351, 0x14292967,
    0x27b70a85, 0x2e1b2138, 0x4d2c6dfc, 0x53380d13, 0x650a7354, 0x766a0abb, 0x81c2c92e, 0x92722c85,
    0xa2bfe8a1, 0xa81a664b, 0xc24b8b70, 0xc76c51a3, 0xd192e819, 0xd6990624, 0xf40e3585, 0x106aa070,
    0x19a4c116, 0x1e376c08, 0x2748774c, 0x34b0bcb5, 0x391c0cb3, 0x4ed8aa4a, 0x5b9cca4f, 0x682e6ff3,
    0x748f82ee, 0x78a5636f, 0x84c87814, 0x8cc70208, 0x90befffa, 0xa4506ceb, 0xbef9a3f7, 0xc67178f2]

/-- The eight words that the blocks are mixed into. -/
structure Words where
  a : UInt32
  b : UInt32
  c : UInt32
  d : UInt32
  e : UInt32
  f : UInt32
  g : UInt32
  h : UInt32

def initial : Words :=
  ⟨0x6a09e667, 0xbb67ae85, 0x3c6ef372, 0xa54ff53a, 0x510e527f, 0x9b05688c, 0x1f83d9ab, 0x5be0cd19⟩

/-- One round, with its constant and its word of the schedule added up. -/
def round (s : Words) (kw : UInt32) : Words :=
  let t1 := s.h + (rotr s.e 6 ^^^ rotr s.e 11 ^^^ rotr s.e 25) +
    ((s.e &&& s.f) ^^^ (~~~s.e &&& s.g)) + kw
  let t2 := (rotr s.a 2 ^^^ rotr s.a 13 ^^^ rotr s.a 22) +
    ((s.a &&& s.b) ^^^ (s.a &&& s.c) ^^^ (s.b &&& s.c))
  ⟨t1 + t2, s.a, s.b, s.c, s.d + t1, s.e, s.f, s.g⟩

/-- The next word of the schedule, from the words so far with the last one first. -/
def nextWord (ws : List UInt32) : UInt32 :=
  let w2 := ws.getD 1 0
  let w15 := ws.getD 14 0
  (rotr w2 17 ^^^ rotr w2 19 ^^^ (w2 >>> 10)) + ws.getD 6 0 +
    (rotr w15 7 ^^^ rotr w15 18 ^^^ (w15 >>> 3)) + ws.getD 15 0

/-- The schedule, with `fuel` more words. -/
def extend : Nat → List UInt32 → List UInt32
  | 0, ws => ws
  | fuel + 1, ws => extend fuel (nextWord ws :: ws)

/-- A big-endian word. -/
def word (b : Bytes) : UInt32 := b.foldl (fun acc x => acc * 256 + x.toUInt32) 0

/-- The 16 words of a block, the last one first. -/
def blockWords (b : Bytes) : List UInt32 :=
  (List.range 16).foldl (fun ws i => word ((b.drop (4 * i)).take 4) :: ws) []

/-- A block mixed into the words. -/
def mix (s : Words) (block : Bytes) : Words :=
  let ws := (extend 48 (blockWords block)).reverse
  let t := (roundConstants.zipWith (· + ·) ws).foldl round s
  ⟨s.a + t.a, s.b + t.b, s.c + t.c, s.d + t.d, s.e + t.e, s.f + t.f, s.g + t.g, s.h + t.h⟩

/-- The message with its padding: a one bit, zero bits, and the length in bits. -/
def pad (b : Bytes) : Bytes :=
  b ++ 0x80 :: List.replicate ((119 - b.length % 64) % 64) 0 ++ bigEndian 8 (8 * b.length)

/-- All blocks of a padded message. -/
def mixAll : Nat → Words → Bytes → Words
  | 0, s, _ => s
  | fuel + 1, s, b => if b.isEmpty then s else mixAll fuel (mix s (b.take 64)) (b.drop 64)

/-- The bytes of the words. -/
def Words.bytes (s : Words) : Bytes :=
  [s.a, s.b, s.c, s.d, s.e, s.f, s.g, s.h].flatMap fun w => bigEndian 4 w.toNat

/-- The digest of a byte string. -/
def sum256 (b : Bytes) : Bytes := (mixAll (b.length / 64 + 2) initial (pad b)).bytes

theorem length_sum256 (b : Bytes) : (sum256 b).length = 32 := by
  simp [sum256, Words.bytes, length_bigEndian]

-- the test vectors of the standard, of one block and of two
example : sum256 (str "abc") =
    [0xba, 0x78, 0x16, 0xbf, 0x8f, 0x01, 0xcf, 0xea, 0x41, 0x41, 0x40, 0xde,
    0x5d, 0xae, 0x22, 0x23, 0xb0, 0x03, 0x61, 0xa3, 0x96, 0x17, 0x7a, 0x9c, 0xb4, 0x10, 0xff, 0x61,
    0xf2, 0x00, 0x15, 0xad] := by
  decide +kernel
example : sum256 (str "abcdbcdecdefdefgefghfghighijhijkijkljklmklmnlmnomnopnopq") =
    [0x24, 0x8d, 0x6a, 0x61, 0xd2, 0x06, 0x38, 0xb8, 0xe5, 0xc0, 0x26, 0x93, 0x0c, 0x3e, 0x60, 0x39,
      0xa3, 0x3c, 0xe4, 0x59, 0x64, 0xff, 0x21, 0x67, 0xf6, 0xec, 0xed, 0xd4, 0x19, 0xdb, 0x06,
      0xc1] := by
  decide +kernel

end Sha256

end Hapartition.Lib
