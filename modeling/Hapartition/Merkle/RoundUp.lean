import Hapartition.Lib.Bits
import Hapartition.Merkle.Tree

/-!
# Rounding up

`roundUpPowerOfTwo` spreads the bits of `n - 1` over 32 places, which is enough for every number
with at most 32 bits, but leaves a gap in some larger ones. `roundUpPowerOfTwo_isLeast_iff` says for
which numbers the result is the least power of two that is not below `n`.
-/

set_option autoImplicit false

namespace Hapartition.Merkle

open Lib

theorem toInt_or_shiftRight {x w : Int64} {m k : Nat} (hx : x.toInt = m)
    (hw : (w.toBitVec.smod 64).toNat = k) : (x ||| (x >>> w)).toInt = (m ||| m >>> k : Nat) := by
  have hmsb : x.toBitVec.msb = false := by
    rw [BitVec.msb_eq_toInt, decide_eq_false_iff_not]
    have hint : x.toBitVec.toInt = x.toInt := rfl
    omega
  have hnat : x.toBitVec.toNat = m := by
    have hint : x.toInt = x.toBitVec.toInt := rfl
    rw [BitVec.toInt_eq_toNat_of_msb hmsb, hx] at hint
    omega
  have hbits : (x ||| (x >>> w)).toBitVec = x.toBitVec ||| (x.toBitVec >>> k) := by
    rw [Int64.toBitVec_or, Int64.toBitVec_shiftRight, BitVec.sshiftRight_eq', hw,
      BitVec.sshiftRight_eq_of_msb_false hmsb]
  have hmsb' : (x ||| (x >>> w)).toBitVec.msb = false := by
    rw [BitVec.msb_eq_false_iff_two_mul_lt] at hmsb ⊢
    rw [hbits, BitVec.toNat_or, BitVec.toNat_ushiftRight]
    have hshift : x.toBitVec.toNat >>> k ≤ x.toBitVec.toNat := Nat.shiftRight_le _ _
    have hor : x.toBitVec.toNat ||| x.toBitVec.toNat >>> k < 2 ^ 63 :=
      Nat.or_lt_two_pow (by omega) (by omega)
    omega
  show (x ||| (x >>> w)).toBitVec.toInt = _
  rw [BitVec.toInt_eq_toNat_of_msb hmsb', hbits, BitVec.toNat_or, BitVec.toNat_ushiftRight, hnat]

/-- The five turns of or and shift spread the bits over 32 places. -/
theorem roundUpPowerOfTwo_eq {n : Int64} {m : Nat} (hn : n.toInt = m + 1) :
    ∃ (s : Int64) (y : Nat), roundUpPowerOfTwo n = s + 1 ∧ s.toInt = y ∧ Spread 32 m y := by
  have hpos : ¬ n ≤ 0 := by
    rw [Int64.le_iff_toInt_le, Int64.toInt_zero]
    omega
  have h0 : (n - 1).toInt = m := by
    rw [toInt_sub_one (by omega)]
    omega
  have h1 := toInt_or_shiftRight (w := 1) h0 rfl
  have h2 := toInt_or_shiftRight (w := 2) h1 rfl
  have h3 := toInt_or_shiftRight (w := 4) h2 rfl
  have h4 := toInt_or_shiftRight (w := 8) h3 rfl
  have h5 := toInt_or_shiftRight (w := 16) h4 rfl
  exact ⟨_, _, if_neg hpos, h5,
    (Spread.refl m).or_shiftRight.or_shiftRight.or_shiftRight.or_shiftRight.or_shiftRight⟩

/-- Up to `2 ^ 62` the addition at the end does not wrap. -/
theorem toInt_roundUpPowerOfTwo {n : Int64} {m : Nat} (hn : n.toInt = m + 1) (hm : m < 2 ^ 62) :
    ∃ y, Spread 32 m y ∧ (roundUpPowerOfTwo n).toInt = y + 1 := by
  obtain ⟨s, y, hround, hs, hspread⟩ := roundUpPowerOfTwo_eq hn
  have hy := hspread.lt_two_pow hm
  have hmaxValue : Int64.maxValue.toInt = 2 ^ 63 - 1 := by decide
  refine ⟨y, hspread, ?_⟩
  rw [hround, toInt_add_one (by omega), hs]

/-- The powers of two that are not below `n`. -/
def powersFrom (n : Int64) : Set Nat := {p | p.isPowerOfTwo ∧ n.toInt ≤ p}

/-- **Rounding up.** For `n` from 1 to `2 ^ 62` the result is the least power of two that is not
below `n`, exactly if `n - 1` does not have 32 zero bits in a row below a bit that is set. -/
theorem roundUpPowerOfTwo_isLeast_iff {n : Int64} (hpos : 1 ≤ n.toInt) (hmax : n.toInt ≤ 2 ^ 62) :
    (∃ p : Nat, (roundUpPowerOfTwo n).toInt = p ∧ IsLeast (powersFrom n) p) ↔
      NoGap 32 (n - 1).toInt.toNat := by
  obtain ⟨m, hm⟩ : ∃ m : Nat, n.toInt = m + 1 := ⟨(n.toInt - 1).toNat, by omega⟩
  have hpred : (n - 1).toInt.toNat = m := by
    rw [toInt_sub_one hpos]
    omega
  have hpowers : powersFrom n = {p : Nat | p.isPowerOfTwo ∧ m < p} := by
    ext p
    apply and_congr_right
    intro _
    omega
  obtain ⟨y, hspread, hround⟩ := toInt_roundUpPowerOfTwo hm (by omega)
  rw [hpred, hpowers, ← hspread.isLeast_iff (by decide), hround]
  constructor
  · rintro ⟨p, hp, hleast⟩
    obtain rfl : p = y + 1 := by omega
    exact hleast
  · intro hleast
    exact ⟨y + 1, rfl, hleast⟩

/-- A thousand is rounded up to 1024. -/
theorem roundUpPowerOfTwo_isLeast_thousand :
    ∃ p : Nat, (roundUpPowerOfTwo 1000).toInt = p ∧ IsLeast (powersFrom 1000) p :=
  (roundUpPowerOfTwo_isLeast_iff (by decide) (by decide)).2 (noGap_of_lt (by decide))

/-- A number just above `2 ^ 32`: the one bit of its predecessor is spread over 32 places, which
leaves the lowest place empty. -/
theorem roundUpPowerOfTwo_gap :
    (4294967297 : Int64).toInt ≤ 2 ^ 62 ∧ (roundUpPowerOfTwo 4294967297).toInt = 8589934591 ∧
      ¬ ∃ p : Nat, (roundUpPowerOfTwo 4294967297).toInt = p ∧
        IsLeast (powersFrom 4294967297) p := by
  have hround : (roundUpPowerOfTwo 4294967297).toInt = 8589934591 := by decide
  refine ⟨by decide, hround, ?_⟩
  rintro ⟨p, hp, hleast⟩
  obtain ⟨k, hk⟩ := hleast.1.1
  rcases Nat.lt_or_ge k 33 with hlt | hge
  · have hpow : 2 ^ k ≤ 2 ^ 32 := Nat.pow_le_pow_right (by decide) (by omega)
    omega
  · have hpow : 2 ^ 33 ≤ 2 ^ k := Nat.pow_le_pow_right (by decide) hge
    omega

end Hapartition.Merkle
