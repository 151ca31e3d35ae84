import Mathlib.Data.Nat.Bitwise
import Mathlib.Order.Bounds.Basic

/-!
# Spreading bits downwards

Taking the bitwise or of a number with itself shifted to the right spreads its bits over the places
below them. `Spread w x y` says that `y` has a bit wherever `x` has one among the next `w` places;
each turn of or and shift doubles `w` (`Spread.or_shiftRight`). The number that results is one below
a power of two exactly if `x` has no gap of `w` places below its highest bit
(`Spread.isPowerOfTwo_iff`), which numbers below `2 ^ w` cannot have (`noGap_of_lt`). It is then the
least power of two above `x` (`Spread.isLeast_iff`).
-/

set_option autoImplicit false

namespace Hapartition.Lib

variable {w x y : Nat}

/-- `y` has the bits of `x`, spread over `w` places. -/
def Spread (w x y : Nat) : Prop :=
  ∀ j, y.testBit j = true ↔ ∃ d < w, x.testBit (j + d) = true

/-- Below every bit of `x`, any `w` consecutive places hold a bit. -/
def NoGap (w x : Nat) : Prop :=
  ∀ i j, j ≤ i → x.testBit i = true → ∃ d < w, x.testBit (j + d) = true

theorem Spread.refl (x : Nat) : Spread 1 x x := by
  intro j
  constructor
  · intro h
    exact ⟨0, Nat.one_pos, h⟩
  · rintro ⟨d, hd, h⟩
    rwa [Nat.lt_one_iff.1 hd] at h

theorem Spread.or_shiftRight (h : Spread w x y) : Spread (2 * w) x (y ||| y >>> w) := by
  intro j
  rw [Nat.testBit_or, Nat.testBit_shiftRight, Bool.or_eq_true, h j, h (w + j)]
  constructor
  · rintro (⟨d, hd, hbit⟩ | ⟨d, hd, hbit⟩)
    · exact ⟨d, by omega, hbit⟩
    · refine ⟨w + d, by omega, ?_⟩
      rwa [← Nat.add_assoc, Nat.add_comm j w]
  · rintro ⟨d, hd, hbit⟩
    by_cases hlow : d < w
    · exact .inl ⟨d, hlow, hbit⟩
    · refine .inr ⟨d - w, by omega, ?_⟩
      have hplace : w + j + (d - w) = j + d := by omega
      rwa [hplace]

/-- A number is one below a power of two if its bits have no gap at all. -/
theorem isPowerOfTwo_succ_iff :
    (y + 1).isPowerOfTwo ↔ ∀ i j, j ≤ i → y.testBit i = true → y.testBit j = true := by
  constructor
  · rintro ⟨k, hk⟩ i j hij
    have hy : y = 2 ^ k - 1 := by omega
    rw [hy, Nat.testBit_two_pow_sub_one, Nat.testBit_two_pow_sub_one, decide_eq_true_eq,
      decide_eq_true_eq]
    omega
  · intro h
    by_cases hzero : y = 0
    · rw [hzero]
      exact ⟨0, rfl⟩
    · -- every bit up to the highest one is set
      obtain ⟨top, htop, habove⟩ := Nat.exists_most_significant_bit hzero
      have hy : y = 2 ^ (top + 1) - 1 := by
        apply Nat.eq_of_testBit_eq
        intro j
        rw [Nat.testBit_two_pow_sub_one]
        by_cases hj : j ≤ top
        · rw [h top j hj htop, decide_eq_true (by omega)]
        · rw [habove j (by omega), decide_eq_false (by omega)]
      have hpos := Nat.two_pow_pos (top + 1)
      exact ⟨top + 1, by omega⟩

theorem Spread.isPowerOfTwo_iff (h : Spread w x y) (hw : 0 < w) :
    (y + 1).isPowerOfTwo ↔ NoGap w x := by
  rw [isPowerOfTwo_succ_iff]
  constructor
  · intro hdown i j hij hbit
    exact (h j).1 (hdown i j hij ((h i).2 ⟨0, hw, hbit⟩))
  · intro hgap i j hij hbit
    obtain ⟨d, -, hx⟩ := (h i).1 hbit
    exact (h j).2 (hgap (i + d) j (by omega) hx)

/-- Numbers without a gap have nothing to spread. -/
theorem Spread.eq_of_isPowerOfTwo (h : Spread w x y) (hw : 0 < w) (hx : (x + 1).isPowerOfTwo) :
    y = x := by
  apply Nat.eq_of_testBit_eq
  intro j
  rw [Bool.eq_iff_iff, h j]
  constructor
  · rintro ⟨d, -, hbit⟩
    exact isPowerOfTwo_succ_iff.1 hx (j + d) j (Nat.le_add_right j d) hbit
  · intro hbit
    exact ⟨0, hw, hbit⟩

theorem Spread.eq_zero (h : Spread w x 0) (hw : 0 < w) : x = 0 := by
  by_contra hne
  obtain ⟨top, htop, -⟩ := Nat.exists_most_significant_bit hne
  have hbit := (h top).2 ⟨0, hw, htop⟩
  rw [Nat.zero_testBit] at hbit
  cases hbit

/-- No bit is lost. -/
theorem Spread.le (h : Spread w x y) (hw : 0 < w) : x ≤ y := by
  have hor : x ||| y = y := by
    apply Nat.eq_of_testBit_eq
    intro j
    rw [Nat.testBit_or, Bool.or_eq_right_iff_imp]
    intro hbit
    exact (h j).2 ⟨0, hw, hbit⟩
  rw [← hor]
  exact Nat.left_le_or

/-- No bit is set above the highest one. -/
theorem Spread.lt_two_pow (h : Spread w x y) {k : Nat} (hx : x < 2 ^ k) : y < 2 ^ k := by
  apply Nat.lt_pow_two_of_testBit
  intro i hi
  rw [← Bool.not_eq_true, h i]
  rintro ⟨d, -, hbit⟩
  have hpow : 2 ^ k ≤ 2 ^ (i + d) := Nat.pow_le_pow_right (by decide) (by omega)
  have hbits := Nat.ge_two_pow_of_testBit hbit
  omega

/-- The spread number is one below the least power of two above `x`, unless it is one below no power
of two at all. -/
theorem Spread.isLeast_iff (h : Spread w x y) (hw : 0 < w) :
    IsLeast {p : Nat | p.isPowerOfTwo ∧ x < p} (y + 1) ↔ NoGap w x := by
  rw [← h.isPowerOfTwo_iff hw]
  constructor
  · intro hleast
    exact hleast.1.1
  · intro hpow
    refine ⟨⟨hpow, Nat.lt_succ_of_le (h.le hw)⟩, ?_⟩
    rintro p ⟨⟨k, rfl⟩, hlt⟩
    exact h.lt_two_pow hlt

theorem noGap_of_lt (h : x < 2 ^ w) : NoGap w x := by
  intro i j hij hbit
  have hi : i < w := by
    by_contra hge
    have hpow : 2 ^ w ≤ 2 ^ i := Nat.pow_le_pow_right (by decide) (by omega)
    have hbits := Nat.ge_two_pow_of_testBit hbit
    omega
  refine ⟨i - j, by omega, ?_⟩
  rwa [Nat.add_sub_cancel' hij]

end Hapartition.Lib
