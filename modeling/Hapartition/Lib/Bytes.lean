import Mathlib.Data.List.Lex

/-!
# Byte strings and machine integers

A Go `string` is a finite sequence of bytes with no encoding constraint, compared byte by byte.
This file fixes the carrier `Bytes`, the bytes of a text literal (`str`), and the linear orders on
`UInt8`, `UInt64` and `Int64` that the comparisons of these types denote. The order on `Bytes` is
the lexicographic order of Mathlib over the order on bytes; the keys of maps come in this order
(`compare_eq_lt_iff`).
-/

set_option autoImplicit false

namespace Hapartition.Lib

/-- A byte string. -/
abbrev Bytes := List UInt8

/-- The bytes of a text literal. -/
def str (s : String) : Bytes := s.toUTF8.data.toList

instance linearOrderUInt8 : LinearOrder UInt8 where
  le_refl := UInt8.le_refl
  le_trans _ _ _ := UInt8.le_trans
  le_antisymm _ _ := UInt8.le_antisymm
  le_total := UInt8.le_total
  lt_iff_le_not_ge a b := by
    simp only [UInt8.le_iff_toNat_le, UInt8.lt_iff_toNat_lt]
    omega
  toDecidableLE := inferInstance

instance linearOrderUInt64 : LinearOrder UInt64 where
  le_refl := UInt64.le_refl
  le_trans _ _ _ := UInt64.le_trans
  le_antisymm _ _ := UInt64.le_antisymm
  le_total := UInt64.le_total
  lt_iff_le_not_ge a b := by
    simp only [UInt64.le_iff_toNat_le, UInt64.lt_iff_toNat_lt]
    omega
  toDecidableLE := inferInstance

instance linearOrderInt64 : LinearOrder Int64 where
  le_refl := Int64.le_refl
  le_trans _ _ _ := Int64.le_trans
  le_antisymm _ _ := Int64.le_antisymm
  le_total := Int64.le_total
  lt_iff_le_not_ge a b := by
    simp only [Int64.le_iff_toInt_le, Int64.lt_iff_toInt_lt]
    omega
  toDecidableLE := inferInstance

/-- Up to the maximum, wrapping addition is addition of integers. -/
theorem toInt_add_ofNat {c : Int64} {n : Nat} (h : c.toInt + n ≤ Int64.maxValue.toInt) :
    (c + Int64.ofNat n).toInt = c.toInt + n := by
  have hlo := c.le_toInt
  have hmax : Int64.maxValue.toInt = 2 ^ 63 - 1 := by decide
  have hn : (Int64.ofNat n).toInt = (n : Int).bmod (2 ^ 64) := Int64.toInt_ofNat'
  rw [Int64.toInt_add, hn, Int.add_bmod_bmod]
  exact Int.bmod_eq_of_le (by omega) (by omega)

theorem toInt_add_one {c : Int64} (h : c.toInt + 1 ≤ Int64.maxValue.toInt) :
    (c + 1).toInt = c.toInt + 1 :=
  toInt_add_ofNat (n := 1) h

theorem add_one_add_ofNat (c : Int64) (n : Nat) :
    c + 1 + Int64.ofNat n = c + Int64.ofNat (n + 1) := by
  rw [Int64.ofNat_add, Int64.add_assoc, Int64.add_comm 1]
  rfl

theorem toInt_pos {n : Int64} (h : ¬ n ≤ 0) : 0 < n.toInt := by
  rw [not_le, Int64.lt_iff_toInt_lt, Int64.toInt_zero] at h
  exact h

theorem toNat_toUInt64 {n : Int64} (h : 0 ≤ n.toInt) : n.toUInt64.toNat = n.toInt.toNat := by
  have hcond := n.toBitVec.toInt_eq_toNat_cond
  have hlt := n.toBitVec.isLt
  have hint : n.toInt = n.toBitVec.toInt := rfl
  have hnat : n.toUInt64.toNat = n.toBitVec.toNat := rfl
  omega

theorem toInt_toInt64 {n : UInt64} (h : n.toNat < 9223372036854775808) :
    n.toInt64.toInt = n.toNat := by
  have hcond := n.toBitVec.toInt_eq_toNat_cond
  have hint : n.toInt64.toInt = n.toBitVec.toInt := rfl
  have hnat : n.toNat = n.toBitVec.toNat := rfl
  omega

theorem toInt_sub_one {n : Int64} (h : 1 ≤ n.toInt) : (n - 1).toInt = n.toInt - 1 := by
  have hhi := n.toInt_lt
  have hone : (1 : Int64).toInt = 1 := by decide
  rw [Int64.toInt_sub, hone]
  exact Int.bmod_eq_of_le (by omega) (by omega)

/-- The comparison that orders the keys of a map is the lexicographic order. -/
theorem compare_eq_lt_iff {a b : Bytes} : compare a b = .lt ↔ a < b := by
  show List.compareLex compare a b = .lt ↔ a < b
  induction a generalizing b with
  | nil =>
      cases b with
      | nil => simp [List.compareLex]
      | cons y b => simp [List.compareLex]
  | cons x a ih =>
      cases b with
      | nil => simp [List.compareLex]
      | cons y b =>
          rw [List.cons_lt_cons_iff, ← ih, List.compareLex, ← Std.compare_eq_lt,
            ← Std.compare_eq_iff_eq (a := x)]
          cases compare x y with
          | lt => simp
          | eq => simp
          | gt => simp

/-- The cut of a list at the first occurrence of `a` is unique. -/
theorem append_cons_inj_of_notMem {α : Type*} {a : α} {l l' r r' : List α} (hl : a ∉ l)
    (hl' : a ∉ l') (h : l ++ a :: r = l' ++ a :: r') : l = l' ∧ r = r' := by
  induction l generalizing l' with
  | nil =>
      cases l' with
      | nil => exact ⟨rfl, (List.cons.inj h).2⟩
      | cons b l' => exact absurd ((List.cons.inj h).1 ▸ List.mem_cons_self) hl'
  | cons b l ih =>
      cases l' with
      | nil => exact absurd ((List.cons.inj h).1 ▸ List.mem_cons_self) hl
      | cons c l' =>
          obtain ⟨rfl, htail⟩ := List.cons.inj h
          obtain ⟨rfl, hr⟩ := ih (fun hm => hl (List.mem_cons_of_mem _ hm))
            (fun hm => hl' (List.mem_cons_of_mem _ hm)) htail
          exact ⟨rfl, hr⟩

/-- A list that is longer than what precedes the first `a` goes on with `a`. -/
theorem eq_takeWhile_append_of_length_lt {α : Type*} [DecidableEq α] {a : α} {l : List α}
    (h : (l.takeWhile (fun b => decide (b ≠ a))).length < l.length) :
    ∃ tail, l = l.takeWhile (fun b => decide (b ≠ a)) ++ a :: tail := by
  have hcut := List.takeWhile_append_dropWhile (p := fun b => decide (b ≠ a)) (l := l)
  cases hdrop : l.dropWhile (fun b => decide (b ≠ a)) with
  | nil =>
      rw [hdrop, List.append_nil] at hcut
      rw [hcut] at h
      exact absurd h (Nat.lt_irrefl _)
  | cons b tail =>
      have hb : b = a := by
        have hhead := List.head?_dropWhile_not (fun b => decide (b ≠ a)) l
        rw [hdrop] at hhead
        simpa using hhead
      rw [hdrop, hb] at hcut
      exact ⟨tail, hcut.symm⟩

end Hapartition.Lib
