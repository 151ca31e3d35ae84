import Mathlib.Data.List.Perm.Subperm
import Mathlib.Data.List.Rotate
import Mathlib.Data.List.Sort
import Mathlib.Order.Basic

/-!
# Walking a circle of labelled points

Points carry a position in a linear order. `clockwise pos h l` lists the points from position `h`
upwards and then those below it. On a list sorted by position it is the rotation of the list that
starts at the first position `≥ h` (`drop_append_take_eq_clockwise`), and it commutes with deleting
points (`clockwise_filter`).

`distinctOn f` keeps the first point for every label. It commutes with deleting all points of some
labels (`distinctOn_filter`), so deleting labels from a circle deletes them from the order in which
a walk meets the labels and moves nothing else. While fewer labels are deleted than a prefix of the
walk has, the first label left is in that prefix (`exists_mem_not_mem`, `exists_head?_filter`).
-/

set_option autoImplicit false

namespace Hapartition.Lib

universe u v w

/-! ## Clockwise order -/

section Clockwise

variable {α : Type u} {κ : Type v} [LinearOrder κ]

/-- The points from `h` upwards, then the points below `h`. -/
def clockwise (pos : α → κ) (h : κ) (l : List α) : List α :=
  l.filter (fun a => decide (h ≤ pos a)) ++ l.filter (fun a => decide (pos a < h))

variable {pos : α → κ} {h : κ} {l : List α}

theorem mem_clockwise {a : α} : a ∈ clockwise pos h l ↔ a ∈ l := by
  simp only [clockwise, List.mem_append, List.mem_filter, decide_eq_true_eq, ← and_or_left,
    and_iff_left_iff_imp]
  intro _
  exact le_or_gt h (pos a)

theorem clockwise_filter (p : α → Bool) :
    clockwise pos h (l.filter p) = (clockwise pos h l).filter p := by
  simp only [clockwise, List.filter_append, List.filter_filter, Bool.and_comm]

theorem clockwise_eq_nil_iff : clockwise pos h l = [] ↔ l = [] := by
  constructor
  · intro hc
    apply List.eq_nil_iff_forall_not_mem.2
    intro a ha
    have hmem : a ∈ clockwise pos h l := mem_clockwise.2 ha
    rw [hc] at hmem
    simp at hmem
  · rintro rfl
    rfl

/-- A list split at an index into points below `h` and points from `h` on. -/
theorem drop_append_take_eq_clockwise {i : Nat}
    (hlo : ∀ k, k < i → ∀ a, l[k]? = some a → pos a < h)
    (hhi : ∀ k, i ≤ k → ∀ a, l[k]? = some a → h ≤ pos a) :
    l.drop i ++ l.take i = clockwise pos h l := by
  have htake : ∀ a ∈ l.take i, pos a < h := by
    intro a ha
    obtain ⟨k, hk⟩ := List.mem_iff_getElem?.1 ha
    rw [List.getElem?_take] at hk
    split at hk
    · next hki => exact hlo k hki a hk
    · simp at hk
  have hdrop : ∀ a ∈ l.drop i, h ≤ pos a := by
    intro a ha
    obtain ⟨k, hk⟩ := List.mem_iff_getElem?.1 ha
    rw [List.getElem?_drop] at hk
    exact hhi (i + k) (Nat.le_add_right i k) a hk
  have hup : l.filter (fun a => decide (h ≤ pos a)) = l.drop i := by
    conv_lhs => rw [← List.take_append_drop i l, List.filter_append]
    rw [List.filter_eq_nil_iff.2 fun a ha => by simpa using htake a ha,
      List.filter_eq_self.2 fun a ha => by simpa using hdrop a ha, List.nil_append]
  have hdown : l.filter (fun a => decide (pos a < h)) = l.take i := by
    conv_lhs => rw [← List.take_append_drop i l, List.filter_append]
    rw [List.filter_eq_self.2 fun a ha => by simpa using htake a ha,
      List.filter_eq_nil_iff.2 fun a ha => by simpa using hdrop a ha, List.append_nil]
  rw [clockwise, hup, hdown]

/-- On a sorted list the walk starts at the nearest point at or above `h`, if there is one. -/
theorem head?_clockwise (hs : l.Pairwise fun a b => pos a ≤ pos b) {b : α} (hb : b ∈ l)
    (hbh : h ≤ pos b) :
    ∃ a, (clockwise pos h l).head? = some a ∧ a ∈ l ∧ h ≤ pos a ∧ pos a ≤ pos b := by
  have hbf : b ∈ l.filter (fun a => decide (h ≤ pos a)) :=
    List.mem_filter.2 ⟨hb, decide_eq_true hbh⟩
  obtain ⟨a, rest, hl⟩ := List.exists_cons_of_ne_nil (List.ne_nil_of_mem hbf)
  have ha : a ∈ l.filter (fun a => decide (h ≤ pos a)) := hl ▸ List.mem_cons_self
  have hsf := hs.filter (fun a => decide (h ≤ pos a))
  rw [hl] at hsf hbf
  obtain ⟨hal, hah⟩ := List.mem_filter.1 ha
  -- the first point at or above `h` heads the walk, and in a sorted list it is the lowest of them
  refine ⟨a, ?_, hal, of_decide_eq_true hah, ?_⟩
  · rw [clockwise, hl]
    rfl
  · rcases List.mem_cons.1 hbf with rfl | hbr
    · exact le_rfl
    · exact List.rel_of_pairwise_cons hsf hbr

end Clockwise

/-! ## First occurrences -/

section Distinct

variable {α : Type u} {β : Type w} [DecidableEq β]

/-- The first element of every label, in order. -/
def distinctOn (f : α → β) : List α → List α
  | [] => []
  | a :: l => a :: (distinctOn f l).filter fun b => decide (f b ≠ f a)

variable {f : α → β}

theorem distinctOn_sublist (l : List α) : (distinctOn f l).Sublist l := by
  induction l with
  | nil => exact List.Sublist.refl _
  | cons a l ih => exact (List.filter_sublist.trans ih).cons_cons a

theorem nodup_map_distinctOn (l : List α) : ((distinctOn f l).map f).Nodup := by
  induction l with
  | nil => exact List.nodup_nil
  | cons a l ih =>
      rw [distinctOn, List.map_cons, List.nodup_cons]
      refine ⟨?_, ih.sublist (List.filter_sublist.map f)⟩
      simp only [List.mem_map, List.mem_filter, decide_eq_true_eq, not_exists, not_and]
      rintro b ⟨-, hb⟩ hba
      exact hb hba

/-- No label is lost. -/
theorem mem_map_distinctOn {x : β} {l : List α} : x ∈ (distinctOn f l).map f ↔ x ∈ l.map f := by
  induction l with
  | nil => exact Iff.rfl
  | cons a l ih =>
      rw [distinctOn, List.map_cons, List.map_cons, List.mem_cons, List.mem_cons, ← ih]
      by_cases hx : x = f a
      · simp [hx]
      · -- another label: nothing of it is deleted behind `a`
        apply or_congr_right
        rw [List.mem_map, List.mem_map]
        constructor
        · rintro ⟨b, hb, rfl⟩
          exact ⟨b, (List.mem_filter.1 hb).1, rfl⟩
        · rintro ⟨b, hb, rfl⟩
          exact ⟨b, List.mem_filter.2 ⟨hb, decide_eq_true hx⟩, rfl⟩

/-- Deleting labels commutes with keeping first occurrences. -/
theorem distinctOn_filter (p : β → Bool) (l : List α) :
    distinctOn f (l.filter fun a => p (f a)) = (distinctOn f l).filter fun a => p (f a) := by
  induction l with
  | nil => rfl
  | cons a l ih =>
      by_cases hp : p (f a) = true
      · simp only [List.filter_cons, hp, if_true, distinctOn, ih, List.filter_filter]
        congr 1
        exact List.filter_congr fun b _ => Bool.and_comm _ _
      · -- `a` goes, and so do all points of its label: whether its later copies had been dropped
        -- before makes no difference
        simp only [List.filter_cons, hp, Bool.false_eq_true, if_false, distinctOn, ih,
          List.filter_filter]
        apply List.filter_congr
        intro b _
        by_cases hb : f b = f a
        · simp [hb, hp]
        · simp [hb]

/-- With distinct labels, deleting one label from a prefix that is longer by one leaves as much as
deleting it from the whole list. -/
theorem take_filter_take_succ {l : List α} (hl : (l.map f).Nodup) (x : β) (k : Nat) :
    ((l.take (k + 1)).filter fun a => decide (f a ≠ x)).take k =
      (l.filter fun a => decide (f a ≠ x)).take k := by
  induction l generalizing k with
  | nil => rfl
  | cons a l ih =>
      rw [List.map_cons, List.nodup_cons] at hl
      rw [List.take_succ_cons]
      by_cases ha : f a = x
      · -- the label is gone from here on, so nothing else is deleted
        have hrest : ∀ b ∈ l, decide (f b ≠ x) = true := by
          intro b hb
          apply decide_eq_true
          rintro rfl
          exact hl.1 (ha ▸ List.mem_map_of_mem hb)
        rw [List.filter_cons_of_neg (by simpa using ha),
          List.filter_cons_of_neg (by simpa using ha),
          List.filter_eq_self.2 fun b hb => hrest b (List.mem_of_mem_take hb),
          List.filter_eq_self.2 hrest, List.take_take, min_self]
      · rw [List.filter_cons_of_pos (by simpa using ha),
          List.filter_cons_of_pos (by simpa using ha)]
        cases k with
        | zero => rfl
        | succ k => rw [List.take_succ_cons, List.take_succ_cons, ih hl.2]

end Distinct

/-! ## Survivors -/

section Survivors

variable {α : Type u}

/-- Fewer elements than a list without repetitions has cannot cover it. -/
theorem exists_mem_not_mem {l F : List α} (hl : l.Nodup) (h : F.length < l.length) :
    ∃ a ∈ l, a ∉ F := by
  by_contra hno
  push Not at hno
  have hsub : l.Subperm F := List.subperm_of_subset hl hno
  exact absurd hsub.length_le (by omega)

/-- The first survivor of a list is in every prefix that has a survivor. -/
theorem exists_head?_filter {l : List α} {p : α → Bool} {k : Nat} (h : ∃ a ∈ l.take k, p a = true) :
    ∃ b ∈ l.take k, (l.filter p).head? = some b ∧ p b = true := by
  obtain ⟨a, ha, hpa⟩ := h
  have hmem : a ∈ (l.take k).filter p := List.mem_filter.2 ⟨ha, hpa⟩
  obtain ⟨b, rest, hb⟩ := List.exists_cons_of_ne_nil (List.ne_nil_of_mem hmem)
  have hb' : b ∈ (l.take k).filter p := hb ▸ List.mem_cons_self
  obtain ⟨hbt, hpb⟩ := List.mem_filter.1 hb'
  refine ⟨b, hbt, ?_, hpb⟩
  conv_lhs => rw [← List.take_append_drop k l, List.filter_append, hb]
  rfl

end Survivors

end Hapartition.Lib
