import Mathlib.Data.List.Basic
import Mathlib.Algebra.BigOperators.Group.Finset.Piecewise

/-!
# Slices with checked indices

Slices of a language that checks indices and lengths at run time: reading and writing a place,
allocation, and slicing, in `Except Panic`, and copying. Loops are folds: `foldlM_elements` is the
rule for a loop over the elements of a list, with an invariant about the elements met so far,
`foldlM_range` and `foldlM_range_reverse` are those for a loop over indices. `sum_length_filter`
counts a list by the classes of a function.
-/

set_option autoImplicit false

namespace Hapartition.Lib

universe u v w

/-- What stops a program at run time. -/
inductive Panic where
  | divideByZero
  | indexOutOfRange
  | makeSlice
  deriving DecidableEq, Repr

variable {α : Type u}

/-- `l[i]`. -/
def getAt (l : List α) (i : Int) : Except Panic α :=
  if i < 0 then .error .indexOutOfRange
  else
    match l[i.toNat]? with
    | none => .error .indexOutOfRange
    | some x => .ok x

/-- The slice after `l[i] = x`. -/
def setAt (l : List α) (i : Int) (x : α) : Except Panic (List α) :=
  if i < 0 ∨ (l.length : Int) ≤ i then .error .indexOutOfRange else .ok (l.set i.toNat x)

/-- `make`, for a length that may be negative, where `fits` says what can be allocated. -/
def makeSlice (fits : Nat → Bool) (length : Int) (x : α) : Except Panic (List α) :=
  if length < 0 ∨ ¬ fits length.toNat then .error .makeSlice
  else .ok (List.replicate length.toNat x)

/-- The capacities that can be allocated; with a capacity all smaller ones. -/
structure Allocator where
  fits : Nat → Bool
  fits_of_le : ∀ {m n : Nat}, m ≤ n → fits n = true → fits m = true

/-- Capacities up to a bound. -/
def Allocator.upTo (bound : Nat) : Allocator where
  fits n := decide (n ≤ bound)
  fits_of_le hle h := decide_eq_true (hle.trans (of_decide_eq_true h))

/-- `make` of an empty slice with a capacity. -/
def makeCapacity (A : Allocator) (capacity : Int) : Except Panic (List α) :=
  if capacity < 0 ∨ ¬ A.fits capacity.toNat then .error .makeSlice else .ok []

/-- `l[lo:hi]`, for a slice whose capacity is its length. -/
def slice (l : List α) (lo hi : Int) : Except Panic (List α) :=
  if lo < 0 ∨ hi < lo ∨ (l.length : Int) < hi then .error .indexOutOfRange
  else .ok ((l.take hi.toNat).drop lo.toNat)

/-- `copy`: the destination afterwards, and the number of elements copied. -/
def copySlice (dst src : List α) : List α × Nat :=
  (src.take dst.length ++ dst.drop src.length, min dst.length src.length)

theorem getAt_natCast {l : List α} {i : Nat} (h : i < l.length) (d : α) :
    getAt l (i : Int) = .ok (l.getD i d) := by
  simp [getAt, h]

theorem setAt_natCast {l : List α} {i : Nat} (h : i < l.length) (x : α) :
    setAt l (i : Int) x = .ok (l.set i x) := by
  have hin : ¬ ((i : Int) < 0 ∨ (l.length : Int) ≤ i) := by omega
  rw [setAt, if_neg hin, Int.toNat_natCast]

theorem getD_set {l : List α} {i : Nat} (h : i < l.length) (x d : α) (j : Nat) :
    (l.set i x).getD j d = if i = j then x else l.getD j d := by
  rw [List.getD_eq_getElem?_getD, List.getD_eq_getElem?_getD, List.getElem?_set]
  by_cases hj : i = j
  · simp [hj, hj ▸ h]
  · simp [hj]

theorem makeSlice_eq_ok {fits : Nat → Bool} {length : Int} {x : α} {l : List α}
    (h : makeSlice fits length x = .ok l) :
    0 ≤ length ∧ fits length.toNat = true ∧ l = List.replicate length.toNat x := by
  unfold makeSlice at h
  split at h
  · cases h
  next hcond =>
    obtain ⟨hlen, hfits⟩ := not_or.1 hcond
    exact ⟨not_lt.1 hlen, not_not.1 hfits, (Except.ok.inj h).symm⟩

theorem makeSlice_of_fits {fits : Nat → Bool} {length : Int} (hlen : 0 ≤ length)
    (hfits : fits length.toNat = true) (x : α) :
    makeSlice fits length x = .ok (List.replicate length.toNat x) := by
  apply if_neg
  rintro (hneg | hno)
  · omega
  · exact hno hfits

theorem makeCapacity_of_fits {A : Allocator} {capacity : Int} (hpos : 0 ≤ capacity)
    (hfits : A.fits capacity.toNat = true) :
    (makeCapacity A capacity : Except Panic (List α)) = .ok [] := by
  apply if_neg
  rintro (hneg | hno)
  · omega
  · exact hno hfits

theorem makeCapacity_of_not_fits {A : Allocator} {capacity : Int}
    (hfits : ¬ A.fits capacity.toNat = true) :
    (makeCapacity A capacity : Except Panic (List α)) = .error .makeSlice :=
  if_pos (.inr hfits)

theorem slice_natCast {l : List α} {lo hi : Nat} (hlo : lo ≤ hi) (hhi : hi ≤ l.length) :
    slice l (lo : Int) (hi : Int) = .ok ((l.take hi).drop lo) := by
  have hin : ¬ ((lo : Int) < 0 ∨ (hi : Int) < lo ∨ (l.length : Int) < hi) := by omega
  rw [slice, if_neg hin, Int.toNat_natCast, Int.toNat_natCast]

/-- Copying to a new slice with enough room. -/
theorem copySlice_replicate {n : Nat} {src : List α} (h : src.length ≤ n) (x : α) :
    copySlice (List.replicate n x) src =
      (src ++ List.replicate (n - src.length) x, src.length) := by
  rw [copySlice, List.length_replicate, List.take_of_length_le h, List.drop_replicate,
    Nat.min_eq_right h]

/-! ## Sequences of steps -/

section Steps

variable {ε : Type v} {β : Type u}

@[simp] theorem pure_eq_ok (a : α) : (pure a : Except ε α) = .ok a := rfl

@[simp] theorem ok_bind (a : α) (f : α → Except ε β) : (Except.ok a >>= f) = f a := rfl

@[simp] theorem error_bind (e : ε) (f : α → Except ε β) : (Except.error e >>= f) = .error e := rfl

/-- A sequence that returns returns from both parts. -/
theorem bind_eq_ok {x : Except ε α} {f : α → Except ε β} {b : β} (h : (x >>= f) = .ok b) :
    ∃ a, x = .ok a ∧ f a = .ok b := by
  cases x with
  | error e => cases h
  | ok a => exact ⟨a, rfl, h⟩

end Steps

/-! ## Loops -/

section Loops

variable {σ : Type u} {ε : Type v} {s : σ}

theorem foldlM_append_singleton {β : Type w} {f : σ → β → Except ε σ} {l : List β} {s₁ : σ}
    (h : l.foldlM f s = .ok s₁) (x : β) : (l ++ [x]).foldlM f s = f s₁ x := by
  rw [List.foldlM_append, h]
  show (f s₁ x >>= pure) = f s₁ x
  rw [bind_pure]

/-- A loop over the elements of a list. -/
theorem foldlM_elements {β : Type w} {f : σ → β → Except ε σ} {l : List β} {I : List β → σ → Prop}
    (hstart : I [] s)
    (hstep : ∀ done x, x ∈ l → ∀ s, I done s → ∃ s', f s x = .ok s' ∧ I (done ++ [x]) s') :
    ∃ s', l.foldlM f s = .ok s' ∧ I l s' := by
  induction l using List.reverseRecOn with
  | nil => exact ⟨s, rfl, hstart⟩
  | append_singleton l x ih =>
      obtain ⟨s₁, hrun, hinv⟩ := ih fun done y hy => hstep done y (List.mem_append_left _ hy)
      obtain ⟨s₂, hlast, hinv₂⟩ :=
        hstep l x (List.mem_append_right _ (List.mem_singleton.2 rfl)) s₁ hinv
      exact ⟨s₂, (foldlM_append_singleton hrun x).trans hlast, hinv₂⟩

variable {f : σ → Nat → Except ε σ} {n : Nat}

/-- A loop that counts up. -/
theorem foldlM_range {I : Nat → σ → Prop} (hstart : I 0 s)
    (hstep : ∀ i < n, ∀ s, I i s → ∃ s', f s i = .ok s' ∧ I (i + 1) s') :
    ∃ s', (List.range n).foldlM f s = .ok s' ∧ I n s' := by
  induction n with
  | zero => exact ⟨s, rfl, hstart⟩
  | succ n ih =>
      obtain ⟨s₁, hrun, hinv⟩ := ih fun i hi => hstep i (by omega)
      obtain ⟨s₂, hlast, hinv₂⟩ := hstep n (by omega) s₁ hinv
      rw [List.range_succ]
      exact ⟨s₂, (foldlM_append_singleton hrun n).trans hlast, hinv₂⟩

/-- A loop that counts down. -/
theorem foldlM_range_reverse {I : Nat → σ → Prop} (hstart : I n s)
    (hstep : ∀ i < n, ∀ s, I (i + 1) s → ∃ s', f s i = .ok s' ∧ I i s') :
    ∃ s', (List.range n).reverse.foldlM f s = .ok s' ∧ I 0 s' := by
  induction n generalizing s with
  | zero => exact ⟨s, rfl, hstart⟩
  | succ n ih =>
      obtain ⟨s₁, hfirst, hinv⟩ := hstep n (by omega) s hstart
      obtain ⟨s₂, hrun, hinv₂⟩ := ih hinv fun i hi => hstep i (by omega)
      refine ⟨s₂, ?_, hinv₂⟩
      rw [List.range_succ, List.reverse_append, List.reverse_singleton, List.singleton_append,
        List.foldlM_cons, hfirst]
      exact hrun

end Loops

/-! ## Classes of a list -/

/-- The first `N` classes of a list, one after the other. -/
theorem flatMap_filter_perm (f : α → Nat) (N : Nat) (l : List α) :
    ((List.range N).flatMap fun i => l.filter fun a => f a == i).Perm
      (l.filter fun a => decide (f a < N)) := by
  induction N with
  | zero => simp
  | succ N ih =>
      -- what is below `N + 1` is below `N` or in class `N`
      have hsplit := List.filter_append_perm (fun a => decide (f a < N))
        (l.filter fun a => decide (f a < N + 1))
      rw [List.filter_filter, List.filter_filter] at hsplit
      have hbelow : ∀ a, (decide (f a < N) && decide (f a < N + 1)) = decide (f a < N) := by
        intro a
        rw [Bool.eq_iff_iff, Bool.and_eq_true, decide_eq_true_iff, decide_eq_true_iff]
        omega
      have hclass : ∀ a, (!decide (f a < N) && decide (f a < N + 1)) = (f a == N) := by
        intro a
        rw [Bool.eq_iff_iff, Bool.and_eq_true, Bool.not_eq_true', decide_eq_false_iff_not,
          decide_eq_true_iff, beq_iff_eq]
        omega
      simp only [hbelow, hclass] at hsplit
      rw [List.range_succ, List.flatMap_append, List.flatMap_singleton]
      exact (ih.append_right _).trans hsplit

/-- The classes of a list make up the list. -/
theorem flatMap_filter_perm_self {f : α → Nat} {N : Nat} {l : List α} (h : ∀ a ∈ l, f a < N) :
    ((List.range N).flatMap fun i => l.filter fun a => f a == i).Perm l := by
  have hall : l.filter (fun a => decide (f a < N)) = l := by
    apply List.filter_eq_self.2
    intro a ha
    exact decide_eq_true (h a ha)
  have hperm := flatMap_filter_perm f N l
  rwa [hall] at hperm

theorem sum_length_filter {f : α → Nat} {N : Nat} {l : List α} (h : ∀ a ∈ l, f a < N) :
    ∑ i ∈ Finset.range N, (l.filter fun a => f a == i).length = l.length := by
  induction l with
  | nil => simp
  | cons a l ih =>
      have hone : ∑ i ∈ Finset.range N, (if f a = i then 1 else 0) = 1 := by
        rw [Finset.sum_ite_eq, if_pos (Finset.mem_range.2 (h a List.mem_cons_self))]
      have hcons : ∀ i, ((a :: l).filter fun a => f a == i).length =
          (l.filter fun a => f a == i).length + if f a = i then 1 else 0 := by
        intro i
        by_cases hi : f a = i
        · simp [hi]
        · simp [hi]
      simp only [hcons, Finset.sum_add_distrib]
      rw [hone, ih fun b hb => h b (List.mem_cons_of_mem a hb), List.length_cons]

end Hapartition.Lib
