import Mathlib.Logic.Basic

/-!
# Labelled transition systems

A deterministic partial step function on labels, and its runs. A label carries every choice that
the system leaves open, so that quantifying over label lists quantifies over all behaviours.

- `Run step ok s as t`: the labels `as`, each admissible by `ok` where it is taken, lead from `s`
  to `t`.
- `Run.append` and `Run.of_append`: runs compose, and a run splits where its label list does.
- `Run.invariant` and `Run.related`: what one step preserves, or relates, a whole run does.
-/

set_option autoImplicit false

namespace Hapartition.Lib

variable {σ α : Type*}

/-- A run along a list of labels. -/
inductive Run (step : σ → α → Option σ) (ok : σ → α → Prop) : σ → List α → σ → Prop where
  | nil (s : σ) : Run step ok s [] s
  | cons {s t u : σ} {a : α} {as : List α} (hok : ok s a) (hstep : step s a = some t)
      (hrun : Run step ok t as u) : Run step ok s (a :: as) u

variable {step : σ → α → Option σ} {ok : σ → α → Prop}

namespace Run

variable {s t u : σ} {a : α} {as bs : List α}

theorem single (hok : ok s a) (hstep : step s a = some t) : Run step ok s [a] t :=
  .cons hok hstep (.nil t)

theorem append (h : Run step ok s as t) (h' : Run step ok t bs u) :
    Run step ok s (as ++ bs) u := by
  induction h with
  | nil => exact h'
  | cons hok hstep _ ih => exact .cons hok hstep (ih h')

theorem of_append (h : Run step ok s (as ++ bs) u) :
    ∃ t, Run step ok s as t ∧ Run step ok t bs u := by
  -- on the labels of the first part: the run itself does not say where that part ends
  induction as generalizing s with
  | nil => exact ⟨s, .nil s, h⟩
  | cons a as ih =>
      cases h with
      | cons hok hstep hrun =>
          obtain ⟨t, h₁, h₂⟩ := ih hrun
          exact ⟨t, .cons hok hstep h₁, h₂⟩

/-- A condition that every label of a run meets may be added to its admissibility. -/
theorem and_of_forall {q : α → Prop} (h : Run step ok s as t) (hq : ∀ a ∈ as, q a) :
    Run step (fun s a => ok s a ∧ q a) s as t := by
  induction h with
  | nil => exact .nil _
  | cons hok hstep _ ih =>
      exact .cons ⟨hok, hq _ List.mem_cons_self⟩ hstep
        (ih fun a ha => hq a (List.mem_cons_of_mem _ ha))

/-- What holds at the start and is preserved by every admissible step holds at the end. -/
theorem invariant {P : σ → Prop}
    (hP : ∀ {s a t}, ok s a → step s a = some t → P s → P t)
    (h : Run step ok s as t) (hs : P s) : P t := by
  induction h with
  | nil => exact hs
  | cons hok hstep _ ih => exact ih (hP hok hstep hs)

/-- A preorder that every admissible step from a state of an invariant respects relates the two
ends of a run. -/
theorem related {P : σ → Prop} {R : σ → σ → Prop} (refl : ∀ s, R s s)
    (trans : ∀ {s t u}, R s t → R t u → R s u)
    (hP : ∀ {s a t}, ok s a → step s a = some t → P s → P t)
    (hR : ∀ {s a t}, ok s a → step s a = some t → P s → R s t)
    (h : Run step ok s as t) (hs : P s) : R s t := by
  induction h with
  | nil => exact refl _
  | cons hok hstep _ ih => exact trans (hR hok hstep hs) (ih (hP hok hstep hs))

end Run

end Hapartition.Lib
