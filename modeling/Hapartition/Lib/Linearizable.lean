import Mathlib.Data.List.Nodup

/-!
# Linearizability

Operations on a shared object overlap: each is invoked at some time, and returns a result at a later
one. `Linearizes` says that a list of operations is a sequential history that explains the results
of those that have returned: run one after the other on the object's specification, the operations
have these results, and none comes after one that was invoked when it had returned already.

An operation that takes effect at one point in time between its invocation and its return is put at
the end of the list at this point (`Linearizes.point`), and may return at any time afterwards
(`Linearizes.complete`).
-/

set_option autoImplicit false

namespace Hapartition.Lib

variable {σ Op Spec Res : Type*}

/-- An operation that has taken effect: its number, and when it was invoked. -/
structure Applied (Op Res : Type*) where
  id : Nat
  op : Op
  res : Res
  invoked : Nat

/-- An operation that has returned. -/
structure Returned (Op Res : Type*) extends Applied Op Res where
  returned : Nat

/-- The state of the specification after some operations. -/
def replayState (apply : σ → Op → σ × Spec) (s : σ) (ops : List Op) : σ :=
  ops.foldl (fun s op => (apply s op).1) s

/-- The results of the specification. -/
def replay (apply : σ → Op → σ × Spec) : σ → List Op → List Spec
  | _, [] => []
  | s, op :: ops => (apply s op).2 :: replay apply (apply s op).1 ops

theorem replay_append (apply : σ → Op → σ × Spec) (s : σ) (ops ops' : List Op) :
    replay apply s (ops ++ ops') =
      replay apply s ops ++ replay apply (replayState apply s ops) ops' := by
  induction ops generalizing s with
  | nil => rfl
  | cons op ops ih => exact congrArg (List.cons _) (ih (apply s op).1)

/-- The list explains the operations that have returned. -/
structure Linearizes (apply : σ → Op → σ × Spec) (agrees : Spec → Res → Prop) (init : σ)
    (log : List (Applied Op Res)) (history : List (Returned Op Res)) : Prop where
  nodup : (log.map Applied.id).Nodup
  results : List.Forall₂ agrees (replay apply init (log.map Applied.op)) (log.map Applied.res)
  effect : ∀ c ∈ history, c.toApplied ∈ log
  order : log.Pairwise fun a b => ∀ c ∈ history, c.id = b.id → a.invoked ≤ c.returned

namespace Linearizes

variable {apply : σ → Op → σ × Spec} {agrees : Spec → Res → Prop} {init : σ}
  {log : List (Applied Op Res)} {history : List (Returned Op Res)}

theorem nil : Linearizes apply agrees init [] [] where
  nodup := List.nodup_nil
  results := .nil
  effect := by
    intro c hc
    cases hc
  order := .nil

/-- An operation takes effect. It has not returned, so nothing has to come after it. -/
theorem point (h : Linearizes apply agrees init log history) {e : Applied Op Res}
    (hid : e.id ∉ log.map Applied.id)
    (hres : agrees (apply (replayState apply init (log.map Applied.op)) e.op).2 e.res) :
    Linearizes apply agrees init (log ++ [e]) history where
  nodup := by
    rw [List.map_append]
    refine List.nodup_append.2 ⟨h.nodup, List.nodup_singleton _, ?_⟩
    rintro a ha b hb rfl
    exact hid (List.mem_singleton.1 hb ▸ ha)
  results := by
    rw [List.map_append, List.map_append, replay_append]
    exact List.rel_append h.results (.cons hres .nil)
  effect c hc := List.mem_append_left _ (h.effect c hc)
  order := by
    refine List.pairwise_append.2 ⟨h.order, List.pairwise_singleton _ _, ?_⟩
    intro a _ b hb c hc hcb
    rw [List.mem_singleton.1 hb] at hcb
    exact absurd (hcb ▸ List.mem_map_of_mem (h.effect c hc)) hid

/-- An operation that has taken effect returns, after all that were invoked so far. -/
theorem complete (h : Linearizes apply agrees init log history) {e : Applied Op Res} (he : e ∈ log)
    {now : Nat} (hnow : ∀ a ∈ log, a.invoked ≤ now) :
    Linearizes apply agrees init log (history ++ [⟨e, now⟩]) where
  nodup := h.nodup
  results := h.results
  effect c hc := by
    rcases List.mem_append.1 hc with hc | hc
    · exact h.effect c hc
    · rw [List.mem_singleton.1 hc]
      exact he
  order := by
    refine h.order.imp_of_mem ?_
    intro a b ha _ hab c hc hcb
    rcases List.mem_append.1 hc with hc | hc
    · exact hab c hc hcb
    · rw [List.mem_singleton.1 hc]
      exact hnow a ha

end Linearizes

end Hapartition.Lib
