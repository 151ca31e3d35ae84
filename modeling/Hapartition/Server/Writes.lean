import Hapartition.Lib.Transition
import Hapartition.Server.Dispatch
import Hapartition.Store.Delete
import Hapartition.Store.History

/-!
# What commands and messages do to the store

A command performs at most one write on the store: the `SetFrom` of a `SET` or the `Del` of a `DEL`
that passed its checks (`write`). The local merge of `ReplicateWithQuorum` that follows finds the
entry, or a newer one, in place and changes nothing (`dispatch_store`).

`Event` is what can happen to the store of a node: client commands and replication messages. Runs of
events from an empty store in which no version allocation wraps keep the clock above every stored
version (`clockOk_run`).
-/

set_option autoImplicit false

namespace Hapartition

open Lib

namespace Server

variable (R : Runtime) (O : Outcomes)

/-- The write that a command performs. -/
def write (s : Server) (cmd : Bytes) (args : List Value) : Option Store.Op :=
  match CommandName.ofName cmd with
  | .set =>
      match s.keyArguments R (str "SET") 2 args with
      | .ok (key, value) => some (.setFrom key value s.nodeID)
      | .error _ => none
  | .del =>
      match s.delArguments R args with
      | .ok keys => some (.del s.nodeID keys)
      | .error _ => none
  | _ => none

/-! ## Replication adds nothing to the local store -/

variable {R O} {s : Server}

theorem replicateWithQuorum_store {store : Store} {key : Bytes} {entry : Entry} {w : Int}
    (h : Covers store.tree[key]? entry) : (replicateWithQuorum O store key entry w).1 = store := by
  unfold replicateWithQuorum
  rw [Store.setWithVersion_of_covers h]
  dsimp only
  split <;> rfl

theorem replicateAll_store {store : Store} {w : Int} {l : List (Bytes × Entry)}
    (h : ∀ p ∈ l, Covers store.tree[p.1]? p.2) : (replicateAll O w store l).1 = store := by
  induction l with
  | nil => rfl
  | cons p l ih =>
      obtain ⟨key, entry⟩ := p
      have hstore := replicateWithQuorum_store (O := O) (w := w) (h (key, entry) List.mem_cons_self)
      rw [replicateAll]
      cases hr : replicateWithQuorum O store key entry w with
      | mk store' err =>
          rw [hr] at hstore
          obtain rfl : store' = store := hstore
          cases err with
          | some err => rfl
          | none => exact ih fun q hq => h q (List.mem_cons_of_mem _ hq)

theorem covers_setFrom (store : Store) (key value origin : Bytes) :
    Covers (store.setFrom key value origin).1.tree[key]? (store.setFrom key value origin).2 := by
  rw [Store.getElem?_setFrom, if_pos rfl]
  exact covers_merge_self _ _

/-- `SET` leaves the store that `SetFrom` left. -/
theorem execSet_fst (key value : Bytes) :
    (s.execSet O key value).1 = { s with store := (s.store.setFrom key value s.nodeID).1 } := by
  unfold execSet
  cases s.gossip with
  | none => rfl
  | some g =>
      have hstore := replicateWithQuorum_store (O := O) (w := s.quorumSize)
        (covers_setFrom s.store key value s.nodeID)
      simp only
      -- the pair is taken apart to see that both branches of the reply carry that store
      cases hr : replicateWithQuorum O (s.store.setFrom key value s.nodeID).1 key
          (s.store.setFrom key value s.nodeID).2 s.quorumSize with
      | mk store err =>
          rw [hr] at hstore
          obtain rfl : store = _ := hstore
          cases err <;> rfl

/-- `DEL` leaves the store that `Del` left. -/
theorem execDel_fst (keys : List Bytes) :
    (s.execDel O keys).1 = { s with store := (s.store.del s.nodeID keys).1 } := by
  unfold execDel
  cases s.gossip with
  | none => rfl
  | some g =>
      have hstore : (replicateAll O s.quorumSize (s.store.del s.nodeID keys).1
          (O.order (s.store.del s.nodeID keys).2.2.toList)).1 = (s.store.del s.nodeID keys).1 := by
        -- in whatever order the map is ranged over, it holds tombstones that `Del` has stored
        refine replicateAll_store fun p hp => ⟨p.2, ?_, le_rfl⟩
        have hmem := (O.order_perm _).mem_iff.1 hp
        exact Store.stored_del (Std.ExtTreeMap.mem_toList_iff_getElem?_eq_some.1 hmem)
      simp only
      cases hr : replicateAll O s.quorumSize (s.store.del s.nodeID keys).1
          (O.order (s.store.del s.nodeID keys).2.2.toList) with
      | mk store err =>
          rw [hr] at hstore
          obtain rfl : store = _ := hstore
          cases err <;> rfl

/-- A command changes the store by its write alone. -/
theorem dispatch_store (cmd : Bytes) (args : List Value) :
    (s.dispatch R O cmd args).1.store =
      (s.write R cmd args).elim s.store (Store.Op.apply s.store) := by
  unfold dispatch write
  cases CommandName.ofName cmd with
  | set =>
      simp only [handleKeyCommand]
      cases s.keyArguments R (str "SET") 2 args with
      | error reply => rfl
      | ok p =>
          show (s.execSet O p.1 p.2).1.store = _
          rw [execSet_fst]
          rfl
  | get => exact congrArg store (handleGet_fst args)
  | del =>
      simp only [handleDel]
      cases s.delArguments R args with
      | error reply => rfl
      | ok keys =>
          show (s.execDel O keys).1.store = _
          rw [execDel_fst]
          rfl
  | nodeJoin =>
      show (s.handleNodeJoin R args).1.store = s.store
      rcases handleNodeJoin_cases (R := R) (s := s) args with ⟨text, h⟩ | ⟨nodeID, address, h⟩
      · rw [h]
      · rw [h]
  | _ => rfl

/-! ## Writes are for keys of the node -/

theorem moved_of_keyArguments {cmd : Bytes} {arity : Nat} {args : List Value} {key value : Bytes}
    (h : s.keyArguments R cmd arity args = .ok (key, value)) : s.moved R key = none := by
  rcases keyArguments_cases (R := R) (s := s) cmd arity args with
    ⟨text, herror⟩ | ⟨key', value', hok, -, -, hmoved, -⟩
  · cases herror.symm.trans h
  · obtain ⟨rfl, -⟩ := Prod.mk.inj (Except.ok.inj (hok.symm.trans h))
    exact hmoved

theorem moved_of_delArguments {args : List Value} {keys : List Bytes}
    (h : s.delArguments R args = .ok keys) : ∀ key ∈ keys, s.moved R key = none := by
  unfold delArguments at h
  split at h
  · cases h
  split at h
  · cases h
  split at h
  · cases h
  next hmoved =>
    cases h
    exact List.findSome?_eq_none_iff.1 hmoved

/-- What a command stores is for a key that the server does not redirect. -/
theorem stored_dispatch {cmd : Bytes} {args : List Value} {k : Bytes} {e : Entry}
    (hk : (s.dispatch R O cmd args).1.store.tree[k]? = some e) :
    s.store.tree[k]? = some e ∨ s.moved R k = none := by
  rw [dispatch_store] at hk
  unfold write at hk
  split at hk
  · split at hk
    next key value hargs =>
      apply (Store.getElem?_setFrom_eq_some hk).imp_right
      rintro ⟨rfl, -⟩
      exact moved_of_keyArguments hargs
    next => exact .inl hk
  · split at hk
    next keys hargs =>
      apply (Store.getElem?_del_eq_some hk).imp_right
      intro htomb
      exact moved_of_delArguments hargs k (Store.mem_of_tombstones_del htomb)
    next => exact .inl hk
  · exact .inl hk

/-! ## Runs of a node -/

/-- What can happen to the store of a node. -/
inductive Event where
  /-- A client command, with the outcomes it meets. -/
  | command (O : Outcomes) (cmd : Bytes) (args : List Value)
  /-- An `EntryBatch` message, or a merged remote state. -/
  | batch (entries : List Pb.Entry)
  /-- A `ReplicateRequest` message. -/
  | request (req : Pb.ReplicateRequest)

/-- The server after an event. Messages reach a server through its gossip handler. -/
def Event.apply (R : Runtime) (s : Server) : Event → Server
  | .command O cmd args => (s.dispatch R O cmd args).1
  | .batch entries =>
      match s.gossip with
      | none => s
      | some g => { s with store := g.handleReplication R.toHashing s.ring s.store entries }
  | .request req =>
      match s.gossip with
      | none => s
      | some g =>
          { s with store := (g.handleReplicateRequest R.toHashing s.ring s.store req).1 }

/-- The versions that the event allocates do not wrap. -/
def Event.NoWrap (R : Runtime) (s : Server) : Event → Prop
  | .command _ cmd args => ∀ op, s.write R cmd args = some op → op.NoWrap s.store
  | .batch _ => True
  | .request _ => True

/-- Events, one after the other, none of which wraps the clock. -/
def Reaches (R : Runtime) : Server → List Event → Server → Prop :=
  Run (fun s ev => some (ev.apply R s)) (fun s ev => ev.NoWrap R s)

theorem clockOk_apply {ev : Event} (hs : s.store.ClockOk) (hw : ev.NoWrap R s) :
    (ev.apply R s).store.ClockOk := by
  cases ev with
  | command O cmd args =>
      show (s.dispatch R O cmd args).1.store.ClockOk
      rw [dispatch_store]
      cases hop : s.write R cmd args with
      | none => exact hs
      | some op =>
          obtain ⟨es, hes, -⟩ := op.absorbsAll hs (hw op hop)
          exact hes.clockOk hs
  | batch entries =>
      unfold Event.apply
      cases s.gossip with
      | none => exact hs
      | some g => exact (Handler.absorbsAll_handleReplication hs entries).clockOk hs
  | request req =>
      unfold Event.apply
      cases s.gossip with
      | none => exact hs
      | some g =>
          obtain ⟨es, hes, -⟩ : ∃ es, Store.AbsorbsAll s.store es
              (g.applyRequest R.toHashing s.ring s.store req.entries).1 ∧ _ :=
            Handler.absorbsAll_applyRequest hs req.entries
          exact hes.clockOk hs

/-- Along a run without wrapping the clock stays above every stored version. -/
theorem clockOk_run {s₀ : Server} {evs : List Event} (h : Reaches R s₀ evs s)
    (hs : s₀.store.ClockOk) : s.store.ClockOk := by
  refine Run.invariant (P := fun s => s.store.ClockOk) (fun hw hstep hok => ?_) h hs
  obtain rfl := Option.some.inj hstep
  exact clockOk_apply hok hw

end Server

end Hapartition
