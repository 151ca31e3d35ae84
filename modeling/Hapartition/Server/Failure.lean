import Hapartition.Server.Dispatch

/-!
# Commands that fail before replication

A command has changed the server only when it is past all its checks. From there on, `SET` and `DEL`
reply with an error only if `ReplicateWithQuorum` returned one, and `NODE.JOIN` does not fail any
more. So an error that did not come from `ReplicateWithQuorum` leaves the server as it was
(`failed_command_no_trace`).
-/

set_option autoImplicit false

namespace Hapartition

open Lib

namespace Server

variable (R : Runtime) (O : Outcomes)

/-- The error that a call of `ReplicateWithQuorum` returned to a command. -/
def quorumError (s : Server) (cmd : Bytes) (args : List Value) : Option QuorumError :=
  match CommandName.ofName cmd with
  | .set =>
      match s.keyArguments R (str "SET") 2 args with
      | .ok (key, value) => s.setError O key value
      | .error _ => none
  | .del =>
      match s.delArguments R args with
      | .ok keys => s.delError O keys
      | .error _ => none
  | _ => none

variable {R O} {s : Server}

/-! ## Replies of writes -/

/-- An error of the replication is what the client gets. -/
theorem reply_of_quorumError {cmd : Bytes} {args : List Value} {err : QuorumError}
    (h : s.quorumError R O cmd args = some err) :
    (s.dispatch R O cmd args).2 = quorumFailed err := by
  unfold quorumError at h
  unfold dispatch
  cases hcmd : CommandName.ofName cmd with
  | set =>
      rw [hcmd] at h
      simp only [handleKeyCommand] at h ⊢
      cases hargs : s.keyArguments R (str "SET") 2 args with
      | error reply => simp [hargs] at h
      | ok p =>
          simp only [hargs] at h
          show (s.execSet O p.1 p.2).2 = _
          rw [execSet_snd, h]
          rfl
  | del =>
      rw [hcmd] at h
      simp only [handleDel] at h ⊢
      cases hargs : s.delArguments R args with
      | error reply => simp [hargs] at h
      | ok keys =>
          simp only [hargs] at h
          show (s.execDel O keys).2 = _
          rw [execDel_snd, h]
          rfl
  | _ => simp [hcmd] at h

/-! ## Commands that change nothing -/

theorem handleNodeJoin_of_error {args : List Value} {text : Bytes}
    (h : (s.handleNodeJoin R args).2 = .error text) : (s.handleNodeJoin R args).1 = s := by
  rcases handleNodeJoin_cases (R := R) (s := s) args with ⟨text, hjoin⟩ | ⟨nodeID, address, hjoin⟩
  · rw [hjoin]
  · -- the node is added, and the reply is OK
    rw [hjoin] at h
    cases h

theorem dispatch_of_error {cmd : Bytes} {args : List Value} {text : Bytes}
    (herr : (s.dispatch R O cmd args).2 = .error text)
    (hquorum : s.quorumError R O cmd args = none) :
    (s.dispatch R O cmd args).1 = s := by
  unfold dispatch at herr ⊢
  unfold quorumError at hquorum
  cases hcmd : CommandName.ofName cmd with
  | set =>
      simp only [hcmd, handleKeyCommand] at herr hquorum ⊢
      cases hargs : s.keyArguments R (str "SET") 2 args with
      | error reply => rfl
      | ok p =>
          -- past the checks, only the replication fails
          simp only [hargs] at herr hquorum
          rw [execSet_snd, hquorum] at herr
          cases herr
  | get => exact handleGet_fst args
  | del =>
      simp only [hcmd, handleDel] at herr hquorum ⊢
      cases hargs : s.delArguments R args with
      | error reply => rfl
      | ok keys =>
          simp only [hargs] at herr hquorum
          rw [execDel_snd, hquorum] at herr
          cases herr
  | nodeJoin =>
      simp only [hcmd] at herr ⊢
      exact handleNodeJoin_of_error herr
  | _ => rfl

/-- **Commands that fail before replication leave no trace.** Whatever the server, the command and
its arguments, let the reply be an error. If no call of `ReplicateWithQuorum` returned an error, the
store and the ring, and all else of the server, are as they were before; if one did, its error is
the reply. -/
theorem failed_command_no_trace {cmd : Bytes} {args : List Value} {text : Bytes}
    (herr : (s.dispatch R O cmd args).2 = .error text) :
    (s.quorumError R O cmd args = none →
      (s.dispatch R O cmd args).1.store = s.store ∧ (s.dispatch R O cmd args).1.ring = s.ring ∧
        (s.dispatch R O cmd args).1 = s) ∧
    ∀ err, s.quorumError R O cmd args = some err →
      (s.dispatch R O cmd args).2 = quorumFailed err := by
  constructor
  · intro hquorum
    rw [dispatch_of_error herr hquorum]
    exact ⟨rfl, rfl, rfl⟩
  · intro err h
    exact reply_of_quorumError h

/-- A `DEL` whose second key is null. -/
theorem failed_command_no_trace_del :
    ((new .ascii (str "127.0.0.1:6379") (str "n1")).dispatch .ascii .success (str "DEL")
        [newBulkString (str "a"), nullBulkString]).1 =
      new .ascii (str "127.0.0.1:6379") (str "n1") :=
  have herr : ((new .ascii (str "127.0.0.1:6379") (str "n1")).dispatch .ascii .success (str "DEL")
      [newBulkString (str "a"), nullBulkString]).2 = .error (str "ERR invalid key") := by rfl
  ((failed_command_no_trace herr).1 (by rfl)).2.2

end Server

end Hapartition
