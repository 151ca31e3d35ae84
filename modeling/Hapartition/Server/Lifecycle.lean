import Hapartition.Lib.Transition
import Mathlib.Data.List.Basic
import Mathlib.Tactic.Common

/-!
# The life of a server

`acceptLoop`, `handleConn` as far as the wait group sees it, and `Shutdown` of
`internal/server/server.go`, in every interleaving of the goroutines. The accept loop registers a
connection with the wait group after `Accept` has returned it; so a connection can be accepted
before the listener is closed and registered after it, while `Shutdown` waits or has already
returned.

`Life.drained` says what a `Shutdown` that returned nil means: no connection is served any more, now
or later, but for one that the accept loop had in hand when the listener was closed. Such a
connection is also the only way to a panic of the wait group, which does not allow that its counter
leaves zero while somebody waits.
-/

set_option autoImplicit false

namespace Hapartition

open Lib

/-- Where the accept loop is: in `Accept`, between `Accept` and `wg.Add`, or at its end, with `done`
closed. -/
inductive LoopPhase where
  | accepting
  | holding
  | ended
  deriving DecidableEq, Repr

/-- Where `shutdownOnce` is; its function is run by the call `i`. -/
inductive OncePhase where
  | fresh
  | running (i : Nat)
  | finished
  deriving DecidableEq, Repr

/-- Where a call of `Shutdown` is: before `shutdownOnce.Do`, inside of it with `quit` still open or
closed already, in the `select`, or returned. -/
inductive CallPhase where
  | start
  | closingQuit
  | closingListener
  | selecting
  | returnedNil
  | returnedErr
  deriving DecidableEq, Repr

/-- Where the goroutine that a call starts is: not started, before `wg.Wait`, asleep in it, released
but not awake yet, or done, with `doneCh` closed. -/
inductive WaiterPhase where
  | unstarted
  | waiting
  | asleep
  | released
  | drained
  deriving DecidableEq, Repr

/-- A call of `Shutdown`, and its goroutine, which goes on when the context ends the call. -/
structure ShutdownCall where
  call : CallPhase
  waiter : WaiterPhase
  deriving DecidableEq, Repr

/-- A goroutine that is asleep is released. -/
def ShutdownCall.release (c : ShutdownCall) : ShutdownCall :=
  if c.waiter = .asleep then { c with waiter := .released } else c

/-- The call runs the function of `shutdownOnce`. -/
def ShutdownCall.Closing (c : ShutdownCall) : Prop :=
  c.call = .closingQuit ∨ c.call = .closingListener

/-- The state of a server that listens. The wait group is its counter and the number of those asleep
in `Wait`. A handler serves; is in `wg.Done`, where it has found sleepers and not released them yet;
or has its connection still to close. `held` remembers whether the accept loop had a connection in
hand when the listener was closed. -/
structure Life where
  loop : LoopPhase
  once : OncePhase
  quit : Bool
  closed : Bool
  counter : Nat
  waiters : Nat
  serving : Nat
  releasing : Nat
  closing : Nat
  calls : List ShutdownCall
  held : Bool
  panicked : Bool
  deriving DecidableEq, Repr

/-- What happens next; `i` is a call of `Shutdown`. -/
inductive LifeAction where
  | accept
  | acceptError
  /-- `wg.Add(1)` and `go s.handleConn`. -/
  | register
  /-- A handler at the end of its connection: `wg.Done`. -/
  | done
  /-- The end of `wg.Done`, for those asleep. -/
  | release
  /-- `conn.Close`, which is deferred before `wg.Done` and so comes after it. -/
  | closeConn
  | shutdown
  /-- `shutdownOnce.Do`. -/
  | once (i : Nat)
  | closeQuit (i : Nat)
  | closeListener (i : Nat)
  /-- `wg.Wait`. -/
  | wait (i : Nat)
  | wake (i : Nat)
  | returnNil (i : Nat)
  | returnErr (i : Nat)
  deriving DecidableEq, Repr

namespace Life

/-- `ListenAndServe`. -/
def listening : Life :=
  ⟨.accepting, .fresh, false, false, 0, 0, 0, 0, 0, [], false, false⟩

/-- Another phase for a call. -/
def setCall (s : Life) (i : Nat) (c : ShutdownCall) : Life := { s with calls := s.calls.set i c }

/-- One step; a panic ends the process. -/
def step (s : Life) (a : LifeAction) : Option Life :=
  if s.panicked then none else
  match a with
  | .accept =>
      if s.loop = .accepting ∧ s.closed = false then some { s with loop := .holding } else none
  | .acceptError =>
      if s.loop = .accepting then
        if s.quit then some { s with loop := .ended } else some s
      else none
  | .register =>
      if s.loop = .holding then
        if s.waiters ≠ 0 ∧ s.counter = 0 then some { s with panicked := true }
        else some
          { s with loop := .accepting, counter := s.counter + 1, serving := s.serving + 1 }
      else none
  | .done =>
      if s.serving ≠ 0 then
        let t := { s with serving := s.serving - 1, counter := s.counter - 1 }
        if t.counter = 0 ∧ t.waiters ≠ 0 then some { t with releasing := t.releasing + 1 }
        else some { t with closing := t.closing + 1 }
      else none
  | .release =>
      if s.releasing ≠ 0 then
        if s.counter ≠ 0 then some { s with panicked := true }
        else some
          { s with
            waiters := 0
            releasing := s.releasing - 1
            closing := s.closing + 1
            calls := s.calls.map ShutdownCall.release }
      else none
  | .closeConn => if s.closing ≠ 0 then some { s with closing := s.closing - 1 } else none
  | .shutdown => some { s with calls := s.calls ++ [⟨.start, .unstarted⟩] }
  | .once i =>
      if s.calls[i]? = some ⟨.start, .unstarted⟩ then
        match s.once with
        | .fresh => some { s.setCall i ⟨.closingQuit, .unstarted⟩ with once := .running i }
        -- the other callers wait for the first
        | .running _ => none
        | .finished => some (s.setCall i ⟨.selecting, .waiting⟩)
      else none
  | .closeQuit i =>
      if s.calls[i]? = some ⟨.closingQuit, .unstarted⟩ then
        some { s.setCall i ⟨.closingListener, .unstarted⟩ with quit := true }
      else none
  | .closeListener i =>
      if s.calls[i]? = some ⟨.closingListener, .unstarted⟩ then
        some
          { s.setCall i ⟨.selecting, .waiting⟩ with
            closed := true
            once := .finished
            held := decide (s.loop = .holding) }
      else none
  | .wait i =>
      match s.calls[i]? with
      | some ⟨call, .waiting⟩ =>
          if s.counter = 0 then some (s.setCall i ⟨call, .drained⟩)
          else some { s.setCall i ⟨call, .asleep⟩ with waiters := s.waiters + 1 }
      | _ => none
  | .wake i =>
      match s.calls[i]? with
      | some ⟨call, .released⟩ =>
          if s.counter ≠ 0 ∨ s.waiters ≠ 0 then some { s with panicked := true }
          else some (s.setCall i ⟨call, .drained⟩)
      | _ => none
  | .returnNil i =>
      if s.calls[i]? = some ⟨.selecting, .drained⟩ then some (s.setCall i ⟨.returnedNil, .drained⟩)
      else none
  | .returnErr i =>
      match s.calls[i]? with
      | some ⟨.selecting, waiter⟩ => some (s.setCall i ⟨.returnedErr, waiter⟩)
      | _ => none

/-- Runs of any interleaving. -/
abbrev Runs : Life → List LifeAction → Life → Prop := Run step fun _ _ => True

/-- The connections that are served or will be without a further `Accept`. -/
def inHand (s : Life) : Nat := s.serving + if s.loop = .holding then 1 else 0

/-- The connections that the closed listener has left to the accept loop. -/
def late (s : Life) : Nat := if s.held then 1 else 0

/-! ## The invariant -/

/-- What a call of `Shutdown` and its goroutine say about the server. -/
structure CallInv (s : Life) (c : ShutdownCall) : Prop where
  closed : c.waiter ≠ .unstarted → s.closed = true
  asleep : c.waiter = .asleep → s.waiters ≠ 0
  /-- The goroutine has seen the counter at zero, or the one that released it has. -/
  drained : c.waiter = .released ∨ c.waiter = .drained → s.inHand ≤ s.late
  /-- Somebody can only have gone to sleep after the release because of a late connection. -/
  released : c.waiter = .released → s.waiters ≠ 0 → s.held = true
  returned : c.call = .returnedNil → c.waiter = .drained

/-- The invariant of all interleavings. -/
structure Inv (s : Life) : Prop where
  counter : s.counter = s.serving
  holding : s.closed = true → s.loop = .holding → s.held = true
  listening : s.closed = false → s.waiters = 0
  panic : s.panicked = true → s.held = true
  releasing : s.releasing ≠ 0 → s.releasing = 1 ∧ s.counter = 0 ∧ s.waiters ≠ 0
  finished : s.closed = true ↔ s.once = .finished
  closing : ∀ (i : Nat) (c : ShutdownCall), s.calls[i]? = some c → c.Closing → s.once = .running i
  call : ∀ c ∈ s.calls, CallInv s c

/-- What has to stay for a call to know what it knew. -/
structure Keeps (s t : Life) : Prop where
  closed : s.closed = true → t.closed = true
  waiters : s.waiters ≠ 0 → t.waiters ≠ 0
  inHand : s.closed = true → s.inHand ≤ s.late → t.inHand ≤ t.late
  held : s.closed = true → s.inHand ≤ s.late → (s.waiters ≠ 0 → s.held = true) →
    t.waiters ≠ 0 → t.held = true

variable {s t : Life} {c : ShutdownCall}

theorem CallInv.keep (h : CallInv s c) (hkeep : Keeps s t) : CallInv t c where
  closed hw := hkeep.closed (h.closed hw)
  asleep hw := hkeep.waiters (h.asleep hw)
  drained hw := by
    refine hkeep.inHand (h.closed ?_) (h.drained hw)
    rcases hw with hw | hw <;> rw [hw] <;> exact WaiterPhase.noConfusion
  released hw := by
    refine hkeep.held (h.closed ?_) (h.drained (.inl hw)) (h.released hw)
    rw [hw]
    exact WaiterPhase.noConfusion
  returned := h.returned

/-- A step that changes nothing of what the calls know. -/
theorem Keeps.of_eq (hclosed : t.closed = s.closed) (hwaiters : t.waiters = s.waiters)
    (hheld : t.held = s.held) (hinHand : s.closed = true → t.inHand ≤ s.inHand) : Keeps s t where
  closed := by
    rw [hclosed]
    exact id
  waiters := by
    rw [hwaiters]
    exact id
  inHand hc hle := by
    rw [late, hheld]
    exact Nat.le_trans (hinHand hc) hle
  held _ _ h := by
    rw [hwaiters, hheld]
    exact h

theorem inHand_of_holding (h : s.loop = .holding) : s.inHand = s.serving + 1 := by
  rw [inHand, if_pos h]

theorem inHand_le_late (h : s.Inv) (hclosed : s.closed = true) (hcounter : s.counter = 0) :
    s.inHand ≤ s.late := by
  have hserving := h.counter
  unfold inHand late
  split
  next hholding =>
    rw [if_pos (h.holding hclosed hholding)]
    omega
  next => omega

theorem held_of_inHand_le (h : s.inHand ≤ s.late) (hserving : s.serving ≠ 0) : s.held = true := by
  by_contra hnot
  rw [inHand, late, if_neg hnot] at h
  omega

theorem closed_of_waiters (h : s.Inv) (hw : s.waiters ≠ 0) : s.closed = true := by
  by_contra hnot
  exact hw (h.listening (Bool.not_eq_true _ ▸ hnot))

/-! ## The accept loop and the handlers -/

theorem Inv.accept (h : s.Inv) (hopen : s.closed = false) : Inv { s with loop := .holding } := by
  have hclosed : s.closed ≠ true := by
    rw [hopen]
    exact Bool.noConfusion
  refine ⟨h.counter, fun hc => absurd hc hclosed, h.listening, h.panic, h.releasing, h.finished,
    h.closing, ?_⟩
  intro c hc
  exact (h.call c hc).keep (.of_eq rfl rfl rfl fun hc => absurd hc hclosed)

theorem Inv.ended (h : s.Inv) : Inv { s with loop := .ended } := by
  refine ⟨h.counter, ?_, h.listening, h.panic, h.releasing, h.finished, h.closing, ?_⟩
  · intro _ hloop
    cases hloop
  · intro c hc
    refine (h.call c hc).keep (.of_eq rfl rfl rfl fun _ => ?_)
    exact Nat.le_add_right _ _

/-- A panic, for which the connection in hand is to blame. -/
theorem Inv.panicking (h : s.Inv) (hheld : s.held = true) : Inv { s with panicked := true } :=
  ⟨h.counter, h.holding, h.listening, fun _ => hheld, h.releasing, h.finished, h.closing,
    fun c hc => (h.call c hc).keep (.of_eq rfl rfl rfl fun _ => Nat.le_refl _)⟩

theorem Inv.register (h : s.Inv) (hloop : s.loop = .holding)
    (hsafe : ¬ (s.waiters ≠ 0 ∧ s.counter = 0)) :
    Inv { s with loop := .accepting, counter := s.counter + 1, serving := s.serving + 1 } := by
  refine ⟨congrArg (· + 1) h.counter, ?_, h.listening, h.panic, ?_, h.finished, h.closing, ?_⟩
  · intro _ hholding
    cases hholding
  · intro hr
    obtain ⟨-, hzero, hw⟩ := h.releasing hr
    exact absurd ⟨hw, hzero⟩ hsafe
  · intro c hc
    refine (h.call c hc).keep (.of_eq rfl rfl rfl fun _ => ?_)
    -- the connection is in hand before and after
    exact Nat.le_of_eq (inHand_of_holding hloop).symm

theorem Inv.done (h : s.Inv) {releasing closing : Nat}
    (hreleasing : releasing ≠ 0 → releasing = 1 ∧ s.counter - 1 = 0 ∧ s.waiters ≠ 0) :
    Inv
      { s with
        serving := s.serving - 1
        counter := s.counter - 1
        releasing := releasing
        closing := closing } := by
  refine ⟨congrArg (· - 1) h.counter, h.holding, h.listening, h.panic, hreleasing, h.finished,
    h.closing, ?_⟩
  intro c hc
  refine (h.call c hc).keep (.of_eq rfl rfl rfl fun _ => ?_)
  exact Nat.add_le_add_right (Nat.sub_le _ _) _

theorem closing_release : c.release.Closing ↔ c.Closing := by
  unfold ShutdownCall.release
  split <;> exact Iff.rfl

/-- Those asleep are released with the counter at zero. -/
theorem CallInv.release (h : CallInv s c) (hinHand : s.inHand ≤ s.late) (releasing closing : Nat)
    (calls : List ShutdownCall) :
    CallInv
      { s with waiters := 0, releasing := releasing, closing := closing, calls := calls }
      c.release := by
  unfold ShutdownCall.release
  split
  next hasleep =>
    have hclosed : s.closed = true := h.closed (by rw [hasleep]; exact WaiterPhase.noConfusion)
    refine ⟨fun _ => hclosed, ?_, fun _ => hinHand, fun _ hw => absurd rfl hw, ?_⟩
    · intro hw
      cases hw
    · intro hnil
      cases hasleep.symm.trans (h.returned hnil)
  next hawake =>
    exact ⟨h.closed, fun hw => absurd hw hawake, fun _ => hinHand, fun _ hw => absurd rfl hw,
      h.returned⟩

theorem Inv.release (h : s.Inv) (hreleasing : s.releasing ≠ 0) :
    Inv
      { s with
        waiters := 0
        releasing := s.releasing - 1
        closing := s.closing + 1
        calls := s.calls.map ShutdownCall.release } := by
  obtain ⟨hone, hzero, hw⟩ := h.releasing hreleasing
  have hclosed := closed_of_waiters h hw
  refine ⟨h.counter, h.holding, fun _ => rfl, h.panic, ?_, h.finished, ?_, ?_⟩
  · intro hr
    exact absurd (congrArg (· - 1) hone) hr
  · intro i c hc hclosing
    rw [List.getElem?_map] at hc
    obtain ⟨d, hd, rfl⟩ := Option.map_eq_some_iff.1 hc
    exact h.closing i d hd (closing_release.1 hclosing)
  · intro c hc
    obtain ⟨d, hd, rfl⟩ := List.mem_map.1 hc
    exact (h.call d hd).release (inHand_le_late h hclosed hzero) _ _ _

/-! ## The calls of `Shutdown` -/

/-- The calls after one of them has moved on. -/
theorem getElem?_setCall {i j : Nat} {d : ShutdownCall} (hd : (s.setCall i c).calls[j]? = some d) :
    i = j ∧ d = c ∨ i ≠ j ∧ s.calls[j]? = some d := by
  rw [Life.setCall, List.getElem?_set] at hd
  split at hd
  next hij =>
    split at hd
    · exact .inl ⟨hij, (Option.some.inj hd).symm⟩
    · cases hd
  next hij => exact .inr ⟨hij, hd⟩

/-- Until the function of `shutdownOnce` has run, the listener is open. -/
theorem Inv.open_of_once (h : s.Inv) (honce : s.once ≠ .finished) : s.closed = false := by
  by_contra hclosed
  exact honce (h.finished.1 (Bool.not_eq_false _ ▸ hclosed))

/-- A call moves on, and nothing else does. -/
theorem Inv.setCall (h : s.Inv) {i : Nat} (hclosing : ¬ c.Closing) (hcall : CallInv s c) :
    (s.setCall i c).Inv := by
  refine ⟨h.counter, h.holding, h.listening, h.panic, h.releasing, h.finished, ?_, ?_⟩
  · intro j d hd hdclosing
    rcases getElem?_setCall hd with ⟨-, rfl⟩ | ⟨-, hd⟩
    · exact absurd hdclosing hclosing
    · exact h.closing j d hd hdclosing
  · intro d hd
    rcases List.mem_or_eq_of_mem_set hd with hd | rfl
    · exact (h.call d hd).keep (.of_eq rfl rfl rfl fun _ => Nat.le_refl _)
    · exact hcall.keep (.of_eq rfl rfl rfl fun _ => Nat.le_refl _)

/-- A call whose goroutine has not started knows nothing. -/
theorem callInv_unstarted (hwaiter : c.waiter = .unstarted) (hcall : c.call ≠ .returnedNil) :
    CallInv s c := by
  refine ⟨fun hw => absurd hwaiter hw, ?_, ?_, ?_, fun h => absurd h hcall⟩
  · intro hw
    cases hwaiter.symm.trans hw
  · rintro (hw | hw) <;> cases hwaiter.symm.trans hw
  · intro hw
    cases hwaiter.symm.trans hw

theorem Inv.shutdown (h : s.Inv) : Inv { s with calls := s.calls ++ [⟨.start, .unstarted⟩] } := by
  refine ⟨h.counter, h.holding, h.listening, h.panic, h.releasing, h.finished, ?_, ?_⟩
  · intro i c hc hclosing
    rw [List.getElem?_append] at hc
    split at hc
    · exact h.closing i c hc hclosing
    · rw [List.mem_singleton.1 (List.mem_of_getElem? hc)] at hclosing
      rcases hclosing with hcall | hcall <;> cases hcall
  · intro c hc
    rcases List.mem_append.1 hc with hc | hc
    · exact (h.call c hc).keep (.of_eq rfl rfl rfl fun _ => Nat.le_refl _)
    · rw [List.mem_singleton.1 hc]
      exact callInv_unstarted rfl CallPhase.noConfusion

theorem callInv_waiting (hclosed : s.closed = true) : CallInv s ⟨.selecting, .waiting⟩ := by
  refine ⟨fun _ => hclosed, ?_, ?_, ?_, ?_⟩
  · intro hw
    cases hw
  · rintro (hw | hw) <;> cases hw
  · intro hw
    cases hw
  · intro hcall
    cases hcall

/-- The call that runs the function of `shutdownOnce` moves on within it. -/
theorem Inv.setClosing (h : s.Inv) {i : Nat} (hopen : s.closed = false)
    (hothers : ∀ (j : Nat) (d : ShutdownCall), s.calls[j]? = some d → d.Closing → j = i)
    (hcall : CallInv s c) (quit : Bool) :
    Inv { s.setCall i c with once := .running i, quit := quit } := by
  refine ⟨h.counter, h.holding, h.listening, h.panic, h.releasing, ⟨?_, ?_⟩, ?_, ?_⟩
  · intro hclosed
    cases hopen.symm.trans hclosed
  · intro hfinished
    cases hfinished
  · intro j d hd hdclosing
    rcases getElem?_setCall hd with ⟨rfl, -⟩ | ⟨hij, hd⟩
    · rfl
    · exact absurd (hothers j d hd hdclosing).symm hij
  · intro d hd
    rcases List.mem_or_eq_of_mem_set hd with hd | rfl
    · exact (h.call d hd).keep (.of_eq rfl rfl rfl fun _ => Nat.le_refl _)
    · exact hcall.keep (.of_eq rfl rfl rfl fun _ => Nat.le_refl _)

/-- Before the listener is closed no goroutine has started, so the calls know nothing that could
change with `held`. -/
theorem Inv.closeListener (h : s.Inv) {i : Nat} (hrunning : s.once = .running i)
    (halive : s.panicked = false) :
    Inv
      { s.setCall i ⟨.selecting, .waiting⟩ with
        closed := true
        once := .finished
        held := decide (s.loop = .holding) } := by
  have hopen : s.closed = false := h.open_of_once fun hfinished => by
    cases hrunning.symm.trans hfinished
  refine ⟨h.counter, fun _ hholding => decide_eq_true hholding, ?_, ?_, h.releasing,
    ⟨fun _ => rfl, fun _ => rfl⟩, ?_, ?_⟩
  · intro hclosed
    cases hclosed
  · intro hpanicked
    cases halive.symm.trans hpanicked
  · intro j d hd hdclosing
    rcases getElem?_setCall hd with ⟨-, rfl⟩ | ⟨hij, hd⟩
    · rcases hdclosing with hcall | hcall <;> cases hcall
    · cases hrunning.symm.trans (h.closing j d hd hdclosing)
      exact absurd rfl hij
  · intro d hd
    rcases List.mem_or_eq_of_mem_set hd with hd | rfl
    · have hwaiter : d.waiter = .unstarted := by
        by_contra hstarted
        cases hopen.symm.trans ((h.call d hd).closed hstarted)
      refine callInv_unstarted hwaiter ?_
      intro hcall
      cases hwaiter.symm.trans ((h.call d hd).returned hcall)
    · exact callInv_waiting rfl

theorem mem_of_call {i : Nat} (hc : s.calls[i]? = some c) : c ∈ s.calls := List.mem_of_getElem? hc

/-- A call whose goroutine has started is out of `shutdownOnce`. -/
theorem Inv.not_closing (h : s.Inv) {i : Nat} (hc : s.calls[i]? = some c)
    (hstarted : c.waiter ≠ .unstarted) : ¬ c.Closing := by
  intro hclosing
  have hclosed := (h.call c (mem_of_call hc)).closed hstarted
  cases (h.finished.1 hclosed).symm.trans (h.closing i c hc hclosing)

/-- `Wait` with the counter at zero, or a goroutine that wakes up. -/
theorem callInv_drained {call : CallPhase} (hclosed : s.closed = true)
    (hinHand : s.inHand ≤ s.late) : CallInv s ⟨call, .drained⟩ := by
  refine ⟨fun _ => hclosed, ?_, fun _ => hinHand, ?_, fun _ => rfl⟩
  · intro hw
    cases hw
  · intro hw
    cases hw

/-- `Wait` goes to sleep: there is a connection that is served. -/
theorem Inv.sleep (h : s.Inv) {i : Nat} {call : CallPhase}
    (hc : s.calls[i]? = some ⟨call, .waiting⟩) (hcounter : s.counter ≠ 0) :
    Inv { s.setCall i ⟨call, .asleep⟩ with waiters := s.waiters + 1 } := by
  have hcall := h.call _ (mem_of_call hc)
  have hclosed : s.closed = true := hcall.closed WaiterPhase.noConfusion
  have hserving : s.serving ≠ 0 := h.counter ▸ hcounter
  have hkeep : Keeps s { s.setCall i ⟨call, .asleep⟩ with waiters := s.waiters + 1 } :=
    ⟨id, fun _ => Nat.succ_ne_zero _, fun _ hle => hle,
      fun _ hle _ _ => held_of_inHand_le hle hserving⟩
  refine ⟨h.counter, h.holding, ?_, h.panic, ?_, h.finished, ?_, ?_⟩
  · intro hopen
    cases hclosed.symm.trans hopen
  · intro hr
    exact absurd (h.releasing hr).2.1 hcounter
  · intro j d hd hdclosing
    rcases getElem?_setCall hd with ⟨rfl, rfl⟩ | ⟨-, hd⟩
    · exact h.closing i _ hc hdclosing
    · exact h.closing j d hd hdclosing
  · intro d hd
    rcases List.mem_or_eq_of_mem_set hd with hd | rfl
    · exact (h.call d hd).keep hkeep
    · refine ⟨fun _ => hclosed, fun _ => Nat.succ_ne_zero _, ?_, ?_, ?_⟩
      · rintro (hw | hw) <;> cases hw
      · intro hw
        cases hw
      · intro hnil
        cases hcall.returned hnil

/-! ## Runs -/

/-- The step lemma. -/
theorem inv_step {a : LifeAction} (h : s.Inv) (hstep : s.step a = some t) : t.Inv := by
  unfold step at hstep
  split at hstep
  next => cases hstep
  next halive =>
  have halive : s.panicked = false := Bool.not_eq_true _ ▸ halive
  cases a with
  | accept =>
      dsimp only at hstep
      split at hstep
      next hguard => exact Option.some.inj hstep ▸ h.accept hguard.2
      next => cases hstep
  | acceptError =>
      dsimp only at hstep
      split at hstep
      next =>
        split at hstep
        next => exact Option.some.inj hstep ▸ h.ended
        next => exact Option.some.inj hstep ▸ h
      next => cases hstep
  | register =>
      dsimp only at hstep
      split at hstep
      next hloop =>
        split at hstep
        next hmisuse =>
          exact Option.some.inj hstep ▸
            h.panicking (h.holding (closed_of_waiters h hmisuse.1) hloop)
        next hsafe => exact Option.some.inj hstep ▸ h.register hloop hsafe
      next => cases hstep
  | done =>
      dsimp only at hstep
      split at hstep
      next hserving =>
        -- somebody is served, so no release is under way
        have hnone : s.releasing = 0 := by
          by_contra hr
          exact hserving (h.counter ▸ (h.releasing hr).2.1)
        split at hstep
        next hlast =>
          refine Option.some.inj hstep ▸ h.done fun _ => ⟨?_, hlast⟩
          rw [hnone]
        next => exact Option.some.inj hstep ▸ h.done fun hr => absurd hnone hr
      next => cases hstep
  | release =>
      dsimp only at hstep
      split at hstep
      next hr =>
        split at hstep
        next hmisuse => exact absurd (h.releasing hr).2.1 hmisuse
        next => exact Option.some.inj hstep ▸ h.release hr
      next => cases hstep
  | closeConn =>
      dsimp only at hstep
      split at hstep
      next =>
        rw [← Option.some.inj hstep]
        exact ⟨h.counter, h.holding, h.listening, h.panic, h.releasing, h.finished, h.closing,
          fun c hc => (h.call c hc).keep (.of_eq rfl rfl rfl fun _ => Nat.le_refl _)⟩
      next => cases hstep
  | shutdown => exact Option.some.inj hstep ▸ h.shutdown
  | once i =>
      dsimp only at hstep
      split at hstep
      next =>
        split at hstep
        next hfresh =>
          have hopen : s.closed = false := h.open_of_once fun hfinished => by
            cases hfresh.symm.trans hfinished
          rw [← Option.some.inj hstep]
          refine h.setClosing hopen ?_ (callInv_unstarted rfl CallPhase.noConfusion) s.quit
          intro j d hd hclosing
          cases hfresh.symm.trans (h.closing j d hd hclosing)
        next => cases hstep
        next hfinished =>
          refine Option.some.inj hstep ▸ h.setCall ?_ (callInv_waiting (h.finished.2 hfinished))
          rintro (hcall | hcall) <;> cases hcall
      next => cases hstep
  | closeQuit i =>
      dsimp only at hstep
      split at hstep
      next hc =>
        have hrunning := h.closing i _ hc (.inl rfl)
        have hopen : s.closed = false := h.open_of_once fun hfinished => by
          cases hrunning.symm.trans hfinished
        have hothers : ∀ (j : Nat) (d : ShutdownCall), s.calls[j]? = some d →
            d.Closing → j = i := by
          intro j d hd hclosing
          cases hrunning.symm.trans (h.closing j d hd hclosing)
          rfl
        have hinv := h.setClosing (c := ⟨.closingListener, .unstarted⟩) hopen hothers
          (callInv_unstarted rfl CallPhase.noConfusion) true
        rw [← hrunning] at hinv
        exact Option.some.inj hstep ▸ hinv
      next => cases hstep
  | closeListener i =>
      dsimp only at hstep
      split at hstep
      next hc => exact Option.some.inj hstep ▸ h.closeListener (h.closing i _ hc (.inr rfl)) halive
      next => cases hstep
  | wait i =>
      dsimp only at hstep
      split at hstep
      next call hc =>
        have hclosed := (h.call _ (mem_of_call hc)).closed WaiterPhase.noConfusion
        split at hstep
        next hzero =>
          have hnot := h.not_closing hc WaiterPhase.noConfusion
          exact Option.some.inj hstep ▸ h.setCall (c := ⟨call, .drained⟩) hnot
            (callInv_drained hclosed (inHand_le_late h hclosed hzero))
        next hcounter => exact Option.some.inj hstep ▸ h.sleep hc hcounter
      next => cases hstep
  | wake i =>
      dsimp only at hstep
      split at hstep
      next call hc =>
        have hcall := h.call _ (mem_of_call hc)
        have hinHand := hcall.drained (.inl rfl)
        split at hstep
        next hmisuse =>
          refine Option.some.inj hstep ▸ h.panicking ?_
          rcases hmisuse with hcounter | hw
          · exact held_of_inHand_le hinHand (h.counter ▸ hcounter)
          · exact hcall.released rfl hw
        next =>
          have hnot := h.not_closing hc WaiterPhase.noConfusion
          exact Option.some.inj hstep ▸ h.setCall (c := ⟨call, .drained⟩) hnot
            (callInv_drained (hcall.closed WaiterPhase.noConfusion) hinHand)
      next => cases hstep
  | returnNil i =>
      dsimp only at hstep
      split at hstep
      next hc =>
        have hcall := h.call _ (mem_of_call hc)
        refine Option.some.inj hstep ▸ h.setCall ?_
          (callInv_drained (hcall.closed WaiterPhase.noConfusion) (hcall.drained (.inr rfl)))
        rintro (hcall | hcall) <;> cases hcall
      next => cases hstep
  | returnErr i =>
      dsimp only at hstep
      split at hstep
      next waiter hc =>
        have hcall := h.call _ (mem_of_call hc)
        refine Option.some.inj hstep ▸ h.setCall ?_
          ⟨hcall.closed, hcall.asleep, hcall.drained, hcall.released, ?_⟩
        · rintro (hcall | hcall) <;> cases hcall
        · intro hnil
          cases hnil
      next => cases hstep

theorem inv_listening : Inv listening where
  counter := rfl
  holding h := nomatch h
  listening _ := rfl
  panic h := nomatch h
  releasing h := absurd rfl h
  finished := by
    constructor <;> intro h <;> cases h
  closing i c hc := nomatch hc
  call c hc := nomatch hc

/-- The run lemma. -/
theorem inv_run {as : List LifeAction} (h : Runs s as t) (hs : s.Inv) : t.Inv :=
  h.invariant (fun _ hstep hinv => inv_step hinv hstep) hs

/-- After the listener is closed, `held` is fixed and no connection comes into hand. -/
structure Settled (s t : Life) : Prop where
  closed : t.closed = true
  held : t.held = s.held
  inHand : t.inHand ≤ s.inHand

theorem settled_step {a : LifeAction} (h : s.Inv) (hclosed : s.closed = true)
    (hstep : s.step a = some t) : Settled s t := by
  have hrefl : s.inHand ≤ s.inHand := Nat.le_refl _
  unfold step at hstep
  split at hstep
  next => cases hstep
  next =>
  cases a with
  | accept =>
      dsimp only at hstep
      split at hstep
      next hguard => cases hclosed.symm.trans hguard.2
      next => cases hstep
  | acceptError =>
      dsimp only at hstep
      split at hstep
      next =>
        split at hstep
        next => exact Option.some.inj hstep ▸ ⟨hclosed, rfl, Nat.le_add_right _ _⟩
        next => exact Option.some.inj hstep ▸ ⟨hclosed, rfl, hrefl⟩
      next => cases hstep
  | register =>
      dsimp only at hstep
      split at hstep
      next hloop =>
        split at hstep
        next => exact Option.some.inj hstep ▸ ⟨hclosed, rfl, hrefl⟩
        next =>
          refine Option.some.inj hstep ▸ ⟨hclosed, rfl, ?_⟩
          exact Nat.le_of_eq (inHand_of_holding hloop).symm
      next => cases hstep
  | done =>
      have hless : s.serving - 1 + (if s.loop = .holding then 1 else 0) ≤ s.inHand :=
        Nat.add_le_add_right (Nat.sub_le _ _) _
      dsimp only at hstep
      split at hstep
      next => split at hstep <;> exact Option.some.inj hstep ▸ ⟨hclosed, rfl, hless⟩
      next => cases hstep
  | closeListener i =>
      dsimp only at hstep
      split at hstep
      next hc =>
        cases (h.finished.1 hclosed).symm.trans (h.closing i _ hc (.inr rfl))
      next => cases hstep
  | shutdown => exact Option.some.inj hstep ▸ ⟨hclosed, rfl, hrefl⟩
  | once i =>
      dsimp only at hstep
      split at hstep
      next =>
        split at hstep
        next => exact Option.some.inj hstep ▸ ⟨hclosed, rfl, hrefl⟩
        next => cases hstep
        next => exact Option.some.inj hstep ▸ ⟨hclosed, rfl, hrefl⟩
      next => cases hstep
  | release | wait i | wake i =>
      dsimp only at hstep
      split at hstep
      next => split at hstep <;> exact Option.some.inj hstep ▸ ⟨hclosed, rfl, hrefl⟩
      next => cases hstep
  | closeConn | closeQuit i | returnNil i | returnErr i =>
      dsimp only at hstep
      split at hstep
      next => exact Option.some.inj hstep ▸ ⟨hclosed, rfl, hrefl⟩
      next => cases hstep

theorem settled_run {as : List LifeAction} (hs : s.Inv) (hclosed : s.closed = true)
    (h : Runs s as t) : Settled s t := by
  have hboth : t.Inv ∧ Settled s t := by
    refine h.invariant (P := fun u => u.Inv ∧ Settled s u) ?_ ⟨hs, hclosed, rfl, Nat.le_refl _⟩
    rintro u a v _ hstep ⟨hu, hsettled⟩
    have hv := settled_step hu hsettled.closed hstep
    exact ⟨inv_step hu hstep, hv.closed, hv.held.trans hsettled.held,
      Nat.le_trans hv.inHand hsettled.inHand⟩
  exact hboth.2

/-- **What a `Shutdown` that returned nil means.** From then on, in every interleaving, the listener
is closed, and at most one connection is served or still comes to be served, namely one that the
accept loop had in hand when the listener was closed; without such a connection there is none. The
wait group does not panic, unless there was such a connection. -/
theorem drained {as : List LifeAction} (h : Runs listening as s) :
    (s.panicked = true → s.held = true) ∧
      ∀ c ∈ s.calls, c.call = .returnedNil → ∀ (bs : List LifeAction) (t : Life), Runs s bs t →
        t.closed = true ∧ t.inHand ≤ s.late := by
  have hs := inv_run h inv_listening
  refine ⟨hs.panic, ?_⟩
  intro c hc hnil bs t ht
  have hcall := hs.call c hc
  have hwaiter := hcall.returned hnil
  have hclosed : s.closed = true := hcall.closed (by rw [hwaiter]; exact WaiterPhase.noConfusion)
  have hsettled := settled_run hs hclosed ht
  exact ⟨hsettled.closed, Nat.le_trans hsettled.inHand (hcall.drained (.inr hwaiter))⟩

/-- The steps of a list, one after the other. -/
def exec : Life → List LifeAction → Option Life
  | s, [] => some s
  | s, a :: as => (s.step a).bind fun t => exec t as

theorem runs_of_exec {as : List LifeAction} (h : exec s as = some t) : Runs s as t := by
  induction as generalizing s with
  | nil =>
      obtain rfl := Option.some.inj h
      exact .nil s
  | cons a as ih =>
      obtain ⟨u, hstep, hrest⟩ := Option.bind_eq_some_iff.1 h
      exact .cons trivial hstep (ih hrest)

/-- `Shutdown` while two connections are served and a third is in the hands of the accept loop. The
goroutine of the call sleeps until the second handler is done. -/
def busyShutdown : List LifeAction :=
  [.accept, .register, .accept, .register, .accept, .shutdown, .once 0, .closeQuit 0,
    .closeListener 0, .wait 0, .done, .done, .release, .closeConn, .wake 0, .returnNil 0]

/-- The server then: one connection is still to be closed, and the third to be served. -/
def stopped : Life :=
  { listening with
    loop := .holding
    once := .finished
    quit := true
    closed := true
    closing := 1
    calls := [⟨.returnedNil, .drained⟩]
    held := true }

theorem drained_busy :
    Runs listening busyShutdown stopped ∧ stopped.inHand = 1 ∧
      ∀ (bs : List LifeAction) (t : Life), Runs stopped bs t → t.closed = true ∧ t.inHand ≤ 1 := by
  have h : Runs listening busyShutdown stopped := runs_of_exec (by decide)
  exact ⟨h, by decide, (drained h).2 ⟨.returnedNil, .drained⟩ List.mem_cons_self rfl⟩

-- both exceptions occur: a connection that is served after `Shutdown` has returned nil
example : (exec stopped [.register]).map (fun s => (s.serving, s.panicked)) = some (1, false) := by
  decide

-- and a panic: the counter leaves zero before the goroutine that was released is awake
example : (exec listening [.accept, .register, .accept, .shutdown, .once 0, .closeQuit 0,
    .closeListener 0, .wait 0, .done, .release, .register, .wake 0]).map Life.panicked =
      some true := by
  decide

end Life

end Hapartition
