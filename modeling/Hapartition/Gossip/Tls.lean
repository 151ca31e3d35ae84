import Mathlib.Data.List.Basic
import Hapartition.Lib.Transition

/-!
# The TLS transport

`streamInterceptor` and `Shutdown` of `internal/gossip/tls_transport.go`, in every interleaving: the
interceptor takes raw connections from the inner transport, runs the server side of the handshake on
them under a deadline, and sends those that pass to memberlist. It may see the shutdown between any
two connections, and while it waits for memberlist to take one.

`Intercept.accounted`: every connection that it has taken, but for the one in its hands, was either
handed over once, verified and without a deadline, or closed once; memberlist has them in the order
of their arrival. Once `Shutdown` has returned there is none in its hands, and nothing is handed
over any more.
-/

set_option autoImplicit false

namespace Hapartition

open Lib

/-- What has been done with a connection: whether it has a deadline, whether the handshake on it has
passed, how often it was sent to memberlist, and how often it was closed. -/
structure RawConn where
  deadline : Bool
  verified : Bool
  sent : Nat
  closes : Nat
  deriving DecidableEq, Repr

/-- Where the interceptor is: in the outer `select`, with a connection before one of the calls on it
or in the inner `select`, or at its end. -/
inductive InterceptPhase where
  | selecting
  | arming (c : Nat)
  | handshaking (c : Nat)
  | clearing (c : Nat)
  | sending (c : Nat)
  | returned
  deriving DecidableEq, Repr

/-- Where a call of `Shutdown` is, after `close(t.shutdownCh)`: in `wg.Wait`, before the shutdown of
the inner transport, or returned. -/
inductive TlsCall where
  | waiting
  | closingInner
  | returned
  deriving DecidableEq, Repr

/-- The state of the transport; connections are numbered in the order in which the interceptor takes
them. -/
structure Intercept where
  phase : InterceptPhase
  quit : Bool
  conns : List RawConn
  stream : List Nat
  calls : List TlsCall
  panicked : Bool
  deriving DecidableEq, Repr

/-- What happens next; calls on a connection succeed or fail. -/
inductive InterceptAction where
  | take
  | rawClosed
  | sawQuit
  | arm (ok : Bool)
  | handshake (ok : Bool)
  | clear (ok : Bool)
  | send
  | drop
  | shutdown
  | waited (i : Nat)
  | innerShutdown (i : Nat)
  deriving DecidableEq, Repr

namespace Intercept

/-- `NewTLSTransport`. -/
def start : Intercept := ⟨.selecting, false, [], [], [], false⟩

def modify (s : Intercept) (c : Nat) (f : RawConn → RawConn) : Intercept :=
  { s with conns := s.conns.modify c f }

/-- `conn.Close`. -/
def close (s : Intercept) (c : Nat) : Intercept :=
  s.modify c fun r => { r with closes := r.closes + 1 }

/-- One step; a panic ends the process. -/
def step (s : Intercept) (a : InterceptAction) : Option Intercept :=
  if s.panicked then none else
  match a, s.phase with
  | .take, .selecting =>
      some { s with phase := .arming s.conns.length, conns := s.conns ++ [⟨false, false, 0, 0⟩] }
  | .rawClosed, .selecting => some { s with phase := .returned }
  | .sawQuit, .selecting => if s.quit then some { s with phase := .returned } else none
  | .arm true, .arming c =>
      some { s.modify c (fun r => { r with deadline := true }) with phase := .handshaking c }
  | .arm false, .arming c => some { s.close c with phase := .selecting }
  | .handshake true, .handshaking c =>
      some { s.modify c (fun r => { r with verified := true }) with phase := .clearing c }
  | .handshake false, .handshaking c => some { s.close c with phase := .selecting }
  | .clear true, .clearing c =>
      some { s.modify c (fun r => { r with deadline := false }) with phase := .sending c }
  | .clear false, .clearing c => some { s.close c with phase := .selecting }
  | .send, .sending c =>
      some { s.modify c (fun r => { r with sent := r.sent + 1 }) with
        phase := .selecting
        stream := s.stream ++ [c] }
  | .drop, .sending c => if s.quit then some { s.close c with phase := .returned } else none
  | .shutdown, _ =>
      -- a channel that is closed already cannot be closed
      if s.quit then some { s with panicked := true }
      else some { s with quit := true, calls := s.calls ++ [.waiting] }
  | .waited i, .returned =>
      if s.calls[i]? = some .waiting then some { s with calls := s.calls.set i .closingInner }
      else none
  | .innerShutdown i, _ =>
      if s.calls[i]? = some .closingInner then some { s with calls := s.calls.set i .returned }
      else none
  | _, _ => none

/-- A run from one state to another. -/
def Runs (s : Intercept) (as : List InterceptAction) (t : Intercept) : Prop :=
  Run step (fun _ _ => True) s as t

end Intercept

/-! ## Connections -/

/-- The connection in the hands of the interceptor, and what has been done with it by then. -/
def InterceptPhase.held : InterceptPhase → Option (Nat × RawConn)
  | .selecting => none
  | .arming c => some (c, ⟨false, false, 0, 0⟩)
  | .handshaking c => some (c, ⟨true, false, 0, 0⟩)
  | .clearing c => some (c, ⟨true, true, 0, 0⟩)
  | .sending c => some (c, ⟨false, true, 0, 0⟩)
  | .returned => none

/-- The connection was handed over once, verified and without a deadline, or closed once. -/
def RawConn.Settled (r : RawConn) : Prop :=
  r = ⟨false, true, 1, 0⟩ ∨ r.sent = 0 ∧ r.closes = 1

namespace Intercept

/-- The connections in front of the one in hand are settled, and memberlist has those that were
sent. -/
structure Inv (s : Intercept) : Prop where
  settled : ∀ c r, s.conns[c]? = some r → (∃ r', s.phase.held = some (c, r')) ∨ r.Settled
  held : ∀ c r, s.phase.held = some (c, r) → s.conns[c]? = some r ∧ c + 1 = s.conns.length
  stream : ∀ c, c ∈ s.stream ↔ ∃ r, s.conns[c]? = some r ∧ r.sent = 1
  order : s.stream.Pairwise (· < ·)
  calls : ∀ call ∈ s.calls, call ≠ .waiting → s.phase = .returned

variable {s t : Intercept} {c : Nat} {r : RawConn}

theorem inv_start : Inv start where
  settled := by simp [start]
  held := by simp [start, InterceptPhase.held]
  stream := by simp [start]
  order := .nil
  calls := by simp [start]

/-- With a connection in hand, every call is still in `wg.Wait`. -/
theorem Inv.waiting_of_held (h : Inv s) (hheld : s.phase.held = some (c, r)) :
    ∀ call ∈ s.calls, call = .waiting := by
  intro call hcall
  by_contra hne
  rw [h.calls call hcall hne] at hheld
  cases hheld

/-- A call on the connection in hand: it stays in hand, or it is settled. -/
theorem Inv.modify (h : Inv s) (hheld : s.phase.held = some (c, r)) {f : RawConn → RawConn}
    {p : InterceptPhase} {stream : List Nat}
    (hp : p.held = some (c, f r) ∨ p.held = none ∧ (f r).Settled)
    (hstream : stream = s.stream ∧ (f r).sent = 0 ∨ stream = s.stream ++ [c] ∧ (f r).sent = 1)
    (hsent : r.sent = 0) : Inv { s.modify c f with phase := p, stream := stream } := by
  obtain ⟨hc, hlast⟩ := h.held c r hheld
  have hget : ∀ d, (s.conns.modify c f)[d]? = if c = d then some (f r) else s.conns[d]? := by
    intro d
    rw [List.getElem?_modify]
    split
    next heq =>
      subst heq
      rw [hc]
      rfl
    next => simp
  have hnew : c ∉ s.stream := by
    intro hmem
    obtain ⟨r', hr', hone⟩ := (h.stream c).1 hmem
    rw [hc] at hr'
    rw [← Option.some.inj hr', hsent] at hone
    cases hone
  refine ⟨?_, ?_, ?_, ?_, ?_⟩
  · intro d r' hd
    change (s.conns.modify c f)[d]? = some r' at hd
    rw [hget] at hd
    split at hd
    next heq =>
      subst heq
      obtain rfl := Option.some.inj hd
      exact hp.imp (fun hp => ⟨_, hp⟩) And.right
    next hne =>
      rcases h.settled d r' hd with ⟨r'', hr''⟩ | hsettled
      · rw [hheld] at hr''
        exact absurd (congrArg Prod.fst (Option.some.inj hr'')) hne
      · exact .inr hsettled
  · intro d r' hd
    rcases hp with hp | ⟨hp, -⟩
    · obtain ⟨rfl, rfl⟩ := Prod.mk.inj (Option.some.inj (hp.symm.trans hd))
      exact ⟨(hget c).trans (if_pos rfl), hlast.trans (List.length_modify ..).symm⟩
    · rw [hp] at hd
      cases hd
  · intro d
    change d ∈ stream ↔ ∃ r', (s.conns.modify c f)[d]? = some r' ∧ r'.sent = 1
    rw [hget]
    by_cases hcd : c = d
    · subst hcd
      simp only [if_true, Option.some.injEq, exists_eq_left']
      rcases hstream with ⟨rfl, hzero⟩ | ⟨rfl, hone⟩
      · exact iff_of_false hnew (by omega)
      · exact iff_of_true (by simp) hone
    · rw [if_neg hcd, ← h.stream d]
      rcases hstream with ⟨rfl, -⟩ | ⟨rfl, -⟩
      · rfl
      · simp [Ne.symm hcd]
  · rcases hstream with ⟨rfl, -⟩ | ⟨rfl, -⟩
    · exact h.order
    · -- the connection in hand is the last that was taken
      refine List.pairwise_append.2 ⟨h.order, List.pairwise_singleton _ _, ?_⟩
      intro d hd d' hd'
      rw [List.mem_singleton.1 hd']
      obtain ⟨r', hr', -⟩ := (h.stream d).1 hd
      have hlt := (List.getElem?_eq_some_iff.1 hr').1
      have hne : d ≠ c := fun heq => hnew (heq ▸ hd)
      omega
  · intro call hcall hne
    exact absurd (h.waiting_of_held hheld call hcall) hne

theorem Inv.take (h : Inv s) (hphase : s.phase = .selecting) :
    Inv { s with phase := .arming s.conns.length, conns := s.conns ++ [⟨false, false, 0, 0⟩] } := by
  have hget : ∀ {d r}, (s.conns ++ [⟨false, false, 0, 0⟩])[d]? = some r →
      s.conns[d]? = some r ∨ d = s.conns.length ∧ r = ⟨false, false, 0, 0⟩ := by
    intro d r hd
    rcases Nat.lt_or_ge d s.conns.length with hlt | hge
    · rw [List.getElem?_append_left hlt] at hd
      exact .inl hd
    · rw [List.getElem?_append_right hge] at hd
      obtain ⟨hlt, heq⟩ := List.getElem?_eq_some_iff.1 hd
      rw [List.length_singleton] at hlt
      exact .inr ⟨by omega, by rw [← heq]; simp⟩
  refine ⟨?_, ?_, ?_, h.order, ?_⟩
  · intro d r hd
    rcases hget hd with hd | ⟨rfl, -⟩
    · rcases h.settled d r hd with ⟨r', hr'⟩ | hsettled
      · rw [hphase] at hr'
        cases hr'
      · exact .inr hsettled
    · exact .inl ⟨_, rfl⟩
  · intro d r hd
    obtain ⟨rfl, rfl⟩ := Prod.mk.inj (Option.some.inj hd)
    exact ⟨by simp, by simp⟩
  · intro d
    change d ∈ s.stream ↔ ∃ r, (s.conns ++ [⟨false, false, 0, 0⟩])[d]? = some r ∧ r.sent = 1
    rw [h.stream d]
    constructor
    · rintro ⟨r, hd, hone⟩
      have hlt := (List.getElem?_eq_some_iff.1 hd).1
      exact ⟨r, (List.getElem?_append_left hlt).trans hd, hone⟩
    · rintro ⟨r, hd, hone⟩
      rcases hget hd with hd | ⟨-, rfl⟩
      · exact ⟨r, hd, hone⟩
      · cases hone
  · intro call hcall hne
    have hreturned := h.calls call hcall hne
    rw [hphase] at hreturned
    cases hreturned

/-- Without a connection in hand, the interceptor may return. -/
theorem Inv.return (h : Inv s) (hphase : s.phase = .selecting) :
    Inv { s with phase := .returned } where
  settled := by
    intro c r hc
    rcases h.settled c r hc with ⟨r', hr'⟩ | hsettled
    · rw [hphase] at hr'
      cases hr'
    · exact .inr hsettled
  held := fun c r hheld => by cases hheld
  stream := h.stream
  order := h.order
  calls := fun _ _ _ => rfl

/-- A call of `Shutdown` goes on. -/
theorem Inv.setCall (h : Inv s) (hphase : s.phase = .returned) (calls : List TlsCall) :
    Inv { s with calls := calls } :=
  ⟨h.settled, h.held, h.stream, h.order, fun _ _ _ => hphase⟩

/-- A call on the connection in hand succeeds. -/
theorem Inv.advance (h : Inv s) (hheld : s.phase.held = some (c, r)) {f : RawConn → RawConn}
    {p : InterceptPhase} (hp : p.held = some (c, f r)) (hsent : r.sent = 0 ∧ (f r).sent = 0) :
    Inv { s.modify c f with phase := p } :=
  h.modify hheld (.inl hp) (.inl ⟨rfl, hsent.2⟩) hsent.1

/-- The connection in hand is closed. -/
theorem Inv.reject (h : Inv s) (hheld : s.phase.held = some (c, r)) (hr : r.sent = 0 ∧ r.closes = 0)
    {p : InterceptPhase} (hp : p.held = none) : Inv { s.close c with phase := p } :=
  h.modify hheld (.inr ⟨hp, .inr ⟨hr.1, congrArg (· + 1) hr.2⟩⟩) (.inl ⟨rfl, hr.1⟩) hr.1

theorem Inv.step (h : Inv s) {a : InterceptAction} (hstep : s.step a = some t) : Inv t := by
  have hheld {c : Nat} {p : InterceptPhase} {r : RawConn} (hphase : s.phase = p)
      (hp : p.held = some (c, r)) : s.phase.held = some (c, r) := hphase ▸ hp
  unfold Intercept.step at hstep
  split at hstep
  · cases hstep
  split at hstep
  next hphase => exact Option.some.inj hstep ▸ h.take hphase
  next hphase => exact Option.some.inj hstep ▸ h.return hphase
  next hphase =>
    split at hstep
    · exact Option.some.inj hstep ▸ h.return hphase
    · cases hstep
  -- the three calls on a connection, each of which may fail
  next hphase => exact Option.some.inj hstep ▸ h.advance (hheld hphase rfl) rfl ⟨rfl, rfl⟩
  next hphase => exact Option.some.inj hstep ▸ h.reject (hheld hphase rfl) ⟨rfl, rfl⟩ rfl
  next hphase => exact Option.some.inj hstep ▸ h.advance (hheld hphase rfl) rfl ⟨rfl, rfl⟩
  next hphase => exact Option.some.inj hstep ▸ h.reject (hheld hphase rfl) ⟨rfl, rfl⟩ rfl
  next hphase => exact Option.some.inj hstep ▸ h.advance (hheld hphase rfl) rfl ⟨rfl, rfl⟩
  next hphase => exact Option.some.inj hstep ▸ h.reject (hheld hphase rfl) ⟨rfl, rfl⟩ rfl
  next hphase =>
    exact Option.some.inj hstep ▸
      h.modify (hheld hphase rfl) (.inr ⟨rfl, .inl rfl⟩) (.inr ⟨rfl, rfl⟩) rfl
  next hphase =>
    split at hstep
    · exact Option.some.inj hstep ▸ h.reject (hheld hphase rfl) ⟨rfl, rfl⟩ rfl
    · cases hstep
  next =>
    split at hstep
    · exact Option.some.inj hstep ▸ ⟨h.settled, h.held, h.stream, h.order, h.calls⟩
    · obtain rfl := Option.some.inj hstep
      refine ⟨h.settled, h.held, h.stream, h.order, ?_⟩
      intro call hcall hne
      rcases List.mem_append.1 hcall with hcall | hcall
      · exact h.calls call hcall hne
      · exact absurd (List.mem_singleton.1 hcall) hne
  next hphase =>
    split at hstep
    · exact Option.some.inj hstep ▸ h.setCall hphase _
    · cases hstep
  next =>
    split at hstep
    next hcall =>
      have hphase := h.calls _ (List.mem_of_getElem? hcall) (by decide)
      exact Option.some.inj hstep ▸ h.setCall hphase _
    · cases hstep
  · cases hstep

/-- After the interceptor has returned, nothing is done with a connection. -/
theorem step_of_returned (hphase : s.phase = .returned) {a : InterceptAction}
    (hstep : s.step a = some t) :
    t.phase = .returned ∧ t.conns = s.conns ∧ t.stream = s.stream := by
  unfold Intercept.step at hstep
  rw [hphase] at hstep
  split at hstep
  · cases hstep
  cases a with
  | shutdown =>
      simp only at hstep
      split at hstep <;> exact Option.some.inj hstep ▸ ⟨rfl, rfl, rfl⟩
  | waited i =>
      simp only at hstep
      split at hstep
      · exact Option.some.inj hstep ▸ ⟨rfl, rfl, rfl⟩
      · cases hstep
  | innerShutdown i =>
      simp only at hstep
      split at hstep
      · exact Option.some.inj hstep ▸ ⟨rfl, rfl, rfl⟩
      · cases hstep
  | arm ok => cases ok <;> cases hstep
  | handshake ok => cases ok <;> cases hstep
  | clear ok => cases ok <;> cases hstep
  | _ => cases hstep

theorem Inv.runs (h : Inv s) {as : List InterceptAction} (hrun : Runs s as t) : Inv t :=
  Run.invariant (P := Inv) (fun _ hstep hs => hs.step hstep) hrun h

/-- **Every connection is accounted for.** In every state that the transport can reach, a connection
that the interceptor has taken is in its hands, was handed over once, verified and without a
deadline, or was closed once. Memberlist has exactly those that were handed over, in the order in
which they were taken. When a call of `Shutdown` has returned, no connection is in hand, and none is
handed over or closed from then on. -/
theorem accounted {as : List InterceptAction} (hrun : Runs start as s) :
    (∀ c r, s.conns[c]? = some r → (∃ r', s.phase.held = some (c, r')) ∨ r.Settled) ∧
      s.stream.Pairwise (· < ·) ∧
      (∀ c, c ∈ s.stream ↔ ∃ r, s.conns[c]? = some r ∧ r.sent = 1) ∧
      (.returned ∈ s.calls → (∀ r ∈ s.conns, r.Settled) ∧
        ∀ bs t, Runs s bs t → t.conns = s.conns ∧ t.stream = s.stream) := by
  have h := inv_start.runs hrun
  refine ⟨h.settled, h.order, h.stream, ?_⟩
  intro hcall
  have hphase := h.calls _ hcall (by decide)
  constructor
  · intro r hr
    obtain ⟨c, hc⟩ := List.getElem?_of_mem hr
    refine (h.settled c r hc).resolve_left ?_
    rintro ⟨r', hr'⟩
    rw [hphase] at hr'
    cases hr'
  · intro bs t hrun'
    have hkept : t.phase = .returned ∧ t.conns = s.conns ∧ t.stream = s.stream := by
      refine Run.invariant (P := fun t => t.phase = .returned ∧ t.conns = s.conns ∧
        t.stream = s.stream) ?_ hrun' ⟨hphase, rfl, rfl⟩
      rintro u a v - hstep ⟨hu, hconns, hstream⟩
      obtain ⟨hv, hconns', hstream'⟩ := step_of_returned hu hstep
      exact ⟨hv, hconns'.trans hconns, hstream'.trans hstream⟩
    exact hkept.2

/-- A connection is handed over, the next one fails the handshake, and the third is dropped because
of a shutdown. -/
def threeConns : List InterceptAction :=
  [.take, .arm true, .handshake true, .clear true, .send, .take, .arm true, .handshake false,
    .take, .arm true, .handshake true, .clear true, .shutdown, .drop, .waited 0, .innerShutdown 0]

theorem accounted_three :
    ∃ s, Runs start threeConns s ∧ s.stream = [0] ∧ ∀ r ∈ s.conns, r.Settled := by
  have hrun : Runs start threeConns ⟨.returned, true,
      [⟨false, true, 1, 0⟩, ⟨true, false, 0, 1⟩, ⟨false, true, 0, 1⟩], [0], [.returned],
      false⟩ := by
    repeat' first
      | exact Run.nil _
      | refine Run.cons trivial rfl ?_
  exact ⟨_, hrun, rfl, ((accounted hrun).2.2.2 (by decide)).1⟩

end Intercept

end Hapartition
