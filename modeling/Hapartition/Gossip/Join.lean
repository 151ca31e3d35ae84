import Hapartition.Gossip.Handler
import Hapartition.Lib.Transition

/-!
# Joining the cluster

The part of `Start` that finds and joins the other nodes, and `retryJoin`, which goes on with it in
the background, on a handler with a `Discoverer`. What the transport and the discoverer return is
left open: every outcome of a call is an event, and a run is a list of events.

The retry is meant to go on until the node has company or is stopped. It returns at once, however,
if it is handed no seeds, and what it is handed is what the first discovery returned. So it gives up
early exactly after a first discovery without seeds (`retry_persists_iff`); with seeds, failed
rounds follow each other without end (`retry_goes_on`).
-/

set_option autoImplicit false

namespace Hapartition

open Lib

namespace Join

/-- Where `Start`, and then `retryJoin` in the background, have got to: each phase is named after
the call whose outcome is awaited. -/
inductive Phase where
  /-- `Start`, at the start of the transport. -/
  | starting
  /-- `Start` has returned the error of the transport. -/
  | failed
  /-- `Start`, at `Discover`. -/
  | discovering
  /-- `Start`, at `Join`. -/
  | joining (seeds : List Bytes)
  /-- `retryJoin`, at the first `Members`. -/
  | checking
  /-- `retryJoin`, at the `select` of its loop. -/
  | waiting
  /-- `retryJoin`, at `Members` in its loop. -/
  | rechecking
  /-- `retryJoin`, at `Discover` in its loop. -/
  | rediscovering
  /-- `retryJoin`, at `Join` in its loop. -/
  | rejoining (seeds : List Bytes)
  /-- `retryJoin` has returned. -/
  | returned
  deriving DecidableEq, Repr

/-- The outcomes of the calls, and what else can happen. -/
inductive Event where
  | started (err : Option Bytes)
  | discovered (seeds : List Bytes) (err : Option Bytes)
  | joined (err : Option Bytes)
  | members (ms : List MemberInfo)
  /-- The ticker fires. -/
  | tick
  /-- The `select` takes the closed `stopCh`. -/
  | stop
  /-- `Leave` closes `stopCh`, at any time. -/
  | leave
  deriving DecidableEq, Repr

/-- The beginning of `retryJoin`. -/
def retryJoin (seeds : List Bytes) : Phase :=
  if seeds.length = 0 then .returned else .checking

/-- What follows the outcome of a call. -/
def Phase.next : Phase → Event → Option Phase
  | .starting, .started err => some (if err.isSome then .failed else .discovering)
  | .discovering, .discovered seeds err =>
      -- the error of `Discover` is logged, and the retry is handed the seeds in any case
      some (if err.isSome then retryJoin seeds
        else if 0 < seeds.length then .joining seeds
        else retryJoin seeds)
  | .joining seeds, .joined _ => some (retryJoin seeds)
  | .checking, .members ms => some (if 1 < ms.length then .returned else .waiting)
  | .waiting, .tick => some .rechecking
  | .rechecking, .members ms => some (if 1 < ms.length then .returned else .rediscovering)
  | .rediscovering, .discovered seeds err =>
      some (if err.isSome then .waiting
        else if seeds.length = 0 then .waiting
        else .rejoining seeds)
  | .rejoining _, .joined err => some (if err.isNone then .returned else .waiting)
  | _, _ => none

/-- The phase, and whether `stopCh` is closed. -/
structure State where
  phase : Phase
  stopped : Bool
  deriving DecidableEq, Repr

def State.step (s : State) : Event → Option State
  -- closing a closed channel panics
  | .leave => if s.stopped then none else some { s with stopped := true }
  | .stop =>
      if s.phase = .waiting ∧ s.stopped = true then some { s with phase := .returned } else none
  | e => (s.phase.next e).map fun phase => { s with phase := phase }

/-- The state in which `Start` is called. -/
def start : State := ⟨.starting, false⟩

/-- Runs: nothing is assumed about the events. -/
def Runs (s : State) (es : List Event) (t : State) : Prop :=
  Run State.step (fun _ _ => True) s es t

/-! ## When the retry returns -/

/-- What may end the retry: the handler was stopped, a check saw more than one member, or a `Join`
succeeded. -/
def Event.Excuses : Event → Prop
  | .leave => True
  | .members ms => 1 < ms.length
  | .joined err => err = none
  | _ => False

/-- The seeds that the first discovery returned. -/
def firstSeeds (es : List Event) : Option (List Bytes) :=
  es.findSome? fun e => match e with
    | .discovered seeds _ => some seeds
    | _ => none

/-- The retry has not returned, and it has been or will be handed seeds if `es` is what happens. -/
def Phase.Goes (es : List Event) : Phase → Prop
  | .starting | .discovering => firstSeeds es ≠ some []
  | .joining seeds => seeds ≠ []
  | .returned => False
  | _ => True

theorem goes_retryJoin {seeds : List Bytes} (h : seeds ≠ []) (es : List Event) :
    (retryJoin seeds).Goes es := by
  rw [retryJoin, if_neg (mt List.length_eq_zero_iff.1 h)]
  trivial

theorem goes_of_members {p : Phase} {es : List Event} (hp : p.Goes es) (ms : List MemberInfo) :
    (Event.members ms).Excuses ∨ (if 1 < ms.length then Phase.returned else p).Goes es := by
  split
  next hmany => exact .inl hmany
  next => exact .inr hp

/-- Only an excuse ends the retry, in one call. -/
theorem goes_next {p p' : Phase} {e : Event} {es : List Event} (h : p.next e = some p')
    (hp : p.Goes (e :: es)) : e.Excuses ∨ p'.Goes es := by
  unfold Phase.next at h
  split at h
  next err =>
    right
    obtain rfl := Option.some.inj h
    split
    · trivial
    · exact hp
  next seeds err =>
    right
    obtain rfl := Option.some.inj h
    have hseeds : seeds ≠ [] := by
      rintro rfl
      exact hp rfl
    split
    · exact goes_retryJoin hseeds es
    · split
      · exact hseeds
      · exact goes_retryJoin hseeds es
  next seeds err =>
    right
    obtain rfl := Option.some.inj h
    exact goes_retryJoin hp es
  next ms =>
    obtain rfl := Option.some.inj h
    exact goes_of_members (p := .waiting) trivial ms
  next =>
    obtain rfl := Option.some.inj h
    exact .inr trivial
  next ms =>
    obtain rfl := Option.some.inj h
    exact goes_of_members (p := .rediscovering) trivial ms
  next seeds err =>
    right
    obtain rfl := Option.some.inj h
    split
    · trivial
    · split <;> trivial
  next seeds err =>
    obtain rfl := Option.some.inj h
    split
    next hok => exact .inl (Option.isNone_iff_eq_none.1 hok)
    next => exact .inr trivial
  next => cases h

/-- Only an excuse ends the retry, in one step. -/
theorem goes_step {s t : State} {e : Event} {es : List Event} (h : s.step e = some t)
    (hs : s.phase.Goes (e :: es)) :
    s.stopped = true ∨ e.Excuses ∨ t.stopped = s.stopped ∧ t.phase.Goes es := by
  unfold State.step at h
  split at h
  next => exact .inr (.inl trivial)
  next =>
    split at h
    next hstop => exact .inl hstop.2
    next => cases h
  next e _ _ =>
    obtain ⟨p, hp, rfl⟩ := Option.map_eq_some_iff.1 h
    exact .inr ((goes_next hp hs).imp_right fun hgoes => ⟨rfl, hgoes⟩)

/-- Only an excuse ends the retry, in any run. -/
theorem excused_of_runs {s t : State} {es : List Event} (h : Runs s es t)
    (hs : s.phase.Goes es) (hstopped : s.stopped = false) (ht : t.phase = .returned) :
    ∃ e ∈ es, e.Excuses := by
  induction h with
  | nil s =>
      rw [ht] at hs
      exact hs.elim
  | @cons s s' t e es _ hstep _ ih =>
      rcases goes_step hstep hs with hstop | hexcuse | ⟨hsame, hgoes⟩
      · rw [hstopped] at hstop
        cases hstop
      · exact ⟨e, List.mem_cons_self, hexcuse⟩
      · obtain ⟨e', he', hexcuse⟩ := ih hgoes (hsame.trans hstopped) ht
        exact ⟨e', List.mem_cons_of_mem e he', hexcuse⟩

/-- A first discovery without seeds. -/
def noSeeds (err : Option Bytes) : List Event := [.started none, .discovered [] err]

/-- The retry is handed no seeds, and returns. -/
theorem runs_noSeeds (err : Option Bytes) : Runs start (noSeeds err) ⟨.returned, false⟩ := by
  refine .cons trivial rfl (.single trivial ?_)
  cases err <;> rfl

/-- **The retry does not give up**, after a first discovery with the given seeds, if and only if
there are any: in every run in which it returns, the handler was stopped, or a check saw more than
one member, or a `Join` succeeded. -/
theorem retry_persists_iff (seeds : List Bytes) :
    (∀ es t, Runs start es t → firstSeeds es = some seeds → t.phase = .returned →
      ∃ e ∈ es, e.Excuses) ↔ seeds ≠ [] := by
  constructor
  · rintro hpersists rfl
    obtain ⟨e, he, hexcuse⟩ := hpersists _ _ (runs_noSeeds none) rfl rfl
    rcases List.mem_pair.1 he with rfl | rfl
    · exact hexcuse
    · exact hexcuse
  · intro hseeds es t hrun hfirst ht
    refine excused_of_runs hrun ?_ rfl ht
    show firstSeeds es ≠ some []
    rw [hfirst]
    exact fun h => hseeds (Option.some.inj h)

/-- A failing first discovery ends the retry, though nothing has been joined. -/
theorem retry_gives_up :
    Runs start (noSeeds (some (str "no such host"))) ⟨.returned, false⟩ ∧
      ¬ ∃ e ∈ noSeeds (some (str "no such host")), e.Excuses := by
  refine ⟨runs_noSeeds _, ?_⟩
  rintro ⟨e, he, hexcuse⟩
  rcases List.mem_pair.1 he with rfl | rfl
  · exact hexcuse
  · exact hexcuse

/-! ## Failed rounds -/

/-- A round of the loop of `retryJoin` on a lonely node: the discovery fails or returns no seeds, or
the `Join` fails. -/
inductive FailedRound : List Event → Prop where
  | discover {ms : List MemberInfo} (hms : ms.length ≤ 1) (seeds : List Bytes) (err : Bytes) :
      FailedRound [.tick, .members ms, .discovered seeds (some err)]
  | empty {ms : List MemberInfo} (hms : ms.length ≤ 1) :
      FailedRound [.tick, .members ms, .discovered [] none]
  | join {ms : List MemberInfo} (hms : ms.length ≤ 1) {seeds : List Bytes} (hseeds : seeds ≠ [])
      (err : Bytes) :
      FailedRound [.tick, .members ms, .discovered seeds none, .joined (some err)]

/-- A run starts with the outcome of a call. -/
theorem Runs.next {p p' : Phase} {e : Event} {es : List Event} {stopped : Bool} {t : State}
    (h : p.next e = some p') (hrun : Runs ⟨p', stopped⟩ es t) : Runs ⟨p, stopped⟩ (e :: es) t := by
  refine .cons trivial ?_ hrun
  unfold State.step
  split
  · cases p <;> cases h
  · cases p <;> cases h
  · exact Option.map_eq_some_iff.2 ⟨p', h, rfl⟩

theorem next_rechecking {ms : List MemberInfo} (hms : ms.length ≤ 1) :
    Phase.next .rechecking (.members ms) = some .rediscovering :=
  congrArg some (if_neg (Nat.not_lt.2 hms))

theorem runs_failedRound {es : List Event} (h : FailedRound es) (stopped : Bool) :
    Runs ⟨.waiting, stopped⟩ es ⟨.waiting, stopped⟩ := by
  cases h with
  | discover hms seeds err => exact .next rfl (.next (next_rechecking hms) (.next rfl (.nil _)))
  | empty hms => exact .next rfl (.next (next_rechecking hms) (.next rfl (.nil _)))
  | @join ms hms seeds hseeds err =>
      have hfound : Phase.next .rediscovering (.discovered seeds none) = some (.rejoining seeds) :=
        congrArg some (if_neg (mt List.length_eq_zero_iff.1 hseeds))
      exact .next rfl (.next (next_rechecking hms) (.next hfound (.next rfl (.nil _))))

theorem runs_failedRounds {rounds : List (List Event)} (h : ∀ es ∈ rounds, FailedRound es)
    (stopped : Bool) : Runs ⟨.waiting, stopped⟩ rounds.flatten ⟨.waiting, stopped⟩ := by
  induction rounds with
  | nil => exact .nil _
  | cons es rounds ih =>
      obtain ⟨hes, hrounds⟩ := List.forall_mem_cons.1 h
      exact (runs_failedRound hes stopped).append (ih hrounds)

/-- With seeds from the first discovery, a failing first `Join` does not end the retry, and neither
does any number of failed rounds after it. -/
theorem retry_goes_on {seeds : List Bytes} (hseeds : seeds ≠ []) (err : Bytes)
    {ms : List MemberInfo} (hms : ms.length ≤ 1) {rounds : List (List Event)}
    (h : ∀ es ∈ rounds, FailedRound es) :
    Runs start (.started none :: .discovered seeds none :: .joined (some err) :: .members ms ::
      rounds.flatten) ⟨.waiting, false⟩ := by
  have hlen : ¬ seeds.length = 0 := mt List.length_eq_zero_iff.1 hseeds
  have hfound : Phase.next .discovering (.discovered seeds none) = some (.joining seeds) :=
    congrArg some (if_pos (Nat.pos_of_ne_zero hlen))
  have hretry : Phase.next (.joining seeds) (.joined (some err)) = some .checking :=
    congrArg some (if_neg hlen)
  have hlonely : Phase.next .checking (.members ms) = some .waiting :=
    congrArg some (if_neg (Nat.not_lt.2 hms))
  exact .next rfl (.next hfound (.next hretry (.next hlonely (runs_failedRounds h false))))

end Join

end Hapartition
