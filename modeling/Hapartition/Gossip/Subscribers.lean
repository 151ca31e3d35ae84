import Hapartition.Gossip.Events
import Hapartition.Lib.Dict
import Hapartition.Lib.Mailbox
import Hapartition.Lib.Transition

/-!
# Subscribers of the event log

`PushEvent`, `Subscribe` and `RecentEvents` of `internal/gossip/gossip.go` as the event streams of
the management server use them, in every interleaving of the goroutines. A push records its event
first and takes the read lock later; under the lock it offers the event to one channel after the
other, in the order in which the map is iterated, and does not wait for room. `Subscribe` and the
function that it returns take the write lock.

- `Feed.step` is the transition system, one step for each critical section and each channel
  operation.
- `Feed.no_gap`: a client that subscribes and then fetches the recent events has missed none. What
  was pushed later is offered to its stream, once, and what the stream has is what fitted.
- `Feed.stream_in_order`: if pushes do not overlap and the stream keeps up, it is the log from its
  subscription on.
-/

set_option autoImplicit false

namespace Hapartition

open Lib Std

/-- The capacity of the channel that `handleEventStream` subscribes. -/
def streamCapacity : Nat := 32

/-- An event with the number of its push. The code has the event only; the number tells apart pushes
of equal events. -/
abbrev Numbered := Nat × ClusterEvent

/-- A channel with its history: when it was subscribed, what was offered to it, and what its stream
has received. -/
structure Stream where
  since : Nat
  offered : List Numbered
  received : List Numbered
  buf : List Numbered

/-- A call of `PushEvent` after its event is recorded: before the read lock, or under it with the
subscribers that are left. -/
structure PushCall where
  event : ClusterEvent
  todo : Option (List Nat)

/-- The channel after an event was offered to it. -/
def Stream.offer (c : Stream) (x : Numbered) : Stream :=
  { c with offered := c.offered ++ [x], buf := Lib.offer streamCapacity c.buf x }

/-- The call has yet to offer its event to the subscriber. -/
def PushCall.Owes (p : PushCall) (j : Nat) : Prop := ∀ ids, p.todo = some ids → j ∈ ids

/-- The part of the handler that concerns events, the calls in progress, and the events pushed so
far. -/
structure Feed where
  events : EventRing
  pushed : List ClusterEvent
  subNext : Nat
  subscribers : ExtTreeMap Nat Stream compare
  calls : ExtTreeMap Nat PushCall compare

/-- What happens next. -/
inductive FeedAction where
  /-- `events.Push`. -/
  | push (e : ClusterEvent)
  /-- `subMu.RLock`, and the order in which the map will be iterated. -/
  | lock (k : Nat) (order : List Nat)
  /-- The next `select` of the loop. -/
  | offer (k : Nat)
  /-- `subMu.RUnlock`. -/
  | unlock (k : Nat)
  | subscribe
  | unsubscribe (j : Nat)
  /-- A stream takes an event from its channel. -/
  | receive (j : Nat)
  deriving DecidableEq

namespace Feed

/-- `New`. -/
def new : Feed := ⟨.new eventRingSize, [], 0, ∅, ∅⟩

/-- No call holds the read lock. -/
def Unlocked (s : Feed) : Prop := ∀ p ∈ s.calls.toList, p.2.todo = none

instance (s : Feed) : Decidable s.Unlocked := inferInstanceAs (Decidable (∀ p ∈ _, _))

def push (s : Feed) (e : ClusterEvent) : Feed :=
  { s with
    events := s.events.push e
    pushed := s.pushed ++ [e]
    calls := s.calls.insert s.pushed.length ⟨e, none⟩ }

/-- One step. -/
def step (s : Feed) : FeedAction → Option Feed
  | .push e => some (s.push e)
  | .lock k order =>
      match s.calls[k]? with
      | some ⟨e, none⟩ =>
          -- the map does not change under the lock, so each key comes once
          if order.Perm s.subscribers.keys then
            some { s with calls := s.calls.insert k ⟨e, some order⟩ }
          else none
      | _ => none
  | .offer k =>
      match s.calls[k]? with
      | some ⟨e, some (j :: rest)⟩ =>
          match s.subscribers[j]? with
          | some c => some
              { s with
                subscribers := s.subscribers.insert j (Stream.offer c (k, e))
                calls := s.calls.insert k ⟨e, some rest⟩ }
          | none => none
      | _ => none
  | .unlock k =>
      match s.calls[k]? with
      | some ⟨_, some []⟩ => some { s with calls := s.calls.erase k }
      | _ => none
  | .subscribe =>
      if s.Unlocked then
        some { s with
          subNext := s.subNext + 1
          subscribers := s.subscribers.insert s.subNext ⟨s.pushed.length, [], [], []⟩ }
      else none
  | .unsubscribe j =>
      if s.Unlocked then some { s with subscribers := s.subscribers.erase j } else none
  | .receive j =>
      match s.subscribers[j]? with
      | some ⟨since, offered, received, x :: buf⟩ =>
          some { s with
            subscribers := s.subscribers.insert j ⟨since, offered, received ++ [x], buf⟩ }
      | _ => none

/-- Runs of any interleaving. -/
abbrev Runs : Feed → List FeedAction → Feed → Prop := Run step fun _ _ => True

/-- Pushes do not overlap, and an offer to the stream finds room. -/
def KeepsUp (j : Nat) (s : Feed) : FeedAction → Prop
  | .push _ => s.calls = ∅
  | .offer k => ∀ e rest c, s.calls[k]? = some ⟨e, some (j :: rest)⟩ → s.subscribers[j]? = some c →
      c.buf.length < streamCapacity
  | _ => True

/-! ## What a step does -/

/-- A step by its cases, with what it finds. -/
inductive Move (s : Feed) : FeedAction → Feed → Prop where
  | push (e : ClusterEvent) : Move s (.push e) (s.push e)
  | lock {k : Nat} {order : List Nat} {e : ClusterEvent} (hcall : s.calls[k]? = some ⟨e, none⟩)
      (horder : order.Perm s.subscribers.keys) :
      Move s (.lock k order) { s with calls := s.calls.insert k ⟨e, some order⟩ }
  | offer {k j : Nat} {e : ClusterEvent} {rest : List Nat} {c : Stream}
      (hcall : s.calls[k]? = some ⟨e, some (j :: rest)⟩) (hstream : s.subscribers[j]? = some c) :
      Move s (.offer k)
        { s with
          subscribers := s.subscribers.insert j (Stream.offer c (k, e))
          calls := s.calls.insert k ⟨e, some rest⟩ }
  | unlock {k : Nat} {e : ClusterEvent} (hcall : s.calls[k]? = some ⟨e, some []⟩) :
      Move s (.unlock k) { s with calls := s.calls.erase k }
  | subscribe (hunlocked : s.Unlocked) :
      Move s .subscribe
        { s with
          subNext := s.subNext + 1
          subscribers := s.subscribers.insert s.subNext ⟨s.pushed.length, [], [], []⟩ }
  | unsubscribe (j : Nat) (hunlocked : s.Unlocked) :
      Move s (.unsubscribe j) { s with subscribers := s.subscribers.erase j }
  | receive {j since : Nat} {offered received buf : List Numbered} {x : Numbered}
      (hstream : s.subscribers[j]? = some ⟨since, offered, received, x :: buf⟩) :
      Move s (.receive j)
        { s with
          subscribers := s.subscribers.insert j ⟨since, offered, received ++ [x], buf⟩ }

theorem move_of_step {s t : Feed} {a : FeedAction} (h : s.step a = some t) : Move s a t := by
  cases a with
  | push e =>
      rw [← Option.some.inj h]
      exact .push e
  | lock k order =>
      rw [step] at h
      split at h
      next e hcall =>
        split at h
        next horder =>
          rw [← Option.some.inj h]
          exact .lock hcall horder
        next => cases h
      next => cases h
  | offer k =>
      rw [step] at h
      split at h
      next e j rest hcall =>
        split at h
        next c hstream =>
          rw [← Option.some.inj h]
          exact .offer hcall hstream
        next => cases h
      next => cases h
  | unlock k =>
      rw [step] at h
      split at h
      next e hcall =>
        rw [← Option.some.inj h]
        exact .unlock hcall
      next => cases h
  | subscribe =>
      rw [step] at h
      split at h
      next hunlocked =>
        rw [← Option.some.inj h]
        exact .subscribe hunlocked
      next => cases h
  | unsubscribe j =>
      rw [step] at h
      split at h
      next hunlocked =>
        rw [← Option.some.inj h]
        exact .unsubscribe j hunlocked
      next => cases h
  | receive j =>
      rw [step] at h
      split at h
      next since offered received x buf hstream =>
        rw [← Option.some.inj h]
        exact .receive hstream
      next => cases h

/-! ## The invariant -/

/-- A subscriber: its channel is a mailbox, what was offered to it are pushes, each once, and a push
since the subscription that was not offered yet is still in progress. -/
structure StreamInv (s : Feed) (j : Nat) (c : Stream) : Prop where
  kept : Kept streamCapacity c.offered c.received c.buf
  nodup : (c.offered.map Prod.fst).Nodup
  pushed : ∀ x ∈ c.offered, s.pushed[x.1]? = some x.2
  since_le : c.since ≤ s.pushed.length
  covered : ∀ k, c.since ≤ k → k < s.pushed.length → k ∉ c.offered.map Prod.fst →
    ∃ p, s.calls[k]? = some p ∧ p.Owes j
  owed : ∀ (k : Nat) (p : PushCall), s.calls[k]? = some p → p.Owes j → k ∉ c.offered.map Prod.fst

/-- The invariant of all interleavings. -/
structure Inv (s : Feed) : Prop where
  events : s.events = EventRing.pushAll eventRingSize s.pushed
  call : ∀ (k : Nat) (p : PushCall), s.calls[k]? = some p → s.pushed[k]? = some p.event
  todo : ∀ (k : Nat) (p : PushCall), s.calls[k]? = some p → ∀ ids, p.todo = some ids → ids.Nodup
  next : ∀ j c, s.subscribers[j]? = some c → j < s.subNext
  stream : ∀ j c, s.subscribers[j]? = some c → StreamInv s j c

theorem inv_new : Inv new where
  events := rfl
  call k p h := by
    rw [new, ExtTreeMap.getElem?_empty] at h
    cases h
  todo k p h := by
    rw [new, ExtTreeMap.getElem?_empty] at h
    cases h
  next j c h := by
    rw [new, ExtTreeMap.getElem?_empty] at h
    cases h
  stream j c h := by
    rw [new, ExtTreeMap.getElem?_empty] at h
    cases h

variable {s t : Feed}

theorem owes_none (e : ClusterEvent) (j : Nat) : PushCall.Owes ⟨e, none⟩ j := by
  intro ids h
  cases h

theorem owes_some {e : ClusterEvent} {ids : List Nat} {j : Nat} :
    PushCall.Owes ⟨e, some ids⟩ j ↔ j ∈ ids :=
  ⟨fun h => h ids rfl, fun h _ hids => Option.some.inj hids ▸ h⟩

theorem getElem?_append_of_some {α : Type*} {l l' : List α} {k : Nat} {x : α} (h : l[k]? = some x) :
    (l ++ l')[k]? = some x := by
  rw [List.getElem?_append_left (List.getElem?_eq_some_iff.1 h).1]
  exact h

/-- A new push is owed to everybody. -/
theorem StreamInv.push {j : Nat} {c : Stream} (h : StreamInv s j c) (e : ClusterEvent) :
    StreamInv (s.push e) j c where
  kept := h.kept
  nodup := h.nodup
  pushed x hx := getElem?_append_of_some (h.pushed x hx)
  since_le := by
    have := h.since_le
    rw [Feed.push, List.length_append]
    omega
  covered k hk hlt hnot := by
    rw [Feed.push, List.length_append, List.length_singleton] at hlt
    rw [Feed.push, Dict.getElem?_insert]
    split
    · exact ⟨_, rfl, owes_none e j⟩
    · exact h.covered k hk (by omega) hnot
  owed := by
    apply Dict.forall_insert
    · -- what was offered was pushed before
      intro _ hmem
      obtain ⟨x, hx, hxk⟩ := List.mem_map.1 hmem
      have := (List.getElem?_eq_some_iff.1 (h.pushed x hx)).1
      omega
    · intro k p _ hp
      exact h.owed k p hp

/-- A change of one call that leaves alone what the call owes to the subscriber. -/
theorem StreamInv.call {j k : Nat} {c : Stream} {p p' : PushCall} (h : StreamInv s j c)
    (hp : s.calls[k]? = some p) (howes : p'.Owes j ↔ p.Owes j) :
    StreamInv { s with calls := s.calls.insert k p' } j c where
  kept := h.kept
  nodup := h.nodup
  pushed := h.pushed
  since_le := h.since_le
  covered i hi hlt hnot := by
    obtain ⟨q, hq, hqowes⟩ := h.covered i hi hlt hnot
    rw [Dict.getElem?_insert]
    split
    next hki =>
      rw [← hki, hp] at hq
      exact ⟨p', rfl, howes.2 (Option.some.inj hq ▸ hqowes)⟩
    next => exact ⟨q, hq, hqowes⟩
  owed := by
    apply Dict.forall_insert
    · intro hnew
      exact h.owed k p hp (howes.1 hnew)
    · intro i q _ hq
      exact h.owed i q hq

/-- The subscriber whose turn it is: its call does not owe it the event any more. -/
theorem StreamInv.offer {j k : Nat} {c : Stream} {e : ClusterEvent} {rest : List Nat}
    (h : StreamInv s j c) (hp : s.calls[k]? = some ⟨e, some (j :: rest)⟩) (hrest : j ∉ rest)
    (hevent : s.pushed[k]? = some e) (subs : ExtTreeMap Nat Stream compare) :
    StreamInv { s with subscribers := subs, calls := s.calls.insert k ⟨e, some rest⟩ } j
      (c.offer (k, e)) := by
  have hnot : k ∉ c.offered.map Prod.fst :=
    h.owed k _ hp (owes_some.2 List.mem_cons_self)
  have hnumbers : (c.offer (k, e)).offered.map Prod.fst = c.offered.map Prod.fst ++ [k] := by
    simp [Stream.offer]
  refine ⟨h.kept.offer (k, e), ?_, ?_, h.since_le, ?_, ?_⟩
  · rw [hnumbers]
    exact List.nodup_append.2 ⟨h.nodup, List.nodup_singleton k,
      fun a ha b hb hab => hnot (List.mem_singleton.1 hb ▸ hab ▸ ha)⟩
  · intro x hx
    rcases List.mem_append.1 hx with hx | hx
    · exact h.pushed x hx
    · rw [List.mem_singleton.1 hx]
      exact hevent
  · intro i hi hlt hmem
    rw [hnumbers, List.mem_append, List.mem_singleton, not_or] at hmem
    obtain ⟨q, hq, hqowes⟩ := h.covered i hi hlt hmem.1
    refine ⟨q, ?_, hqowes⟩
    rw [Dict.getElem?_insert_of_ne _ _ hmem.2]
    exact hq
  · rw [hnumbers]
    apply Dict.forall_insert
    · intro hnew
      exact (hrest (owes_some.1 hnew)).elim
    · intro i q hik hq hqowes
      rw [List.mem_append, List.mem_singleton, not_or]
      exact ⟨h.owed i q hq hqowes, hik⟩

/-- A call that owes nothing may end. -/
theorem StreamInv.unlock {j k : Nat} {c : Stream} {e : ClusterEvent} (h : StreamInv s j c)
    (hp : s.calls[k]? = some ⟨e, some []⟩) : StreamInv { s with calls := s.calls.erase k } j c where
  kept := h.kept
  nodup := h.nodup
  pushed := h.pushed
  since_le := h.since_le
  covered i hi hlt hnot := by
    obtain ⟨q, hq, hqowes⟩ := h.covered i hi hlt hnot
    have hki : k ≠ i := by
      rintro rfl
      rw [hp] at hq
      rw [← Option.some.inj hq, owes_some] at hqowes
      exact List.not_mem_nil hqowes
    refine ⟨q, ?_, hqowes⟩
    rw [Dict.getElem?_erase, if_neg hki]
    exact hq
  owed i q hq := h.owed i q (Dict.getElem?_erase_eq_some hq)

/-- The other subscribers do not matter. -/
theorem StreamInv.of_subscribers {j next : Nat} {c : Stream} (h : StreamInv s j c)
    (subs : ExtTreeMap Nat Stream compare) :
    StreamInv { s with subNext := next, subscribers := subs } j c :=
  ⟨h.kept, h.nodup, h.pushed, h.since_le, h.covered, h.owed⟩

/-- A stream that has just been subscribed. -/
theorem streamInv_subscribed (next j : Nat) (subs : ExtTreeMap Nat Stream compare) :
    StreamInv { s with subNext := next, subscribers := subs } j ⟨s.pushed.length, [], [], []⟩ where
  kept := .empty _
  nodup := List.nodup_nil
  pushed := by
    intro x hx
    cases hx
  since_le := Nat.le_refl _
  covered k hk hlt := absurd hlt (Nat.not_lt.2 hk)
  owed := by
    intro k p _ _ hk
    cases hk

/-- A call that is written again with the same event. -/
theorem Inv.insert_call (h : s.Inv) {k : Nat} {p : PushCall} (hevent : s.pushed[k]? = some p.event)
    (hnodup : ∀ ids, p.todo = some ids → ids.Nodup) :
    (∀ (i : Nat) (q : PushCall), (s.calls.insert k p)[i]? = some q → s.pushed[i]? = some q.event) ∧
      ∀ (i : Nat) (q : PushCall), (s.calls.insert k p)[i]? = some q →
        ∀ ids, q.todo = some ids → ids.Nodup :=
  ⟨Dict.forall_insert hevent fun i q _ hq => h.call i q hq,
    Dict.forall_insert hnodup fun i q _ hq => h.todo i q hq⟩

/-- The step lemma. -/
theorem inv_step {a : FeedAction} (h : s.Inv) (hstep : s.step a = some t) : t.Inv := by
  cases move_of_step hstep with
  | push e =>
      refine ⟨?_, ?_, ?_, h.next, fun j c hc => (h.stream j c hc).push e⟩
      · rw [Feed.push, h.events, EventRing.pushAll, EventRing.pushAll, List.foldl_append]
        rfl
      · exact Dict.forall_insert List.getElem?_concat_length
          fun k p _ hp => getElem?_append_of_some (h.call k p hp)
      · apply Dict.forall_insert
        · intro ids hids
          cases hids
        · intro k p _ hp
          exact h.todo k p hp
  | @lock k order e hcall horder =>
      have hevent : s.pushed[k]? = some e := h.call k _ hcall
      obtain ⟨hcalls, htodo⟩ := h.insert_call (p := ⟨e, some order⟩) hevent
        fun ids hids => Option.some.inj hids ▸ horder.nodup_iff.2 ExtTreeMap.nodup_keys
      refine ⟨h.events, hcalls, htodo, h.next, ?_⟩
      intro j c hc
      refine (h.stream j c hc).call hcall (iff_of_true (owes_some.2 ?_) (owes_none e j))
      rw [horder.mem_iff, ExtTreeMap.mem_keys]
      exact ExtTreeMap.mem_iff_isSome_getElem?.2 (by rw [hc]; rfl)
  | @offer k j e rest c hcall hstream =>
      obtain ⟨hj, hrest⟩ := List.nodup_cons.1 (h.todo k _ hcall _ rfl)
      have hevent : s.pushed[k]? = some e := h.call k _ hcall
      obtain ⟨hcalls, htodo⟩ := h.insert_call (p := ⟨e, some rest⟩) hevent
        fun ids hids => Option.some.inj hids ▸ hrest
      refine ⟨h.events, hcalls, htodo,
        Dict.forall_insert (h.next j c hstream) fun i d _ hd => h.next i d hd, ?_⟩
      apply Dict.forall_insert
      · exact (h.stream j c hstream).offer hcall hj hevent _
      · intro i d hij hd
        refine ((h.stream i d hd).call hcall ?_).of_subscribers _
        rw [owes_some, owes_some, List.mem_cons, or_iff_right hij]
  | @unlock k e hcall =>
      exact ⟨h.events, fun i p hp => h.call i p (Dict.getElem?_erase_eq_some hp),
        fun i p hp => h.todo i p (Dict.getElem?_erase_eq_some hp), h.next,
        fun j c hc => (h.stream j c hc).unlock hcall⟩
  | subscribe hunlocked =>
      refine ⟨h.events, h.call, h.todo, ?_, ?_⟩
      · exact Dict.forall_insert (Nat.lt_succ_self _)
          fun i d _ hd => (h.next i d hd).trans (Nat.lt_succ_self _)
      · exact Dict.forall_insert (streamInv_subscribed _ _ _)
          fun i d _ hd => (h.stream i d hd).of_subscribers _
  | unsubscribe j hunlocked =>
      exact ⟨h.events, h.call, h.todo, fun i d hd => h.next i d (Dict.getElem?_erase_eq_some hd),
        fun i d hd => (h.stream i d (Dict.getElem?_erase_eq_some hd)).of_subscribers _⟩
  | @receive j since offered received buf x hstream =>
      have hc := h.stream j _ hstream
      refine ⟨h.events, h.call, h.todo,
        Dict.forall_insert (h.next j _ hstream) fun i d _ hd => h.next i d hd, ?_⟩
      exact Dict.forall_insert
        ⟨hc.kept.receive, hc.nodup, hc.pushed, hc.since_le, hc.covered, hc.owed⟩
        fun i d _ hd => (h.stream i d hd).of_subscribers _

/-- The run lemma. -/
theorem inv_run {ok : Feed → FeedAction → Prop} {as : List FeedAction} (h : Run step ok s as t)
    (hs : s.Inv) : t.Inv :=
  h.invariant (fun _ hstep hinv => inv_step hinv hstep) hs

/-! ## No gap -/

/-- What was subscribed in `s` was subscribed there for good: its number is not given out again. -/
structure Since (s t : Feed) : Prop where
  next_le : s.subNext ≤ t.subNext
  pushed : s.pushed <+: t.pushed
  since_le : ∀ (j : Nat) (c : Stream), t.subscribers[j]? = some c → j < s.subNext →
    c.since ≤ s.pushed.length

/-- The step lemma. -/
theorem Since.step {u : Feed} {a : FeedAction} (h : Since s t) (hstep : t.step a = some u) :
    Since s u := by
  cases move_of_step hstep with
  | push e => exact ⟨h.next_le, h.pushed.trans (List.prefix_append _ _), h.since_le⟩
  | lock hcall horder => exact ⟨h.next_le, h.pushed, h.since_le⟩
  | unlock hcall => exact ⟨h.next_le, h.pushed, h.since_le⟩
  | @offer k j e rest c hcall hstream =>
      exact ⟨h.next_le, h.pushed,
        Dict.forall_insert (h.since_le j c hstream) fun i d _ hd => h.since_le i d hd⟩
  | subscribe hunlocked =>
      refine ⟨Nat.le_succ_of_le h.next_le, h.pushed, ?_⟩
      apply Dict.forall_insert
      · intro hlt
        exact absurd hlt (Nat.not_lt.2 h.next_le)
      · intro i d _ hd
        exact h.since_le i d hd
  | unsubscribe j hunlocked =>
      exact ⟨h.next_le, h.pushed, fun i d hd => h.since_le i d (Dict.getElem?_erase_eq_some hd)⟩
  | @receive j since offered received buf x hstream =>
      have hsince : j < s.subNext → since ≤ s.pushed.length := h.since_le j _ hstream
      exact ⟨h.next_le, h.pushed,
        Dict.forall_insert hsince fun i d _ hd => h.since_le i d hd⟩

theorem since_run {ok : Feed → FeedAction → Prop} {as : List FeedAction}
    (h : Run Feed.step ok s as t) (hs : s.Inv) : Since s t :=
  h.invariant (fun _ hstep hsince => hsince.step hstep)
    ⟨Nat.le_refl _, List.prefix_refl _, fun j c hc _ => (hs.stream j c hc).since_le⟩

/-- **No gap between the log and the stream.** A client subscribes, and fetches the recent events
after that: it gets the last of those pushed so far, up to the size of the ring. Later, when no push
is in progress, every event pushed since then has been offered to its stream. No push has been
offered twice, nothing else has been offered, and of what was offered the stream has what its
channel had room for, in the order of the offers, the first 32 in any case. -/
theorem no_gap {as₁ as₂ : List FeedAction} {j : Nat} {c₁ c : Stream} (h₁ : Runs new as₁ s)
    (h₂ : Runs s as₂ t) (hj : s.subscribers[j]? = some c₁) (hc : t.subscribers[j]? = some c)
    (hidle : t.calls = ∅) :
    s.events.recent 0 = .ok ((s.pushed.rtake (min s.pushed.length eventRingSize)).map some) ∧
      s.pushed <+: t.pushed ∧
      (∀ k, s.pushed.length ≤ k → k < t.pushed.length → k ∈ c.offered.map Prod.fst) ∧
      (c.offered.map Prod.fst).Nodup ∧ (∀ x ∈ c.offered, t.pushed[x.1]? = some x.2) ∧
      Kept streamCapacity c.offered c.received c.buf := by
  have hs := inv_run h₁ inv_new
  have hsince := since_run h₂ hs
  have hstream := (inv_run h₂ hs).stream j c hc
  refine ⟨?_, hsince.pushed, ?_, hstream.nodup, hstream.pushed, hstream.kept⟩
  · rw [hs.events, EventRing.recent_pushAll_eq (by decide), if_pos (.inl (Int.le_refl 0))]
  · intro k hk hlt
    by_contra hnot
    obtain ⟨p, hp, -⟩ :=
      hstream.covered k ((hsince.since_le j c hc (hs.next j c₁ hj)).trans hk) hlt hnot
    rw [hidle, ExtTreeMap.getElem?_empty] at hp
    cases hp

/-- A node joins while one stream is subscribed. -/
def joined : ClusterEvent := ⟨1, .join, str "n2", str ":6380"⟩

def subscribed : Feed :=
  ⟨.new eventRingSize, [], 1, (∅ : ExtTreeMap Nat Stream compare).insert 0 ⟨0, [], [], []⟩, ∅⟩

/-- The push of `joined`, from its record to its end. -/
def pushJoined : List FeedAction := [.push joined, .lock 0 [0], .offer 0, .unlock 0]

def delivered : Feed :=
  { subscribed.push joined with
    subscribers := subscribed.subscribers.insert 0 ⟨0, [(0, joined)], [], [(0, joined)]⟩
    calls := (((subscribed.push joined).calls.insert 0 ⟨joined, some [0]⟩).insert 0
      ⟨joined, some []⟩).erase 0 }

theorem run_pushJoined {ok : Feed → FeedAction → Prop} (hok : ∀ s a, KeepsUp 0 s a → ok s a) :
    Run step ok subscribed pushJoined delivered := by
  have hoffer : KeepsUp 0 { subscribed.push joined with
      calls := (subscribed.push joined).calls.insert 0 ⟨joined, some [0]⟩ } (.offer 0) := by
    intro e rest c _ hc
    rw [← Option.some.inj hc]
    exact Nat.zero_lt_succ _
  exact .cons (hok _ _ rfl) rfl (.cons (hok _ _ trivial) rfl (.cons (hok _ _ hoffer) rfl
    (.cons (hok _ _ trivial) rfl (.nil delivered))))

theorem no_gap_joined :
    Runs new [.subscribe] subscribed ∧ Runs subscribed pushJoined delivered ∧
      (∀ k, 0 ≤ k → k < 1 → k ∈ [(0, joined)].map Prod.fst) ∧
      Kept streamCapacity [(0, joined)] [] [(0, joined)] := by
  have h₁ : Runs new [.subscribe] subscribed := .single trivial rfl
  have h₂ : Runs subscribed pushJoined delivered := run_pushJoined fun _ _ _ => trivial
  obtain ⟨-, -, hoffered, -, -, hkept⟩ :=
    no_gap (j := 0) (c := ⟨0, [(0, joined)], [], [(0, joined)]⟩) h₁ h₂ rfl rfl rfl
  exact ⟨h₁, h₂, hoffered, hkept⟩

/-! ## In order -/

/-- A push in progress has yet to reach the subscriber. -/
def Owed (s : Feed) (j : Nat) : Prop := ∃ (k : Nat) (p : PushCall), s.calls[k]? = some p ∧ p.Owes j

/-- The stream has the pushes from `first` on, but for the one in progress. -/
structure InOrder (s : Feed) (j : Nat) (c : Stream) (first : Nat) : Prop where
  first_le : first ≤ c.since
  since_le : c.since ≤ first + 1
  first_le_pushed : first ≤ s.pushed.length
  lossless : c.received ++ c.buf = c.offered
  owed : s.Owed j →
    c.offered.map Prod.fst ++ [s.pushed.length - 1] = List.range' first (s.pushed.length - first)
  all : ¬ s.Owed j → c.offered.map Prod.fst = List.range' first (s.pushed.length - first)

/-- The only push in progress is the last one, and the stream is in order. -/
structure Orderly (j : Nat) (s : Feed) : Prop where
  inv : s.Inv
  last : ∀ (k : Nat) (p : PushCall), s.calls[k]? = some p → k + 1 = s.pushed.length
  inOrder : ∀ c, s.subscribers[j]? = some c → ∃ first, InOrder s j c first

theorem InOrder.of_owed_iff {j first : Nat} {c : Stream} (h : InOrder s j c first)
    (hpushed : t.pushed = s.pushed) (howed : t.Owed j ↔ s.Owed j) : InOrder t j c first where
  first_le := h.first_le
  since_le := h.since_le
  first_le_pushed := hpushed ▸ h.first_le_pushed
  lossless := h.lossless
  owed ho := by
    rw [hpushed]
    exact h.owed (howed.1 ho)
  all ho := by
    rw [hpushed]
    exact h.all fun hs => ho (howed.2 hs)

/-- A call that is written again and owes the subscriber what it did. -/
theorem owed_insert_iff {j k : Nat} {p p' : PushCall} (hp : s.calls[k]? = some p)
    (howes : p'.Owes j ↔ p.Owes j) (subs : ExtTreeMap Nat Stream compare) :
    Owed { s with subscribers := subs, calls := s.calls.insert k p' } j ↔ s.Owed j := by
  constructor
  · rintro ⟨i, q, hq, hqowes⟩
    rcases Dict.getElem?_insert_eq_some hq with ⟨rfl, rfl⟩ | hq
    · exact ⟨k, p, hp, howes.1 hqowes⟩
    · exact ⟨i, q, hq, hqowes⟩
  · rintro ⟨i, q, hq, hqowes⟩
    by_cases hik : k = i
    · subst hik
      rw [hp] at hq
      exact ⟨k, p', by rw [Dict.getElem?_insert, if_pos rfl],
        howes.2 (Option.some.inj hq ▸ hqowes)⟩
    · exact ⟨i, q, by rw [Dict.getElem?_insert, if_neg hik]; exact hq, hqowes⟩

/-- After a push, which comes when there is none in progress, it is owed to everybody. -/
theorem Orderly.push {j : Nat} (h : Orderly j s) (hidle : s.calls = ∅) (e : ClusterEvent)
    (hinv : (s.push e).Inv) : Orderly j (s.push e) := by
  have hnone : ∀ (k : Nat) (p : PushCall), s.calls[k]? ≠ some p := by
    intro k p hp
    rw [hidle, ExtTreeMap.getElem?_empty] at hp
    cases hp
  have hlen : (s.push e).pushed.length = s.pushed.length + 1 := by
    rw [Feed.push, List.length_append, List.length_singleton]
  have howed : (s.push e).Owed j :=
    ⟨s.pushed.length, ⟨e, none⟩, by rw [Feed.push, Dict.getElem?_insert, if_pos rfl], owes_none e j⟩
  refine ⟨hinv, ?_, ?_⟩
  · rw [hlen]
    exact Dict.forall_insert rfl fun k p _ hp => absurd hp (hnone k p)
  · intro c hc
    obtain ⟨first, hfirst⟩ := h.inOrder c hc
    have hall := hfirst.all fun ⟨k, p, hp, _⟩ => hnone k p hp
    have hle := hfirst.first_le_pushed
    refine ⟨first, hfirst.first_le, hfirst.since_le, by omega, hfirst.lossless, ?_,
      fun hnot => absurd howed hnot⟩
    intro _
    rw [hall, hlen, Nat.add_sub_cancel, Nat.succ_sub hle, List.range'_1_concat,
      Nat.add_sub_cancel' hle]

/-- The offer to the stream itself: it has room, and nothing is owed to it afterwards. -/
theorem InOrder.offer {j k first : Nat} {c : Stream} {e : ClusterEvent} {rest : List Nat}
    (h : InOrder s j c first)
    (hlast : ∀ (i : Nat) (p : PushCall), s.calls[i]? = some p → i + 1 = s.pushed.length)
    (hp : s.calls[k]? = some ⟨e, some (j :: rest)⟩) (hrest : j ∉ rest)
    (hroom : c.buf.length < streamCapacity) (subs : ExtTreeMap Nat Stream compare) :
    InOrder { s with subscribers := subs, calls := s.calls.insert k ⟨e, some rest⟩ } j
      (c.offer (k, e)) first := by
  have hk := hlast k _ hp
  refine ⟨h.first_le, h.since_le, h.first_le_pushed, ?_, ?_, ?_⟩
  · show c.received ++ Lib.offer streamCapacity c.buf (k, e) = c.offered ++ [(k, e)]
    rw [Lib.offer, if_pos hroom, ← List.append_assoc, h.lossless]
  · rintro ⟨i, q, hq, hqowes⟩
    rcases Dict.getElem?_insert_eq_some hq with ⟨-, rfl⟩ | hq'
    · exact (hrest (owes_some.1 hqowes)).elim
    · -- there is no other call
      have hi : i = k := by
        have := hlast i q hq'
        omega
      subst hi
      rw [Dict.getElem?_insert, if_pos rfl] at hq
      rw [← Option.some.inj hq] at hqowes
      exact (hrest (owes_some.1 hqowes)).elim
  · intro _
    have hbefore := h.owed ⟨k, _, hp, owes_some.2 List.mem_cons_self⟩
    rw [← hk, Nat.add_sub_cancel] at hbefore
    show (c.offered ++ [(k, e)]).map Prod.fst = List.range' first (s.pushed.length - first)
    rw [List.map_append, List.map_singleton, hbefore, hk]

/-- A new stream starts with the next push, or with the one that is in progress. -/
theorem Orderly.subscribed {j next : Nat} (h : Orderly j s) (subs : ExtTreeMap Nat Stream compare) :
    ∃ first, InOrder { s with subNext := next, subscribers := subs } j ⟨s.pushed.length, [], [], []⟩
      first := by
  by_cases howed : s.Owed j
  · obtain ⟨k, p, hp, hpowes⟩ := howed
    have hk := h.last k p hp
    refine ⟨k, ?_, ?_, ?_, rfl, ?_, fun hnot => absurd ⟨k, p, hp, hpowes⟩ hnot⟩
    · show k ≤ s.pushed.length
      omega
    · show s.pushed.length ≤ k + 1
      omega
    · show k ≤ s.pushed.length
      omega
    · intro _
      show [s.pushed.length - 1] = List.range' k (s.pushed.length - k)
      rw [← hk, Nat.add_sub_cancel, Nat.add_sub_cancel_left]
      rfl
  · refine ⟨s.pushed.length, Nat.le_refl _, Nat.le_succ _, Nat.le_refl _, rfl,
      fun ho => absurd ho howed, ?_⟩
    intro _
    show [] = List.range' s.pushed.length (s.pushed.length - s.pushed.length)
    rw [Nat.sub_self]
    rfl

/-- The step lemma. -/
theorem orderly_step {j : Nat} {a : FeedAction} (hok : KeepsUp j s a) (hstep : s.step a = some t)
    (h : Orderly j s) : Orderly j t := by
  have hinv := inv_step h.inv hstep
  cases move_of_step hstep with
  | push e => exact h.push hok e hinv
  | @lock k order e hcall horder =>
      refine ⟨hinv, Dict.forall_insert (h.last k _ hcall) fun i p _ hp => h.last i p hp, ?_⟩
      intro c hc
      obtain ⟨first, hfirst⟩ := h.inOrder c hc
      refine ⟨first, hfirst.of_owed_iff rfl
        (owed_insert_iff hcall (iff_of_true (owes_some.2 ?_) (owes_none e j)) s.subscribers)⟩
      rw [horder.mem_iff, ExtTreeMap.mem_keys]
      exact ExtTreeMap.mem_iff_isSome_getElem?.2
        (by rw [show s.subscribers[j]? = some c from hc]; rfl)
  | @offer k i e rest c hcall hstream =>
      obtain ⟨hi, -⟩ := List.nodup_cons.1 (h.inv.todo k _ hcall _ rfl)
      refine ⟨hinv, Dict.forall_insert (h.last k _ hcall) fun i p _ hp => h.last i p hp, ?_⟩
      intro d hd
      by_cases hij : i = j
      · subst hij
        rw [Dict.getElem?_insert, if_pos rfl] at hd
        rw [← Option.some.inj hd]
        obtain ⟨first, hfirst⟩ := h.inOrder c hstream
        exact ⟨first, hfirst.offer h.last hcall hi (hok e rest c hcall hstream) _⟩
      · rw [Dict.getElem?_insert, if_neg hij] at hd
        obtain ⟨first, hfirst⟩ := h.inOrder d hd
        refine ⟨first, hfirst.of_owed_iff rfl (owed_insert_iff hcall ?_ _)⟩
        rw [owes_some, owes_some, List.mem_cons, or_iff_right (Ne.symm hij)]
  | @unlock k e hcall =>
      refine ⟨hinv, fun i p hp => h.last i p (Dict.getElem?_erase_eq_some hp), ?_⟩
      intro c hc
      obtain ⟨first, hfirst⟩ := h.inOrder c hc
      refine ⟨first, hfirst.of_owed_iff rfl ⟨?_, ?_⟩⟩
      · rintro ⟨i, q, hq, hqowes⟩
        exact ⟨i, q, Dict.getElem?_erase_eq_some hq, hqowes⟩
      · rintro ⟨i, q, hq, hqowes⟩
        refine ⟨i, q, ?_, hqowes⟩
        rw [Dict.getElem?_erase, if_neg ?_]
        · exact hq
        · rintro rfl
          rw [hcall] at hq
          rw [← Option.some.inj hq, owes_some] at hqowes
          exact List.not_mem_nil hqowes
  | subscribe hunlocked =>
      refine ⟨hinv, h.last, ?_⟩
      intro c hc
      rcases Dict.getElem?_insert_eq_some hc with ⟨-, rfl⟩ | hc
      · exact h.subscribed _
      · obtain ⟨first, hfirst⟩ := h.inOrder c hc
        exact ⟨first, hfirst.of_owed_iff rfl Iff.rfl⟩
  | unsubscribe i hunlocked =>
      refine ⟨hinv, h.last, ?_⟩
      intro c hc
      obtain ⟨first, hfirst⟩ := h.inOrder c (Dict.getElem?_erase_eq_some hc)
      exact ⟨first, hfirst.of_owed_iff rfl Iff.rfl⟩
  | @receive i since offered received buf x hstream =>
      refine ⟨hinv, h.last, ?_⟩
      intro c hc
      rcases Dict.getElem?_insert_eq_some hc with ⟨rfl, rfl⟩ | hc
      · obtain ⟨first, hfirst⟩ := h.inOrder _ hstream
        have hlossless := hfirst.lossless
        refine ⟨first, hfirst.first_le, hfirst.since_le, hfirst.first_le_pushed, ?_, hfirst.owed,
          hfirst.all⟩
        show received ++ [x] ++ buf = offered
        rw [List.append_assoc]
        exact hlossless
      · obtain ⟨first, hfirst⟩ := h.inOrder c hc
        exact ⟨first, hfirst.of_owed_iff rfl Iff.rfl⟩

theorem orderly_new (j : Nat) : Orderly j new where
  inv := inv_new
  last k p hp := by
    rw [new, ExtTreeMap.getElem?_empty] at hp
    cases hp
  inOrder c hc := by
    rw [new, ExtTreeMap.getElem?_empty] at hc
    cases hc

/-- Numbered events by their numbers. -/
theorem map_snd_of_numbers {xs : List Numbered} {es : List ClusterEvent} {first : Nat}
    (hnumbers : xs.map Prod.fst = List.range' first (es.length - first))
    (hevents : ∀ x ∈ xs, es[x.1]? = some x.2) : xs.map Prod.snd = es.drop first := by
  apply List.map_injective_iff.2 (Option.some_injective ClusterEvent)
  calc (xs.map Prod.snd).map some
      = xs.map fun x => es[x.1]? := by
        rw [List.map_map]
        exact List.map_congr_left fun x hx => (hevents x hx).symm
    _ = (xs.map Prod.fst).map fun k => es[k]? := by rw [List.map_map]; rfl
    _ = (es.drop first).map some := by
        rw [hnumbers]
        apply List.ext_getElem?
        intro i
        rw [List.getElem?_map, List.getElem?_map, List.getElem?_drop]
        by_cases hi : i < es.length - first
        · rw [List.getElem?_range' hi, Option.map_some, Nat.one_mul]
          rw [List.getElem?_eq_getElem (show first + i < es.length by omega)]
          rfl
        · rw [List.getElem?_eq_none (by rw [List.length_range']; omega),
            List.getElem?_eq_none (show es.length ≤ first + i by omega)]
          rfl

/-- **A stream that keeps up is the log.** If pushes do not overlap and every offer to a stream
finds room in its channel, then, when no push is in progress, the stream has received, or has
waiting, exactly the events pushed since its subscription, in their order, preceded at most by the
one that was in progress at that time. -/
theorem stream_in_order {as : List FeedAction} {j : Nat} {c : Stream}
    (h : Run step (KeepsUp j) new as t) (hc : t.subscribers[j]? = some c) (hidle : t.calls = ∅) :
    ∃ first, first ≤ c.since ∧ c.since ≤ first + 1 ∧
      (c.received ++ c.buf).map Prod.snd = t.pushed.drop first := by
  have ht : Orderly j t := h.invariant orderly_step (orderly_new j)
  obtain ⟨first, hfirst⟩ := ht.inOrder c hc
  have hnot : ¬ t.Owed j := by
    rintro ⟨k, p, hp, -⟩
    rw [hidle, ExtTreeMap.getElem?_empty] at hp
    cases hp
  refine ⟨first, hfirst.first_le, hfirst.since_le, ?_⟩
  rw [hfirst.lossless]
  exact map_snd_of_numbers (hfirst.all hnot) (ht.inv.stream j c hc).pushed

theorem stream_in_order_joined :
    Run step (KeepsUp 0) new (.subscribe :: pushJoined) delivered ∧
      ∃ first, first ≤ 0 ∧ 0 ≤ first + 1 ∧ [joined] = [joined].drop first := by
  have h : Run step (KeepsUp 0) new (.subscribe :: pushJoined) delivered :=
    .cons trivial rfl (run_pushJoined fun _ _ hok => hok)
  exact ⟨h, stream_in_order (j := 0) (c := ⟨0, [(0, joined)], [], [(0, joined)]⟩) h rfl rfl⟩

end Feed

end Hapartition
