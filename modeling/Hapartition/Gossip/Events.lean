import Hapartition.Gossip.Membership
import Hapartition.Lib.BoundedLog
import Hapartition.Lib.Slices

/-!
# The event ring

`Recent` of the event ring, with its slices checked at run time. The ring is a circular buffer that
holds a bounded log of the events pushed (`Represents`): a new ring does, `Push` is a push on the
log, and `Recent` hands out the last events of the log without a slice out of range
(`Represents.recent`). `recent_pushAll` is the result for every sequence of pushes, and
`recent_handleAll` for every sequence of callbacks of the transport.
-/

set_option autoImplicit false

namespace Hapartition

open Lib

namespace EventRing

/-- The part of `Recent` that copies the last `n` events. The new slice is no longer than the
buffer, so there is room for it. -/
def copyLast (r : EventRing) (n : Int) : Except Panic (List (Option ClusterEvent)) := do
  let out ← makeSlice (fun _ => true) n none
  let start := (r.pos : Int) - n
  if start < 0 then
    -- wrapped
    let tail ← slice r.buf (r.buf.length + start) r.buf.length
    let (out, part) := copySlice out tail
    let rest ← slice out part out.length
    let front ← slice r.buf 0 r.pos
    return out.take part ++ (copySlice rest front).1
  else
    let middle ← slice r.buf start r.pos
    return (copySlice out middle).1

/-- `Recent`. -/
def recent (r : EventRing) (n : Int) : Except Panic (List (Option ClusterEvent)) :=
  r.copyLast (if n ≤ 0 ∨ (r.count : Int) < n then r.count else n)

/-- A sequence of pushes on a new ring. -/
def pushAll (capacity : Nat) (es : List ClusterEvent) : EventRing :=
  es.foldl push (new capacity)

/-! ## Copying -/

section Copying

variable {r : EventRing} {k : Nat}

/-- The last `k` places before the next one, if they do not wrap around the end. -/
theorem copyLast_straight (hpos : k ≤ r.pos) (hlen : r.pos ≤ r.buf.length) :
    r.copyLast k = .ok ((r.buf.take r.pos).drop (r.pos - k)) := by
  have hstart : ((r.pos : Int) - k) = ((r.pos - k : Nat) : Int) := by omega
  have hnotneg : ¬ ((r.pos - k : Nat) : Int) < 0 := by omega
  have hcopied : ((r.buf.take r.pos).drop (r.pos - k)).length = k := by
    rw [List.length_drop, List.length_take]
    omega
  rw [copyLast, makeSlice_of_fits (Int.natCast_nonneg k) rfl, ok_bind, hstart, if_neg hnotneg,
    slice_natCast (Nat.sub_le _ _) hlen, ok_bind, Int.toNat_natCast,
    copySlice_replicate (Nat.le_of_eq hcopied), hcopied, Nat.sub_self, pure_eq_ok]
  exact congrArg _ (List.append_nil _)

/-- The last `k` places before the next one, if they wrap around the end. -/
theorem copyLast_wrapped (hk : k ≤ r.buf.length) (hpos : r.pos < k) :
    r.copyLast k = .ok (r.buf.drop (r.buf.length + r.pos - k) ++ r.buf.take r.pos) := by
  have hneg : (r.pos : Int) - k < 0 := by omega
  have hstart : (r.buf.length : Int) + (r.pos - k) = ((r.buf.length + r.pos - k : Nat) : Int) := by
    omega
  have htail : (r.buf.drop (r.buf.length + r.pos - k)).length = k - r.pos := by
    rw [List.length_drop]
    omega
  have hfront : (r.buf.take r.pos).length = r.pos := by
    rw [List.length_take]
    omega
  rw [copyLast, makeSlice_of_fits (Int.natCast_nonneg k) rfl, ok_bind, if_pos hneg, hstart,
    slice_natCast (by omega) (Nat.le_refl _), ok_bind, List.take_length, Int.toNat_natCast,
    copySlice_replicate (by omega), htail]
  -- what is left of the new slice is as long as the front of the buffer
  have hrest : k - (k - r.pos) = r.pos := by omega
  rw [hrest]
  dsimp only
  generalize r.buf.drop (r.buf.length + r.pos - k) = tail at htail
  rw [slice_natCast (by rw [List.length_append]; omega) (Nat.le_refl _), ok_bind, List.take_length,
    ← htail, List.drop_left, List.take_left]
  have hzero : slice r.buf 0 r.pos = .ok (r.buf.take r.pos) :=
    @slice_natCast _ r.buf 0 r.pos (Nat.zero_le _) (by omega)
  rw [hzero, ok_bind, copySlice_replicate (Nat.le_of_eq hfront), hfront, Nat.sub_self, pure_eq_ok,
    List.replicate_zero, List.append_nil]

end Copying

/-! ## The ring is a bounded log -/

/-- The ring represents the log. -/
structure Represents {c : Nat} (r : EventRing) (log : BoundedLog ClusterEvent c) : Prop where
  holds : Holds r.buf r.pos log
  count_eq : r.count = log.entries.length

variable {c : Nat} {r : EventRing} {log : BoundedLog ClusterEvent c}

theorem represents_new (hc : 0 < c) :
    (EventRing.new c).Represents (BoundedLog.empty : BoundedLog ClusterEvent c) :=
  ⟨Holds.replicate_none hc, rfl⟩

theorem Represents.push (h : r.Represents log) (e : ClusterEvent) :
    (r.push e).Represents (log.push e) where
  holds := h.holds.push e
  count_eq := by
    have hle := log.length_le
    show (if r.count < r.buf.length then r.count + 1 else r.count) =
      ((log.entries ++ [e]).rtake c).length
    rw [h.count_eq, h.holds.length_eq, List.rtake, List.length_drop, List.length_append,
      List.length_singleton]
    split <;> omega

theorem Represents.foldl_push (h : r.Represents log) (es : List ClusterEvent) :
    (es.foldl EventRing.push r).Represents (es.foldl BoundedLog.push log) := by
  induction es generalizing r log with
  | nil => exact h
  | cons e es ih => exact ih (h.push e)

/-- The pieces of the buffer that `Recent` copies are the last events. -/
theorem Represents.copyLast_eq (h : r.Represents log) {k : Nat} (hk : k ≤ log.entries.length) :
    r.copyLast k = .ok ((log.entries.rtake k).map some) := by
  have hpos := h.holds.pos_lt
  have hlen := h.holds.length_eq
  have hle := log.length_le
  by_cases hwrap : r.pos < k
  · rw [copyLast_wrapped (by omega) hwrap, hlen, h.holds.drop_append_take hk hwrap]
  · rw [copyLast_straight (by omega) (by omega), h.holds.drop_take hk (by omega)]

theorem Represents.recent_eq (h : r.Represents log) (n : Int) :
    r.recent n = .ok ((log.recent n).map some) := by
  rw [recent, BoundedLog.recent, h.count_eq]
  by_cases hall : n ≤ 0 ∨ (log.entries.length : Int) < n
  · rw [if_pos hall, if_pos hall, h.copyLast_eq (Nat.le_refl _), rtake_of_length_le (Nat.le_refl _)]
  · rw [if_neg hall, if_neg hall]
    obtain ⟨k, rfl⟩ : ∃ k : Nat, n = k := ⟨n.toNat, by omega⟩
    exact h.copyLast_eq (by omega)

/-! ## Sequences of events -/

theorem recent_pushAll_eq (hc : 0 < c) (es : List ClusterEvent) (n : Int) :
    (pushAll c es).recent n =
      .ok ((es.rtake (if n ≤ 0 ∨ ((min es.length c : Nat) : Int) < n then min es.length c
        else n.toNat)).map some) := by
  rw [← BoundedLog.recent_foldl_push]
  exact ((represents_new hc).foldl_push es).recent_eq n

/-- **The event ring is a bounded log.** After any pushes on a ring of any positive capacity,
`Recent` returns, oldest first, the last events that were pushed: as many as the ring keeps if `n`
is not positive or more than that, and else `n`. No slice is out of range. -/
theorem recent_pushAll (hc : 1 ≤ c) (es : List ClusterEvent) (n : Int) :
    (n ≤ 0 ∨ ((min es.length c : Nat) : Int) < n →
      (pushAll c es).recent n = .ok ((es.rtake (min es.length c)).map some)) ∧
    (0 < n → n ≤ ((min es.length c : Nat) : Int) →
      (pushAll c es).recent n = .ok ((es.rtake n.toNat).map some)) := by
  rw [recent_pushAll_eq hc]
  constructor
  · intro hall
    rw [if_pos hall]
  · intro hpos hle
    rw [if_neg (by omega)]

/-- Three events, of which the ring keeps two. -/
def threeEvents : List ClusterEvent :=
  [⟨1, .join, str "n1", str ":6379"⟩, ⟨2, .leave, str "n1", []⟩, ⟨3, .join, str "n2", str ":6380"⟩]

theorem recent_pushAll_wrapped :
    (pushAll 2 threeEvents).recent 5 = .ok ((threeEvents.rtake 2).map some) ∧
      (pushAll 2 threeEvents).recent 1 = .ok ((threeEvents.rtake 1).map some) :=
  ⟨(recent_pushAll (by decide) threeEvents 5).1 (by decide),
    (recent_pushAll (by decide) threeEvents 1).2 (by decide) (by decide)⟩

end EventRing

/-! ## The log of the transport's reports -/

/-- The event that the handler of a callback pushes. -/
def Callback.event (now : Int) : Callback → ClusterEvent
  | .onJoin nodeID redisAddr => ⟨now, .join, nodeID, redisAddr⟩
  | .onLeave nodeID => ⟨now, .leave, nodeID, []⟩
  | .onUpdate nodeID redisAddr => ⟨now, .update, nodeID, redisAddr⟩

theorem events_handleAll (H : Hashing) (localNodeID : Bytes) (cs : List (Int × Callback)) :
    ((View.new localNodeID).handleAll H cs).events =
      EventRing.pushAll eventRingSize (cs.map fun c => c.2.event c.1) := by
  have key : ∀ v : View, (v.handleAll H cs).events =
      (cs.map fun c => c.2.event c.1).foldl EventRing.push v.events := by
    induction cs with
    | nil => exact fun v => rfl
    | cons c cs ih =>
        intro v
        have hstep : (v.handle H c).events = v.events.push (c.2.event c.1) := by
          unfold View.handle
          cases c.2 <;> rfl
        rw [List.map_cons, List.foldl_cons, ← hstep]
        exact ih (v.handle H c)
  exact key _

/-- `RecentEvents` tells the last of the transport's reports, 200 at most. -/
theorem recent_handleAll (H : Hashing) (localNodeID : Bytes)
    (cs : List (Int × Callback)) (n : Int) :
    ((View.new localNodeID).handleAll H cs).events.recent n =
      .ok (((cs.map fun c => c.2.event c.1).rtake
        (if n ≤ 0 ∨ ((min cs.length eventRingSize : Nat) : Int) < n then min cs.length eventRingSize
          else n.toNat)).map some) := by
  rw [events_handleAll, EventRing.recent_pushAll_eq (by decide), List.length_map]

end Hapartition
