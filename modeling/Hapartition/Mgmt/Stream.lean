import Hapartition.Gossip.Membership

/-!
# The event stream

What `handleEventStream` of `internal/mgmt/mgmt.go` writes, turn by turn of its loop, and what a
client that reads server-sent events makes of it. The client cuts the stream into lines, ignores
comments, collects fields, and has an event when an empty line comes.

`Mgmt.decode_stream`: the client has exactly the events that were taken from the channel, in their
order, each with its type and its encoding; neither heartbeats nor events that have no encoding
leave a trace, and an event that has not been written completely is not seen.
-/

set_option autoImplicit false

namespace Hapartition

open Lib

namespace Mgmt

/-! ## The writer -/

/-- The text of the type of an event. -/
def typeText : EventType → Bytes
  | .join => str "join"
  | .leave => str "leave"
  | .update => str "update"

/-- A turn of the loop: the ticker, or an event from the channel. -/
inductive Turn where
  | heartbeat
  | event (e : ClusterEvent)

/-- What a turn writes; an event that has no encoding is skipped. -/
def Turn.write (marshal : ClusterEvent → Option Bytes) : Turn → Bytes
  | .heartbeat => str ": heartbeat\n\n"
  | .event e =>
      match marshal e with
      | none => []
      | some data => str "event: " ++ typeText e.type ++ str "\ndata: " ++ data ++ str "\n\n"

/-- What the stream writes, from its first keepalive on. -/
def writeStream (marshal : ClusterEvent → Option Bytes) (turns : List Turn) : Bytes :=
  str ": connected\n\n" ++ turns.flatMap (Turn.write marshal)

/-! ## The client -/

/-- The lines of a stream, each ended by a line feed, a carriage return, or both; `acc` is the line
that has begun. A line that does not end is not there yet. -/
def lines : Bytes → Bytes → List Bytes
  | _, [] => []
  | acc, [b] => if b = 10 ∨ b = 13 then [acc] else []
  | acc, b :: c :: s =>
      if b = 13 ∧ c = 10 then acc :: lines [] s
      else if b = 10 ∨ b = 13 then acc :: lines [] (c :: s)
      else lines (acc ++ [b]) (c :: s)

/-- An event that is being collected. -/
structure Pending where
  type : Bytes
  data : List Bytes

/-- The name and the value of a field; one space after the colon does not count. -/
def field (line : Bytes) : Bytes × Bytes :=
  let value := (line.dropWhile (· ≠ 58)).drop 1
  (line.takeWhile (· ≠ 58), if value.head? = some 32 then value.drop 1 else value)

/-- The events of a list of lines. -/
def interpret : Pending → List Bytes → List (Bytes × List Bytes)
  | _, [] => []
  | p, line :: rest =>
      if line = [] then
        -- without data there is no event
        if p.data = [] then interpret ⟨[], []⟩ rest
        else (p.type, p.data) :: interpret ⟨[], []⟩ rest
      else
        let (name, value) := field line
        -- a comment is a field without a name
        if name = str "event" then interpret { p with type := value } rest
        else if name = str "data" then interpret { p with data := p.data ++ [value] } rest
        else interpret p rest

/-- What the client has of a stream. -/
def decode (s : Bytes) : List (Bytes × List Bytes) := interpret ⟨[], []⟩ (lines [] s)

/-! ## Lines -/

/-- A text without line ends. -/
def OneLine (l : Bytes) : Prop := 10 ∉ l ∧ 13 ∉ l

theorem lines_append {l : Bytes} (h : OneLine l) (acc s : Bytes) :
    lines acc (l ++ 10 :: s) = (acc ++ l) :: lines [] s := by
  induction l generalizing acc with
  | nil =>
      rw [List.nil_append, List.append_nil]
      cases s with
      | nil => rfl
      | cons c s =>
          rw [lines, if_neg fun hbc => absurd hbc.1 (by decide), if_pos (.inl rfl)]
  | cons b l ih =>
      obtain ⟨hlf, hcr⟩ := h
      have hb10 : b ≠ 10 := fun hb => hlf (hb ▸ List.mem_cons_self)
      have hb13 : b ≠ 13 := fun hb => hcr (hb ▸ List.mem_cons_self)
      have hrest : OneLine l :=
        ⟨fun hm => hlf (List.mem_cons_of_mem b hm), fun hm => hcr (List.mem_cons_of_mem b hm)⟩
      have hne : l ++ 10 :: s ≠ [] := by simp
      obtain ⟨c, s', hs'⟩ := List.exists_cons_of_ne_nil hne
      rw [List.cons_append, hs', lines, if_neg fun hbc => hb13 hbc.1,
        if_neg fun hbc => hbc.elim hb10 hb13, ← hs', ih hrest, List.append_assoc]
      rfl

/-- What has arrived of a stream has some of its lines. -/
theorem lines_prefix (acc q t : Bytes) : lines acc q <+: lines acc (q ++ t) := by
  fun_induction lines acc q with
  | case1 acc => exact List.nil_prefix
  | case2 acc b hend =>
      cases t with
      | nil => rw [List.append_nil, lines, if_pos hend]
      | cons c t =>
          rw [List.singleton_append, lines]
          -- a line feed after a carriage return belongs to the line end that has been read
          split
          · exact (List.prefix_cons_inj acc).2 List.nil_prefix
          · exact (List.prefix_cons_inj acc).2 List.nil_prefix
  | case3 acc b hend => exact List.nil_prefix
  | case4 acc b c s hcrlf ih =>
      rw [List.cons_append, List.cons_append, lines, if_pos hcrlf]
      exact (List.prefix_cons_inj acc).2 ih
  | case5 acc b c s hcrlf hend ih =>
      rw [List.cons_append, List.cons_append, lines, if_neg hcrlf, if_pos hend]
      exact (List.prefix_cons_inj acc).2 ih
  | case6 acc b c s hcrlf hend ih =>
      rw [List.cons_append, List.cons_append, lines, if_neg hcrlf, if_neg hend]
      exact ih

/-! ## Events -/

/-- The events of some of the lines are some of the events. -/
theorem interpret_prefix (p : Pending) (ls ls' : List Bytes) :
    interpret p ls <+: interpret p (ls ++ ls') := by
  induction ls generalizing p with
  | nil => exact List.nil_prefix
  | cons line ls ih =>
      rw [List.cons_append, interpret, interpret]
      split
      · split
        · exact ih _
        · exact (List.prefix_cons_inj _).2 (ih _)
      · dsimp only
        split
        · exact ih _
        · split <;> exact ih _

theorem decode_prefix {q s : Bytes} (h : q <+: s) : decode q <+: decode s := by
  obtain ⟨t, rfl⟩ := h
  obtain ⟨ls, hls⟩ := lines_prefix [] q t
  rw [decode, decode, ← hls]
  exact interpret_prefix _ _ _

/-- A field that was written is read. -/
theorem field_of_name (name : Bytes) (hname : 58 ∉ name) (value : Bytes) :
    field (name ++ 58 :: 32 :: value) = (name, value) := by
  have hne : ∀ b ∈ name, decide (b ≠ 58) = true := fun b hb =>
    decide_eq_true fun heq => hname (heq ▸ hb)
  rw [field, List.takeWhile_append_of_pos hne, List.dropWhile_append_of_pos hne]
  simp

/-- The two fields of an event. -/
theorem interpret_fields (type data : Bytes) (rest : List Bytes) :
    interpret ⟨[], []⟩ ((str "event: " ++ type) :: (str "data: " ++ data) :: rest) =
      interpret ⟨type, [data]⟩ rest := by
  have hevent : field (str "event: " ++ type) = (str "event", type) :=
    field_of_name (str "event") (by decide) type
  have hdata : field (str "data: " ++ data) = (str "data", data) :=
    field_of_name (str "data") (by decide) data
  have hevent_ne : str "event: " ++ type ≠ [] := List.append_ne_nil_of_left_ne_nil (by decide) _
  have hdata_ne : str "data: " ++ data ≠ [] := List.append_ne_nil_of_left_ne_nil (by decide) _
  rw [interpret, if_neg hevent_ne, hevent]
  dsimp only
  rw [if_pos rfl, interpret, if_neg hdata_ne, hdata]
  dsimp only
  rw [if_neg (by decide), if_pos rfl]
  rfl

/-- A comment and the empty line after it. -/
theorem interpret_comment (line : Bytes) (rest : List Bytes) :
    interpret ⟨[], []⟩ ((58 :: line) :: [] :: rest) = interpret ⟨[], []⟩ rest := by
  have hname : (field (58 :: line)).1 = [] := rfl
  rw [interpret, if_neg (List.cons_ne_nil _ _)]
  dsimp only
  rw [hname, if_neg (by decide), if_neg (by decide), interpret, if_pos rfl, if_pos rfl]

theorem OneLine.nil : OneLine [] := ⟨List.not_mem_nil, List.not_mem_nil⟩

theorem OneLine.append {l l' : Bytes} (h : OneLine l) (h' : OneLine l') : OneLine (l ++ l') :=
  ⟨fun hm => (List.mem_append.1 hm).elim h.1 h'.1, fun hm => (List.mem_append.1 hm).elim h.2 h'.2⟩

theorem oneLine_typeText (type : EventType) : OneLine (typeText type) := by
  cases type <;> exact ⟨by decide, by decide⟩

theorem decode_comment (line : Bytes) (hline : OneLine (58 :: line)) (s : Bytes) :
    decode ((58 :: line) ++ 10 :: ([] ++ 10 :: s)) = decode s := by
  rw [decode, lines_append hline, lines_append .nil]
  exact interpret_comment line _

/-! ## Turns -/

section Turns

variable {marshal : ClusterEvent → Option Bytes}

/-- What a client should see of a turn. -/
def Turn.seen (marshal : ClusterEvent → Option Bytes) : Turn → Option (Bytes × List Bytes)
  | .heartbeat => none
  | .event e => (marshal e).map fun data => (typeText e.type, [data])

/-- The lines that an event is written in. -/
theorem Turn.write_event {e : ClusterEvent} {data : Bytes} (hdata : marshal e = some data) :
    Turn.write marshal (.event e) =
      (str "event: " ++ typeText e.type) ++ 10 :: ((str "data: " ++ data) ++ [10]) ++ [10] := by
  have hsep : str "\ndata: " = 10 :: str "data: " := by decide
  have hend : str "\n\n" = [10, 10] := by decide
  rw [Turn.write, hdata, hsep, hend]
  simp only [List.append_assoc, List.cons_append, List.nil_append]

/-- The two fields of an event, before anything else. -/
theorem decode_fields (type : EventType) {data : Bytes} (hdata : OneLine data) (s : Bytes) :
    decode ((str "event: " ++ typeText type) ++ 10 :: ((str "data: " ++ data) ++ 10 :: s)) =
      interpret ⟨typeText type, [data]⟩ (lines [] s) := by
  have hevent : OneLine (str "event: " ++ typeText type) :=
    OneLine.append ⟨by decide, by decide⟩ (oneLine_typeText type)
  have hline : OneLine (str "data: " ++ data) := OneLine.append ⟨by decide, by decide⟩ hdata
  rw [decode, lines_append hevent, lines_append hline]
  exact interpret_fields _ _ _

variable (hmarshal : ∀ e data, marshal e = some data → OneLine data)
include hmarshal

theorem Turn.decode_write (turn : Turn) (s : Bytes) :
    decode (turn.write marshal ++ s) = (turn.seen marshal).toList ++ decode s := by
  cases turn with
  | heartbeat => exact decode_comment (str " heartbeat") ⟨by decide, by decide⟩ s
  | event e =>
      rw [Turn.seen]
      cases hdata : marshal e with
      | none =>
          rw [Turn.write, hdata]
          rfl
      | some data =>
          rw [Turn.write_event hdata]
          simp only [List.append_assoc, List.cons_append, List.nil_append]
          rw [← List.append_assoc, ← List.append_assoc,
            decode_fields e.type (hmarshal e data hdata)]
          -- the empty line ends the event
          have hempty : lines [] (10 :: s) = [] :: lines [] s := lines_append .nil [] s
          rw [hempty, interpret, if_pos rfl]
          rfl

/-- Of a turn that has not been written completely nothing is seen: the last byte ends its empty
line. -/
theorem Turn.decode_cut {turn : Turn} {q : Bytes} (hq : q <+: turn.write marshal)
    (hcut : q ≠ turn.write marshal) : decode q = [] := by
  suffices hall : ∃ body, turn.write marshal = body ++ [10] ∧ decode body = [] by
    obtain ⟨body, hwrite, hbody⟩ := hall
    rw [hwrite] at hq hcut
    have hle := decode_prefix ((List.prefix_concat_iff.1 hq).resolve_left hcut)
    rwa [hbody, List.prefix_nil] at hle
  cases turn with
  | heartbeat => exact ⟨str ": heartbeat\n", rfl, by decide⟩
  | event e =>
      cases hdata : marshal e with
      | none =>
          rw [Turn.write, hdata] at hq hcut
          exact absurd (List.prefix_nil.1 hq) hcut
      | some data =>
          exact ⟨_, Turn.write_event hdata, decode_fields e.type (hmarshal e data hdata) []⟩

theorem decode_turns (turns : List Turn) (s : Bytes) :
    decode (turns.flatMap (Turn.write marshal) ++ s) =
      turns.filterMap (Turn.seen marshal) ++ decode s := by
  induction turns with
  | nil => rfl
  | cons turn turns ih =>
      rw [List.flatMap_cons, List.append_assoc, Turn.decode_write hmarshal, ih, List.filterMap_cons]
      cases turn.seen marshal <;> rfl

end Turns

/-! ## What can arrive -/

/-- The bytes `q` are a part of the stream of `turns` in which the turns `done` are complete: a part
of the first keepalive, the stream up to the end of a turn, or up to somewhere in the next one. -/
inductive Arrived (marshal : ClusterEvent → Option Bytes) (turns : List Turn) :
    List Turn → Bytes → Prop where
  | greeting (q : Bytes) (hq : q <+: str ": connected\n\n") (hcut : q ≠ str ": connected\n\n") :
      Arrived marshal turns [] q
  | whole (done : List Turn) (hdone : done <+: turns) :
      Arrived marshal turns done (writeStream marshal done)
  | cut (done : List Turn) (turn : Turn) (q : Bytes) (hdone : done ++ [turn] <+: turns)
      (hq : q <+: turn.write marshal) (hcut : q ≠ turn.write marshal) :
      Arrived marshal turns done (writeStream marshal done ++ q)

/-- A part of a text is a part of its first piece, or the piece and a part of the others. -/
theorem prefix_append_cases {q l s : Bytes} (h : q <+: l ++ s) :
    (q <+: l ∧ q ≠ l) ∨ ∃ q', q = l ++ q' ∧ q' <+: s := by
  by_cases hlen : l.length ≤ q.length
  · obtain ⟨q', rfl⟩ := List.prefix_of_prefix_length_le (List.prefix_append l s) h hlen
    exact .inr ⟨q', rfl, (List.prefix_append_right_inj l).1 h⟩
  · refine .inl ⟨List.prefix_of_prefix_length_le h (List.prefix_append l s) (by omega), ?_⟩
    rintro rfl
    exact hlen le_rfl

section Arrived

variable {marshal : ClusterEvent → Option Bytes}

/-- A part of the turns has some of them complete, and of the next one a part. -/
theorem exists_turns_of_prefix {turns : List Turn} {q : Bytes}
    (h : q <+: turns.flatMap (Turn.write marshal)) :
    ∃ done, (done <+: turns ∧ q = done.flatMap (Turn.write marshal)) ∨
      ∃ (turn : Turn) (cut : Bytes), done ++ [turn] <+: turns ∧
        q = done.flatMap (Turn.write marshal) ++ cut ∧ cut <+: turn.write marshal ∧
        cut ≠ turn.write marshal := by
  induction turns generalizing q with
  | nil => exact ⟨[], .inl ⟨List.nil_prefix, List.prefix_nil.1 h⟩⟩
  | cons first turns ih =>
      rw [List.flatMap_cons] at h
      -- the cut is in the first turn, or the first turn is complete
      rcases prefix_append_cases h with ⟨hq, hcut⟩ | ⟨q', rfl, hq'⟩
      · exact ⟨[], .inr ⟨first, q, List.prefix_append [first] turns, rfl, hq, hcut⟩⟩
      · obtain ⟨done, hform⟩ := ih hq'
        refine ⟨first :: done, ?_⟩
        rw [List.flatMap_cons]
        rcases hform with ⟨hdone, rfl⟩ | ⟨turn, cut, hdone, rfl, hcut⟩
        · exact .inl ⟨(List.prefix_cons_inj first).2 hdone, rfl⟩
        · exact .inr ⟨turn, cut, (List.prefix_cons_inj first).2 hdone,
            (List.append_assoc _ _ _).symm, hcut⟩

theorem exists_arrived {turns : List Turn} {q : Bytes} (h : q <+: writeStream marshal turns) :
    ∃ done, Arrived marshal turns done q := by
  rcases prefix_append_cases h with ⟨hq, hcut⟩ | ⟨q', rfl, hq'⟩
  · exact ⟨[], .greeting q hq hcut⟩
  · obtain ⟨done, ⟨hdone, rfl⟩ | ⟨turn, cut, hdone, rfl, hcut, hne⟩⟩ := exists_turns_of_prefix hq'
    · exact ⟨done, .whole done hdone⟩
    · rw [← List.append_assoc]
      exact ⟨done, .cut done turn cut hdone hcut hne⟩

variable (hmarshal : ∀ e data, marshal e = some data → OneLine data)
include hmarshal

theorem decode_writeStream (turns : List Turn) (s : Bytes) :
    decode (writeStream marshal turns ++ s) = turns.filterMap (Turn.seen marshal) ++ decode s := by
  rw [← decode_turns hmarshal turns s, writeStream, List.append_assoc]
  exact decode_comment (str " connected") ⟨by decide, by decide⟩ _

theorem Arrived.decode_eq {turns done : List Turn} {q : Bytes} (h : Arrived marshal turns done q) :
    decode q = done.filterMap (Turn.seen marshal) := by
  cases h with
  | greeting q hq =>
      -- the whole keepalive shows nothing, so no part of it does
      have hle := decode_prefix hq
      rwa [show decode (str ": connected\n\n") = [] by decide, List.prefix_nil] at hle
  | whole =>
      have hwhole := decode_writeStream hmarshal done []
      rwa [List.append_nil, show decode [] = [] from rfl, List.append_nil] at hwhole
  | cut _ turn cut hdone hq hcut =>
      rw [decode_writeStream hmarshal, Turn.decode_cut hmarshal hq hcut, List.append_nil]

end Arrived

/-- **Whatever has arrived of the stream, the client has the events that were written completely**:
each turn's event in its order, with its type and its encoding, and nothing of the keepalives, of
events that have no encoding, or of a turn that is being written. -/
theorem decode_stream {marshal : ClusterEvent → Option Bytes}
    (hmarshal : ∀ e data, marshal e = some data → OneLine data) (turns : List Turn) :
    (∀ (done : List Turn) (q : Bytes), Arrived marshal turns done q →
      decode q = done.filterMap (Turn.seen marshal)) ∧
    ∀ q : Bytes, q <+: writeStream marshal turns → ∃ done, Arrived marshal turns done q :=
  ⟨fun _ _ h => h.decode_eq hmarshal, fun _ h => exists_arrived h⟩

/-! ## A sample -/

/-- A text that JSON needs no escapes for. -/
def Unescaped (s : Bytes) : Prop := ∀ b ∈ s, 32 < b ∧ b < 127 ∧ b ∉ [34, 38, 60, 62, 92]

instance (s : Bytes) : Decidable (Unescaped s) := inferInstanceAs (Decidable (∀ b ∈ s, _))

/-- What `json.Marshal` returns for an event at the start of Unix time, with plain texts. -/
def plainJson (e : ClusterEvent) : Option Bytes :=
  if e.timestamp = 0 ∧ Unescaped e.nodeName ∧ Unescaped e.redisAddr then
    some (str "\x7b\"timestamp\":\"1970-01-01T00:00:00Z\",\"type\":\"" ++ typeText e.type ++
      str "\",\"node_name\":\"" ++ e.nodeName ++ str "\",\"address\":\"\",\"redis_addr\":\"" ++
      e.redisAddr ++ str "\"\x7d")
  else none

theorem Unescaped.oneLine {s : Bytes} (h : Unescaped s) : OneLine s :=
  ⟨fun hm => absurd (h 10 hm).1 (by decide), fun hm => absurd (h 13 hm).1 (by decide)⟩

theorem oneLine_plainJson (e : ClusterEvent) (data : Bytes) (h : plainJson e = some data) :
    OneLine data := by
  rw [plainJson] at h
  split at h
  next hplain =>
    obtain rfl := Option.some.inj h
    have htext {l : Bytes} (hlf : 10 ∉ l) (hcr : 13 ∉ l) : OneLine l := ⟨hlf, hcr⟩
    refine OneLine.append (OneLine.append (OneLine.append (OneLine.append (OneLine.append
      (OneLine.append ?_ (oneLine_typeText _)) ?_) hplain.2.1.oneLine) ?_) hplain.2.2.oneLine) ?_
    all_goals exact htext (by decide) (by decide)
  next => cases h

/-- A join, a heartbeat, and a part of a leave; and a part of the first keepalive. -/
theorem decode_stream_half :
    decode (writeStream plainJson [.event ⟨0, .join, str "n2", str ":6380"⟩, .heartbeat] ++
      str "event: leave\ndata: \x7b\"timestamp\":") =
      [(str "join", [str ("\x7b\"timestamp\":\"1970-01-01T00:00:00Z\",\"type\":\"join\"," ++
        "\"node_name\":\"n2\",\"address\":\"\",\"redis_addr\":\":6380\"\x7d")])] ∧
    decode (str ": conn") = [] :=
  have hstream := decode_stream oneLine_plainJson [.event ⟨0, .join, str "n2", str ":6380"⟩,
    .heartbeat, .event ⟨0, .leave, str "n2", []⟩]
  ⟨(hstream.1 [.event ⟨0, .join, str "n2", str ":6380"⟩, .heartbeat] _
      (.cut _ (.event ⟨0, .leave, str "n2", []⟩) _ (List.prefix_refl _) (by decide +kernel)
        (by decide +kernel))).trans (by decide +kernel),
    hstream.1 [] _ (.greeting _ (by decide) (by decide))⟩

end Mgmt

end Hapartition
