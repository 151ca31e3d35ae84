import Hapartition.Lib.BufWriter
import Hapartition.Resp.Segments
import Hapartition.Server.Reply

/-!
# Connections, byte by byte

`handleConn` between the bytes that a client sends and the bytes that it gets back: the requests
arrive in segments of any length, through the buffered reader; the replies are flushed one by one,
through the buffered writer, to a connection that may break at any byte. An error of the writer is
ignored, so that the loop goes on until the reader fails.

- `requests` are the values that the loop reads off a stream before the reader fails.
- `serveWire_eq`: neither the segments nor the fate of the replies matter. The server ends in the
  state in which these values leave it, and the client has the replies, cut where the connection
  broke.
- `cut_connection`: a client that goes away has exactly those requests executed that had arrived
  completely.
-/

set_option autoImplicit false

namespace Hapartition

open Lib

/-! ## The requests on a stream -/

theorem exists_form_eq {s rest : Bytes} {v : Value} (h : readValue s = .ok (v, rest)) :
    ∃ f : Form, f.Valid maxArrayDepth ∧ s = f.bytes ++ rest ∧ f.value = v :=
  readValueWithin_eq_ok_iff.1 h

/-- A value takes at least one byte. -/
theorem length_lt_of_readValue {s rest : Bytes} {v : Value} (h : readValue s = .ok (v, rest)) :
    rest.length < s.length := by
  obtain ⟨f, hf, rfl, rfl⟩ := exists_form_eq h
  have hne : f.bytes ≠ [] := by
    intro hnil
    have hempty := readValueWithin_form hf []
    rw [hnil] at hempty
    cases hempty
  have := List.length_pos_of_ne_nil hne
  rw [List.length_append]
  omega

/-- The values that are read off a stream before the reader fails, and how it fails. -/
def requests (s : Bytes) : List Value × ReadError :=
  match hread : readValue s with
  | .error err => ([], err)
  | .ok (v, rest) =>
      have := length_lt_of_readValue hread
      let others := requests rest
      (v :: others.1, others.2)
  termination_by s.length

theorem requests_of_error {s : Bytes} {err : ReadError} (h : readValue s = .error err) :
    requests s = ([], err) := by
  rw [requests]
  split
  next err' hread => rw [Except.error.inj (hread.symm.trans h)]
  next hread => cases hread.symm.trans h

theorem requests_of_ok {s rest : Bytes} {v : Value} (h : readValue s = .ok (v, rest)) :
    requests s = (v :: (requests rest).1, (requests rest).2) := by
  rw [requests]
  split
  next hread => cases hread.symm.trans h
  next v' rest' hread =>
    obtain ⟨rfl, rfl⟩ := Prod.mk.inj (Except.ok.inj (hread.symm.trans h))
    rfl

/-! ## Streams that are cut -/

/-- A value that has arrived completely is read, and leaves of the rest what has arrived of it. -/
theorem readValue_of_arrived {q s rest : Bytes} {v : Value} (hq : q <+: s)
    (h : readValue s = .ok (v, rest)) (harrived : s.length ≤ q.length + rest.length) :
    ∃ rest', readValue q = .ok (v, rest') ∧ rest' <+: rest ∧
      s.length + rest'.length = q.length + rest.length := by
  obtain ⟨f, hf, rfl, rfl⟩ := exists_form_eq h
  rw [List.length_append] at harrived
  have hprefix : f.bytes <+: q :=
    List.prefix_of_prefix_length_le (List.prefix_append _ _) hq (by omega)
  obtain ⟨rest', rfl⟩ := hprefix
  refine ⟨rest', readValueWithin_form hf rest', (List.prefix_append_right_inj _).1 hq, ?_⟩
  simp only [List.length_append]
  omega

/-- A value that has not is not. -/
theorem readValue_of_not_arrived {q s rest : Bytes} {v : Value} (hq : q <+: s)
    (h : readValue s = .ok (v, rest)) (hnot : ¬ s.length ≤ q.length + rest.length) :
    ∃ err, readValue q = .error err := by
  obtain ⟨f, hf, rfl, rfl⟩ := exists_form_eq h
  rw [List.length_append] at hnot
  have hwhole := readValueWithin_form hf []
  rw [List.append_nil] at hwhole
  refine (exact_readValueWithin maxArrayDepth).error_of_cut hwhole
    (List.prefix_of_prefix_length_le hq (List.prefix_append _ _) (by omega)) ?_
  rintro rfl
  omega

/-- Where the whole stream holds no value, no part of it does. -/
theorem readValue_of_error {q s : Bytes} {err : ReadError} (hq : q <+: s)
    (h : readValue s = .error err) : ∃ err', readValue q = .error err' := by
  obtain ⟨t, rfl⟩ := hq
  cases hread : readValue q with
  | error err' => exact ⟨err', rfl⟩
  | ok r =>
      have hwhole := exact_readValueWithin maxArrayDepth q r.1 r.2 hread t
      cases hwhole.symm.trans h

theorem readValues_succ_eq_ok {n : Nat} {s rest : Bytes} {ws : List Value}
    (h : readValues (n + 1) s = .ok (ws, rest)) :
    ∃ v rest' ws', readValue s = .ok (v, rest') ∧ readValues n rest' = .ok (ws', rest) ∧
      ws = v :: ws' := by
  rw [readValues] at h
  split at h
  · cases h
  next v rest' hv =>
    split at h
    · cases h
    next ws' rest'' hws =>
      obtain ⟨rfl, rfl⟩ := Prod.mk.inj (Except.ok.inj h)
      exact ⟨v, rest', ws', hv, hws, rfl⟩

theorem length_le_of_readValues {n : Nat} {s rest : Bytes} {ws : List Value}
    (h : readValues n s = .ok (ws, rest)) : rest.length ≤ s.length := by
  induction n generalizing s ws with
  | zero =>
      obtain ⟨-, rfl⟩ := Prod.mk.inj (Except.ok.inj h)
      exact Nat.le_refl _
  | succ n ih =>
      obtain ⟨v, rest', ws', hv, hws, -⟩ := readValues_succ_eq_ok h
      exact (ih hws).trans (length_lt_of_readValue hv).le

/-- The requests on a part of a stream are those on the whole of it that have arrived completely:
the first `n` of them, where the bytes of the first `k` have arrived exactly for `k ≤ n`. -/
theorem requests_of_prefix {q s : Bytes} (hq : q <+: s) :
    ∃ n, (requests q).1 = (requests s).1.take n ∧ ∀ k ws rest, readValues k s = .ok (ws, rest) →
      (k ≤ n ↔ s.length ≤ q.length + rest.length) := by
  -- on the length of the whole stream: a value is taken off both
  induction hlen : s.length using Nat.strongRecOn generalizing q s with
  | ind len ih =>
  subst hlen
  have hnone : ∀ err, readValue q = .error err → (∀ v rest, readValue s = .ok (v, rest) →
      ¬ s.length ≤ q.length + rest.length) → ∃ n, (requests q).1 = (requests s).1.take n ∧
        ∀ k ws rest, readValues k s = .ok (ws, rest) →
          (k ≤ n ↔ s.length ≤ q.length + rest.length) := by
    intro err herr hfirst
    refine ⟨0, by rw [requests_of_error herr, List.take_zero], ?_⟩
    intro k ws rest hk
    cases k with
    | zero =>
        obtain ⟨-, rfl⟩ := Prod.mk.inj (Except.ok.inj hk)
        exact iff_of_true (Nat.le_refl 0) (Nat.le_add_left _ _)
    | succ k =>
        obtain ⟨v, rest', ws', hv, hws, -⟩ := readValues_succ_eq_ok hk
        have hle := length_le_of_readValues hws
        have hnot := hfirst v rest' hv
        exact iff_of_false (Nat.not_succ_le_zero k) (by omega)
  cases hs : readValue s with
  | error err =>
      obtain ⟨err', herr'⟩ := readValue_of_error hq hs
      apply hnone err' herr'
      intro v rest h
      cases hs.symm.trans h
  | ok r =>
      obtain ⟨v, rest⟩ := r
      by_cases harrived : s.length ≤ q.length + rest.length
      · obtain ⟨rest', hread, hprefix, hbytes⟩ := readValue_of_arrived hq hs harrived
        obtain ⟨n, hn, hiff⟩ := ih rest.length (length_lt_of_readValue hs) hprefix rfl
        refine ⟨n + 1, ?_, ?_⟩
        · rw [requests_of_ok hread, requests_of_ok hs, hn]
          rfl
        · intro k ws rest'' hk
          cases k with
          | zero =>
              obtain ⟨-, rfl⟩ := Prod.mk.inj (Except.ok.inj hk)
              exact iff_of_true (Nat.zero_le _) (Nat.le_add_left _ _)
          | succ k =>
              obtain ⟨v', rest₁, ws', hv, hws, -⟩ := readValues_succ_eq_ok hk
              obtain ⟨rfl, rfl⟩ := Prod.mk.inj (Except.ok.inj (hs.symm.trans hv))
              rw [Nat.add_le_add_iff_right, hiff k ws' rest'' hws]
              omega
      · obtain ⟨err, herr⟩ := readValue_of_not_arrived hq hs harrived
        apply hnone err herr
        intro v' rest' h
        obtain ⟨-, rfl⟩ := Prod.mk.inj (Except.ok.inj (hs.symm.trans h))
        exact harrived

/-! ## Replies -/

/-- The replies of the server: a line, or a value framed by lengths. -/
def Replied (v : Value) : Prop :=
  (∃ text, v = .error text) ∨ (∃ text, v = .simpleString text) ∨ Framed v

theorem exists_resp_of_framed {v : Value} (h : Framed v) : ∃ b, v.resp = some b := by
  induction h with
  | integer n => exact ⟨_, rfl⟩
  | bulk data => cases data <;> exact ⟨_, rfl⟩
  | array _ ih =>
      obtain ⟨b, hb⟩ := respAll_of_forall ih
      exact ⟨_, by rw [Value.resp, hb]⟩

/-- Writing a reply does not panic. -/
theorem Replied.exists_resp {v : Value} (h : Replied v) : ∃ b, v.resp = some b := by
  rcases h with ⟨text, rfl⟩ | ⟨text, rfl⟩ | hframed
  · exact ⟨_, rfl⟩
  · exact ⟨_, rfl⟩
  · exact exists_resp_of_framed hframed

namespace Server

variable {R : Runtime} {O : Outcomes} {s : Server}

theorem replied_error (text : Bytes) : Replied (.error text) := .inl ⟨text, rfl⟩

theorem replied_ok : Replied .ok := .inr (.inl ⟨_, rfl⟩)

theorem replied_bulk (data : Option Bytes) : Replied (.bulkString data) := .inr (.inr (.bulk data))

theorem replied_integer (n : Int64) : Replied (.integer n) := .inr (.inr (.integer n))

theorem replied_handleKeyCommand {cmd : Bytes} {arity : Nat} {args : List Value}
    {fn : Bytes → Bytes → Server × Value} (hfn : ∀ key value, Replied (fn key value).2) :
    Replied (s.handleKeyCommand R cmd arity args fn).2 := by
  rw [handleKeyCommand]
  rcases keyArguments_cases (s := s) (R := R) cmd arity args with ⟨text, h⟩ | ⟨key, value, h, -⟩
  · rw [h]
    exact replied_error text
  · rw [h]
    exact hfn key value

theorem replied_execSet (key value : Bytes) : Replied (s.execSet O key value).2 := by
  rw [execSet_snd]
  cases s.setError O key value with
  | none => exact replied_ok
  | some err => exact replied_error _

theorem replied_handleDel (args : List Value) : Replied (s.handleDel R O args).2 := by
  have hexec : ∀ keys, Replied (s.execDel O keys).2 := by
    intro keys
    rw [execDel_snd]
    cases s.delError O keys with
    | none => exact replied_integer _
    | some err => exact replied_error _
  unfold handleDel delArguments
  split
  next reply h =>
    split at h
    · exact Except.error.inj h ▸ replied_error _
    · split at h
      · exact Except.error.inj h ▸ replied_error _
      · split at h
        · exact Except.error.inj h ▸ replied_error _
        · cases h
  next keys h => exact hexec keys

theorem replied_handleCluster (args : List Value) : Replied (s.handleCluster R args) := by
  have hslots : Replied (s.handleClusterSlots R) := by
    unfold handleClusterSlots
    dsimp only
    split
    · exact replied_error _
    · exact .inr (.inr (.array (by simpa using fun sr _ => framed_slotEntry sr)))
  have hnodes : Replied (s.handleClusterNodes R) := by
    unfold handleClusterNodes
    dsimp only
    split <;> exact replied_bulk _
  unfold handleCluster
  split
  · exact replied_error _
  split
  · exact replied_error _
  split
  · exact hslots
  · exact hnodes
  · exact replied_bulk _
  · split
    · exact replied_error _
    · split
      · exact replied_error _
      · exact replied_integer _
  · exact replied_error _

theorem replied_dispatch (cmd : Bytes) (args : List Value) :
    Replied (s.dispatch R O cmd args).2 := by
  unfold dispatch
  cases CommandName.ofName cmd with
  | ping => exact .inr (.inl ⟨_, rfl⟩)
  | info => exact replied_bulk _
  | set => exact replied_handleKeyCommand replied_execSet
  | get =>
      refine replied_handleKeyCommand fun key _ => ?_
      rw [execGet_eq]
      exact replied_bulk _
  | del => exact replied_handleDel args
  | nodeJoin =>
      rcases handleNodeJoin_cases (s := s) (R := R) args with ⟨text, h⟩ | ⟨id, addr, h⟩
      · simp only [h]
        exact replied_error text
      · simp only [h]
        exact replied_ok
  | nodeList =>
      unfold handleNodeList
      cases s.gossip with
      | none => exact replied_error _
      | some g => exact .inr (.inr (.array (by simpa using fun m _ => framed_memberEntry m)))
  | cluster => exact replied_handleCluster args
  | nodePing => exact replied_error _
  | nodeLeave => exact replied_error _
  | unknown => exact replied_error _

theorem replied_handleAuth (authenticated : Bool) (args : List Value) :
    Replied (s.handleAuth R authenticated args).2 := by
  unfold handleAuth
  split
  · exact replied_error _
  split
  · exact replied_error _
  split
  · exact replied_error _
  split
  · exact replied_error _
  · exact replied_ok

theorem replied_handle (authenticated : Bool) (v : Value) :
    Replied (s.handle R O authenticated v).2.2 := by
  unfold handle
  split
  · exact replied_error _
  split
  · exact replied_handleAuth authenticated _
  split
  · exact replied_error _
  · exact replied_dispatch _ _

end Server

/-! ## The loop -/

/-- The writer of a connection. -/
abbrev Writer : Type := BufWriter UInt8 bufferSize

/-- `WriteValue`, the error of which no caller looks at; nothing where `Resp` panics. -/
def Writer.writeValue (wr : Writer) (v : Value) : Option Writer := v.resp.map wr.writeFlush

theorem Reader.length_lt_of_readValue {rd rd' : Reader} {v : Value}
    (h : rd.readValue = .ok (v, rd')) : rd'.rest.length < rd.rest.length := by
  have hagrees := (Reader.agrees_readValue rd).map_eq
  rw [h] at hagrees
  exact Hapartition.length_lt_of_readValue hagrees.symm

namespace Server

variable (R : Runtime) (outs : Nat → Outcomes)

/-- The values of a connection from the `i`th on, each with the outcomes that it meets. -/
def numbered : Nat → List Value → List (Outcomes × Value)
  | _, [] => []
  | i, v :: vs => (outs i, v) :: numbered (i + 1) vs

/-- The loop of `handleConn`, from the `i`th request on: the server, the writer and the error with
which the reader ends it. -/
def serveWire (s : Server) (authenticated : Bool) (i : Nat) (rd : Reader) (wr : Writer) :
    Option (Server × Writer × ReadError) :=
  match hread : rd.readValue with
  | .error err => some (s, wr, err)
  | .ok (v, rd') =>
      have := Reader.length_lt_of_readValue hread
      let r := s.handle R (outs i) authenticated v
      match wr.writeValue r.2.2 with
      | none => none
      | some wr' => serveWire r.1 r.2.1 (i + 1) rd' wr'
  termination_by rd.rest.length

/-- `handleConn` on a connection: the segments that arrive, and what it takes of the replies. -/
def handleWire (s : Server) (src : Source UInt8) (sink : Sink UInt8) :
    Option (Server × Writer × ReadError) :=
  s.serveWire R outs (decide (s.authToken = [])) 0 (Reader.ofSource src) (BufWriter.new sink)

variable {R outs} {s : Server}

theorem serveWire_of_error {authenticated : Bool} {i : Nat} {rd : Reader} {wr : Writer}
    {err : ReadError} (h : rd.readValue = .error err) :
    s.serveWire R outs authenticated i rd wr = some (s, wr, err) := by
  rw [serveWire]
  split
  next err' hread => rw [Except.error.inj (hread.symm.trans h)]
  next hread => cases hread.symm.trans h

theorem serveWire_of_ok {authenticated : Bool} {i : Nat} {rd rd' : Reader} {wr : Writer} {v : Value}
    {b : Bytes} (h : rd.readValue = .ok (v, rd'))
    (hb : (s.handle R (outs i) authenticated v).2.2.resp = some b) :
    s.serveWire R outs authenticated i rd wr =
      (s.handle R (outs i) authenticated v).1.serveWire R outs
        (s.handle R (outs i) authenticated v).2.1 (i + 1) rd' (wr.writeFlush b) := by
  rw [serveWire]
  split
  next hread => cases hread.symm.trans h
  next v' rd'' hread =>
    obtain ⟨rfl, rfl⟩ := Prod.mk.inj (Except.ok.inj (hread.symm.trans h))
    simp only [Writer.writeValue, hb, Option.map_some]

/-- The run lemma: the loop handles the requests on what is left of the stream, and flushes the
encodings of the replies one by one. -/
theorem serveWire_run (R : Runtime) (outs : Nat → Outcomes) (s : Server) (authenticated : Bool)
    (i : Nat) (rd : Reader) (wr : Writer) :
    ∃ bs : List Bytes,
      respAll (s.serve R authenticated (numbered outs i (requests rd.rest).1)).2 = some bs.flatten ∧
      s.serveWire R outs authenticated i rd wr =
        some ((s.serve R authenticated (numbered outs i (requests rd.rest).1)).1,
          bs.foldl BufWriter.writeFlush wr, (requests rd.rest).2) := by
  -- on the bytes that are left: every request takes some of them
  induction hlen : rd.rest.length using Nat.strongRecOn generalizing s authenticated i rd wr with
  | ind len ih =>
  subst hlen
  have hagrees := (Reader.agrees_readValue rd).map_eq
  cases hread : rd.readValue with
  | error err =>
      rw [hread] at hagrees
      rw [requests_of_error hagrees.symm]
      exact ⟨[], rfl, serveWire_of_error hread⟩
  | ok r =>
      obtain ⟨v, rd'⟩ := r
      rw [hread] at hagrees
      obtain ⟨b, hb⟩ := (replied_handle (R := R) (O := outs i) (s := s) authenticated v).exists_resp
      obtain ⟨bs, hbs, hloop⟩ := ih rd'.rest.length (Reader.length_lt_of_readValue hread)
        (s.handle R (outs i) authenticated v).1 (s.handle R (outs i) authenticated v).2.1
        (i + 1) rd' (wr.writeFlush b) rfl
      rw [requests_of_ok hagrees.symm, serveWire_of_ok hread hb]
      refine ⟨b :: bs, ?_, hloop⟩
      simp only [numbered, serve, respAll, hb, hbs, List.flatten_cons]

/-- What a new writer has passed on after some blocks, each of them flushed. -/
theorem written_foldl_new (sink : Sink UInt8) (bs : List Bytes) :
    (bs.foldl BufWriter.writeFlush (BufWriter.new sink : Writer)).sink.written =
      BufWriter.cut sink.limit (sink.written ++ bs.flatten) :=
  (BufWriter.holds_new sink).foldl (fun _ => rfl) bs

/-- **A connection, byte by byte.** Whatever the segments in which the bytes of a client arrive, and
wherever the connection breaks under the replies, the loop ends without a panic and leaves the
server in the state in which the requests on the stream leave it; the client has been sent the
encodings of their replies in order, up to the byte at which the connection broke. -/
theorem serveWire_eq (R : Runtime) (outs : Nat → Outcomes) (s : Server) (src : Source UInt8)
    (sink : Sink UInt8) :
    ∃ (b : Bytes) (wr : Writer),
      respAll (s.handleConn R (numbered outs 0 (requests src.all).1)).2 = some b ∧
      s.handleWire R outs src sink =
        some ((s.handleConn R (numbered outs 0 (requests src.all).1)).1, wr, (requests src.all).2) ∧
      wr.sink.written = BufWriter.cut sink.limit (sink.written ++ b) := by
  obtain ⟨bs, hbs, hloop⟩ := serveWire_run R outs s
    (decide (s.authToken = [])) 0 (Reader.ofSource src) (BufWriter.new sink)
  refine ⟨bs.flatten, bs.foldl BufWriter.writeFlush (BufWriter.new sink), hbs, hloop, ?_⟩
  exact written_foldl_new sink bs

/-- **A client that goes away.** Of the requests on a stream, a connection that delivers only a part
of it executes those that have arrived completely: the first `n`, where the bytes of the first `k`
are within the part exactly for `k ≤ n`. A request of which a byte is missing leaves no trace. -/
theorem cut_connection (R : Runtime) (outs : Nat → Outcomes) (s : Server) (stream : Bytes)
    (src : Source UInt8) (sink : Sink UInt8) (hcut : src.all <+: stream) :
    ∃ (n : Nat) (wr : Writer) (err : ReadError),
      s.handleWire R outs src sink =
        some ((s.handleConn R (numbered outs 0 ((requests stream).1.take n))).1, wr, err) ∧
      ∀ k ws rest, readValues k stream = .ok (ws, rest) →
        (k ≤ n ↔ stream.length ≤ src.all.length + rest.length) := by
  obtain ⟨bs, -, hloop⟩ := serveWire_run R outs s
    (decide (s.authToken = [])) 0 (Reader.ofSource src) (BufWriter.new sink)
  obtain ⟨n, hn, hiff⟩ := requests_of_prefix hcut
  refine ⟨n, bs.foldl BufWriter.writeFlush (BufWriter.new sink), (requests src.all).2, ?_, hiff⟩
  rw [← hn]
  exact hloop

/-- The stream of two requests, and the part of it that ends within the second. -/
def twoPings : Bytes := str "*1\r\n$4\r\nPING\r\n*1\r\n$4\r\nPING\r\n"

def brokenPings : Source UInt8 := ⟨[twoPings.take 3, (twoPings.take 20).drop 3], by decide⟩

theorem cut_connection_pings :
    brokenPings.all <+: twoPings ∧
    ∃ (n : Nat) (wr : Writer) (err : ReadError),
      (Server.new .ascii (str ":6379") (str "n1")).handleWire .ascii (fun _ => .success) brokenPings
          ⟨[], none⟩ =
        some (((Server.new .ascii (str ":6379") (str "n1")).handleConn .ascii
          (numbered (fun _ => .success) 0 ((requests twoPings).1.take n))).1, wr, err) ∧
      ∀ k ws rest, readValues k twoPings = .ok (ws, rest) →
        (k ≤ n ↔ twoPings.length ≤ brokenPings.all.length + rest.length) := by
  have hcut : brokenPings.all <+: twoPings := ⟨twoPings.drop 20, by decide⟩
  exact ⟨hcut, cut_connection .ascii (fun _ => .success)
    (Server.new .ascii (str ":6379") (str "n1")) twoPings brokenPings ⟨[], none⟩ hcut⟩

end Server

end Hapartition
