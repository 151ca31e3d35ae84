import Hapartition.Lib.Text
import Hapartition.Server.Connection
import Hapartition.Server.PlainMap

/-!
# The plain map on the wire

A client that pipelines well-formed `SET`, `GET` and `DEL` requests to a server that is alone on its
ring, and decodes what comes back, sees the replies of a plain map (`plain_map_wire`). The layers
below meet here: the encoding of the requests, the segments in which they arrive, the loop of the
connection, the store, and the encoding of the replies.
-/

set_option autoImplicit false

namespace Hapartition

open Lib Std
open Server (FitsBulk)

/-! ## Streams of values within the limits -/

/-- The values that are read off the encodings of values within the limits are these. -/
theorem requests_of_respAll {vs : List Value} (h : ∀ v ∈ vs, Encodable maxArrayDepth v) {b : Bytes}
    (hb : respAll vs = some b) : requests b = (vs, .eof) := by
  induction vs generalizing b with
  | nil =>
      rw [← Option.some.inj hb]
      exact requests_of_error rfl
  | cons v vs ih =>
      obtain ⟨b₁, b₂, hb₁, hb₂, rfl⟩ := respAll_cons_eq_some hb
      have hread := readValueWithin_resp (h v List.mem_cons_self) hb₁ b₂
      rw [requests_of_ok hread, ih (fun w hw => h w (List.mem_cons_of_mem v hw)) hb₂]

/-! ## Requests and replies within the limits -/

/-- A request that a client can encode: at least one key, and no more than an array holds beside the
name. -/
def KeyRequest.Fits : KeyRequest → Prop
  | .set key value => FitsBulk key ∧ FitsBulk value
  | .get key => FitsBulk key
  | .del keys => keys ≠ [] ∧ keys.length < maxArrayLength ∧ ∀ key ∈ keys, FitsBulk key

/-- The command of a request, and its arguments. -/
def KeyRequest.command : KeyRequest → KeyCommand × List Value
  | .set key value => (.set, [newBulkString key, newBulkString value])
  | .get key => (.get, [newBulkString key])
  | .del keys => (.del, keys.map newBulkString)

/-- The request as a client sends it. -/
def KeyRequest.toValue (r : KeyRequest) : Value :=
  .array (newBulkString r.command.1.name :: r.command.2)

/-- A reply that is no error, with a value that fits. -/
def PlainReply.Fits : PlainReply → Prop
  | .value (some v) => FitsBulk v
  | .error => False
  | _ => True

/-- A map the values of which fit. -/
def PlainMap.Fits (m : PlainMap) : Prop :=
  ∀ (key value : Bytes), m[key]? = some value → FitsBulk value

theorem fitsBulk_name (c : KeyCommand) : FitsBulk c.name := by
  cases c <;> exact Nat.le_of_ble_eq_true rfl

theorem KeyRequest.Fits.arguments {r : KeyRequest} (h : r.Fits) :
    r.command.2.length < maxArrayLength ∧
      ∀ room, ∀ v ∈ r.command.2, Encodable room v := by
  cases r with
  | set key value =>
      refine ⟨Nat.le_of_ble_eq_true rfl, ?_⟩
      intro room v hv
      rcases List.mem_pair.1 hv with rfl | rfl
      · exact Server.encodable_bulk_iff.2 h.1
      · exact Server.encodable_bulk_iff.2 h.2
  | get key =>
      refine ⟨Nat.le_of_ble_eq_true rfl, ?_⟩
      intro room v hv
      rw [List.mem_singleton.1 hv]
      exact Server.encodable_bulk_iff.2 h
  | del keys =>
      obtain ⟨-, hlen, hkeys⟩ := h
      refine ⟨by rwa [KeyRequest.command, List.length_map], ?_⟩
      intro room v hv
      obtain ⟨key, hkey, rfl⟩ := List.mem_map.1 hv
      exact Server.encodable_bulk_iff.2 (hkeys key hkey)

theorem KeyRequest.Fits.encodable {r : KeyRequest} (h : r.Fits) :
    Encodable maxArrayDepth r.toValue := by
  obtain ⟨hlen, hargs⟩ := h.arguments
  refine ⟨hlen, ?_⟩
  intro v hv
  rcases List.mem_cons.1 hv with rfl | hv
  · exact Server.encodable_bulk_iff.2 (fitsBulk_name _)
  · exact hargs _ v hv

theorem mapM_getBulkString (keys : List Bytes) :
    (keys.map newBulkString).mapM Server.getBulkString = some keys := by
  have hread : ∀ key ∈ keys, Server.getBulkString (newBulkString key) = some (id key) :=
    fun _ _ => rfl
  rw [mapM_map_some hread, List.map_id]

/-- The arguments stand for the request. -/
theorem KeyRequest.Fits.parse {r : KeyRequest} (h : r.Fits) :
    KeyRequest.parse r.command.1 r.command.2 = some r := by
  cases r with
  | set key value => rfl
  | get key => rfl
  | del keys =>
      obtain ⟨hne, -⟩ := h
      obtain ⟨key, keys, rfl⟩ := List.exists_cons_of_ne_nil hne
      show ((List.map newBulkString (key :: keys)).mapM Server.getBulkString).map KeyRequest.del = _
      rw [mapM_getBulkString]
      rfl

/-! ## The map within the limits -/

theorem PlainMap.Fits.erase {m : PlainMap} (h : m.Fits) (key : Bytes) :
    PlainMap.Fits (m.erase key) := by
  intro k v hk
  rw [ExtTreeMap.getElem?_erase] at hk
  split at hk
  · cases hk
  · exact h k v hk

/-- The step lemma: a request that fits gets a reply that fits, and keeps the values within the
limits. -/
theorem KeyRequest.Fits.apply {r : KeyRequest} (h : r.Fits) {m : PlainMap} (hm : m.Fits) :
    (r.apply m).2.Fits ∧ PlainMap.Fits (r.apply m).1 := by
  cases r with
  | set key value =>
      refine ⟨trivial, ?_⟩
      intro k v hk
      rw [KeyRequest.apply, Dict.getElem?_insert] at hk
      split at hk
      · rw [← Option.some.inj hk]
        exact h.2
      · exact hm k v hk
  | get key =>
      refine ⟨?_, hm⟩
      show (PlainReply.value m[key]?).Fits
      cases hvalue : m[key]? with
      | none => trivial
      | some value => exact hm key value hvalue
  | del keys =>
      refine ⟨trivial, ?_⟩
      show PlainMap.Fits (keys.foldl (fun m k => m.erase k) m)
      clear h
      induction keys generalizing m with
      | nil => exact hm
      | cons key keys ih => exact ih (hm.erase key)

theorem PlainMap.Fits.replies {m : PlainMap} (hm : m.Fits) {reqs : List KeyRequest}
    (h : ∀ r ∈ reqs, r.Fits) : ∀ p ∈ m.replies (reqs.map KeyRequest.command), p.Fits := by
  induction reqs generalizing m with
  | nil =>
      intro p hp
      cases hp
  | cons r reqs ih =>
      have hr := h r List.mem_cons_self
      have hstep : m.step r.command.1 r.command.2 = r.apply m := by
        rw [PlainMap.step, hr.parse]
      obtain ⟨hreply, hmap⟩ := hr.apply hm
      intro p hp
      rw [List.map_cons, PlainMap.replies, hstep] at hp
      rcases List.mem_cons.1 hp with rfl | hp
      · exact hreply
      · exact ih hmap (fun r' hr' => h r' (List.mem_cons_of_mem r hr')) p hp

theorem PlainReply.Fits.encodable {p : PlainReply} (hp : p.Fits) {v : Value} (h : p.Matches v) :
    Encodable maxArrayDepth v := by
  cases p with
  | ok =>
      rw [show v = Value.ok from h]
      exact ⟨by decide, by decide⟩
  | value o =>
      rw [show v = Value.bulkString o from h]
      cases o with
      | none => trivial
      | some data => exact hp
  | count n =>
      obtain ⟨i, rfl, -⟩ := h
      trivial
  | error => exact hp.elim

theorem encodable_of_matches {ps : List PlainReply} {vs : List Value}
    (h : List.Forall₂ PlainReply.Matches ps vs) (hps : ∀ p ∈ ps, p.Fits) :
    ∀ v ∈ vs, Encodable maxArrayDepth v := by
  induction h with
  | nil =>
      intro v hv
      cases hv
  | cons hmatch _ ih =>
      intro v hv
      rcases List.mem_cons.1 hv with rfl | hv
      · exact (hps _ List.mem_cons_self).encodable hmatch
      · exact ih (fun p hp => hps p (List.mem_cons_of_mem _ hp)) v hv

namespace Server

variable {R : Runtime} {outs : Nat → Outcomes} {s : Server}

/-! ## The loop on these requests -/

/-- The requests with the outcomes that they meet. -/
def numberedCommands (outs : Nat → Outcomes) :
    Nat → List KeyRequest → List (Outcomes × KeyCommand × List Value)
  | _, [] => []
  | i, r :: reqs => (outs i, r.command) :: numberedCommands outs (i + 1) reqs

theorem map_snd_numberedCommands (i : Nat) (reqs : List KeyRequest) :
    (numberedCommands outs i reqs).map Prod.snd = reqs.map KeyRequest.command := by
  induction reqs generalizing i with
  | nil => rfl
  | cons r reqs ih => rw [numberedCommands, List.map_cons, ih, List.map_cons]

theorem classify_toValue (r : KeyRequest) :
    classify R r.toValue = .command r.command.1.name r.command.2 := by
  have hupper : ∀ c : KeyCommand, toUpper R.upper c.name = c.name := by
    intro c
    cases c <;> exact (toUpper_of_ascii (by decide)).trans (by decide)
  show Request.command (toUpper R.upper r.command.1.name) r.command.2 = _
  rw [hupper]

theorem handle_toValue (O : Outcomes) (r : KeyRequest) :
    s.handle R O true r.toValue =
      ((s.dispatch R O r.command.1.name r.command.2).1, true,
        (s.dispatch R O r.command.1.name r.command.2).2) := by
  have hauth : r.command.1.name ≠ str "AUTH" := by
    cases r.command.1 <;> decide
  rw [handle, classify_toValue]
  simp only [if_neg hauth, Bool.not_true, Bool.false_eq_true, if_false]

theorem serve_toValue (i : Nat) (reqs : List KeyRequest) :
    (s.serve R true (numbered outs i (reqs.map KeyRequest.toValue))).2 =
      replies R s (numberedCommands outs i reqs) := by
  induction reqs generalizing s i with
  | nil => rfl
  | cons r reqs ih =>
      rw [List.map_cons, numbered, numberedCommands, serve, replies, handle_toValue]
      exact congrArg (List.cons _) (ih (i + 1))

/-- **A plain map on the wire.** A fresh server without a token and without gossip, alone on its
ring, is sent the encodings of well-formed requests that fit, in segments of any length. The bytes
that the client gets back decode to as many values as there were requests, with nothing left over,
and these are the replies of a plain map. -/
theorem plain_map_wire (R : Runtime) (outs : Nat → Outcomes) (s : Server)
    (hgossip : s.gossip = none) (hring : ∀ e ∈ s.ring.entries, e.nodeID = s.localID)
    (hstore : s.store = Store.new) (hauth : s.authToken = []) (reqs : List KeyRequest)
    (hfits : ∀ r ∈ reqs, r.Fits)
    (hversions : (versionsOf (reqs.map KeyRequest.command) : Int) < Int64.maxValue.toInt)
    (src : Source UInt8) (hsrc : respAll (reqs.map KeyRequest.toValue) = some src.all) :
    ∃ (s' : Server) (wr : Writer) (values : List Value),
      s.handleWire R outs src ⟨[], none⟩ = some (s', wr, .eof) ∧
      requests wr.sink.written = (values, .eof) ∧
      List.Forall₂ PlainReply.Matches
        (PlainMap.replies ∅ (reqs.map KeyRequest.command)) values := by
  have hrequests : requests src.all = (reqs.map KeyRequest.toValue, .eof) := by
    refine requests_of_respAll ?_ hsrc
    intro v hv
    obtain ⟨r, hr, rfl⟩ := List.mem_map.1 hv
    exact (hfits r hr).encodable
  have hstart : Sim R s ∅ 0 := Sim.fresh hgossip hring hstore
  have hmatches := hstart.replies (numberedCommands outs 0 reqs)
    (by rwa [map_snd_numberedCommands, Nat.zero_add])
  rw [map_snd_numberedCommands] at hmatches
  have hempty : PlainMap.Fits ∅ := by
    intro key value h
    rw [ExtTreeMap.getElem?_empty] at h
    cases h
  have hencodable := encodable_of_matches hmatches (hempty.replies hfits)
  obtain ⟨bs, hbs, hloop⟩ := serveWire_run R outs s
    true 0 (Reader.ofSource src) (BufWriter.new ⟨[], none⟩)
  rw [show (Reader.ofSource src).rest = src.all from rfl, hrequests] at hbs hloop
  rw [serve_toValue] at hbs
  refine ⟨(s.serve R true (numbered outs 0 (reqs.map KeyRequest.toValue))).1,
    bs.foldl BufWriter.writeFlush (BufWriter.new ⟨[], none⟩),
    replies R s (numberedCommands outs 0 reqs), ?_, ?_, hmatches⟩
  · rw [handleWire, hauth]
    exact hloop
  · rw [written_foldl_new]
    exact requests_of_respAll hencodable hbs

/-- A key is set, read, deleted and read again; the bytes arrive in two segments. -/
def wireRequests : List KeyRequest :=
  [.set (str "k") (str "v"), .get (str "k"), .del [str "k"], .get (str "k")]

def wireBytes : Bytes :=
  str "*3\r\n$3\r\nSET\r\n$1\r\nk\r\n$1\r\nv\r\n*2\r\n$3\r\nGET\r\n$1\r\nk\r\n" ++
    str "*2\r\n$3\r\nDEL\r\n$1\r\nk\r\n*2\r\n$3\r\nGET\r\n$1\r\nk\r\n"

def wireSource : Source UInt8 := ⟨[wireBytes.take 7, wireBytes.drop 7], by decide⟩

theorem plain_map_wire_sample :
    PlainMap.replies ∅ (wireRequests.map KeyRequest.command) =
      [.ok, .value (some (str "v")), .count 1, .value none] ∧
    ∃ (s' : Server) (wr : Writer) (values : List Value),
      (Server.new .ascii (str ":6379") (str "n1")).handleWire .ascii (fun _ => .success) wireSource
        ⟨[], none⟩ = some (s', wr, .eof) ∧
      requests wr.sink.written = (values, .eof) ∧
      List.Forall₂ PlainReply.Matches (PlainMap.replies ∅ (wireRequests.map KeyRequest.command))
        values := by
  refine ⟨by decide, ?_⟩
  refine plain_map_wire .ascii (fun _ => .success) (Server.new .ascii (str ":6379") (str "n1")) rfl
    (entries_new .ascii (str ":6379") (str "n1")).2 rfl rfl wireRequests ?_ (by decide) wireSource
    (by decide)
  simp only [wireRequests, List.forall_mem_cons, KeyRequest.Fits, FitsBulk]
  exact ⟨by decide, by decide, ⟨by decide, by decide, by decide, by simp⟩, by decide, by simp⟩

end Server

end Hapartition
