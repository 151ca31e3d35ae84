import Hapartition.Server.ReadBack

/-!
# A single node is a plain map

A server without gossip that is alone on its ring, against a finite map from byte strings to byte
strings. The store behind it keeps tombstones and versions and decides by comparison what is
visible; as long as no version allocation wraps, none of it shows: `Sim` relates the two states, and
every reply is the one of the map (`plain_map`).
-/

set_option autoImplicit false

namespace Hapartition

open Lib
open Std (ExtTreeMap)

/-! ## The reference -/

/-- The commands on keys. -/
inductive KeyCommand where
  | set
  | get
  | del
  deriving DecidableEq, Repr

/-- The name of the command. -/
def KeyCommand.name : KeyCommand → Bytes
  | .set => str "SET"
  | .get => str "GET"
  | .del => str "DEL"

/-- A well-formed request. -/
inductive KeyRequest where
  | set (key value : Bytes)
  | get (key : Bytes)
  | del (keys : List Bytes)
  deriving DecidableEq, Repr

/-- The request that arguments stand for: the right number of them, all of them bulk strings that
are not null. -/
def KeyRequest.parse : KeyCommand → List Value → Option KeyRequest
  | .set, [.bulkString (some key), .bulkString (some value)] => some (.set key value)
  | .get, [.bulkString (some key)] => some (.get key)
  | .del, arg :: args => ((arg :: args).mapM Server.getBulkString).map .del
  | _, _ => none

/-- What a reference reply says. -/
inductive PlainReply where
  | ok
  | value (v : Option Bytes)
  | count (n : Nat)
  | error
  deriving DecidableEq, Repr

/-- A finite map from byte strings to byte strings. -/
abbrev PlainMap := ExtTreeMap Bytes Bytes compare

/-- A well-formed request on the map. -/
def KeyRequest.apply (m : PlainMap) : KeyRequest → PlainMap × PlainReply
  | .set key value => (m.insert key value, .ok)
  | .get key => (m, .value m[key]?)
  | .del keys =>
      (keys.foldl (fun m k => m.erase k) m,
        .count (keys.eraseDups.filter fun k => m.contains k).length)

/-- A request on the map; an ill-formed one is an error and changes nothing. -/
def PlainMap.step (m : PlainMap) (c : KeyCommand) (args : List Value) : PlainMap × PlainReply :=
  match KeyRequest.parse c args with
  | none => (m, .error)
  | some r => r.apply m

/-- The replies of the map to a sequence of requests. -/
def PlainMap.replies : PlainMap → List (KeyCommand × List Value) → List PlainReply
  | _, [] => []
  | m, (c, args) :: reqs => (m.step c args).2 :: PlainMap.replies (m.step c args).1 reqs

/-- A value on the wire is the reply that the reference gives. -/
def PlainReply.Matches : PlainReply → Value → Prop
  | .ok, v => v = .ok
  | .value o, v => v = .bulkString o
  | .count n, v => ∃ i : Int64, v = .integer i ∧ i.toInt = n
  | .error, v => ∃ text, v = .error text

/-- The versions that a request allocates. -/
def KeyRequest.versions : KeyRequest → Nat
  | .set _ _ => 1
  | .get _ => 0
  | .del keys => keys.eraseDups.length

/-- The versions that a sequence of requests allocates. -/
def versionsOf (reqs : List (KeyCommand × List Value)) : Nat :=
  (reqs.map fun r => ((KeyRequest.parse r.1 r.2).map KeyRequest.versions).getD 0).sum

namespace Server

variable {R : Runtime} {O : Outcomes} {s : Server} {m : PlainMap} {c : KeyCommand}
  {args : List Value}

/-- The replies of a server to a sequence of requests. -/
def replies (R : Runtime) : Server → List (Outcomes × KeyCommand × List Value) → List Value
  | _, [] => []
  | s, (O, c, args) :: reqs =>
      (s.dispatch R O c.name args).2 :: replies R (s.dispatch R O c.name args).1 reqs

/-! ## Well-formed and ill-formed requests -/

theorem getBulkString_eq_some {v : Value} {data : Bytes} (h : getBulkString v = some data) :
    v = .bulkString (some data) := by
  unfold getBulkString at h
  split at h
  · rw [Option.some.inj h]
  · cases h

theorem dispatch_name (c : KeyCommand) : s.dispatch R O c.name args =
    match c with
    | .set => s.handleKeyCommand R (str "SET") 2 args (s.execSet O)
    | .get => s.handleKeyCommand R (str "GET") 1 args fun key _ => s.execGet key
    | .del => s.handleDel R O args := by
  cases c <;> rfl

/-- The three kinds of well-formed requests. -/
theorem parse_cases {r : KeyRequest} (h : KeyRequest.parse c args = some r) :
    (∃ key value, c = .set ∧ args = setArgs key value ∧ r = .set key value) ∨
      (∃ key, c = .get ∧ args = getArgs key ∧ r = .get key) ∨
      ∃ keys, c = .del ∧ args ≠ [] ∧ args.mapM getBulkString = some keys ∧ r = .del keys := by
  unfold KeyRequest.parse at h
  split at h
  · exact .inl ⟨_, _, rfl, rfl, (Option.some.inj h).symm⟩
  · exact .inr (.inl ⟨_, rfl, rfl, (Option.some.inj h).symm⟩)
  · obtain ⟨keys, hkeys, hr⟩ := Option.map_eq_some_iff.1 h
    exact .inr (.inr ⟨keys, rfl, List.cons_ne_nil _ _, hkeys, hr.symm⟩)
  · cases h

theorem args_of_two {key value : Bytes} (hlen : args.length = 2)
    (hkey : args.head?.bind getBulkString = some key)
    (hvalue : args[1]?.bind getBulkString = some value) : args = setArgs key value := by
  obtain ⟨a, b, rfl⟩ := List.length_eq_two.1 hlen
  rw [List.head?_cons, Option.bind_some] at hkey
  rw [List.getElem?_cons_succ, List.getElem?_cons_zero, Option.bind_some] at hvalue
  rw [getBulkString_eq_some hkey, getBulkString_eq_some hvalue]
  rfl

theorem args_of_one {key : Bytes} (hlen : args.length = 1)
    (hkey : args.head?.bind getBulkString = some key) : args = getArgs key := by
  obtain ⟨a, rfl⟩ := List.length_eq_one_iff.1 hlen
  rw [List.head?_cons, Option.bind_some] at hkey
  rw [getBulkString_eq_some hkey]
  rfl

/-- A request that is ill-formed gets an error and changes nothing, on any server. -/
theorem dispatch_of_parse_eq_none (h : KeyRequest.parse c args = none) :
    ∃ text, s.dispatch R O c.name args = (s, .error text) := by
  rw [dispatch_name]
  cases c with
  | set =>
      rcases keyArguments_cases (s := s) (R := R) (str "SET") 2 args with
        ⟨text, htext⟩ | ⟨key, value, -, hlen, hkey, -, hvalue⟩
      · refine ⟨text, ?_⟩
        simp only [handleKeyCommand, htext]
      · rw [args_of_two hlen hkey hvalue] at h
        cases h
  | get =>
      rcases keyArguments_cases (s := s) (R := R) (str "GET") 1 args with
        ⟨text, htext⟩ | ⟨key, value, -, hlen, hkey, -, -⟩
      · refine ⟨text, ?_⟩
        simp only [handleKeyCommand, htext]
      · rw [args_of_one hlen hkey] at h
        cases h
  | del =>
      cases args with
      | nil => exact ⟨_, rfl⟩
      | cons arg args =>
          have hnone : (arg :: args).mapM getBulkString = none := Option.map_eq_none_iff.1 h
          refine ⟨str "ERR invalid key", ?_⟩
          simp [handleDel, delArguments, hnone]

/-! ## The simulation -/

/-- The server is alone, its live entries are those of the map, and its clock counts the versions
allocated so far. -/
structure Sim (R : Runtime) (s : Server) (m : PlainMap) (versions : Nat) : Prop where
  gossip : s.gossip = none
  moved : ∀ key, s.moved R key = none
  view : ∀ key : Bytes, m[key]? = (s.store.get key).map Prod.fst
  clockOk : s.store.ClockOk
  clock : s.store.clock.toInt = versions

/-- A change of the store that the map follows. -/
theorem Sim.of_store {versions versions' : Nat} {store : Store} {m' : PlainMap}
    (h : Sim R s m versions) (hview : ∀ key : Bytes, m'[key]? = (store.get key).map Prod.fst)
    (hok : store.ClockOk) (hclock : store.clock.toInt = versions') :
    Sim R { s with store := store } m' versions' :=
  ⟨h.gossip, h.moved, hview, hok, hclock⟩

theorem Sim.set {versions : Nat} (h : Sim R s m versions) (key value : Bytes)
    (hw : ((versions + 1 : Nat) : Int) < Int64.maxValue.toInt) :
    ∃ s', s.execSet O key value = (s', .ok) ∧ Sim R s' (m.insert key value) (versions + 1) := by
  have hclock := h.clock
  have hroom : s.store.clock.toInt + 1 ≤ Int64.maxValue.toInt := by omega
  refine ⟨{ s with store := (s.store.setFrom key value s.nodeID).1 }, ?_, ?_⟩
  · unfold execSet
    rw [h.gossip]
  · refine h.of_store ?_ ((Store.absorbs_setFrom key value s.nodeID hroom).clockOk h.clockOk) ?_
    · intro a
      rw [Dict.getElem?_insert, Store.get_setFrom h.clockOk key value s.nodeID hroom, h.view]
      split <;> rfl
    · rw [Store.setFrom_clock, toInt_add_one hroom, hclock]
      rfl

theorem Sim.get {versions : Nat} (h : Sim R s m versions) (key : Bytes) :
    s.execGet key = (s, .bulkString m[key]?) := by
  rw [execGet_eq, h.view]

/-- The distinct keys that are live are those that the map has. -/
theorem Sim.count {versions : Nat} (h : Sim R s m versions) (keys : List Bytes) :
    (s.store.del s.nodeID keys).2.1 =
      ((keys.eraseDups.filter fun k => m.contains k).length : Nat) := by
  have hlive : ∀ k, s.store.live k = m.contains k := by
    intro k
    rw [Store.live_eq_isSome_get, ← ExtTreeMap.isSome_getElem?_eq_contains, h.view,
      Option.isSome_map]
  rw [Store.count_del, funext hlive]

theorem Sim.del {versions : Nat} (h : Sim R s m versions) (keys : List Bytes)
    (hw : ((versions + keys.eraseDups.length : Nat) : Int) < Int64.maxValue.toInt) :
    ∃ s' i, s.execDel O keys = (s', .integer i) ∧
      i.toInt = (keys.eraseDups.filter fun k => m.contains k).length ∧
      Sim R s' (keys.foldl (fun m k => m.erase k) m) (versions + keys.eraseDups.length) := by
  have hclock := h.clock
  have hroom : s.store.clock.toInt + keys.eraseDups.length ≤ Int64.maxValue.toInt := by omega
  obtain ⟨es, hdel⟩ := Store.absorbsAll_del h.clockOk s.nodeID keys hroom
  refine ⟨{ s with store := (s.store.del s.nodeID keys).1 },
    Int64.ofInt (s.store.del s.nodeID keys).2.1, ?_, ?_, ?_⟩
  · unfold execDel
    rw [h.gossip]
  · -- the count is at most the number of keys, so it is printed as it is
    have hle := List.length_filter_le (fun k => m.contains k) keys.eraseDups
    have hmax : Int64.maxValue.toInt = 9223372036854775807 := by decide
    rw [h.count, Int64.toInt_ofInt_of_le (by omega) (by omega)]
  · refine h.of_store ?_ (hdel.absorbs.clockOk h.clockOk) ?_
    · intro a
      rw [Dict.getElem?_foldl_erase, Store.get_del, h.view]
      split <;> rfl
    · rw [Store.clock_del s.nodeID hroom, hclock]
      push_cast
      rfl

theorem versionsOf_single {r : KeyRequest} (hr : KeyRequest.parse c args = some r) :
    versionsOf [(c, args)] = r.versions := by
  simp [versionsOf, hr]

/-- The step lemma. -/
theorem Sim.step {versions : Nat} (h : Sim R s m versions) (O : Outcomes) (c : KeyCommand)
    (args : List Value)
    (hw : ((versions + versionsOf [(c, args)] : Nat) : Int) < Int64.maxValue.toInt) :
    (m.step c args).2.Matches (s.dispatch R O c.name args).2 ∧
      Sim R (s.dispatch R O c.name args).1 (m.step c args).1
        (versions + versionsOf [(c, args)]) := by
  unfold PlainMap.step
  cases hr : KeyRequest.parse c args with
  | none =>
      obtain ⟨text, htext⟩ := dispatch_of_parse_eq_none (s := s) (R := R) (O := O) hr
      have hzero : versionsOf [(c, args)] = 0 := by
        simp [versionsOf, hr]
      rw [htext, hzero]
      exact ⟨⟨text, rfl⟩, h⟩
  | some r =>
      rw [versionsOf_single hr] at hw ⊢
      rcases parse_cases hr with ⟨key, value, rfl, rfl, rfl⟩ | ⟨key, rfl, rfl, rfl⟩ |
        ⟨keys, rfl, hne, hkeys, rfl⟩
      · obtain ⟨s', hexec, hsim⟩ := h.set (O := O) key value hw
        rw [KeyCommand.name, dispatch_set, h.moved]
        simp only [hexec]
        exact ⟨rfl, hsim⟩
      · rw [KeyCommand.name, dispatch_get, h.moved]
        simp only [h.get]
        exact ⟨rfl, h⟩
      · obtain ⟨s', i, hexec, hi, hsim⟩ := h.del (O := O) keys hw
        rw [dispatch_name]
        simp only [handleDel, delArguments_of_mapM h.moved hne hkeys, hexec]
        exact ⟨⟨i, rfl, hi⟩, hsim⟩

/-- The run lemma. -/
theorem Sim.replies {versions : Nat} (h : Sim R s m versions)
    (reqs : List (Outcomes × KeyCommand × List Value))
    (hw : ((versions + versionsOf (reqs.map Prod.snd) : Nat) : Int) < Int64.maxValue.toInt) :
    List.Forall₂ PlainReply.Matches (m.replies (reqs.map Prod.snd)) (replies R s reqs) := by
  induction reqs generalizing s m versions with
  | nil => exact .nil
  | cons req reqs ih =>
      obtain ⟨O, c, args⟩ := req
      have hsum : versionsOf (((O, c, args) :: reqs).map Prod.snd) =
          versionsOf [(c, args)] + versionsOf (reqs.map Prod.snd) := by
        simp [versionsOf]
      rw [hsum] at hw
      obtain ⟨hmatch, hsim⟩ := h.step O c args (by omega)
      exact .cons hmatch (ih hsim (by omega))

/-- A fresh server that is alone on its ring starts as the empty map. -/
theorem Sim.fresh (hgossip : s.gossip = none)
    (hring : ∀ e ∈ s.ring.entries, e.nodeID = s.localID) (hstore : s.store = Store.new) :
    Sim R s ∅ 0 where
  gossip := hgossip
  moved := by
    apply moved_of_forall
    rwa [nodeID, hgossip]
  view := by simp [hstore, Store.get, Store.new]
  clockOk := hstore ▸ Store.clockOk_new
  clock := by
    rw [hstore]
    rfl

/-- The replies of a fresh server without gossip that is alone on its ring are those of a plain map,
for every sequence of requests that allocates fewer than `2 ^ 63 - 1` versions. An ill-formed
request gets an error and changes nothing, on this and on any other server. -/
theorem plain_map (R : Runtime) (s : Server) (hgossip : s.gossip = none)
    (hring : ∀ e ∈ s.ring.entries, e.nodeID = s.localID) (hstore : s.store = Store.new)
    (reqs : List (Outcomes × KeyCommand × List Value))
    (hversions : (versionsOf (reqs.map Prod.snd) : Int) < Int64.maxValue.toInt) :
    List.Forall₂ PlainReply.Matches (PlainMap.replies ∅ (reqs.map Prod.snd)) (replies R s reqs) ∧
      ∀ (s' : Server) (O : Outcomes) (c : KeyCommand) (args : List Value),
        KeyRequest.parse c args = none →
          ∃ text, s'.dispatch R O c.name args = (s', .error text) := by
  have hstart : Sim R s ∅ 0 := Sim.fresh hgossip hring hstore
  refine ⟨hstart.replies reqs ?_, fun s' O c args h => dispatch_of_parse_eq_none h⟩
  rwa [Nat.zero_add]

/-- Deleting a key twice, and setting it again. -/
def sampleRequests : List (Outcomes × KeyCommand × List Value) :=
  [(.success, .set, setArgs (str "k") (str "v")),
    (.success, .del, [newBulkString (str "k"), newBulkString (str "k")]),
    (.success, .get, getArgs (str "k")),
    (.success, .set, [nullBulkString, .integer 3]),
    (.success, .set, setArgs (str "k") (str "w")),
    (.success, .get, getArgs (str "k"))]

theorem plain_map_sample :
    PlainMap.replies ∅ (sampleRequests.map Prod.snd) =
      [.ok, .count 1, .value none, .error, .ok, .value (some (str "w"))] ∧
    List.Forall₂ PlainReply.Matches (PlainMap.replies ∅ (sampleRequests.map Prod.snd))
      (replies .ascii (Server.new .ascii (str ":6379") (str "n1")) sampleRequests) := by
  refine ⟨by decide, ?_⟩
  exact (plain_map .ascii (Server.new .ascii (str ":6379") (str "n1")) rfl
    (entries_new .ascii (str ":6379") (str "n1")).2 rfl sampleRequests (by decide)).1

end Server

end Hapartition
