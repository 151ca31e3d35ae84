import Hapartition.Lib.Linearizable
import Hapartition.Lib.Transition
import Hapartition.Server.PlainWire

/-!
# Concurrent connections

Any number of connections of one server without gossip, in every interleaving: a request looks up
the owner of each of its keys, under the lock of the ring and one after the other, and then enters
the store, under its lock, once. The ring may change at any time (`NODE.JOIN` on another connection
does that), so that a request may be refused although it would have been served before, or the other
way round.

- `Conns.linearizable`: the requests that were served are linearizable to a plain map. There is one
  order of them that agrees with real time in which the replies are those of the map, and the
  requests that were refused have no part in it.
- `Conns.alone`: a request that nobody interferes with does what `dispatch` does.
-/

set_option autoImplicit false

namespace Hapartition

open Lib Std
open Server (movedTo)

/-! ## Requests in their steps -/

/-- The keys that a request looks up on the ring. -/
def KeyRequest.keys : KeyRequest → List Bytes
  | .set key _ => [key]
  | .get key => [key]
  | .del keys => keys

/-- What a request does when its keys are those of this node. -/
def KeyRequest.exec (O : Outcomes) (s : Server) : KeyRequest → Server × Value
  | .set key value => s.execSet O key value
  | .get key => s.execGet key
  | .del keys => s.execDel O keys

/-- `dispatch` looks up the keys and then enters the store. -/
theorem KeyRequest.dispatch_eq (R : Runtime) (O : Outcomes) (s : Server) {r : KeyRequest}
    (hr : r ≠ .del []) :
    s.dispatch R O r.command.1.name r.command.2 =
      match r.keys.findSome? (s.moved R) with
      | some addr => (s, movedTo addr)
      | none => r.exec O s := by
  cases r with
  | set key value =>
      rw [KeyRequest.keys, List.findSome?_singleton]
      exact Server.dispatch_set key value
  | get key =>
      rw [KeyRequest.keys, List.findSome?_singleton]
      exact Server.dispatch_get key
  | del keys =>
      have hlen : ¬ (keys.map newBulkString).length < 1 := by
        rw [List.length_map, Nat.lt_one_iff, List.length_eq_zero_iff]
        rintro rfl
        exact hr rfl
      rw [KeyRequest.command, Server.dispatch_name]
      show s.handleDel R O (keys.map newBulkString) = _
      rw [Server.handleDel, Server.delArguments, if_neg hlen, mapM_getBulkString, KeyRequest.keys]
      cases hmoved : keys.findSome? (s.moved R) with
      | none => simp only [hmoved, KeyRequest.exec]
      | some addr => simp only [hmoved]

/-- Where a request is: at the ring with the keys that are left, or with a reply to write. -/
inductive RequestPhase where
  | checking (keys : List Bytes)
  | served (reply : Value)
  | refused (reply : Value)

/-- A request in progress. -/
structure InFlight where
  req : KeyRequest
  invoked : Nat
  phase : RequestPhase

/-- The server with the requests in progress, by connection, and what has happened: the requests
that have entered the store, and those that were answered. A request has the time of its invocation
for a number. -/
structure Conns where
  server : Server
  now : Nat
  inFlight : ExtTreeMap Nat InFlight compare
  log : List (Applied KeyRequest Value)
  history : List (Returned KeyRequest Value)
  refused : List (Returned KeyRequest Value)

/-- What happens next. -/
inductive ConnAction where
  | invoke (conn : Nat) (r : KeyRequest)
  /-- `ring.GetNode` for the next key. -/
  | check (conn : Nat)
  /-- `SetFrom`, `Get` or `Del` of the store. -/
  | serve (conn : Nat) (O : Outcomes)
  | reply (conn : Nat)
  /-- Another goroutine changes the ring. -/
  | setRing (ring : Hashring)

namespace Conns

variable (R : Runtime)

/-- A server before its first request. -/
def start (s : Server) : Conns := ⟨s, 0, ∅, [], [], []⟩

/-- What a request that entered the store leaves behind. -/
def effect (f : InFlight) (reply : Value) : Applied KeyRequest Value :=
  ⟨f.invoked, f.req, reply, f.invoked⟩

/-- One step. -/
def step (s : Conns) : ConnAction → Option Conns
  | .invoke conn r =>
      -- a connection reads its next request after it has answered the last; a `DEL` without keys is
      -- answered with an error of its own and comes to neither the ring nor the store
      if s.inFlight[conn]?.isNone ∧ r ≠ .del [] then
        some
          { s with
            now := s.now + 1
            inFlight := s.inFlight.insert conn ⟨r, s.now, .checking r.keys⟩ }
      else none
  | .check conn =>
      match s.inFlight[conn]? with
      | some ⟨r, invoked, .checking (key :: keys)⟩ =>
          let phase := match s.server.moved R key with
            | some addr => .refused (movedTo addr)
            | none => .checking keys
          some
            { s with
              now := s.now + 1
              inFlight := s.inFlight.insert conn ⟨r, invoked, phase⟩ }
      | _ => none
  | .serve conn O =>
      match s.inFlight[conn]? with
      | some ⟨r, invoked, .checking []⟩ =>
          let x := r.exec O s.server
          some
            { s with
              server := x.1
              now := s.now + 1
              inFlight := s.inFlight.insert conn ⟨r, invoked, .served x.2⟩
              log := s.log ++ [⟨invoked, r, x.2, invoked⟩] }
      | _ => none
  | .reply conn =>
      match s.inFlight[conn]? with
      | some ⟨r, invoked, .served v⟩ =>
          some
            { s with
              now := s.now + 1
              inFlight := s.inFlight.erase conn
              history := s.history ++ [⟨⟨invoked, r, v, invoked⟩, s.now⟩] }
      | some ⟨r, invoked, .refused v⟩ =>
          some
            { s with
              now := s.now + 1
              inFlight := s.inFlight.erase conn
              refused := s.refused ++ [⟨⟨invoked, r, v, invoked⟩, s.now⟩] }
      | _ => none
  | .setRing ring =>
      some { s with now := s.now + 1, server := { s.server with ring := ring } }

/-- Runs of any interleaving. -/
abbrev Runs : Conns → List ConnAction → Conns → Prop := Run (step R) fun _ _ => True

end Conns

/-! ## The store against the map -/

variable {R : Runtime} {O : Outcomes}

/-- The store holds the map, whatever the ring says. -/
def StoreSim (R : Runtime) (s : Server) (m : PlainMap) (versions : Nat) : Prop :=
  ∃ ring, Server.Sim R { s with ring := ring } m versions

theorem storeSim_start {s : Server} (hgossip : s.gossip = none) (hstore : s.store = Store.new) :
    StoreSim R s ∅ 0 :=
  ⟨Hashring.new s.localID, Server.Sim.fresh hgossip (fun _ he => nomatch he) hstore⟩

theorem StoreSim.setRing {s : Server} {m : PlainMap} {versions : Nat} (h : StoreSim R s m versions)
    (ring : Hashring) : StoreSim R { s with ring := ring } m versions :=
  h

/-- The store does not look at the ring. -/
theorem KeyRequest.exec_ring (s : Server) (ring : Hashring) (r : KeyRequest) :
    r.exec O { s with ring := ring } = ({ (r.exec O s).1 with ring := ring }, (r.exec O s).2) := by
  cases r with
  | set key value =>
      simp only [KeyRequest.exec, Server.execSet, Server.nodeID, Server.quorumSize]
      split
      · rfl
      · split <;> rfl
  | get key =>
      simp only [KeyRequest.exec, Server.execGet]
      split <;> rfl
  | del keys =>
      simp only [KeyRequest.exec, Server.execDel, Server.nodeID, Server.quorumSize]
      split
      · rfl
      · split <;> rfl

/-- The step of a request is that of the map. -/
theorem StoreSim.exec {s : Server} {m : PlainMap} {versions : Nat} (h : StoreSim R s m versions)
    (O : Outcomes) (r : KeyRequest)
    (hw : ((versions + r.versions : Nat) : Int) < Int64.maxValue.toInt) :
    (r.apply m).2.Matches (r.exec O s).2 ∧
      StoreSim R (r.exec O s).1 (r.apply m).1 (versions + r.versions) := by
  obtain ⟨ring, h⟩ := h
  have hring := r.exec_ring (O := O) s ring
  cases r with
  | set key value =>
      obtain ⟨s', hexec, hsim⟩ := h.set (O := O) key value hw
      obtain ⟨rfl, hreply⟩ := Prod.mk.inj (hexec.symm.trans hring)
      exact ⟨hreply.symm, ring, hsim⟩
  | get key =>
      obtain ⟨hserver, hreply⟩ := Prod.mk.inj ((h.get key).symm.trans hring)
      exact ⟨hreply.symm, ring, hserver ▸ h⟩
  | del keys =>
      obtain ⟨s', i, hexec, hi, hsim⟩ := h.del (O := O) keys hw
      obtain ⟨rfl, hreply⟩ := Prod.mk.inj (hexec.symm.trans hring)
      exact ⟨⟨i, hreply.symm, hi⟩, ring, hsim⟩

namespace Conns

/-! ## The invariant -/

/-- The versions that the requests in the log allocate. -/
def versions (log : List (Applied KeyRequest Value)) : Nat :=
  (log.map fun e => e.op.versions).sum

/-- The map after the requests in the log. -/
def mapAfter (log : List (Applied KeyRequest Value)) : PlainMap :=
  replayState KeyRequest.apply ∅ (log.map Applied.op)

/-- What a request in progress says: it is in the log from the time on at which it was served. -/
structure FlightInv (s : Conns) (f : InFlight) : Prop where
  invoked_lt : f.invoked < s.now
  served : ∀ v, f.phase = .served v → effect f v ∈ s.log
  unserved : (∀ v, f.phase ≠ .served v) → f.invoked ∉ s.log.map Applied.id
  refused : ∀ v, f.phase = .refused v → ∃ addr, v = movedTo addr

/-- The invariant of all interleavings. -/
structure Inv (R : Runtime) (s : Conns) : Prop where
  sim : StoreSim R s.server (mapAfter s.log) (versions s.log)
  lin : Linearizes KeyRequest.apply PlainReply.Matches ∅ s.log s.history
  log : ∀ e ∈ s.log, e.id = e.invoked ∧ e.invoked < s.now
  flight : ∀ (conn : Nat) (f : InFlight), s.inFlight[conn]? = some f → FlightInv s f
  distinct : ∀ (c d : Nat) (f g : InFlight), s.inFlight[c]? = some f → s.inFlight[d]? = some g →
    f.invoked = g.invoked → c = d
  refused : ∀ c ∈ s.refused, c.id ∉ s.log.map Applied.id ∧ c.id < s.now ∧
    (∀ (conn : Nat) (f : InFlight), s.inFlight[conn]? = some f → f.invoked ≠ c.id) ∧
    ∃ addr, c.res = movedTo addr

variable {s t : Conns} {f g : InFlight} {conn : Nat}

/-- A step that does not touch the log. -/
theorem FlightInv.later (h : FlightInv s f) (hnow : s.now ≤ t.now) (hlog : t.log = s.log) :
    FlightInv t f where
  invoked_lt := h.invoked_lt.trans_le hnow
  served v hv := hlog ▸ h.served v hv
  unserved hv := hlog ▸ h.unserved hv
  refused := h.refused

theorem Inv.log_later (h : s.Inv R) : ∀ e ∈ s.log, e.id = e.invoked ∧ e.invoked < s.now + 1 :=
  fun e he => ⟨(h.log e he).1, (h.log e he).2.trans (Nat.lt_succ_self _)⟩

/-- The numbers in the log are times that have passed. -/
theorem Inv.now_not_mem (h : s.Inv R) : s.now ∉ s.log.map Applied.id := by
  intro hmem
  obtain ⟨e, he, hid⟩ := List.mem_map.1 hmem
  obtain ⟨hinvoked, hlt⟩ := h.log e he
  omega

/-- A request that moves on keeps its number. -/
theorem Inv.distinct_insert (h : s.Inv R) (hf : s.inFlight[conn]? = some f)
    (hg : g.invoked = f.invoked) :
    ∀ (c d : Nat) (f' g' : InFlight), (s.inFlight.insert conn g)[c]? = some f' →
      (s.inFlight.insert conn g)[d]? = some g' → f'.invoked = g'.invoked → c = d := by
  intro c d f' g' hf' hg' heq
  rcases Dict.getElem?_insert_eq_some hf' with ⟨rfl, rfl⟩ | hf'
  · rcases Dict.getElem?_insert_eq_some hg' with ⟨rfl, -⟩ | hg'
    · rfl
    · exact h.distinct conn d f g' hf hg' (hg.symm.trans heq)
  · rcases Dict.getElem?_insert_eq_some hg' with ⟨rfl, rfl⟩ | hg'
    · exact h.distinct c conn f' f hf' hf (heq.trans hg)
    · exact h.distinct c d f' g' hf' hg' heq

theorem Inv.refused_insert (h : s.Inv R) (hf : s.inFlight[conn]? = some f)
    (hg : g.invoked = f.invoked) {c : Returned KeyRequest Value} (hc : c ∈ s.refused) :
    ∀ (d : Nat) (f' : InFlight), (s.inFlight.insert conn g)[d]? = some f' → f'.invoked ≠ c.id :=
  Dict.forall_insert (hg ▸ (h.refused c hc).2.2.1 conn f hf)
    fun d f' _ hf' => (h.refused c hc).2.2.1 d f' hf'

theorem Inv.invoke (h : s.Inv R) (conn : Nat) (r : KeyRequest) :
    Inv R
      { s with
        now := s.now + 1
        inFlight := s.inFlight.insert conn ⟨r, s.now, .checking r.keys⟩ } := by
  refine ⟨h.sim, h.lin, h.log_later, ?_, ?_, ?_⟩
  · apply Dict.forall_insert
    · refine ⟨Nat.lt_succ_self _, ?_, fun _ => h.now_not_mem, ?_⟩
      · intro v hv
        cases hv
      · intro v hv
        cases hv
    · intro c f _ hf
      exact (h.flight c f hf).later (Nat.le_succ _) rfl
  · intro c d f g hf hg heq
    -- the new request has a number of its own
    rcases Dict.getElem?_insert_eq_some hf with ⟨rfl, rfl⟩ | hf
    · rcases Dict.getElem?_insert_eq_some hg with ⟨rfl, -⟩ | hg
      · rfl
      · exact absurd heq (h.flight d g hg).invoked_lt.ne'
    · rcases Dict.getElem?_insert_eq_some hg with ⟨rfl, rfl⟩ | hg
      · exact absurd heq (h.flight c f hf).invoked_lt.ne
      · exact h.distinct c d f g hf hg heq
  · intro c hc
    obtain ⟨hlog, hlt, hflight, haddr⟩ := h.refused c hc
    exact ⟨hlog, hlt.trans (Nat.lt_succ_self _),
      Dict.forall_insert hlt.ne' fun d f _ hf => hflight d f hf, haddr⟩

/-- A request moves on without entering the store. -/
theorem Inv.check (h : s.Inv R) (hf : s.inFlight[conn]? = some f) (hg : g.invoked = f.invoked)
    (hbefore : ∀ v, f.phase ≠ .served v) (hafter : ∀ v, g.phase ≠ .served v)
    (hrefused : ∀ v, g.phase = .refused v → ∃ addr, v = movedTo addr) :
    Inv R { s with now := s.now + 1, inFlight := s.inFlight.insert conn g } := by
  have hflight := h.flight conn f hf
  refine ⟨h.sim, h.lin, h.log_later, ?_, h.distinct_insert hf hg, ?_⟩
  · apply Dict.forall_insert
    · refine ⟨hg ▸ hflight.invoked_lt.trans (Nat.lt_succ_self _), ?_,
        fun _ => hg ▸ hflight.unserved hbefore, hrefused⟩
      intro v hv
      exact absurd hv (hafter v)
    · intro c f' _ hf'
      exact (h.flight c f' hf').later (Nat.le_succ _) rfl
  · intro c hc
    obtain ⟨hlog, hlt, -, haddr⟩ := h.refused c hc
    exact ⟨hlog, hlt.trans (Nat.lt_succ_self _), h.refused_insert hf hg hc, haddr⟩

/-- A request enters the store: this is the point at which it takes effect. -/
theorem Inv.serve (h : s.Inv R) {r : KeyRequest} {invoked : Nat}
    (hf : s.inFlight[conn]? = some ⟨r, invoked, .checking []⟩) (O : Outcomes)
    (hw : ((versions s.log + r.versions : Nat) : Int) < Int64.maxValue.toInt) :
    Inv R
      { s with
        server := (r.exec O s.server).1
        now := s.now + 1
        inFlight := s.inFlight.insert conn ⟨r, invoked, .served (r.exec O s.server).2⟩
        log := s.log ++ [⟨invoked, r, (r.exec O s.server).2, invoked⟩] } := by
  obtain ⟨hreply, hsim⟩ := h.sim.exec O r hw
  have hflight := h.flight conn _ hf
  have hfresh : invoked ∉ s.log.map Applied.id := hflight.unserved fun v hv => nomatch hv
  have hids : ∀ (e : Applied KeyRequest Value) (k : Nat), k ≠ e.id → k ∉ s.log.map Applied.id →
      k ∉ (s.log ++ [e]).map Applied.id := by
    intro e k hk hnot
    rw [List.map_append, List.mem_append, not_or]
    exact ⟨hnot, fun hmem => hk (List.mem_singleton.1 hmem)⟩
  refine ⟨?_, h.lin.point hfresh hreply, ?_, ?_, h.distinct_insert hf rfl, ?_⟩
  · rw [mapAfter, versions, List.map_append, List.map_append, List.sum_append, replayState,
      List.foldl_append]
    exact hsim
  · intro e he
    rcases List.mem_append.1 he with he | he
    · exact h.log_later e he
    · rw [List.mem_singleton.1 he]
      exact ⟨rfl, hflight.invoked_lt.trans (Nat.lt_succ_self _)⟩
  · apply Dict.forall_insert
    · refine ⟨hflight.invoked_lt.trans (Nat.lt_succ_self _), ?_, fun hv => absurd rfl (hv _), ?_⟩
      · intro v hv
        rw [← RequestPhase.served.inj hv]
        exact List.mem_append_right _ (List.mem_singleton_self _)
      · intro v hv
        cases hv
    · intro c f' hc hf'
      have hother := h.flight c f' hf'
      refine ⟨hother.invoked_lt.trans (Nat.lt_succ_self _),
        fun v hv => List.mem_append_left _ (hother.served v hv), fun hv => ?_, hother.refused⟩
      exact hids _ _ (fun heq => hc (h.distinct c conn f' _ hf' hf heq)) (hother.unserved hv)
  · intro c hc
    obtain ⟨hlog, hlt, hflights, haddr⟩ := h.refused c hc
    refine ⟨hids _ _ (hflights conn _ hf).symm hlog, hlt.trans (Nat.lt_succ_self _), ?_, haddr⟩
    exact h.refused_insert (g := ⟨r, invoked, .served (r.exec O s.server).2⟩) hf rfl hc

/-- What is left to say after an answer: about the other requests, and about those refused. -/
theorem Inv.answer (h : s.Inv R) {history refused : List (Returned KeyRequest Value)}
    (hlin : Linearizes KeyRequest.apply PlainReply.Matches ∅ s.log history)
    (hrefused : ∀ c ∈ refused, c ∈ s.refused ∨ c.id ∉ s.log.map Applied.id ∧ c.id < s.now ∧
      (∀ (d : Nat) (g : InFlight), d ≠ conn → s.inFlight[d]? = some g → g.invoked ≠ c.id) ∧
      ∃ addr, c.res = movedTo addr) :
    Inv R
      { s with
        now := s.now + 1
        inFlight := s.inFlight.erase conn
        history := history
        refused := refused } := by
  have hothers : ∀ {d : Nat} {g : InFlight}, (s.inFlight.erase conn)[d]? = some g →
      d ≠ conn ∧ s.inFlight[d]? = some g := by
    intro d g hg
    refine ⟨?_, Dict.getElem?_erase_eq_some hg⟩
    rintro rfl
    rw [Dict.getElem?_erase, if_pos rfl] at hg
    cases hg
  refine ⟨h.sim, hlin, h.log_later, ?_, ?_, ?_⟩
  · intro c f hf
    exact (h.flight c f (hothers hf).2).later (Nat.le_succ _) rfl
  · intro c d f g hf hg
    exact h.distinct c d f g (hothers hf).2 (hothers hg).2
  · intro c hc
    rcases hrefused c hc with hc | ⟨hlog, hlt, hflights, haddr⟩
    · obtain ⟨hlog, hlt, hflights, haddr⟩ := h.refused c hc
      exact ⟨hlog, hlt.trans (Nat.lt_succ_self _), fun d g hg => hflights d g (hothers hg).2, haddr⟩
    · exact ⟨hlog, hlt.trans (Nat.lt_succ_self _),
        fun d g hg => hflights d g (hothers hg).1 (hothers hg).2, haddr⟩

/-- The step lemma. -/
theorem inv_step {a : ConnAction} (hstep : s.step R a = some t)
    (hw : (versions t.log : Int) < Int64.maxValue.toInt) (h : s.Inv R) : t.Inv R := by
  cases a with
  | invoke conn r =>
      rw [step] at hstep
      split at hstep
      next => exact Option.some.inj hstep ▸ h.invoke conn r
      next => cases hstep
  | check conn =>
      rw [step] at hstep
      split at hstep
      next r invoked key keys hf =>
        refine Option.some.inj hstep ▸ h.check hf rfl (fun v hv => nomatch hv) ?_ ?_
        · intro v hv
          dsimp only at hv
          split at hv <;> cases hv
        · intro v hv
          dsimp only at hv
          split at hv
          next addr _ => exact ⟨addr, (RequestPhase.refused.inj hv).symm⟩
          next => cases hv
      next => cases hstep
  | serve conn O =>
      rw [step] at hstep
      split at hstep
      next r invoked hf =>
        rw [← Option.some.inj hstep] at hw ⊢
        refine h.serve hf O ?_
        rwa [versions, List.map_append, List.sum_append, List.map_singleton,
          List.sum_singleton] at hw
      next => cases hstep
  | reply conn =>
      rw [step] at hstep
      split at hstep
      next r invoked v hf =>
        have hmem := (h.flight conn _ hf).served v rfl
        exact Option.some.inj hstep ▸ h.answer
          (h.lin.complete hmem fun e he => (h.log e he).2.le) fun c hc => .inl hc
      next r invoked v hf =>
        have hflight := h.flight conn _ hf
        refine Option.some.inj hstep ▸ h.answer h.lin ?_
        intro c hc
        rcases List.mem_append.1 hc with hc | hc
        · exact .inl hc
        · rw [List.mem_singleton.1 hc]
          refine .inr ⟨hflight.unserved ?_, hflight.invoked_lt, ?_, hflight.refused _ rfl⟩
          · intro w hw
            cases hw
          · intro d g hd hg heq
            exact hd (h.distinct d conn g _ hg hf heq)
      next => cases hstep
  | setRing ring =>
      rw [← Option.some.inj hstep]
      exact ⟨h.sim.setRing ring, h.lin, h.log_later,
        fun c f hf => (h.flight c f hf).later (Nat.le_succ _) rfl, h.distinct,
        fun c hc => ⟨(h.refused c hc).1, (h.refused c hc).2.1.trans (Nat.lt_succ_self _),
          (h.refused c hc).2.2⟩⟩

/-- The log only grows. -/
theorem versions_le_of_step {a : ConnAction} (hstep : s.step R a = some t) :
    versions s.log ≤ versions t.log := by
  cases a with
  | invoke conn r =>
      rw [step] at hstep
      split at hstep
      next => exact Option.some.inj hstep ▸ Nat.le_refl _
      next => cases hstep
  | check conn =>
      rw [step] at hstep
      split at hstep
      next => exact Option.some.inj hstep ▸ Nat.le_refl _
      next => cases hstep
  | serve conn O =>
      rw [step] at hstep
      split at hstep
      next =>
        rw [← Option.some.inj hstep, versions, versions, List.map_append, List.sum_append]
        exact Nat.le_add_right _ _
      next => cases hstep
  | reply conn =>
      rw [step] at hstep
      split at hstep
      next => exact Option.some.inj hstep ▸ Nat.le_refl _
      next => exact Option.some.inj hstep ▸ Nat.le_refl _
      next => cases hstep
  | setRing ring => exact Option.some.inj hstep ▸ Nat.le_refl _

theorem inv_start {server : Server} (hgossip : server.gossip = none)
    (hstore : server.store = Store.new) : Inv R (start server) where
  sim := storeSim_start hgossip hstore
  lin := .nil
  log e he := nomatch he
  flight c f hf := by
    rw [start, ExtTreeMap.getElem?_empty] at hf
    cases hf
  distinct c d f g hf := by
    rw [start, ExtTreeMap.getElem?_empty] at hf
    cases hf
  refused c hc := nomatch hc

/-- The invariant, as long as there are versions left. -/
def InvWithin (R : Runtime) (s : Conns) : Prop :=
  (versions s.log : Int) < Int64.maxValue.toInt → s.Inv R

/-- The run lemma. The bound on the versions at the end is one at every time before. -/
theorem inv_run {server : Server} {as : List ConnAction} (hgossip : server.gossip = none)
    (hstore : server.store = Store.new) (h : Runs R (start server) as t) : t.InvWithin R := by
  have hstep : ∀ {u : Conns} {a : ConnAction} {v : Conns}, True → u.step R a = some v →
      u.InvWithin R → v.InvWithin R := by
    intro u a v _ hstep hu hv
    have hle : (versions u.log : Int) ≤ versions v.log := Int.ofNat_le.2 (versions_le_of_step hstep)
    exact inv_step hstep hv (hu (hle.trans_lt hv))
  exact h.invariant hstep fun _ => inv_start hgossip hstore

/-- **Concurrent connections are linearizable.** On a fresh server without gossip, whatever the
connections do at the same time and however the ring changes meanwhile, the requests that have
entered the store, in the order in which they did, explain all replies: run one after the other on a
plain map they have the replies that the clients got, and no request comes after one that was sent
when it had been answered already. The store holds this map. A request that was refused is not among
them and was redirected. -/
theorem linearizable {server : Server} {as : List ConnAction} (hgossip : server.gossip = none)
    (hstore : server.store = Store.new) (h : Runs R (start server) as t)
    (hw : (versions t.log : Int) < Int64.maxValue.toInt) :
    Linearizes KeyRequest.apply PlainReply.Matches ∅ t.log t.history ∧
      (∀ key, (t.server.store.get key).map Prod.fst = (mapAfter t.log)[key]?) ∧
      ∀ c ∈ t.refused, c.id ∉ t.log.map Applied.id ∧ ∃ addr, c.res = movedTo addr := by
  have hinv := inv_run hgossip hstore h hw
  obtain ⟨ring, hsim⟩ := hinv.sim
  refine ⟨hinv.lin, fun key => (hsim.view key).symm, ?_⟩
  intro c hc
  obtain ⟨hlog, -, -, haddr⟩ := hinv.refused c hc
  exact ⟨hlog, haddr⟩

/-- A server with nobody on its ring. -/
def ringless : Server :=
  { Server.new .ascii (str ":6379") (str "n1") with ring := Hashring.new (str "n1") }

/-- A `GET` that is sent before a `SET` is answered, and enters the store before it. -/
def overlapping : List ConnAction :=
  [.invoke 0 (.set (str "k") (str "v")), .check 0, .invoke 1 (.get (str "k")), .check 1,
    .serve 1 .success, .serve 0 .success, .reply 0, .reply 1]

theorem linearizable_overlapping :
    ∃ t, Runs .ascii (start ringless) overlapping t ∧ t.history.length = 2 ∧
      Linearizes KeyRequest.apply PlainReply.Matches ∅ t.log t.history := by
  have h : ∃ t, Runs .ascii (start ringless) overlapping t ∧ t.history.length = 2 ∧
      versions t.log = 1 :=
    ⟨_, .cons trivial rfl (.cons trivial rfl (.cons trivial rfl (.cons trivial rfl
      (.cons trivial rfl (.cons trivial rfl (.cons trivial rfl (.cons trivial rfl (.nil _)))))))),
      rfl, rfl⟩
  obtain ⟨t, hrun, hlen, hversions⟩ := h
  refine ⟨t, hrun, hlen, (linearizable rfl rfl hrun ?_).1⟩
  rw [hversions]
  decide

/-! ## A request on its own -/

section Equations

variable {r : KeyRequest} {invoked : Nat}

theorem step_check {key : Bytes} {keys : List Bytes}
    (hf : s.inFlight[conn]? = some ⟨r, invoked, .checking (key :: keys)⟩) :
    s.step R (.check conn) = some
      { s with
        now := s.now + 1
        inFlight := s.inFlight.insert conn ⟨r, invoked,
          match s.server.moved R key with
          | some addr => .refused (movedTo addr)
          | none => .checking keys⟩ } := by
  simp only [step, hf]

theorem step_serve (O : Outcomes) (hf : s.inFlight[conn]? = some ⟨r, invoked, .checking []⟩) :
    s.step R (.serve conn O) = some
      { s with
        server := (r.exec O s.server).1
        now := s.now + 1
        inFlight := s.inFlight.insert conn ⟨r, invoked, .served (r.exec O s.server).2⟩
        log := s.log ++ [⟨invoked, r, (r.exec O s.server).2, invoked⟩] } := by
  simp only [step, hf]

theorem step_reply_served {v : Value} (hf : s.inFlight[conn]? = some ⟨r, invoked, .served v⟩) :
    s.step R (.reply conn) = some
      { s with
        now := s.now + 1
        inFlight := s.inFlight.erase conn
        history := s.history ++ [⟨⟨invoked, r, v, invoked⟩, s.now⟩] } := by
  simp only [step, hf]

theorem step_reply_refused {v : Value} (hf : s.inFlight[conn]? = some ⟨r, invoked, .refused v⟩) :
    s.step R (.reply conn) = some
      { s with
        now := s.now + 1
        inFlight := s.inFlight.erase conn
        refused := s.refused ++ [⟨⟨invoked, r, v, invoked⟩, s.now⟩] } := by
  simp only [step, hf]

end Equations

theorem getElem?_insert_self {g : InFlight} (m : ExtTreeMap Nat InFlight compare) :
    (m.insert conn g)[conn]? = some g := by
  rw [Dict.getElem?_insert, if_pos rfl]

/-- The lookups of a request that nobody interferes with. -/
theorem exists_checks {r : KeyRequest} {invoked : Nat} (keys : List Bytes)
    (hf : s.inFlight[conn]? = some ⟨r, invoked, .checking keys⟩) :
    ∃ as u, Runs R s as u ∧ u.server = s.server ∧ u.history = s.history ∧ u.refused = s.refused ∧
      u.inFlight[conn]? = some ⟨r, invoked,
        match keys.findSome? (s.server.moved R) with
        | some addr => .refused (movedTo addr)
        | none => .checking []⟩ := by
  induction keys generalizing s with
  | nil => exact ⟨[], s, .nil s, rfl, rfl, rfl, hf⟩
  | cons key keys ih =>
      have hstep : ∃ u, s.step R (.check conn) = some u ∧ u.server = s.server ∧
          u.history = s.history ∧ u.refused = s.refused ∧
          u.inFlight[conn]? = some ⟨r, invoked,
            match s.server.moved R key with
            | some addr => .refused (movedTo addr)
            | none => .checking keys⟩ :=
        ⟨_, step_check hf, rfl, rfl, rfl, getElem?_insert_self _⟩
      obtain ⟨u, hu, hserver, hhistory, hrefused, hflight⟩ := hstep
      rw [List.findSome?_cons]
      cases hmoved : s.server.moved R key with
      | some addr =>
          rw [hmoved] at hflight
          exact ⟨_, u, .single trivial hu, hserver, hhistory, hrefused, hflight⟩
      | none =>
          rw [hmoved] at hflight
          obtain ⟨as, v, hrun, hserver', hhistory', hrefused', hflight'⟩ := ih hflight
          rw [hserver] at hflight'
          exact ⟨_, v, .cons trivial hu hrun, hserver'.trans hserver, hhistory'.trans hhistory,
            hrefused'.trans hrefused, hflight'⟩

/-- A request that nobody interferes with does what `dispatch` does, and has its reply. -/
theorem alone (O : Outcomes) {r : KeyRequest} (hr : r ≠ .del [])
    (hidle : s.inFlight[conn]? = none) :
    ∃ as u c, Runs R s as u ∧
      u.server = (s.server.dispatch R O r.command.1.name r.command.2).1 ∧ c.op = r ∧
      c.res = (s.server.dispatch R O r.command.1.name r.command.2).2 ∧
      (u.history = s.history ++ [c] ∨ u.refused = s.refused ++ [c]) := by
  rw [KeyRequest.dispatch_eq R O s.server hr]
  obtain ⟨s₁, hs₁⟩ : ∃ s₁ : Conns, s₁ =
      { s with
        now := s.now + 1
        inFlight := s.inFlight.insert conn ⟨r, s.now, .checking r.keys⟩ } := ⟨_, rfl⟩
  have hinvoke : s.step R (.invoke conn r) = some s₁ := by
    rw [step, hidle, hs₁]
    exact if_pos ⟨rfl, hr⟩
  have hflight₁ : s₁.inFlight[conn]? = some ⟨r, s.now, .checking r.keys⟩ := by
    rw [hs₁]
    exact getElem?_insert_self _
  have hserver₁ : s₁.server = s.server := by rw [hs₁]
  have hhistory₁ : s₁.history = s.history := by rw [hs₁]
  have hrefused₁ : s₁.refused = s.refused := by rw [hs₁]
  obtain ⟨as, u, hrun, hserver, hhistory, hrefused, hflight⟩ :=
    exists_checks (R := R) r.keys hflight₁
  rw [hserver₁] at hserver hflight
  rw [hhistory₁] at hhistory
  rw [hrefused₁] at hrefused
  cases hmoved : r.keys.findSome? (s.server.moved R) with
  | some addr =>
      rw [hmoved] at hflight
      have hreply : ∃ v, u.step R (.reply conn) = some v ∧ v.server = u.server ∧
          v.refused = u.refused ++ [⟨⟨s.now, r, movedTo addr, s.now⟩, u.now⟩] :=
        ⟨_, step_reply_refused hflight, rfl, rfl⟩
      obtain ⟨v, hv, hvserver, hvrefused⟩ := hreply
      exact ⟨_, v, _, .cons trivial hinvoke (hrun.append (.single trivial hv)),
        hvserver.trans hserver, rfl, rfl, .inr (hrefused ▸ hvrefused)⟩
  | none =>
      rw [hmoved] at hflight
      have hserve : ∃ w, u.step R (.serve conn O) = some w ∧ w.server = (r.exec O u.server).1 ∧
          w.history = u.history ∧
          w.inFlight[conn]? = some ⟨r, s.now, .served (r.exec O u.server).2⟩ :=
        ⟨_, step_serve O hflight, rfl, rfl, getElem?_insert_self _⟩
      obtain ⟨w, hw, hwserver, hwhistory, hwflight⟩ := hserve
      have hreply : ∃ v, w.step R (.reply conn) = some v ∧ v.server = w.server ∧
          v.history = w.history ++ [⟨⟨s.now, r, (r.exec O u.server).2, s.now⟩, w.now⟩] :=
        ⟨_, step_reply_served hwflight, rfl, rfl⟩
      obtain ⟨v, hv, hvserver, hvhistory⟩ := hreply
      rw [hserver] at hwserver hvhistory
      rw [hwhistory, hhistory] at hvhistory
      exact ⟨_, v, _, .cons trivial hinvoke (hrun.append (.cons trivial hw (.single trivial hv))),
        hvserver.trans hwserver, rfl, rfl, .inl hvhistory⟩

end Conns

end Hapartition
