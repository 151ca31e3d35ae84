import Hapartition.Cluster.Acks
import Hapartition.Gossip.Proto

/-!
# The result of a call against the responses

Which responses make a call of `ReplicateWithQuorum` return nil (`acks_counted_iff`). The account of
the call bounds the result from the responses; the runs of this module show the bounds to be sharp.
The interleaving that decides is the one in which all responses come before the call reads its
channel: then only the first of them, as many as there are remote replicas, have a place in it. A
duplicate among these crowds out the acknowledgement of another node
(`acknowledgement_crowded_out`).
-/

set_option autoImplicit false

namespace Hapartition

open Lib

/-! ## Runs of the call

A call is never stuck: the sends go on to their end, and the collecting loop goes on until it has
its quorum or the deadline comes. -/

section Progress

variable (H : Hashing) (C : Pb.Codec) (requestID : Bytes) (drained : Prop) {n : Node} {c : Command}
  {o : OpenCall}

theorem exists_sends_run (oks : List Bool) (hphase : c.phase = .sending o)
    (hlen : oks.length = o.todo.length) :
    ∃ o', CallRuns H C requestID drained ⟨n, c, none⟩ (oks.map fun ok => .move (.send ok))
        ⟨n, { c with phase := .sending o' }, none⟩ ∧ o'.todo = [] := by
  induction oks generalizing c o with
  | nil =>
      refine ⟨o, ?_, List.length_eq_zero_iff.1 hlen.symm⟩
      rw [← hphase]
      exact .nil _
  | cons ok oks ih =>
      obtain ⟨r, todo, htodo⟩ :=
        List.exists_cons_of_length_eq_add_one (hlen.symm.trans List.length_cons)
      obtain ⟨o', hrun, hdone⟩ := ih (c := { c with phase := .sending (o.sentTo r todo ok) }) rfl
        (by rw [OpenCall.todo_sentTo]; simpa [htodo] using hlen)
      refine ⟨o', .cons trivial ?_ hrun, hdone⟩
      simp only [CallState.step, hphase, callStep, htodo]
      rfl

theorem sendsDone_run (hphase : c.phase = .sending o) (htodo : o.todo = [])
    (hmany : c.w ≤ o.sent + 1) :
    CallRuns H C requestID drained ⟨n, c, none⟩ [.move .sendsDone]
      ⟨n, { c with phase := .collecting o }, none⟩ := by
  apply Run.single trivial
  simp only [CallState.step, hphase, callStep, htodo, if_neg (not_lt.2 hmany)]
  rfl

/-- Too few sends end the call. -/
theorem unreachable_run (hphase : c.phase = .sending o) (htodo : o.todo = [])
    (hfew : (o.sent + 1 : Int) < c.w) :
    CallRuns H C requestID drained ⟨n, c, none⟩ [.move .sendsDone]
      ⟨n.closeRequest o.requestID,
        c.fail (.unreachable (Int64.ofNat (o.sent + 1)) (Int64.ofInt c.w)),
        some (some (.unreachable (Int64.ofNat (o.sent + 1)) (Int64.ofInt c.w)))⟩ := by
  apply Run.single trivial
  simp only [CallState.step, hphase, callStep, htodo, if_pos hfew]
  rfl

theorem exists_deliver_run (resps : List Pb.ReplicateResponse)
    (hids : ∀ r ∈ resps, r.requestId = requestID) :
    ∃ n', CallRuns H C requestID drained ⟨n, c, none⟩ (resps.map .deliver) ⟨n', c, none⟩ := by
  induction resps generalizing n with
  | nil => exact ⟨n, .nil _⟩
  | cons r resps ih =>
      obtain ⟨n', hrun⟩ := ih fun r' hr' => hids r' (List.mem_cons_of_mem r hr')
      exact ⟨n', .cons ⟨hids r List.mem_cons_self, by simp⟩ rfl hrun⟩

/-- The collecting loop reads until the channel is empty or the quorum is complete. -/
theorem exists_receive_run {nodes : List Bytes} {received : List Pb.ReplicateResponse} {cap : Nat}
    (buf : List Pb.ReplicateResponse) (hphase : c.phase = .collecting o)
    (hcounted : Counted nodes received o)
    (hch : n.gossip.pendingReqs[o.requestID]? = some ⟨cap, buf.map .of⟩) :
    ∃ k n' o' taken rest, CallRuns H C requestID drained ⟨n, c, none⟩
        (List.replicate k (.move .receive)) ⟨n', { c with phase := .collecting o' }, none⟩ ∧
      buf = taken ++ rest ∧ o'.requestID = o.requestID ∧ Counted nodes (received ++ taken) o' ∧
      n'.gossip.pendingReqs[o.requestID]? = some ⟨cap, rest.map .of⟩ ∧
      (rest = [] ∨ c.w ≤ o'.acks) := by
  induction buf generalizing n c o received with
  | nil =>
      refine ⟨0, n, o, [], [], ?_, rfl, rfl, by rwa [List.append_nil], hch, .inl rfl⟩
      rw [← hphase]
      exact .nil _
  | cons resp buf ih =>
      rcases lt_or_ge (o.acks : Int) c.w with hfew | hmany
      · have hid : (o.count (.of resp)).requestID = o.requestID := OpenCall.requestID_count
        obtain ⟨k, n', o', taken, rest, hrun, hbuf, hid', hcounted', hch', hend⟩ :=
          ih (n := n.setChan o.requestID ⟨cap, buf.map .of⟩)
            (c := { c with phase := .collecting (o.count (.of resp)) }) rfl (hcounted.count resp)
            (by rw [hid]; exact Std.ExtTreeMap.getElem?_insert_self)
        refine ⟨k + 1, n', o', resp :: taken, rest, .cons trivial ?_ hrun, by rw [hbuf]; rfl,
          hid'.trans hid, ?_, hid ▸ hch', hend⟩
        · simp only [CallState.step, hphase, callStep, if_pos hfew, hch, List.map_cons]
          rfl
        · rwa [List.append_assoc, List.singleton_append] at hcounted'
      · refine ⟨0, n, o, [], resp :: buf, ?_, rfl, rfl, by rwa [List.append_nil], hch, .inr hmany⟩
        rw [← hphase]
        exact .nil _

/-- The deadline ends the collecting loop. -/
theorem timeout_run (hphase : c.phase = .collecting o) (hfew : (o.acks : Int) < c.w)
    (hempty : drained → ∃ cap, n.gossip.pendingReqs[requestID]? = some ⟨cap, []⟩) :
    CallRuns H C requestID drained ⟨n, c, none⟩ [.move .timeout]
      ⟨n.closeRequest o.requestID, c.fail (.timeout (Int64.ofNat o.acks) (Int64.ofInt c.w)),
        some (some (.timeout (Int64.ofNat o.acks) (Int64.ofInt c.w)))⟩ := by
  apply Run.single hempty
  simp only [CallState.step, hphase, callStep, if_pos hfew]
  rfl

/-- So does a complete quorum. -/
theorem finish_run (hphase : c.phase = .collecting o) (hmany : c.w ≤ o.acks) :
    CallRuns H C requestID drained ⟨n, c, none⟩ [.move .finish]
      ⟨n.closeRequest o.requestID, c.next, some none⟩ := by
  apply Run.single trivial
  simp only [CallState.step, hphase, callStep, if_neg (not_lt.2 hmany)]
  rfl

/-- The collecting loop returns, with nil only for a quorum among what it had and what waits. -/
theorem exists_return_run {nodes : List Bytes} {received buf : List Pb.ReplicateResponse}
    {cap : Nat} (hphase : c.phase = .collecting o) (hid : o.requestID = requestID)
    (hcounted : Counted nodes received o)
    (hch : n.gossip.pendingReqs[requestID]? = some ⟨cap, buf.map .of⟩) :
    ∃ evs t err, CallRuns H C requestID drained ⟨n, c, none⟩ evs t ∧ sends evs = [] ∧
      responses evs = [] ∧ t.result = some err ∧
      (err = none → c.w ≤ (acknowledging nodes (received ++ buf)).card + 1) := by
  subst hid
  obtain ⟨k, n', o', taken, rest, hrun, hbuf, -, hcounted', hch', hend⟩ :=
    exists_receive_run H C o.requestID drained buf hphase hcounted hch
  have hsends : sends (List.replicate k (.move .receive)) = [] := by simp [sends]
  have hresponses : responses (List.replicate k (.move .receive)) = [] := by simp [responses]
  rcases lt_or_ge (o'.acks : Int) c.w with hfew | hmany
  · obtain rfl : rest = [] := hend.resolve_right (not_le.2 hfew)
    have htimeout := timeout_run H C o.requestID drained
      (c := { c with phase := .collecting o' }) rfl hfew fun _ => ⟨cap, hch'⟩
    refine ⟨_, _, _, hrun.append htimeout, ?_, ?_, rfl, by simp⟩
    · rw [sends_append, hsends]
      rfl
    · rw [responses_append, hresponses]
      rfl
  · have hfinish := finish_run H C o.requestID drained (n := n')
      (c := { c with phase := .collecting o' }) rfl hmany
    refine ⟨_, _, _, hrun.append hfinish, ?_, ?_, rfl, ?_⟩
    · rw [sends_append, hsends]
      rfl
    · rw [responses_append, hresponses]
      rfl
    · intro _
      rw [hcounted'.acks_eq] at hmany
      have htaken : received ++ taken ⊆ received ++ buf := by
        rw [hbuf, ← List.append_assoc]
        exact List.subset_append_left _ _
      have hle := acknowledging_mono nodes htaken
      omega

/-- All responses may come before the first receive. -/
theorem exists_unread_run {w : Int} {remote : List Replica} {oks : List Bool}
    {resps : List Pb.ReplicateResponse}
    (haccount : Account w requestID remote drained [] [] ⟨n, c, none⟩)
    (hphase : c.phase = .sending o) (hoks : oks.length = o.todo.length)
    (hpast : w ≤ oks.count true + 1) (hids : ∀ r ∈ resps, r.requestId = requestID) :
    ∃ evs n' o', CallRuns H C requestID drained ⟨n, c, none⟩ evs
        ⟨n', { c with phase := .collecting o' }, none⟩ ∧ sends evs = oks ∧ responses evs = resps ∧
      c.w = w ∧ o'.requestID = requestID ∧ Counted (reached remote oks) [] o' ∧
      n'.gossip.pendingReqs[requestID]? =
        some ⟨remote.length, (resps.take remote.length).map .of⟩ := by
  obtain ⟨o', hsent, htodo⟩ :=
    exists_sends_run H C requestID drained (n := n) oks hphase hoks
  obtain ⟨n', hdelivered⟩ := exists_deliver_run H C requestID drained (n := n)
    (c := { c with phase := .sending o' }) resps hids
  have hrun := hsent.append hdelivered
  have hsends : sends (oks.map (fun ok => .move (.send ok)) ++ resps.map .deliver) = oks := by
    simp [sends, List.filterMap_append, List.filterMap_map]
  have hresponses : responses (oks.map (fun ok => .move (.send ok)) ++ resps.map .deliver) =
      resps := by
    simp [responses, List.filterMap_append, List.filterMap_map]
  have haccount' := haccount.run hrun
  rw [hsends, hresponses] at haccount'
  obtain ⟨hw, hid, hcount, hcounted, hch⟩ := haccount'.of_sending rfl htodo
  have hmany : c.w ≤ o'.sent + 1 := by
    rw [hcount]
    exact hw.le.trans hpast
  have hdone := sendsDone_run H C requestID drained (n := n')
    (c := { c with phase := .sending o' }) rfl htodo hmany
  refine ⟨_, n', o', hrun.append hdone, ?_, ?_, hw, hid, hcounted, hch⟩
  · rw [sends_append, hsends]
    exact List.append_nil oks
  · rw [responses_append, hresponses]
    exact List.append_nil resps

/-- Whatever has happened so far, the call can go on to its return. -/
theorem Account.exists_return {w : Int} {remote : List Replica} {oks : List Bool}
    {resps : List Pb.ReplicateResponse} {s : CallState}
    (h : Account w requestID remote drained oks resps s) (hs : s.result = none) :
    ∃ evs t err, CallRuns H C requestID drained s evs t ∧ responses evs = [] ∧
      t.result = some err := by
  cases h with
  | @sending buf n c o done hphase hw hid hremote hlen hsent hcounted hch hkept =>
      obtain ⟨o', hrun, htodo⟩ := exists_sends_run H C requestID drained (n := n)
        (List.replicate o.todo.length true) hphase List.length_replicate
      have hresponses : responses
          ((List.replicate o.todo.length true).map fun ok => .move (.send ok)) = [] := by
        simp [responses]
      have haccount : Account w requestID remote drained oks resps ⟨n, c, none⟩ :=
        .sending hphase hw hid hremote hlen hsent hcounted hch hkept
      obtain ⟨hw', hid', -, hcounted', hch'⟩ := (haccount.run hrun).of_sending rfl htodo
      rcases lt_or_ge (o'.sent + 1 : Int) c.w with hfew | hmany
      · have hend := unreachable_run H C requestID drained (n := n)
          (c := { c with phase := .sending o' }) rfl htodo hfew
        refine ⟨_, _, _, hrun.append hend, ?_, rfl⟩
        rw [responses_append, hresponses]
        rfl
      · obtain ⟨evs, t, err, hend, -, hnone, hresult, -⟩ := exists_return_run H C requestID drained
          (c := { c with phase := .collecting o' }) rfl hid' hcounted' hch'
        have hdone := sendsDone_run H C requestID drained (n := n)
          (c := { c with phase := .sending o' }) rfl htodo hmany
        refine ⟨_, t, err, (hrun.append hdone).append hend, ?_, hresult⟩
        rw [responses_append, responses_append, hresponses, hnone]
        rfl
  | collecting hphase hw hid hcounted hch hkept =>
      obtain ⟨evs, t, err, hrun, -, hresponses, hresult, -⟩ :=
        exists_return_run H C requestID drained hphase hid hcounted hch
      exact ⟨evs, t, err, hrun, hresponses, hresult⟩
  | unreachable hfew => cases hs
  | timedOut hkept hdrained hfew => cases hs
  | acknowledged hreceived hmany => cases hs

end Progress

/-! ## Results against responses -/

/-- In every interleaving of these sends and responses, the call returns nil with `w - 1`
acknowledging nodes and not without. -/
def CountsExactly (H : Hashing) (C : Pb.Codec) (requestID : Bytes) (drained : Prop) (s : CallState)
    (w : Int) (remote : List Replica) (oks : List Bool) (resps : List Pb.ReplicateResponse) :
    Prop :=
  ∀ evs t err, CallRuns H C requestID drained s evs t → sends evs = oks → responses evs = resps →
    t.result = some err → (err = none ↔ w - 1 ≤ (acknowledging (reached remote oks) resps).card)

section Results

variable {H : Hashing} {C : Pb.Codec} {n : Node} {c : Command} {used : List Bytes}
  {requestID : Bytes} {e : Effect} {o : OpenCall} {oks : List Bool}
  {resps : List Pb.ReplicateResponse} {drained : Prop}

/-- A call that has opened its channel is about to send to the remote replicas. -/
theorem callStep_lookup (hopen : callStep H C n c used .lookup (.lookup requestID) = some e)
    (hphase : e.command.phase = .sending o) :
    e.node = n.setChan requestID ⟨(n.remoteNodes H c.key).length, []⟩ ∧ e.command.w = c.w ∧
      ∃ buf, o = ⟨requestID, n.ring, buf, n.remoteNodes H c.key, 0, [], 1, []⟩ := by
  simp only [callStep] at hopen
  split at hopen
  · obtain rfl := Option.some.inj hopen
    cases hphase
  split at hopen
  · cases hopen
  split at hopen
  · obtain rfl := Option.some.inj hopen
    cases hphase
  next buf hbuf =>
    obtain rfl := Option.some.inj hopen
    exact ⟨rfl, rfl, buf, (Phase.sending.inj hphase).symm⟩

/-- The account that a call opens. -/
theorem account_of_lookup (hopen : callStep H C n c used .lookup (.lookup requestID) = some e)
    (hphase : e.command.phase = .sending o) (drained : Prop) :
    Account c.w requestID (n.remoteNodes H c.key) drained [] [] ⟨e.node, e.command, none⟩ := by
  obtain ⟨hnode, hw, buf, rfl⟩ := callStep_lookup hopen hphase
  have hcounted : Counted (reached [] []) []
      ⟨requestID, n.ring, buf, n.remoteNodes H c.key, 0, [], 1, []⟩ :=
    ⟨fun _ => Iff.rfl, List.nodup_nil, fun _ => Iff.rfl, rfl⟩
  have hch : e.node.gossip.pendingReqs[requestID]? =
      some ⟨(n.remoteNodes H c.key).length, List.map .of []⟩ := by
    rw [hnode]
    exact Std.ExtTreeMap.getElem?_insert_self
  exact .sending hphase hw rfl (List.nil_append _).symm rfl rfl hcounted hch (.empty _)

/-- Nil is returned with enough acknowledgements only. -/
theorem Account.le_of_nil {w : Int} {remote : List Replica} {t : CallState}
    (h : Account w requestID remote drained oks resps t) (ht : t.result = some none) :
    w - 1 ≤ (acknowledging (reached remote oks) resps).card := by
  cases h with
  | acknowledged hreceived hmany =>
      have hle := acknowledging_mono (reached remote oks) hreceived.subset
      omega
  | _ => cases ht

/-- A call that drains its channel fails only if the responses with a place in it do not suffice. -/
theorem Account.lt_of_error {w : Int} {remote : List Replica} {t : CallState} {err : QuorumError}
    (h : Account w requestID remote True oks resps t) (ht : t.result = some (some err))
    (hpast : w ≤ oks.count true + 1) :
    ((acknowledging (reached remote oks) (resps.take remote.length)).card : Int) < w - 1 := by
  cases h with
  | unreachable hfew => omega
  | timedOut hkept hdrained hfew =>
      have hfirst := hkept.first
      rw [hdrained trivial, List.append_nil] at hfirst
      have hle := acknowledging_mono (reached remote oks) hfirst.subset
      omega
  | _ => cases ht

/-- A call counts exactly if it fails for want of acknowledgements only. -/
theorem countsExactly_of_account {w : Int} {remote : List Replica} {s : CallState}
    (haccount : Account w requestID remote drained [] [] s)
    (hfail : ∀ {t err}, Account w requestID remote drained oks resps t →
      t.result = some (some err) → (acknowledging (reached remote oks) resps).card < w - 1) :
    CountsExactly H C requestID drained s w remote oks resps := by
  intro evs t err hrun hsends hresponses hresult
  have hend := haccount.run hrun
  rw [List.nil_append, List.nil_append, hsends, hresponses] at hend
  cases err with
  | none => exact iff_of_true rfl (hend.le_of_nil hresult)
  | some err => exact iff_of_false (Option.some_ne_none err) (not_le.2 (hfail hend hresult))

/-- The interleaving that delivers all responses before the first receive decides. -/
theorem countsExactly_drained_iff {w : Int} {remote : List Replica}
    (haccount : Account w requestID remote True [] [] ⟨n, c, none⟩)
    (hphase : c.phase = .sending o) (hoks : oks.length = o.todo.length)
    (hpast : w ≤ oks.count true + 1) (hids : ∀ r ∈ resps, r.requestId = requestID) :
    CountsExactly H C requestID True ⟨n, c, none⟩ w remote oks resps ↔
      (acknowledging (reached remote oks) resps).card < w - 1 ∨
      w - 1 ≤ (acknowledging (reached remote oks) (resps.take remote.length)).card := by
  constructor
  · intro hexact
    rcases lt_or_ge ((acknowledging (reached remote oks) resps).card : Int) (w - 1) with
      hlt | hquorum
    · exact .inl hlt
    · obtain ⟨evs, n', o', hrun, hsends, hresponses, hw, hid, hcounted, hch⟩ :=
        exists_unread_run H C requestID True haccount hphase hoks hpast hids
      obtain ⟨evs', t, err, hrun', hsends', hresponses', hresult, hnil⟩ :=
        exists_return_run H C requestID True (c := { c with phase := .collecting o' }) rfl hid
          hcounted hch
      have herr : err = none := by
        apply (hexact _ t err (hrun.append hrun') ?_ ?_ hresult).2 hquorum
        · rw [sends_append, hsends, hsends', List.append_nil]
        · rw [responses_append, hresponses, hresponses', List.append_nil]
      have hmany : c.w ≤ (acknowledging (reached remote oks) (resps.take remote.length)).card + 1 :=
        hnil herr
      right
      omega
  · intro hcond
    apply countsExactly_of_account haccount
    intro t err hend hresult
    rcases hcond with hfew | hmany
    · exact hfew
    · exact absurd hmany (not_le.2 (hend.lt_of_error hresult hpast))

/-- The deadline may be taken while all responses wait. -/
theorem countsExactly_iff {w : Int} {remote : List Replica}
    (haccount : Account w requestID remote False [] [] ⟨n, c, none⟩)
    (hphase : c.phase = .sending o) (hw : 2 ≤ w) (hoks : oks.length = o.todo.length)
    (hpast : w ≤ oks.count true + 1) (hids : ∀ r ∈ resps, r.requestId = requestID) :
    CountsExactly H C requestID False ⟨n, c, none⟩ w remote oks resps ↔
      (acknowledging (reached remote oks) resps).card < w - 1 := by
  constructor
  · intro hexact
    by_contra hquorum
    obtain ⟨evs, n', o', hrun, hsends, hresponses, hw', hid, hcounted, hch⟩ :=
      exists_unread_run H C requestID False haccount hphase hoks hpast hids
    have hfew : (o'.acks : Int) < c.w := by
      rw [hcounted.acks_eq]
      simp only [acknowledging, List.filter_nil, List.map_nil, List.toFinset_nil, Finset.card_empty]
      omega
    have htimeout := timeout_run H C requestID False (n := n')
      (c := { c with phase := .collecting o' }) rfl hfew False.elim
    have herr := (hexact _ _ _ (hrun.append htimeout) ?_ ?_ rfl).2 (not_lt.1 hquorum)
    · cases herr
    · rw [sends_append, hsends]
      exact List.append_nil oks
    · rw [responses_append, hresponses]
      exact List.append_nil resps
  · intro hfew
    apply countsExactly_of_account haccount
    intro t err _ _
    exact hfew

/-- **Acknowledgements are counted.** Take any call that has opened its channel and whose sends are
enough, any outcomes of the sends and any responses for its request.

- No interleaving is stuck: the call can go on to its return.
- If the call returns nil, `w - 1` of the nodes that it reached have acknowledged.
- In the interleavings that drain the channel before the deadline is taken, it returns nil exactly
  then if and only if the responses do not have that quorum, or those that the channel has room for
  from the start do.
- In all interleavings it does if and only if the responses do not have that quorum. -/
theorem acks_counted_iff (hopen : callStep H C n c used .lookup (.lookup requestID) = some e)
    (hphase : e.command.phase = .sending o) (hw : 2 ≤ c.w)
    (hoks : oks.length = (n.remoteNodes H c.key).length) (hpast : c.w ≤ oks.count true + 1)
    (hids : ∀ r ∈ resps, r.requestId = requestID) :
    (∀ (drained : Prop) evs t, CallRuns H C requestID drained ⟨e.node, e.command, none⟩ evs t →
      t.result = none → ∃ evs' t' err, CallRuns H C requestID drained t evs' t' ∧
        responses evs' = [] ∧ t'.result = some err) ∧
    (∀ evs t, CallRuns H C requestID False ⟨e.node, e.command, none⟩ evs t → sends evs = oks →
      responses evs = resps → t.result = some none →
      c.w - 1 ≤ (acknowledging (reached (n.remoteNodes H c.key) oks) resps).card) ∧
    (CountsExactly H C requestID True ⟨e.node, e.command, none⟩ c.w (n.remoteNodes H c.key) oks
        resps ↔
      (acknowledging (reached (n.remoteNodes H c.key) oks) resps).card < c.w - 1 ∨
      c.w - 1 ≤ (acknowledging (reached (n.remoteNodes H c.key) oks)
        (resps.take (n.remoteNodes H c.key).length)).card) ∧
    (CountsExactly H C requestID False ⟨e.node, e.command, none⟩ c.w (n.remoteNodes H c.key) oks
        resps ↔
      (acknowledging (reached (n.remoteNodes H c.key) oks) resps).card < c.w - 1) := by
  have haccount := account_of_lookup hopen hphase
  have htodo : oks.length = o.todo.length := by
    obtain ⟨-, -, buf, rfl⟩ := callStep_lookup hopen hphase
    exact hoks
  refine ⟨?_, ?_, countsExactly_drained_iff (haccount True) hphase htodo hpast hids,
    countsExactly_iff (haccount False) hphase hw htodo hpast hids⟩
  · intro drained evs t hrun ht
    exact ((haccount drained).run hrun).exists_return H C requestID drained ht
  · rintro evs t hrun rfl rfl ht
    exact ((haccount False).run hrun).le_of_nil ht

end Results

/-! ## A duplicate -/

/-- The node `n1` of three, each of which is a replica for every key. -/
def trio : Node :=
  ⟨str "a:1", 3, .new, Hashring.build .xxhash (str "n1") [.addNode (str "n1") (str "a:1") 1,
    .addNode (str "n2") (str "b:1") 1, .addNode (str "n3") (str "c:1") 1],
    ⟨str "n1", 3, [], ∅, 0⟩⟩

/-- A write that all three are to acknowledge. -/
def trioWrite : Command :=
  ⟨str "n1", 3, str "a", ⟨str "1", 1, str "n1", false⟩, [], .lookup⟩

theorem acks_counted_iff_trio :
    ∃ e, callStep .xxhash Pb.protoCodec trio trioWrite [] .lookup (.lookup (str "r1")) = some e ∧
      CountsExactly .xxhash Pb.protoCodec (str "r1") True ⟨e.node, e.command, none⟩ 3
        (trio.remoteNodes .xxhash (str "a")) [true, true]
        [⟨str "r1", str "n2", true⟩, ⟨str "r1", str "n3", true⟩] := by
  obtain ⟨e, hopen, o, hphase⟩ :
      ∃ e, callStep .xxhash Pb.protoCodec trio trioWrite [] .lookup (.lookup (str "r1")) = some e ∧
        ∃ o, e.command.phase = .sending o := ⟨_, rfl, _, rfl⟩
  have hoks : [true, true].length = (trio.remoteNodes .xxhash trioWrite.key).length := by
    decide +kernel
  have hids : ∀ r ∈ [(⟨str "r1", str "n2", true⟩ : Pb.ReplicateResponse),
      ⟨str "r1", str "n3", true⟩], r.requestId = str "r1" := by decide
  have hcounted := acks_counted_iff hopen hphase (by decide) hoks (by decide) hids
  exact ⟨e, hopen, hcounted.2.2.1.2 (.inr (by decide +kernel))⟩

/-- The acknowledgement of `n2` comes twice, and both take a place in the channel. -/
def crowdedEvents : List CallEvent :=
  [.move (.send true), .move (.send true), .deliver ⟨str "r1", str "n2", true⟩,
    .deliver ⟨str "r1", str "n2", true⟩, .deliver ⟨str "r1", str "n3", true⟩, .move .sendsDone,
    .move .receive, .move .receive, .move .timeout]

/-- Both replicas acknowledge before the deadline, and the channel is drained, but the call times
out with two of three acknowledgements: there was no room for the one of `n3`. -/
theorem acknowledgement_crowded_out :
    ∃ e, callStep .xxhash Pb.protoCodec trio trioWrite [] .lookup (.lookup (str "r1")) = some e ∧
      (∃ t, CallRuns .xxhash Pb.protoCodec (str "r1") True ⟨e.node, e.command, none⟩ crowdedEvents
          t ∧ t.result = some (some (.timeout 2 3))) ∧
      acknowledging (reached (trio.remoteNodes .xxhash (str "a")) (sends crowdedEvents))
        (responses crowdedEvents) = {str "n2", str "n3"} := by
  have hopen : ∀ err : QuorumError, none ≠ some (some err) := fun _ => (Option.some_ne_none _).symm
  refine ⟨_, rfl, ?_, by decide +kernel⟩
  exact ⟨_, .cons trivial rfl <| .cons trivial rfl <|
    -- the two responses of `n2` fill the channel
    .cons ⟨rfl, hopen⟩ rfl <| .cons ⟨rfl, hopen⟩ rfl <| .cons ⟨rfl, hopen⟩ rfl <|
    .cons trivial rfl <| .cons trivial rfl <| .cons trivial rfl <|
    .single (fun _ => ⟨2, rfl⟩) rfl, rfl⟩

end Hapartition
