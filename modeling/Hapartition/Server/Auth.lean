import Hapartition.Server.Reply
import Hapartition.Lib.Digest

/-!
# Authentication

On a server with a token, a connection that has not offered it gets replies that are a function of
its requests and the token alone (`handle_of_not_login`), and changes nothing. Once it has, it is
served as on a server without a token, up to `AUTH` itself (`handle_withToken`). `auth_gate` states
both for whole connections.
-/

set_option autoImplicit false

namespace Hapartition

open Lib

namespace Server

variable {R : Runtime} {s : Server} {T : Bytes}

/-- The arguments of an `AUTH` request. -/
def authArgs (R : Runtime) (v : Value) : Option (List Value) :=
  match classify R v with
  | .malformed _ => none
  | .command name args => if name = str "AUTH" then some args else none

/-- The token offered by an `AUTH` request with one argument that is a non-null bulk string. -/
def offered (R : Runtime) (v : Value) : Option Bytes :=
  (authArgs R v).bind fun args => if args.length = 1 then args.head?.bind getBulkString else none

/-- No other token that the values offer has the digest of `T`. -/
def Distinguishes (R : Runtime) (T : Bytes) (values : List Value) : Prop :=
  ∀ v ∈ values, ∀ token, offered R v = some token → R.sha256 token = R.sha256 T → token = T

/-- The reply to `AUTH` when the token is `T`. -/
def authReply (T : Bytes) (args : List Value) : Value :=
  if args.length ≠ 1 then wrongArity (str "AUTH")
  else if args.head?.bind getBulkString = some T then .ok
  else .error (str "WRONGPASS invalid username-password pair or user is disabled.")

/-- The server with another token. -/
def withToken (s : Server) (T : Bytes) : Server := { s with authToken := T }

/-! ## Before the token -/

theorem offered_of_authArgs {v : Value} {args : List Value} (h : authArgs R v = some args) :
    offered R v = if args.length = 1 then args.head?.bind getBulkString else none := by
  rw [offered, h, Option.bind_some]

/-- `AUTH` authenticates the connection if it offers the token, and replies accordingly. -/
theorem handleAuth_eq {v : Value} {args : List Value} (hT : s.authToken ≠ [])
    (hargs : authArgs R v = some args)
    (hdist : ∀ token, offered R v = some token → R.sha256 token = R.sha256 s.authToken →
      token = s.authToken) (authenticated : Bool) :
    s.handleAuth R authenticated args =
      (authenticated || decide (offered R v = some s.authToken), authReply s.authToken args) := by
  have hoffered := offered_of_authArgs hargs
  unfold handleAuth authReply
  rw [if_neg hT]
  by_cases hlen : args.length = 1
  · rw [if_pos hlen] at hoffered
    rw [if_neg (not_not.2 hlen), if_neg (not_not.2 hlen), ← hoffered]
    cases htoken : offered R v with
    | none => simp
    | some token =>
        by_cases hsame : token = s.authToken
        · simp [hsame]
        · have hdigest : R.sha256 token ≠ R.sha256 s.authToken := by
            intro h
            exact hsame (hdist token htoken h)
          simp [hsame, hdigest]
  · rw [if_neg hlen] at hoffered
    rw [if_pos hlen, if_pos hlen, hoffered]
    simp

/-- The reply to a connection that has not offered the token. -/
def refusal (R : Runtime) (T : Bytes) (v : Value) : Value :=
  match classify R v with
  | .malformed reply => .error reply
  | .command name args =>
      if name = str "AUTH" then authReply T args
      else .error (str "NOAUTH Authentication required.")

theorem authArgs_eq_some {v : Value} {args : List Value} (h : authArgs R v = some args) :
    classify R v = .command (str "AUTH") args := by
  unfold authArgs at h
  cases hv : classify R v with
  | malformed reply =>
      rw [hv] at h
      cases h
  | command name args' =>
      rw [hv] at h
      by_cases hname : name = str "AUTH"
      · simp only [if_pos hname, Option.some.injEq] at h
        rw [hname, h]
      · simp only [if_neg hname] at h
        cases h

theorem name_ne_auth {v : Value} {name : Bytes} {args : List Value} (h : authArgs R v = none)
    (hv : classify R v = .command name args) : name ≠ str "AUTH" := by
  intro hname
  rw [authArgs, hv] at h
  simp only [if_pos hname] at h
  cases h

/-- `AUTH` is handled apart from the commands. -/
theorem handle_of_authArgs {v : Value} {args : List Value} (h : authArgs R v = some args)
    (O : Outcomes) (authenticated : Bool) :
    s.handle R O authenticated v = (s, s.handleAuth R authenticated args) := by
  rw [handle, authArgs_eq_some h]
  exact if_pos rfl

theorem handle_of_not_login {v : Value} (hT : s.authToken ≠ [])
    (hdist : ∀ token, offered R v = some token → R.sha256 token = R.sha256 s.authToken →
      token = s.authToken)
    (hno : offered R v ≠ some s.authToken) (O : Outcomes) :
    s.handle R O false v = (s, false, refusal R s.authToken v) := by
  cases hargs : authArgs R v with
  | some args =>
      rw [handle_of_authArgs hargs, handleAuth_eq hT hargs hdist, decide_eq_false hno, refusal,
        authArgs_eq_some hargs]
      rfl
  | none =>
      unfold handle refusal
      cases hv : classify R v with
      | malformed reply => rfl
      | command name args =>
          have hname := name_ne_auth hargs hv
          simp only [if_neg hname]
          rfl

theorem handle_of_login {v : Value} (hT : s.authToken ≠ [])
    (hlogin : offered R v = some s.authToken) (O : Outcomes) (authenticated : Bool) :
    s.handle R O authenticated v = (s, true, .ok) := by
  obtain ⟨args, hargs, htoken⟩ := Option.bind_eq_some_iff.1 hlogin
  have hlen : args.length = 1 := by
    by_contra hne
    rw [if_neg hne] at htoken
    cases htoken
  rw [if_pos hlen] at htoken
  rw [handle_of_authArgs hargs]
  simp [handleAuth, hT, hlen, htoken]

/-- A connection that does not offer the token, up to any point. -/
theorem serve_append_of_not_login (hT : s.authToken ≠ []) {reqs : List (Outcomes × Value)}
    (hdist : Distinguishes R s.authToken (reqs.map Prod.snd))
    (hno : ∀ v ∈ reqs.map Prod.snd, offered R v ≠ some s.authToken)
    (rest : List (Outcomes × Value)) :
    s.serve R false (reqs ++ rest) =
      ((s.serve R false rest).1,
        (reqs.map Prod.snd).map (refusal R s.authToken) ++ (s.serve R false rest).2) := by
  induction reqs with
  | nil => rfl
  | cons q reqs ih =>
      obtain ⟨O, v⟩ := q
      have hstep := handle_of_not_login hT (hdist v List.mem_cons_self) (hno v List.mem_cons_self) O
      have hrest := ih (fun v hv => hdist v (List.mem_cons_of_mem _ hv))
        fun v hv => hno v (List.mem_cons_of_mem _ hv)
      rw [List.cons_append, serve]
      simp only [hstep, hrest]
      rfl

/-- The whole of a connection that does not offer the token. -/
theorem handleConn_of_not_login (hT : s.authToken ≠ []) {reqs : List (Outcomes × Value)}
    (hdist : Distinguishes R s.authToken (reqs.map Prod.snd))
    (hno : ∀ v ∈ reqs.map Prod.snd, offered R v ≠ some s.authToken) :
    s.handleConn R reqs = (s, (reqs.map Prod.snd).map (refusal R s.authToken)) := by
  have hserve := serve_append_of_not_login hT hdist hno []
  rw [List.append_nil] at hserve
  rw [handleConn, decide_eq_false hT, hserve, serve, List.append_nil]

/-! ## After the token -/

theorem handleKeyCommand_withToken (cmd : Bytes) (arity : Nat) (args : List Value)
    {f g : Bytes → Bytes → Server × Value}
    (h : ∀ key value, f key value = ((g key value).1.withToken T, (g key value).2)) :
    (s.withToken T).handleKeyCommand R cmd arity args f =
      ((s.handleKeyCommand R cmd arity args g).1.withToken T,
        (s.handleKeyCommand R cmd arity args g).2) := by
  unfold handleKeyCommand
  have hargs : (s.withToken T).keyArguments R cmd arity args = s.keyArguments R cmd arity args :=
    rfl
  rw [hargs]
  cases s.keyArguments R cmd arity args with
  | error reply => rfl
  | ok p => exact h p.1 p.2

theorem execSet_withToken (O : Outcomes) (key value : Bytes) :
    (s.withToken T).execSet O key value =
      ((s.execSet O key value).1.withToken T, (s.execSet O key value).2) := by
  have hgossip : (s.withToken T).gossip = s.gossip := rfl
  have hset : (s.withToken T).store.setFrom key value (s.withToken T).nodeID =
      s.store.setFrom key value s.nodeID := rfl
  have hsize : (s.withToken T).quorumSize = s.quorumSize := rfl
  unfold execSet
  rw [hgossip]
  simp only [hset, hsize]
  cases s.gossip with
  | none => rfl
  | some g =>
      rcases replicateWithQuorum O (s.store.setFrom key value s.nodeID).1 key
        (s.store.setFrom key value s.nodeID).2 s.quorumSize with ⟨store, _ | err⟩
      · rfl
      · rfl

theorem execGet_withToken (key : Bytes) :
    (s.withToken T).execGet key = ((s.execGet key).1.withToken T, (s.execGet key).2) := by
  rw [execGet_eq, execGet_eq]
  rfl

theorem execDel_withToken (O : Outcomes) (keys : List Bytes) :
    (s.withToken T).execDel O keys = ((s.execDel O keys).1.withToken T, (s.execDel O keys).2) := by
  have hgossip : (s.withToken T).gossip = s.gossip := rfl
  have hdel : (s.withToken T).store.del (s.withToken T).nodeID keys = s.store.del s.nodeID keys :=
    rfl
  have hsize : (s.withToken T).quorumSize = s.quorumSize := rfl
  unfold execDel
  rw [hgossip]
  simp only [hdel, hsize]
  cases s.gossip with
  | none => rfl
  | some g =>
      rcases replicateAll O s.quorumSize (s.store.del s.nodeID keys).1
        (O.order (s.store.del s.nodeID keys).2.2.toList) with ⟨store, _ | err⟩
      · rfl
      · rfl

theorem handleDel_withToken (O : Outcomes) (args : List Value) :
    (s.withToken T).handleDel R O args =
      ((s.handleDel R O args).1.withToken T, (s.handleDel R O args).2) := by
  have hargs : (s.withToken T).delArguments R args = s.delArguments R args := rfl
  unfold handleDel
  rw [hargs]
  cases s.delArguments R args with
  | error reply => rfl
  | ok keys => exact execDel_withToken O keys

theorem handleNodeJoin_withToken (args : List Value) :
    (s.withToken T).handleNodeJoin R args =
      ((s.handleNodeJoin R args).1.withToken T, (s.handleNodeJoin R args).2) := by
  unfold handleNodeJoin
  split
  · rfl
  · cases args.head?.bind getBulkString with
    | none => rfl
    | some nodeID =>
        cases args[1]?.bind getBulkString with
        | none => rfl
        | some address => rfl

/-- No command but `AUTH` looks at the token. -/
theorem dispatch_withToken (O : Outcomes) (cmd : Bytes) (args : List Value) :
    (s.withToken T).dispatch R O cmd args =
      ((s.dispatch R O cmd args).1.withToken T, (s.dispatch R O cmd args).2) := by
  unfold dispatch
  cases CommandName.ofName cmd with
  | set => exact handleKeyCommand_withToken _ _ _ (execSet_withToken O)
  | get => exact handleKeyCommand_withToken _ _ _ fun key _ => execGet_withToken key
  | del => exact handleDel_withToken O args
  | nodeJoin => exact handleNodeJoin_withToken args
  | nodeList => rfl
  | cluster => rfl
  | ping => rfl
  | info => rfl
  | nodePing => rfl
  | nodeLeave => rfl
  | unknown => rfl

/-- On an authenticated connection the token matters for `AUTH` only. -/
theorem handle_withToken {v : Value} (hno : authArgs R v = none) (O : Outcomes) :
    (s.withToken T).handle R O true v =
      ((s.handle R O true v).1.withToken T, true, (s.handle R O true v).2.2) := by
  unfold handle
  cases hv : classify R v with
  | malformed reply => rfl
  | command name args =>
      have hname := name_ne_auth hno hv
      simp only [if_neg hname, Bool.not_true, Bool.false_eq_true, if_false, dispatch_withToken]

theorem handleAuth_fst (args : List Value) : (s.handleAuth R true args).1 = true := by
  unfold handleAuth
  split
  · rfl
  split
  · rfl
  cases args.head?.bind getBulkString with
  | none => rfl
  | some token =>
      simp only
      split
      · rfl
      · rfl

/-- The replies of a connection, request by request, are those of a server without a token, but for
`AUTH`, which is checked against `T`. -/
def RepliesAs (R : Runtime) (T : Bytes) (reqs : List (Outcomes × Value))
    (replies withoutToken : List Value) : Prop :=
  ∀ (i : Nat) (O : Outcomes) (v : Value), reqs[i]? = some (O, v) →
    (authArgs R v = none → replies[i]? = withoutToken[i]?) ∧
      ∀ args, authArgs R v = some args → replies[i]? = some (authReply T args)

theorem RepliesAs.cons {reqs : List (Outcomes × Value)} {O : Outcomes} {v r r' : Value}
    {replies withoutToken : List Value} (hcommand : authArgs R v = none → r = r')
    (hauth : ∀ args, authArgs R v = some args → r = authReply T args)
    (h : RepliesAs R T reqs replies withoutToken) :
    RepliesAs R T ((O, v) :: reqs) (r :: replies) (r' :: withoutToken) := by
  intro i O' v' hi
  cases i with
  | zero =>
      obtain ⟨rfl, rfl⟩ := Prod.mk.inj (Option.some.inj hi)
      exact ⟨fun hno => congrArg some (hcommand hno),
        fun args hargs => congrArg some (hauth args hargs)⟩
  | succ i => exact h i O' v' hi

/-- After the token, a connection is served as on a server without a token. -/
theorem serve_withToken (hT : T ≠ []) {reqs : List (Outcomes × Value)}
    (hdist : Distinguishes R T (reqs.map Prod.snd)) :
    ((s.withToken T).serve R true reqs).1 = ((s.withToken []).serve R true reqs).1.withToken T ∧
      RepliesAs R T reqs ((s.withToken T).serve R true reqs).2
        ((s.withToken []).serve R true reqs).2 := by
  induction reqs generalizing s with
  | nil =>
      refine ⟨rfl, ?_⟩
      intro i O v hi
      cases hi
  | cons q reqs ih =>
      obtain ⟨O, v⟩ := q
      have hrest : Distinguishes R T (reqs.map Prod.snd) :=
        fun v hv => hdist v (List.mem_cons_of_mem _ hv)
      rw [serve, serve]
      cases hargs : authArgs R v with
      | none =>
          obtain ⟨hserver, hreplies⟩ := ih (s := (s.handle R O true v).1) hrest
          rw [handle_withToken hargs, handle_withToken hargs]
          refine ⟨hserver, .cons (fun _ => rfl) ?_ hreplies⟩
          intro args hsome
          rw [hargs] at hsome
          cases hsome
      | some args =>
          obtain ⟨hserver, hreplies⟩ := ih (s := s) hrest
          rw [handle_of_authArgs hargs, handle_of_authArgs hargs]
          simp only [handleAuth_fst]
          refine ⟨hserver, .cons ?_ ?_ hreplies⟩
          · intro hnone
            rw [hargs] at hnone
            cases hnone
          · intro args' hargs'
            rw [hargs] at hargs'
            cases hargs'
            rw [handleAuth_eq (s := s.withToken T) hT hargs (hdist v List.mem_cons_self)]
            rfl

/-! ## The gate -/

/-- **The gate of authentication.** On servers with the token `T`, a connection whose requests never
offer `T` gets the same replies whatever the state of the server, and leaves it unchanged. When it
does offer `T`, the reply is `OK`, and it is served from then on as on a server without a token,
except that `AUTH` is still checked. -/
theorem auth_gate {s' : Server} {reqs reqs' : List (Outcomes × Value)} (hT : T ≠ [])
    (hs : s.authToken = T) (hs' : s'.authToken = T)
    (hvalues : reqs.map Prod.snd = reqs'.map Prod.snd)
    (hdist : Distinguishes R T (reqs.map Prod.snd))
    (hno : ∀ v ∈ reqs.map Prod.snd, offered R v ≠ some T) :
    (s.handleConn R reqs).2 = (s'.handleConn R reqs').2 ∧
      (s.handleConn R reqs).1 = s ∧ (s'.handleConn R reqs').1 = s' ∧
      ∀ O v rest, offered R v = some T → Distinguishes R T (rest.map Prod.snd) →
        ∃ later, (s.handleConn R (reqs ++ (O, v) :: rest)).2 =
            (s.handleConn R reqs).2 ++ .ok :: later ∧
          (s.handleConn R (reqs ++ (O, v) :: rest)).1 =
            ((s.withToken []).handleConn R rest).1.withToken T ∧
          later.length = rest.length ∧
          RepliesAs R T rest later ((s.withToken []).handleConn R rest).2 := by
  subst hs
  have hconn := handleConn_of_not_login hT hdist hno
  have hconn' : s'.handleConn R reqs' =
      (s', (reqs'.map Prod.snd).map (refusal R s'.authToken)) := by
    apply handleConn_of_not_login
    · rwa [hs']
    · rwa [hs', ← hvalues]
    · rwa [hs', ← hvalues]
  rw [hconn, hconn', hvalues, hs']
  refine ⟨rfl, rfl, rfl, ?_⟩
  intro O v rest hlogin hrest
  have hwhole : s.handleConn R (reqs ++ (O, v) :: rest) =
      ((s.serve R true rest).1,
        (reqs.map Prod.snd).map (refusal R s.authToken) ++ .ok :: (s.serve R true rest).2) := by
    rw [handleConn, decide_eq_false hT, serve_append_of_not_login hT hdist hno, serve,
      handle_of_login hT hlogin]
  obtain ⟨hserver, hreplies⟩ := serve_withToken (s := s) hT hrest
  rw [hwhole, hvalues]
  exact ⟨_, rfl, hserver, length_serve s true rest, hreplies⟩

/-- SHA-256, for requests whose names are ASCII. -/
def digestRuntime : Runtime := { Runtime.ascii with sha256 := Sha256.sum256 }

/-- A server with a token. -/
def guarded : Server :=
  { Server.new digestRuntime (str ":6379") (str "n1") with authToken := str "pw" }

/-- The requests `GET a`, `auth no` and an array that is no command. -/
def intruder : List (Outcomes × Value) :=
  [(.success, .array [newBulkString (str "GET"), newBulkString (str "a")]),
    (.success, .array [newBulkString (str "auth"), newBulkString (str "no")]),
    (.success, .array [])]

theorem intruder_offers {v : Value} (hv : v ∈ intruder.map Prod.snd) :
    offered digestRuntime v = none ∨ offered digestRuntime v = some (str "no") := by
  have hall : (intruder.map Prod.snd).map (offered digestRuntime) =
      [none, some (str "no"), none] := by
    decide +kernel
  have hmem : offered digestRuntime v ∈ [none, some (str "no"), none] :=
    hall ▸ List.mem_map_of_mem hv
  simpa [or_comm] using hmem

/-- The intruder against a new server and against one with a key. -/
theorem auth_gate_intruder :
    (guarded.handleConn digestRuntime intruder).2 =
      (({ guarded with store := (Store.new.set (str "a") (str "1")).1 } : Server).handleConn
        digestRuntime intruder).2 := by
  refine (auth_gate (T := str "pw") (by decide) rfl rfl rfl ?_ ?_).1
  · intro v hv token hoffered hdigest
    rcases intruder_offers hv with hnone | hsome
    · rw [hnone] at hoffered
      cases hoffered
    · obtain rfl := Option.some.inj (hsome.symm.trans hoffered)
      exact absurd hdigest (by decide +kernel)
  · intro v hv hoffered
    rcases intruder_offers hv with hnone | hsome
    · rw [hnone] at hoffered
      cases hoffered
    · exact absurd (Option.some.inj (hsome.symm.trans hoffered)) (by decide)

end Server

end Hapartition
