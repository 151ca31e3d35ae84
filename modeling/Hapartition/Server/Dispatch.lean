import Hapartition.Server.Server

/-!
# Requests and their replies

The rest of `internal/server/server.go`: the node and cluster commands, `dispatch` and the
connection loop. `classify` is the front of the loop, from a value read to the request it stands
for; `handle` is one turn of the loop, `serve` the loop over the values of a connection.
-/

set_option autoImplicit false

namespace Hapartition

open Lib

namespace Server

variable (R : Runtime) (O : Outcomes)

/-! ## Information commands -/

/-- `buildInfo`. -/
def buildInfo (s : Server) : Bytes :=
  let port := (splitHostPort s.addr).elim [] Prod.snd
  let port := if port = [] then str "6379" else port
  str "# Server\r\nredis_version:7.2.0\r\nos:Linux\r\ntcp_port:" ++ port ++
    str "\r\n\r\n# Cluster\r\ncluster_enabled:1\r\n"

/-- The host and port texts of a node's address, with their fallbacks. -/
def hostPort (address : Bytes) : Bytes × Bytes :=
  match splitHostPort address with
  -- an address without a port is taken for the port
  | none => (str "127.0.0.1", address)
  | some (host, port) => (if host = [] then str "127.0.0.1" else host, port)

/-- One range in the reply to `CLUSTER SLOTS`. -/
def slotEntry (sr : SlotRange) : Value :=
  let hp := hostPort sr.node.address
  let port := atoiValue hp.2
  let nodeID := if sr.node.nodeID = [] then hp.1 else sr.node.nodeID
  .array [.integer (Int64.ofNat sr.start), .integer (Int64.ofNat sr.stop),
    .array [newBulkString hp.1, .integer (if port = 0 then 6379 else port), newBulkString nodeID]]

/-- `handleClusterSlots`. -/
def handleClusterSlots (s : Server) : Value :=
  let ranges := s.ring.getSlotRanges R.toHashing
  if ranges.length = 0 then .error (str "ERR cluster is empty") else .array (ranges.map slotEntry)

/-- A range as `CLUSTER NODES` prints it. -/
def slotText (sr : SlotRange) : Bytes :=
  if sr.start = sr.stop then itoa sr.start else itoa sr.start ++ str "-" ++ itoa sr.stop

/-- The line of a node in the reply to `CLUSTER NODES`. -/
def nodeLine (s : Server) (ranges : List SlotRange) (sr : SlotRange) : Bytes :=
  let id := sr.node.nodeID
  let hp := hostPort sr.node.address
  let flags := if id ≠ s.nodeID then str "master" else str "myself,master"
  let slots := (ranges.filter fun sr => decide (sr.node.nodeID = id)).map slotText
  id ++ str " " ++ hp.1 ++ str ":" ++ hp.2 ++ str " " ++ flags ++ str " - 0 0 0 connected " ++
    List.intercalate (str " ") slots ++ str "\n"

/-- The text of the reply to `CLUSTER NODES`: a line for the first range of every node. -/
def nodesText (s : Server) (ranges : List SlotRange) : Bytes :=
  (distinctOn (fun sr => sr.node.nodeID) ranges).flatMap (s.nodeLine ranges)

/-- `handleClusterNodes`. -/
def handleClusterNodes (s : Server) : Value :=
  let ranges := s.ring.getSlotRanges R.toHashing
  if ranges.length = 0 then nullBulkString else newBulkString (s.nodesText ranges)

/-- `handleClusterInfo`. -/
def handleClusterInfo (s : Server) : Value :=
  let ranges := s.ring.getSlotRanges R.toHashing
  let numNodes := itoa (distinctOn (fun sr => sr.node.nodeID) ranges).length
  newBulkString (str "cluster_state:ok\r\ncluster_slots_assigned:16384\r\n"
    ++ str "cluster_slots_ok:16384\r\n"
    ++ str "cluster_slots_pfail:0\r\ncluster_slots_fail:0\r\ncluster_known_nodes:" ++ numNodes
    ++ str "\r\ncluster_size:" ++ numNodes
    ++ str "\r\ncluster_current_epoch:1\r\ncluster_my_epoch:0\r\n")

/-- The subcommands of `CLUSTER`. -/
inductive Subcommand where
  | slots
  | nodes
  | info
  | keyslot
  | unknown
  deriving DecidableEq, Repr

/-- The subcommand with an upper-case name. -/
def Subcommand.ofName (name : Bytes) : Subcommand :=
  if name = str "SLOTS" then .slots
  else if name = str "NODES" then .nodes
  else if name = str "INFO" then .info
  else if name = str "KEYSLOT" then .keyslot
  else .unknown

/-- `handleCluster`. -/
def handleCluster (s : Server) (args : List Value) : Value :=
  if args.length < 1 then wrongArity (str "CLUSTER")
  else
    match args.head?.bind getBulkString with
    | none => .error (str "ERR invalid CLUSTER subcommand")
    | some sub =>
        match Subcommand.ofName (toUpper R.upper sub) with
        | .slots => s.handleClusterSlots R
        | .nodes => s.handleClusterNodes R
        | .info => s.handleClusterInfo R
        | .keyslot =>
            if args.length < 2 then wrongArity (str "CLUSTER KEYSLOT")
            else
              match args[1]?.bind getBulkString with
              | none => .error (str "ERR invalid key")
              | some key =>
                  .integer (Int64.ofNat ((Hashring.hashKey R.toHashing key).toNat % 16384))
        -- the subcommand as the client spelled it, not in upper case
        | .unknown => .error (str "ERR unknown CLUSTER subcommand '" ++ sub ++ str "'")

/-! ## Node commands -/

/-- `NODE.JOIN`. -/
def handleNodeJoin (s : Server) (args : List Value) : Server × Value :=
  if args.length < 2 then (s, wrongArity (str "NODE.JOIN"))
  else
    match args.head?.bind getBulkString with
    | none => (s, .error (str "ERR invalid node-id"))
    | some nodeID =>
        match args[1]?.bind getBulkString with
        | none => (s, .error (str "ERR invalid address"))
        | some address =>
            ({ s with ring := s.ring.addNode R.toHashing nodeID address 256 }, .ok)

/-- One member in the reply to `NODE.LIST`. -/
def memberEntry (m : MemberInfo) : Value :=
  .array [newBulkString m.name, newBulkString m.redisAddr, newBulkString (str "healthy")]

/-- `NODE.LIST`. -/
def handleNodeList (s : Server) : Value :=
  match s.gossip with
  | none => .error (str "ERR gossip not initialized")
  | some g => .array (g.members.map memberEntry)

/-! ## Dispatch -/

/-- The commands of `dispatch`. -/
inductive CommandName where
  | ping
  | info
  | set
  | get
  | del
  | nodeJoin
  | nodeList
  | cluster
  | nodePing
  | nodeLeave
  | unknown
  deriving DecidableEq, Repr

/-- The command with an upper-case name. -/
def CommandName.ofName (name : Bytes) : CommandName :=
  if name = str "PING" then .ping
  else if name = str "INFO" then .info
  else if name = str "SET" then .set
  else if name = str "GET" then .get
  else if name = str "DEL" then .del
  else if name = str "NODE.JOIN" then .nodeJoin
  else if name = str "NODE.LIST" then .nodeList
  else if name = str "CLUSTER" then .cluster
  else if name = str "NODE.PING" then .nodePing
  else if name = str "NODE.LEAVE" then .nodeLeave
  else .unknown

/-- `dispatch`. -/
def dispatch (s : Server) (cmd : Bytes) (args : List Value) : Server × Value :=
  match CommandName.ofName cmd with
  | .ping => (s, .pong)
  | .info => (s, newBulkString s.buildInfo)
  | .set => s.handleKeyCommand R (str "SET") 2 args (s.execSet O)
  | .get => s.handleKeyCommand R (str "GET") 1 args fun key _ => s.execGet key
  | .del => s.handleDel R O args
  | .nodeJoin => s.handleNodeJoin R args
  | .nodeList => (s, s.handleNodeList)
  | .cluster => (s, s.handleCluster R args)
  | .nodePing => (s, .error (str "ERR NODE.PING not supported — memberlist handles health checks"))
  | .nodeLeave =>
      (s, .error (str "ERR NODE.LEAVE not supported — use shutdown to leave the cluster"))
  | .unknown => (s, .error (str "ERR unknown command '" ++ cmd ++ str "'"))

/-! ## What the commands do

`keyArguments_cases` is the specification of the checks; `execGet_eq`, `execSet_snd`, `execDel_snd`
and `handleNodeJoin_cases` are those of the handlers. What a `SET` and a `DEL` leave in the store is
a matter of the merge. -/

/-- The error that a call of `ReplicateWithQuorum` returned to a `SET` that passed its checks. -/
def setError (s : Server) (key value : Bytes) : Option QuorumError :=
  let r := s.store.setFrom key value s.nodeID
  s.gossip.bind fun _ => (replicateWithQuorum O r.1 key r.2 s.quorumSize).2

/-- The error that a call of `ReplicateWithQuorum` returned to a `DEL` that passed its checks. -/
def delError (s : Server) (keys : List Bytes) : Option QuorumError :=
  let r := s.store.del s.nodeID keys
  s.gossip.bind fun _ => (replicateAll O s.quorumSize r.1 (O.order r.2.2.toList)).2

section Handlers

variable {R O} {s : Server}

/-- The checks of a key command end in an error reply, or in a key of this node and a value. -/
theorem keyArguments_cases (cmd : Bytes) (arity : Nat) (args : List Value) :
    (∃ text, s.keyArguments R cmd arity args = .error (.error text)) ∨
      ∃ key value, s.keyArguments R cmd arity args = .ok (key, value) ∧ args.length = arity ∧
        args.head?.bind getBulkString = some key ∧ s.moved R key = none ∧
        if arity = 2 then args[1]?.bind getBulkString = some value else value = [] := by
  unfold keyArguments
  split
  · exact .inl ⟨_, rfl⟩
  next hlen =>
  split
  · exact .inl ⟨_, rfl⟩
  next key hkey =>
  split
  · exact .inl ⟨_, rfl⟩
  next hmoved =>
  split
  · split
    · exact .inl ⟨_, rfl⟩
    next value hvalue => exact .inr ⟨key, value, rfl, not_not.1 hlen, hkey, hmoved, hvalue⟩
  · exact .inr ⟨key, [], rfl, not_not.1 hlen, hkey, hmoved, rfl⟩

theorem execGet_eq (key : Bytes) :
    s.execGet key = (s, .bulkString ((s.store.get key).map Prod.fst)) := by
  rw [execGet]
  cases s.store.get key with
  | none => rfl
  | some p => rfl

/-- `GET` changes nothing, checks included. -/
theorem handleGet_fst (args : List Value) :
    (s.handleKeyCommand R (str "GET") 1 args fun key _ => s.execGet key).1 = s := by
  simp only [handleKeyCommand]
  cases s.keyArguments R (str "GET") 1 args with
  | error reply => rfl
  | ok p =>
      show (s.execGet p.1).1 = s
      rw [execGet_eq]

/-- Past its checks, `SET` replies with the error of the replication or with OK. -/
theorem execSet_snd (key value : Bytes) :
    (s.execSet O key value).2 = (s.setError O key value).elim .ok quorumFailed := by
  rw [execSet, setError]
  cases s.gossip with
  | none => rfl
  | some g =>
      simp only [Option.bind_some]
      cases replicateWithQuorum O (s.store.setFrom key value s.nodeID).1 key
          (s.store.setFrom key value s.nodeID).2 s.quorumSize with
      | mk store err =>
          cases err with
          | none => rfl
          | some err => rfl

/-- Past its checks, `DEL` replies with the error of the replication or with the count. -/
theorem execDel_snd (keys : List Bytes) :
    (s.execDel O keys).2 = (s.delError O keys).elim
      (.integer (Int64.ofInt (s.store.del s.nodeID keys).2.1)) quorumFailed := by
  rw [execDel, delError]
  cases s.gossip with
  | none => rfl
  | some g =>
      simp only [Option.bind_some]
      cases replicateAll O s.quorumSize (s.store.del s.nodeID keys).1
          (O.order (s.store.del s.nodeID keys).2.2.toList) with
      | mk store err =>
          cases err with
          | none => rfl
          | some err => rfl

/-- `NODE.JOIN` fails with the server as it was, or adds the node. -/
theorem handleNodeJoin_cases (args : List Value) :
    (∃ text, s.handleNodeJoin R args = (s, .error text)) ∨
      ∃ nodeID address, s.handleNodeJoin R args =
        ({ s with ring := s.ring.addNode R.toHashing nodeID address 256 }, .ok) := by
  unfold handleNodeJoin
  split
  · exact .inl ⟨_, rfl⟩
  · cases args.head?.bind getBulkString with
    | none => exact .inl ⟨_, rfl⟩
    | some nodeID =>
        cases args[1]?.bind getBulkString with
        | none => exact .inl ⟨_, rfl⟩
        | some address => exact .inr ⟨nodeID, address, rfl⟩

end Handlers

/-! ## Connections -/

/-- What the connection loop makes of a value. -/
inductive Request where
  | malformed (reply : Bytes)
  | command (name : Bytes) (args : List Value)

/-- The front of the loop of `handleConn`: the command name in upper case and its arguments. -/
def classify : Value → Request
  | .array [] => .malformed (str "ERR empty command")
  | .array (.bulkString (some name) :: args) => .command (toUpper R.upper name) args
  | .array (_ :: _) =>
      .malformed (str "ERR protocol error: command name must be a bulk string")
  | _ => .malformed (str "ERR protocol error: expected array")

/-- The `AUTH` command: whether the connection is authenticated afterwards, and the reply. The
digests are compared, not the tokens. -/
def handleAuth (s : Server) (authenticated : Bool) (args : List Value) : Bool × Value :=
  if s.authToken = [] then
    (authenticated, .error (str "ERR AUTH called without any password configured"))
  else if args.length ≠ 1 then (authenticated, wrongArity (str "AUTH"))
  else
    match args.head?.bind getBulkString with
    | none =>
        (authenticated,
          .error (str "WRONGPASS invalid username-password pair or user is disabled."))
    | some token =>
        if R.sha256 token ≠ R.sha256 s.authToken then
          (authenticated,
            .error (str "WRONGPASS invalid username-password pair or user is disabled."))
        else (true, .ok)

/-- One turn of the loop of `handleConn`, after a value has been read. -/
def handle (s : Server) (authenticated : Bool) (v : Value) : Server × Bool × Value :=
  match classify R v with
  | .malformed reply => (s, authenticated, .error reply)
  | .command name args =>
      -- before the check of authentication, or no client could ever pass it
      if name = str "AUTH" then (s, s.handleAuth R authenticated args)
      else if !authenticated then (s, authenticated, .error (str "NOAUTH Authentication required."))
      else
        let r := s.dispatch R O name args
        (r.1, authenticated, r.2)

/-- The loop of `handleConn` over the values read from a connection, each with the outcomes met
while it was handled: the server afterwards and the values written. -/
def serve : Server → Bool → List (Outcomes × Value) → Server × List Value
  | s, _, [] => (s, [])
  | s, authenticated, (O, v) :: rest =>
      let r := s.handle R O authenticated v
      let r' := serve r.1 r.2.1 rest
      (r'.1, r.2.2 :: r'.2)

/-- `handleConn`: on a server without a token, a connection is authenticated from the start. -/
def handleConn (s : Server) (reqs : List (Outcomes × Value)) : Server × List Value :=
  s.serve R (decide (s.authToken = [])) reqs

end Server

end Hapartition
