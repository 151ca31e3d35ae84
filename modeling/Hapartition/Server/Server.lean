import Hapartition.Gossip.Handler
import Hapartition.Lib.HostPort
import Hapartition.Resp.Reader

/-!
# The command server

`Server` of `internal/server/server.go`: the connection loop, the command dispatcher and the
`CLUSTER` subcommands. Every branch of the source writes exactly one value, so a handler is a
function to the server afterwards and the value written.

- `Runtime` collects the functions from outside the repository.
- `Outcomes` is what the dispatcher cannot compute: how the quorum of a write ends, and in which
  order the map of tombstones is ranged over.
- `Request` is the request that `handleConn` recognises in a value; `dispatch` executes one.
-/

set_option autoImplicit false

namespace Hapartition

open Lib
open Std (ExtTreeMap)

/-- The functions from outside: hashing and sorting, the simple upper-case mapping of Unicode code
points, and SHA-256. -/
structure Runtime extends Hashing where
  upper : Nat → Nat
  sha256 : Bytes → Bytes

/-- A runtime for requests whose names are ASCII, to a server without a token: the Unicode table and
SHA-256 are not consulted on them. -/
def Runtime.ascii : Runtime :=
  { Hashing.xxhash with
    upper := id
    sha256 := id }

/-- `Server`. `addr` is what `Addr()` returns. -/
structure Server where
  addr : Bytes
  localID : Bytes
  store : Store
  ring : Hashring
  gossip : Option Handler
  writeConcern : Int
  authToken : Bytes

/-- The text of an error that is a single line of bounded length. -/
structure LineText where
  text : Bytes
  no_lf : 10 ∉ text
  length_le : text.length ≤ 4096

/-- The text of the error that `proto.Marshal` returns for a string that is not UTF-8. -/
def LineText.invalidUtf8 : LineText :=
  ⟨str "string field contains invalid UTF-8", by decide, by decide⟩

/-- The errors of `ReplicateWithQuorum`, with the numbers they print. -/
inductive QuorumError where
  | unavailable (replicas w : Int64)
  | marshal (err : LineText)
  | unreachable (replicas w : Int64)
  | timeout (acks w : Int64)

/-- The text of the error. -/
def QuorumError.text : QuorumError → Bytes
  | .unavailable replicas w =>
      str "quorum not reachable: " ++ itoa replicas.toInt ++ str " replicas available, need " ++
        itoa w.toInt
  | .marshal err => str "marshal replicate request: " ++ err.text
  | .unreachable replicas w =>
      str "quorum not reachable: " ++ itoa replicas.toInt ++ str " replicas reachable, need " ++
        itoa w.toInt
  | .timeout acks w =>
      str "quorum not reached: " ++ itoa acks.toInt ++ str "/" ++ itoa w.toInt ++
        str " ACKs after 2s"

/-- What other nodes and the Go runtime decide during a command. -/
structure Outcomes where
  /-- How `ReplicateWithQuorum` ends once it needs other replicas; `none` is success. -/
  quorum : Bytes → Entry → Int → Option QuorumError
  /-- The order in which a map is ranged over. -/
  order : List (Bytes × Entry) → List (Bytes × Entry)
  order_perm : ∀ l, (order l).Perm l

/-- Every quorum is reached, and maps are ranged over in key order. -/
def Outcomes.success : Outcomes where
  quorum _ _ _ := none
  order l := l
  order_perm _ := .refl _

/-- The check of ownership that every key command makes: the address to redirect to, for a key that
the ring gives to another node than `self`. The empty node ID stands for an empty ring. -/
def redirect (H : Hashing) (ring : Hashring) (self key : Bytes) : Option Bytes :=
  let owner := ring.getNode H key
  if owner.1 ≠ [] ∧ owner.1 ≠ self then some owner.2 else none

/-- A node serves the keys that the ring gives to it, or to the empty ID. -/
theorem redirect_eq_none_iff {H : Hashing} {ring : Hashring} {self key : Bytes} :
    redirect H ring self key = none ↔
      (ring.getNode H key).1 = [] ∨ (ring.getNode H key).1 = self := by
  rw [redirect]
  split
  next hother => simp [hother.1, hother.2]
  next hserved => exact iff_of_true rfl (by rwa [not_and_or, not_not, not_not] at hserved)

theorem redirect_of_other {H : Hashing} {ring : Hashring} {self key owner addr : Bytes}
    (h : ring.getNode H key = (owner, addr)) (hne : owner ≠ []) (hother : owner ≠ self) :
    redirect H ring self key = some addr := by
  rw [redirect, h]
  exact if_pos ⟨hne, hother⟩

/-- The write concern of a command: at least the local write. -/
def quorumOf (writeConcern : Int) : Int :=
  if writeConcern ≤ 0 then 1 else writeConcern

namespace Server

variable (R : Runtime) (O : Outcomes)

/-- `New`. -/
def new (addr nodeID : Bytes) : Server :=
  { addr := addr
    localID := nodeID
    store := Store.new
    ring := (Hashring.new nodeID).addNode R.toHashing nodeID addr 256
    gossip := none
    writeConcern := 1
    authToken := [] }

/-- `SetAdvertiseAddr`. -/
def setAdvertiseAddr (s : Server) (addr : Bytes) : Server :=
  { s with ring := s.ring.addNode R.toHashing s.localID addr 256 }

/-- `nodeID`. -/
def nodeID (s : Server) : Bytes :=
  match s.gossip with
  | some g => g.nodeID
  | none => s.localID

/-- `getBulkString`. -/
def getBulkString : Value → Option Bytes
  | .bulkString (some data) => some data
  | _ => none

/-! ## Key commands -/

/-- The redirect for a key of another node. -/
def moved (s : Server) (key : Bytes) : Option Bytes :=
  redirect R.toHashing s.ring s.nodeID key

/-- The error for a wrong number of arguments. -/
def wrongArity (cmd : Bytes) : Value :=
  .error (str "ERR wrong number of arguments for '" ++ cmd ++ str "' command")

/-- The `MOVED` error. -/
def movedTo (addr : Bytes) : Value :=
  .error (str "MOVED " ++ addr)

/-- The checks of `handleKeyCommand`: the error reply, or the key and the value. -/
def keyArguments (s : Server) (cmd : Bytes) (arity : Nat) (args : List Value) :
    Except Value (Bytes × Bytes) :=
  if args.length ≠ arity then .error (wrongArity cmd)
  else
    match args.head?.bind getBulkString with
    | none => .error (.error (str "ERR invalid key"))
    | some key =>
        -- ownership is checked before the value is looked at
        match s.moved R key with
        | some addr => .error (movedTo addr)
        | none =>
            if arity = 2 then
              match args[1]?.bind getBulkString with
              | none => .error (.error (str "ERR invalid value"))
              | some value => .ok (key, value)
            else .ok (key, [])

/-- `handleKeyCommand`. -/
def handleKeyCommand (s : Server) (cmd : Bytes) (arity : Nat) (args : List Value)
    (fn : Bytes → Bytes → Server × Value) : Server × Value :=
  match s.keyArguments R cmd arity args with
  | .error reply => (s, reply)
  | .ok (key, value) => fn key value

/-- The write concern of the commands of the server. -/
def quorumSize (s : Server) : Int :=
  quorumOf s.writeConcern

/-- `ReplicateWithQuorum` as a command sees it: the local merge, then the outcome of the quorum. -/
def replicateWithQuorum (store : Store) (key : Bytes) (entry : Entry) (w : Int) :
    Store × Option QuorumError :=
  -- the entry is merged again although `SetFrom` or `Del` has just stored it
  let store := (store.setWithVersion key entry).1
  if w ≤ 1 then (store, none) else (store, O.quorum key entry w)

/-- The replication loop of `DEL`: it stops at the first error. -/
def replicateAll (w : Int) : Store → List (Bytes × Entry) → Store × Option QuorumError
  | store, [] => (store, none)
  | store, (key, entry) :: rest =>
      match replicateWithQuorum O store key entry w with
      | (store, some err) => (store, some err)
      | (store, none) => replicateAll w store rest

/-- The error reply of a write whose replication failed. -/
def quorumFailed (err : QuorumError) : Value :=
  .error (str "ERR " ++ err.text)

/-- `SET`, on a key of this node. -/
def execSet (s : Server) (key value : Bytes) : Server × Value :=
  let r := s.store.setFrom key value s.nodeID
  match s.gossip with
  | none => ({ s with store := r.1 }, .ok)
  | some _ =>
      -- a quorum that fails is an error for the client; the local write stays
      match replicateWithQuorum O r.1 key r.2 s.quorumSize with
      | (store, some err) => ({ s with store := store }, quorumFailed err)
      | (store, none) => ({ s with store := store }, .ok)

/-- `GET`, on a key of this node. -/
def execGet (s : Server) (key : Bytes) : Server × Value :=
  match s.store.get key with
  | none => (s, nullBulkString)
  | some (val, _) => (s, newBulkString val)

/-- `DEL`, on keys of this node. -/
def execDel (s : Server) (keys : List Bytes) : Server × Value :=
  let r := s.store.del s.nodeID keys
  match s.gossip with
  | none => ({ s with store := r.1 }, .integer (Int64.ofInt r.2.1))
  | some _ =>
      match replicateAll O s.quorumSize r.1 (O.order r.2.2.toList) with
      | (store, some err) => ({ s with store := store }, quorumFailed err)
      | (store, none) => ({ s with store := store }, .integer (Int64.ofInt r.2.1))

/-- The checks of `DEL`: the error reply, or the keys. All keys are checked before any is
deleted. -/
def delArguments (s : Server) (args : List Value) : Except Value (List Bytes) :=
  if args.length < 1 then .error (wrongArity (str "DEL"))
  else
    -- two loops in the source: a malformed key is reported before a foreign one
    match args.mapM getBulkString with
    | none => .error (.error (str "ERR invalid key"))
    | some keys =>
        match keys.findSome? (s.moved R) with
        | some addr => .error (movedTo addr)
        | none => .ok keys

/-- The `DEL` command. -/
def handleDel (s : Server) (args : List Value) : Server × Value :=
  match s.delArguments R args with
  | .error reply => (s, reply)
  | .ok keys => s.execDel O keys

end Server

end Hapartition
