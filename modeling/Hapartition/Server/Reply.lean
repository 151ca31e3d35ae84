import Hapartition.Resp.Framing
import Hapartition.Server.Dispatch

/-!
# One request, one reply

Every request is answered by one value. Whether its bytes are one value for the client depends on
the texts that the reply embeds: a command name, a subcommand or a node's address goes into an error
line, and stored or configured strings go into bulk strings.

- `ReplyFits`: those texts fit where the reply puts them, by request and server state.
- `oneReply_handle_iff`: the reply is one value exactly when they do.
- `readValues_serve`: pipelined requests whose texts fit are answered by a stream that reads back as
  one value for each.
-/

set_option autoImplicit false

namespace Hapartition

open Lib

namespace Server

variable (R : Runtime)

/-! ## The condition -/

/-- What a bulk string may hold. -/
def FitsBulk (data : Bytes) : Prop :=
  data.length ≤ 64 * 2 ^ 20

/-- The address of a redirect fits behind `MOVED`. -/
def MovedFits (addr : Bytes) : Prop :=
  10 ∉ addr ∧ addr.length ≤ 65528

/-- The redirect of a key, if there is one, fits. -/
def KeyFits (s : Server) (key : Bytes) : Prop :=
  ∀ addr, s.moved R key = some addr → MovedFits addr

/-- The texts in the reply to a `CLUSTER` command fit. -/
def ClusterFits (s : Server) (args : List Value) : Prop :=
  ∀ sub, args.head?.bind getBulkString = some sub →
    match Subcommand.ofName (toUpper R.upper sub) with
    | .slots => ∀ sr ∈ s.ring.getSlotRanges R.toHashing,
        FitsBulk (hostPort sr.node.address).1 ∧ FitsBulk sr.node.nodeID
    | .nodes => FitsBulk (s.nodesText (s.ring.getSlotRanges R.toHashing))
    | .info => True
    | .keyslot => True
    | .unknown => 10 ∉ sub ∧ sub.length ≤ 65501

/-- The texts in the reply to a command fit. -/
def CommandFits (s : Server) (cmd : Bytes) (args : List Value) : Prop :=
  match CommandName.ofName cmd with
  | .ping => True
  | .info => FitsBulk s.buildInfo
  | .set => args.length = 2 → ∀ key, args.head?.bind getBulkString = some key → s.KeyFits R key
  | .get => args.length = 1 → ∀ key, args.head?.bind getBulkString = some key →
      s.KeyFits R key ∧
        (s.moved R key = none → ∀ val version, s.store.get key = some (val, version) → FitsBulk val)
  | .del => ∀ keys, args.mapM getBulkString = some keys →
      ∀ addr, keys.findSome? (s.moved R) = some addr → MovedFits addr
  | .nodeJoin => True
  | .nodeList => ∀ g, s.gossip = some g →
      g.members.length ≤ 2 ^ 20 ∧ ∀ m ∈ g.members, FitsBulk m.name ∧ FitsBulk m.redisAddr
  | .cluster => s.ClusterFits R args
  | .nodePing => True
  | .nodeLeave => True
  | .unknown => 10 ∉ cmd ∧ cmd.length ≤ 65512

/-- The texts in the reply to a value fit: only a dispatched command embeds any. -/
def ReplyFits (s : Server) (authenticated : Bool) (v : Value) : Prop :=
  ∀ name args, classify R v = .command name args → name ≠ str "AUTH" → authenticated = true →
    s.CommandFits R name args

/-! ## Fixed replies -/

theorem oneReply_ok : OneReply .ok :=
  oneReply_of_encodable (v := .ok) ⟨by decide, by decide⟩

theorem oneReply_integer (n : Int64) : OneReply (.integer n) :=
  oneReply_of_encodable (v := .integer n) trivial

theorem oneReply_null : OneReply nullBulkString :=
  oneReply_of_encodable (v := nullBulkString) trivial

/-- A line around a text fits when the text does, in what the rest of the line leaves. -/
theorem fitsLine_around_iff (before text after : Bytes) {n : Nat} (hb : 10 ∉ before)
    (ha : 10 ∉ after) (hn : n + (before.length + after.length) = 65534) :
    FitsLine (before ++ text ++ after) ↔ 10 ∉ text ∧ text.length ≤ n := by
  simp only [FitsLine, List.mem_append, hb, ha, false_or, or_false, List.length_append]
  apply and_congr_right
  intro _
  omega

theorem oneReply_movedTo_iff {addr : Bytes} : OneReply (movedTo addr) ↔ MovedFits addr := by
  rw [movedTo, oneReply_error_iff]
  have h := fitsLine_around_iff (str "MOVED ") addr [] (n := 65528) (by decide) (by decide)
    (by decide)
  rwa [List.append_nil] at h

/-- A text without a line feed, of bounded length. -/
def ShortLine (n : Nat) (s : Bytes) : Prop :=
  10 ∉ s ∧ s.length ≤ n

instance (n : Nat) (s : Bytes) : Decidable (ShortLine n s) :=
  inferInstanceAs (Decidable (_ ∧ _))

theorem ShortLine.append {m n : Nat} {s t : Bytes} (hs : ShortLine m s) (ht : ShortLine n t) :
    ShortLine (m + n) (s ++ t) := by
  refine ⟨fun h => ?_, ?_⟩
  · rcases List.mem_append.1 h with h | h
    · exact hs.1 h
    · exact ht.1 h
  · rw [List.length_append]
    exact Nat.add_le_add hs.2 ht.2

theorem shortLine_itoa (n : Int64) : ShortLine 20 (itoa n.toInt) := by
  refine ⟨lf_notMem_itoa _, length_itoa_le (e := 19) (by decide) ?_⟩
  have := n.toInt_lt
  have := n.le_toInt
  omega

theorem ShortLine.mono {m n : Nat} {s : Bytes} (h : ShortLine m s) (hn : m ≤ n) : ShortLine n s :=
  ⟨h.1, h.2.trans hn⟩

theorem shortLine_text (err : QuorumError) : ShortLine 4200 err.text := by
  cases err with
  | unavailable replicas w =>
      have h : ShortLine (40 + 20 + 40 + 20) (QuorumError.unavailable replicas w).text :=
        .append (.append (.append (by decide) (shortLine_itoa replicas)) (by decide))
          (shortLine_itoa w)
      exact h.mono (by decide)
  | marshal err =>
      have h : ShortLine (40 + 4096) (QuorumError.marshal err).text :=
        .append (by decide) ⟨err.no_lf, err.length_le⟩
      exact h.mono (by decide)
  | unreachable replicas w =>
      have h : ShortLine (40 + 20 + 40 + 20) (QuorumError.unreachable replicas w).text :=
        .append (.append (.append (by decide) (shortLine_itoa replicas)) (by decide))
          (shortLine_itoa w)
      exact h.mono (by decide)
  | timeout acks w =>
      have h : ShortLine (40 + 20 + 40 + 20 + 40) (QuorumError.timeout acks w).text :=
        .append (.append (.append (.append (by decide) (shortLine_itoa acks)) (by decide))
          (shortLine_itoa w)) (by decide)
      exact h.mono (by decide)

theorem oneReply_quorumFailed (err : QuorumError) : OneReply (quorumFailed err) := by
  have hpre : ShortLine 4 (str "ERR ") := by decide
  exact oneReply_error_iff.2 ((hpre.append (shortLine_text err)).mono (by decide))

/-! ## Key commands -/

variable {R} {s : Server} {O : Outcomes}

theorem keyFits_iff {key addr : Bytes} (h : s.moved R key = some addr) :
    s.KeyFits R key ↔ MovedFits addr := by
  refine ⟨fun hk => hk addr h, ?_⟩
  intro hm a ha
  obtain rfl := Option.some.inj (h.symm.trans ha)
  exact hm

theorem keyFits_of_none {key : Bytes} (h : s.moved R key = none) : s.KeyFits R key := fun a ha => by
  rw [h] at ha
  cases ha

/-- The reply of a key command, when the replies of its execution are known to depend on the key
by `Q` alone. -/
theorem oneReply_handleKeyCommand_iff {cmd : Bytes} {arity : Nat} {args : List Value}
    {fn : Bytes → Bytes → Server × Value} {Q : Bytes → Prop} (hcmd : OneReply (wrongArity cmd))
    (hfn : ∀ key value, OneReply (fn key value).2 ↔ Q key) (hQ : arity = 2 → ∀ key, Q key) :
    OneReply (s.handleKeyCommand R cmd arity args fn).2 ↔
      (args.length = arity → ∀ key, args.head?.bind getBulkString = some key →
        s.KeyFits R key ∧ (s.moved R key = none → Q key)) := by
  unfold handleKeyCommand keyArguments
  by_cases hlen : args.length = arity
  · rw [if_neg (not_not.2 hlen)]
    cases hkey : args.head?.bind getBulkString with
    | none =>
        have hreply : OneReply (.error (str "ERR invalid key")) := oneReply_error_iff.2 (by decide)
        simpa using hreply
    | some key =>
        simp only [hlen, forall_const, Option.some.injEq, forall_eq']
        cases hmoved : s.moved R key with
        | some addr =>
            simp only [reduceCtorEq, false_imp_iff, and_true, keyFits_iff hmoved]
            exact oneReply_movedTo_iff
        | none =>
            simp only [keyFits_of_none hmoved, true_and, forall_const]
            -- only `SET` has a value to check, and all its replies fit
            by_cases harity : arity = 2
            · rw [if_pos harity]
              have hreply : OneReply (.error (str "ERR invalid value")) :=
                oneReply_error_iff.2 (by decide)
              cases args[1]?.bind getBulkString with
              | none => exact iff_of_true hreply (hQ harity key)
              | some value => exact hfn key value
            · rw [if_neg harity]
              exact hfn key []
  · rw [if_pos hlen]
    exact iff_of_true hcmd fun h => absurd h hlen

theorem oneReply_execSet (key value : Bytes) : OneReply (s.execSet O key value).2 := by
  rw [execSet_snd]
  cases s.setError O key value with
  | none => exact oneReply_ok
  | some err => exact oneReply_quorumFailed err

theorem oneReply_execGet_iff (key : Bytes) :
    OneReply (s.execGet key).2 ↔
      ∀ val version, s.store.get key = some (val, version) → FitsBulk val := by
  rw [execGet_eq]
  cases hget : s.store.get key with
  | none => exact iff_of_true oneReply_null (by simp)
  | some p =>
      obtain ⟨val, version⟩ := p
      simp only [Option.some.injEq, Prod.mk.injEq, and_imp]
      refine oneReply_bulk_iff.trans ⟨fun h _ _ hval _ => hval ▸ h, fun h => h val version rfl rfl⟩

theorem oneReply_execDel (keys : List Bytes) : OneReply (s.execDel O keys).2 := by
  rw [execDel_snd]
  cases s.delError O keys with
  | none => exact oneReply_integer _
  | some err => exact oneReply_quorumFailed err

theorem oneReply_handleDel_iff (args : List Value) :
    OneReply (s.handleDel R O args).2 ↔
      ∀ keys, args.mapM getBulkString = some keys →
        ∀ addr, keys.findSome? (s.moved R) = some addr → MovedFits addr := by
  unfold handleDel delArguments
  by_cases hlen : args.length < 1
  · rw [if_pos hlen]
    obtain rfl := List.length_eq_zero_iff.1 (by omega : args.length = 0)
    have hreply : OneReply (wrongArity (str "DEL")) := oneReply_error_iff.2 (by decide)
    simpa using hreply
  · rw [if_neg hlen]
    cases hkeys : args.mapM getBulkString with
    | none =>
        have hreply : OneReply (.error (str "ERR invalid key")) := oneReply_error_iff.2 (by decide)
        simpa using hreply
    | some keys =>
        simp only [Option.some.injEq, forall_eq']
        cases hmoved : keys.findSome? (s.moved R) with
        | none => simpa using oneReply_execDel keys
        | some addr => simpa using oneReply_movedTo_iff

/-! ## Node and cluster commands -/

theorem encodable_bulk_iff {room : Nat} {data : Bytes} :
    Encodable room (newBulkString data) ↔ FitsBulk data := by
  cases room <;> exact Iff.rfl

theorem framed_memberEntry (m : MemberInfo) : Framed (memberEntry m) :=
  .array (by simp [newBulkString, Framed.bulk])

theorem oneReply_handleNodeList_iff :
    OneReply s.handleNodeList ↔ ∀ g, s.gossip = some g →
      g.members.length ≤ 2 ^ 20 ∧ ∀ m ∈ g.members, FitsBulk m.name ∧ FitsBulk m.redisAddr := by
  unfold handleNodeList
  cases s.gossip with
  | none =>
      have hreply : OneReply (.error (str "ERR gossip not initialized")) :=
        oneReply_error_iff.2 (by decide)
      simpa using hreply
  | some g =>
      have hhealthy : FitsBulk (str "healthy") := by
        show (str "healthy").length ≤ _
        decide
      have hentry : ∀ m, Encodable 31 (memberEntry m) ↔ FitsBulk m.name ∧ FitsBulk m.redisAddr := by
        intro m
        simp only [memberEntry, Encodable, List.forall_mem_cons, encodable_bulk_iff]
        simp [hhealthy]
      simp only [Option.some.injEq, forall_eq']
      rw [oneReply_framed_iff (.array (by simpa using fun m _ => framed_memberEntry m))]
      simp only [Encodable, List.length_map, List.forall_mem_map, hentry]

theorem framed_slotEntry (sr : SlotRange) : Framed (slotEntry sr) :=
  .array (by
    simp only [List.forall_mem_cons]
    exact ⟨.integer _, .integer _, .array (by simp [newBulkString, Framed.bulk, Framed.integer]),
      by simp⟩)

theorem encodable_slotEntry_iff (sr : SlotRange) :
    Encodable 31 (slotEntry sr) ↔
      FitsBulk (hostPort sr.node.address).1 ∧ FitsBulk sr.node.nodeID := by
  simp only [slotEntry, Encodable, List.forall_mem_cons, encodable_bulk_iff]
  -- an empty node ID is replaced by the host, which is in the condition anyway
  by_cases hid : sr.node.nodeID = []
  · have hempty : FitsBulk [] := Nat.zero_le _
    simp [hid, hempty]
  · simp [hid]

theorem oneReply_handleClusterSlots_iff :
    OneReply (s.handleClusterSlots R) ↔ ∀ sr ∈ s.ring.getSlotRanges R.toHashing,
      FitsBulk (hostPort sr.node.address).1 ∧ FitsBulk sr.node.nodeID := by
  unfold handleClusterSlots
  have hlen := Hashring.length_getSlotRanges_le (H := R.toHashing) s.ring
  generalize s.ring.getSlotRanges R.toHashing = ranges at hlen
  by_cases hempty : ranges.length = 0
  · obtain rfl := List.length_eq_zero_iff.1 hempty
    have hreply : OneReply (.error (str "ERR cluster is empty")) := oneReply_error_iff.2 (by decide)
    simpa using hreply
  · have hmax : ranges.length ≤ 2 ^ 20 := hlen.trans (by decide)
    simp only [if_neg hempty]
    rw [oneReply_framed_iff (.array (by simpa using fun sr _ => framed_slotEntry sr))]
    simp only [Encodable, List.length_map, hmax, true_and, List.forall_mem_map,
      encodable_slotEntry_iff]

theorem oneReply_handleClusterNodes_iff :
    OneReply (s.handleClusterNodes R) ↔
      FitsBulk (s.nodesText (s.ring.getSlotRanges R.toHashing)) := by
  unfold handleClusterNodes
  generalize s.ring.getSlotRanges R.toHashing = ranges
  by_cases hempty : ranges.length = 0
  · obtain rfl := List.length_eq_zero_iff.1 hempty
    exact iff_of_true oneReply_null (Nat.zero_le _)
  · simp only [if_neg hempty]
    exact oneReply_bulk_iff

theorem oneReply_handleClusterInfo : OneReply (s.handleClusterInfo R) := by
  unfold handleClusterInfo
  have hlen := Hashring.length_getSlotRanges_le (H := R.toHashing) s.ring
  generalize s.ring.getSlotRanges R.toHashing = ranges at hlen
  dsimp only
  -- the text is of fixed length but for two numerals, which count nodes that own slots
  have hcount : (distinctOn (fun sr : SlotRange => sr.node.nodeID) ranges).length ≤ 16384 :=
    (distinctOn_sublist _).length_le.trans hlen
  generalize (distinctOn (fun sr : SlotRange => sr.node.nodeID) ranges).length = n at hcount
  have hn : (itoa n).length ≤ 20 :=
    length_itoa_le (e := 19) (by decide) (by rw [Int.natAbs_natCast]; omega)
  have happ : ∀ {a b : Nat} {l l' : Bytes}, l.length ≤ a → l'.length ≤ b →
      (l ++ l').length ≤ a + b := fun hl hl' => by
    rw [List.length_append]
    exact Nat.add_le_add hl hl'
  refine oneReply_bulk_iff.2 (Nat.le_trans (m := 128 + 128 + 20 + 128 + 20 + 128) ?_ (by decide))
  exact happ (happ (happ (happ (happ (by decide) (by decide)) hn) (by decide)) hn) (by decide)

theorem oneReply_handleCluster_iff (args : List Value) :
    OneReply (s.handleCluster R args) ↔ s.ClusterFits R args := by
  unfold handleCluster ClusterFits
  by_cases hlen : args.length < 1
  · rw [if_pos hlen]
    obtain rfl := List.length_eq_zero_iff.1 (by omega : args.length = 0)
    have hreply : OneReply (wrongArity (str "CLUSTER")) := oneReply_error_iff.2 (by decide)
    simpa using hreply
  · rw [if_neg hlen]
    cases hsub : args.head?.bind getBulkString with
    | none =>
        have hreply : OneReply (.error (str "ERR invalid CLUSTER subcommand")) :=
          oneReply_error_iff.2 (by decide)
        simpa using hreply
    | some sub =>
        simp only [Option.some.injEq, forall_eq']
        cases Subcommand.ofName (toUpper R.upper sub) with
        | slots => exact oneReply_handleClusterSlots_iff
        | nodes => exact oneReply_handleClusterNodes_iff
        | info => simpa using oneReply_handleClusterInfo
        | keyslot =>
            have hreply : OneReply (wrongArity (str "CLUSTER KEYSLOT")) :=
              oneReply_error_iff.2 (by decide)
            have hkey : OneReply (.error (str "ERR invalid key")) :=
              oneReply_error_iff.2 (by decide)
            simp only [iff_true]
            split
            · exact hreply
            · cases args[1]?.bind getBulkString with
              | none => exact hkey
              | some key => exact oneReply_integer _
        | unknown =>
            exact oneReply_error_iff.trans (fitsLine_around_iff _ sub _ (by decide) (by decide)
              (by decide))

theorem oneReply_handleNodeJoin (args : List Value) : OneReply (s.handleNodeJoin R args).2 := by
  have harity : OneReply (wrongArity (str "NODE.JOIN")) := oneReply_error_iff.2 (by decide)
  have hid : OneReply (.error (str "ERR invalid node-id")) := oneReply_error_iff.2 (by decide)
  have haddr : OneReply (.error (str "ERR invalid address")) := oneReply_error_iff.2 (by decide)
  unfold handleNodeJoin
  split
  · exact harity
  · cases args.head?.bind getBulkString with
    | none => exact hid
    | some nodeID =>
        cases args[1]?.bind getBulkString with
        | none => exact haddr
        | some address => exact oneReply_ok

/-! ## All requests -/

theorem oneReply_dispatch_iff (cmd : Bytes) (args : List Value) :
    OneReply (s.dispatch R O cmd args).2 ↔ s.CommandFits R cmd args := by
  have hset : OneReply (wrongArity (str "SET")) := oneReply_error_iff.2 (by decide)
  have hget : OneReply (wrongArity (str "GET")) := oneReply_error_iff.2 (by decide)
  unfold dispatch CommandFits
  cases CommandName.ofName cmd with
  | ping => exact iff_of_true (oneReply_of_encodable (v := .pong) ⟨by decide, by decide⟩) trivial
  | info => exact oneReply_bulk_iff
  | set =>
      refine (oneReply_handleKeyCommand_iff (Q := fun _ => True) hset
        (fun key value => iff_of_true (oneReply_execSet key value) trivial)
        fun _ _ => trivial).trans ?_
      simp only [implies_true, and_true]
  | get =>
      exact oneReply_handleKeyCommand_iff hget (fun key _ => oneReply_execGet_iff key) (by simp)
  | del => exact oneReply_handleDel_iff args
  | nodeJoin => exact iff_of_true (oneReply_handleNodeJoin args) trivial
  | nodeList => exact oneReply_handleNodeList_iff
  | cluster => exact oneReply_handleCluster_iff args
  | nodePing => exact iff_of_true (oneReply_error_iff.2 (by decide)) trivial
  | nodeLeave => exact iff_of_true (oneReply_error_iff.2 (by decide)) trivial
  | unknown =>
      exact oneReply_error_iff.trans (fitsLine_around_iff _ cmd _ (by decide) (by decide)
        (by decide))

theorem fitsLine_of_classify {v : Value} {reply : Bytes} (h : classify R v = .malformed reply) :
    FitsLine reply := by
  unfold classify at h
  split at h
  · obtain rfl := Request.malformed.inj h
    decide
  · cases h
  · obtain rfl := Request.malformed.inj h
    decide
  · obtain rfl := Request.malformed.inj h
    decide

theorem oneReply_handleAuth (authenticated : Bool) (args : List Value) :
    OneReply (s.handleAuth R authenticated args).2 := by
  have hnone : OneReply (.error (str "ERR AUTH called without any password configured")) :=
    oneReply_error_iff.2 (by decide)
  have harity : OneReply (wrongArity (str "AUTH")) := oneReply_error_iff.2 (by decide)
  have hwrong : OneReply
      (.error (str "WRONGPASS invalid username-password pair or user is disabled.")) :=
    oneReply_error_iff.2 (by decide)
  unfold handleAuth
  split
  · exact hnone
  split
  · exact harity
  cases args.head?.bind getBulkString with
  | none => exact hwrong
  | some token =>
      simp only
      split
      · exact hwrong
      · exact oneReply_ok

/-- The reply to a value is one value for the client exactly when the texts it embeds fit. -/
theorem oneReply_handle_iff (authenticated : Bool) (v : Value) :
    OneReply (s.handle R O authenticated v).2.2 ↔ s.ReplyFits R authenticated v := by
  unfold handle ReplyFits
  cases hv : classify R v with
  | malformed reply =>
      apply iff_of_true (oneReply_error_iff.2 (fitsLine_of_classify hv))
      intro name args h
      cases h
  | command name args =>
      have hall : (∀ name' args', Request.command name args = .command name' args' →
          name' ≠ str "AUTH" → authenticated = true → s.CommandFits R name' args') ↔
          (name ≠ str "AUTH" → authenticated = true → s.CommandFits R name args) :=
        ⟨fun h => h name args rfl, by rintro h _ _ ⟨⟩; exact h⟩
      rw [hall]
      dsimp only
      by_cases hauth : name = str "AUTH"
      · rw [if_pos hauth]
        exact iff_of_true (oneReply_handleAuth authenticated args) fun h => absurd hauth h
      · rw [if_neg hauth]
        cases authenticated with
        | false =>
            have hreply : OneReply (.error (str "NOAUTH Authentication required.")) :=
              oneReply_error_iff.2 (by decide)
            simpa using hreply
        | true => simpa [hauth] using oneReply_dispatch_iff name args

/-- Every reply of a connection fits, in the state in which it is given. -/
def AllFit (R : Runtime) : Server → Bool → List (Outcomes × Value) → Prop
  | _, _, [] => True
  | s, authenticated, (O, v) :: rest =>
      s.ReplyFits R authenticated v ∧
        AllFit R (s.handle R O authenticated v).1 (s.handle R O authenticated v).2.1 rest

theorem oneReply_serve {authenticated : Bool} {reqs : List (Outcomes × Value)}
    (h : AllFit R s authenticated reqs) : ∀ v ∈ (s.serve R authenticated reqs).2, OneReply v := by
  induction reqs generalizing s authenticated with
  | nil => simp [serve]
  | cons req rest ih =>
      obtain ⟨O, v⟩ := req
      intro w hw
      rcases List.mem_cons.1 hw with rfl | hw
      · exact (oneReply_handle_iff authenticated v).2 h.1
      · exact ih h.2 w hw

theorem length_serve (s : Server) (authenticated : Bool) (reqs : List (Outcomes × Value)) :
    (s.serve R authenticated reqs).2.length = reqs.length := by
  induction reqs generalizing s authenticated with
  | nil => rfl
  | cons req rest ih => rw [serve, List.length_cons, List.length_cons, ih]

/-- One request, one reply: the bytes written for a value parse as exactly one value if and only if
the texts embedded in the reply fit, and the replies to pipelined requests whose texts fit parse as
one value for each request, with nothing left over. -/
theorem one_reply_iff_fits (R : Runtime) :
    (∀ (s : Server) (O : Outcomes) (authenticated : Bool) (v : Value),
      OneReply (s.handle R O authenticated v).2.2 ↔ s.ReplyFits R authenticated v) ∧
    ∀ (s : Server) (authenticated : Bool) (reqs : List (Outcomes × Value)),
      AllFit R s authenticated reqs →
        ∃ b ws, respAll (s.serve R authenticated reqs).2 = some b ∧ ws.length = reqs.length ∧
          readValues reqs.length b = .ok (ws, []) := by
  refine ⟨fun s O authenticated v => oneReply_handle_iff authenticated v,
    fun s authenticated reqs h => ?_⟩
  obtain ⟨b, ws, hb, hlen, hread⟩ := readValues_of_oneReply (oneReply_serve h)
  rw [length_serve] at hlen hread
  exact ⟨b, ws, hb, hlen, hread⟩

/-- Two pipelined requests of an ordinary client, one of them unknown. -/
def plainRequests : List (Outcomes × Value) :=
  [(.success, .array [newBulkString (str "PING")]), (.success, .array [newBulkString (str "FOO")])]

theorem one_reply_iff_fits_plain :
    ∃ b ws, respAll ((Server.new .ascii (str ":6379") (str "n1")).serve .ascii true plainRequests).2
        = some b ∧ ws.length = 2 ∧ readValues 2 b = .ok (ws, []) := by
  refine (one_reply_iff_fits .ascii).2 _ true plainRequests ⟨?_, ?_, trivial⟩
  · intro name args h _ _
    obtain ⟨rfl, rfl⟩ := Request.command.inj h
    trivial
  · intro name args h _ _
    obtain ⟨rfl, rfl⟩ := Request.command.inj h
    show 10 ∉ toUpper id (str "FOO") ∧ (toUpper id (str "FOO")).length ≤ 65512
    decide

/-- A request for an unknown command whose name holds a line break. -/
def splitRequest : Bytes :=
  str "*1\r\n$6\r\nX\r\n+OK\r\n"

/-- The reader hands the request to a new server, and the one reply written is two values. -/
theorem one_request_two_replies :
    ∃ v b, readValue splitRequest = .ok (v, []) ∧
      ((Server.new .ascii (str ":6379") (str "n1")).handle .ascii .success true v).2.2.resp
        = some b ∧
      readValues 2 b =
        .ok ([.error (str "ERR unknown command 'X"), .simpleString (str "OK'")], []) ∧
      ¬ OneReply
        ((Server.new .ascii (str ":6379") (str "n1")).handle .ascii .success true v).2.2 := by
  refine ⟨.array [newBulkString (str "X\r\n+OK")],
    str "-ERR unknown command 'X\r\n+OK'\r\n", rfl, rfl, rfl, ?_⟩
  rw [oneReply_handle_iff]
  intro h
  have hfits : 10 ∉ str "X\r\n+OK" ∧ (str "X\r\n+OK").length ≤ 65512 :=
    h (str "X\r\n+OK") [] rfl (by decide) rfl
  exact absurd hfits.1 (by decide)

end Server

end Hapartition
