import Hapartition.Server.Writes

/-!
# Reading back an acknowledged write

`SET` replies `OK` without asking whether `SetFrom` stored the entry. It did whenever the allocated
version is above the stored ones, which holds as long as no allocation wraps the 64-bit clock
(`set_readable_iff`). A replicated entry with the greatest version takes the clock to its maximum;
the next local version wraps, and the write is lost although it is acknowledged
(`acknowledged_set_lost`).
-/

set_option autoImplicit false

namespace Hapartition

open Lib

namespace Server

variable {R : Runtime} {O : Outcomes} {s : Server}

/-- The arguments of `SET key value`. -/
def setArgs (key value : Bytes) : List Value :=
  [newBulkString key, newBulkString value]

/-- The arguments of `GET key`. -/
def getArgs (key : Bytes) : List Value :=
  [newBulkString key]

theorem dispatch_set (key value : Bytes) :
    s.dispatch R O (str "SET") (setArgs key value) =
      match s.moved R key with
      | some addr => (s, movedTo addr)
      | none => s.execSet O key value := by
  have hname : CommandName.ofName (str "SET") = .set := by decide
  unfold dispatch
  rw [hname]
  show s.handleKeyCommand R (str "SET") 2 (setArgs key value) (s.execSet O) = _
  unfold handleKeyCommand keyArguments
  cases hmoved : s.moved R key <;> simp [setArgs, newBulkString, getBulkString, hmoved]

theorem dispatch_get (key : Bytes) :
    s.dispatch R O (str "GET") (getArgs key) =
      match s.moved R key with
      | some addr => (s, movedTo addr)
      | none => s.execGet key := by
  have hname : CommandName.ofName (str "GET") = .get := by decide
  unfold dispatch
  rw [hname]
  show s.handleKeyCommand R (str "GET") 1 (getArgs key) (fun key _ => s.execGet key) = _
  unfold handleKeyCommand keyArguments
  cases hmoved : s.moved R key <;> simp [getArgs, newBulkString, getBulkString, hmoved]

theorem delArguments_of_mapM {args : List Value} {keys : List Bytes}
    (hmoved : ∀ key, s.moved R key = none) (hne : args ≠ [])
    (hkeys : args.mapM getBulkString = some keys) :
    s.delArguments R args = .ok keys := by
  have hlen : ¬ args.length < 1 := by
    rw [Nat.lt_one_iff, List.length_eq_zero_iff]
    exact hne
  have hnone : keys.findSome? (s.moved R) = none :=
    List.findSome?_eq_none_iff.2 fun key _ => hmoved key
  rw [delArguments, if_neg hlen]
  simp only [hkeys, hnone]

/-- A `SET` that replies `OK` was executed here. -/
theorem moved_eq_none_of_ok {key value : Bytes}
    (h : (s.dispatch R O (str "SET") (setArgs key value)).2 = .ok) : s.moved R key = none := by
  rw [dispatch_set] at h
  cases hmoved : s.moved R key with
  | none => rfl
  | some addr =>
      rw [hmoved] at h
      cases h

/-- The reply to the `GET` that follows a `SET` is the register after the merge. -/
theorem get_after_set {O' : Outcomes} {key value : Bytes}
    (h : (s.dispatch R O (str "SET") (setArgs key value)).2 = .ok) :
    ((s.dispatch R O (str "SET") (setArgs key value)).1.dispatch R O' (str "GET") (getArgs key)).2 =
      match (s.store.setFrom key value s.nodeID).1.get key with
      | none => nullBulkString
      | some (val, _) => newBulkString val := by
  have hmoved := moved_eq_none_of_ok h
  have hset : (s.dispatch R O (str "SET") (setArgs key value)).1 =
      { s with store := (s.store.setFrom key value s.nodeID).1 } := by
    rw [dispatch_set, hmoved]
    exact execSet_fst key value
  -- the write left the ring alone, so the `GET` is executed here as well
  have hmoved' : ({ s with store := (s.store.setFrom key value s.nodeID).1 } : Server).moved R key
      = none := hmoved
  rw [hset, dispatch_get, hmoved']
  show (execGet _ key).2 = _
  rw [execGet_eq]
  cases (s.store.setFrom key value s.nodeID).1.get key <;> rfl

/-- The value of a live entry, as `GET` replies it. -/
theorem reply_eq_iff {o : Option Entry} {store : Store} {key value : Bytes}
    (ho : store.tree[key]? = o) :
    (match store.get key with
      | none => nullBulkString
      | some (val, _) => newBulkString val) = newBulkString value ↔
      ∃ e, o = some e ∧ e.deleted = false ∧ e.value = value := by
  unfold Store.get
  rw [ho]
  cases o with
  | none => simp [nullBulkString, newBulkString]
  | some e =>
      cases hd : e.deleted with
      | true => simp [hd, nullBulkString, newBulkString]
      | false => simp [hd, newBulkString]

/-- The entry that `SET` allocates in a state, with the clock's wrapping increment. -/
def setEntry (s : Server) (value : Bytes) : Entry :=
  ⟨value, s.store.clock + 1, s.nodeID, false⟩

/-- The stored entry does not hide a write of `value`: it is not newer than the entry allocated, or
it shows the same value. -/
def Unhidden (s : Server) (key value : Bytes) : Prop :=
  ∀ old : Entry, s.store.tree[key]? = some old →
    old ≤ s.setEntry value ∨ (old.deleted = false ∧ old.value = value)

theorem get_after_set_iff {O' : Outcomes} {key value : Bytes}
    (h : (s.dispatch R O (str "SET") (setArgs key value)).2 = .ok) :
    ((s.dispatch R O (str "SET") (setArgs key value)).1.dispatch R O' (str "GET") (getArgs key)).2
      = newBulkString value ↔ s.Unhidden key value := by
  have htree : (s.store.setFrom key value s.nodeID).1.tree[key]? =
      merge s.store.tree[key]? (s.setEntry value) := by
    rw [Store.getElem?_setFrom, if_pos rfl, Store.setFrom_snd]
    rfl
  rw [get_after_set h, reply_eq_iff htree]
  unfold Unhidden
  cases hold : s.store.tree[key]? with
  | none => simp [merge, setEntry]
  | some old =>
      simp only [Option.some.injEq, forall_eq', merge]
      by_cases hlt : old < s.setEntry value
      · -- the new entry is stored
        rw [if_pos hlt]
        exact iff_of_true ⟨_, rfl, rfl, rfl⟩ (.inl hlt.le)
      · -- the old entry stays, and shows the value only if it does so already
        rw [if_neg hlt]
        simp only [Option.some.injEq, exists_eq_left']
        refine ⟨.inr, ?_⟩
        rintro (hle | hlive)
        · rw [eq_of_le_of_not_lt hle hlt]
          exact ⟨rfl, rfl⟩
        · exact hlive

/-- A version above the stored ones hides nothing. -/
theorem unhidden_of_noWrap {key value : Bytes} (hs : s.store.ClockOk)
    (hw : s.store.clock.toInt + 1 ≤ Int64.maxValue.toInt) : s.Unhidden key value := by
  intro old hold
  refine .inl (Entry.lt_of_version_lt ?_).le
  exact (hs key old hold).trans_lt (Store.clock_lt_add_one hw)

theorem write_set {key value : Bytes} (h : s.moved R key = none) :
    s.write R (str "SET") (setArgs key value) = some (.setFrom key value s.nodeID) := by
  have hname : CommandName.ofName (str "SET") = .set := by decide
  unfold write
  rw [hname]
  simp [keyArguments, setArgs, newBulkString, getBulkString, h]

theorem write_del {args : List Value} {keys : List Bytes} (h : s.delArguments R args = .ok keys) :
    s.write R (str "DEL") args = some (.del s.nodeID keys) := by
  have hname : CommandName.ofName (str "DEL") = .del := by decide
  rw [write, hname]
  simp only [h]

theorem dispatch_del_fst {args : List Value} {keys : List Bytes}
    (h : s.delArguments R args = .ok keys) :
    (s.dispatch R O (str "DEL") args).1 =
      { s with store := (s.store.del s.nodeID keys).1 } := by
  have hname : CommandName.ofName (str "DEL") = .del := by decide
  rw [dispatch, hname]
  show (s.handleDel R O args).1 = _
  rw [handleDel, h]
  exact execDel_fst keys

/-- A `SET` answered `OK` is read back by the next `GET` if and only if no newer entry hides it. In
every run from an empty store in which no version allocation wraps the clock, none does. -/
theorem set_readable_iff (R : Runtime) :
    (∀ (s : Server) (O O' : Outcomes) (key value : Bytes),
      (s.dispatch R O (str "SET") (setArgs key value)).2 = .ok →
      (((s.dispatch R O (str "SET") (setArgs key value)).1.dispatch R O' (str "GET")
          (getArgs key)).2 = newBulkString value ↔ s.Unhidden key value)) ∧
    ∀ (s₀ s : Server) (evs : List Event) (O O' : Outcomes) (key value : Bytes),
      s₀.store = Store.new → Reaches R s₀ evs s →
      (Event.command O (str "SET") (setArgs key value)).NoWrap R s →
      (s.dispatch R O (str "SET") (setArgs key value)).2 = .ok →
      ((s.dispatch R O (str "SET") (setArgs key value)).1.dispatch R O' (str "GET")
        (getArgs key)).2 = newBulkString value := by
  refine ⟨fun s O O' key value h => get_after_set_iff h, ?_⟩
  intro s₀ s evs O O' key value hnew hrun hw hok
  have hclock : s.store.ClockOk := clockOk_run hrun (hnew ▸ Store.clockOk_new)
  have hstep := hw _ (write_set (moved_eq_none_of_ok hok))
  exact (get_after_set_iff hok).2 (unhidden_of_noWrap hclock hstep)

/-! ## The clock at its maximum -/

/-- A handler that has seen no other node. -/
def lonelyHandler : Handler :=
  ⟨str "n1", 1, [], ∅, 0⟩

/-- A new server with that handler. -/
def lonely : Server :=
  { Server.new .ascii (str ":6379") (str "n1") with gossip := some lonelyHandler }

/-- A peer's entry with the greatest version. -/
def maxVersionBatch : List Pb.Entry :=
  [⟨str "k", str "old", Int64.maxValue, str "n2", false⟩]

theorem perm_entries_new (R : Runtime) (addr nodeID : Bytes) :
    (Server.new R addr nodeID).ring.entries.Perm
      (Hashring.vnodes R.toHashing nodeID addr 256) :=
  R.sorter.perm RingEntry.hash _

/-- The ring of a new server holds only its own virtual nodes, and at least one. -/
theorem entries_new (R : Runtime) (addr nodeID : Bytes) :
    (Server.new R addr nodeID).ring.entries ≠ [] ∧
      ∀ e ∈ (Server.new R addr nodeID).ring.entries, e.nodeID = nodeID := by
  have hperm := perm_entries_new R addr nodeID
  constructor
  · intro hnil
    have hlen := hperm.length_eq
    rw [hnil, Hashring.vnodes, List.length_map, List.length_range] at hlen
    exact absurd hlen (by decide)
  · intro e he
    obtain ⟨i, -, rfl⟩ := List.mem_map.1 (hperm.mem_iff.1 he)
    rfl

theorem moved_of_forall (h : ∀ e ∈ s.ring.entries, e.nodeID = s.nodeID) (key : Bytes) :
    s.moved R key = none :=
  redirect_eq_none_iff.2 (Hashring.getNode_of_forall R.toHashing h key)

theorem moved_lonely (key : Bytes) : lonely.moved .ascii key = none :=
  moved_of_forall (entries_new .ascii (str ":6379") (str "n1")).2 key

/-- The server with another store. -/
def lonelyWith (store : Store) : Server := { lonely with store := store }

theorem moved_lonelyWith (store : Store) (key : Bytes) :
    (lonelyWith store).moved .ascii key = none := moved_lonely key

/-- A peer's entry is merged. -/
theorem apply_batch_lonely (version : Int64) :
    (Event.batch [⟨str "k", str "old", version, str "n2", false⟩]).apply .ascii lonely =
      lonelyWith (Store.new.setWithVersion (str "k") ⟨str "old", version, str "n2", false⟩).1 := by
  have hring := entries_new .ascii (str ":6379") (str "n1")
  have hrep : lonelyHandler.isReplica Runtime.ascii.toHashing lonely.ring (str "k") = true :=
    Handler.isReplica_iff.2 (Hashring.mem_replicasFor_of_forall _ hring.1 hring.2 _ (by decide))
  have hstore : lonelyHandler.handleReplication Runtime.ascii.toHashing lonely.ring lonely.store
      [⟨str "k", str "old", version, str "n2", false⟩] =
        (Store.new.setWithVersion (str "k") ⟨str "old", version, str "n2", false⟩).1 := by
    rw [Handler.handleReplication, if_pos hrep]
    rfl
  rw [← hstore]
  rfl

theorem delArguments_lonelyWith (store : Store) (key : Bytes) :
    (lonelyWith store).delArguments .ascii [newBulkString key] = .ok [key] :=
  delArguments_of_mapM (moved_lonelyWith store) (List.cons_ne_nil _ _) rfl

theorem dispatch_del_lonelyWith (store : Store) (key : Bytes) :
    ((lonelyWith store).dispatch .ascii .success (str "DEL") [newBulkString key]).1 =
      lonelyWith (store.del (str "n1") [key]).1 :=
  dispatch_del_fst (delArguments_lonelyWith store key)

/-- A peer's entry is merged, and its key deleted. -/
def mergedAndDeleted : List Event :=
  [.batch [⟨str "k", str "old", 5, str "n2", false⟩],
    .command .success (str "DEL") [newBulkString (str "k")]]

theorem reaches_mergedAndDeleted :
    Reaches .ascii lonely mergedAndDeleted (lonelyWith ((Store.new.setWithVersion (str "k")
      ⟨str "old", 5, str "n2", false⟩).1.del (str "n1") [str "k"]).1) := by
  refine .cons trivial (congrArg some (apply_batch_lonely 5)) (.single ?_
    (congrArg some (dispatch_del_lonelyWith _ (str "k"))))
  intro op hop
  obtain rfl := Option.some.inj ((write_del (delArguments_lonelyWith _ _)).symm.trans hop)
  show (5 : Int64).toInt + 1 ≤ Int64.maxValue.toInt
  decide

/-- A write over the tombstone is read back. -/
theorem set_readable_lonely :
    ∃ s, Reaches .ascii lonely mergedAndDeleted s ∧
      s.store.tree[str "k"]? = some ⟨[], 6, str "n1", true⟩ ∧
      ((s.dispatch .ascii .success (str "SET") (setArgs (str "k") (str "new"))).1.dispatch .ascii
        .success (str "GET") (getArgs (str "k"))).2 = newBulkString (str "new") := by
  refine ⟨_, reaches_mergedAndDeleted, by decide, ?_⟩
  refine (set_readable_iff .ascii).2 lonely _ _ .success .success _ _ rfl reaches_mergedAndDeleted
    ?_ ?_
  · intro op hop
    rw [write_set (moved_lonelyWith _ _)] at hop
    obtain rfl := Option.some.inj hop
    show (6 : Int64).toInt + 1 ≤ Int64.maxValue.toInt
    decide
  · rw [dispatch_set, moved_lonelyWith]
    rfl

/-- The server after the peer's entry has been merged. -/
def lonelyMax : Server :=
  (Event.batch maxVersionBatch).apply .ascii lonely

theorem lonelyMax_eq :
    lonelyMax = lonelyWith
      (Store.new.setWithVersion (str "k") ⟨str "old", Int64.maxValue, str "n2", false⟩).1 :=
  apply_batch_lonely Int64.maxValue

/-- The peer's entry has taken the clock to its maximum; the next `SET` is answered `OK`, and the
`GET` that follows replies the old value. -/
theorem acknowledged_set_lost :
    (lonelyMax.dispatch .ascii .success (str "SET") (setArgs (str "k") (str "new"))).2 = .ok ∧
      ((lonelyMax.dispatch .ascii .success (str "SET") (setArgs (str "k") (str "new"))).1.dispatch
        .ascii .success (str "GET") (getArgs (str "k"))).2 = newBulkString (str "old") := by
  have hmoved : ∀ key, lonelyMax.moved .ascii key = none := by
    rw [lonelyMax_eq]
    exact moved_lonelyWith _
  have hok : (lonelyMax.dispatch .ascii .success (str "SET") (setArgs (str "k") (str "new"))).2
      = .ok := by
    rw [dispatch_set, hmoved, lonelyMax_eq]
    rfl
  refine ⟨hok, ?_⟩
  rw [get_after_set hok, lonelyMax_eq]
  rfl

end Server

end Hapartition
