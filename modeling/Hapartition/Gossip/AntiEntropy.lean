import Mathlib.Data.List.Rotate
import Hapartition.Gossip.Handler
import Hapartition.Gossip.Proto

/-!
# Anti-entropy rounds

A round of anti-entropy sends the whole store to the peer whose turn it is. Sorted by name, the
peers are the same list in whatever order the transport lists them, and the turn passes to the next
in every round, so that a round for each peer rotates the list once. The only thing that can fail is
the marshalling: the turn passes on, and nothing is sent. `exchangeAll_visits_iff` says that a round
for each peer visits them all exactly once if and only if every string in the store is valid UTF-8
in each round, whatever becomes of the sends.
-/

set_option autoImplicit false

namespace Hapartition

open Lib

/-- Every key, value and origin in the store is valid UTF-8. -/
def Store.Utf8 (store : Store) : Prop :=
  ∀ (key : Bytes) (e : Entry), store.snapshot[key]? = some e → (Pb.Entry.of (key, e)).Valid

namespace Handler

variable {H : Hashing} {C : Pb.Codec} {h : Handler} {members : List MemberInfo} {store : Store}
  {snap : List (Bytes × Entry)}

/-! ## One round -/

theorem valid_iff_utf8 (hsnap : snap.Perm store.snapshot.toList) :
    (Pb.GossipMessage.entryBatch (snap.map Pb.Entry.of)).Valid ↔ store.Utf8 := by
  simp only [Pb.GossipMessage.Valid, List.forall_mem_map, hsnap.mem_iff, Store.Utf8]
  constructor
  · intro hv key e he
    exact hv (key, e) (Std.ExtTreeMap.mem_toList_iff_getElem?_eq_some.2 he)
  · intro hu p hp
    exact hu p.1 p.2 (Std.ExtTreeMap.mem_toList_iff_getElem?_eq_some.1 hp)

/-- With itself and another node among the members, there is a peer whose turn it is. -/
theorem exists_nextPeer (hpeer : ∃ m ∈ members, m.name ≠ h.nodeID) :
    ∃ peer, h.nextPeer H members = some peer := by
  obtain ⟨m, hm, hne⟩ := hpeer
  have hmem : m ∈ h.peers H members :=
    (H.sorter.perm _ _).mem_iff.2 (List.mem_filter.2 ⟨hm, by simpa using hne⟩)
  have hpos := List.length_pos_of_mem hmem
  exact ⟨_, List.getElem?_eq_getElem (Nat.mod_lt _ hpos)⟩

theorem one_lt_length_of_mem (hself : h.nodeID ∈ members.map MemberInfo.name)
    (hpeer : ∃ m ∈ members, m.name ≠ h.nodeID) : ¬ members.length ≤ 1 := by
  intro hle
  obtain ⟨m, hm, hne⟩ := hpeer
  obtain ⟨m', hm', hname⟩ := List.mem_map.1 hself
  -- a single member would be the node itself and another one
  match members, hle with
  | [x], _ =>
      obtain rfl := List.mem_singleton.1 hm
      obtain rfl := List.mem_singleton.1 hm'
      exact hne hname

end Handler

/-- What a call of `exchangeState` meets at the node `id` with the given peers: the members in the
order in which the transport lists them, the store with the order in which its snapshot is ranged
over, and what `SendReliable` returns if it is called. -/
structure Round (id : Bytes) (names : List Bytes) where
  members : List MemberInfo
  store : Store
  snap : List (Bytes × Entry)
  sendErr : Option Bytes
  /-- The members are the node itself and its peers. -/
  listed : (members.map MemberInfo.name).Perm (id :: names)
  snapshot : snap.Perm store.snapshot.toList
  nonempty : snap ≠ []

/-- A call of `SendReliable`, with what it returned. -/
structure SendCall where
  nodeID : Bytes
  buf : Bytes
  err : Option Bytes
  deriving DecidableEq, Repr

namespace Handler

variable (H : Hashing) (C : Pb.Codec) {id : Bytes} {names : List Bytes}

/-- A call of `exchangeState`: an error of the transport is only logged. -/
def exchange (h : Handler) (r : Round id names) : Handler × Option SendCall :=
  let out := h.exchangeState H C r.members r.snap
  (out.1, out.2.map fun m => ⟨m.1, m.2, r.sendErr⟩)

/-- One call after the other. -/
def exchangeAll (h : Handler) : List (Round id names) → Handler × List SendCall
  | [] => (h, [])
  | r :: rs =>
      let out := h.exchange H C r
      let rest := exchangeAll out.1 rs
      (rest.1, out.2.toList ++ rest.2)

/-! ## Whose turn it is -/

section Turns

variable {H C} {h : Handler} (hid : h.nodeID = id) (hself : id ∉ names) (r : Round id names)

include hid hself

/-- Sorted by name, the peers do not depend on the order in which the transport lists them. -/
theorem map_name_peers :
    (h.peers H r.members).map MemberInfo.name = H.sorter.sort (fun name => name) names := by
  have hfilter : ((id :: names).filter fun name => decide (name ≠ id)) = names := by
    rw [List.filter_cons_of_neg (by simp), List.filter_eq_self]
    intro name hname
    exact decide_eq_true (ne_of_mem_of_not_mem hname hself)
  have hothers : ((r.members.filter fun m => decide (m.name ≠ h.nodeID)).map MemberInfo.name).Perm
      names := by
    have hperm := r.listed.filter fun name => decide (name ≠ id)
    rw [List.filter_map, hfilter] at hperm
    rw [hid]
    exact hperm
  have hperm : ((h.peers H r.members).map MemberInfo.name).Perm
      (H.sorter.sort (fun name => name) names) :=
    ((H.sorter.perm _ _).map _).trans (hothers.trans (H.sorter.perm _ names).symm)
  have hsorted : ((h.peers H r.members).map MemberInfo.name).Pairwise (· ≤ ·) :=
    List.pairwise_map.2 (H.sorter.sorted _ _)
  exact hperm.eq_of_pairwise (fun _ _ _ _ => le_antisymm) hsorted (H.sorter.sorted _ names)

theorem length_peers : (h.peers H r.members).length = names.length := by
  rw [← List.length_map MemberInfo.name, map_name_peers hid hself,
    (H.sorter.perm _ names).length_eq]

/-- The index of `exchangeState` is in range, and the turn is that of the peer there. -/
theorem exists_turn (hpos : 0 < names.length) :
    ∃ peer, h.nextPeer H r.members = some peer ∧
      (H.sorter.sort (fun name => name) names)[h.antiEntropyPos % names.length]? =
        some peer.name := by
  have hlen := length_peers (H := H) hid hself r
  have hlt : h.antiEntropyPos % (h.peers H r.members).length < (h.peers H r.members).length :=
    Nat.mod_lt _ (by omega)
  refine ⟨_, List.getElem?_eq_getElem hlt, ?_⟩
  rw [← map_name_peers hid hself r, List.getElem?_map, ← hlen, List.getElem?_eq_getElem hlt]
  rfl

/-- A round passes the turn on, and calls the transport for the peer whose turn it was exactly if
the store can be marshalled. -/
theorem exchange_spec (hpos : 0 < names.length) :
    (h.exchange H C r).1.nodeID = id ∧
      (h.exchange H C r).1.antiEntropyPos = (h.antiEntropyPos + 1) % names.length ∧
      (¬ r.store.Utf8 → (h.exchange H C r).2 = none) ∧
      (r.store.Utf8 → ∃ call, (h.exchange H C r).2 = some call ∧
        (H.sorter.sort (fun name => name) names)[h.antiEntropyPos % names.length]? =
          some call.nodeID) := by
  obtain ⟨peer, hturn, hname⟩ := exists_turn (H := H) hid hself r hpos
  have hmembers : ¬ r.members.length ≤ 1 := by
    have hlen := r.listed.length_eq
    rw [List.length_map, List.length_cons] at hlen
    omega
  have hvalid := valid_iff_utf8 r.snapshot
  have hout := exchangeState_eq C (serializeStore_of_ne_nil r.nonempty) hmembers hturn
  rw [length_peers hid hself] at hout
  rw [exchange, hout]
  refine ⟨hid, Nat.mod_add_mod _ _ _, ?_, ?_⟩
  · intro hnot
    rw [Pb.Codec.marshal_eq_none (mt hvalid.1 hnot)]
    rfl
  · intro hutf8
    obtain ⟨buf, hbuf⟩ := Pb.Codec.exists_marshal (C := C) (hvalid.2 hutf8)
    rw [hbuf]
    exact ⟨_, rfl, hname⟩

end Turns

/-! ## A sequence of rounds -/

section Rounds

variable {H C} {h : Handler} (hid : h.nodeID = id) (hself : id ∉ names)

include hid hself

theorem nodeID_exchangeAll (hpos : 0 < names.length) (rounds : List (Round id names)) :
    (h.exchangeAll H C rounds).1.nodeID = id := by
  induction rounds generalizing h with
  | nil => exact hid
  | cons r rs ih => exact ih (exchange_spec hid hself r hpos).1

/-- A round makes at most one call, and none if the store cannot be marshalled. -/
theorem length_exchangeAll (hpos : 0 < names.length) (rounds : List (Round id names)) :
    (h.exchangeAll H C rounds).2.length ≤ rounds.length ∧
      ((h.exchangeAll H C rounds).2.length = rounds.length → ∀ r ∈ rounds, r.store.Utf8) := by
  induction rounds generalizing h with
  | nil => exact ⟨Nat.le_refl _, fun _ r hr => absurd hr List.not_mem_nil⟩
  | cons r rs ih =>
      obtain ⟨hid', -, hnone, hsome⟩ := exchange_spec (H := H) (C := C) hid hself r hpos
      obtain ⟨hle, hall⟩ := ih hid'
      rw [exchangeAll, List.length_append, List.length_cons]
      by_cases hutf8 : r.store.Utf8
      · obtain ⟨call, hcall, -⟩ := hsome hutf8
        rw [hcall, Option.toList_some, List.length_singleton]
        refine ⟨by omega, ?_⟩
        intro hlen
        exact List.forall_mem_cons.2 ⟨hutf8, hall (by omega)⟩
      · rw [hnone hutf8, Option.toList_none, List.length_nil]
        exact ⟨by omega, fun hlen => absurd hlen (by omega)⟩

/-- The calls go to the sorted peers in turn, from the position on and round at the end. -/
theorem getElem?_exchangeAll (hpos : 0 < names.length) (rounds : List (Round id names))
    (hutf8 : ∀ r ∈ rounds, r.store.Utf8) {i : Nat} (hi : i < rounds.length) :
    ((h.exchangeAll H C rounds).2.map SendCall.nodeID)[i]? =
      (H.sorter.sort (fun name => name) names)[(i + h.antiEntropyPos) % names.length]? := by
  induction rounds generalizing h i with
  | nil => exact absurd hi (Nat.not_lt_zero i)
  | cons r rs ih =>
      obtain ⟨hid', hnext, -, hsome⟩ := exchange_spec (H := H) (C := C) hid hself r hpos
      obtain ⟨hr, hrs⟩ := List.forall_mem_cons.1 hutf8
      obtain ⟨call, hcall, hname⟩ := hsome hr
      rw [exchangeAll, hcall]
      cases i with
      | zero =>
          rw [Nat.zero_add, hname]
          rfl
      | succ i =>
          -- one place further in the list is one round later
          have hplace : (i + (h.antiEntropyPos + 1) % names.length) % names.length =
              (i + 1 + h.antiEntropyPos) % names.length := by
            rw [Nat.add_mod_mod, Nat.add_comm h.antiEntropyPos 1, Nat.add_assoc]
          rw [← hplace, ← hnext]
          exact ih hid' hrs (Nat.lt_of_succ_lt_succ hi)

/-- As many rounds as there are peers go once round the list. -/
theorem exchangeAll_eq_rotate (hpos : 0 < names.length) {rounds : List (Round id names)}
    (hlen : rounds.length = names.length) (hutf8 : ∀ r ∈ rounds, r.store.Utf8) :
    (h.exchangeAll H C rounds).2.map SendCall.nodeID =
      (H.sorter.sort (fun name => name) names).rotate h.antiEntropyPos := by
  have hsorted : (H.sorter.sort (fun name => name) names).length = names.length :=
    (H.sorter.perm _ names).length_eq
  have hle := (length_exchangeAll (H := H) (C := C) hid hself hpos rounds).1
  apply List.ext_getElem?
  intro i
  by_cases hi : i < names.length
  · rw [getElem?_exchangeAll hid hself hpos rounds hutf8 (by omega),
      List.getElem?_rotate (by omega), hsorted]
  · rw [List.getElem?_eq_none (by rw [List.length_map]; omega),
      List.getElem?_eq_none (by rw [List.length_rotate]; omega)]

end Rounds

/-- Each of the peers is called exactly once, and nobody else at all. -/
def VisitsEachOnce (names : List Bytes) (calls : List SendCall) : Prop :=
  (∀ name ∈ names, (calls.map SendCall.nodeID).count name = 1) ∧
    ∀ call ∈ calls, call.nodeID ∈ names

/-- Distinct peers are each visited once if the calls are the list of them in some order. -/
theorem visitsEachOnce_of_perm (hnodup : names.Nodup) {calls : List SendCall}
    (hperm : (calls.map SendCall.nodeID).Perm names) : VisitsEachOnce names calls := by
  constructor
  · intro name hname
    rw [hperm.count_eq]
    exact List.count_eq_one_of_mem hnodup hname
  · intro call hcall
    exact hperm.mem_iff.1 (List.mem_map_of_mem hcall)

theorem VisitsEachOnce.length_le (hnodup : names.Nodup) {calls : List SendCall}
    (h : VisitsEachOnce names calls) : names.length ≤ calls.length := by
  have hsub : names ⊆ calls.map SendCall.nodeID := by
    intro name hname
    apply List.count_pos_iff.1
    rw [h.1 name hname]
    exact Nat.one_pos
  have hle := (hnodup.subperm hsub).length_le
  rwa [List.length_map] at hle

/-- **Anti-entropy visits every peer.** Whatever the position that earlier calls have left, and
whatever becomes of the sends, as many calls of `exchangeState` as there are peers call the
transport for each of them exactly once if and only if in each call all strings in the store are
valid UTF-8. The index into the list of peers is in range in every call. -/
theorem exchangeAll_visits_iff (H : Hashing) (C : Pb.Codec) {h : Handler} {names : List Bytes}
    (hn : 1 ≤ names.length) (hnodup : (h.nodeID :: names).Nodup)
    {rounds : List (Round h.nodeID names)} (hlen : rounds.length = names.length) :
    (VisitsEachOnce names (h.exchangeAll H C rounds).2 ↔ ∀ r ∈ rounds, r.store.Utf8) ∧
      ∀ before r after, rounds = before ++ r :: after →
        (h.exchangeAll H C before).1.antiEntropyPos %
            ((h.exchangeAll H C before).1.peers H r.members).length <
          ((h.exchangeAll H C before).1.peers H r.members).length := by
  obtain ⟨hself, hnames⟩ := List.nodup_cons.1 hnodup
  refine ⟨⟨?_, ?_⟩, ?_⟩
  · intro hvisits
    obtain ⟨hle, hall⟩ := length_exchangeAll (H := H) (C := C) rfl hself hn rounds
    have hmin := hvisits.length_le hnames
    exact hall (by omega)
  · intro hutf8
    apply visitsEachOnce_of_perm hnames
    rw [exchangeAll_eq_rotate rfl hself hn hlen hutf8]
    exact (List.rotate_perm _ _).trans (H.sorter.perm _ names)
  · intro before r after _
    apply Nat.mod_lt
    rw [length_peers (nodeID_exchangeAll rfl hself hn before) hself]
    exact hn

/-! ## A node with two peers -/

/-- The node `n1`, at a position that calls with more peers have left. -/
def rotating : Handler := ⟨str "n1", 1, [], ∅, 5⟩

/-- A round with one key in the store. -/
def roundWith (members : List MemberInfo) (key : Bytes) (sendErr : Option Bytes)
    (listed : (members.map MemberInfo.name).Perm [str "n1", str "n2", str "n3"])
    (nonempty : (Store.new.setFrom key (str "1") (str "n1")).1.snapshot.toList ≠ []) :
    Round (str "n1") [str "n2", str "n3"] :=
  ⟨members, _, _, sendErr, listed, .refl _, nonempty⟩

/-- Two rounds. The transport lists the members in different orders, and the second send fails. -/
def twoRounds (key : Bytes)
    (nonempty : (Store.new.setFrom key (str "1") (str "n1")).1.snapshot.toList ≠ []) :
    List (Round (str "n1") [str "n2", str "n3"]) :=
  [roundWith [⟨str "n1", []⟩, ⟨str "n2", []⟩, ⟨str "n3", []⟩] key none (by decide) nonempty,
    roundWith [⟨str "n3", []⟩, ⟨str "n1", []⟩, ⟨str "n2", []⟩] key (some (str "timeout"))
      (by decide) nonempty]

theorem exchangeAll_visits_both :
    VisitsEachOnce [str "n2", str "n3"]
      (rotating.exchangeAll .xxhash Pb.protoCodec (twoRounds (str "a") (by decide))).2 := by
  refine (exchangeAll_visits_iff .xxhash Pb.protoCodec (by decide) (by decide) rfl).1.2 ?_
  intro r hr
  have htext : (Store.new.setFrom (str "a") (str "1") (str "n1")).1.Utf8 :=
    (valid_iff_utf8 (.refl _)).1 (by decide)
  rcases List.mem_pair.1 hr with rfl | rfl
  · exact htext
  · exact htext

/-- With a key that is not UTF-8 neither peer is visited. -/
theorem invalid_key_visits_nobody :
    (rotating.exchangeAll .xxhash Pb.protoCodec (twoRounds [0xff] (by decide))).2 = [] ∧
      ¬ VisitsEachOnce [str "n2", str "n3"]
        (rotating.exchangeAll .xxhash Pb.protoCodec (twoRounds [0xff] (by decide))).2 := by
  have hnothing :
      (rotating.exchangeAll .xxhash Pb.protoCodec (twoRounds [0xff] (by decide))).2 = [] := by
    decide +kernel
  refine ⟨hnothing, ?_⟩
  rw [hnothing]
  intro hvisits
  exact absurd (hvisits.1 (str "n2") (by decide)) (by decide)

end Handler

end Hapartition
