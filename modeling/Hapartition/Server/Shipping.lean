import Hapartition.Gossip.AntiEntropy
import Hapartition.Gossip.Proto
import Hapartition.Server.ReadBack

/-!
# Shipping the whole store

Anti-entropy puts the whole store into one batch. Keys and values come from clients as arbitrary
bytes, while the wire format holds strings, so the batch can be marshalled only if every string in
the store is valid UTF-8. `exchange_ships_iff` is the exact condition; one key outside it keeps
every other key from being shipped (`invalid_key_blocks_all`).
-/

set_option autoImplicit false

namespace Hapartition

open Lib

namespace Handler

variable {H : Hashing} {C : Pb.Codec} {h : Handler} {members : List MemberInfo} {store : Store}
  {snap : List (Bytes × Entry)}

/-- What `exchangeState` handed to the transport is one message for the peer whose turn it is, and
it decodes to the entries of the snapshot, each once. -/
def Ships (H : Hashing) (C : Pb.Codec) (h : Handler) (members : List MemberInfo) (store : Store)
    (out : Option (Bytes × Bytes)) : Prop :=
  ∃ peer buf entries, h.nextPeer H members = some peer ∧ out = some (peer.name, buf) ∧
    C.unmarshal buf = some (.entryBatch entries) ∧
    (Pb.pairs entries).Perm store.snapshot.toList

/-- Anti-entropy ships the whole store exactly when every string in it is valid UTF-8; otherwise it
ships nothing, and the local state for a push-pull exchange is nil as well. -/
theorem exchange_ships_iff (hsnap : snap.Perm store.snapshot.toList) (hne : snap ≠ [])
    (hself : h.nodeID ∈ members.map MemberInfo.name)
    (hpeer : ∃ m ∈ members, m.name ≠ h.nodeID) :
    (h.Ships H C members store (h.exchangeState H C members snap).2 ↔ store.Utf8) ∧
      (¬ store.Utf8 →
        (h.exchangeState H C members snap).2 = none ∧ handleLocalState C snap = none) := by
  obtain ⟨peer, hturn⟩ := exists_nextPeer (H := H) hpeer
  have hout := congrArg Prod.snd (exchangeState_eq C (serializeStore_of_ne_nil hne)
    (one_lt_length_of_mem hself hpeer) hturn)
  have hvalid := valid_iff_utf8 hsnap
  by_cases hu : store.Utf8
  · refine ⟨iff_of_true ?_ hu, fun hnot => absurd hu hnot⟩
    obtain ⟨buf, hbuf⟩ := Pb.Codec.exists_marshal (C := C) (hvalid.2 hu)
    refine ⟨peer, buf, _, hturn, by rw [hout, hbuf]; rfl, C.unmarshal_marshal _ _ hbuf, ?_⟩
    rw [Pb.pairs_map_of]
    exact hsnap
  · have hnone := Pb.Codec.marshal_eq_none (C := C) fun hv => hu (hvalid.1 hv)
    have hnothing : (h.exchangeState H C members snap).2 = none := by rw [hout, hnone]; rfl
    refine ⟨iff_of_false ?_ hu, fun _ => ⟨hnothing, ?_⟩⟩
    · rintro ⟨_, _, _, -, hsome, -⟩
      rw [hnothing] at hsome
      cases hsome
    · rw [handleLocalState, serializeStore_of_ne_nil hne]
      exact hnone

/-! ## Stores that clients make -/

/-- A server after two `SET` commands of a client, the first with the given key. -/
def afterSets (s : Server) (key : Bytes) : Server :=
  ((s.dispatch .ascii .success (str "SET") (Server.setArgs key (str "v"))).1.dispatch
    .ascii .success (str "SET") (Server.setArgs (str "a") (str "1"))).1

/-- The node and one peer. -/
def twoMembers : List MemberInfo :=
  [⟨str "n1", str ":6379"⟩, ⟨str "n2", str ":6380"⟩]

theorem afterSets_store {s : Server} (h : ∀ key, s.moved .ascii key = none) (key : Bytes) :
    (afterSets s key).store =
      ((s.store.setFrom key (str "v") s.nodeID).1.setFrom (str "a") (str "1") s.nodeID).1 := by
  have hfirst : (s.dispatch .ascii .success (str "SET") (Server.setArgs key (str "v"))).1 =
      { s with store := (s.store.setFrom key (str "v") s.nodeID).1 } := by
    rw [Server.dispatch_set, h]
    exact Server.execSet_fst _ _
  have hmoved : ({ s with store := (s.store.setFrom key (str "v") s.nodeID).1 } : Server).moved
      .ascii (str "a") = none := h _
  rw [afterSets, hfirst, Server.dispatch_set, hmoved]
  exact congrArg Server.store (Server.execSet_fst _ _)

/-- The store that the two commands make on the new server. -/
theorem afterSets_lonely_store (key : Bytes) :
    (afterSets .lonely key).store =
      ((Store.new.setFrom key (str "v") (str "n1")).1.setFrom (str "a") (str "1") (str "n1")).1 :=
  afterSets_store Server.moved_lonely key

theorem exchange_ships_text :
    Ships .xxhash Pb.protoCodec Server.lonelyHandler twoMembers (afterSets .lonely (str "k")).store
      (Server.lonelyHandler.exchangeState .xxhash Pb.protoCodec twoMembers
        (afterSets .lonely (str "k")).store.snapshot.toList).2 := by
  refine (exchange_ships_iff (.refl _) ?_ (by decide) (by decide)).1.2 ?_
  · rw [afterSets_lonely_store]
    decide
  · rw [afterSets_lonely_store]
    exact (valid_iff_utf8 (.refl _)).1 (by decide)

/-- A client stores a value under a key that is not UTF-8, and another under an ordinary key, with
`OK` for both. Neither is shipped to the peer. -/
theorem invalid_key_blocks_all :
    ((Server.lonely.dispatch .ascii .success (str "SET")
        (Server.setArgs [0xff] (str "v"))).2 = .ok ∧
      ((Server.lonely.dispatch .ascii .success (str "SET")
        (Server.setArgs [0xff] (str "v"))).1.dispatch .ascii .success (str "SET")
          (Server.setArgs (str "a") (str "1"))).2 = .ok) ∧
    (afterSets .lonely [0xff]).store.get (str "a") = some (str "1", 2) ∧
    (Server.lonelyHandler.exchangeState .xxhash Pb.protoCodec twoMembers
      (afterSets .lonely [0xff]).store.snapshot.toList).2 = none := by
  refine ⟨⟨?_, ?_⟩, ?_, ?_⟩
  · rw [Server.dispatch_set, Server.moved_lonely]
    rfl
  · have hmoved : ∀ store : Store, ({ Server.lonely with store := store } : Server).moved .ascii
        (str "a") = none := fun _ => Server.moved_lonely _
    rw [Server.dispatch_set, Server.dispatch_set [0xff], Server.moved_lonely]
    simp only [Server.execSet_fst, hmoved]
    rfl
  · rw [afterSets_lonely_store]
    decide
  · obtain ⟨peer, hturn⟩ : ∃ peer, Server.lonelyHandler.nextPeer .xxhash twoMembers = some peer :=
      exists_nextPeer (by decide)
    have hne : (afterSets .lonely [0xff]).store.snapshot.toList ≠ [] := by
      rw [afterSets_lonely_store]
      decide
    rw [exchangeState_eq _ (serializeStore_of_ne_nil hne) (by decide) hturn, afterSets_lonely_store,
      Pb.Codec.marshal_eq_none (by decide)]
    rfl

end Handler

end Hapartition
