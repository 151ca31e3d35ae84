import Hapartition.Gossip.Membership
import Hapartition.Gossip.Proto
import Hapartition.Server.Server

/-!
# The advertised address

Every node has its Redis address in the metadata that memberlist spreads for it. `NodeMeta` of
`internal/gossip/memberlist_transport.go` writes it, cut off at the limit that memberlist sets;
`DecodeMetaRedisAddr` reads it on the other nodes, and the notifications of memberlist become the
callbacks of the handler. The protocol buffer library is a parameter, a `MetaCodec`, whose laws are
what is assumed of it: a message is read back, no bytes are the empty message, and an encoding that
was cut off is refused.

So no node is ever taken for a part of its address (`decodeMetaRedisAddr_nodeMeta`).
`ring_shows_advertised`: after any sequence of notifications the ring has each node that has joined
under the address that it advertises, and under its IP address if that is empty or does not fit. The
ring starts with the local node, as `main` makes it.
-/

set_option autoImplicit false

namespace Hapartition

open Lib
open Hashring (Op membership build)

/-! ## The message -/

namespace Pb

open Lib.Wire

/-- `NodeMeta`. -/
structure NodeMeta where
  redisAddr : Bytes
  deriving DecidableEq, Repr

/-- The protocol buffer library, on this message type. -/
structure MetaCodec where
  /-- `proto.Marshal`, `none` where it returns an error. -/
  marshal : NodeMeta → Option Bytes
  /-- `proto.Unmarshal` into an empty message. -/
  unmarshal : Bytes → Option NodeMeta
  unmarshal_marshal : ∀ m buf, marshal m = some buf → unmarshal buf = some m
  unmarshal_nil : unmarshal [] = some ⟨[]⟩
  unmarshal_cut : ∀ m buf q, marshal m = some buf → q <+: buf → q ≠ buf → q ≠ [] →
    unmarshal q = none

/-! ## The proto3 encoding -/

def NodeMeta.fields (m : NodeMeta) : List Field := strField 1 m.redisAddr

def NodeMeta.setField (m : NodeMeta) : Field → Option NodeMeta
  | ⟨1, .bytes s⟩ => (decodeStr s).map fun s => { m with redisAddr := s }
  | _ => some m

theorem NodeMeta.foldlM_fields {m : NodeMeta} (h : validUtf8 m.redisAddr = true) :
    m.fields.foldlM NodeMeta.setField ⟨[]⟩ = some m := by
  refine foldlM_strField ?_ ?_
  · intro hnil
    rw [← hnil]
  · rw [NodeMeta.setField, decodeStr_of_valid h]
    rfl

/-- An encoding of which bytes are missing has no first field, unless all are. -/
theorem NodeMeta.readFields_of_prefix {m : NodeMeta} {q : Bytes} (hq : q <+: encodeFields m.fields)
    (hne : q ≠ encodeFields m.fields) (hnil : q ≠ []) : readFields q = none := by
  rw [NodeMeta.fields, strField] at hq hne
  split at hq
  next => exact absurd (List.prefix_nil.1 hq) hnil
  next haddr =>
    rw [if_neg haddr] at hne
    have hfield : encodeFields [⟨1, .bytes m.redisAddr⟩] = encodeField ⟨1, .bytes m.redisAddr⟩ :=
      List.append_nil _
    rw [hfield] at hq hne
    have hread : readField q = none :=
      readField_of_prefix (f := ⟨1, .bytes m.redisAddr⟩) trivial hq hne
    obtain ⟨b, s, rfl⟩ := List.exists_cons_of_ne_nil hnil
    rw [readFields, List.length_cons, readFieldsAux, hread]
    rfl

/-- The proto3 encoding meets the assumptions on the library. -/
def protoMetaCodec : MetaCodec where
  marshal m := if validUtf8 m.redisAddr = true then some (encodeFields m.fields) else none
  unmarshal b := (readFields b).bind fun fs => fs.foldlM NodeMeta.setField ⟨[]⟩
  unmarshal_marshal m buf h := by
    split at h
    next hvalid =>
      obtain rfl := Option.some.inj h
      have hread : readFields (encodeFields m.fields) = some m.fields :=
        readFields_encodeFields fun f hf => written_strField hf
      rw [hread]
      exact NodeMeta.foldlM_fields hvalid
    next => cases h
  unmarshal_nil := rfl
  unmarshal_cut m buf q h hq hne hnil := by
    split at h
    next =>
      obtain rfl := Option.some.inj h
      rw [NodeMeta.readFields_of_prefix hq hne hnil]
      rfl
    next => cases h

end Pb

section Transport

variable (C : Pb.MetaCodec)

/-! ## The transport -/

/-- `NodeMeta` of a node that advertises an address. -/
def nodeMeta (redisAddr : Bytes) (limit : Nat) : Bytes :=
  match C.marshal ⟨redisAddr⟩ with
  | none => []
  | some buf => if limit < buf.length then buf.take limit else buf

/-- `DecodeMetaRedisAddr`. -/
def decodeMetaRedisAddr (info : Bytes) : Bytes :=
  if info.length = 0 then []
  else
    match C.unmarshal info with
    | none => []
    | some nm => nm.redisAddr

/-- A node as memberlist reports it, and the address that it advertises. -/
structure Peer where
  name : Bytes
  ip : Bytes
  advertised : Bytes
  deriving DecidableEq, Repr

/-- `NotifyJoin`. -/
def notifyJoin (name ip info : Bytes) : Callback :=
  let redisAddr := decodeMetaRedisAddr C info
  .onJoin name (if redisAddr = [] then ip else redisAddr)

/-- `NotifyLeave`. -/
def notifyLeave (name : Bytes) : Callback := .onLeave name

/-- `NotifyUpdate`; it has no other address to fall back on. -/
def notifyUpdate (name info : Bytes) : Callback := .onUpdate name (decodeMetaRedisAddr C info)

/-- A notification of memberlist. -/
inductive Notice where
  | join (p : Peer)
  | leave (p : Peer)
  | update (p : Peer)
  deriving DecidableEq, Repr

/-- What the handler is told, under a limit for the metadata. -/
def Notice.callback (limit : Nat) : Notice → Callback
  | .join p => notifyJoin C p.name p.ip (nodeMeta C p.advertised limit)
  | .leave p => notifyLeave p.name
  | .update p => notifyUpdate C p.name (nodeMeta C p.advertised limit)

/-- What the handler is told over a sequence of notifications. -/
def callbacks (limit : Nat) (ns : List (Int × Notice)) : List (Int × Callback) :=
  ns.map fun n => (n.1, n.2.callback C limit)

theorem callbacks_append (limit : Nat) (ns ns' : List (Int × Notice)) :
    callbacks C limit (ns ++ ns') = callbacks C limit ns ++ callbacks C limit ns' :=
  List.map_append

/-! ## What is read -/

/-- The address has an encoding within the limit. -/
def Advertisable (addr : Bytes) (limit : Nat) : Prop :=
  ∃ buf ∈ C.marshal ⟨addr⟩, buf.length ≤ limit

instance (addr : Bytes) (limit : Nat) : Decidable (Advertisable C addr limit) :=
  inferInstanceAs (Decidable (∃ buf ∈ C.marshal ⟨addr⟩, buf.length ≤ limit))

/-- A whole encoding is read. -/
theorem decodeMetaRedisAddr_of_marshal {addr buf : Bytes} (h : C.marshal ⟨addr⟩ = some buf) :
    decodeMetaRedisAddr C buf = addr := by
  have hread := C.unmarshal_marshal _ buf h
  rw [decodeMetaRedisAddr]
  split
  next hlen =>
    -- no bytes are the empty message, so the address was empty
    obtain rfl := List.length_eq_zero_iff.1 hlen
    have haddr := hread.symm.trans C.unmarshal_nil
    exact (congrArg Pb.NodeMeta.redisAddr (Option.some.inj haddr)).symm
  next => rw [hread]

/-- The address is read as it was written, or not at all. -/
theorem decodeMetaRedisAddr_nodeMeta (addr : Bytes) (limit : Nat) :
    decodeMetaRedisAddr C (nodeMeta C addr limit) =
      if Advertisable C addr limit then addr else [] := by
  rw [nodeMeta]
  cases hmarshal : C.marshal ⟨addr⟩ with
  | none =>
      rw [if_neg]
      · rfl
      · rintro ⟨buf, hbuf, -⟩
        cases hmarshal.symm.trans hbuf
  | some buf =>
      have hfits : Advertisable C addr limit ↔ buf.length ≤ limit := by
        simp [Advertisable, hmarshal]
      simp only [hfits]
      split
      next hlimit =>
        rw [if_neg (Nat.not_le.2 hlimit), decodeMetaRedisAddr]
        split
        next => rfl
        next hsome =>
          -- of an encoding that is cut off the reader gets nothing
          have hshort : buf.take limit ≠ buf := fun heq => by
            have := congrArg List.length heq
            rw [List.length_take] at this
            omega
          rw [C.unmarshal_cut _ buf _ hmarshal (List.take_prefix limit buf) hshort
            fun heq => hsome (by rw [heq]; rfl)]
      next hlimit =>
        rw [if_pos (Nat.not_lt.1 hlimit)]
        exact decodeMetaRedisAddr_of_marshal C hmarshal

/-! ## The ring -/

/-- The address under which the others have a node. -/
def Peer.shown (p : Peer) (limit : Nat) : Bytes :=
  if Advertisable C p.advertised limit ∧ p.advertised ≠ [] then p.advertised else p.ip

theorem callback_join (p : Peer) (limit : Nat) :
    (Notice.join p).callback C limit = .onJoin p.name (p.shown C limit) := by
  rw [Notice.callback, notifyJoin, decodeMetaRedisAddr_nodeMeta, Peer.shown]
  by_cases hfits : Advertisable C p.advertised limit
  · by_cases hnil : p.advertised = []
    · simp [hnil]
    · simp [hfits, hnil]
  · simp [hfits]

/-- The notice is a join or a leave of the node. -/
def Notice.Moves (id : Bytes) : Notice → Prop
  | .join p => p.name = id
  | .leave p => p.name = id
  | .update _ => False

/-- The last join or leave of a node is the join of `p`. -/
def LastJoined (ns : List (Int × Notice)) (p : Peer) : Prop :=
  ∃ before t after, ns = before ++ (t, .join p) :: after ∧ ∀ n ∈ after, ¬ n.2.Moves p.name

/-- A notice that is no join or leave of the node leaves its address. -/
theorem joined_of_not_moves {n : Notice} {id : Bytes} (h : ¬ n.Moves id) (limit : Nat)
    (o : Option Bytes) :
    (n.callback C limit).joined id o = o := by
  cases n with
  | join p => exact if_neg h
  | leave p => exact if_neg h
  | update p => rfl

/-- The step lemma: a node is at `a` after its join there, or if it was there before and the notice
is no join or leave of it. -/
theorem joined_callback_eq_some_iff {n : Notice} {id a : Bytes} {limit : Nat} {o : Option Bytes} :
    (n.callback C limit).joined id o = some a ↔
      (∃ p, n = .join p ∧ p.name = id ∧ p.shown C limit = a) ∨ ¬ n.Moves id ∧ o = some a := by
  by_cases hmoves : n.Moves id
  · rw [or_iff_left fun h => h.1 hmoves]
    cases n with
    | join q =>
        have hjoined : ((Notice.join q).callback C limit).joined id o = some (q.shown C limit) := by
          rw [callback_join]
          exact if_pos hmoves
        rw [hjoined, Option.some.injEq]
        constructor
        · exact fun h => ⟨q, rfl, hmoves, h⟩
        · rintro ⟨p, hp, -, hshown⟩
          rwa [Notice.join.inj hp]
    | leave q =>
        have hgone : ((Notice.leave q).callback C limit).joined id o = none := if_pos hmoves
        rw [hgone]
        refine iff_of_false (fun h => by cases h) ?_
        rintro ⟨p, hp, -⟩
        cases hp
    | update q => exact hmoves.elim
  · rw [joined_of_not_moves C hmoves]
    constructor
    · exact fun h => .inr ⟨hmoves, h⟩
    · rintro (⟨p, rfl, hname, -⟩ | h)
      · exact absurd hname hmoves
      · exact h.2

theorem lastJoined_concat_iff {ns : List (Int × Notice)} {n : Int × Notice} {p : Peer} :
    LastJoined (ns ++ [n]) p ↔ n.2 = .join p ∨ ¬ n.2.Moves p.name ∧ LastJoined ns p := by
  constructor
  · rintro ⟨before, t, after, heq, hafter⟩
    rcases List.eq_nil_or_concat after with rfl | ⟨after, last, rfl⟩
    · obtain ⟨-, hn⟩ := List.append_inj' heq rfl
      exact .inl (congrArg Prod.snd (List.singleton_inj.1 hn))
    · rw [List.concat_eq_append] at heq hafter
      obtain ⟨hns, hn⟩ := List.append_inj' (heq.trans (by simp) : ns ++ [n] =
        (before ++ (t, .join p) :: after) ++ [last]) rfl
      obtain rfl := List.singleton_inj.1 hn
      refine .inr ⟨hafter n (by simp), before, t, after, hns, ?_⟩
      exact fun m hm => hafter m (List.mem_append_left _ hm)
  · rintro (hn | ⟨hn, before, t, after, rfl, hafter⟩)
    · exact ⟨ns, n.1, [], by rw [← hn], by simp⟩
    · refine ⟨before, t, after ++ [n], by simp, ?_⟩
      intro m hm
      rcases List.mem_append.1 hm with hm | hm
      · exact hafter m hm
      · rw [List.mem_singleton.1 hm]
        exact hn

/-- The address of a node is that of its last join. -/
theorem joinAddress_callback_iff (limit : Nat) (ns : List (Int × Notice)) (id a : Bytes) :
    joinAddress (callbacks C limit ns) id = some a ↔
      ∃ p, LastJoined ns p ∧ p.name = id ∧ p.shown C limit = a := by
  -- from the end, as the last notice of a node decides
  induction ns using List.reverseRecOn with
  | nil =>
      constructor
      · intro h
        cases h
      · rintro ⟨p, ⟨before, t, after, heq, -⟩, -⟩
        simp at heq
  | append_singleton ns n ih =>
      rw [callbacks_append, joinAddress, List.foldl_append]
      show (n.2.callback C limit).joined id (joinAddress _ id) = some a ↔ _
      rw [joined_callback_eq_some_iff, ih]
      constructor
      · rintro (⟨p, hn, rfl, rfl⟩ | ⟨hnot, p, hp, rfl, rfl⟩)
        · exact ⟨p, lastJoined_concat_iff.2 (.inl hn), rfl, rfl⟩
        · exact ⟨p, lastJoined_concat_iff.2 (.inr ⟨hnot, hp⟩), rfl, rfl⟩
      · rintro ⟨p, hp, rfl, rfl⟩
        rcases lastJoined_concat_iff.1 hp with hn | ⟨hnot, hp⟩
        · exact .inl ⟨p, hn, rfl, rfl⟩
        · exact .inr ⟨hnot, p, hp, rfl, rfl⟩

/-- A first notice is the last join of its node if no other join or leave of the node follows. -/
theorem lastJoined_cons_iff {n : Int × Notice} {ns : List (Int × Notice)} {p : Peer} :
    LastJoined (n :: ns) p ↔
      n.2 = .join p ∧ (∀ m ∈ ns, ¬ m.2.Moves p.name) ∨ LastJoined ns p := by
  constructor
  · rintro ⟨before, t, after, heq, hafter⟩
    cases before with
    | nil =>
        obtain ⟨rfl, rfl⟩ := List.cons.inj heq
        exact .inl ⟨rfl, hafter⟩
    | cons m before =>
        obtain ⟨rfl, rfl⟩ := List.cons.inj heq
        exact .inr ⟨before, t, after, rfl, hafter⟩
  · rintro (⟨hn, hns⟩ | ⟨before, t, after, rfl, hafter⟩)
    · exact ⟨[], n.1, ns, by rw [← hn]; rfl, hns⟩
    · exact ⟨n :: before, t, after, rfl, hafter⟩

end Transport

/-! ## The local node -/

/-- The server that `main` makes, with the address it listens on and the one that others use. -/
def startServer (R : Runtime) (redisAddr ringAddr id : Bytes) : Server :=
  if ringAddr ≠ redisAddr then (Server.new R redisAddr id).setAdvertiseAddr R ringAddr
  else Server.new R redisAddr id

/-- The handler's view when gossip starts: it shares the ring of the server. -/
def startView (R : Runtime) (redisAddr ringAddr id : Bytes) : View :=
  ⟨(startServer R redisAddr ringAddr id).ring, .new eventRingSize⟩

/-- Nodes that join without an advertised address are under their IP address; so the calls of `main`
are those of joins under the addresses of the server. -/
def startNotices (redisAddr ringAddr id : Bytes) : List (Int × Notice) :=
  (0, .join ⟨id, redisAddr, []⟩) ::
    if ringAddr ≠ redisAddr then [(0, .join ⟨id, ringAddr, []⟩)] else []

theorem ring_startView (R : Runtime) (C : Pb.MetaCodec) (limit : Nat)
    (redisAddr ringAddr id : Bytes) :
    (startView R redisAddr ringAddr id).ring =
      ((View.new id).handleAll R.toHashing
        (callbacks C limit (startNotices redisAddr ringAddr id))).ring := by
  have hshown (a : Bytes) : (⟨id, a, []⟩ : Peer).shown C limit = a := by simp [Peer.shown]
  have hjoin (a : Bytes) : (Notice.join ⟨id, a, []⟩).callback C limit = .onJoin id a := by
    rw [callback_join, hshown]
  rw [startView, startServer, startNotices]
  split
  · simp only [callbacks, List.map_cons, List.map_nil, hjoin]
    rfl
  · simp only [callbacks, List.map_cons, List.map_nil, hjoin]
    rfl

theorem lastJoined_startNotices {redisAddr ringAddr id : Bytes} {ns : List (Int × Notice)}
    {p : Peer} :
    LastJoined (startNotices redisAddr ringAddr id ++ ns) p ↔
      p = ⟨id, ringAddr, []⟩ ∧ (∀ n ∈ ns, ¬ n.2.Moves id) ∨ LastJoined ns p := by
  have hlast (a : Bytes) : LastJoined ((0, .join ⟨id, a, []⟩) :: ns) p ↔
      p = ⟨id, a, []⟩ ∧ (∀ n ∈ ns, ¬ n.2.Moves id) ∨ LastJoined ns p := by
    rw [lastJoined_cons_iff]
    refine or_congr_left ⟨?_, ?_⟩
    · rintro ⟨hp, hns⟩
      obtain rfl := Notice.join.inj hp
      exact ⟨rfl, hns⟩
    · rintro ⟨rfl, hns⟩
      exact ⟨rfl, hns⟩
  rw [startNotices]
  split
  next =>
    -- the address of `SetAdvertiseAddr` takes the place of the first one
    rw [List.cons_append, lastJoined_cons_iff, List.singleton_append, hlast ringAddr,
      or_iff_right]
    rintro ⟨hp, hns⟩
    obtain rfl := Notice.join.inj hp
    exact hns _ List.mem_cons_self rfl
  next heq =>
    rw [not_not] at heq
    rw [heq]
    exact hlast redisAddr

/-- **The addresses on the ring.** After any sequence of notifications, and whatever the limit for
the metadata, the ring has virtual nodes for the nodes whose last join or leave was a join, and for
the local node if it has had none, and for no others. The local node is then under the server's own
address. The others are under the address that they advertised at that join if this is not empty and
its encoding is within the limit, and under their IP address otherwise, never under a part of an
address. -/
theorem ring_shows_advertised (R : Runtime) (C : Pb.MetaCodec) (limit : Nat)
    (redisAddr ringAddr localID : Bytes) (ns : List (Int × Notice)) (id addr : Bytes) :
    (∃ e ∈ ((startView R redisAddr ringAddr localID).handleAll R.toHashing
          (callbacks C limit ns)).ring.entries, e.nodeID = id ∧ e.address = addr) ↔
      (∃ p, LastJoined ns p ∧ p.name = id ∧ addr =
        if Advertisable C p.advertised limit ∧ p.advertised ≠ [] then p.advertised else p.ip) ∨
      id = localID ∧ addr = ringAddr ∧ ∀ n ∈ ns, ¬ n.2.Moves id := by
  set cs := callbacks C limit (startNotices redisAddr ringAddr localID ++ ns) with hcs
  have hring : ((startView R redisAddr ringAddr localID).handleAll R.toHashing
      (callbacks C limit ns)).ring = ((View.new localID).handleAll R.toHashing cs).ring := by
    rw [View.ring_handleAll, ring_startView R C limit, hcs, callbacks_append, ring_handleAll,
      ring_handleAll, List.flatMap_append]
    exact List.foldl_append.symm
  have hreflects := Hashring.reflects_build R.toHashing localID (cs.flatMap fun c => c.2.ringOps)
  rw [hring, ring_handleAll, exists_entry_iff_joinAddress hreflects, hcs, joinAddress_callback_iff]
  constructor
  · rintro ⟨p, hlast, rfl, rfl⟩
    rcases lastJoined_startNotices.1 hlast with ⟨rfl, hns⟩ | hlast
    · exact .inr ⟨rfl, by simp [Peer.shown], hns⟩
    · exact .inl ⟨p, hlast, rfl, rfl⟩
  · rintro (⟨p, hlast, rfl, rfl⟩ | ⟨rfl, rfl, hns⟩)
    · exact ⟨p, lastJoined_startNotices.2 (.inr hlast), rfl, rfl⟩
    · exact ⟨_, lastJoined_startNotices.2 (.inl ⟨rfl, hns⟩), rfl, by simp [Peer.shown]⟩

/-- A tag, a length and five bytes. -/
example : Advertisable Pb.protoMetaCodec (str ":6379") 7 ∧
    ¬ Advertisable Pb.protoMetaCodec (str ":6379") 6 := by decide

end Hapartition
