import Hapartition.Lib.Utf8
import Hapartition.Store.Store

/-!
# Gossip messages

The messages of `internal/gossip/pb/gossip.proto` and what the handler relies on from the protocol
buffer library.

- `Pb.Entry.of` and `Pb.Entry.entry` go between a stored entry and an entry on the wire.
- `Pb.GossipMessage.Valid`: every string field of the message is valid UTF-8.
- `Pb.Codec` is `proto.Marshal` and `proto.Unmarshal`: marshalling succeeds exactly on the valid
  messages, and unmarshalling undoes it.
-/

set_option autoImplicit false

namespace Hapartition.Pb

open Lib (Bytes validUtf8)

/-- `pb.Entry`. -/
structure Entry where
  key : Bytes
  value : Bytes
  version : Int64
  origin : Bytes
  deleted : Bool
  deriving DecidableEq, Repr

/-- `pb.ReplicateRequest`. -/
structure ReplicateRequest where
  requestId : Bytes
  senderId : Bytes
  entries : List Entry
  deriving DecidableEq, Repr

/-- `pb.ReplicateResponse`. -/
structure ReplicateResponse where
  requestId : Bytes
  nodeId : Bytes
  success : Bool
  deriving DecidableEq, Repr

/-- `pb.GossipMessage`, by its payload. -/
inductive GossipMessage where
  | entryBatch (entries : List Entry)
  | replicateReq (req : ReplicateRequest)
  | replicateResp (resp : ReplicateResponse)
  /-- No payload is set. -/
  | empty
  deriving DecidableEq, Repr

/-! ## Stored entries on the wire -/

/-- The wire form of an entry stored at a key. -/
def Entry.of (p : Bytes × Hapartition.Entry) : Entry :=
  ⟨p.1, p.2.value, p.2.version, p.2.origin, p.2.deleted⟩

/-- The entry to store, from its wire form. -/
def Entry.entry (e : Entry) : Hapartition.Entry :=
  ⟨e.value, e.version, e.origin, e.deleted⟩

@[simp] theorem Entry.key_of (p : Bytes × Hapartition.Entry) : (Entry.of p).key = p.1 := rfl

@[simp] theorem Entry.entry_of (p : Bytes × Hapartition.Entry) : (Entry.of p).entry = p.2 := rfl

/-- The key and entry of every wire entry. -/
def pairs (entries : List Entry) : List (Bytes × Hapartition.Entry) :=
  entries.map fun e => (e.key, e.entry)

theorem pairs_map_of (l : List (Bytes × Hapartition.Entry)) : pairs (l.map Entry.of) = l := by
  simp [pairs, Function.comp_def]

/-! ## Valid messages -/

/-- The string fields of an entry are valid UTF-8. -/
def Entry.Valid (e : Entry) : Prop :=
  validUtf8 e.key = true ∧ validUtf8 e.value = true ∧ validUtf8 e.origin = true

/-- The string fields of a message are valid UTF-8. -/
def GossipMessage.Valid : GossipMessage → Prop
  | .entryBatch entries => ∀ e ∈ entries, e.Valid
  | .replicateReq req =>
      validUtf8 req.requestId = true ∧ validUtf8 req.senderId = true ∧ ∀ e ∈ req.entries, e.Valid
  | .replicateResp resp => validUtf8 resp.requestId = true ∧ validUtf8 resp.nodeId = true
  | .empty => True

instance (e : Entry) : Decidable e.Valid :=
  inferInstanceAs (Decidable (_ ∧ _ ∧ _))

instance : (m : GossipMessage) → Decidable m.Valid
  | .entryBatch entries => inferInstanceAs (Decidable (∀ e ∈ entries, e.Valid))
  | .replicateReq _ => inferInstanceAs (Decidable (_ ∧ _ ∧ _))
  | .replicateResp _ => inferInstanceAs (Decidable (_ ∧ _))
  | .empty => inferInstanceAs (Decidable True)

/-- The protocol buffer library, on this message type. -/
structure Codec where
  /-- `proto.Marshal`, `none` where it returns an error. -/
  marshal : GossipMessage → Option Bytes
  /-- `proto.Unmarshal` into an empty message. -/
  unmarshal : Bytes → Option GossipMessage
  marshal_isSome_iff : ∀ m, (marshal m).isSome = true ↔ m.Valid
  unmarshal_marshal : ∀ m buf, marshal m = some buf → unmarshal buf = some m

namespace Codec

variable {C : Codec}

theorem exists_marshal {m : GossipMessage} (h : m.Valid) : ∃ buf, C.marshal m = some buf :=
  Option.isSome_iff_exists.1 ((C.marshal_isSome_iff m).2 h)

theorem valid_of_marshal {m : GossipMessage} {buf : Bytes} (h : C.marshal m = some buf) :
    m.Valid :=
  (C.marshal_isSome_iff m).1 (by rw [h]; rfl)

theorem marshal_eq_none {m : GossipMessage} (h : ¬ m.Valid) : C.marshal m = none := by
  cases hm : C.marshal m with
  | none => rfl
  | some buf => exact absurd (valid_of_marshal hm) h

end Codec

end Hapartition.Pb
