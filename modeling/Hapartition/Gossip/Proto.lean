import Hapartition.Gossip.Message
import Hapartition.Lib.Wire

/-!
# The protocol buffer encoding of gossip messages

The proto3 encoding of the messages of `gossip.proto`: fields in the order of their numbers, fields
with the default value left out, string fields checked to be UTF-8 in both directions, the last
occurrence of a field winning on decoding. `protoCodec` shows that it is a `Codec`: the assumptions
made of the library are those of an encoding that exists.
-/

set_option autoImplicit false

namespace Hapartition.Pb

open Lib (Bytes validUtf8)
open Lib.Wire

/-! ## Encoding -/

/-- A string field. -/
def strField (num : Nat) (s : Bytes) : List Field :=
  if s = [] then [] else [⟨num, .bytes s⟩]

/-- An `int64` field, as the varint of its two's complement. -/
def intField (num : Nat) (n : Int64) : List Field :=
  if n = 0 then [] else [⟨num, .varint n.toUInt64.toNat⟩]

/-- A `bool` field. -/
def boolField (num : Nat) (b : Bool) : List Field :=
  if b then [⟨num, .varint 1⟩] else []

/-- The fields of an entry. -/
def Entry.fields (e : Entry) : List Field :=
  strField 1 e.key ++ strField 2 e.value ++ intField 3 e.version ++ strField 4 e.origin ++
    boolField 5 e.deleted

/-- A repeated field of entries. -/
def entriesField (num : Nat) (entries : List Entry) : List Field :=
  entries.map fun e => ⟨num, .bytes (encodeFields e.fields)⟩

/-- The fields of a request. -/
def ReplicateRequest.fields (req : ReplicateRequest) : List Field :=
  strField 1 req.requestId ++ strField 2 req.senderId ++ entriesField 3 req.entries

/-- The fields of a response. -/
def ReplicateResponse.fields (resp : ReplicateResponse) : List Field :=
  strField 1 resp.requestId ++ strField 2 resp.nodeId ++ boolField 3 resp.success

/-- The fields of a message: the member of the `oneof` that is set. -/
def GossipMessage.fields : GossipMessage → List Field
  | .entryBatch entries => [⟨1, .bytes (encodeFields (entriesField 1 entries))⟩]
  | .replicateReq req => [⟨2, .bytes (encodeFields req.fields)⟩]
  | .replicateResp resp => [⟨3, .bytes (encodeFields resp.fields)⟩]
  | .empty => []

/-! ## Decoding -/

/-- A string field is refused unless it is valid UTF-8. -/
def decodeStr (s : Bytes) : Option Bytes :=
  if validUtf8 s = true then some s else none

/-- One field of an entry; unknown fields are skipped. -/
def Entry.setField (e : Entry) : Field → Option Entry
  | ⟨1, .bytes s⟩ => (decodeStr s).map fun s => { e with key := s }
  | ⟨2, .bytes s⟩ => (decodeStr s).map fun s => { e with value := s }
  | ⟨3, .varint n⟩ => some { e with version := (UInt64.ofNat n).toInt64 }
  | ⟨4, .bytes s⟩ => (decodeStr s).map fun s => { e with origin := s }
  | ⟨5, .varint n⟩ => some { e with deleted := decide (n ≠ 0) }
  | _ => some e

/-- An entry from its bytes. -/
def Entry.decode (b : Bytes) : Option Entry := do
  let fs ← readFields b
  fs.foldlM Entry.setField ⟨[], [], 0, [], false⟩

/-- One field of a batch. -/
def setBatchField (entries : List Entry) : Field → Option (List Entry)
  | ⟨1, .bytes b⟩ => (Entry.decode b).map fun e => entries ++ [e]
  | _ => some entries

/-- One field of a request. -/
def ReplicateRequest.setField (req : ReplicateRequest) : Field → Option ReplicateRequest
  | ⟨1, .bytes s⟩ => (decodeStr s).map fun s => { req with requestId := s }
  | ⟨2, .bytes s⟩ => (decodeStr s).map fun s => { req with senderId := s }
  | ⟨3, .bytes b⟩ => (Entry.decode b).map fun e => { req with entries := req.entries ++ [e] }
  | _ => some req

/-- One field of a response. -/
def ReplicateResponse.setField (resp : ReplicateResponse) : Field → Option ReplicateResponse
  | ⟨1, .bytes s⟩ => (decodeStr s).map fun s => { resp with requestId := s }
  | ⟨2, .bytes s⟩ => (decodeStr s).map fun s => { resp with nodeId := s }
  | ⟨3, .varint n⟩ => some { resp with success := decide (n ≠ 0) }
  | _ => some resp

/-- One field of a message: a member of the `oneof` is merged into the same member, and replaces
another one. -/
def GossipMessage.setField (m : GossipMessage) : Field → Option GossipMessage
  | ⟨1, .bytes b⟩ => do
      let fs ← readFields b
      let start := match m with
        | .entryBatch entries => entries
        | _ => []
      (fs.foldlM setBatchField start).map .entryBatch
  | ⟨2, .bytes b⟩ => do
      let fs ← readFields b
      let start := match m with
        | .replicateReq req => req
        | _ => ⟨[], [], []⟩
      (fs.foldlM ReplicateRequest.setField start).map .replicateReq
  | ⟨3, .bytes b⟩ => do
      let fs ← readFields b
      let start := match m with
        | .replicateResp resp => resp
        | _ => ⟨[], [], false⟩
      (fs.foldlM ReplicateResponse.setField start).map .replicateResp
  | _ => some m

/-- The encoding of a message, if it is valid. -/
def marshal (m : GossipMessage) : Option Bytes :=
  if m.Valid then some (encodeFields m.fields) else none

/-- A message from its bytes. -/
def unmarshal (b : Bytes) : Option GossipMessage := do
  let fs ← readFields b
  fs.foldlM GossipMessage.setField .empty

/-! ## Round trip -/

section Fields

variable {β : Type*} {f : β → Field → Option β} {x y z : β}

theorem foldlM_append_of_eq_some {l l' : List Field} (h : l.foldlM f x = some y)
    (h' : l'.foldlM f y = some z) : (l ++ l').foldlM f x = some z := by
  rw [List.foldlM_append, h]
  exact h'

/-- A field left out means that the value is the one already there. -/
theorem foldlM_strField {num : Nat} {s : Bytes} (hnil : s = [] → y = x)
    (hset : f x ⟨num, .bytes s⟩ = some y) : (strField num s).foldlM f x = some y := by
  unfold strField
  split
  next h => rw [hnil h]; rfl
  next => simp [hset]

theorem foldlM_intField {num : Nat} {n : Int64} (hzero : n = 0 → y = x)
    (hset : f x ⟨num, .varint n.toUInt64.toNat⟩ = some y) :
    (intField num n).foldlM f x = some y := by
  unfold intField
  split
  next h => rw [hzero h]; rfl
  next => simp [hset]

theorem foldlM_boolField {num : Nat} {b : Bool} (hfalse : b = false → y = x)
    (hset : b = true → f x ⟨num, .varint 1⟩ = some y) :
    (boolField num b).foldlM f x = some y := by
  cases b with
  | false => rw [hfalse rfl]; rfl
  | true => simp [boolField, hset rfl]

end Fields

theorem decodeStr_of_valid {s : Bytes} (h : validUtf8 s = true) : decodeStr s = some s :=
  if_pos h

theorem written_strField {num : Nat} {s : Bytes} {f : Field} (h : f ∈ strField num s) :
    f.Written := by
  unfold strField at h
  split at h
  · cases h
  · obtain rfl := List.mem_singleton.1 h
    trivial

theorem written_intField {num : Nat} {n : Int64} {f : Field} (h : f ∈ intField num n) :
    f.Written := by
  unfold intField at h
  split at h
  · cases h
  · obtain rfl := List.mem_singleton.1 h
    trivial

theorem written_boolField {num : Nat} {b : Bool} {f : Field} (h : f ∈ boolField num b) :
    f.Written := by
  unfold boolField at h
  split at h
  · obtain rfl := List.mem_singleton.1 h
    trivial
  · cases h

theorem written_entriesField {num : Nat} {entries : List Entry} {f : Field}
    (h : f ∈ entriesField num entries) : f.Written := by
  obtain ⟨e, -, rfl⟩ := List.mem_map.1 h
  trivial

theorem Entry.decode_encode {e : Entry} (h : e.Valid) :
    Entry.decode (encodeFields e.fields) = some e := by
  obtain ⟨hkey, hvalue, horigin⟩ := h
  have hwritten : ∀ f ∈ e.fields, f.Written := by
    intro f hf
    simp only [Entry.fields, List.mem_append] at hf
    rcases hf with (((hf | hf) | hf) | hf) | hf
    · exact written_strField hf
    · exact written_strField hf
    · exact written_intField hf
    · exact written_strField hf
    · exact written_boolField hf
  rw [Entry.decode, readFields_encodeFields hwritten]
  show e.fields.foldlM Entry.setField ⟨[], [], 0, [], false⟩ = some e
  obtain ⟨key, value, version, origin, deleted⟩ := e
  -- one field after the other fills the record, from the zero values of proto3
  have h₁ : (strField 1 key).foldlM Entry.setField ⟨[], [], 0, [], false⟩
      = some ⟨key, [], 0, [], false⟩ :=
    foldlM_strField (by rintro rfl; rfl) (by simp [Entry.setField, decodeStr_of_valid hkey])
  have h₂ : (strField 2 value).foldlM Entry.setField ⟨key, [], 0, [], false⟩
      = some ⟨key, value, 0, [], false⟩ :=
    foldlM_strField (by rintro rfl; rfl) (by simp [Entry.setField, decodeStr_of_valid hvalue])
  have h₃ : (intField 3 version).foldlM Entry.setField ⟨key, value, 0, [], false⟩
      = some ⟨key, value, version, [], false⟩ :=
    foldlM_intField (by rintro rfl; rfl) (by simp [Entry.setField])
  have h₄ : (strField 4 origin).foldlM Entry.setField ⟨key, value, version, [], false⟩
      = some ⟨key, value, version, origin, false⟩ :=
    foldlM_strField (by rintro rfl; rfl) (by simp [Entry.setField, decodeStr_of_valid horigin])
  have h₅ : (boolField 5 deleted).foldlM Entry.setField ⟨key, value, version, origin, false⟩
      = some ⟨key, value, version, origin, deleted⟩ :=
    foldlM_boolField (by rintro rfl; rfl) (by rintro rfl; rfl)
  exact foldlM_append_of_eq_some (foldlM_append_of_eq_some (foldlM_append_of_eq_some
    (foldlM_append_of_eq_some h₁ h₂) h₃) h₄) h₅

/-- A repeated entry field is read back element by element, into any record that collects it. -/
theorem foldlM_entriesField {β : Type*} {f : β → Field → Option β} {num : Nat}
    (add : β → List Entry → β) (hnil : ∀ x, add x [] = x)
    (hadd : ∀ x l l', add (add x l) l' = add x (l ++ l'))
    (hset : ∀ x e, e.Valid → f x ⟨num, .bytes (encodeFields e.fields)⟩ = some (add x [e]))
    {entries : List Entry} (h : ∀ e ∈ entries, e.Valid) (x : β) :
    (entriesField num entries).foldlM f x = some (add x entries) := by
  induction entries generalizing x with
  | nil => rw [hnil]; rfl
  | cons e es ih =>
      have hcons : entriesField num (e :: es)
          = [⟨num, .bytes (encodeFields e.fields)⟩] ++ entriesField num es := rfl
      rw [hcons]
      refine foldlM_append_of_eq_some (y := add x [e]) ?_ ?_
      · simp [hset x e (h e List.mem_cons_self)]
      · rw [ih (fun e' he' => h e' (List.mem_cons_of_mem e he')), hadd]
        rfl

theorem setBatchField_encode {entries : List Entry} (h : ∀ e ∈ entries, e.Valid) :
    (entriesField 1 entries).foldlM setBatchField [] = some entries :=
  foldlM_entriesField (fun x l => x ++ l) List.append_nil List.append_assoc
    (fun x e he => by simp [setBatchField, Entry.decode_encode he]) h []

theorem ReplicateRequest.setField_encode {req : ReplicateRequest}
    (hid : validUtf8 req.requestId = true) (hsender : validUtf8 req.senderId = true)
    (hentries : ∀ e ∈ req.entries, e.Valid) :
    req.fields.foldlM ReplicateRequest.setField ⟨[], [], []⟩ = some req := by
  obtain ⟨requestId, senderId, entries⟩ := req
  have h₁ : (strField 1 requestId).foldlM ReplicateRequest.setField ⟨[], [], []⟩
      = some ⟨requestId, [], []⟩ :=
    foldlM_strField (by rintro rfl; rfl) (by simp [setField, decodeStr_of_valid hid])
  have h₂ : (strField 2 senderId).foldlM ReplicateRequest.setField ⟨requestId, [], []⟩
      = some ⟨requestId, senderId, []⟩ :=
    foldlM_strField (by rintro rfl; rfl) (by simp [setField, decodeStr_of_valid hsender])
  have h₃ : (entriesField 3 entries).foldlM ReplicateRequest.setField ⟨requestId, senderId, []⟩
      = some ⟨requestId, senderId, entries⟩ :=
    foldlM_entriesField (fun x l => (⟨x.requestId, x.senderId, x.entries ++ l⟩ : ReplicateRequest))
      (by simp) (by simp) (fun x e he => by simp [setField, Entry.decode_encode he]) hentries _
  exact foldlM_append_of_eq_some (foldlM_append_of_eq_some h₁ h₂) h₃

theorem ReplicateResponse.setField_encode {resp : ReplicateResponse}
    (hid : validUtf8 resp.requestId = true) (hnode : validUtf8 resp.nodeId = true) :
    resp.fields.foldlM ReplicateResponse.setField ⟨[], [], false⟩ = some resp := by
  obtain ⟨requestId, nodeId, success⟩ := resp
  have h₁ : (strField 1 requestId).foldlM ReplicateResponse.setField ⟨[], [], false⟩
      = some ⟨requestId, [], false⟩ :=
    foldlM_strField (by rintro rfl; rfl) (by simp [setField, decodeStr_of_valid hid])
  have h₂ : (strField 2 nodeId).foldlM ReplicateResponse.setField ⟨requestId, [], false⟩
      = some ⟨requestId, nodeId, false⟩ :=
    foldlM_strField (by rintro rfl; rfl) (by simp [setField, decodeStr_of_valid hnode])
  have h₃ : (boolField 3 success).foldlM ReplicateResponse.setField ⟨requestId, nodeId, false⟩
      = some ⟨requestId, nodeId, success⟩ :=
    foldlM_boolField (by rintro rfl; rfl) (by rintro rfl; rfl)
  exact foldlM_append_of_eq_some (foldlM_append_of_eq_some h₁ h₂) h₃

theorem ReplicateRequest.written (req : ReplicateRequest) : ∀ f ∈ req.fields, f.Written := by
  intro f hf
  simp only [ReplicateRequest.fields, List.mem_append] at hf
  rcases hf with (hf | hf) | hf
  · exact written_strField hf
  · exact written_strField hf
  · exact written_entriesField hf

theorem ReplicateResponse.written (resp : ReplicateResponse) : ∀ f ∈ resp.fields, f.Written := by
  intro f hf
  simp only [ReplicateResponse.fields, List.mem_append] at hf
  rcases hf with (hf | hf) | hf
  · exact written_strField hf
  · exact written_strField hf
  · exact written_boolField hf

/-- Decoding undoes encoding on valid messages. -/
theorem unmarshal_encode {m : GossipMessage} (h : m.Valid) :
    unmarshal (encodeFields m.fields) = some m := by
  have hwritten : ∀ f ∈ m.fields, f.Written := by
    cases m <;> simp [GossipMessage.fields, Field.Written]
  rw [unmarshal, readFields_encodeFields hwritten]
  cases m with
  | empty => rfl
  | entryBatch entries =>
      simp only [GossipMessage.fields, bind, Option.bind, List.foldlM, GossipMessage.setField,
        readFields_encodeFields fun f => written_entriesField, setBatchField_encode h]
      rfl
  | replicateReq req =>
      simp only [GossipMessage.fields, bind, Option.bind, List.foldlM, GossipMessage.setField,
        readFields_encodeFields req.written, ReplicateRequest.setField_encode h.1 h.2.1 h.2.2]
      rfl
  | replicateResp resp =>
      simp only [GossipMessage.fields, bind, Option.bind, List.foldlM, GossipMessage.setField,
        readFields_encodeFields resp.written, ReplicateResponse.setField_encode h.1 h.2]
      rfl

/-- The proto3 encoding meets the assumptions on the library. -/
def protoCodec : Codec where
  marshal := marshal
  unmarshal := unmarshal
  marshal_isSome_iff m := by
    unfold marshal
    split <;> simp [*]
  unmarshal_marshal m buf h := by
    unfold marshal at h
    split at h
    next hv =>
      obtain rfl := Option.some.inj h
      exact unmarshal_encode hv
    next => cases h

end Hapartition.Pb
