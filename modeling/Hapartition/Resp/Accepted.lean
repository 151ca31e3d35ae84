import Hapartition.Resp.Framing

/-!
# What can be said of an accepted value

The reader takes two kinds of forms that do not come back. A null array is the nil interface, which
has no encoding. An inline command is an array, but it takes no level: inside 32 arrays it makes one
more level than is allowed, which the limits forbid and which is refused when it is read back as an
array. These are the only two: `limits_iff` for the limits, `write_back_iff` for writing back.
-/

set_option autoImplicit false

namespace Hapartition

open Lib (Bytes str fields)

namespace Form

/-- There is a null array in the form. -/
inductive HasNullArray : Form → Prop where
  | here : HasNullArray .nullArray
  | inside {line : Bytes} {elems : List Form} {f : Form} (hf : f ∈ elems) (h : HasNullArray f) :
      HasNullArray (.array line elems)

/-- There is an inline command inside `n` arrays of the form. -/
inductive InlineAt : Nat → Form → Prop where
  | here {line : Bytes} : InlineAt 0 (.inline line)
  | inside {n : Nat} {line : Bytes} {elems : List Form} {f : Form} (hf : f ∈ elems)
      (h : InlineAt n f) : InlineAt (n + 1) (.array line elems)

end Form

/-- The declared limits: arrays are nested at most `room` levels deep, and arrays, bulk strings and
lines are not too long. -/
def Value.WithinLimits : Nat → Value → Prop
  | _, .nil => True
  | _, .simpleString s => s.length ≤ maxLineLength - 2
  | _, .error s => s.length ≤ maxLineLength - 2
  | _, .integer _ => True
  | _, .bulkString none => True
  | _, .bulkString (some data) => data.length ≤ maxBulkStringLength
  | 0, .array _ => False
  | room + 1, .array elems => elems.length ≤ maxArrayLength ∧ ∀ v ∈ elems, v.WithinLimits room

/-- Writing the value succeeds, the bytes are read as an equal value with nothing left over, and
writing that value gives the same bytes. -/
def WritesBack (v : Value) : Prop :=
  ∃ b w, v.resp = some b ∧ readValue b = .ok (w, []) ∧ w = v ∧ w.resp = some b

/-! ## The value of a valid form -/

section Valid

variable {room : Nat} {f : Form}

/-- The fields of a line are few and short. -/
theorem length_fields_of_fitsLine {line : Bytes} (h : FitsLine line) :
    (fields line).length ≤ maxArrayLength ∧
      ∀ field ∈ fields line, field.length ≤ maxBulkStringLength := by
  have hlen := h.2
  have harray : maxArrayLength = 1048576 := rfl
  have hbulk : maxBulkStringLength = 67108864 := rfl
  constructor
  · have hcount := Lib.length_fields_le line
    omega
  · intro field hfield
    have hfieldLen := Lib.length_le_of_mem_fields hfield
    omega

theorem withinLimits_inline {line : Bytes} (h : FitsLine line) (room : Nat) :
    (Form.inline line).value.WithinLimits (room + 1) := by
  obtain ⟨hcount, hfields⟩ := length_fields_of_fitsLine h
  refine ⟨by rwa [List.length_map], ?_⟩
  rw [List.forall_mem_map]
  intro field hfield
  rw [newBulkString, Value.WithinLimits]
  exact hfields field hfield

theorem encodable_inline {line : Bytes} (h : FitsLine line) (room : Nat) :
    Encodable (room + 1) (Form.inline line).value := by
  obtain ⟨hcount, hfields⟩ := length_fields_of_fitsLine h
  refine ⟨by rwa [List.length_map], ?_⟩
  rw [List.forall_mem_map]
  intro field hfield
  rw [newBulkString, Encodable]
  exact hfields field hfield

theorem Form.Valid.delimited (h : f.Valid room) : Delimited f.value := by
  induction h with
  | simpleString hfits => exact .simpleString hfits
  | error hfits => exact .error hfits
  | integer => exact .integer _
  | nullBulkString => exact .bulk none
  | bulkString => exact .bulk _
  | nullArray => exact .nil
  | array _ _ _ _ ih =>
      apply Delimited.array
      rw [Form.valueAll_eq_map, List.forall_mem_map]
      exact ih
  | inline =>
      apply Delimited.array
      rw [List.forall_mem_map]
      intro field _
      exact .bulk _

/-- Only an inline command at the last level breaks the limits. -/
theorem Form.Valid.withinLimits_iff (h : f.Valid room) :
    f.value.WithinLimits room ↔ ¬ f.InlineAt room := by
  induction h with
  | simpleString hfits =>
      refine iff_of_true ?_ (by rintro ⟨⟩)
      rw [Form.value, Value.WithinLimits]
      exact hfits.2
  | error hfits =>
      refine iff_of_true ?_ (by rintro ⟨⟩)
      rw [Form.value, Value.WithinLimits]
      exact hfits.2
  | integer =>
      refine iff_of_true ?_ (by rintro ⟨⟩)
      rw [Form.value, Value.WithinLimits]
      trivial
  | nullBulkString =>
      refine iff_of_true ?_ (by rintro ⟨⟩)
      rw [Form.value, Value.WithinLimits]
      trivial
  | bulkString _ _ hmax =>
      refine iff_of_true ?_ (by rintro ⟨⟩)
      rw [Form.value, Value.WithinLimits]
      exact hmax
  | nullArray => exact iff_of_true trivial (by rintro ⟨⟩)
  | @array room line elems _ _ hmax _ ih =>
      rw [Form.value, Value.WithinLimits, Form.length_valueAll, Form.valueAll_eq_map,
        List.forall_mem_map]
      constructor
      · rintro ⟨-, helems⟩ (_ | ⟨hf, hinline⟩)
        exact (ih _ hf).1 (helems _ hf) hinline
      · intro hinline
        refine ⟨hmax, ?_⟩
        intro f hf
        exact (ih f hf).2 fun hat => hinline (.inside hf hat)
  | @inline room line hfits =>
      cases room with
      | zero => exact iff_of_false id (not_not.2 .here)
      | succ room => exact iff_of_true (withinLimits_inline hfits room) (by rintro ⟨⟩)

/-- What is within the limits can be encoded, if there is no null array in it. -/
theorem Form.Valid.encodable_iff (h : f.Valid room) :
    Encodable room f.value ↔ f.value.WithinLimits room ∧ ¬ f.HasNullArray := by
  induction h with
  | simpleString hfits =>
      rw [Form.value, Value.WithinLimits, Encodable]
      exact iff_of_true hfits ⟨hfits.2, by rintro ⟨⟩⟩
  | error hfits =>
      rw [Form.value, Value.WithinLimits, Encodable]
      exact iff_of_true hfits ⟨hfits.2, by rintro ⟨⟩⟩
  | integer =>
      rw [Form.value, Value.WithinLimits, Encodable]
      exact iff_of_true trivial ⟨trivial, by rintro ⟨⟩⟩
  | nullBulkString =>
      rw [Form.value, Value.WithinLimits, Encodable]
      exact iff_of_true trivial ⟨trivial, by rintro ⟨⟩⟩
  | bulkString _ _ hmax =>
      rw [Form.value, Value.WithinLimits, Encodable]
      exact iff_of_true hmax ⟨hmax, by rintro ⟨⟩⟩
  | nullArray => exact iff_of_false id fun hand => hand.2 .here
  | @array room line elems _ _ hmax _ ih =>
      rw [Form.value, Value.WithinLimits, Encodable, Form.length_valueAll, Form.valueAll_eq_map,
        List.forall_mem_map, List.forall_mem_map]
      constructor
      · rintro ⟨hlen, helems⟩
        refine ⟨⟨hlen, fun f hf => ((ih f hf).1 (helems f hf)).1⟩, ?_⟩
        rintro (_ | ⟨hf, hnull⟩)
        exact ((ih _ hf).1 (helems _ hf)).2 hnull
      · rintro ⟨⟨hlen, helems⟩, hnull⟩
        refine ⟨hlen, ?_⟩
        intro f hf
        exact (ih f hf).2 ⟨helems f hf, fun hnullf => hnull (.inside hf hnullf)⟩
  | @inline room line hfits =>
      cases room with
      | zero => exact iff_of_false id fun hand => hand.1
      | succ room =>
          refine iff_of_true (encodable_inline hfits room) ⟨withinLimits_inline hfits room, ?_⟩
          rintro ⟨⟩

/-- One more level is always enough: no inline command is deeper than the arrays around it. -/
theorem Form.Valid.withinLimits_succ (h : f.Valid room) : f.value.WithinLimits (room + 1) := by
  induction h with
  | simpleString hfits => exact hfits.2
  | error hfits => exact hfits.2
  | integer => trivial
  | nullBulkString => trivial
  | bulkString _ _ hmax => exact hmax
  | nullArray => trivial
  | array _ _ hmax _ ih =>
      rw [Form.value, Value.WithinLimits, Form.length_valueAll, Form.valueAll_eq_map,
        List.forall_mem_map]
      exact ⟨hmax, ih⟩
  | @inline room line hfits => exact withinLimits_inline hfits room

end Valid

/-! ## Accepted streams -/

section Accepted

variable {s rest : Bytes} {v : Value}

/-- The form that was read is there, and any form that the stream starts with is the one. -/
theorem exists_form_of_readValue (h : readValue s = .ok (v, rest)) :
    (∃ f : Form, f.Valid maxArrayDepth ∧ s = f.bytes ++ rest) ∧
      ∀ f : Form, f.Valid maxArrayDepth → s = f.bytes ++ rest → f.value = v := by
  obtain ⟨f, hf, hs, -⟩ := readValueWithin_eq_ok_iff.1 h
  refine ⟨⟨f, hf, hs⟩, ?_⟩
  rintro g hg rfl
  have hread := readValueWithin_form hg rest
  exact congrArg Prod.fst (Except.ok.inj (hread.symm.trans h))

/-- **The limits of accepted values.** An accepted stream starts with a valid form. The value read
is within the declared limits if and only if there is no inline command inside 32 arrays; with one
level more allowed, it always is. -/
theorem limits_iff (h : readValue s = .ok (v, rest)) :
    (∃ f : Form, f.Valid maxArrayDepth ∧ s = f.bytes ++ rest) ∧
    (∀ f : Form, f.Valid maxArrayDepth → s = f.bytes ++ rest →
      (v.WithinLimits maxArrayDepth ↔ ¬ f.InlineAt maxArrayDepth)) ∧
    v.WithinLimits (maxArrayDepth + 1) := by
  obtain ⟨⟨f, hf, hs⟩, hvalue⟩ := exists_form_of_readValue h
  refine ⟨⟨f, hf, hs⟩, ?_, ?_⟩
  · intro g hg hsg
    rw [← hvalue g hg hsg]
    exact hg.withinLimits_iff
  · rw [← hvalue f hf hs]
    exact hf.withinLimits_succ

/-- An inline command inside an array, within the limits. -/
theorem limits_iff_ping :
    (∃ f : Form, f.Valid maxArrayDepth ∧ str "*1\r\nPING\r\n" = f.bytes ++ []) ∧
    (∀ f : Form, f.Valid maxArrayDepth → str "*1\r\nPING\r\n" = f.bytes ++ [] →
      ((Value.array [.array [newBulkString (str "PING")]]).WithinLimits maxArrayDepth ↔
        ¬ f.InlineAt maxArrayDepth)) ∧
    (Value.array [.array [newBulkString (str "PING")]]).WithinLimits (maxArrayDepth + 1) :=
  limits_iff (by rfl)

/-- `n` arrays around an empty inline command. -/
def nestedInline : Nat → Form
  | 0 => .inline []
  | n + 1 => .array (str "1") [nestedInline n]

theorem valid_nestedInline (n : Nat) : (nestedInline n).Valid n := by
  induction n with
  | zero => exact .inline (by decide) nofun
  | succ n ih =>
      apply Form.Valid.array
      · decide
      · exact ⟨1, by decide, rfl⟩
      · show 1 ≤ maxArrayLength
        decide
      · rw [List.forall_mem_singleton]
        exact ih

theorem inlineAt_nestedInline (n : Nat) : (nestedInline n).InlineAt n := by
  induction n with
  | zero => exact .here
  | succ n ih => exact .inside List.mem_cons_self ih

/-- The header of an array with one element, 32 times, and an empty line. -/
def deepStream : Bytes := (List.replicate 32 (str "*1\r\n")).flatten ++ crlf

theorem bytes_nestedInline : (nestedInline 32).bytes ++ [] = deepStream := by
  rfl

theorem readValue_deepStream : readValue deepStream = .ok ((nestedInline 32).value, []) := by
  rw [← bytes_nestedInline]
  exact readValueWithin_form (valid_nestedInline 32) []

/-- The empty line is an array at level 33. -/
theorem deepStream_breaks_limits :
    ∃ v, readValue deepStream = .ok (v, []) ∧ ¬ v.WithinLimits maxArrayDepth := by
  refine ⟨_, readValue_deepStream, ?_⟩
  intro hlimits
  exact (valid_nestedInline 32).withinLimits_iff.1 hlimits (inlineAt_nestedInline 32)

/-- What is accepted comes back if and only if it can be encoded. -/
theorem writesBack_iff_encodable (hv : Delimited v) : WritesBack v ↔ Encodable maxArrayDepth v := by
  constructor
  · rintro ⟨b, w, hb, hread, -⟩
    exact encodable_of_read hv hb (by rwa [List.append_nil])
  · intro h
    obtain ⟨b, hb⟩ := resp_of_encodable h
    have hread := readValueWithin_resp h hb []
    rw [List.append_nil] at hread
    exact ⟨b, v, hb, hread, rfl, hb⟩

/-- **What is accepted can be written back, but for two forms.** An accepted stream starts with a
valid form. The value read can be written, read back as an equal value and written again if and only
if there is no null array in the form and no inline command inside 32 arrays. -/
theorem write_back_iff (h : readValue s = .ok (v, rest)) :
    (∃ f : Form, f.Valid maxArrayDepth ∧ s = f.bytes ++ rest) ∧
    ∀ f : Form, f.Valid maxArrayDepth → s = f.bytes ++ rest →
      (WritesBack v ↔ ¬ f.HasNullArray ∧ ¬ f.InlineAt maxArrayDepth) := by
  obtain ⟨hexists, hvalue⟩ := exists_form_of_readValue h
  refine ⟨hexists, ?_⟩
  intro f hf hs
  rw [← hvalue f hf hs, writesBack_iff_encodable hf.delimited, hf.encodable_iff,
    hf.withinLimits_iff, and_comm]

/-- A command with a number that is not in canonical form. -/
theorem write_back_iff_number :
    (∃ f : Form, f.Valid maxArrayDepth ∧ str ":+007\r\n" = f.bytes ++ []) ∧
    ∀ f : Form, f.Valid maxArrayDepth → str ":+007\r\n" = f.bytes ++ [] →
      (WritesBack (.integer 7) ↔ ¬ f.HasNullArray ∧ ¬ f.InlineAt maxArrayDepth) :=
  write_back_iff (by rfl)

/-- A null array has no encoding, and an array at level 33 is refused. -/
theorem accepted_not_written_back :
    (readValue (str "*-1\r\n") = .ok (.nil, []) ∧ Value.nil.resp = none ∧ ¬ WritesBack .nil) ∧
    ∃ v, readValue deepStream = .ok (v, []) ∧ ¬ WritesBack v := by
  constructor
  · refine ⟨rfl, rfl, ?_⟩
    rintro ⟨b, w, hb, -⟩
    cases hb
  · refine ⟨_, readValue_deepStream, ?_⟩
    intro hback
    have hvalid := valid_nestedInline 32
    have hencodable := (writesBack_iff_encodable hvalid.delimited).1 hback
    exact hvalid.withinLimits_iff.1 (hvalid.encodable_iff.1 hencodable).1 (inlineAt_nestedInline 32)

end Accepted

end Hapartition
