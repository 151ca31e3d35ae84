import Hapartition.Resp.Wire

/-!
# Decoding undoes encoding

`Encodable room v` bounds a value as the reader does: lines without a line feed and within the line
limit, bulk strings and arrays within theirs, arrays nested at most `room` deep, no nil.

- `resp_of_encodable`: such a value has an encoding.
- `exists_form_of_encodable`: the encoding is the bytes of a valid form that stands for the value.
  The induction is on the nesting still allowed; the elements of an array are the list induction
  `exists_forms_of_respAll`.
- `readValueWithin_resp`: so the reader returns the value from its encoding, whatever follows it,
  and leaves what follows unread.
- `readValues_respAll`: the same for a stream of values.
-/

set_option autoImplicit false

namespace Hapartition

open Lib (Bytes str itoa)

/-- A value within the limits of the reader, its arrays nested at most `room` deep. -/
def Encodable : Nat → Value → Prop
  | _, .nil => False
  | _, .simpleString s => 10 ∉ s ∧ s.length ≤ 65534
  | _, .error s => 10 ∉ s ∧ s.length ≤ 65534
  | _, .integer _ => True
  | _, .bulkString none => True
  | _, .bulkString (some data) => data.length ≤ 64 * 2 ^ 20
  | 0, .array _ => False
  | room + 1, .array elems => elems.length ≤ 2 ^ 20 ∧ ∀ v ∈ elems, Encodable room v

/-! ## Length lines -/

theorem lf_notMem_itoa (n : Int) : (10 : UInt8) ∉ itoa n := by
  intro h
  rcases Lib.mem_itoa h with h | h
  · exact absurd h (by decide)
  · exact absurd h (by decide)

/-- The numeral of a 64-bit integer is a line. -/
theorem fitsLine_itoa {n : Int} (h : n.natAbs < 10 ^ 19) : FitsLine (itoa n) := by
  have hlen := Lib.length_itoa_le (by decide) h
  exact ⟨lf_notMem_itoa n, by omega⟩

theorem fitsLine_itoa_length {n : Nat} (h : n < 2 ^ 63) : FitsLine (itoa n) := by
  apply fitsLine_itoa
  rw [Int.natAbs_natCast]
  omega

theorem announces_itoa {n : Nat} (h : n < 2 ^ 63) : Announces (itoa n) n :=
  ⟨Int64.ofNat n, Lib.atoi_itoa_natCast h, Int64.toInt_ofNat_of_lt h⟩

/-- No length is written as the null marker. -/
theorem itoa_natCast_ne_null (n : Nat) : itoa n ≠ str "-1" := by
  intro h
  have hmem : (45 : UInt8) ∈ itoa n := h ▸ (by decide : (45 : UInt8) ∈ str "-1")
  rw [itoa, if_neg (by omega)] at hmem
  exact absurd (Lib.isDigit_itoaNat hmem) (by decide)

/-! ## One value -/

/-- The encodings of several values, provided that for each of them. -/
theorem exists_forms_of_respAll {P : Form → Prop} {vs : List Value}
    (hform : ∀ v ∈ vs, ∀ b, v.resp = some b → ∃ f, P f ∧ f.bytes = b ∧ f.value = v)
    {b : Bytes} (hb : respAll vs = some b) :
    ∃ fs : List Form, (∀ f ∈ fs, P f) ∧ Form.bytesAll fs = b ∧ Form.valueAll fs = vs := by
  induction vs generalizing b with
  | nil =>
      obtain rfl := Option.some.inj hb
      exact ⟨[], by simp, rfl, rfl⟩
  | cons v vs ih =>
      obtain ⟨bv, bvs, hv, hvs, rfl⟩ := respAll_cons_eq_some hb
      obtain ⟨f, hf, rfl, rfl⟩ := hform v List.mem_cons_self bv hv
      obtain ⟨fs, hfs, rfl, rfl⟩ := ih (fun w hw => hform w (List.mem_cons_of_mem _ hw)) hvs
      exact ⟨f :: fs, List.forall_mem_cons.2 ⟨hf, hfs⟩, rfl, rfl⟩

/-- A value that holds no array is written as a form that is valid at any depth. -/
theorem exists_form_of_scalar {room : Nat} {v : Value} (h : Encodable room v)
    (hv : ∀ elems, v ≠ .array elems) {b : Bytes} (hb : v.resp = some b) :
    ∃ f : Form, f.Valid room ∧ f.bytes = b ∧ f.value = v := by
  cases v with
  | nil => cases hb
  | array elems => exact absurd rfl (hv elems)
  | simpleString s =>
      have hfits : FitsLine s := by simpa only [Encodable, FitsLine] using h
      obtain rfl := Option.some.inj hb
      exact ⟨.simpleString s, .simpleString hfits, (List.append_assoc _ _ _).symm, rfl⟩
  | error s =>
      have hfits : FitsLine s := by simpa only [Encodable, FitsLine] using h
      obtain rfl := Option.some.inj hb
      exact ⟨.error s, .error hfits, (List.append_assoc _ _ _).symm, rfl⟩
  | integer n =>
      have hfits : FitsLine (itoa n.toInt) := by
        apply fitsLine_itoa
        have := n.toInt_lt
        have := n.le_toInt
        omega
      obtain rfl := Option.some.inj hb
      exact ⟨.integer _ n, .integer hfits (Lib.atoi_itoa n), (List.append_assoc _ _ _).symm, rfl⟩
  | bulkString data =>
      cases data with
      | none =>
          obtain rfl := Option.some.inj hb
          exact ⟨.nullBulkString, .nullBulkString, rfl, rfl⟩
      | some data =>
          have hmax : data.length ≤ 64 * 2 ^ 20 := by simpa only [Encodable] using h
          have hlt : data.length < 2 ^ 63 := by omega
          obtain rfl := Option.some.inj hb
          refine ⟨.bulkString _ data,
            .bulkString (fitsLine_itoa_length hlt) (announces_itoa hlt) hmax, ?_, rfl⟩
          simp [Form.bytes]

/-- What is written for a value within the limits is a valid form. -/
theorem exists_form_of_encodable {room : Nat} {v : Value} (h : Encodable room v) {b : Bytes}
    (hb : v.resp = some b) : ∃ f : Form, f.Valid room ∧ f.bytes = b ∧ f.value = v := by
  induction room generalizing v b with
  | zero =>
      -- no array is within the limits here
      refine exists_form_of_scalar h (fun elems hv => ?_) hb
      rw [hv] at h
      exact h
  | succ room ih =>
      cases v with
      | array elems =>
          obtain ⟨hmax, helems⟩ : elems.length ≤ 2 ^ 20 ∧ ∀ v ∈ elems, Encodable room v := h
          obtain ⟨bs, hall, rfl⟩ := Value.resp_array_eq_some hb
          obtain ⟨fs, hfs, rfl, rfl⟩ :=
            exists_forms_of_respAll (fun v hv b hb => ih (helems v hv) hb) hall
          rw [Form.length_valueAll] at hmax ⊢
          have hlt : fs.length < 2 ^ 63 := by omega
          refine ⟨.array _ fs, .array (fitsLine_itoa_length hlt) (announces_itoa hlt) hmax hfs,
            ?_, rfl⟩
          simp [Form.bytes]
      | _ => exact exists_form_of_scalar h (by rintro _ ⟨⟩) hb

/-- Reading a value back, at any depth that leaves room for its arrays. -/
theorem readValueWithin_resp {room : Nat} {v : Value} (h : Encodable room v) {b : Bytes}
    (hb : v.resp = some b) (rest : Bytes) :
    readValueWithin room (b ++ rest) = .ok (v, rest) := by
  obtain ⟨f, hf, rfl, rfl⟩ := exists_form_of_encodable h hb
  exact readValueWithin_form hf rest

theorem respAll_of_forall {vs : List Value} (h : ∀ v ∈ vs, ∃ b, v.resp = some b) :
    ∃ b, respAll vs = some b := by
  induction vs with
  | nil => exact ⟨[], rfl⟩
  | cons v vs ih =>
      obtain ⟨b, hb⟩ := h v List.mem_cons_self
      obtain ⟨bs, hbs⟩ := ih fun w hw => h w (List.mem_cons_of_mem v hw)
      exact ⟨b ++ bs, by rw [respAll, hb, hbs]⟩

/-- A value within the limits has an encoding. -/
theorem resp_of_encodable {room : Nat} {v : Value} (h : Encodable room v) :
    ∃ b, v.resp = some b := by
  induction room generalizing v with
  | zero =>
      cases v with
      | nil => exact h.elim
      | array elems => exact h.elim
      | bulkString data => cases data <;> exact ⟨_, rfl⟩
      | _ => exact ⟨_, rfl⟩
  | succ room ih =>
      cases v with
      | nil => exact h.elim
      | array elems =>
          obtain ⟨bs, hbs⟩ := respAll_of_forall fun v hv => ih (h.2 v hv)
          exact ⟨_, by rw [Value.resp, hbs]⟩
      | bulkString data => cases data <;> exact ⟨_, rfl⟩
      | _ => exact ⟨_, rfl⟩

/-! ## Streams -/

theorem readValues_of_readElements {n : Nat} {s : Bytes} {i : Nat} {r : List Value × Bytes}
    (h : readElements readValue i n s = .ok r) : readValues n s = .ok r := by
  induction n generalizing s i r with
  | zero => exact h
  | succ n ih =>
      obtain ⟨v, rest, vs, rest', hv, hvs, rfl⟩ := readElements_succ_eq_ok h
      rw [readValues, hv]
      simp only [ih hvs]

/-- Decoding undoes encoding on streams: the values within the limits, written one after the other
and followed by anything, are read back in order, and what follows them is left unread. -/
theorem readValues_respAll {vs : List Value} (h : ∀ v ∈ vs, Encodable 32 v) :
    ∃ b, respAll vs = some b ∧ ∀ rest, readValues vs.length (b ++ rest) = .ok (vs, rest) := by
  obtain ⟨b, hb⟩ := respAll_of_forall fun v hv => resp_of_encodable (h v hv)
  refine ⟨b, hb, ?_⟩
  intro rest
  obtain ⟨fs, hvalid, rfl, rfl⟩ :=
    exists_forms_of_respAll (fun v hv b hb => exists_form_of_encodable (h v hv) hb) hb
  rw [Form.length_valueAll]
  exact readValues_of_readElements (i := 0)
    ((readElements_eq_ok_iff fun _ _ => readValueWithin_eq_ok_iff).2 ⟨fs, rfl, hvalid, rfl, rfl⟩)

/-- A stream with every kind of value, a bulk string that holds CRLF, and nested arrays. -/
def sampleStream : List Value :=
  [.simpleString (str "OK"), .integer (-7), newBulkString (str "a\r\n$b"), nullBulkString,
    .array [.error (str "ERR no"), .array [], newBulkString []]]

theorem readValues_respAll_sample :
    ∃ b, respAll sampleStream = some b ∧
      ∀ rest, readValues sampleStream.length (b ++ rest) = .ok (sampleStream, rest) := by
  refine readValues_respAll ?_
  simp only [sampleStream, List.forall_mem_cons, Encodable, newBulkString, nullBulkString]
  exact ⟨by decide, trivial, by decide, trivial, ⟨by decide, by decide, ⟨by decide, by simp⟩,
    by decide, by simp⟩, by simp⟩

end Hapartition
