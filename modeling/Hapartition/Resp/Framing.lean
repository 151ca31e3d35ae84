import Hapartition.Resp.RoundTrip

/-!
# When a written value is one value for its reader

`OneReply v`: the encoding of `v` is read back as a single value with nothing left over. For a line
(`simpleString`, `error`) and for a value framed by lengths throughout (`Framed`: integers, bulk
strings and arrays of such), this holds exactly of the values within the limits of the reader
(`oneReply_error_iff`, `oneReply_framed_iff`).
-/

set_option autoImplicit false

namespace Hapartition

open Lib (Bytes str itoa)

/-- The bytes written for the value parse as exactly one value. -/
def OneReply (v : Value) : Prop :=
  ∃ b w, v.resp = some b ∧ readValue b = .ok (w, [])

theorem oneReply_of_encodable {v : Value} (h : Encodable 32 v) : OneReply v := by
  obtain ⟨b, hb⟩ := resp_of_encodable h
  refine ⟨b, v, hb, ?_⟩
  have := readValueWithin_resp h hb []
  rwa [List.append_nil] at this

/-! ## Lines -/

/-- A line with a line feed in it ends too early, and one over the limit is refused. -/
theorem fitsLine_of_readLine {s line : Bytes} (h : readLine (s ++ crlf) = .ok (line, [])) :
    FitsLine s := by
  obtain ⟨heq, hno, hlen⟩ := readLine_eq_ok_iff.1 h
  rw [List.append_nil] at heq
  obtain rfl := List.append_cancel_right heq
  have hmax : maxLineLength = 65536 := rfl
  exact ⟨hno, by omega⟩

theorem oneReply_error_iff {s : Bytes} : OneReply (.error s) ↔ FitsLine s := by
  refine ⟨?_, fun h => oneReply_of_encodable (v := .error s) h⟩
  rintro ⟨b, w, hb, hread⟩
  obtain rfl := Option.some.inj hb
  rw [List.append_assoc, readValue, maxArrayDepth, readValueWithin, readSwitch_error] at hread
  obtain ⟨line, rest, hline, heq⟩ := withLine_eq_ok hread
  obtain ⟨-, rfl⟩ := Prod.mk.inj (Except.ok.inj heq)
  exact fitsLine_of_readLine hline

/-! ## Framed values -/

/-- A value without lines: every part announces its length. -/
inductive Framed : Value → Prop where
  | integer (n : Int64) : Framed (.integer n)
  | bulk (data : Option Bytes) : Framed (.bulkString data)
  | array {elems : List Value} (h : ∀ v ∈ elems, Framed v) : Framed (.array elems)

/-- A value whose lines fit. -/
inductive Delimited : Value → Prop where
  | nil : Delimited .nil
  | simpleString {s : Bytes} (h : FitsLine s) : Delimited (.simpleString s)
  | error {s : Bytes} (h : FitsLine s) : Delimited (.error s)
  | integer (n : Int64) : Delimited (.integer n)
  | bulk (data : Option Bytes) : Delimited (.bulkString data)
  | array {elems : List Value} (h : ∀ v ∈ elems, Delimited v) : Delimited (.array elems)

theorem Framed.delimited {v : Value} (h : Framed v) : Delimited v := by
  induction h with
  | integer n => exact .integer n
  | bulk data => exact .bulk data
  | array _ ih => exact .array ih

/-- A length, if it is read at all, is read as it was written. -/
theorem toInt_of_atoi_itoa {n : Nat} {m : Int64} (h : Lib.atoi (itoa n) = some m) :
    m.toInt = n := by
  have hun : Lib.atoiUnbounded (itoa n) = some (n : Int) := Lib.atoiUnbounded_itoa n
  rw [Lib.atoi, hun] at h
  simp only at h
  split at h
  next hrange =>
    obtain rfl := Option.some.inj h
    exact Int64.toInt_ofInt_of_le (by omega) (by omega)
  next => cases h

/-- So is its line. -/
theorem eq_of_readLine_itoa {n : Int} {rest : Bytes} {p : Bytes × Bytes}
    (h : readLine (itoa n ++ (crlf ++ rest)) = .ok p) : p = (itoa n, rest) := by
  obtain ⟨line, rest'⟩ := p
  obtain ⟨heq, hno, -⟩ := readLine_eq_ok_iff.1 h
  have hcr : ∀ {l : Bytes}, (10 : UInt8) ∉ l → (10 : UInt8) ∉ l ++ [13] := fun hl hmem => by
    rcases List.mem_append.1 hmem with hmem | hmem
    · exact hl hmem
    · exact absurd hmem (by decide)
  obtain ⟨hline, rfl⟩ := Lib.append_cons_inj_of_notMem (hcr (lf_notMem_itoa n)) (hcr hno)
    (show itoa n ++ [13] ++ 10 :: rest = line ++ [13] ++ 10 :: rest' by simpa [crlf] using heq)
  rw [List.append_cancel_right hline]

theorem length_le_of_readBulkString {data rest : Bytes} {r : Value × Bytes}
    (h : readBulkString (itoa data.length ++ (crlf ++ rest)) = .ok r) :
    data.length ≤ 64 * 2 ^ 20 := by
  obtain ⟨line, rest', hline, hbody⟩ := withLine_eq_ok h
  obtain ⟨rfl, rfl⟩ := Prod.mk.inj (eq_of_readLine_itoa hline)
  rcases announced_eq_ok_iff.1 hbody with ⟨hnull, -⟩ | ⟨m, k, hatoi, hk, hlimit, -⟩
  · exact absurd hnull (itoa_natCast_ne_null _)
  · rw [toInt_of_atoi_itoa hatoi] at hk
    obtain rfl := Int.ofNat.inj hk
    exact hlimit

/-- An array that is read has an admissible length, and its elements have been read. -/
theorem exists_readElements_of_readArray {read : Bytes → Except ReadError (Value × Bytes)}
    {n : Nat} {rest : Bytes} {r : Value × Bytes}
    (h : readArray read (itoa n ++ (crlf ++ rest)) = .ok r) :
    n ≤ 2 ^ 20 ∧ ∃ q, readElements read 0 n rest = .ok q := by
  obtain ⟨line, rest', hline, hbody⟩ := withLine_eq_ok h
  obtain ⟨rfl, rfl⟩ := Prod.mk.inj (eq_of_readLine_itoa hline)
  rcases announced_eq_ok_iff.1 hbody with ⟨hnull, -⟩ | ⟨m, k, hatoi, hk, hlimit, helems⟩
  · exact absurd hnull (itoa_natCast_ne_null _)
  · rw [toInt_of_atoi_itoa hatoi] at hk
    obtain rfl := Int.ofNat.inj hk
    rw [toInt_of_atoi_itoa hatoi, Int.toNat_natCast] at helems
    cases hread : readElements read 0 n rest' with
    | error err => simp [hread] at helems
    | ok q => exact ⟨hlimit, q, rfl⟩

/-- If the elements are read, each of them is within the limits, provided that for a single one. -/
theorem encodable_of_readElements {room : Nat} {vs : List Value}
    (hsingle : ∀ v ∈ vs, ∀ b rest r, v.resp = some b →
      readValueWithin room (b ++ rest) = .ok r → Encodable room v)
    {b rest : Bytes} (hb : respAll vs = some b) {i : Nat} {r : List Value × Bytes}
    (h : readElements (readValueWithin room) i vs.length (b ++ rest) = .ok r) :
    ∀ v ∈ vs, Encodable room v := by
  induction vs generalizing b i r with
  | nil => simp
  | cons v vs ih =>
      obtain ⟨bv, bvs, hv, hvs, rfl⟩ := respAll_cons_eq_some hb
      rw [List.length_cons, List.append_assoc] at h
      obtain ⟨v', rest', vs', rest'', hread, htail, -⟩ := readElements_succ_eq_ok h
      have henc := hsingle v List.mem_cons_self bv (bvs ++ rest) (v', rest') hv hread
      -- an element within the limits is read back exactly, so the others start where it ends
      obtain ⟨rfl, rfl⟩ :=
        Prod.mk.inj (Except.ok.inj (hread.symm.trans (readValueWithin_resp henc hv _)))
      intro w hw
      rcases List.mem_cons.1 hw with rfl | hw
      · exact henc
      · exact ih (fun u hu => hsingle u (List.mem_cons_of_mem _ hu)) hvs htail w hw

theorem encodable_bulk_of_read {room : Nat} {data : Option Bytes} {b rest : Bytes}
    {r : Value × Bytes} (hb : (Value.bulkString data).resp = some b)
    (h : readValueWithin room (b ++ rest) = .ok r) : Encodable room (.bulkString data) := by
  cases data with
  | none => cases room <;> trivial
  | some data =>
      obtain rfl := Option.some.inj hb
      simp only [List.append_assoc] at h
      cases room with
      | zero =>
          rw [readValueWithin, readSwitch_bulkString] at h
          exact length_le_of_readBulkString h
      | succ room =>
          rw [readValueWithin, readSwitch_bulkString] at h
          exact length_le_of_readBulkString h

theorem encodable_scalar_of_read {room : Nat} {v : Value} (hv : Delimited v)
    (hscalar : ∀ elems, v ≠ .array elems) {b rest : Bytes} {r : Value × Bytes}
    (hb : v.resp = some b) (h : readValueWithin room (b ++ rest) = .ok r) : Encodable room v := by
  cases hv with
  | nil => cases hb
  | simpleString hfits =>
      rw [Encodable]
      exact hfits
  | error hfits =>
      rw [Encodable]
      exact hfits
  | integer n =>
      rw [Encodable]
      trivial
  | bulk data => exact encodable_bulk_of_read hb h
  | @array elems helems => exact absurd rfl (hscalar elems)

/-- A value whose lines fit is within the limits if it is read back at all. The induction is on the
nesting still allowed, as in the reader. -/
theorem encodable_of_read {room : Nat} {v : Value} (hv : Delimited v) {b rest : Bytes}
    {r : Value × Bytes} (hb : v.resp = some b) (h : readValueWithin room (b ++ rest) = .ok r) :
    Encodable room v := by
  induction room generalizing v b rest r with
  | zero =>
      cases v with
      | array elems =>
          -- an array below the last level is refused
          obtain ⟨bs, -, rfl⟩ := Value.resp_array_eq_some hb
          simp only [List.append_assoc] at h
          rw [readValueWithin, readSwitch_array] at h
          cases h
      | _ => exact encodable_scalar_of_read hv (by rintro _ ⟨⟩) hb h
  | succ room ih =>
      cases v with
      | array elems =>
          cases hv with
          | array helems =>
              obtain ⟨bs, hall, rfl⟩ := Value.resp_array_eq_some hb
              simp only [List.append_assoc] at h
              rw [readValueWithin, readSwitch_array] at h
              obtain ⟨hlen, q, hq⟩ := exists_readElements_of_readArray h
              exact ⟨hlen, encodable_of_readElements
                (fun v hmem b rest r hb hread => ih (helems v hmem) hb hread) hall hq⟩
      | _ => exact encodable_scalar_of_read hv (by rintro _ ⟨⟩) hb h

theorem oneReply_framed_iff {v : Value} (hv : Framed v) : OneReply v ↔ Encodable 32 v := by
  refine ⟨?_, oneReply_of_encodable⟩
  rintro ⟨b, w, hb, hread⟩
  exact encodable_of_read hv.delimited hb (by rwa [List.append_nil])

theorem oneReply_bulk_iff {data : Bytes} :
    OneReply (newBulkString data) ↔ data.length ≤ 64 * 2 ^ 20 :=
  oneReply_framed_iff (.bulk _)

/-! ## Streams -/

/-- A reader that takes nothing from what follows the value it returns. -/
def Exact {β : Type} (read : Bytes → Except ReadError (β × Bytes)) : Prop :=
  ∀ s v rest, read s = .ok (v, rest) → ∀ t, read (s ++ t) = .ok (v, rest ++ t)

/-- An exact reader refuses what is cut short. -/
theorem Exact.error_of_cut {β : Type} {read : Bytes → Except ReadError (β × Bytes)}
    (h : Exact read) {p q : Bytes} {v : β} (hp : read p = .ok (v, [])) (hq : q <+: p)
    (hne : q ≠ p) : ∃ err, read q = .error err := by
  obtain ⟨u, rfl⟩ := hq
  cases hread : read q with
  | error err => exact ⟨err, rfl⟩
  | ok r =>
      -- what is cut off would be left unread, but nothing is
      have hwhole := h q r.1 r.2 hread u
      rw [hp] at hwhole
      obtain ⟨-, hrest⟩ := Prod.mk.inj (Except.ok.inj hwhole)
      obtain ⟨-, rfl⟩ := List.append_eq_nil_iff.1 hrest.symm
      exact absurd (List.append_nil q).symm hne

/-- `ReadValue` leaves what follows the value it returns unread. -/
theorem exact_readValueWithin (room : Nat) : Exact (readValueWithin room) := by
  intro s v rest h t
  obtain ⟨f, hf, rfl, rfl⟩ := readValueWithin_eq_ok_iff.1 h
  rw [List.append_assoc]
  exact readValueWithin_form hf (rest ++ t)

/-- **Framing is exact and free of prefixes.** Where `ReadValue` returns a value, it has consumed
bytes that it reads as this value whatever follows them, leaving what follows, and of which it
refuses every strict prefix at the end of the stream. -/
theorem readValue_framing {s rest : Bytes} {v : Value} (h : readValue s = .ok (v, rest)) :
    ∃ p, s = p ++ rest ∧ (∀ t, readValue (p ++ t) = .ok (v, t)) ∧
      ∀ q, q <+: p → q ≠ p → ∃ err, readValue q = .error err := by
  obtain ⟨f, hf, rfl, rfl⟩ := readValueWithin_eq_ok_iff.1 h
  refine ⟨f.bytes, rfl, readValueWithin_form hf, ?_⟩
  intro q hq hne
  have hwhole := readValueWithin_form hf []
  rw [List.append_nil] at hwhole
  exact (exact_readValueWithin maxArrayDepth).error_of_cut hwhole hq hne

/-- A pipelined command, with an inline command, a null and a line with a carriage return in it. -/
theorem readValue_framing_pipelined :
    ∃ p, str "*3\r\nGET a b\r\n$-1\r\n+x\ry\r\nPING" = p ++ str "PING" ∧
      (∀ t, readValue (p ++ t) = .ok (.array [.array [newBulkString (str "GET"),
        newBulkString (str "a"), newBulkString (str "b")], nullBulkString,
          .simpleString (str "x\ry")], t)) ∧
      ∀ q, q <+: p → q ≠ p → ∃ err, readValue q = .error err :=
  readValue_framing (by rfl)

/-- Values that are each one value for a reader are so many values in a row. -/
theorem readValues_of_oneReply {vs : List Value} (h : ∀ v ∈ vs, OneReply v) :
    ∃ b ws, respAll vs = some b ∧ ws.length = vs.length ∧
      readValues vs.length b = .ok (ws, []) := by
  induction vs with
  | nil => exact ⟨[], [], rfl, rfl, rfl⟩
  | cons v vs ih =>
      obtain ⟨bv, w, hbv, hread⟩ := h v List.mem_cons_self
      obtain ⟨b, ws, hb, hlen, hreads⟩ := ih fun u hu => h u (List.mem_cons_of_mem v hu)
      refine ⟨bv ++ b, w :: ws, by rw [respAll, hbv, hb], by simp [hlen], ?_⟩
      have hfirst : readValue (bv ++ b) = .ok (w, b) := exact_readValueWithin _ bv w [] hread b
      rw [List.length_cons, readValues, hfirst]
      simp only [hreads]

end Hapartition
