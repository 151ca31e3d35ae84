import Mathlib.Algebra.Group.Nat.Defs
import Hapartition.Lib.Bytes

/-!
# The protocol buffer wire format

A message on the wire is a sequence of fields, each a number, a wire type and a payload. This file
has the writer and the reader of varints and of fields, the round trip of a field sequence
(`readFields_encodeFields`), and that a field with a byte missing is refused
(`readField_of_prefix`). What the field numbers mean is up to the messages built on it.
-/

set_option autoImplicit false

namespace Hapartition.Lib.Wire

/-! ## Varints -/

/-- Base 128, least significant group first, the high bit set on all bytes but the last. -/
def varintAux : Nat → Nat → Bytes
  | 0, n => [UInt8.ofNat n]
  | fuel + 1, n =>
      if n < 128 then [UInt8.ofNat n] else UInt8.ofNat (n % 128 + 128) :: varintAux fuel (n / 128)

/-- The varint of a number. -/
def varint (n : Nat) : Bytes := varintAux n.log2 n

/-- Reads one varint. -/
def readVarint : Bytes → Option (Nat × Bytes)
  | [] => none
  | b :: rest =>
      if b < 128 then some (b.toNat, rest)
      else
        match readVarint rest with
        | none => none
        | some (n, rest') => some (b.toNat - 128 + 128 * n, rest')

theorem readVarint_low {n : Nat} (h : n < 128) (rest : Bytes) :
    readVarint (UInt8.ofNat n :: rest) = some (n, rest) := by
  have hn : (UInt8.ofNat n).toNat = n := by
    rw [UInt8.toNat_ofNat']
    omega
  rw [readVarint, if_pos (by rw [UInt8.lt_iff_toNat_lt, hn]; exact h), hn]

theorem readVarint_varintAux {fuel n : Nat} (h : n < 2 ^ (fuel + 1)) (rest : Bytes) :
    readVarint (varintAux fuel n ++ rest) = some (n, rest) := by
  -- a round divides the number by 128, so the bits of `n` are more rounds than it takes
  induction fuel generalizing n with
  | zero => exact readVarint_low (by omega) rest
  | succ fuel ih =>
      rw [varintAux]
      by_cases hn : n < 128
      · rw [if_pos hn]
        exact readVarint_low hn rest
      · have hb : (UInt8.ofNat (n % 128 + 128)).toNat = n % 128 + 128 := by
          rw [UInt8.toNat_ofNat']
          omega
        have hlow : ¬ UInt8.ofNat (n % 128 + 128) < 128 := by
          rw [UInt8.lt_iff_toNat_lt, hb]
          exact Nat.not_lt.2 (Nat.le_add_left 128 _)
        rw [if_neg hn, List.cons_append, readVarint, if_neg hlow,
          ih (by rw [Nat.pow_succ] at h ⊢; omega)]
        simp only [hb, Option.some.injEq, Prod.mk.injEq, and_true]
        omega

theorem readVarint_varint (n : Nat) (rest : Bytes) :
    readVarint (varint n ++ rest) = some (n, rest) :=
  readVarint_varintAux Nat.lt_log2_self rest

/-! ## Fields -/

/-- A payload, by wire type; the fixed-width types are only skipped over. -/
inductive Payload where
  | varint (n : Nat)
  | fixed64 (b : Bytes)
  | bytes (b : Bytes)
  | fixed32 (b : Bytes)
  deriving DecidableEq, Repr

/-- One field of a message. -/
structure Field where
  num : Nat
  payload : Payload
  deriving DecidableEq, Repr

/-- A fixed number of bytes. -/
def readBytes (n : Nat) (s : Bytes) : Option (Bytes × Bytes) :=
  if s.length < n then none else some (s.take n, s.drop n)

/-- A varint or length-delimited field; the other types are never written. -/
def encodeField : Field → Bytes
  | ⟨num, .varint n⟩ => varint (num * 8) ++ varint n
  | ⟨num, .fixed64 b⟩ => varint (num * 8 + 1) ++ b
  | ⟨num, .bytes b⟩ => varint (num * 8 + 2) ++ (varint b.length ++ b)
  | ⟨num, .fixed32 b⟩ => varint (num * 8 + 5) ++ b

/-- Reads one field; groups are refused. -/
def readField (s : Bytes) : Option (Field × Bytes) := do
  let (tag, rest) ← readVarint s
  match tag % 8 with
  | 0 => do
      let (n, rest') ← readVarint rest
      return (⟨tag / 8, .varint n⟩, rest')
  | 1 => do
      let (b, rest') ← readBytes 8 rest
      return (⟨tag / 8, .fixed64 b⟩, rest')
  | 2 => do
      let (n, rest') ← readVarint rest
      let (b, rest'') ← readBytes n rest'
      return (⟨tag / 8, .bytes b⟩, rest'')
  | 5 => do
      let (b, rest') ← readBytes 4 rest
      return (⟨tag / 8, .fixed32 b⟩, rest')
  | _ => none

/-- Fields one after the other. -/
def encodeFields (fs : List Field) : Bytes := fs.flatMap encodeField

/-- Reads fields to the end of the input, within a number of rounds. -/
def readFieldsAux : Nat → Bytes → Option (List Field)
  | _, [] => some []
  | 0, _ :: _ => none
  | fuel + 1, b :: s => do
      let (f, rest) ← readField (b :: s)
      let fs ← readFieldsAux fuel rest
      return f :: fs

/-- Reads fields to the end of the input. A field takes at least one byte. -/
def readFields (s : Bytes) : Option (List Field) := readFieldsAux s.length s

/-- A field of a type that messages are built of. -/
def Field.Written : Field → Prop
  | ⟨_, .varint _⟩ => True
  | ⟨_, .bytes _⟩ => True
  | _ => False

theorem readField_encodeField {f : Field} (hf : f.Written) (rest : Bytes) :
    readField (encodeField f ++ rest) = some (f, rest) := by
  obtain ⟨num, payload⟩ := f
  cases payload with
  | varint n =>
      have hmod : num * 8 % 8 = 0 := Nat.mul_mod_left num 8
      have hdiv : num * 8 / 8 = num := Nat.mul_div_cancel num (by decide)
      rw [readField, encodeField, List.append_assoc, readVarint_varint]
      simp only [bind, Option.bind, hmod, hdiv, readVarint_varint]
      rfl
  | bytes b =>
      have hmod : (num * 8 + 2) % 8 = 2 := by omega
      have hdiv : (num * 8 + 2) / 8 = num := by omega
      rw [readField, encodeField, List.append_assoc, readVarint_varint]
      simp only [bind, Option.bind, hmod, hdiv, List.append_assoc, readVarint_varint, readBytes]
      rw [if_neg (by simp), List.take_left, List.drop_left]
      rfl
  | fixed64 b => exact hf.elim
  | fixed32 b => exact hf.elim

theorem varintAux_ne_nil (fuel n : Nat) : varintAux fuel n ≠ [] := by
  cases fuel with
  | zero => simp [varintAux]
  | succ fuel =>
      rw [varintAux]
      split <;> simp

theorem encodeField_ne_nil (f : Field) : encodeField f ≠ [] := by
  obtain ⟨num, payload⟩ := f
  cases payload <;> simp [encodeField, varint, varintAux_ne_nil]

theorem readFieldsAux_encodeFields {fs : List Field} (hfs : ∀ f ∈ fs, f.Written) {fuel : Nat}
    (hfuel : (encodeFields fs).length ≤ fuel) :
    readFieldsAux fuel (encodeFields fs) = some fs := by
  -- on the fields; each takes at least one byte, so the rounds left still cover the rest
  induction fs generalizing fuel with
  | nil => cases fuel <;> rfl
  | cons f fs ih =>
      have hcons : encodeFields (f :: fs) = encodeField f ++ encodeFields fs := rfl
      have hread := readField_encodeField (hfs f List.mem_cons_self) (encodeFields fs)
      rw [hcons, List.length_append] at hfuel
      rw [hcons]
      cases hb : encodeField f with
      | nil => exact absurd hb (encodeField_ne_nil f)
      | cons b bs =>
          rw [hb] at hread hfuel
          cases fuel with
          | zero => simp at hfuel
          | succ fuel =>
              rw [List.cons_append] at hread ⊢
              rw [readFieldsAux, hread]
              simp only [bind, Option.bind]
              rw [ih (fun g hg => hfs g (List.mem_cons_of_mem f hg)) (by
                rw [List.length_cons] at hfuel
                omega)]
              rfl

/-- Reading back a sequence of fields. -/
theorem readFields_encodeFields {fs : List Field} (hfs : ∀ f ∈ fs, f.Written) :
    readFields (encodeFields fs) = some fs :=
  readFieldsAux_encodeFields hfs le_rfl

/-! ## Incomplete input -/

/-- More input does not change what has been read. -/
theorem readVarint_append {s rest : Bytes} {n : Nat} (h : readVarint s = some (n, rest))
    (t : Bytes) : readVarint (s ++ t) = some (n, rest ++ t) := by
  induction s generalizing n rest with
  | nil => cases h
  | cons b s ih =>
      rw [readVarint] at h
      rw [List.cons_append, readVarint]
      split at h
      next hlow =>
        obtain ⟨rfl, rfl⟩ := Prod.mk.inj (Option.some.inj h)
        exact if_pos hlow
      next hlow =>
        rw [if_neg hlow]
        cases hread : readVarint s with
        | none => simp [hread] at h
        | some p =>
            simp only [hread, Option.some.injEq, Prod.mk.injEq] at h
            obtain ⟨rfl, rfl⟩ := h
            rw [ih hread]

theorem readBytes_append {n : Nat} {s b rest : Bytes} (h : readBytes n s = some (b, rest))
    (t : Bytes) : readBytes n (s ++ t) = some (b, rest ++ t) := by
  rw [readBytes] at h
  split at h
  · cases h
  next hlen =>
    obtain ⟨rfl, rfl⟩ := Prod.mk.inj (Option.some.inj h)
    have hle : n ≤ s.length := Nat.not_lt.1 hlen
    rw [readBytes, if_neg (by rw [List.length_append]; omega), List.take_append_of_le_length hle,
      List.drop_append_of_le_length hle]

theorem readField_append {s rest : Bytes} {f : Field} (h : readField s = some (f, rest))
    (t : Bytes) : readField (s ++ t) = some (f, rest ++ t) := by
  rw [readField] at h ⊢
  obtain ⟨⟨tag, s₁⟩, htag, h⟩ := Option.bind_eq_some_iff.1 h
  rw [readVarint_append htag]
  simp only [bind, Option.bind] at h ⊢
  split at h
  next =>
    cases hn : readVarint s₁ with
    | none => simp [hn] at h
    | some p =>
        simp only [hn] at h
        cases h
        simp only [readVarint_append hn]
        rfl
  next =>
    cases hb : readBytes 8 s₁ with
    | none => simp [hb] at h
    | some p =>
        simp only [hb] at h
        cases h
        simp only [readBytes_append hb]
        rfl
  next =>
    cases hn : readVarint s₁ with
    | none => simp [hn] at h
    | some p =>
        simp only [hn] at h
        cases hb : readBytes p.1 p.2 with
        | none => simp [hb] at h
        | some p' =>
            simp only [hb] at h
            cases h
            simp only [readVarint_append hn, readBytes_append hb]
            rfl
  next =>
    cases hb : readBytes 4 s₁ with
    | none => simp [hb] at h
    | some p =>
        simp only [hb] at h
        cases h
        simp only [readBytes_append hb]
        rfl
  next => cases h

/-- A field of which a byte is missing is refused. -/
theorem readField_of_prefix {f : Field} (hf : f.Written) {q : Bytes} (hq : q <+: encodeField f)
    (hne : q ≠ encodeField f) : readField q = none := by
  obtain ⟨t, ht⟩ := hq
  cases hread : readField q with
  | none => rfl
  | some p =>
      -- the missing bytes would be left over
      have hmore := readField_append hread t
      have hwhole := readField_encodeField hf []
      rw [ht, ← List.append_nil (encodeField f), hwhole] at hmore
      have hrest : p.2 ++ t = [] := (congrArg Prod.snd (Option.some.inj hmore)).symm
      obtain rfl := (List.append_eq_nil_iff.1 hrest).2
      exact absurd (List.append_nil q ▸ ht) hne

end Hapartition.Lib.Wire
