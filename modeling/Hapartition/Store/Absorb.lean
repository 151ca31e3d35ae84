import Hapartition.Store.Store

/-!
# Writes as merges

The abstract view of the store: a register of entries per key, and a clock. `Absorbs s k e t` says
that `t` is `s` with `e` merged into the register of `k` and the clock moved up to the version of
`e`. As long as the clock dominates the stored versions (`ClockOk`) and no increment wraps, the
three write paths of the source are all of this kind: `SetWithVersion` compares, `SetFrom` compares
with a version above all others, and `Del` overwrites, once per distinct key
(`absorbs_setWithVersion`, `absorbs_setFrom`, `absorbsAll_del`).
-/

set_option autoImplicit false

namespace Hapartition

open Lib
open Std (ExtTreeMap LawfulEqCmp)

namespace Store

/-- The clock is at least every stored version. -/
def ClockOk (s : Store) : Prop :=
  ∀ (k : Bytes) (e : Entry), s.tree[k]? = some e → e.version ≤ s.clock

/-- `t` is `s` after one merge of `e` at `k`. -/
structure Absorbs (s : Store) (k : Bytes) (e : Entry) (t : Store) : Prop where
  tree : ∀ a, t.tree[a]? = if k = a then merge s.tree[k]? e else s.tree[a]?
  clock : t.clock = max s.clock e.version

/-- `t` is `s` after the merges listed, in order. -/
inductive AbsorbsAll : Store → List (Bytes × Entry) → Store → Prop where
  | nil (s : Store) : AbsorbsAll s [] s
  | cons {s t u : Store} {p : Bytes × Entry} {es : List (Bytes × Entry)} :
      Absorbs s p.1 p.2 t → AbsorbsAll t es u → AbsorbsAll s (p :: es) u

theorem clockOk_new : new.ClockOk := by
  intro k e h
  simp [new] at h

namespace Absorbs

variable {s t : Store} {k : Bytes} {e : Entry}

theorem clockOk (h : Absorbs s k e t) (hs : s.ClockOk) : t.ClockOk := by
  intro a e' he'
  rw [h.tree] at he'
  rw [h.clock]
  rcases eq_some_of_merge_at he' with hold | ⟨-, rfl⟩
  · exact (hs a e' hold).trans (le_max_left _ _)
  · exact le_max_right _ _

/-- Registers only grow. -/
theorem covers (h : Absorbs s k e t) {a : Bytes} {e' : Entry} (hc : Covers s.tree[a]? e') :
    Covers t.tree[a]? e' := by
  rw [h.tree]
  exact covers_merge_at hc

theorem covers_self (h : Absorbs s k e t) : Covers t.tree[k]? e := by
  rw [h.tree, if_pos rfl]
  exact covers_merge_self _ _

theorem clock_le (h : Absorbs s k e t) : s.clock ≤ t.clock := h.clock ▸ le_max_left _ _

end Absorbs

namespace AbsorbsAll

variable {s t u : Store} {es es' : List (Bytes × Entry)}

theorem single {p : Bytes × Entry} (h : Absorbs s p.1 p.2 t) : AbsorbsAll s [p] t :=
  .cons h (.nil t)

theorem append (h : AbsorbsAll s es t) (h' : AbsorbsAll t es' u) : AbsorbsAll s (es ++ es') u := by
  induction h with
  | nil => exact h'
  | cons ha _ ih => exact .cons ha (ih h')

/-- What one merge preserves, a list of merges preserves. -/
theorem preserves {P : Store → Prop} (hP : ∀ s t k e, Absorbs s k e t → P s → P t)
    (h : AbsorbsAll s es t) (hs : P s) : P t := by
  induction h with
  | nil => exact hs
  | cons ha _ ih => exact ih (hP _ _ _ _ ha hs)

theorem clockOk (h : AbsorbsAll s es t) (hs : s.ClockOk) : t.ClockOk :=
  h.preserves (fun _ _ _ _ ha => ha.clockOk) hs

theorem covers (h : AbsorbsAll s es t) {a : Bytes} {e : Entry} (hc : Covers s.tree[a]? e) :
    Covers t.tree[a]? e :=
  h.preserves (P := fun s => Covers s.tree[a]? e) (fun _ _ _ _ ha => ha.covers) hc

theorem covers_of_mem (h : AbsorbsAll s es t) {p : Bytes × Entry} (hp : p ∈ es) :
    Covers t.tree[p.1]? p.2 := by
  induction h with
  | nil => simp at hp
  | cons ha hes ih =>
      rcases List.mem_cons.1 hp with rfl | hp
      · exact hes.covers ha.covers_self
      · exact ih hp

theorem clock_le (h : AbsorbsAll s es t) : s.clock ≤ t.clock :=
  h.preserves (P := fun u => s.clock ≤ u.clock) (fun _ _ _ _ ha hs => hs.trans ha.clock_le) le_rfl

/-- A register keeps its entry while what is merged into it is covered already. -/
theorem getElem?_of_covers (h : AbsorbsAll s es t) {a : Bytes}
    (hc : ∀ p ∈ es, p.1 = a → Covers s.tree[a]? p.2) : t.tree[a]? = s.tree[a]? := by
  induction h with
  | nil => rfl
  | @cons s t u p es hab _ ih =>
      have hsame : t.tree[a]? = s.tree[a]? := by
        rw [hab.tree]
        by_cases ha : p.1 = a
        · rw [if_pos ha, ha, merge_eq_of_covers (hc p List.mem_cons_self ha)]
        · rw [if_neg ha]
      rw [ih fun q hq ha => by rw [hsame]; exact hc q (List.mem_cons_of_mem _ hq) ha, hsame]

/-- Every entry in the end was there at the start or was merged. -/
theorem mem_or_mem (h : AbsorbsAll s es t) {a : Bytes} {e : Entry} (he : t.tree[a]? = some e) :
    s.tree[a]? = some e ∨ (a, e) ∈ es := by
  induction h with
  | nil => exact Or.inl he
  | @cons s t u p es hab _ ih =>
      rcases ih he with h' | h'
      · rw [hab.tree] at h'
        rcases eq_some_of_merge_at h' with hold | ⟨rfl, rfl⟩
        · exact Or.inl hold
        · exact Or.inr List.mem_cons_self
      · exact Or.inr (List.mem_cons_of_mem _ h')

end AbsorbsAll

/-! ## The write paths -/

theorem absorbs_setWithVersion {s : Store} (hs : s.ClockOk) (key : Bytes) (entry : Entry) :
    Absorbs s key entry (s.setWithVersion key entry).1 where
  tree := getElem?_setWithVersion s key entry
  clock := by
    by_cases h : s.tree[key]?.any (fun old => !newer entry old) = true
    · -- rejected: the stored entry is not older, so its version already bounds the new one
      obtain ⟨old, hold, hn⟩ := (Option.any_eq_true _ _).1 h
      have hle : entry ≤ old := newer_eq_false_iff.1 (by simpa using hn)
      have hv := (Entry.version_le_of_le hle).trans (hs key old hold)
      rw [setWithVersion, if_pos h, max_eq_left hv]
    · rw [setWithVersion, if_neg h]
      by_cases hc : s.clock < entry.version
      · rw [max_eq_right hc.le]
        exact if_pos hc
      · rw [max_eq_left (not_lt.1 hc)]
        exact if_neg hc

/-- Without wrapping, an increment moves the clock up. -/
theorem clock_lt_add_one {c : Int64} (h : c.toInt + 1 ≤ Int64.maxValue.toInt) : c < c + 1 := by
  rw [Int64.lt_iff_toInt_lt, toInt_add_one h]
  omega

theorem absorbs_setFrom {s : Store} (key value origin : Bytes)
    (hw : s.clock.toInt + 1 ≤ Int64.maxValue.toInt) :
    Absorbs s key (s.setFrom key value origin).2 (s.setFrom key value origin).1 where
  tree := getElem?_setFrom s key value origin
  clock := by
    rw [setFrom_clock, setFrom_snd]
    exact (max_eq_right (clock_lt_add_one hw).le).symm

/-- A merge of an entry with a version above the stored ones stores it. -/
theorem merge_eq_some_of_clock_lt {s : Store} (hs : s.ClockOk) (k : Bytes) {e : Entry}
    (h : s.clock < e.version) : merge s.tree[k]? e = some e := by
  cases ho : s.tree[k]? with
  | none => rfl
  | some old => exact if_pos (Entry.lt_of_version_lt ((hs k old ho).trans_lt h))

/-- A `SetFrom` whose version does not wrap is what `Get` returns next. -/
theorem get_setFrom {s : Store} (hs : s.ClockOk) (key value origin : Bytes)
    (hw : s.clock.toInt + 1 ≤ Int64.maxValue.toInt) (a : Bytes) :
    (s.setFrom key value origin).1.get a =
      if key = a then some (value, s.clock + 1) else s.get a := by
  have hmerge : merge s.tree[key]? ⟨value, s.clock + 1, origin, false⟩ =
      some ⟨value, s.clock + 1, origin, false⟩ :=
    merge_eq_some_of_clock_lt (e := ⟨value, s.clock + 1, origin, false⟩) hs key
      (clock_lt_add_one hw)
  unfold get
  rw [getElem?_setFrom, setFrom_snd, hmerge]
  by_cases ha : key = a
  · rw [if_pos ha, if_pos ha]
    rfl
  · rw [if_neg ha, if_neg ha]

/-- The tombstone that the loop of `Del` writes. -/
def tombstone (s : Store) (origin : Bytes) : Entry := ⟨[], s.clock + 1, origin, true⟩

theorem delKey_of_contains {origin : Bytes} {d : DelLoop} {key : Bytes}
    (h : d.tombstones.contains key = true) : delKey origin d key = d :=
  if_pos h

theorem delKey_tombstones {origin : Bytes} {d : DelLoop} {key : Bytes}
    (h : ¬ d.tombstones.contains key = true) :
    (delKey origin d key).tombstones = d.tombstones.insert key (d.store.tombstone origin) := by
  rw [delKey, if_neg h]
  rfl

theorem absorbs_delKey {origin : Bytes} {d : DelLoop} {key : Bytes} (hs : d.store.ClockOk)
    (h : ¬ d.tombstones.contains key = true)
    (hw : d.store.clock.toInt + 1 ≤ Int64.maxValue.toInt) :
    Absorbs d.store key (d.store.tombstone origin) (delKey origin d key).store := by
  have hlt : d.store.clock < (d.store.tombstone origin).version := clock_lt_add_one hw
  rw [delKey, if_neg h]
  constructor
  · intro a
    rw [merge_eq_some_of_clock_lt hs key hlt]
    exact Dict.getElem?_insert _ _ _ _
  · exact (max_eq_right hlt.le).symm

/-- The keys of `keys` that the loop has still to delete. -/
def fresh (d : DelLoop) (keys : List Bytes) : List Bytes :=
  (keys.filter fun k => !d.tombstones.contains k).eraseDups

/-- Deleting a new key takes it, and its repetitions, off the list of keys to delete. -/
theorem fresh_cons (origin : Bytes) {d : DelLoop} {key : Bytes} {keys : List Bytes}
    (h : ¬ d.tombstones.contains key = true) :
    fresh d (key :: keys) = key :: fresh (delKey origin d key) keys := by
  unfold fresh
  rw [List.filter_cons_of_pos (by rw [Bool.eq_false_iff.2 h]; rfl), List.eraseDups_cons,
    List.filter_filter, delKey_tombstones h]
  congr 2
  apply List.filter_congr
  intro a _
  rw [ExtTreeMap.contains_insert]
  by_cases ha : a = key
  · simp [ha]
  · have hc : (compare key a == .eq) = false := by
      rw [beq_eq_false_iff_ne]
      intro hc
      exact ha (LawfulEqCmp.eq_of_compare hc).symm
    simp [ha, hc]

theorem fresh_start (s : Store) (keys : List Bytes) : fresh ⟨s, 0, ∅⟩ keys = keys.eraseDups := by
  unfold fresh
  congr 1
  exact List.filter_eq_self.2 fun a _ => by simp

theorem fresh_cons_of_contains {d : DelLoop} {key : Bytes} (keys : List Bytes)
    (h : d.tombstones.contains key = true) : fresh d (key :: keys) = fresh d keys := by
  unfold fresh
  rw [List.filter_cons_of_neg (by simpa using h)]

/-- The turns of the loop of `Del` that do something: from the state `d` it deletes the keys `ks`
one after the other, each new when its turn comes, and ends in the state `d'`. -/
inductive Deletes (origin : Bytes) : DelLoop → List Bytes → DelLoop → Prop where
  | nil (d : DelLoop) : Deletes origin d [] d
  | cons {d d' : DelLoop} {key : Bytes} {ks : List Bytes}
      (hnew : ¬ d.tombstones.contains key = true)
      (hrest : Deletes origin (delKey origin d key) ks d') :
      Deletes origin d (key :: ks) d'

/-- A repeated key is skipped, and every other key is deleted. -/
theorem deletes_foldl (origin : Bytes) (keys : List Bytes) (d : DelLoop) :
    Deletes origin d (fresh d keys) (keys.foldl (delKey origin) d) := by
  induction keys generalizing d with
  | nil => exact .nil d
  | cons key keys ih =>
      by_cases h : d.tombstones.contains key = true
      · rw [fresh_cons_of_contains keys h, List.foldl_cons, delKey_of_contains h]
        exact ih d
      · rw [fresh_cons origin h]
        exact .cons h (ih _)

theorem deletes_del (s : Store) (origin : Bytes) (keys : List Bytes) :
    Deletes origin ⟨s, 0, ∅⟩ keys.eraseDups (s.delLoop origin keys) := by
  rw [← fresh_start s]
  exact deletes_foldl origin keys ⟨s, 0, ∅⟩

/-- The clock after a turn of the loop of `Del` on a new key. -/
theorem clock_delKey (origin : Bytes) {d : DelLoop} {key : Bytes}
    (h : ¬ d.tombstones.contains key = true) :
    (delKey origin d key).store.clock = d.store.clock + 1 := by
  rw [delKey, if_neg h]

/-- What the loop of `Del`, started on `s`, has done when it has reached the state `d`. -/
structure DelInv (s : Store) (origin : Bytes) (es : List (Bytes × Entry)) (d : DelLoop) : Prop where
  absorbs : AbsorbsAll s es d.store
  mem_iff : ∀ (k : Bytes) (e : Entry), (k, e) ∈ es ↔ d.tombstones[k]? = some e
  fields : ∀ (k : Bytes) (e : Entry), d.tombstones[k]? = some e →
    e.deleted = true ∧ e.origin = origin ∧ s.clock < e.version

theorem delInv_start (s : Store) (origin : Bytes) : DelInv s origin [] ⟨s, 0, ∅⟩ where
  absorbs := .nil s
  mem_iff k e := by simp
  fields k e h := by simp at h

theorem DelInv.delKey {s : Store} {origin : Bytes} {es : List (Bytes × Entry)} {d : DelLoop}
    (hd : DelInv s origin es d) (hs : s.ClockOk) {key : Bytes}
    (h : ¬ d.tombstones.contains key = true)
    (hw : d.store.clock.toInt + 1 ≤ Int64.maxValue.toInt) :
    DelInv s origin (es ++ [(key, d.store.tombstone origin)]) (delKey origin d key) := by
  have hok := hd.absorbs.clockOk hs
  have ha : Absorbs d.store key (d.store.tombstone origin) (Store.delKey origin d key).store :=
    absorbs_delKey hok h hw
  have hlt : d.store.clock < (d.store.tombstone origin).version := clock_lt_add_one hw
  have hnone : d.tombstones[key]? = none := by
    simpa using h
  refine ⟨hd.absorbs.append (.single (p := (key, _)) ha), ?_, ?_⟩
  · intro k e
    rw [delKey_tombstones h, Dict.getElem?_insert, List.mem_append, hd.mem_iff,
      List.mem_singleton, Prod.mk.injEq]
    by_cases hk : key = k
    · subst hk
      simp [hnone, eq_comm]
    · simp [hk, Ne.symm hk]
  · intro k e he
    rw [delKey_tombstones h] at he
    rcases Dict.getElem?_insert_eq_some he with ⟨-, rfl⟩ | hold
    · exact ⟨rfl, rfl, hd.absorbs.clock_le.trans_lt hlt⟩
    · exact hd.fields k e hold

/-- The whole loop, as long as the versions it has still to allocate do not wrap. -/
theorem DelInv.deletes {s : Store} {origin : Bytes} (hs : s.ClockOk) {d d' : DelLoop}
    {ks : List Bytes} (h : Deletes origin d ks d') {es : List (Bytes × Entry)}
    (hd : DelInv s origin es d)
    (hw : d.store.clock.toInt + ks.length ≤ Int64.maxValue.toInt) :
    ∃ es', DelInv s origin es' d' := by
  induction h generalizing es with
  | nil d => exact ⟨es, hd⟩
  | cons hnew _ ih =>
      rw [List.length_cons] at hw
      refine ih (hd.delKey hs hnew (by omega)) ?_
      rw [clock_delKey origin hnew, toInt_add_one (by omega)]
      omega

/-- `Del` without wrapping is the sequence of the merges of its tombstones. -/
theorem absorbsAll_del {s : Store} (hs : s.ClockOk) (origin : Bytes) (keys : List Bytes)
    (hw : s.clock.toInt + keys.eraseDups.length ≤ Int64.maxValue.toInt) :
    ∃ es, DelInv s origin es (s.delLoop origin keys) :=
  (delInv_start s origin).deletes hs (deletes_del s origin keys) hw

end Store

end Hapartition
