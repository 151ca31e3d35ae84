import Hapartition.Lib.Bytes

/-!
# Host and port

`splitHostPort` cuts an address `host:port` or `[host]:port` at its last colon, as
`net.SplitHostPort` does. It refuses an address without a port, with brackets that do not enclose
the host, or with a colon in an unbracketed host. What `joinHostPort` puts together, as
`net.JoinHostPort` does, it takes apart again (`splitHostPort_joinHostPort`).
-/

set_option autoImplicit false

namespace Hapartition.Lib

/-- The index of the last occurrence. -/
def lastIndex (b : UInt8) (s : Bytes) : Option Nat :=
  (s.reverse.idxOf? b).map fun j => s.length - 1 - j

/-- The host and the port, `none` for an address that is refused. -/
def splitHostPort (s : Bytes) : Option (Bytes × Bytes) :=
  match lastIndex 58 s with
  | none => none
  | some i =>
      if s.head? = some 91 then
        -- the host in brackets, which must end right before the last colon
        match s.idxOf? 93 with
        | none => none
        | some close =>
            if close + 1 ≠ i then none
            else if 91 ∈ s.drop 1 then none
            else if 93 ∈ s.drop (close + 1) then none
            else some ((s.take close).drop 1, s.drop (i + 1))
      else if 58 ∈ s.take i then none
      else if 91 ∈ s then none
      else if 93 ∈ s then none
      else some (s.take i, s.drop (i + 1))

example : splitHostPort (str "10.0.0.1:6379") = some (str "10.0.0.1", str "6379") := by decide
example : splitHostPort (str "[::1]:6379") = some (str "::1", str "6379") := by decide
example : splitHostPort (str "::1:6379") = none := by decide

/-- An address of a host and a port; a host with a colon gets brackets. -/
def joinHostPort (host port : Bytes) : Bytes :=
  if 58 ∈ host then 91 :: (host ++ 93 :: 58 :: port) else host ++ 58 :: port

theorem lastIndex_append {b : UInt8} {s : Bytes} (h : b ∉ s) (t : Bytes) :
    lastIndex b (t ++ b :: s) = some t.length := by
  have hreverse : (t ++ b :: s).reverse = s.reverse ++ b :: t.reverse := by simp
  have hidx : (s.reverse ++ b :: t.reverse).idxOf? b = some s.length := by
    rw [List.idxOf?, List.findIdx?_append, List.findIdx?_cons]
    have hnone : s.reverse.findIdx? (· == b) = none := by
      rw [List.findIdx?_eq_none_iff]
      intro x hx
      exact beq_false_of_ne fun hxb => h (hxb ▸ List.mem_reverse.1 hx)
    rw [hnone]
    simp
  rw [lastIndex, hreverse, hidx, Option.map_some, List.length_append, List.length_cons]
  exact congrArg some (by omega)

/-- The parts of an address that was put together. -/
theorem splitHostPort_joinHostPort {host port : Bytes} (hhost : 91 ∉ host ∧ 93 ∉ host)
    (hport : 58 ∉ port ∧ 91 ∉ port ∧ 93 ∉ port) :
    splitHostPort (joinHostPort host port) = some (host, port) := by
  obtain ⟨hopen, hclose⟩ := hhost
  obtain ⟨hcolon, hopen', hclose'⟩ := hport
  rw [joinHostPort]
  split
  next =>
    have hlast : lastIndex 58 (91 :: (host ++ 93 :: 58 :: port)) = some (host.length + 2) := by
      have := lastIndex_append hcolon (91 :: (host ++ [93]))
      simpa using this
    have hfirst : (91 :: (host ++ 93 :: 58 :: port)).idxOf? 93 = some (host.length + 1) := by
      have hnone : host.findIdx? (· == 93) = none := by
        rw [List.findIdx?_eq_none_iff]
        intro x hx
        exact beq_false_of_ne fun hxb => hclose (hxb ▸ hx)
      rw [List.idxOf?, List.findIdx?_cons, List.findIdx?_append, hnone, List.findIdx?_cons]
      simp
    rw [splitHostPort, hlast]
    simp only [List.head?_cons, if_true, hfirst]
    have hdrop : (91 :: (host ++ 93 :: 58 :: port)).drop (host.length + 2) = 58 :: port := by
      simp
    rw [if_neg (by simp), if_neg (by simp [hopen, hopen']), if_neg (by rw [hdrop]; simp [hclose'])]
    simp
  next hno =>
    rw [splitHostPort, lastIndex_append hcolon]
    have hhead : (host ++ 58 :: port).head? ≠ some 91 := by
      cases host with
      | nil => simp
      | cons b host =>
          intro hb
          exact hopen (by rw [← Option.some.inj hb]; exact List.mem_cons_self)
    simp only
    rw [if_neg hhead, List.take_left, if_neg hno, if_neg (by simp [hopen, hopen']),
      if_neg (by simp [hclose, hclose'])]
    simp

end Hapartition.Lib
