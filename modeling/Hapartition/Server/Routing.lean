import Hapartition.Ring.Membership
import Hapartition.Server.ReadBack

/-!
# Routing by the final membership

Every node builds its ring from its own order of joins and leaves. Lookups depend on the final
membership only, so nodes that agree on the membership agree on the owner of every key: the owner
executes `SET` and `GET`, every other node redirects to it (`routing_of_membership`).

The empty node ID is the exception: `GetNode` returns it on an empty ring, and the server takes it
to mean that no one else owns the key (`empty_id_two_owners`).
-/

set_option autoImplicit false

namespace Hapartition

open Lib
open Hashring (Members Op membership build Reflects DistinctHashes SameLookups)

namespace Server

variable {R : Runtime} {m : Members}

/-- A server that is a node of the membership: it goes by its own ID, and its ring comes from some
history with that final membership. -/
structure IsNode (R : Runtime) (m : Members) (nodeID : Bytes) (s : Server) : Prop where
  nodeID_eq : s.nodeID = nodeID
  ring : ∃ (localNodeID : Bytes) (ops : List Op),
    s.ring = build R.toHashing localNodeID ops ∧ membership ops = m

/-- The server executes `SET` and `GET` on the key. -/
def Executes (R : Runtime) (s : Server) (key : Bytes) : Prop :=
  ∀ (O : Outcomes) (value : Bytes),
    s.dispatch R O (str "SET") (setArgs key value) = s.execSet O key value ∧
      s.dispatch R O (str "GET") (getArgs key) = s.execGet key

/-- The server answers `SET` and `GET` on the key by a redirect, and changes nothing. -/
def Redirects (R : Runtime) (s : Server) (key addr : Bytes) : Prop :=
  ∀ (O : Outcomes) (value : Bytes),
    s.dispatch R O (str "SET") (setArgs key value) = (s, movedTo addr) ∧
      s.dispatch R O (str "GET") (getArgs key) = (s, movedTo addr)

theorem executes_of_owner {s : Server} {key owner addr : Bytes}
    (h : s.ring.getNode R.toHashing key = (owner, addr)) (howner : owner = [] ∨ owner = s.nodeID) :
    s.Executes R key := by
  have hmoved : s.moved R key = none := redirect_eq_none_iff.2 (by rwa [h])
  intro O value
  rw [dispatch_set, dispatch_get, hmoved]
  exact ⟨rfl, rfl⟩

theorem redirects_of_other {s : Server} {key owner addr : Bytes}
    (h : s.ring.getNode R.toHashing key = (owner, addr)) (hne : owner ≠ [])
    (hother : owner ≠ s.nodeID) : s.Redirects R key addr := by
  have hmoved : s.moved R key = some addr := redirect_of_other h hne hother
  intro O value
  rw [dispatch_set, dispatch_get, hmoved]
  exact ⟨rfl, rfl⟩

/-- Rings with the same final membership agree in every lookup, are strictly sorted and hold exactly
the virtual nodes of the members under their addresses. A cluster of nodes with non-empty IDs whose
rings have that membership serves each key at exactly one node: it executes `SET` and `GET`, and
every other node redirects to its address. -/
theorem routing_of_membership (hd : DistinctHashes R.toHashing m) :
    (∀ (id id' : Bytes) (ops ops' : List Op), membership ops = m → membership ops' = m →
      SameLookups R.toHashing (build R.toHashing id ops) (build R.toHashing id' ops') ∧
      (build R.toHashing id ops).ringSnapshot.Pairwise (fun a b => a.hash < b.hash) ∧
      ∀ e, e ∈ (build R.toHashing id ops).ringSnapshot ↔
        ∃ (n a : Bytes) (c : Int) (i : Nat), m[n]? = some (a, c) ∧ i < c.toNat ∧
          e = ⟨Hashring.hashKey R.toHashing (vnodeLabel n i), n, a⟩) ∧
    ∀ server : Bytes → Server,
      (∀ (n : Bytes) (p : Bytes × Int), m[n]? = some p → n ≠ [] ∧ IsNode R m n (server n)) →
      (∃ (n : Bytes) (p : Bytes × Int), m[n]? = some p) →
      ∀ key, ∃ (owner addr : Bytes) (c : Int), m[owner]? = some (addr, c) ∧
        (server owner).Executes R key ∧
        ∀ (n : Bytes) (p : Bytes × Int), m[n]? = some p → n ≠ owner →
          (server n).Redirects R key addr := by
  refine ⟨?_, ?_⟩
  · rintro id id' ops ops' rfl hops'
    have hr := Hashring.reflects_build (H := R.toHashing) id ops
    have hr' := Hashring.reflects_build (H := R.toHashing) id' ops'
    rw [hops'] at hr'
    exact ⟨hr.sameLookups hr' hd, hr.pairwise_lt hd, fun e => hr.mem_entries⟩
  · rintro server hserver ⟨n₀, p₀, hn₀⟩ key
    obtain ⟨-, -, id, ops, hring, rfl⟩ := hserver n₀ p₀ hn₀
    have hr := Hashring.reflects_build (H := R.toHashing) id ops
    obtain ⟨owner, addr, c, howner, hget⟩ := hr.getNode_mem hn₀ key
    -- every node looks the key up on a ring of its own and finds the same owner
    have hlookup : ∀ (n : Bytes) (p : Bytes × Int), (membership ops)[n]? = some p →
        (server n).ring.getNode R.toHashing key = (owner, addr) := by
      intro n p hn
      obtain ⟨-, -, id', ops', hring', hops'⟩ := hserver n p hn
      have hr' := Hashring.reflects_build (H := R.toHashing) id' ops'
      rw [hops'] at hr'
      rw [hring', ← (hr.sameLookups hr' hd).getNode key, hget]
    obtain ⟨hne, hself, -⟩ := hserver owner _ howner
    refine ⟨owner, addr, c, howner,
      executes_of_owner (hlookup owner _ howner) (.inr hself.symm), fun n p hn hother => ?_⟩
    obtain ⟨-, hn', -⟩ := hserver n p hn
    exact redirects_of_other (hlookup n p hn) hne fun heq => hother (heq.trans hn').symm

/-! ## Two nodes -/

/-- The history of a cluster of two nodes with one virtual node each. -/
def twoNodeOps (n n' : Bytes) : List Op :=
  [.addNode n (str ":1") 1, .addNode n' (str ":2") 1]

/-- A node of that cluster. -/
def twoNodeServer (n n' nodeID : Bytes) : Server :=
  { addr := []
    localID := nodeID
    store := Store.new
    ring := build Runtime.ascii.toHashing nodeID (twoNodeOps n n')
    gossip := none
    writeConcern := 1
    authToken := [] }

theorem isNode_twoNodeServer (n n' nodeID : Bytes) :
    IsNode .ascii (membership (twoNodeOps n n')) nodeID (twoNodeServer n n' nodeID) :=
  ⟨rfl, nodeID, twoNodeOps n n', rfl, rfl⟩

theorem getElem?_twoNodes {n n' a : Bytes} {p : Bytes × Int}
    (h : (membership (twoNodeOps n n'))[a]? = some p) :
    (a = n ∨ a = n') ∧ p.2 = 1 := by
  have hm : membership (twoNodeOps n n') =
      ((∅ : Members).insert n (str ":1", 1)).insert n' (str ":2", 1) := rfl
  rw [hm] at h
  rcases Dict.getElem?_insert_eq_some h with ⟨hn, rfl⟩ | h
  · exact ⟨.inr hn.symm, rfl⟩
  rcases Dict.getElem?_insert_eq_some h with ⟨hn, rfl⟩ | h
  · exact ⟨.inl hn.symm, rfl⟩
  · simp at h

theorem distinctHashes_twoNodes {n n' : Bytes}
    (h : XXHash.sum64 (vnodeLabel n 0) ≠ XXHash.sum64 (vnodeLabel n' 0)) :
    DistinctHashes Runtime.ascii.toHashing (membership (twoNodeOps n n')) := by
  intro a a' b b' c c' i j ha ha' hi hj heq
  obtain ⟨hn, hc⟩ := getElem?_twoNodes ha
  obtain ⟨hn', hc'⟩ := getElem?_twoNodes ha'
  obtain rfl : i = 0 := by simp only at hc; omega
  obtain rfl : j = 0 := by simp only at hc'; omega
  clear ha ha'
  rcases hn with rfl | rfl <;> rcases hn' with rfl | rfl
  · rfl
  · exact absurd heq h
  · exact absurd heq.symm h
  · rfl

/-- Two nodes with ordinary IDs. -/
theorem routing_of_two_nodes :
    ∃ (owner addr : Bytes) (c : Int),
      (membership (twoNodeOps (str "a") (str "b")))[owner]? = some (addr, c) ∧
      (twoNodeServer (str "a") (str "b") owner).Executes .ascii (str "c") ∧
      ∀ (n : Bytes) (p : Bytes × Int),
        (membership (twoNodeOps (str "a") (str "b")))[n]? = some p → n ≠ owner →
          (twoNodeServer (str "a") (str "b") n).Redirects .ascii (str "c") addr := by
  refine (routing_of_membership (R := .ascii) (distinctHashes_twoNodes (by decide +kernel))).2
    (twoNodeServer (str "a") (str "b")) (fun n p hn => ⟨?_, isNode_twoNodeServer _ _ n⟩)
    ⟨str "a", (str ":1", 1), by decide⟩ (str "c")
  rcases (getElem?_twoNodes hn).1 with rfl | rfl <;> decide

/-- With the empty ID among the node IDs, that ID can be the owner of a key. -/
theorem getNode_empty_id (localNodeID : Bytes) :
    (build Runtime.ascii.toHashing localNodeID (twoNodeOps [] (str "b"))).getNode
      Runtime.ascii.toHashing (str "c") = ([], str ":1") := by
  -- the entries do not depend on whose ring it is
  have hring : (build Runtime.ascii.toHashing localNodeID (twoNodeOps [] (str "b"))).entries
      = (build Runtime.ascii.toHashing [] (twoNodeOps [] (str "b"))).entries := rfl
  rw [Hashring.getNode, hring]
  decide +kernel

/-- With the empty ID among the node IDs, both nodes execute commands on one key. -/
theorem empty_id_two_owners :
    DistinctHashes Runtime.ascii.toHashing (membership (twoNodeOps [] (str "b"))) ∧
      (IsNode .ascii (membership (twoNodeOps [] (str "b"))) [] (twoNodeServer [] (str "b") []) ∧
        IsNode .ascii (membership (twoNodeOps [] (str "b"))) (str "b")
          (twoNodeServer [] (str "b") (str "b"))) ∧
      (twoNodeServer [] (str "b") []).Executes .ascii (str "c") ∧
      (twoNodeServer [] (str "b") (str "b")).Executes .ascii (str "c") := by
  exact ⟨distinctHashes_twoNodes (by decide +kernel),
    ⟨isNode_twoNodeServer _ _ _, isNode_twoNodeServer _ _ _⟩,
    executes_of_owner (getNode_empty_id _) (.inl rfl),
    executes_of_owner (getNode_empty_id _) (.inl rfl)⟩

end Server

end Hapartition
