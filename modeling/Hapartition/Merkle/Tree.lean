import Hapartition.Lib.Digest
import Hapartition.Lib.Slices
import Hapartition.Lib.Sorting
import Hapartition.Store.Iterate

/-!
# Merkle trees over a store

`Build`, the accessors of a tree, `Diff` and `LeafEntries`, from `pkg/merkle/merkle.go`. What can
stop the program (a division by zero, an index out of range, a slice that cannot be made) is a
`Panic`. The number of leaves is a 64-bit `int`, the bucket of a key is computed in 64-bit
arithmetic; indices into slices that exist are far from overflow and are plain integers. SHA-256 and
`sort.Slice` are parameters (`Hasher`), and so is what `make` can allocate.
-/

set_option autoImplicit false

namespace Hapartition

open Lib

/-- What `pkg/merkle` uses of the standard library. -/
structure Hasher where
  sha256 : Bytes → Bytes
  length_sha256 : ∀ b, (sha256 b).length = 32
  sorter : SliceSort

/-- SHA-256 and insertion sort. -/
def Hasher.standard : Hasher := ⟨Sha256.sum256, Sha256.length_sum256, insertionSlice⟩

namespace Merkle

def defaultNumLeaves : Int64 := 64

def maxUint64 : UInt64 := 18446744073709551615

structure Tree where
  numLeaves : Int64
  hashes : List Bytes
  keyCounts : List Int
  deriving DecidableEq, Repr

@[ext] structure KV where
  key : Bytes
  value : Bytes
  ver : Int64
  deriving DecidableEq, Repr

/-- The contents of a call of the function that `Build` passes to `Iterate`. -/
def KV.of (p : Bytes × Entry) : KV := ⟨p.1, p.2.value, p.2.version⟩

def hashKey (key : Bytes) : UInt64 := fnv1a key

/-- What `leafHash` writes for one entry. -/
def KV.encode (e : KV) : Bytes :=
  bigEndian 4 e.key.length ++ e.key ++ (bigEndian 4 e.value.length ++ e.value) ++
    bigEndian 8 e.ver.toUInt64.toNat

def leafHash (A : Hasher) (entries : List KV) : Bytes := A.sha256 (entries.flatMap KV.encode)

def roundUpPowerOfTwo (n : Int64) : Int64 :=
  if n ≤ 0 then 0
  else
    let n := n - 1
    let n := n ||| (n >>> 1)
    let n := n ||| (n >>> 2)
    let n := n ||| (n >>> 4)
    let n := n ||| (n >>> 8)
    let n := n ||| (n >>> 16)
    n + 1

/-- The number of leaves that `Build` makes. -/
def leafCount (numLeaves : Int64) : Int64 :=
  if roundUpPowerOfTwo numLeaves ≤ 0 then defaultNumLeaves else roundUpPowerOfTwo numLeaves

/-- The index of the bucket of a key hash. -/
def bucketIndex (nl : Int64) (h : UInt64) : Except Panic Int64 :=
  let width := maxUint64 / nl.toUInt64 + 1
  if width = 0 then .error .divideByZero
  else
    let idx := (h / width).toInt64
    .ok (if nl ≤ idx then nl - 1 else idx)

/-- The function that `Build` passes to `Iterate`. -/
def addEntry (nl : Int64) (buckets : List (List KV)) (p : Bytes × Entry) :
    Except Panic (List (List KV)) := do
  let idx ← bucketIndex nl (hashKey p.1)
  let bucket ← getAt buckets idx.toInt
  setAt buckets idx.toInt (bucket ++ [KV.of p])

/-- The two arrays of a tree while they are filled. -/
structure Arrays where
  hashes : List Bytes
  keyCounts : List Int

/-- One turn of the loop over the leaves. -/
def fillLeaf (A : Hasher) (firstLeaf : Int) (buckets : List (List KV)) (s : Arrays) (i : Nat) :
    Except Panic Arrays := do
  let bucket ← getAt buckets i
  let hashes ← setAt s.hashes (firstLeaf + i) (leafHash A bucket)
  let keyCounts ← setAt s.keyCounts (firstLeaf + i) (bucket.length : Int)
  return ⟨hashes, keyCounts⟩

/-- One turn of the loop over the inner nodes. -/
def fillNode (A : Hasher) (s : Arrays) (i : Nat) : Except Panic Arrays := do
  let left ← getAt s.hashes (2 * i + 1 : Nat)
  let right ← getAt s.hashes (2 * i + 2 : Nat)
  let hashes ← setAt s.hashes i (A.sha256 (left ++ right))
  let leftCount ← getAt s.keyCounts (2 * i + 1 : Nat)
  let rightCount ← getAt s.keyCounts (2 * i + 2 : Nat)
  let keyCounts ← setAt s.keyCounts i (leftCount + rightCount)
  return ⟨hashes, keyCounts⟩

/-- `Build`, where `fits` says for which lengths the slices can be allocated. -/
def build (A : Hasher) (fits : Nat → Bool) (st : Store) (numLeaves : Int64) :
    Except Panic Tree := do
  let nl := leafCount numLeaves
  let buckets ← makeSlice fits nl.toInt []
  let buckets ← st.iterate.foldlM (addEntry nl) buckets
  let buckets := buckets.map (A.sorter.sort KV.key)
  let totalNodes := 2 * nl - 1
  let firstLeaf := nl - 1
  let hashes ← makeSlice fits totalNodes.toInt []
  let keyCounts ← makeSlice fits totalNodes.toInt 0
  let arrays ← (List.range nl.toInt.toNat).foldlM (fillLeaf A firstLeaf.toInt buckets)
    ⟨hashes, keyCounts⟩
  -- from `firstLeaf - 1` down to 0
  let arrays ← (List.range firstLeaf.toInt.toNat).reverse.foldlM (fillNode A) arrays
  return ⟨nl, arrays.hashes, arrays.keyCounts⟩

namespace Tree

def rootHash (t : Tree) : Except Panic Bytes := getAt t.hashes 0

def leafHash (t : Tree) (i : Int) : Except Panic Bytes := getAt t.hashes (t.numLeaves.toInt - 1 + i)

def leafKeyCount (t : Tree) (i : Int) : Except Panic Int :=
  getAt t.keyCounts (t.numLeaves.toInt - 1 + i)

end Tree

def bytesEqual (a b : Bytes) : Bool :=
  if a.length ≠ b.length then false else (List.range a.length).all fun i => a[i]? == b[i]?

/-- One turn of the loop of `Diff`. -/
def compareLeaf (a b : Tree) (diffs : List Nat) (i : Nat) : Except Panic (List Nat) := do
  let ha ← getAt a.hashes (a.numLeaves.toInt - 1 + i)
  let hb ← getAt b.hashes (a.numLeaves.toInt - 1 + i)
  return if bytesEqual ha hb then diffs else diffs ++ [i]

/-- `Diff`, with a nil slice as the empty list. -/
def diff (a b : Tree) : Except Panic (List Nat) :=
  if a.numLeaves ≠ b.numLeaves then .ok []
  else (List.range a.numLeaves.toInt.toNat).foldlM (compareLeaf a b) []

def leafBounds (numLeaves leafIdx : Int64) : Except Panic (UInt64 × UInt64) :=
  if numLeaves.toUInt64 = 0 then .error .divideByZero
  else
    let step := maxUint64 / numLeaves.toUInt64 + 1
    let start := leafIdx.toUInt64 * step
    let stop := (leafIdx + 1).toUInt64 * step
    .ok (start, if leafIdx = numLeaves - 1 then maxUint64 else stop)

def inLeafRange (hash start stop : UInt64) (final : Bool) : Bool :=
  decide (start ≤ hash) && (decide (hash < stop) || final && decide (hash = maxUint64))

/-- `LeafEntries`, with a nil slice as the empty list. -/
def leafEntries (st : Store) (numLeaves leafIdx : Int64) : Except Panic (List Entry) := do
  let (start, stop) ← leafBounds numLeaves leafIdx
  return st.iterateWith (fun entries p =>
    (if inLeafRange (hashKey p.1) start stop (leafIdx == numLeaves - 1) then entries ++ [p.2]
      else entries, true)) []

end Merkle

end Hapartition
