import Eshkol.Base.ByteCodec
import Mathlib.Data.UInt

/-!
# Hash tables of the virtual machine

Open addressing with linear probing over a power of two of slots. The hash stored with an entry also tells
an empty slot and the mark of a deleted one. The table doubles when three quarters of it are live.
-/

namespace Vm.HashTable

/-- The same position of the arrays `hashes`, `keys` and `values`. -/
structure HtSlot where
  hash : UInt64
  key : UInt64
  value : UInt64
deriving DecidableEq

/-- `VmHashTable`; the capacity is the length of the arrays. -/
structure VmHashTable where
  slots : List HtSlot
  count : ℕ

/-- `HT_INITIAL_CAP`. -/
def htInitialCap : ℕ := 16

/-- `HT_EMPTY_HASH`. -/
def htEmptyHash : UInt64 := 0

/-- `HT_TOMBSTONE`. -/
def htTombstone : UInt64 := 1

/-- The product of two numbers of type `int`; `none` is an overflow. -/
def intMul (a b : ℕ) : Option ℕ := if a * b ≤ 2147483647 then some (a * b) else none

/-- `vm_ht_fnv1a`. -/
def vmHtFnv1a (data : List UInt8) : UInt64 :=
  let h := data.foldl (fun h byte => (h ^^^ byte.toUInt64) * 1099511628211) 14695981039346656037
  if h ≤ htTombstone then h + 2 else h

/-- `vm_ht_hash_value`. -/
def vmHtHashValue (val : UInt64) : UInt64 := vmHtFnv1a (ByteCodec.toLE 8 val.toNat)

/-- Arrays after `memset`. -/
def zeroSlots (capacity : ℕ) : List HtSlot := List.replicate capacity ⟨htEmptyHash, 0, 0⟩

/-- An entry, neither empty nor deleted. -/
def HtSlot.isLive (slot : HtSlot) : Bool := htTombstone < slot.hash

namespace VmHashTable

def capacity (ht : VmHashTable) : ℕ := ht.slots.length

/-- The slot at an index below the capacity. -/
def slot (ht : VmHashTable) (idx : ℕ) : HtSlot := ht.slots.getD idx ⟨htEmptyHash, 0, 0⟩

end VmHashTable

/-- The loop of `vm_ht_probe`, `fuel` rounds before its end. -/
def vmHtProbeLoop (ht : VmHashTable) (key h : UInt64) : ℕ → ℕ → Option ℕ → ℕ × Bool
  | 0, _, firstTombstone => (firstTombstone.getD 0, false)
  | fuel + 1, idx, firstTombstone =>
    let slot := ht.slot idx
    let next := (idx + 1) &&& (ht.capacity - 1)
    if slot.hash = htEmptyHash then (firstTombstone.getD idx, false)
    else if slot.hash = htTombstone then vmHtProbeLoop ht key h fuel next (firstTombstone.or (some idx))
    else if slot.hash = h ∧ slot.key = key then (idx, true)
    else vmHtProbeLoop ht key h fuel next firstTombstone

/-- `vm_ht_probe`: the index, and `found`. -/
def vmHtProbe (ht : VmHashTable) (key h : UInt64) : ℕ × Bool :=
  vmHtProbeLoop ht key h ht.capacity (h.toNat &&& (ht.capacity - 1)) none

/-- The body of the loop of `vm_ht_rehash`. -/
def reinsert (ht : VmHashTable) (old : HtSlot) : VmHashTable :=
  if old.isLive then ⟨ht.slots.set (vmHtProbe ht old.key old.hash).1 old, ht.count + 1⟩ else ht

/-- `vm_ht_rehash`. -/
def vmHtRehash (ht : VmHashTable) : Option VmHashTable := do
  let newCap ← intMul ht.capacity 2
  return ht.slots.foldl reinsert ⟨zeroSlots newCap, 0⟩

/-- `vm_ht_make`. -/
def vmHtMake : VmHashTable := ⟨zeroSlots htInitialCap, 0⟩

/-- `vm_ht_ref`. -/
def vmHtRef (ht : VmHashTable) (key dflt : UInt64) : UInt64 :=
  let probe := vmHtProbe ht key (vmHtHashValue key)
  if probe.2 then (ht.slot probe.1).value else dflt

/-- The load check of `vm_ht_set`. -/
def checkLoad (ht : VmHashTable) : Option VmHashTable := do
  let load ← intMul ht.count 4
  let limit ← intMul ht.capacity 3
  if limit ≤ load then vmHtRehash ht else return ht

/-- `vm_ht_set` after the load check. -/
def store (ht : VmHashTable) (key value : UInt64) : VmHashTable :=
  let h := vmHtHashValue key
  let probe := vmHtProbe ht key h
  ⟨ht.slots.set probe.1 ⟨h, key, value⟩, if probe.2 then ht.count else ht.count + 1⟩

/-- `vm_ht_set`; `none` is an overflow of type `int`. -/
def vmHtSet (ht : VmHashTable) (key value : UInt64) : Option VmHashTable := do
  let ht ← checkLoad ht
  return store ht key value

/-- `vm_ht_has_key`. -/
def vmHtHasKey (ht : VmHashTable) (key : UInt64) : Bool := (vmHtProbe ht key (vmHtHashValue key)).2

/-- `vm_ht_remove`. -/
def vmHtRemove (ht : VmHashTable) (key : UInt64) : VmHashTable :=
  let probe := vmHtProbe ht key (vmHtHashValue key)
  if probe.2 then ⟨ht.slots.set probe.1 ⟨htTombstone, 0, 0⟩, ht.count - 1⟩ else ht

/-- The loop of `vm_ht_keys` and `vm_ht_values`, with room for so many results. -/
def collect (field : HtSlot → UInt64) : ℕ → List HtSlot → List UInt64
  | 0, _ => []
  | _, [] => []
  | room + 1, slot :: rest =>
    if slot.isLive then field slot :: collect field room rest else collect field (room + 1) rest

/-- `vm_ht_keys`; no result is `NULL`. -/
def vmHtKeys (ht : VmHashTable) : List UInt64 :=
  if ht.count = 0 then [] else collect HtSlot.key ht.count ht.slots

/-- `vm_ht_values`. -/
def vmHtValues (ht : VmHashTable) : List UInt64 :=
  if ht.count = 0 then [] else collect HtSlot.value ht.count ht.slots

/-- `vm_ht_count`. -/
def vmHtCount (ht : VmHashTable) : ℕ := ht.count

/-- `vm_ht_clear`. -/
def vmHtClear (ht : VmHashTable) : VmHashTable := ⟨zeroSlots ht.capacity, 0⟩

/-! ## Calls -/

inductive HtCall where
  | set (key value : UInt64)
  | ref (key dflt : UInt64)
  | hasKey (key : UInt64)
  | remove (key : UInt64)
  | clear
  | count
  | keys
  | values
deriving DecidableEq

inductive HtResult where
  | unit
  | value (v : UInt64)
  | flag (b : Bool)
  | count (n : ℕ)
  | list (items : List UInt64)
deriving DecidableEq

/-- One call: its result and the table after it. -/
def htCall (ht : VmHashTable) : HtCall → Option (HtResult × VmHashTable)
  | .set key value => (vmHtSet ht key value).map (.unit, ·)
  | .ref key dflt => some (.value (vmHtRef ht key dflt), ht)
  | .hasKey key => some (.flag (vmHtHasKey ht key), ht)
  | .remove key => some (.unit, vmHtRemove ht key)
  | .clear => some (.unit, vmHtClear ht)
  | .count => some (.count (vmHtCount ht), ht)
  | .keys => some (.list (vmHtKeys ht), ht)
  | .values => some (.list (vmHtValues ht), ht)

/-- Calls one after the other: their results and the table after the last. -/
def htCalls : VmHashTable → List HtCall → Option (List HtResult × VmHashTable)
  | ht, [] => some ([], ht)
  | ht, call :: calls => do
    let (result, ht) ← htCall ht call
    let (results, ht) ← htCalls ht calls
    return (result :: results, ht)

end Vm.HashTable
