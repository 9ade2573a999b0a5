import Mathlib.Data.List.Basic

/-!
# The runtime hash table

Open addressing with linear probing: a slot is empty, deleted or occupied, a lookup walks the ring
of slots from the key's home until it meets an empty slot, and an insertion reuses the first
deleted slot the lookup passed. Keys come with their hash and their equality, which is an
equivalence that the hash respects.
-/

namespace Hash

/-- `hash_tagged_value` and `hash_keys_equal` on the keys of a table. -/
structure KeyOps (K : Type) where
  hash : K → ℕ
  equal : K → K → Bool
  equal_refl : ∀ k, equal k k = true
  equal_symm : ∀ k k', equal k k' = true → equal k' k = true
  equal_trans : ∀ k k' k'', equal k k' = true → equal k' k'' = true → equal k k'' = true
  hash_eq : ∀ k k', equal k k' = true → hash k = hash k'

/-- `status[i]` with `keys[i]` and `values[i]`. -/
inductive Slot (K V : Type) where
  | empty
  | deleted
  | occupied (key : K) (value : V)
deriving Repr

variable {K V : Type}

namespace Slot

def isEmpty : Slot K V → Bool
  | .empty => true
  | _ => false

def isOccupied : Slot K V → Bool
  | .occupied _ _ => true
  | _ => false

def key? : Slot K V → Option K
  | .occupied key _ => some key
  | _ => none

def value? : Slot K V → Option V
  | .occupied _ value => some value
  | _ => none

end Slot

/-- `eshkol_hash_table_t`; the capacity is the length of the arrays. -/
structure Table (K V : Type) where
  slots : List (Slot K V)
  size : ℕ
  tombstones : ℕ

/-- What `find_slot` returns: the slot that holds the key, or the first deleted slot on the way. -/
inductive Found where
  | slot (i : ℕ)
  | missing (tombstone : Option ℕ)
deriving DecidableEq, Repr

namespace Table

def capacity (t : Table K V) : ℕ := t.slots.length

/-- `arena_allocate_hash_table`. -/
def create (capacity : ℕ) : Table K V := ⟨List.replicate capacity .empty, 0, 0⟩

/-- The slot at a position below the capacity. -/
def slot (t : Table K V) (i : ℕ) : Slot K V := t.slots.getD i .empty

section operations
variable (ops : KeyOps K)

/-- The loop of `find_slot`, `fuel` slots before its end, with the first tombstone seen so far. -/
def findSlotLoop (t : Table K V) (key : K) (index : ℕ) : ℕ → ℕ → Option ℕ → Found
  | 0, _, firstTombstone => .missing firstTombstone
  | fuel + 1, i, firstTombstone =>
    let probeIndex := (index + i) % t.capacity
    match t.slot probeIndex with
    | .empty => .missing firstTombstone
    | .deleted => findSlotLoop t key index fuel (i + 1) (firstTombstone.or (some probeIndex))
    | .occupied k _ =>
      if ops.equal k key then .slot probeIndex
      else findSlotLoop t key index fuel (i + 1) firstTombstone

def findSlot (t : Table K V) (key : K) : Found :=
  t.findSlotLoop ops key (ops.hash key % t.capacity) t.capacity 0 none

/-- `while (status[index] != EMPTY) index = (index + 1) % capacity`. A walk over as many slots as
there are that meets no empty one never ends. -/
def emptySlotFrom (t : Table K V) : ℕ → ℕ → Option ℕ
  | 0, _ => none
  | fuel + 1, index =>
    if (t.slot index).isEmpty then some index
    else emptySlotFrom t fuel ((index + 1) % t.capacity)

/-- The insertion probe loop. -/
def emptySlot (t : Table K V) (key : K) : Option ℕ :=
  t.emptySlotFrom t.capacity (ops.hash key % t.capacity)

/-- The body of the rehashing loop. -/
def reinsert (t : Table K V) : Slot K V → Option (Table K V)
  | .occupied key value =>
    (t.emptySlot ops key).map fun i => { t with slots := t.slots.set i (.occupied key value) }
  | _ => some t

/-- `hash_table_resize`: tombstones are dropped. -/
def resize (t : Table K V) (newCapacity : ℕ) : Option (Table K V) :=
  t.slots.foldlM (reinsert ops) ⟨List.replicate newCapacity .empty, t.size, 0⟩

/-- `load > HASH_TABLE_LOAD_FACTOR`, where the load is `(size + tombstones) / capacity` and the
factor `0.75`. -/
def overloaded (t : Table K V) : Bool := 3 * t.capacity < 4 * (t.size + t.tombstones)

/-- The growth at the start of `hash_table_set`. -/
def grown (t : Table K V) : Option (Table K V) :=
  if t.overloaded then t.resize ops (t.capacity * 2) else some t

/-- `hash_table_set`; it returns `true`. Without a result the probe loop does not end. -/
def set (t : Table K V) (key : K) (value : V) : Option (Table K V) := do
  let t ← t.grown ops
  match t.findSlot ops key with
  | .slot i =>
    match t.slot i with
    | .occupied k _ => return { t with slots := t.slots.set i (.occupied k value) }
    | _ => return t
  | .missing (some i) =>
    return ⟨t.slots.set i (.occupied key value), t.size + 1, t.tombstones - 1⟩
  | .missing none =>
    let i ← t.emptySlot ops key
    return ⟨t.slots.set i (.occupied key value), t.size + 1, t.tombstones⟩

/-- `hash_table_get`. -/
def get (t : Table K V) (key : K) : Option V :=
  match t.findSlot ops key with
  | .slot i => (t.slot i).value?
  | .missing _ => none

/-- `hash_table_has_key`. -/
def hasKey (t : Table K V) (key : K) : Bool :=
  match t.findSlot ops key with
  | .slot _ => true
  | .missing _ => false

/-- `hash_table_remove`. -/
def remove (t : Table K V) (key : K) : Bool × Table K V :=
  match t.findSlot ops key with
  | .slot i => (true, ⟨t.slots.set i .deleted, t.size - 1, t.tombstones + 1⟩)
  | .missing _ => (false, t)

end operations

/-- `hash_table_clear`. -/
def clear (t : Table K V) : Table K V := ⟨t.slots.map fun _ => .empty, 0, 0⟩

/-- `hash_table_count`. -/
def count (t : Table K V) : ℕ := t.size

/-- `hash_table_keys`: the keys in slot order; the null list when the table has no entry. -/
def keys (t : Table K V) : List K := if t.size = 0 then [] else t.slots.filterMap Slot.key?

/-- `hash_table_values`. -/
def values (t : Table K V) : List V := if t.size = 0 then [] else t.slots.filterMap Slot.value?

end Table

/-! ## Calls -/

inductive Call (K V : Type) where
  | set (key : K) (value : V)
  | get (key : K)
  | hasKey (key : K)
  | remove (key : K)
  | clear
  | count
  | keys
  | values

inductive Result (K V : Type) where
  | flag (b : Bool)
  | value (v : Option V)
  | unit
  | count (n : ℕ)
  | keys (ks : List K)
  | values (vs : List V)

/-- One call: its result and the table after it. -/
def Table.call (ops : KeyOps K) (t : Table K V) : Call K V → Option (Result K V × Table K V)
  | .set key value => (t.set ops key value).map (.flag true, ·)
  | .get key => some (.value (t.get ops key), t)
  | .hasKey key => some (.flag (t.hasKey ops key), t)
  | .remove key => some (.flag (t.remove ops key).1, (t.remove ops key).2)
  | .clear => some (.unit, t.clear)
  | .count => some (.count t.count, t)
  | .keys => some (.keys t.keys, t)
  | .values => some (.values t.values, t)

/-- A sequence of calls: their results and the table after the last. -/
def Table.calls (ops : KeyOps K) : Table K V → List (Call K V) → Option (List (Result K V) × Table K V)
  | t, [] => some ([], t)
  | t, c :: cs => do
    let (r, t) ← t.call ops c
    let (rs, t) ← Table.calls ops t cs
    return (r :: rs, t)

end Hash
