import Eshkol.Base.Replication
import Eshkol.Scheme.Datum
import Mathlib.Data.Char
import Mathlib.Data.List.Lex
import Mathlib.Data.Prod.Lex

/-!
# The last-writer-wins map

A register holds a value with the timestamp and the writer of the write, or a tombstone with those of the
removal. Merging takes the newer register of a key; a local write replaces whatever is there.
-/

namespace Distributed

open Scheme (Text)

/-- Values with `#f` and a text that they are compared by. -/
class LwwValue (V : Type) where
  ofFalse : V
  distributedKey : V → Text

instance (δ : Type) [Scheme.DoubleText δ] : LwwValue (Scheme.Datum δ) where
  ofFalse := .boolean false
  distributedKey := Scheme.Datum.canonicalString

/-- `#(lww-register value timestamp writer deleted?)`. -/
structure LwwRegister (V T : Type) where
  value : V
  timestamp : T
  writer : V
  deleted : Bool

/-- `#(lww-map entries)`. -/
structure LwwMap (V T : Type) where
  entries : List (V × LwwRegister V T)

variable {V T : Type} [LwwValue V] [LinearOrder T]

/-- `distributed-key<?`. -/
def distributedKeyLt (a b : V) : Bool := decide (LwwValue.distributedKey a < LwwValue.distributedKey b)

/-- `distributed-key>?`. -/
def distributedKeyGt (a b : V) : Bool := decide (LwwValue.distributedKey b < LwwValue.distributedKey a)

namespace LwwRegister

/-- `make-lww-register`. -/
def make (value : V) (timestamp : T) (writer : V) : LwwRegister V T := ⟨value, timestamp, writer, false⟩

/-- `lww-register-delete`. -/
def delete (_ : LwwRegister V T) (timestamp : T) (writer : V) : LwwRegister V T :=
  ⟨LwwValue.ofFalse, timestamp, writer, true⟩

/-- `lww-register-present?`. -/
def present (register : LwwRegister V T) : Bool := !register.deleted

/-- `lww-register-newer?`. -/
def newer (a b : LwwRegister V T) : Bool :=
  if b.timestamp < a.timestamp then true
  else if a.timestamp < b.timestamp then false
  else if distributedKeyGt a.writer b.writer then true
  else if distributedKeyLt a.writer b.writer then false
  else if a.deleted && !b.deleted then true
  else if !a.deleted && b.deleted then false
  else distributedKeyGt a.value b.value

/-- `lww-register-merge`. -/
def merge (a b : LwwRegister V T) : LwwRegister V T := if b.newer a then b else a

/-- The timestamp and the writer, in their order. -/
def stamp (register : LwwRegister V T) : T ×ₗ Text :=
  toLex (register.timestamp, LwwValue.distributedKey register.writer)

/-- Registers of different writes are ordered by their stamps. -/
lemma newer_iff {a b : LwwRegister V T} (h : a.stamp ≠ b.stamp) : a.newer b = true ↔ b.stamp < a.stamp := by
  have hlex := Prod.Lex.toLex_lt_toLex (x := (b.timestamp, LwwValue.distributedKey b.writer))
    (y := (a.timestamp, LwwValue.distributedKey a.writer))
  rw [stamp, stamp, hlex, newer]
  rcases lt_trichotomy a.timestamp b.timestamp with hlt | heq | hlt
  · rw [if_neg (not_lt_of_gt hlt), if_pos hlt]
    simp [not_lt_of_gt hlt, ne_of_gt hlt]
  · have hne : LwwValue.distributedKey a.writer ≠ LwwValue.distributedKey b.writer := by
      intro hwriter
      exact h (by rw [stamp, stamp, heq, hwriter])
    rw [if_neg (not_lt_of_ge heq.le), if_neg (not_lt_of_ge heq.ge), distributedKeyGt, distributedKeyLt]
    rcases lt_or_gt_of_ne hne with hkey | hkey
    · simp [hkey, not_lt_of_gt hkey, heq]
    · simp [hkey, heq]
  · rw [if_pos hlt]
    simp [hlt]

end LwwRegister

section entries

variable [DecidableEq V]

/-- `lww-map-entry-ref`. -/
def lwwMapEntryRef : List (V × LwwRegister V T) → V → Option (V × LwwRegister V T)
  | [], _ => none
  | entry :: entries, key => if entry.1 = key then some entry else lwwMapEntryRef entries key

/-- `lww-map-entry-set`. -/
def lwwMapEntrySet : List (V × LwwRegister V T) → V → LwwRegister V T → List (V × LwwRegister V T)
  | [], key, register => [(key, register)]
  | entry :: entries, key, register =>
    if entry.1 = key then (key, register) :: entries
    else entry :: lwwMapEntrySet entries key register

/-- `lww-map-merge-entries`. -/
def lwwMapMergeEntries : List (V × LwwRegister V T) → List (V × LwwRegister V T) →
    List (V × LwwRegister V T)
  | [], acc => acc
  | entry :: entries, acc =>
    let mergedRegister := if let some existing := lwwMapEntryRef acc entry.1
      then existing.2.merge entry.2 else entry.2
    lwwMapMergeEntries entries (lwwMapEntrySet acc entry.1 mergedRegister)

namespace LwwMap

/-- `make-lww-map`. -/
def make : LwwMap V T := ⟨[]⟩

/-- `lww-map-set`. -/
def set (map : LwwMap V T) (key value : V) (timestamp : T) (writer : V) : LwwMap V T :=
  ⟨lwwMapEntrySet map.entries key (.make value timestamp writer)⟩

/-- `lww-map-remove`. -/
def remove (map : LwwMap V T) (key : V) (timestamp : T) (writer : V) : LwwMap V T :=
  ⟨lwwMapEntrySet map.entries key
    ((LwwRegister.make LwwValue.ofFalse timestamp writer).delete timestamp writer)⟩

/-- `lww-map-ref`. -/
def ref (map : LwwMap V T) (key default : V) : V :=
  match lwwMapEntryRef map.entries key with
  | some entry => if entry.2.present then entry.2.value else default
  | none => default

/-- `lww-map-contains?`. -/
def contains (map : LwwMap V T) (key : V) : Bool :=
  match lwwMapEntryRef map.entries key with
  | some entry => entry.2.present
  | none => false

/-- `lww-map-merge`. -/
def merge (a b : LwwMap V T) : LwwMap V T := ⟨lwwMapMergeEntries b.entries a.entries⟩

end LwwMap

/-! ## Lookups -/

/-- The register of a key. -/
def lwwLookup (entries : List (V × LwwRegister V T)) (key : V) : Option (LwwRegister V T) :=
  (lwwMapEntryRef entries key).map Prod.snd

omit [LwwValue V] [LinearOrder T] in
lemma lwwLookup_set (entries : List (V × LwwRegister V T)) (key k : V) (register : LwwRegister V T) :
    lwwLookup (lwwMapEntrySet entries key register) k =
      if k = key then some register else lwwLookup entries k := by
  induction entries with
  | nil =>
    rw [lwwMapEntrySet, lwwLookup, lwwMapEntryRef]
    by_cases hk : key = k <;> simp [hk, eq_comm, lwwMapEntryRef, lwwLookup]
  | cons entry entries ih =>
    rw [lwwLookup] at ih ⊢
    rw [lwwLookup, lwwMapEntryRef, lwwMapEntrySet]
    by_cases hentry : entry.1 = key
    · rw [if_pos hentry, lwwMapEntryRef]
      by_cases hk : key = k
      · rw [if_pos hk, if_pos hk.symm]
        rfl
      · rw [if_neg hk, if_neg (Ne.symm hk), if_neg (fun h => hk (hentry.symm.trans h))]
    · rw [if_neg hentry, lwwMapEntryRef]
      by_cases hk : entry.1 = k
      · rw [if_pos hk, if_pos hk, if_neg (fun h => hentry (hk.trans h))]
      · rw [if_neg hk, if_neg hk, ih]
        rfl

omit [LwwValue V] [LinearOrder T] in
lemma lwwLookup_eq_none {entries : List (V × LwwRegister V T)} {key : V} (h : key ∉ entries.map Prod.fst) :
    lwwLookup entries key = none := by
  induction entries with
  | nil => rfl
  | cons entry entries ih =>
    rw [List.map_cons, List.mem_cons, not_or] at h
    rw [lwwLookup, lwwMapEntryRef, if_neg (Ne.symm h.1)]
    exact ih h.2

omit [LwwValue V] [LinearOrder T] in
/-- The keys stay where they are, a new one comes last. -/
lemma keys_set (entries : List (V × LwwRegister V T)) (key : V) (register : LwwRegister V T) :
    (lwwMapEntrySet entries key register).map Prod.fst =
      if key ∈ entries.map Prod.fst then entries.map Prod.fst else entries.map Prod.fst ++ [key] := by
  induction entries with
  | nil => simp [lwwMapEntrySet]
  | cons entry entries ih =>
    rw [lwwMapEntrySet]
    by_cases hentry : entry.1 = key
    · simp [hentry]
    · have hne : key ≠ entry.1 := Ne.symm hentry
      rw [if_neg hentry, List.map_cons, ih, List.map_cons]
      by_cases hmem : key ∈ entries.map Prod.fst <;> simp only [List.mem_cons, hne, hmem] <;> rfl

omit [LwwValue V] [LinearOrder T] in
lemma nodup_keys_set {entries : List (V × LwwRegister V T)} (h : (entries.map Prod.fst).Nodup) (key : V)
    (register : LwwRegister V T) : ((lwwMapEntrySet entries key register).map Prod.fst).Nodup := by
  rw [keys_set]
  split
  · exact h
  · rename_i hmem
    rw [List.nodup_append]
    refine ⟨h, List.nodup_singleton key, fun a ha b hb => ?_⟩
    rw [List.mem_singleton.1 hb]
    rintro rfl
    exact hmem ha

/-- The newer of two registers, where there are two. -/
def mergeLookup : Option (LwwRegister V T) → Option (LwwRegister V T) → Option (LwwRegister V T)
  | some a, some b => some (a.merge b)
  | some a, none => some a
  | none, b => b

lemma lwwLookup_mergeEntries {entries : List (V × LwwRegister V T)} (h : (entries.map Prod.fst).Nodup)
    (acc : List (V × LwwRegister V T)) (key : V) :
    lwwLookup (lwwMapMergeEntries entries acc) key = mergeLookup (lwwLookup acc key) (lwwLookup entries key) := by
  induction entries generalizing acc with
  | nil =>
    rw [lwwMapMergeEntries]
    cases lwwLookup acc key <;> rfl
  | cons entry entries ih =>
    obtain ⟨hnotMem, hrest⟩ := List.nodup_cons.1 h
    rw [lwwMapMergeEntries, ih hrest, lwwLookup_set]
    by_cases hkey : key = entry.1
    · -- the key of the first entry is not among the others
      have hnone : lwwLookup entries entry.1 = none := lwwLookup_eq_none hnotMem
      have hfirst : lwwLookup (entry :: entries) entry.1 = some entry.2 := by
        rw [lwwLookup, lwwMapEntryRef, if_pos rfl]
        rfl
      rw [if_pos hkey, hkey, hnone, hfirst, lwwLookup]
      cases lwwMapEntryRef acc entry.1 <;> rfl
    · have hother : lwwLookup (entry :: entries) key = lwwLookup entries key := by
        rw [lwwLookup, lwwMapEntryRef, if_neg (Ne.symm hkey)]
        rfl
      rw [if_neg hkey, hother]

lemma nodup_keys_mergeEntries (entries : List (V × LwwRegister V T)) {acc : List (V × LwwRegister V T)}
    (h : (acc.map Prod.fst).Nodup) : ((lwwMapMergeEntries entries acc).map Prod.fst).Nodup := by
  induction entries generalizing acc with
  | nil => exact h
  | cons entry entries ih => exact ih (nodup_keys_set h _ _)

omit [LwwValue V] [LinearOrder T] in
lemma LwwMap.ref_eq (map : LwwMap V T) (key default : V) :
    map.ref key default =
      ((lwwLookup map.entries key).bind fun r => if r.present then some r.value else none).getD default := by
  rw [LwwMap.ref, lwwLookup]
  cases lwwMapEntryRef map.entries key with
  | none => rfl
  | some entry => cases h : entry.2.present <;> simp [h]

omit [LwwValue V] [LinearOrder T] in
lemma LwwMap.contains_eq (map : LwwMap V T) (key : V) :
    map.contains key = (lwwLookup map.entries key).any LwwRegister.present := by
  rw [LwwMap.contains, lwwLookup]
  cases lwwMapEntryRef map.entries key <;> rfl

end entries

end Distributed
