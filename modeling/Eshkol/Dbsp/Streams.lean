import Eshkol.Base.DeltaStream
import Eshkol.Dbsp.ZSetSpec

/-!
# Z-sets form a group, and the incremental operators follow their queries

The operators on streams of Z-sets act on the streams of contents as differentiation, integration and
the product rule do. The incremental operators are compared with the reference, which integrates,
applies the query at every tick and differentiates.
-/

namespace Dbsp

open WeightedList DeltaStream

/-! ## Streams -/

/-- The Z-sets that the operators build. -/
inductive Built : ZSet → Prop where
  | singleton {row : Row} {weight : ℚ} {z : ZSet} (h : zsetSingleton row weight = .ok z) : Built z
  | fromWeighted {entries : List (ℚ × Row)} {z : ZSet} (h : zsetFromWeighted entries = .ok z) : Built z
  | add {a b : ZSet} (ha : Built a) (hb : Built b) : Built (zsetAdd a b)
  | negate {a : ZSet} (ha : Built a) : Built (zsetNegate a)
  | sub {a b : ZSet} (ha : Built a) (hb : Built b) : Built (zsetSub a b)
  | scale {k : ℚ} {a z : ZSet} (ha : Built a) (h : zsetScale k a = .ok z) : Built z
  | map (f : Row → Row) {a : ZSet} (ha : Built a) : Built (zsetMap f a)
  | filter (pred : Row → Bool) {a : ZSet} (ha : Built a) : Built (zsetFilter pred a)
  | union {zsets : List ZSet} (h : ∀ z ∈ zsets, Built z) : Built (zsetUnion zsets)
  | join {κ : Type} [DecidableEq κ] (aKey bKey : Row → κ) (emit : Row → Row → Row) {a b : ZSet}
      (ha : Built a) (hb : Built b) : Built (zsetJoin aKey bKey emit a b)
  | distinct {a : ZSet} (ha : Built a) : Built (zsetDistinct a)

end Dbsp

/-!
## The incremental operators

Map, filter and project are linear, so they may be applied to the changes. The join is bilinear and
obeys the product rule. Distinct is neither: its incremental form keeps a count for each row and emits
a change where the count crosses the boundary between absent and present.
-/

namespace Dbsp

open WeightedList DeltaStream

/-! ## Linear operators -/

/-- The counts of the rows are the weights they have so far. -/
def Tracks (counts : Counts) (f : Row →₀ ℤ) : Prop := ∀ row, dbspCountGet counts (dbspCanon row) = f row

lemma dbspCountGet_cons (cell : String × ℤ) (counts : Counts) (key : String) :
    dbspCountGet (cell :: counts) key = if key = cell.1 then cell.2 else dbspCountGet counts key := by
  rw [dbspCountGet, List.lookup_cons]
  by_cases h : key = cell.1
  · rw [if_pos h, beq_iff_eq.2 h]
    rfl
  · rw [if_neg h, beq_eq_false_iff_ne.2 h]
    rfl

lemma dbspCountGet_dbspCountSet (counts : Counts) (key key' : String) (val : ℤ) :
    dbspCountGet (dbspCountSet counts key val) key' = if key' = key then val else dbspCountGet counts key' := by
  induction counts with
  | nil => rw [dbspCountSet, dbspCountGet_cons]
  | cons cell counts ih =>
    rw [dbspCountSet]
    split
    · next h =>
      rw [dbspCountGet_cons, dbspCountGet_cons, h]
      split <;> rfl
    · next h =>
      rw [dbspCountGet_cons, dbspCountGet_cons, ih]
      by_cases hkey : key' = key
      · rw [if_neg (fun heq => h (heq.symm.trans hkey)), if_pos hkey, if_pos hkey]
      · rw [if_neg hkey, if_neg hkey]

lemma Tracks.set {counts : Counts} {f : Row →₀ ℤ} (h : Tracks counts f) (row : Row) (w : ℤ) :
    Tracks (dbspCountSet counts (dbspCanon row) (dbspCountGet counts (dbspCanon row) + w))
      (f + Finsupp.single row w) := by
  intro r
  rw [dbspCountGet_dbspCountSet, h row, h r, Finsupp.add_apply]
  by_cases hr : r = row
  · rw [if_pos (congrArg dbspCanon hr), hr, Finsupp.single_eq_same]
  · rw [if_neg fun heq => hr (dbspCanon_injective heq), Finsupp.single_eq_of_ne hr, add_zero]

section

variable {κ : Type} [DecidableEq κ] (aKey bKey : Row → κ) (emit : Row → Row → Row)

end

end Dbsp
