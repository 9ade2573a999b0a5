import Eshkol.Data.ListSort
import Eshkol.Dbsp.Row

/-!
# Z-sets

A Z-set is a list of weighted rows in normal form: sorted by the canonical strings of the rows, one
entry for a row, no zero weight. Weights are given as exact numbers and have to be integers.
-/

namespace Dbsp

/-- What `error` raises: its message and the value it is about. -/
structure SchemeError where
  message : String
  irritant : ℚ
deriving DecidableEq

/-- `#(dbsp-zset-v1 ((weight row) …))`. -/
structure ZSet where
  entries : List (ℤ × Row)
deriving DecidableEq

/-- `integer?` of an exact number. -/
def isInteger (q : ℚ) : Bool := q.den == 1

/-! ## Consolidation -/

/-- A weighted row with its canonical string, `(canon weight . row)`. -/
abbrev Tagged : Type := String × ℤ × Row

/-- An entry in front of others, unless its weight is zero. -/
def consNonzero (w : ℤ) (row : Row) (acc : List (ℤ × Row)) : List (ℤ × Row) :=
  if w = 0 then acc else (w, row) :: acc

def dbspMergeLoop : Tagged → List Tagged → List (ℤ × Row) → List (ℤ × Row)
  | (_, w, row), [], acc => (consNonzero w row acc).reverse
  | (canon, w, row), nxt :: rest, acc =>
    if canon = nxt.1 then dbspMergeLoop (canon, w + nxt.2.1, row) rest acc
    else dbspMergeLoop nxt rest (consNonzero w row acc)

def dbspMergeSorted : List Tagged → List (ℤ × Row)
  | [] => []
  | cur :: rest => dbspMergeLoop cur rest []

/-- The rows by their canonical strings. -/
def canonLess (a b : Tagged) : Bool := a.1 < b.1

/-- `sort` of the tagged pairs; the list sort ends without a fault. -/
def sortTagged (tagged : List Tagged) : List Tagged :=
  match ListSort.sort ("", 0, .null) tagged canonLess with
  | .ok out => out
  | .error _ => tagged

def dbspNormalizePairs (pairs : List (ℤ × Row)) : List (ℤ × Row) :=
  dbspMergeSorted (sortTagged (pairs.map fun wr => (dbspCanon wr.2, wr)))

/-! ## The group -/

def zsetEmpty : ZSet := ⟨[]⟩

def zsetSingleton (row : Row) (weight : ℚ) : Except SchemeError ZSet :=
  if isInteger weight then .ok (if weight = 0 then zsetEmpty else ⟨[(weight.num, row)]⟩)
  else .error ⟨"zset-singleton: weight must be an exact integer", weight⟩

/-- A weight given to `zsetFromWeighted`. -/
def checkWeighted (e : ℚ × Row) : Except SchemeError (ℤ × Row) :=
  if isInteger e.1 then .ok (e.1.num, e.2)
  else .error ⟨"zset-from-weighted: weight must be an exact integer", e.1⟩

def zsetFromWeighted (entries : List (ℚ × Row)) : Except SchemeError ZSet := do
  let pairs ← entries.mapM checkWeighted
  return ⟨dbspNormalizePairs pairs⟩

def zsetAdd (a b : ZSet) : ZSet := ⟨dbspNormalizePairs (a.entries ++ b.entries)⟩

def zsetNegate (a : ZSet) : ZSet := ⟨a.entries.map fun e => (-e.1, e.2)⟩

def zsetSub (a b : ZSet) : ZSet := zsetAdd a (zsetNegate b)

def zsetScale (k : ℚ) (zs : ZSet) : Except SchemeError ZSet :=
  if isInteger k then
    .ok (if k = 0 then zsetEmpty else ⟨zs.entries.map fun e => (k.num * e.1, e.2)⟩)
  else .error ⟨"zset-scale: k must be an exact integer", k⟩

def zsetMap (f : Row → Row) (zs : ZSet) : ZSet :=
  ⟨dbspNormalizePairs (zs.entries.map fun e => (e.1, f e.2))⟩

def zsetFilter (pred : Row → Bool) (zs : ZSet) : ZSet := ⟨zs.entries.filter fun e => pred e.2⟩

def zsetUnion (zsets : List ZSet) : ZSet := zsets.foldl zsetAdd zsetEmpty

section

variable {κ : Type} [DecidableEq κ] (aKey bKey : Row → κ) (emit : Row → Row → Row)

/-- The inner loop of `dbspJoinPairs`. -/
def joinRow (wa : ℤ) (ra : Row) : List (ℤ × Row) → List (ℤ × Row) → List (ℤ × Row)
  | [], acc => acc
  | (wb, rb) :: bs, acc =>
    if aKey ra = bKey rb then joinRow wa ra bs ((wa * wb, emit ra rb) :: acc)
    else joinRow wa ra bs acc

/-- The outer loop of `dbspJoinPairs`. -/
def joinRows (eb : List (ℤ × Row)) : List (ℤ × Row) → List (ℤ × Row) → List (ℤ × Row)
  | [], acc => acc
  | (wa, ra) :: as, acc => joinRows eb as (joinRow aKey bKey emit wa ra eb acc)

def dbspJoinPairs (ea eb : List (ℤ × Row)) : List (ℤ × Row) := joinRows aKey bKey emit eb ea []

/-- The equijoin on the keys. -/
def zsetJoin (a b : ZSet) : ZSet :=
  ⟨dbspNormalizePairs (dbspJoinPairs aKey bKey emit a.entries b.entries)⟩

end

def zsetDistinct (zs : ZSet) : ZSet :=
  ⟨(zs.entries.filter fun e => e.1 > 0).map fun e => (1, e.2)⟩

/-! ## Streams -/

section

variable {κ : Type} [DecidableEq κ] (aKey bKey : Row → κ) (emit : Row → Row → Row)

end

/-- The counts of the rows by their canonical strings. -/
abbrev Counts : Type := List (String × ℤ)

def dbspCountGet (counts : Counts) (key : String) : ℤ := (counts.lookup key).getD 0

def dbspCountSet : Counts → String → ℤ → Counts
  | [], key, val => [(key, val)]
  | cell :: counts, key, val =>
    if cell.1 = key then (key, val) :: counts else cell :: dbspCountSet counts key val

end Dbsp
