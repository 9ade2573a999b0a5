import Eshkol.Base.Recency
import Eshkol.Hash.Table
import Eshkol.Scheme.Datum
import Eshkol.Scheme.Primitives

/-!
# The cache

A bounded cache over the hash table of the runtime. An entry is a pair of a value and a timestamp,
which the table alone refers to, so that changing the pair changes the slot that leads to it.
-/

namespace Cache

open Scheme Hash

/-- What ends a call without a result: an error, or a probe loop that does not end. -/
inductive Fault where
  | raised (e : SchemeError)
  | loops
deriving DecidableEq

variable {K V : Type}

/-- `#(capacity counter-box ht)`. -/
structure LruCache (K V : Type) where
  capacity : ℤ
  counter : ℕ
  table : Table K (V × ℕ)

/-- `lru-size`. -/
def lruSize (cache : LruCache K V) : ℕ := cache.table.count

section operations

variable (ops : KeyOps K)

/-- `lru-clear!`. -/
def lruClear (cache : LruCache K V) : LruCache K V := { cache with table := cache.table.clear }

end operations

/-- Numbers as `display` writes them. -/
class NumberText (ν : Type) where
  display : ν → Text

instance : NumberText ℤ := ⟨integerText⟩

/-- The arguments that the memoizers are meant for. -/
inductive Scalar (ν : Type) where
  | number (x : ν)
  | string (s : Text)
  | symbol (name : Text)
  | boolean (b : Bool)
deriving DecidableEq

/-- `display` to a string port. -/
def Scalar.display {ν : Type} [NumberText ν] : Scalar ν → Text
  | number x => NumberText.display x
  | string s => s
  | symbol name => name
  | boolean b => if b then "#t".toList else "#f".toList

end Cache
