import Mathlib.Data.List.Basic

/-!
# Keys: hashing and equality

Tagged values as the key functions of the hash table read them: a type, a 64-bit word, and behind a
pointer the object it leads to. A string, a number or a symbol is a leaf; pairs and vectors nest.
-/

namespace Hash

/-! ## Numbers and strings behind a pointer -/

/-- `eshkol_bignum_t`: limbs from the least significant one. -/
structure Bignum where
  negative : Bool
  limbs : List UInt64
deriving DecidableEq, Repr

namespace Bignum

/-- `eshkol_bignum_is_zero`. -/
def isZero (a : Bignum) : Bool := a.limbs == [0]

/-- The loop of `bignum_compare_abs`, from the most significant limb down. -/
def compareLimbs : List UInt64 → List UInt64 → Ordering
  | a :: as, b :: bs => if a ≠ b then (if b < a then .gt else .lt) else compareLimbs as bs
  | _, _ => .eq

/-- `bignum_compare_abs`. -/
def compareAbs (a b : Bignum) : Ordering :=
  if a.limbs.length ≠ b.limbs.length then
    if b.limbs.length < a.limbs.length then .gt else .lt
  else compareLimbs a.limbs.reverse b.limbs.reverse

/-- `eshkol_bignum_compare`. -/
def compare (a b : Bignum) : Ordering :=
  if a.negative ≠ b.negative then
    if a.isZero && b.isZero then .eq else if a.negative then .lt else .gt
  else
    let cmp := compareAbs a b
    if a.negative then cmp.swap else cmp

/-- The one-limb bignum that `eshkol_bignum_compare_int64` puts on the stack. -/
def ofInt64 (n : Int64) : Bignum :=
  if n.toInt < 0 then ⟨true, [(-n.toInt).toNat.toUInt64]⟩ else ⟨false, [n.toInt.toNat.toUInt64]⟩

/-- `eshkol_bignum_compare_int64`: the quick path for one limb, then the full comparison. -/
def compareInt64 (a : Bignum) (b : Int64) : Ordering :=
  match a.limbs, a.negative with
  | [av], false =>
    if 0 ≤ b.toInt then
      if b.toInt.toNat.toUInt64 < av then .gt
      else if av < b.toInt.toNat.toUInt64 then .lt else .eq
    else a.compare (ofInt64 b)
  | [av], true =>
    if b.toInt < 0 then
      if (-b.toInt).toNat.toUInt64 < av then .lt
      else if av < (-b.toInt).toNat.toUInt64 then .gt else .eq
    else a.compare (ofInt64 b)
  | _, _ => a.compare (ofInt64 b)

end Bignum

/-- `eshkol_rational_t`. -/
inductive Rational where
  | small (numerator denominator : Int64)
  | big (num den : Bignum)
deriving DecidableEq, Repr

/-- `eshkol_rational_equal`. -/
def Rational.equal : Rational → Rational → Bool
  | .small n d, .small n' d' => n == n' && d == d'
  | .big n d, .big n' d' => n.compare n' == .eq && d.compare d' == .eq
  | _, _ => false

/-- What a `char*` shows of a buffer: the bytes before the first NUL. -/
def cString (bytes : List UInt8) : List UInt8 := bytes.takeWhile (· ≠ 0)

/-- `strcmp(a, b) == 0`. -/
def strcmpEqual (a b : List UInt8) : Bool := cString a == cString b

/-- The bits of a double without its sign. -/
def magnitude (x : UInt64) : UInt64 := x &&& 0x7FFFFFFFFFFFFFFF

def isNan (x : UInt64) : Bool := 0x7FF0000000000000 < magnitude x

def isZeroDouble (x : UInt64) : Bool := magnitude x == 0

/-- `==` on doubles, by their bits: a NaN equals nothing, the two zeros are equal. -/
def doubleEqual (a b : UInt64) : Bool :=
  !isNan a && !isNan b && (a == b || (isZeroDouble a && isZeroDouble b))

/-! ## Tagged values -/

/-- The types whose word is no pointer that the key functions follow. -/
inductive ImmType where
  | null | int64 | double | bool | char | symbol | callable | logicVar
deriving DecidableEq, Repr

/-- The types whose word may be a null pointer. -/
inductive PtrType where
  | heapPtr | consPtr | stringPtr
deriving DecidableEq, Repr

/-- The heap objects without components, by subtype; `other` is any subtype compared by address. -/
inductive LeafObj where
  | string (bytes : List UInt8)
  | symbol (name : List UInt8)
  | bignum (n : Bignum)
  | rational (q : Rational)
  | other (subtype : UInt8)
deriving DecidableEq, Repr

inductive Leaf where
  | imm (type : ImmType) (data : UInt64)
  | nullPtr (type : PtrType)
  | heap (addr : UInt64) (obj : LeafObj)
  | stringPtr (addr : UInt64) (bytes : List UInt8)
deriving DecidableEq, Repr

/-- `eshkol_tagged_value_t`; a pair is a `HEAP_PTR`, or a `CONS_PTR` of the deprecated kind. -/
inductive Value where
  | leaf (l : Leaf)
  | pair (legacy : Bool) (addr : UInt64) (car cdr : Value)
  | vector (addr : UInt64) (elems : List Value)
deriving Repr

def ImmType.code : ImmType → UInt64
  | .null => 0
  | .int64 => 1
  | .double => 2
  | .bool => 3
  | .char => 4
  | .symbol => 5
  | .callable => 9
  | .logicVar => 10

def PtrType.code : PtrType → UInt64
  | .heapPtr => 8
  | .consPtr => 32
  | .stringPtr => 33

/-- The base type of a value. The flag bits that the code masks off are not part of its types. -/
def Leaf.type : Leaf → UInt64
  | .imm t _ => t.code
  | .nullPtr t => t.code
  | .heap _ _ => PtrType.heapPtr.code
  | .stringPtr _ _ => PtrType.stringPtr.code

/-! ## `hash_tagged_value` -/

def fnvOffsetBasis : UInt64 := 14695981039346656037
def fnvPrime : UInt64 := 1099511628211

/-- `hash ^= x; hash *= FNV_PRIME`. -/
def mix (hash x : UInt64) : UInt64 := (hash ^^^ x) * fnvPrime

/-- `fnv1a_hash_string`. -/
def fnv1aHashString (str : List UInt8) : UInt64 :=
  (cString str).foldl (fun hash c => mix hash c.toUInt64) fnvOffsetBasis

/-- `fnv1a_hash_u64`. -/
def fnv1aHashU64 (val : UInt64) : UInt64 :=
  (List.range 8).foldl (fun hash i => mix hash ((val >>> (UInt64.ofNat (i * 8))) &&& 0xFF))
    fnvOffsetBasis

/-- The hash before the data is mixed in. -/
def typeHash (type : UInt64) : UInt64 := mix fnvOffsetBasis type

/-- Sign, then limbs. -/
def Bignum.mixHash (hash : UInt64) (n : Bignum) : UInt64 :=
  n.limbs.foldl (fun hash limb => mix hash (fnv1aHashU64 limb)) (mix hash n.negative.toUInt64)

def Leaf.hash (l : Leaf) : UInt64 :=
  let hash := typeHash l.type
  match l with
  | .imm _ data => hash ^^^ fnv1aHashU64 data
  | .nullPtr .consPtr => hash ^^^ fnv1aHashU64 0
  | .nullPtr _ => hash
  | .heap _ (.string bytes) => hash ^^^ fnv1aHashString bytes
  | .heap _ (.bignum n) => n.mixHash hash
  | .heap addr _ => hash ^^^ fnv1aHashU64 addr
  | .stringPtr _ bytes => hash ^^^ fnv1aHashString bytes

mutual

def hashTaggedValue : Value → UInt64
  | .leaf l => l.hash
  | .pair true addr _ _ => typeHash PtrType.consPtr.code ^^^ fnv1aHashU64 addr
  | .pair false _ car cdr =>
    mix (mix (typeHash PtrType.heapPtr.code) (hashTaggedValue car)) (hashTaggedValue cdr)
  | .vector _ elems => (elemHashes elems).foldl mix (typeHash PtrType.heapPtr.code)

def elemHashes : List Value → List UInt64
  | [] => []
  | elem :: elems => hashTaggedValue elem :: elemHashes elems

end

/-! ## `hash_keys_equal` -/

/-- The pointer of a `HEAP_PTR` that is not null. -/
def Value.heapAddr? : Value → Option UInt64
  | .leaf (.heap addr _) => some addr
  | .pair false addr _ _ => some addr
  | .vector addr _ => some addr
  | _ => none

/-- The pointer comparison that comes before any look at the objects. -/
def samePtr (a b : Value) : Bool :=
  match a.heapAddr?, b.heapAddr? with
  | some p, some q => p == q
  | _, _ => false

/-- Two heap objects of one subtype at different addresses. -/
def LeafObj.keysEqual : LeafObj → LeafObj → Bool
  | .string s, .string s' => strcmpEqual s s'
  | .bignum n, .bignum n' => n.compare n' == .eq
  | _, _ => false

def Leaf.keysEqual : Leaf → Leaf → Bool
  | .imm t data, .imm t' data' =>
    t == t' && match t with
      | .double => doubleEqual data data'
      | .null => true
      | _ => data == data'
  | .nullPtr t, .nullPtr t' => t == t'
  | .heap _ obj, .heap _ obj' => obj.keysEqual obj'
  | .stringPtr p s, .stringPtr p' s' => p == p' || strcmpEqual s s'
  | _, _ => false

mutual

def hashKeysEqual : Value → Value → Bool
  | .leaf a, .leaf b => samePtr (.leaf a) (.leaf b) || a.keysEqual b
  | .pair false p carA cdrA, .pair false q carB cdrB =>
    p == q || (hashKeysEqual carA carB && hashKeysEqual cdrA cdrB)
  | .pair true p _ _, .pair true q _ _ => p == q
  | .vector p ea, .vector q eb => p == q || (ea.length == eb.length && elemsKeysEqual ea eb)
  | a, b => samePtr a b

/-- The loop over the elements of two vectors of one length. -/
def elemsKeysEqual : List Value → List Value → Bool
  | a :: as, b :: bs => hashKeysEqual a b && elemsKeysEqual as bs
  | _, _ => true

end

end Hash
