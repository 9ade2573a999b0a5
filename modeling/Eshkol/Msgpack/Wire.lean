import Mathlib.Data.List.TakeWhile
import Eshkol.Base.Cursor
import Eshkol.Scheme.Primitives

/-!
# The MessagePack wire format

Values, their encoding as a bytevector and the position-passing decoder.
-/

namespace Msgpack

open Cursor Scheme

/-! ## Strings -/

/-- What `string->utf8` and `utf8->string` do on strings: the bytes of a string give it back, and
a string that is made from bytes has no more bytes than these. -/
class Utf8String (S : Type) where
  /-- `string->utf8`. -/
  toUtf8 : S → List UInt8
  /-- `utf8->string`. -/
  ofUtf8 : List UInt8 → S
  ofUtf8_toUtf8 : ∀ s, ofUtf8 (toUtf8 s) = s
  length_toUtf8_le : ∀ b, (toUtf8 (ofUtf8 b)).length ≤ b.length

export Utf8String (toUtf8 ofUtf8 ofUtf8_toUtf8 length_toUtf8_le)

/-- A string of the bytecode machine, which keeps the count of its bytes. -/
structure CountedString where
  bytes : List UInt8
  deriving DecidableEq

instance : Utf8String CountedString where
  toUtf8 s := s.bytes
  ofUtf8 b := ⟨b⟩
  ofUtf8_toUtf8 _ := rfl
  length_toUtf8_le _ := Nat.le_refl _

/-- A string of compiled code, which ends before the first zero byte. -/
structure TerminatedString where
  bytes : List UInt8
  noZero : ∀ b ∈ bytes, b ≠ 0
  deriving DecidableEq

instance : Utf8String TerminatedString where
  toUtf8 s := s.bytes
  ofUtf8 b :=
    { bytes := b.takeWhile (· != 0)
      noZero := fun c hc => by simpa using List.mem_takeWhile_imp hc }
  ofUtf8_toUtf8 s := by
    obtain ⟨bytes, noZero⟩ := s
    congr 1
    exact List.takeWhile_eq_self_iff.2 fun c hc => by simpa using noZero c hc
  length_toUtf8_le b := (List.takeWhile_prefix _).length_le

/-! ## Values -/

/-- The values that the module distinguishes. A map is what `msgpack-map` makes from a list of
entries. -/
inductive Value (S : Type) where
  | symbol (name : String)
  | boolean (b : Bool)
  | integer (i : ℤ)
  | string (s : S)
  | bytevector (b : List UInt8)
  | map (entries : List (Value S))
  | list (elements : List (Value S))

/-- `msgpack-null`. -/
def null {S : Type} : Value S := .symbol "msgpack-null"

variable {S : Type} [Utf8String S]

/-! ## Encoding -/

/-- `msgpack-require-byte`. -/
def requireByte (b : ℤ) : Except SchemeError UInt8 :=
  if 0 ≤ b ∧ b ≤ 255 then .ok (UInt8.ofNat b.toNat)
  else raise "msgpack-bytes->bytevector" [.string "expected byte in [0,255]", .integer b]

/-- `msgpack-bytes->bytevector`. -/
def bytesToBytevector (bytes : List ℤ) : Except SchemeError (List UInt8) := bytes.mapM requireByte

/-- `msgpack-bytevector->bytes`. -/
def bytevectorToBytes (bv : List UInt8) : List ℤ := bv.map fun b => (b.toNat : ℤ)

/-- `msgpack-u16-bytes`. -/
def u16Bytes (n : ℤ) : List ℤ := [n.tdiv 256, n.tmod 256]

/-- `msgpack-u32-bytes`. -/
def u32Bytes (n : ℤ) : List ℤ :=
  let b1 := n.tdiv 16777216
  let r1 := n.tmod 16777216
  let b2 := r1.tdiv 65536
  let r2 := r1.tmod 65536
  let b3 := r2.tdiv 256
  let b4 := r2.tmod 256
  [b1, b2, b3, b4]

/-- `msgpack-encode-int`. -/
def encodeInt (n : ℤ) : Except SchemeError (List ℤ) :=
  if 0 ≤ n ∧ n ≤ 127 then .ok [n]
  else if 0 ≤ n ∧ n ≤ 255 then .ok [204, n]
  else if 0 ≤ n ∧ n ≤ 65535 then .ok (205 :: u16Bytes n)
  else if 0 ≤ n ∧ n ≤ 4294967295 then .ok (206 :: u32Bytes n)
  else if -32 ≤ n ∧ n < 0 then .ok [256 + n]
  else if -128 ≤ n ∧ n < -32 then .ok [208, 256 + n]
  else if -32768 ≤ n ∧ n < -128 then .ok (209 :: u16Bytes (65536 + n))
  else if -2147483648 ≤ n ∧ n < -32768 then .ok (210 :: u32Bytes (4294967296 + n))
  else raise "msgpack-encode: integer outside supported 32-bit wire range" [.integer n]

/-- `msgpack-encode-bin-bytes`. -/
def encodeBinBytes (payload : List ℤ) : Except SchemeError (List ℤ) :=
  if payload.length ≤ 255 then .ok ([196, (payload.length : ℤ)] ++ payload)
  else if payload.length ≤ 65535 then .ok (197 :: u16Bytes payload.length ++ payload)
  else raise "msgpack-encode: bin payload too large for current substrate"
    [.integer payload.length]

/-- `msgpack-encode-string`. -/
def encodeString (str : S) : Except SchemeError (List ℤ) :=
  let payload := bytevectorToBytes (toUtf8 str)
  if payload.length ≤ 31 then .ok ((160 + payload.length : ℤ) :: payload)
  else if payload.length ≤ 255 then .ok ([217, (payload.length : ℤ)] ++ payload)
  else if payload.length ≤ 65535 then .ok (218 :: u16Bytes payload.length ++ payload)
  else raise "msgpack-encode: string payload too large for current substrate"
    [.integer payload.length]

/-- The header that `msgpack-encode-array` and `msgpack-encode-map-value` put in front: a single
byte from `fix` on for up to 15 elements, else the marker `wide` and two bytes. -/
def encodeCount (fix wide : ℤ) (message : String) (len : ℕ) : Except SchemeError (List ℤ) :=
  if len ≤ 15 then .ok [fix + len]
  else if len ≤ 65535 then .ok (wide :: u16Bytes len)
  else raise message [.integer len]

mutual

/-- `msgpack-encode-value`. -/
def encodeValue : Value S → Except SchemeError (List ℤ)
  | .symbol name =>
    if name = "msgpack-null" then .ok [192]
    else raise "msgpack-encode: unsupported value" [.object]
  | .boolean b => .ok (if b then [195] else [194])
  | .integer n => encodeInt n
  | .string s => encodeString s
  | .bytevector bv => encodeBinBytes (bytevectorToBytes bv)
  | .map entries => encodeMapValue entries
  | .list elements => encodeArray elements

/-- `msgpack-encode-array`. -/
def encodeArray (values : List (Value S)) : Except SchemeError (List ℤ) := do
  let header ← encodeCount 144 220 "msgpack-encode: array too large for current substrate"
    values.length
  let elements ← encodeArrayElements values
  return header ++ elements

/-- `msgpack-encode-array-elements`. -/
def encodeArrayElements : List (Value S) → Except SchemeError (List ℤ)
  | [] => .ok []
  | value :: values => do
    let first ← encodeValue value
    let rest ← encodeArrayElements values
    return first ++ rest

/-- `msgpack-encode-map-value`. -/
def encodeMapValue (entries : List (Value S)) : Except SchemeError (List ℤ) := do
  let header ← encodeCount 128 222 "msgpack-encode: map too large for current substrate"
    entries.length
  let body ← encodeMapEntries entries
  return header ++ body

/-- `msgpack-encode-map-entries`. -/
def encodeMapEntries : List (Value S) → Except SchemeError (List ℤ)
  | [] => .ok []
  | entry :: entries => do
    let first ← encodeMapEntry entry
    let rest ← encodeMapEntries entries
    return first ++ rest

/-- `msgpack-encode-map-entry`. -/
def encodeMapEntry : Value S → Except SchemeError (List ℤ)
  | .list [key, value] => do
    let k ← encodeValue key
    let v ← encodeValue value
    return k ++ v
  | _ => raise "msgpack-encode: map entries must be two-element lists" [.object]

end

/-- `msgpack-encode`. -/
def encode (value : Value S) : Except SchemeError (List UInt8) := do
  let bytes ← encodeValue value
  bytesToBytevector bytes

/-! ## Decoding -/

/-- Evidence that `n` bytes follow `pos`. -/
structure Available (bv : List UInt8) (pos n : ℕ) : Type where
  end_le : pos + n ≤ bv.length

/-- `msgpack-require-available`. -/
def requireAvailable (bv : List UInt8) (pos n : ℕ) : Except SchemeError (Available bv pos n) :=
  if h : pos + n ≤ bv.length then .ok ⟨h⟩
  else raise "msgpack-decode: truncated input" [.integer pos]

/-- `bytevector-u8-ref`. -/
def u8Ref (bv : List UInt8) (pos : ℕ) (h : pos < bv.length) : ℕ := (bv.get ⟨pos, h⟩).toNat

/-- `msgpack-read-u16`, and that the two bytes are there. -/
def readU16 (bv : List UInt8) (pos : ℕ) :
    Except SchemeError (ℕ × Available bv pos 2) := do
  let ⟨h⟩ ← requireAvailable bv pos 2
  return (u8Ref bv pos (by omega) * 256 + u8Ref bv (pos + 1) (by omega), ⟨h⟩)

/-- `msgpack-read-u32`, and that the four bytes are there. -/
def readU32 (bv : List UInt8) (pos : ℕ) :
    Except SchemeError (ℕ × Available bv pos 4) := do
  let ⟨h⟩ ← requireAvailable bv pos 4
  return (u8Ref bv pos (by omega) * 16777216 + u8Ref bv (pos + 1) (by omega) * 65536 +
    u8Ref bv (pos + 2) (by omega) * 256 + u8Ref bv (pos + 3) (by omega), ⟨h⟩)

/-- `bytevector-copy` of the bytes between two positions. -/
def bytevectorCopy (bv : List UInt8) (first last : ℕ) : List UInt8 :=
  (bv.drop first).take (last - first)

/-- `msgpack-decode-bin`. -/
def decodeBin (bv : List UInt8) (pos len : ℕ) :
    Except SchemeError (Value S × Onward pos bv.length) := do
  let ⟨h⟩ ← requireAvailable bv pos len
  return (.bytevector (bytevectorCopy bv pos (pos + len)), ⟨pos + len, by omega⟩)

/-- `msgpack-decode-string`. -/
def decodeString (bv : List UInt8) (pos len : ℕ) :
    Except SchemeError (Value S × Onward pos bv.length) := do
  let ⟨h⟩ ← requireAvailable bv pos len
  return (.string (ofUtf8 (bytevectorCopy bv pos (pos + len))), ⟨pos + len, by omega⟩)

mutual

/-- `msgpack-decode-at`: the object that starts at `pos`, and the position after it. -/
def decodeAt (bv : List UInt8) (pos : ℕ) :
    Except SchemeError (Value S × Beyond pos bv.length) := do
  let ⟨h⟩ ← requireAvailable bv pos 1
  let tag := u8Ref bv pos (by omega)
  let next := pos + 1
  if tag ≤ 127 then return (.integer tag, ⟨next, by omega⟩)
  else if 128 ≤ tag ∧ tag ≤ 143 then
    let (v, q) ← decodeMapEntries bv next (tag - 128) []
    return (v, q.beyond (by omega) (by omega))
  else if 144 ≤ tag ∧ tag ≤ 159 then
    let (v, q) ← decodeArrayElements bv next (tag - 144) []
    return (v, q.beyond (by omega) (by omega))
  else if 160 ≤ tag ∧ tag ≤ 191 then
    let (v, q) ← decodeString bv next (tag - 160)
    return (v, q.beyond (by omega) (by omega))
  else if tag = 192 then return (null, ⟨next, by omega⟩)
  else if tag = 194 then return (.boolean false, ⟨next, by omega⟩)
  else if tag = 195 then return (.boolean true, ⟨next, by omega⟩)
  else if tag = 196 then
    let ⟨h₁⟩ ← requireAvailable bv next 1
    let (v, q) ← decodeBin bv (next + 1) (u8Ref bv next (by omega))
    return (v, q.beyond (by omega) (by omega))
  else if tag = 197 then
    let (n, ⟨h₁⟩) ← readU16 bv next
    let (v, q) ← decodeBin bv (next + 2) n
    return (v, q.beyond (by omega) (by omega))
  else if tag = 204 then
    let ⟨h₁⟩ ← requireAvailable bv next 1
    return (.integer (u8Ref bv next (by omega)), ⟨next + 1, by omega⟩)
  else if tag = 205 then
    let (n, ⟨h₁⟩) ← readU16 bv next
    return (.integer n, ⟨next + 2, by omega⟩)
  else if tag = 206 then
    let (n, ⟨h₁⟩) ← readU32 bv next
    return (.integer n, ⟨next + 4, by omega⟩)
  else if tag = 208 then
    let ⟨h₁⟩ ← requireAvailable bv next 1
    let v := u8Ref bv next (by omega)
    return (.integer (if 128 ≤ v then v - 256 else v), ⟨next + 1, by omega⟩)
  else if tag = 209 then
    let (v, ⟨h₁⟩) ← readU16 bv next
    return (.integer (if 32768 ≤ v then v - 65536 else v), ⟨next + 2, by omega⟩)
  else if tag = 210 then
    let (v, ⟨h₁⟩) ← readU32 bv next
    return (.integer (if 2147483648 ≤ v then v - 4294967296 else v), ⟨next + 4, by omega⟩)
  else if tag = 217 then
    let ⟨h₁⟩ ← requireAvailable bv next 1
    let (v, q) ← decodeString bv (next + 1) (u8Ref bv next (by omega))
    return (v, q.beyond (by omega) (by omega))
  else if tag = 218 then
    let (n, ⟨h₁⟩) ← readU16 bv next
    let (v, q) ← decodeString bv (next + 2) n
    return (v, q.beyond (by omega) (by omega))
  else if tag = 220 then
    let (n, ⟨h₁⟩) ← readU16 bv next
    let (v, q) ← decodeArrayElements bv (next + 2) n []
    return (v, q.beyond (by omega) (by omega))
  else if tag = 222 then
    let (n, ⟨h₁⟩) ← readU16 bv next
    let (v, q) ← decodeMapEntries bv (next + 2) n []
    return (v, q.beyond (by omega) (by omega))
  else if 224 ≤ tag then return (.integer (tag - 256), ⟨next, by omega⟩)
  else raise "msgpack-decode: unsupported type marker" [.integer tag]
termination_by 2 * (bv.length - pos)

/-- `msgpack-decode-array-elements`. -/
def decodeArrayElements (bv : List UInt8) (pos count : ℕ) (acc : List (Value S)) :
    Except SchemeError (Value S × Onward pos bv.length) := do
  if count = 0 then return (.list acc.reverse, ⟨pos, by omega⟩)
  else
    let (value, ⟨next, hnext⟩) ← decodeAt bv pos
    let (v, q) ← decodeArrayElements bv next (count - 1) (value :: acc)
    return (v, q.weaken (by omega) (by omega))
termination_by 2 * (bv.length - pos) + 1

/-- `msgpack-decode-map-entries`. -/
def decodeMapEntries (bv : List UInt8) (pos count : ℕ) (acc : List (Value S)) :
    Except SchemeError (Value S × Onward pos bv.length) := do
  if count = 0 then return (.map acc.reverse, ⟨pos, by omega⟩)
  else
    let (key, ⟨middle, hmiddle⟩) ← decodeAt bv pos
    let (value, ⟨next, hnext⟩) ← decodeAt bv middle
    let (v, q) ← decodeMapEntries bv next (count - 1) (.list [key, value] :: acc)
    return (v, q.weaken (by omega) (by omega))
termination_by 2 * (bv.length - pos) + 1

end

/-- `msgpack-decode-prefix`. -/
def decodePrefix (bv : List UInt8) : Except SchemeError (Value S × ℕ) := do
  let (v, q) ← decodeAt bv 0
  return (v, q.1)

/-- `msgpack-decode`. -/
def decode (bv : List UInt8) : Except SchemeError (Value S) := do
  let (value, q) ← decodeAt bv 0
  if q.1 = bv.length then return value
  else raise "msgpack-decode: trailing bytes after one object" [.integer q.1]

end Msgpack
