import Mathlib.Data.UInt

/-!
# Strings of the virtual machine

A string is a buffer of UTF-8 bytes and its number of code points. Positions are byte offsets, found by decoding
from the start; searching and slicing work on the bytes.
-/

namespace Vm.Strings

/-- `VmString`; `byte_len` is the length of `data`. -/
structure VmString where
  data : List UInt8
  charLen : ℕ
deriving DecidableEq

/-- `VM_UNICODE_REPLACEMENT`. -/
def vmUnicodeReplacement : ℤ := 0xFFFD

/-- Reads the `expect` continuation bytes of `vm_utf8_decode`; `none` when one is missing. -/
def continuationBytes (buf : List UInt8) : ℕ → ℕ → ℕ → Option ℕ × ℕ
  | 0, cp, pos => (some cp, pos)
  | expect + 1, cp, pos =>
    match buf[pos]? with
    | none => (none, pos)
    | some c =>
      if c &&& 0xC0 ≠ 0x80 then (none, pos)
      else continuationBytes buf expect (cp <<< 6 ||| (c &&& 0x3F).toNat) (pos + 1)

/-- The checks at the end of `vm_utf8_decode`: overlong encodings, surrogates and the range. -/
def checkedCodePoint (expect cp : ℕ) : ℤ :=
  if expect = 1 ∧ cp < 0x80 then vmUnicodeReplacement
  else if expect = 2 ∧ cp < 0x800 then vmUnicodeReplacement
  else if expect = 3 ∧ cp < 0x10000 then vmUnicodeReplacement
  else if 0xD800 ≤ cp ∧ cp ≤ 0xDFFF then vmUnicodeReplacement
  else if 0x10FFFF < cp then vmUnicodeReplacement
  else cp

/-- The rest of `vm_utf8_decode` after a lead byte. -/
def decodeTail (buf : List UInt8) (expect cp pos : ℕ) : ℤ × ℕ :=
  match continuationBytes buf expect cp pos with
  | (none, pos') => (vmUnicodeReplacement, pos')
  | (some cp', pos') => (checkedCodePoint expect cp', pos')

/-- `vm_utf8_decode`: the code point, `-1` at the end of the buffer, and the position after it. -/
def vmUtf8Decode (buf : List UInt8) (pos : ℕ) : ℤ × ℕ :=
  match buf[pos]? with
  | none => (-1, pos)
  | some b0 =>
    if b0 < 0x80 then (b0.toNat, pos + 1)
    else if b0 &&& 0xE0 = 0xC0 then
      if (b0 &&& 0x1F).toNat < 2 then (vmUnicodeReplacement, pos + 1)
      else decodeTail buf 1 (b0 &&& 0x1F).toNat (pos + 1)
    else if b0 &&& 0xF0 = 0xE0 then decodeTail buf 2 (b0 &&& 0x0F).toNat (pos + 1)
    else if b0 &&& 0xF8 = 0xF0 then decodeTail buf 3 (b0 &&& 0x07).toNat (pos + 1)
    else (vmUnicodeReplacement, pos + 1)

/-- `vm_utf8_encode`: the bytes written. -/
def vmUtf8Encode (cp : ℤ) : List UInt8 :=
  let n := cp.toNat
  if cp < 0 ∨ (0xD800 ≤ cp ∧ cp ≤ 0xDFFF) ∨ 0x10FFFF < cp then [0xEF, 0xBF, 0xBD]
  else if cp < 0x80 then [UInt8.ofNat n]
  else if cp < 0x800 then [UInt8.ofNat (0xC0 ||| n >>> 6), UInt8.ofNat (0x80 ||| (n &&& 0x3F))]
  else if cp < 0x10000 then
    [UInt8.ofNat (0xE0 ||| n >>> 12), UInt8.ofNat (0x80 ||| (n >>> 6 &&& 0x3F)),
      UInt8.ofNat (0x80 ||| (n &&& 0x3F))]
  else
    [UInt8.ofNat (0xF0 ||| n >>> 18), UInt8.ofNat (0x80 ||| (n >>> 12 &&& 0x3F)),
      UInt8.ofNat (0x80 ||| (n >>> 6 &&& 0x3F)), UInt8.ofNat (0x80 ||| (n &&& 0x3F))]

lemma le_continuationBytes (buf : List UInt8) (expect cp pos : ℕ) :
    pos ≤ (continuationBytes buf expect cp pos).2 := by
  induction expect generalizing cp pos with
  | zero => exact le_refl pos
  | succ expect ih =>
    unfold continuationBytes
    split
    · exact le_refl pos
    · split
      · exact le_refl pos
      · exact (Nat.le_succ pos).trans (ih _ (pos + 1))

lemma le_decodeTail (buf : List UInt8) (expect cp pos : ℕ) : pos ≤ (decodeTail buf expect cp pos).2 := by
  have hle := le_continuationBytes buf expect cp pos
  unfold decodeTail
  split <;> rename_i heq <;> rwa [heq] at hle

/-- Decoding moves on inside the buffer. -/
lemma lt_vmUtf8Decode {buf : List UInt8} {pos : ℕ} (hpos : pos < buf.length) :
    pos < (vmUtf8Decode buf pos).2 := by
  unfold vmUtf8Decode
  rw [List.getElem?_eq_getElem hpos]
  dsimp only
  split_ifs
  all_goals first
    | exact Nat.lt_succ_self pos
    | exact le_decodeTail buf _ _ (pos + 1)

/-- The loop of `vm_utf8_char_count`. -/
def countFrom (buf : List UInt8) (pos count : ℕ) : ℕ :=
  if h : pos < buf.length then
    have := lt_vmUtf8Decode h
    countFrom buf (vmUtf8Decode buf pos).2 (count + 1)
  else count
termination_by buf.length - pos

/-- `vm_utf8_char_count`. -/
def vmUtf8CharCount (buf : List UInt8) : ℕ := countFrom buf 0 0

/-- `n` rounds of the loop of `vm_utf8_byte_offset`; `none` is `-1`. -/
def skipChars (buf : List UInt8) : ℕ → ℕ → Option ℕ
  | 0, pos => some pos
  | n + 1, pos => if buf.length ≤ pos then none else skipChars buf n (vmUtf8Decode buf pos).2

/-- `vm_utf8_byte_offset`. -/
def vmUtf8ByteOffset (buf : List UInt8) (idx : ℤ) : Option ℕ := skipChars buf idx.toNat 0

/-- `vm_string_new`. -/
def vmStringNew (data : List UInt8) : VmString := ⟨data, vmUtf8CharCount data⟩

/-- `vm_string_length`. -/
def vmStringLength (s : VmString) : ℕ := s.charLen

/-- `vm_string_ref`. -/
def vmStringRef (s : VmString) (idx : ℤ) : ℤ :=
  if idx < 0 ∨ s.charLen ≤ idx then -1
  else
    match vmUtf8ByteOffset s.data idx with
    | none => -1
    | some pos => if s.data.length ≤ pos then -1 else (vmUtf8Decode s.data pos).1

/-- `vm_string_set`; `none` is `NULL`. -/
def vmStringSet (s : VmString) (idx cp : ℤ) : Option VmString :=
  if idx < 0 ∨ s.charLen ≤ idx then none
  else
    match vmUtf8ByteOffset s.data idx with
    | none => none
    | some startByte =>
      let endByte := (vmUtf8Decode s.data startByte).2
      some ⟨s.data.take startByte ++ vmUtf8Encode cp ++ s.data.drop endByte, s.charLen⟩

/-- `vm_string_substring`. -/
def vmStringSubstring (s : VmString) (start stop : ℤ) : VmString :=
  let start := if start < 0 then 0 else start
  let stop := if s.charLen < stop then (s.charLen : ℤ) else stop
  if stop ≤ start then vmStringNew []
  else
    let startByte := (vmUtf8ByteOffset s.data start).getD 0
    let endByte := (vmUtf8ByteOffset s.data stop).getD s.data.length
    vmStringNew ((s.data.drop startByte).take (endByte - startByte))

/-- `vm_string_append`; `none` is `NULL`. -/
def vmStringAppend : Option VmString → Option VmString → VmString
  | none, none => vmStringNew []
  | none, some b => vmStringNew b.data
  | some a, none => vmStringNew a.data
  | some a, some b => ⟨a.data ++ b.data, a.charLen + b.charLen⟩

/-- The loop of `vm_string_contains` from byte `i`, with `fuel` offsets left. -/
def searchFrom (s substr : VmString) : ℕ → ℕ → ℤ
  | 0, _ => -1
  | fuel + 1, i =>
    if (s.data.drop i).take substr.data.length = substr.data then vmUtf8CharCount (s.data.take i)
    else searchFrom s substr fuel (i + 1)

/-- `vm_string_contains`. -/
def vmStringContains (s substr : VmString) : ℤ :=
  if substr.data.length = 0 then 0
  else if s.data.length < substr.data.length then -1
  else searchFrom s substr (s.data.length - substr.data.length + 1) 0

/-- The loop of `vm_string_lt`. -/
def ltFrom (a b : VmString) (pa pb : ℕ) : Bool :=
  if h : pa < a.data.length ∧ pb < b.data.length then
    have := lt_vmUtf8Decode h.1
    let ca := (vmUtf8Decode a.data pa).1
    let cb := (vmUtf8Decode b.data pb).1
    if ca < cb then true
    else if cb < ca then false
    else ltFrom a b (vmUtf8Decode a.data pa).2 (vmUtf8Decode b.data pb).2
  else a.data.length ≤ pa ∧ pb < b.data.length
termination_by a.data.length - pa

/-- `vm_string_lt`. -/
def vmStringLt (a b : VmString) : Bool := ltFrom a b 0 0

/-- `vm_string_copy`. -/
def vmStringCopy (s : VmString) : VmString := vmStringNew s.data

/-- The loop of `vm_string_to_list`: `n` code points from a position. -/
def decodeFrom (buf : List UInt8) : ℕ → ℕ → List ℤ
  | 0, _ => []
  | n + 1, pos => (vmUtf8Decode buf pos).1 :: decodeFrom buf n (vmUtf8Decode buf pos).2

/-- `vm_string_to_list`; the array of length 0 is `NULL`. -/
def vmStringToList (s : VmString) : List ℤ := decodeFrom s.data s.charLen 0

/-- `vm_string_from_list`. -/
def vmStringFromList (cps : List ℤ) : VmString :=
  if cps.length = 0 then vmStringNew [] else ⟨cps.flatMap vmUtf8Encode, cps.length⟩

/-- One round of the loop of `vm_string_reverse` over an array of `cps.length` code points. -/
def swapEnds (cps : List ℤ) (i : ℕ) : List ℤ :=
  (cps.set i (cps.getD (cps.length - 1 - i) 0)).set (cps.length - 1 - i) (cps.getD i 0)

/-- `vm_string_reverse`. -/
def vmStringReverse (s : VmString) : VmString :=
  if s.charLen ≤ 1 then vmStringCopy s
  else
    let cps := vmStringToList s
    vmStringFromList ((List.range (cps.length / 2)).foldl swapEnds cps)

/-- The loop of `vm_string_split`, with the segments after `segStart`. -/
def splitFrom (buf : List UInt8) (delimCp : ℤ) (segStart pos : ℕ) : List VmString :=
  if h : pos < buf.length then
    have := lt_vmUtf8Decode h
    let next := (vmUtf8Decode buf pos).2
    if (vmUtf8Decode buf pos).1 = delimCp then
      vmStringNew ((buf.drop segStart).take (pos - segStart)) :: splitFrom buf delimCp next next
    else splitFrom buf delimCp segStart next
  else [vmStringNew (buf.drop segStart)]
termination_by buf.length - pos

/-- `vm_string_split`. -/
def vmStringSplit (s : VmString) (delimCp : ℤ) : List VmString :=
  if s.data.length = 0 then [] else splitFrom s.data delimCp 0 0

/-- One copy of `vm_string_join` to the end of the result; `none` is `NULL`. -/
def joined (result : VmString) : Option VmString → VmString
  | none => result
  | some part => ⟨result.data ++ part.data, result.charLen + part.charLen⟩

/-- The loop of `vm_string_join` after the first part. -/
def joinRest (sep : Option VmString) : List (Option VmString) → VmString → VmString
  | [], result => result
  | part :: parts, result =>
    joinRest sep parts (joined (joined result sep) part)

/-- `vm_string_join`; `none` is `NULL`. -/
def vmStringJoin (parts : List (Option VmString)) (sep : Option VmString) : Option VmString :=
  match parts with
  | [] => some (vmStringNew [])
  | [part] => part.map vmStringCopy
  | part :: parts => some (joinRest sep parts (joined ⟨[], 0⟩ part))

/-! ## The inlined operations -/

/-- The number that the opcode `STR_LEN` leaves for a string. -/
def strLen (s : VmString) : ℕ := s.data.length

/-- The code of the character that the opcode `STR_REF` leaves for a string and an index. -/
def strRef (s : VmString) (i : ℤ) : ℤ :=
  if 0 ≤ i ∧ i < s.data.length then ((s.data.getD i.toNat 0).toNat : ℤ) else 0

/-- The code that native call 551 leaves for `vm_string_ref`. -/
def nativeStringRef (s : VmString) (i : ℤ) : ℤ :=
  let cp := vmStringRef s i
  if 0 ≤ cp then cp else 0

end Vm.Strings
