import Eshkol.Vm.Strings

/-!
# The operations that make strings

The other operations that return a string, and for every call what it returns and how much of each block that it
allocates it writes.
-/

namespace Vm.Strings

/-- `vm_string_from_cstr`; the bytes stand before the first NUL. -/
def vmStringFromCstr (cstr : Option (List UInt8)) : VmString :=
  vmStringNew ((cstr.map fun bytes => bytes.takeWhile (· ≠ 0)).getD [])

/-- The loop of `vm_string_upcase` and `vm_string_downcase`. -/
def recodeFrom (recase : ℤ → ℤ) (buf : List UInt8) (pos : ℕ) (out : List UInt8) : List UInt8 :=
  if h : pos < buf.length then
    have := lt_vmUtf8Decode h
    recodeFrom recase buf (vmUtf8Decode buf pos).2 (out ++ vmUtf8Encode (recase (vmUtf8Decode buf pos).1))
  else out
termination_by buf.length - pos

/-- The code point that `vm_string_upcase` writes. -/
def upcaseCode (cp : ℤ) : ℤ := if 97 ≤ cp ∧ cp ≤ 122 then cp - 32 else cp

/-- The code point that `vm_string_downcase` writes. -/
def downcaseCode (cp : ℤ) : ℤ := if 65 ≤ cp ∧ cp ≤ 90 then cp + 32 else cp

/-- The string of `vm_string_upcase` and `vm_string_downcase`. -/
def recoded (recase : ℤ → ℤ) (s : VmString) : VmString := ⟨recodeFrom recase s.data 0 [], s.charLen⟩

/-- `vm_string_upcase`. -/
def vmStringUpcase (s : VmString) : VmString := recoded upcaseCode s

/-- `vm_string_downcase`. -/
def vmStringDowncase (s : VmString) : VmString := recoded downcaseCode s

/-- `vm_string_make`. -/
def vmStringMake (n cp : ℤ) : VmString :=
  if n ≤ 0 then vmStringNew [] else ⟨(List.replicate n.toNat (vmUtf8Encode cp)).flatten, n.toNat⟩

/-- The white space of `vm_string_trim`. -/
def isTrimmed (cp : ℤ) : Bool := cp = 32 ∨ cp = 9 ∨ cp = 10 ∨ cp = 13

/-- The code points that `vm_string_trim` keeps. -/
def trimmed (cps : List ℤ) : List ℤ := ((cps.dropWhile isTrimmed).reverse.dropWhile isTrimmed).reverse

/-- `vm_string_trim`; a missing string is trimmed to the empty one. -/
def vmStringTrim : Option VmString → VmString
  | none => vmStringNew []
  | some s => if s.data.length = 0 then vmStringNew [] else vmStringFromList (trimmed (vmStringToList s))

/-- The first byte where `vm_string_replace` finds the bytes, from byte `i` with `fuel` offsets left. -/
def findBytes (data sub : List UInt8) : ℕ → ℕ → Option ℕ
  | 0, _ => none
  | fuel + 1, i => if (data.drop i).take sub.length = sub then some i else findBytes data sub fuel (i + 1)

/-- `vm_string_replace` for a string; a missing string to put in is the empty one. -/
def vmStringReplace (s : VmString) (old new : Option VmString) : VmString :=
  let oldData := (old.map VmString.data).getD []
  let newData := (new.map VmString.data).getD []
  if oldData.length = 0 then vmStringCopy s
  else
    match findBytes s.data oldData (s.data.length + 1 - oldData.length) 0 with
    | none => vmStringCopy s
    | some i => vmStringNew (s.data.take i ++ newData ++ s.data.drop (i + oldData.length))

/-- `vm_integer_to_char`. -/
def vmIntegerToChar (cp : ℤ) : VmString := vmStringNew (vmUtf8Encode cp)

/-- The bytes that `vm_bv_utf8_to_string` takes. -/
def byteRange (bv : List UInt8) (start stop : ℤ) : List UInt8 :=
  let start := if start < 0 then 0 else start
  let stop := if stop < 0 ∨ bv.length < stop then (bv.length : ℤ) else stop
  let start := if stop < start then stop else start
  (bv.drop start.toNat).take (stop - start).toNat

/-- `vm_bv_utf8_to_string`: its length counts the bytes that continue no character. -/
def vmBvUtf8ToString (bv : List UInt8) (start stop : ℤ) : VmString :=
  ⟨byteRange bv start stop, (byteRange bv start stop).countP fun b => b &&& 0xC0 ≠ 0x80⟩

/-! ## Calls -/

/-- A call of an operation that returns strings; `none` is `NULL`. Where the operation returns `NULL` for a missing
string, the string is there. -/
inductive StringCall where
  | new (data : List UInt8)
  | fromCstr (cstr : Option (List UInt8))
  | set (s : VmString) (idx cp : ℤ)
  | substring (s : VmString) (start stop : ℤ)
  | append (a b : Option VmString)
  | upcase (s : VmString)
  | downcase (s : VmString)
  | copy (s : VmString)
  | fromList (cps : List ℤ)
  | make (n cp : ℤ)
  | reverse (s : VmString)
  | trim (s : Option VmString)
  | split (s : VmString) (delimCp : ℤ)
  | join (parts : List (Option VmString)) (sep : Option VmString)
  | replace (s : VmString) (old new : Option VmString)
  | integerToChar (cp : ℤ)
  | utf8ToString (bv : List UInt8) (start stop : ℤ)

namespace StringCall

/-- The strings that a call is given. -/
def args : StringCall → List VmString
  | set s _ _ | substring s _ _ | upcase s | downcase s | copy s | reverse s | split s _ => [s]
  | append a b => a.toList ++ b.toList
  | trim s => s.toList
  | join parts sep => parts.filterMap id ++ sep.toList
  | replace s old repl => s :: (old.toList ++ repl.toList)
  | new _ | fromCstr _ | fromList _ | make _ _ | integerToChar _ | utf8ToString _ _ _ => []

/-- The strings that it returns. -/
def results : StringCall → List VmString
  | new data => [vmStringNew data]
  | fromCstr cstr => [vmStringFromCstr cstr]
  | set s idx cp => (vmStringSet s idx cp).toList
  | substring s start stop => [vmStringSubstring s start stop]
  | append a b => [vmStringAppend a b]
  | upcase s => [vmStringUpcase s]
  | downcase s => [vmStringDowncase s]
  | copy s => [vmStringCopy s]
  | fromList cps => [vmStringFromList cps]
  | make n cp => [vmStringMake n cp]
  | reverse s => [vmStringReverse s]
  | trim s => [vmStringTrim s]
  | split s delimCp => vmStringSplit s delimCp
  | join parts sep => (vmStringJoin parts sep).toList
  | replace s old repl => [vmStringReplace s old repl]
  | integerToChar cp => [vmIntegerToChar cp]
  | utf8ToString bv start stop => [vmBvUtf8ToString bv start stop]

end StringCall

/-- An allocated block: its size, and how much of it is written. -/
structure Block where
  size : ℕ
  written : ℕ

/-- The blocks of a string of which `written` bytes and the NUL are copied into a block for `size` bytes and one. -/
def dataBlock (size written : ℕ) : List Block := [⟨size + 1, written + 1⟩]

/-- The block of `vm_string_new` and `vm_string_copy`. -/
def newBlocks (data : List UInt8) : List Block := dataBlock data.length data.length

/-- The blocks of `vm_string_from_list`: the size is counted in a first pass. -/
def fromListBlocks (cps : List ℤ) : List Block :=
  if cps.length = 0 then newBlocks []
  else dataBlock (cps.map fun cp => (vmUtf8Encode cp).length).sum (cps.flatMap vmUtf8Encode).length

/-- The array of `vm_string_to_list`. -/
def toListBlocks (s : VmString) : List Block := if s.charLen = 0 then [] else [⟨s.charLen, (vmStringToList s).length⟩]

/-- The first pass of `vm_string_split`. -/
def countDelims (buf : List UInt8) (delimCp : ℤ) (pos segments : ℕ) : ℕ :=
  if h : pos < buf.length then
    have := lt_vmUtf8Decode h
    countDelims buf delimCp (vmUtf8Decode buf pos).2
      (if (vmUtf8Decode buf pos).1 = delimCp then segments + 1 else segments)
  else segments
termination_by buf.length - pos

/-- The size that `vm_string_join` computes before it copies. -/
def joinSize (parts : List (Option VmString)) (sep : Option VmString) : ℕ :=
  (parts.map fun part => (part.map fun part => part.data.length).getD 0).sum +
    (sep.map fun sep => sep.data.length).getD 0 * (parts.length - 1)

namespace StringCall

/-- The blocks that a call allocates for its result. -/
def blocks : StringCall → List Block
  | new data => newBlocks data
  | fromCstr cstr => newBlocks (vmStringFromCstr cstr).data
  | set s idx cp =>
    match vmStringSet s idx cp, vmUtf8ByteOffset s.data idx with
    | some _, some startByte =>
      let endByte := (vmUtf8Decode s.data startByte).2
      let encoded := (vmUtf8Encode cp).length
      dataBlock (s.data.length - (endByte - startByte) + encoded)
        (startByte + encoded + (s.data.length - endByte))
    | _, _ => []
  | substring s start stop => newBlocks (vmStringSubstring s start stop).data
  | append a b => dataBlock ((a.map fun a => a.data.length).getD 0 + (b.map fun b => b.data.length).getD 0)
      (vmStringAppend a b).data.length
  | upcase s => dataBlock s.data.length (vmStringUpcase s).data.length
  | downcase s => dataBlock s.data.length (vmStringDowncase s).data.length
  | copy s => newBlocks s.data
  | fromList cps => fromListBlocks cps
  | make n cp => dataBlock (n.toNat * (vmUtf8Encode cp).length) (vmStringMake n cp).data.length
  | reverse s =>
    if s.charLen ≤ 1 then newBlocks s.data
    else toListBlocks s ++ fromListBlocks ((List.range (s.charLen / 2)).foldl swapEnds (vmStringToList s))
  | trim none => newBlocks []
  | trim (some s) =>
    if s.data.length = 0 then newBlocks [] else toListBlocks s ++ fromListBlocks (trimmed (vmStringToList s))
  | split s delimCp =>
    if s.data.length = 0 then []
    else
      ⟨countDelims s.data delimCp 0 1, (vmStringSplit s delimCp).length⟩ ::
        (vmStringSplit s delimCp).flatMap fun part => newBlocks part.data
  | join parts sep =>
    match parts with
    | [] => newBlocks []
    | [part] => (part.map fun part => newBlocks part.data).getD []
    | parts => dataBlock (joinSize parts sep) (((vmStringJoin parts sep).map fun s => s.data.length).getD 0)
  | replace s old repl =>
    let oldLength := (old.map fun old => old.data.length).getD 0
    let newLength := (repl.map fun repl => repl.data.length).getD 0
    match findBytes s.data ((old.map VmString.data).getD []) (s.data.length + 1 - oldLength) 0 with
    | some i =>
      if oldLength = 0 then newBlocks s.data
      else dataBlock (i + newLength + (s.data.length - (i + oldLength))) (vmStringReplace s old repl).data.length
    | none => newBlocks s.data
  | integerToChar cp => newBlocks (vmUtf8Encode cp)
  | utf8ToString bv start stop => newBlocks (byteRange bv start stop)

end StringCall

/-- The number of characters of a string is counted right. -/
def VmString.WellFormed (s : VmString) : Prop := s.charLen = vmUtf8CharCount s.data

/-- No more of a block is written than was allocated. -/
def Block.Fits (block : Block) : Prop := block.written ≤ block.size

/-- A call returns well-formed strings and stays inside its blocks. -/
def StringCall.Ok (call : StringCall) : Prop :=
  (∀ s ∈ call.results, s.WellFormed) ∧ ∀ block ∈ call.blocks, block.Fits

end Vm.Strings
