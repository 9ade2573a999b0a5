import Eshkol.Base.ByteCodec
import Eshkol.Base.ErrorState
import Mathlib.Data.List.Basic

/-!
# The ESKB container format

`eskb_format.h`: section ids, constant types, LEB128, CRC-32, and the bounds-checked reader
every section is parsed with. `size_t` and `uint64_t` values are naturals; wherever the code's
arithmetic can wrap, the wrap is written out.

A reader is a window `[base, base + len)` of the file's bytes. Loading a byte outside the
window is undefined behaviour in the source; here it is the separate exit `outOfBounds`, so
that "no read leaves its section" is the statement that this exit is never taken.
-/

namespace Eskb

open ByteCodec

/-! ## Constants of the format -/

/-- `ESKB_MAGIC`, the text `ESKB`. -/
def eskbMagic : ℕ := 0x45534B42

/-- `ESKB_VERSION`. -/
def eskbVersion : ℕ := 1

/-- `ESKB_SECTION_CONST`. -/
def sectionConst : UInt8 := 0

/-- `ESKB_SECTION_CODE`. -/
def sectionCode : UInt8 := 1

/-- `ESKB_SECTION_META`. -/
def sectionMeta : UInt8 := 2

/-- `ESKB_CONST_NIL`. -/
def constNil : UInt8 := 0

/-- `ESKB_CONST_INT64`. -/
def constInt64 : UInt8 := 1

/-- `ESKB_CONST_F64`. -/
def constF64 : UInt8 := 2

/-- `ESKB_CONST_BOOL`. -/
def constBool : UInt8 := 3

/-- `ESKB_CONST_STRING`. -/
def constString : UInt8 := 6

/-- `ESKB_FLAG_LITTLE_ENDIAN`. -/
def flagLittleEndian : ℕ := 0x01

/-- `sizeof(EskbHeader)`. -/
def headerSize : ℕ := 16

/-- `ESHKOL_VM_MAX_CODE`, desktop profile. -/
def vmMaxCode : ℕ := 100000

/-- `INT_MAX`. -/
def intMax : ℕ := 2 ^ 31 - 1

/-- `UINT32_MAX`. -/
def uint32Max : ℕ := 2 ^ 32 - 1

/-- `SIZE_MAX`. -/
def sizeMax : ℕ := 2 ^ 64 - 1

/-- `(int)n` of a `size_t`. -/
def castInt (n : ℕ) : ℤ := (BitVec.ofNat 32 n).toInt

/-- An instruction: opcode byte and `int32_t` operand. -/
structure EskbInstr where
  op : UInt8
  operand : ℤ
deriving DecidableEq, Repr

/-- The range of `int32_t`. -/
def IsInt32 (x : ℤ) : Prop := -2 ^ 31 ≤ x ∧ x < 2 ^ 31

instance (x : ℤ) : Decidable (IsInt32 x) := inferInstanceAs (Decidable (_ ∧ _))

/-- The opcodes whose operand is a code address: `JUMP`, `JUMP_IF_FALSE`, `LOOP` and
`PUSH_HANDLER`. -/
def operandIsCodeTarget (op : UInt8) : Bool :=
  op == 28 || op == 29 || op == 30 || op == 57

/-! ## Variable-length numbers and the checksum -/

/-- The do-while loop of `eskb_write_leb128`; the buffer it fills has room for `fuel` bytes. -/
def writeLebGroups : ℕ → ℕ → List UInt8
  | 0, _ => []
  | fuel + 1, val =>
    let byte := val &&& 0x7F
    let val := val >>> 7
    if val ≠ 0 then UInt8.ofNat (byte ||| 0x80) :: writeLebGroups fuel val
    else [UInt8.ofNat byte]

/-- `eskb_write_leb128`, into a ten-byte buffer. -/
def eskbWriteLeb128 (val : ℕ) : List UInt8 := writeLebGroups 10 val

/-- One bit of the CRC loop. -/
def crcBit (crc : UInt32) : UInt32 :=
  (crc >>> 1) ^^^ (0xEDB88320 &&& (0 - (crc &&& 1)))

/-- One byte of the checksum. -/
def crcByte (crc : UInt32) (b : UInt8) : UInt32 :=
  Nat.repeat crcBit 8 (crc ^^^ b.toUInt32)

/-- `eskb_crc32`. -/
def eskbCrc32 (data : List UInt8) : UInt32 :=
  ~~~(data.foldl crcByte 0xFFFFFFFF)

/-- The zigzag image of an operand, as the writer computes it on 64-bit words. -/
def zigzag (operand : ℤ) : ℕ :=
  (((BitVec.ofInt 64 operand) <<< 1) ^^^ ((BitVec.ofInt 64 operand).sshiftRight 63)).toNat

/-! ## The heap of the C library -/

/-- `malloc`, `calloc` and `realloc`: which requests succeed. No request above `PTRDIFF_MAX`
is ever granted. -/
structure Allocator where
  grants : ℕ → Bool
  grants_le : ∀ n, grants n = true → n < 2 ^ 63

/-- An allocator that never runs out. -/
def Allocator.unlimited : Allocator where
  grants n := decide (n < 2 ^ 63)
  grants_le _ h := of_decide_eq_true h

/-! ## Loaded modules -/

/-- A function of a loaded module. `name` is the content of the heap string, terminator
excluded. -/
structure EskbFunction where
  name : List UInt8
  nParams : ℕ
  nLocals : ℕ
  nUpvalues : ℕ
  codeOffset : ℕ
  codeLen : ℕ
deriving DecidableEq, Repr

/-- One slot of the four parallel constant arrays: `int64_t` and `double` as bit patterns. -/
structure LoadedConst where
  ctype : UInt8
  cint : BitVec 64
  cfloat : BitVec 64
  cstring : Option (List UInt8)
deriving DecidableEq, Repr

/-- `EskbModule`. An array is `none` while its pointer is NULL. -/
structure EskbModule where
  code : List EskbInstr
  codeLen : ℕ
  constants : Option (List LoadedConst)
  functions : Option (List EskbFunction)
  sourceFile : List UInt8
  hasDebug : Bool
deriving DecidableEq, Repr

/-- The module after `memset(mod, 0, sizeof(*mod))`. -/
def EskbModule.zero : EskbModule where
  code := []
  codeLen := 0
  constants := none
  functions := none
  sourceFile := []
  hasDebug := false

/-- `eskb_module_free`: every array is released, then the structure is zeroed. -/
def eskbModuleFree (_ : EskbModule) : EskbModule := EskbModule.zero

/-- A NUL-terminated string, as its bytes. -/
abbrev CStr := { s : List UInt8 // (0 : UInt8) ∉ s }

/-- The C string a heap buffer holds: its bytes up to the first NUL. -/
def cString (s : List UInt8) : List UInt8 := s.takeWhile (· ≠ 0)

/-! ## The reader -/

/-- The reader: a window of the bytes in memory, and a position in it. -/
structure EskbReader where
  mem : List UInt8
  base : ℕ
  len : ℕ
  pos : ℕ

/-- The bytes of the window that are still to be read. -/
def EskbReader.rest (r : EskbReader) : List UInt8 := ((r.mem.drop r.base).take r.len).drop r.pos

/-- The window lies inside the file and the position inside the window. -/
structure EskbReader.Valid (r : EskbReader) : Prop where
  base_le : r.base + r.len ≤ r.mem.length
  pos_le : r.pos ≤ r.len

/-- The byte at index `i` of the window. -/
def EskbReader.load (r : EskbReader) (i : ℕ) : Option UInt8 :=
  if i < r.len then r.mem[r.base + i]? else none

/-- The `n` bytes from index `i` of the window. -/
def EskbReader.slice (r : EskbReader) (i n : ℕ) : Option (List UInt8) :=
  if i + n ≤ r.len ∧ r.base + i + n ≤ r.mem.length then some ((r.mem.drop (r.base + i)).take n)
  else none

/-- How a load ends early. -/
inductive LoadError where
  /-- the loader returns -1 -/
  | reject
  /-- a byte outside the section was read -/
  | outOfBounds
deriving DecidableEq, Repr

/-- How far the parser got in a section: its descriptor and the reader's final position. -/
structure SectionTrace where
  id : UInt8
  offset : ℕ
  size : ℕ
  consumed : ℕ
deriving DecidableEq, Repr

/-- The reader in use, the module being filled, and the sections already visited (the last
is a ghost: the source keeps no such record). -/
structure LoadState where
  r : EskbReader
  mod : EskbModule
  visited : List SectionTrace

/-- Steps of the loader. -/
abbrev LoadM := EStateM LoadError LoadState

/-- The position moves on. -/
def LoadState.advance (s : LoadState) (n : ℕ) : LoadState :=
  { s with r := { s.r with pos := s.r.pos + n } }

/-- `reader->data[i]`. -/
def loadByte (i : ℕ) : LoadM UInt8 := do
  let s ← get
  match s.r.load i with
  | some b => pure b
  | none => throw .outOfBounds

/-- `eskb_read_u8`. -/
def eskbReadU8 : LoadM UInt8 := do
  let s ← get
  if s.r.pos ≥ s.r.len then throw .reject
  else do
    let b ← loadByte s.r.pos
    modify (·.advance 1)
    pure b

/-- `eskb_read_bytes`; the sum `pos + n` is a `size_t`. -/
def eskbReadBytes (n : ℕ) : LoadM (List UInt8) := do
  let s ← get
  if (s.r.pos + n) % 2 ^ 64 > s.r.len then throw .reject
  else
    match s.r.slice s.r.pos n with
    | some bs => do
      modify (·.advance n)
      pure bs
    | none => throw .outOfBounds

/-- The loop of `eskb_read_leb128` on the buffer that starts at index `start` and has
`bufLen` bytes: the value so far and the number of bytes read. -/
def readLebGroups (start bufLen : ℕ) : ℕ → ℕ → ℕ → LoadM (ℕ × ℕ)
  | 0, _, _ => throw .reject
  | fuel + 1, n, out =>
    if (n : ℤ) < castInt bufLen then do
      let byte ← loadByte (start + n)
      let out := (out ||| ((byte.toNat &&& 0x7F) <<< (7 * n))) % 2 ^ 64
      if byte.toNat &&& 0x80 = 0 then pure (out, n + 1)
      else readLebGroups start bufLen fuel (n + 1) out
    else throw .reject

/-- `eskb_read_leb`. -/
def eskbReadLeb : LoadM ℕ := do
  let s ← get
  if s.r.pos ≥ s.r.len then throw .reject
  else do
    let p ← readLebGroups s.r.pos (s.r.len - s.r.pos) 10 0 0
    modify (·.advance p.2)
    pure p.1

/-- `eskb_read_i64` and `eskb_read_f64`: eight bytes, copied. -/
def eskbReadWord64 : LoadM (BitVec 64) := do
  let bs ← eskbReadBytes 8
  pure (BitVec.ofNat 64 (ofLE bs))

/-- `eskb_read_string` into a caller buffer of `maxLen` bytes. -/
def eskbReadString (maxLen : ℕ) : LoadM (List UInt8) := do
  let slen ← eskbReadLeb
  if slen > maxLen - 1 then throw .reject
  else eskbReadBytes slen

end Eskb

/-!
## The ESKB writer

`eskb_writer.c`: a constant pool, a list of functions and an optional source file name are
serialised into sections, the sections into a payload, the payload behind a header. The
result is the byte string handed to `fwrite`; `none` is the return value -1.
-/

namespace Eskb

open ByteCodec

/-- `EskbConst`. The union is eight bytes; the string buffer holds at most 256. -/
structure EskbConst where
  ctype : UInt8
  as : BitVec 64
  str : List UInt8
  str_le : str.length ≤ 256
deriving DecidableEq, Repr

/-- `constants[i].as.b`: the `int` in the low half of the union. -/
def EskbConst.b (c : EskbConst) : BitVec 32 := c.as.truncate 32

/-- `EskbFunctionDef`. -/
structure EskbFunctionDef where
  name : CStr
  nParams : UInt8
  nLocals : UInt32
  nUpvalues : UInt8
  code : List EskbInstr
  codeBase : ℤ
  code_int32 : ∀ i ∈ code, IsInt32 i.operand

/-! ## Sections -/

/-- `eskb_buf_write_string`. -/
def eskbBufWriteString (s : List UInt8) : List UInt8 := eskbWriteLeb128 s.length ++ s

/-- Eight bytes, the lowest first. -/
def eskbBufWriteWord64 (w : BitVec 64) : List UInt8 := toLE 8 w.toNat

/-- One entry of the CONST section. -/
def eskbWriteConst (c : EskbConst) : List UInt8 :=
  c.ctype ::
    if c.ctype = constNil then []
    else if c.ctype = constInt64 then eskbBufWriteWord64 c.as
    else if c.ctype = constF64 then eskbBufWriteWord64 c.as
    else if c.ctype = constBool then [if c.b ≠ 0 then 1 else 0]
    else if c.ctype = constString then eskbBufWriteString c.str
    else eskbBufWriteWord64 c.as

/-- The section of the constants. -/
def constSection (constants : List EskbConst) : List UInt8 :=
  eskbWriteLeb128 constants.length ++ constants.flatMap eskbWriteConst

/-- An opcode and its operand. -/
def eskbWriteInstruction (i : EskbInstr) : List UInt8 :=
  i.op :: eskbWriteLeb128 (zigzag i.operand)

/-- The instruction as it goes into the file: a code target is made relative to `code_base`. -/
def EskbFunctionDef.relocate (fn : EskbFunctionDef) (i : EskbInstr) : Option EskbInstr :=
  if fn.codeBase ≠ 0 ∧ operandIsCodeTarget i.op then
    if i.operand < fn.codeBase ∨ i.operand ≥ fn.codeBase + fn.code.length then none
    else some { i with operand := i.operand - fn.codeBase }
  else some i

/-- A function, unless it has no name, no code or too long a name. -/
def eskbWriteFunction (fn : EskbFunctionDef) : Option (List UInt8) :=
  if fn.name.1 = [] ∨ fn.code = [] then none
  else if fn.name.1.length > 255 then none
  else do
    let code ← fn.code.mapM fn.relocate
    some (eskbBufWriteString fn.name.1 ++ [fn.nParams] ++ eskbWriteLeb128 fn.nLocals.toNat
      ++ [fn.nUpvalues] ++ eskbWriteLeb128 fn.code.length ++ code.flatMap eskbWriteInstruction)

/-- The section of the functions. -/
def codeSection (functions : List EskbFunctionDef) : Option (List UInt8) := do
  let bodies ← functions.mapM eskbWriteFunction
  some (eskbWriteLeb128 functions.length ++ bodies.flatten)

/-- The section of the source file, if it is known. -/
def metaSection : Option CStr → List UInt8
  | none => []
  | some s => eskbBufWriteString s.1

/-! ## The file -/

/-- A section descriptor. -/
def sectionDesc (id : UInt8) (size : ℕ) : List UInt8 := id :: eskbWriteLeb128 size

/-- The section table followed by the section data. -/
def payloadOf (consts code : List UInt8) (sourceFile : Option CStr) : List UInt8 :=
  eskbWriteLeb128 (if sourceFile.isSome then 3 else 2)
    ++ sectionDesc sectionConst consts.length
    ++ sectionDesc sectionCode code.length
    ++ (if sourceFile.isSome then sectionDesc sectionMeta (metaSection sourceFile).length else [])
    ++ consts ++ code ++ metaSection sourceFile

/-- The header, with the checksum of the payload. -/
def headerOf (payload : List UInt8) : List UInt8 :=
  toLE 4 eskbMagic ++ toLE 4 eskbVersion ++ toLE 4 flagLittleEndian
    ++ toLE 4 (eskbCrc32 payload).toNat

/-- `eskb_write_file_with_functions`: the bytes of the file it writes when it returns 0. -/
def eskbWriteFileWithFunctions (constants : List EskbConst) (functions : List EskbFunctionDef)
    (sourceFile : Option CStr) : Option (List UInt8) :=
  if functions = [] then none
  else do
    let code ← codeSection functions
    let payload := payloadOf (constSection constants) code sourceFile
    some (headerOf payload ++ payload)

end Eskb
