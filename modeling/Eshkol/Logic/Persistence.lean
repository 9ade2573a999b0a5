import Eshkol.Base.ByteCodec
import Eshkol.Exact.NumberText
import Eshkol.Logic.KnowledgeBase

/-!
# Saving and loading a knowledge base

A file holds the facts one after the other: the name of the predicate, the arity and the arguments.
Immediate values are written as they are, strings and symbols with their lengths, bignums as decimal
texts. The reader guards itself against lengths that no file should have.
-/

namespace Logic

open ByteCodec Hash

/-! ## Values -/

/-- The types that are written with their 8 bytes of data. -/
inductive ImmediateType where
  | null | int64 | double | bool | char | logicVar
deriving DecidableEq

/-- The `ESHKOL_VALUE_…` of the type. -/
def ImmediateType.code : ImmediateType → UInt8
  | .null => 0
  | .int64 => 1
  | .double => 2
  | .bool => 3
  | .char => 4
  | .logicVar => 10

def ImmediateType.ofCode (code : UInt8) : Option ImmediateType :=
  [.null, .int64, .double, .bool, .char, .logicVar].find? (·.code == code)

/-- `ESHKOL_VALUE_HEAP_PTR`. -/
def valueHeapPtr : UInt8 := 8

def heapSubtypeString : UInt8 := 1

def heapSubtypeSymbol : UInt8 := 10

def heapSubtypeBignum : UInt8 := 11

/-- What a heap pointer leads to. The bytes are those of the buffer, without the zero at its end. -/
inductive HeapObject where
  | string (bytes : List UInt8)
  | symbol (bytes : List UInt8)
  | bignum (n : Bignum)
  | other (subtype : UInt8) (h : subtype ∉ [heapSubtypeString, heapSubtypeSymbol, heapSubtypeBignum])
deriving DecidableEq

/-- An argument of a fact. -/
inductive Arg where
  | immediate (type : ImmediateType) (flags : UInt8) (bits : BitVec 64)
  | heap (flags : UInt8) (object : Option HeapObject)
  | other (type flags : UInt8) (bits : BitVec 64)
    (h : ImmediateType.ofCode type = none ∧ type ≠ valueHeapPtr)
deriving DecidableEq

/-- A fact of the knowledge base. A predicate is a text up to its terminating zero, or not set. -/
structure SavedFact where
  predicate : Option { name : Name // (0 : UInt8) ∉ name }
  args : List Arg
  arity_lt : args.length < 1 <<< 32

/-- `eshkol_knowledge_base_t`. -/
structure SavedKb where
  facts : List SavedFact
  numFacts_lt : facts.length < 1 <<< 32

/-! ## Writing -/

def writeU32 (n : ℕ) : List UInt8 := toLE 4 n

def writeU64 (bits : BitVec 64) : List UInt8 := toLE 8 bits.toNat

/-- `eshkol_bignum_to_string`. Without an arena its first allocation fails. -/
def bignumToString (arena : Bool) (a : Bignum) : Option (List UInt8) :=
  if !arena then none
  else if a.isZero then some ['0'.toUInt8]
  else
    let digits := decimalDigits (a.limbs.length * 20 + 1) ⟨false, a.limbs⟩
    some (digits ++ if a.negative then ['-'.toUInt8] else []).reverse
where
  /-- The digits, the last one first. A limb has at most 20 of them. -/
  decimalDigits : ℕ → Bignum → List UInt8
    | 0, _ => []
    | room + 1, temp =>
      if temp.isZero then []
      else
        let (next, rem) := Exact.bignumDivLimb temp 10
        ('0'.toUInt8 + rem.toUInt8) :: decimalDigits room next

/-- The bytes of a buffer up to its first zero. -/
def cString (bytes : List UInt8) : List UInt8 := bytes.takeWhile (· ≠ 0)

/-- A string or symbol: its length, found by `strlen`, and its bytes. -/
def writeText (bytes : List UInt8) : Option (List UInt8) :=
  if (cString bytes).length > 0x7FFFFFFF then none
  else some (writeU32 (cString bytes).length ++ cString bytes)

/-- The subtype and the content of a heap object. -/
def writeObject : HeapObject → Option (List UInt8)
  | .string bytes => (writeText bytes).map (heapSubtypeString :: ·)
  | .symbol bytes => (writeText bytes).map (heapSubtypeSymbol :: ·)
  | .bignum n => (bignumToString false n).map fun str =>
    heapSubtypeBignum :: writeU32 str.length ++ str
  | .other _ _ => none

/-- `write_arg`. -/
def writeArg : Arg → Option (List UInt8)
  | .immediate type flags bits => some (type.code :: flags :: writeU64 bits)
  | .heap flags none => some (valueHeapPtr :: flags :: 0xFF :: writeU32 0)
  | .heap flags (some object) => (writeObject object).map (valueHeapPtr :: flags :: ·)
  | .other _ _ _ _ => none

/-- The arguments one after the other, until one fails. -/
def writeArgs : List Arg → Option (List UInt8)
  | [] => some []
  | arg :: args => (writeArg arg).bind fun bytes => (writeArgs args).map (bytes ++ ·)

/-- The text of a predicate that is not set is empty. -/
def SavedFact.predName (fact : SavedFact) : Name := fact.predicate.elim [] (·.1)

/-- The length of the name as a `uint32_t`, as many of its bytes, the arity and the arguments. -/
def writeFact (fact : SavedFact) : Option (List UInt8) :=
  let nameLen := fact.predName.length % 1 <<< 32
  (writeArgs fact.args).map fun args =>
    writeU32 nameLen ++ fact.predName.take nameLen ++ writeU32 fact.args.length ++ args

def writeFacts : List SavedFact → Option (List UInt8)
  | [] => some []
  | fact :: facts => (writeFact fact).bind fun bytes => (writeFacts facts).map (bytes ++ ·)

/-- `ESKB_MAGIC`. -/
def eskbMagic : ℕ := 0x45534B42

/-- `ESKB_VERSION`. -/
def eskbVersion : ℕ := 2

/-- `eshkol_kb_save_tagged`, to a file that can be written: the file where it reports `#t`. -/
def kbSave (kb : SavedKb) : Option (List UInt8) :=
  (writeFacts kb.facts).map fun facts =>
    writeU32 eskbMagic ++ writeU32 eskbVersion ++ writeU32 kb.facts.length ++ writeU32 0 ++ facts

/-! ## Reading -/

/-- A read takes bytes off the front of the file, or fails. -/
abbrev Read (α : Type) : Type := List UInt8 → Option (α × List UInt8)

def readBytes (n : ℕ) : Read (List UInt8) := fun file =>
  if file.length < n then none else some (file.take n, file.drop n)

def readU8 : Read UInt8
  | [] => none
  | b :: file => some (b, file)

def readU32 : Read ℕ := fun file => (readBytes 4 file).map fun r => (ofLE r.1, r.2)

def readU64 : Read (BitVec 64) := fun file =>
  (readBytes 8 file).map fun r => (BitVec.ofNat 64 (ofLE r.1), r.2)

/-- The object of a subtype with that content. -/
def readObject (subtype : UInt8) (content : List UInt8) : Option HeapObject :=
  if subtype = heapSubtypeString then some (.string content)
  else if subtype = heapSubtypeSymbol then some (.symbol content)
  else if subtype = heapSubtypeBignum then (Exact.bignumFromString content).map .bignum
  else none

/-- The cap on the length of a string, a symbol or the text of a bignum. -/
def maxContent : ℕ := 16 * 1024 * 1024

/-- What follows the type and the flags of a heap pointer. -/
def readHeap : Read (Option HeapObject) := fun file =>
  (readU8 file).bind fun (subtype, file) =>
  (readU32 file).bind fun (len, file) =>
    if subtype = 0xFF then some (none, file)
    else if len > maxContent then none
    else (readBytes len file).bind fun (content, file) =>
      (readObject subtype content).map fun object => (some object, file)

/-- `read_arg`. -/
def readArg : Read Arg := fun file =>
  (readU8 file).bind fun (type, file) =>
  (readU8 file).bind fun (flags, file) =>
    match ImmediateType.ofCode type with
    | some type => (readU64 file).map fun (bits, file) => (.immediate type flags bits, file)
    | none =>
      if type = valueHeapPtr then (readHeap file).map fun (object, file) => (.heap flags object, file)
      else none

def readArgs : ℕ → Read (List Arg)
  | 0, file => some ([], file)
  | n + 1, file =>
    (readArg file).bind fun (arg, file) =>
    (readArgs n file).map fun (args, file) => (arg :: args, file)

/-- The predicate of a loaded fact: not set, an interned text, or the buffer of the reader, which is
gone when the reader returns. -/
inductive LoadedPredicate where
  | unset
  | text (name : Name)
  | nameBuf
deriving DecidableEq

structure LoadedFact where
  predicate : LoadedPredicate
  args : List Arg
deriving DecidableEq

/-- The predicate for a name that stands in the buffer of the reader. -/
def loadPredicate (table : PredTable) (name : Name) : LoadedPredicate × PredTable :=
  let interned := internPredicate (fun _ => name) table 0
  match interned.1 with
  | .pooled i => (.text (interned.2.names.getD i []), interned.2)
  | .object _ => (.nameBuf, interned.2)

/-- The loop of `eshkol_kb_load_tagged`. `none` where it gives up; a file that ends early keeps the
facts so far. -/
def readFacts : ℕ → PredTable → List LoadedFact → List UInt8 → Option (List LoadedFact × PredTable)
  | 0, table, kb, _ => some (kb, table)
  | n + 1, table, kb, file =>
    match readU32 file with
    | none => some (kb, table)
    | some (nameLen, file) =>
      if nameLen > 255 then none
      else
        match readBytes nameLen file with
        | none => some (kb, table)
        | some (name, file) =>
          match readU32 file with
          | none => some (kb, table)
          | some (arity, file) =>
            if arity > 4096 then none
            else
              let predicate := loadPredicate table (cString name)
              match readArgs arity file with
              | none => none
              | some (args, file) => readFacts n predicate.2 (kb ++ [⟨predicate.1, args⟩]) file

/-- `eshkol_kb_load_tagged`, of a file that can be read: the facts, or `none` for `()`. -/
def kbLoad (table : PredTable) (file : List UInt8) : Option (List LoadedFact × PredTable) :=
  (readU32 file).bind fun (magic, file) =>
    if magic ≠ eskbMagic then none
    else
      (readU32 file).bind fun (version, file) =>
      (readU32 file).bind fun (numFacts, file) =>
      (readU32 file).bind fun (_, file) =>
        if version ≠ eskbVersion then none else readFacts numFacts table [] file

end Logic
