import Eshkol.Eskb.Format

/-!
# The ESKB loader

`eskb_reader.c`: `eskb_load_memory` checks the header, then `eskb_parse_payload` reads the
section table and fills the module section by section. Every early return of the source is a
`throw .reject`; the partially filled module stays in the state, as it does in memory.
-/

namespace Eskb

open ByteCodec

/-! ## Strings, instructions, constants -/

/-- `eskb_read_string_alloc`. -/
def eskbReadStringAlloc (a : Allocator) : LoadM (List UInt8) := do
  let slen ← eskbReadLeb
  if slen > sizeMax - 1 then throw .reject
  else if a.grants (slen + 1) then eskbReadBytes slen
  else throw .reject

/-- An opcode and its operand. -/
def eskbReadInstruction : LoadM EskbInstr := do
  let op ← eskbReadU8
  let zz ← eskbReadLeb
  if zz > uint32Max then throw .reject
  else
    let half : ℤ := (zz >>> 1 : ℕ)
    let decoded : ℤ := if zz &&& 1 ≠ 0 then -half - 1 else half
    if decoded < -2 ^ 31 ∨ decoded > 2 ^ 31 - 1 then throw .reject
    else pure { op := op, operand := decoded }

/-- One round of the constant loop. -/
def readConst (a : Allocator) : LoadM LoadedConst := do
  let ctype ← eskbReadU8
  if ctype = constNil then pure { ctype, cint := 0, cfloat := 0, cstring := none }
  else if ctype = constInt64 then do
    let w ← eskbReadWord64
    pure { ctype, cint := w, cfloat := 0, cstring := none }
  else if ctype = constF64 then do
    let w ← eskbReadWord64
    pure { ctype, cint := 0, cfloat := w, cstring := none }
  else if ctype = constBool then do
    let bv ← eskbReadU8
    pure { ctype, cint := BitVec.ofNat 64 bv.toNat, cfloat := 0, cstring := none }
  else if ctype = constString then do
    let s ← eskbReadStringAlloc a
    pure { ctype, cint := BitVec.ofNat 64 s.length, cfloat := 0, cstring := some s }
  else do
    let w ← eskbReadWord64
    pure { ctype, cint := w, cfloat := 0, cstring := none }

/-- One more constant. -/
def LoadState.pushConst (s : LoadState) (c : LoadedConst) : LoadState :=
  { s with mod := { s.mod with constants := some (s.mod.constants.getD [] ++ [c]) } }

/-- The loop over the constants. -/
def readConsts (a : Allocator) : ℕ → LoadM Unit
  | 0 => pure ()
  | n + 1 => do
    let c ← readConst a
    modify (·.pushConst c)
    readConsts a n

/-! ## Sections -/

/-- `if (sr.pos != sr.len) return -1;` -/
def expectEnd : LoadM Unit := do
  let s ← get
  if s.r.pos ≠ s.r.len then throw .reject else pure ()

/-- The array of constants is allocated. -/
def LoadState.initConsts (s : LoadState) : LoadState :=
  { s with mod := { s.mod with constants := some [] } }

/-- The section of the constants. -/
def parseConstSection (a : Allocator) : LoadM Unit := do
  let nc ← eskbReadLeb
  if nc > intMax then throw .reject
  else do
    let s ← get
    if s.mod.constants.isSome then throw .reject
    else if a.grants (max nc 1) ∧ a.grants (8 * max nc 1) then do
      modify (·.initConsts)
      readConsts a nc
      expectEnd
    else throw .reject

/-- One more instruction. -/
def LoadState.pushInstr (s : LoadState) (i : EskbInstr) : LoadState :=
  { s with mod := { s.mod with code := s.mod.code ++ [i] } }

/-- The instruction loop of a function of `cl` instructions placed at `codeOffset`. -/
def readInstrs (codeOffset cl : ℕ) : ℕ → LoadM Unit
  | 0 => pure ()
  | n + 1 => do
    let i ← eskbReadInstruction
    if operandIsCodeTarget i.op then
      if i.operand < 0 ∨ i.operand ≥ cl then throw .reject
      else do
        modify (·.pushInstr { i with operand := i.operand + codeOffset })
        readInstrs codeOffset cl n
    else do
      modify (·.pushInstr i)
      readInstrs codeOffset cl n

/-- One more function. -/
def LoadState.pushFunction (s : LoadState) (f : EskbFunction) : LoadState :=
  { s with mod := { s.mod with functions := some (s.mod.functions.getD [] ++ [f]) } }

/-- The length of the code so far. -/
def LoadState.setCodeLen (s : LoadState) (n : ℕ) : LoadState :=
  { s with mod := { s.mod with codeLen := n } }

/-- The name of the next function: 1 to 255 bytes, and no earlier function has the same
C string. -/
def readFunctionName (a : Allocator) : LoadM (List UInt8) := do
  let fname ← eskbReadStringAlloc a
  if fname.length = 0 ∨ fname.length > 255 then throw .reject
  else do
    let s ← get
    if (s.mod.functions.getD []).any (fun f => cString f.name == cString fname) then
      throw .reject
    else pure fname

/-- One round of the function loop. -/
def readFunction (a : Allocator) : LoadM Unit := do
  let fname ← readFunctionName a
  let np ← eskbReadU8
  let nl ← eskbReadLeb
  if nl > intMax then throw .reject
  else do
    let nuv ← eskbReadU8
    let cl ← eskbReadLeb
    if cl > vmMaxCode ∨ cl > intMax then throw .reject
    else do
      let s ← get
      let codeOffset := s.mod.codeLen
      if codeOffset > intMax - cl then throw .reject
      else
        let newCodeLen := codeOffset + cl
        if newCodeLen > vmMaxCode then throw .reject
        else if a.grants (max newCodeLen 1) ∧ a.grants (4 * max newCodeLen 1) then do
          modify (·.pushFunction
            { name := fname, nParams := np.toNat, nLocals := nl, nUpvalues := nuv.toNat,
              codeOffset := codeOffset, codeLen := cl })
          readInstrs codeOffset cl cl
          modify (·.setCodeLen newCodeLen)
        else throw .reject

/-- The loop over the functions. -/
def readFunctions (a : Allocator) : ℕ → LoadM Unit
  | 0 => pure ()
  | n + 1 => do
    readFunction a
    readFunctions a n

/-- The array of functions is allocated. -/
def LoadState.initFunctions (s : LoadState) : LoadState :=
  { s with mod := { s.mod with functions := some [] } }

/-- The CODE section. `opcodes` is allocated only after `functions`, so the second pointer
decides whether a CODE section was seen before. -/
def parseCodeSection (a : Allocator) : LoadM Unit := do
  let nf ← eskbReadLeb
  if nf > 4096 ∨ nf > intMax then throw .reject
  else do
    let s ← get
    if s.mod.functions.isSome then throw .reject
    else if a.grants (32 * max nf 1) then do
      modify (·.initFunctions)
      readFunctions a nf
      expectEnd
    else throw .reject

/-- A second section of debug information is refused. -/
def LoadState.setDebug (s : LoadState) : LoadState :=
  { s with mod := { s.mod with hasDebug := true } }

/-- The source file is known. -/
def LoadState.setSourceFile (s : LoadState) (src : List UInt8) : LoadState :=
  { s with mod := { s.mod with sourceFile := src } }

/-- The section of the source file. -/
def parseMetaSection : LoadM Unit := do
  let s ← get
  if s.mod.hasDebug then throw .reject
  else do
    modify (·.setDebug)
    let src ← eskbReadString 256
    modify (·.setSourceFile src)
    expectEnd

/-! ## The payload -/

/-- The section descriptors: ids and sizes. -/
def readDescs : ℕ → LoadM (List (UInt8 × ℕ))
  | 0 => pure []
  | n + 1 => do
    let sid ← eskbReadU8
    let ssize ← eskbReadLeb
    if ssize > uint32Max then throw .reject
    else do
      let ds ← readDescs n
      pure ((sid, ssize) :: ds)

/-- The offset loop: each section gets the bytes after the previous one, and the last must
end with the payload. -/
def layoutSections (payloadLen : ℕ) : ℕ → List (UInt8 × ℕ) → LoadM (List (UInt8 × ℕ × ℕ))
  | offset, [] => if offset ≠ payloadLen then throw .reject else pure []
  | offset, (sid, size) :: ds =>
    if size > payloadLen - offset then throw .reject
    else do
      let rest ← layoutSections payloadLen (offset + size) ds
      pure ((sid, offset, size) :: rest)

/-- `eskb_reader_init` on a section. -/
def LoadState.openSection (s : LoadState) (offset size : ℕ) : LoadState :=
  { s with r := { mem := s.r.mem, base := offset, len := size, pos := 0 } }

/-- The section and where its reading ended are noted. -/
def LoadState.closeSection (s : LoadState) (sid : UInt8) (offset size : ℕ) : LoadState :=
  { s with visited := s.visited ++ [⟨sid, offset, size, s.r.pos⟩] }

/-- The section dispatch; a section with any other id is skipped. -/
def parseSection (a : Allocator) (sid : UInt8) : LoadM Unit :=
  if sid = sectionConst then parseConstSection a
  else if sid = sectionCode then parseCodeSection a
  else if sid = sectionMeta then parseMetaSection
  else pure ()

/-- The loop over the table of sections. -/
def parseSections (a : Allocator) : List (UInt8 × ℕ × ℕ) → LoadM Unit
  | [] => pure ()
  | (sid, offset, size) :: rest => do
    modify (·.openSection offset size)
    parseSection a sid
    modify (·.closeSection sid offset size)
    parseSections a rest

/-- `eskb_parse_payload`. -/
def eskbParsePayload (a : Allocator) : LoadM Unit := do
  let nSections ← eskbReadLeb
  if nSections > 16 then throw .reject
  else do
    let ds ← readDescs nSections
    let s ← get
    let secs ← layoutSections s.r.len s.r.pos ds
    parseSections a secs

/-! ## Loading a file image -/

/-- How `eskb_load_memory` ends: return code, module, and the sections it went through; or a
read outside the section being parsed. -/
inductive LoadResult where
  | returned (rc : ℤ) (mod : EskbModule) (visited : List SectionTrace)
  | outOfBounds
deriving DecidableEq

/-- The state in which the payload parser starts. -/
def LoadState.init (payload : List UInt8) : LoadState where
  r := { mem := payload, base := 0, len := payload.length, pos := 0 }
  mod := EskbModule.zero
  visited := []

/-- `eskb_load_memory`. -/
def eskbLoadMemory (a : Allocator) (data : List UInt8) : LoadResult :=
  if data.length < headerSize then .returned (-1) EskbModule.zero []
  else if ofLE (data.take 4) ≠ eskbMagic then .returned (-1) EskbModule.zero []
  else if ofLE ((data.drop 4).take 4) ≠ eskbVersion then .returned (-1) EskbModule.zero []
  else
    let payload := data.drop headerSize
    if (eskbCrc32 payload).toNat ≠ ofLE ((data.drop 12).take 4) then
      .returned (-1) (eskbModuleFree EskbModule.zero) []
    else
      match eskbParsePayload a (LoadState.init payload) with
      | .ok _ s => .returned 0 s.mod s.visited
      | .error .reject s => .returned (-1) (eskbModuleFree s.mod) s.visited
      | .error .outOfBounds _ => .outOfBounds

end Eskb
