import Eshkol.Vm.Core

/-!
# Opcode handlers

The handlers that `vm_run` spells the same way in its two dispatch loops, up to `goto vm_exit`
against `break`. The handlers that differ are in `Vm.Dispatch`, once for each loop.

A handler ends with a request to the surrounding loop: to go on, to run a native function, or to
leave dynamic extents by running their after-thunks. The last two can re-enter the interpreter.
-/

namespace Vm

/-- What is left to do when a handler's own code has ended. -/
inductive Request (H : Host) where
  | next
  | native (id : ℤ)
  /-- run the after-thunk of the dynamic extent just left -/
  | thunk (after : Value)
  /-- invoke a continuation with a value -/
  | invoke (cont : VmContinuation) (val : Value)

variable {H : Host} (L : Lib H)

/-- Goes on with the next instruction. -/
def next : Exec H (Request H) := pure .next

/-- Goes on with the error flag set. -/
def fail : Exec H (Request H) := do
  setError
  pure .next

/-- Pushes a result and goes on. -/
def pushNext (v : Value) : Exec H (Request H) := do
  push v
  pure .next

/-! ## Constants and stack -/

/-- `vm->constants[i]`. -/
def constantAt (i : ℤ) : Exec H Value := fun vm =>
  if 0 ≤ i ∧ i < maxConsts then some (vm.constants i.toNat, vm) else none

/-- `OP_CONST`. -/
def opConst (operand : ℤ) : Exec H (Request H) := do
  let vm ← get
  if operand < 0 ∨ operand ≥ vm.nConstants then fail
  else do
    let v ← constantAt operand
    pushNext v

/-- `OP_POP`. -/
def opPop : Exec H (Request H) := do
  let _ ← pop
  next

/-- `OP_DUP`. -/
def opDup : Exec H (Request H) := do
  let v ← peek 0
  pushNext v

/-- `OP_POPN`: the values below the top go. -/
def opPopn (n : ℤ) : Exec H (Request H) := do
  let vm ← get
  if n > 0 ∧ vm.sp > n then do
    let top ← stackAt (vm.sp - 1)
    setSp (vm.sp - n)
    setStackAt (vm.sp - n - 1) top
    next
  else next

/-! ## Arithmetic -/

/-- Hands both operands back to a native function. -/
def rebox (a b : Value) (id : ℤ) : Exec H (Request H) := do
  push a
  push b
  pure (.native id)

/-- The operation on integers. -/
def ArithOp.onInts : ArithOp → ℤ → ℤ → ℤ
  | .add, x, y => x + y
  | .sub, x, y => x - y
  | _, x, y => x * y

/-- `ADD`, `SUB` and `MUL`, by the natives they fall back to. -/
def arith (op : ArithOp) (hyperDual dual rational complex : ℤ) : Exec H (Request H) := do
  let b ← pop
  let a ← pop
  if a.type = .hyperDual ∨ b.type = .hyperDual then rebox a b hyperDual
  else if a.type = .dual ∨ b.type = .dual then rebox a b dual
  else if a.type = .rational ∨ b.type = .rational then rebox a b rational
  else if a.type = .complex ∨ b.type = .complex then rebox a b complex
  else if eitherBignum a b then do
    bignumArith L a b op
    next
  else if a.type = .int ∧ b.type = .int then
    if fitsInt64 (op.onInts a.i b.i) then pushNext (intVal (op.onInts a.i b.i))
    else do
      bignumArith L a b op
      next
  else
    pushNext (L.doubles.numberVal
      (op.onDoubles L.doubles (L.doubles.asNumber a) (L.doubles.asNumber b)))

/-- `OP_ADD`. -/
def opAdd : Exec H (Request H) := arith L .add 1905 373 331 307

/-- `OP_SUB`. -/
def opSub : Exec H (Request H) := arith L .sub 1906 374 332 308

/-- `OP_MUL`. -/
def opMul : Exec H (Request H) := arith L .mul 1907 375 333 309

/-- `OP_DIV`. -/
def opDiv : Exec H (Request H) := do
  let b ← pop
  let a ← pop
  if a.type = .hyperDual ∨ b.type = .hyperDual then rebox a b 1908
  else if a.type = .dual ∨ b.type = .dual then rebox a b 376
  else if a.type = .rational ∨ b.type = .rational then rebox a b 334
  else if a.type = .complex ∨ b.type = .complex then rebox a b 310
  else if a.type = .int ∧ b.type = .int then
    if b.i = 0 then fail else rebox a b 334
  else
    let bd := L.doubles.asNumber b
    if L.doubles.eq bd (L.doubles.ofInt 0) then fail
    else pushNext (L.doubles.numberVal (L.doubles.div (L.doubles.asNumber a) bd))

/-- `INT64_MIN % -1` overflows, which C leaves undefined. -/
def opMod : Exec H (Request H) := do
  let b ← pop
  let a ← pop
  if eitherBignum a b then do
    bignumArith L a b .mod
    next
  else if a.type = .int ∧ b.type = .int then
    if b.i = 0 then fail
    else if a.i = -2 ^ 63 ∧ b.i = -1 then undefinedBehaviour
    else
      let r := a.i.tmod b.i
      pushNext (intVal (if r ≠ 0 ∧ (r < 0) ≠ (b.i < 0) then r + b.i else r))
  else
    let D := L.doubles
    let bd := D.asNumber b
    if D.eq bd (D.ofInt 0) then fail
    else
      let r := D.fmod (D.asNumber a) bd
      pushNext (D.numberVal (if ¬ D.eq r (D.ofInt 0) ∧ D.lt (D.ofInt 0) r ≠ D.lt (D.ofInt 0) bd
        then D.add r bd else r))

/-- The part of `NEG` and `ABS` that both loops have: a bignum, an `int64_t` whose result may not
fit, or a double. -/
def negAbs (onInts : ℤ → ℤ) (onDoubles : BitVec 64 → BitVec 64) (a : Value) :
    Exec H (Request H) :=
  if a.type = .bignum then do
    let n ← bignumAt a
    pushBignumNorm L (onInts n)
    next
  else if a.type = .int then
    if a.i = -2 ^ 63 then do
      pushBignumNorm L (onInts a.i)
      next
    else pushNext (intVal (onInts a.i))
  else pushNext (L.doubles.numberVal (onDoubles (L.doubles.asNumber a)))

/-! ## Comparison -/

/-- A comparison opcode: on a three-way result, on integers and on doubles. -/
structure CompareOp where
  onSign : ℤ → Bool
  onInts : ℤ → ℤ → Bool
  onDoubles : Doubles → BitVec 64 → BitVec 64 → Bool

/-- The comparison of `OP_EQ`. -/
def cmpEq : CompareOp := ⟨fun s => s = 0, fun x y => x = y, fun D x y => D.eq x y⟩

/-- That of `OP_LT`. -/
def cmpLt : CompareOp := ⟨fun s => s < 0, fun x y => x < y, fun D x y => D.lt x y⟩

/-- That of `OP_GT`. -/
def cmpGt : CompareOp := ⟨fun s => s > 0, fun x y => x > y, fun D x y => D.lt y x⟩

/-- That of `OP_LE`. -/
def cmpLe : CompareOp := ⟨fun s => s ≤ 0, fun x y => x ≤ y, fun D x y => D.le x y⟩

/-- That of `OP_GE`. -/
def cmpGe : CompareOp := ⟨fun s => s ≥ 0, fun x y => x ≥ y, fun D x y => D.le y x⟩

/-- A comparison; `num` turns an operand that is neither integer nor bignum into a double. -/
def compare (num : Value → Exec H (BitVec 64)) (c : CompareOp) : Exec H (Request H) := do
  let b ← pop
  let a ← pop
  if eitherBignum a b then do
    let s ← bignumCompareVals L a b
    pushNext (boolVal (c.onSign s))
  else if a.type = .int ∧ b.type = .int then pushNext (boolVal (c.onInts a.i b.i))
  else do
    let x ← num a
    let y ← num b
    pushNext (boolVal (c.onDoubles L.doubles x y))

/-- `OP_NOT`. -/
def opNot : Exec H (Request H) := do
  let a ← pop
  pushNext (boolVal (!isTruthy a))

/-- The type predicates. -/
def typeTest (p : ValType → Bool) : Exec H (Request H) := do
  let v ← pop
  pushNext (boolVal (p v.type))

/-! ## Variables and closures -/

/-- `OP_GET_UPVALUE`. -/
def opGetUpvalue (operand : ℤ) : Exec H (Request H) := do
  let vm ← get
  let cl ← stackAt (vm.fp - 1)
  if cl.type = .closure then do
    match ← heapAt cl.ptr with
    | .closure _ upvalues =>
      if 0 ≤ operand ∧ operand < upvalues.length then
        pushNext (upvalues.getD operand.toNat nilVal)
      else pushNext nilVal
    | _ => undefinedBehaviour
  else pushNext nilVal

/-- Stores `v` as upvalue `operand` of the closure object `ptr`, if it has one. -/
def setUpvalueOf (ptr operand : ℤ) (v : Value) : Exec H Unit := do
  match ← heapAt ptr with
  | .closure funcPc upvalues =>
    if 0 ≤ operand ∧ operand < upvalues.length then
      setObject ptr.toNat (.closure funcPc (upvalues.set operand.toNat v))
    else pure ()
  | _ => undefinedBehaviour

/-- `OP_SET_UPVALUE`. -/
def opSetUpvalue (operand : ℤ) : Exec H (Request H) := do
  let vm ← get
  let cl ← stackAt (vm.fp - 1)
  if cl.type = .closure then do
    let v ← peek 0
    setUpvalueOf cl.ptr operand v
    opPop
  else opPop

/-- `OP_CLOSE_UPVALUE`. -/
def opCloseUpvalue (operand : ℤ) : Exec H (Request H) := do
  let cl ← peek 0
  if cl.type = .closure then do
    setUpvalueOf cl.ptr operand cl
    next
  else next

/-- `(int32_t)v.as.i`. -/
def Value.int32 (v : Value) : ℤ := (v.as.truncate 32).toInt

/-- `OP_CLOSURE`: the constant and the number of upvalues share the operand. -/
def opClosure (operand : ℤ) : Exec H (Request H) := do
  let constIdx := operand % 0x10000
  let nUpvalues := min (operand / 0x10000 % 0x100) 16
  let funcConst ← constantAt constIdx
  match ← heapAlloc L (.closure funcConst.int32 (List.replicate nUpvalues.toNat nilVal)) with
  | none => fail
  | some p => do
    let upvalues ← popInto nUpvalues.toNat []
    setObject p (.closure funcConst.int32 upvalues)
    pushNext (closureVal p)

/-- The entry point of a closure object. -/
def funcPcAt (ptr : ℤ) : Exec H ℤ := do
  match ← heapAt ptr with
  | .closure funcPc _ => pure funcPc
  | _ => undefinedBehaviour

/-- The continuation behind a `VAL_CONTINUATION`, or `NULL`. -/
def continuationAt (ptr : ℤ) : Exec H (Option VmContinuation) := do
  match ← heapAt ptr with
  | .continuation cont => pure (some cont)
  | .empty => pure none
  | _ => undefinedBehaviour

/-- The VM with a new call frame. -/
def VM.withFrame (vm : VM H) (f : CallFrame) : VM H :=
  { vm with
    frames := fun j => if j = vm.frameCount then f else vm.frames j
    frameCount := vm.frameCount + 1 }

/-- Enters the closure `func` with the `argc` values on top of the stack as its arguments. -/
def callClosure (func : Value) (argc : ℤ) : Exec H (Request H) := do
  let funcPc ← funcPcAt func.ptr
  let vm ← get
  if vm.frameCount ≥ maxFrames then fail
  else do
    modify fun vm => { vm.withFrame ⟨vm.pc, vm.fp, funcPc⟩ with fp := vm.sp - argc, pc := funcPc }
    next

/-- `for (i = 0; i < n; i++) stack[dst + i] = stack[src + i]`. -/
def moveSlots (dst src : ℤ) : ℕ → Exec H Unit
  | 0 => pure ()
  | n + 1 => do
    moveSlots dst src n
    let v ← stackAt (src + n)
    setStackAt (dst + n) v

/-- Replaces the current frame by a call of the closure `func`. -/
def tailCallClosure (func : Value) (argc : ℤ) : Exec H (Request H) := do
  let funcPc ← funcPcAt func.ptr
  let vm ← get
  moveSlots vm.fp (vm.sp - argc) argc.toNat
  setSp (vm.fp + argc)
  setStackAt (vm.fp - 1) func
  modify fun vm => { vm with pc := funcPc }
  next

/-- `RETURN`: from the top level and from a closure called by a native function it halts. -/
def opReturn : Exec H (Request H) := do
  let result ← pop
  let vm ← get
  if vm.frameCount = 0 then do
    push result
    modify fun vm => { vm with halted := true }
    next
  else
    let frame := vm.frames (vm.frameCount - 1)
    if frame.returnPc = -1 then do
      modify fun vm => { vm with frameCount := vm.frameCount - 1 }
      push result
      modify fun vm => { vm with halted := true }
      next
    else do
      modify fun vm => { vm with
        frameCount := vm.frameCount - 1
        sp := vm.fp - 1
        fp := frame.returnFp
        pc := frame.returnPc }
      pushNext result

/-! ## Control flow and output -/

/-- `OP_JUMP`. -/
def opJump (target : ℤ) : Exec H (Request H) := do
  modify fun vm => { vm with pc := target }
  next

/-- `OP_JUMP_IF_FALSE`. -/
def opJumpIfFalse (target : ℤ) : Exec H (Request H) := do
  let cond ← pop
  if isTruthy cond then next else opJump target

/-- `OP_PRINT`. -/
def opPrint : Exec H (Request H) := do
  let v ← pop
  if v.type = .void then next
  else do
    modify fun vm => { vm with
      stdout := vm.stdout ++ [L.printValue vm.heap v ++ "\n"]
      outputs := if vm.outputs.length < maxOutputs then vm.outputs ++ [v] else vm.outputs }
    next

/-- `OP_HALT`. -/
def opHalt : Exec H (Request H) := do
  modify fun vm => { vm with halted := true }
  next

/-! ## Pairs, vectors, strings -/

/-- `OP_CONS`. -/
def opCons : Exec H (Request H) := do
  let car ← pop
  let cdr ← pop
  match ← heapAlloc L (.cons car cdr) with
  | none => fail
  | some p => pushNext (pairVal p)

/-- The two fields of a pair. -/
def consAt (ptr : ℤ) : Exec H (Value × Value) := do
  match ← heapAt ptr with
  | .cons car cdr => pure (car, cdr)
  | _ => undefinedBehaviour

/-- `CAR` and `CDR`. -/
def pairField (field : Value × Value → Value) : Exec H (Request H) := do
  let pair ← pop
  if pair.type ≠ .pair then fail
  else do
    let c ← consAt pair.ptr
    pushNext (field c)

/-- `OP_CAR`. -/
def opCar : Exec H (Request H) := pairField Prod.fst

/-- `OP_CDR`. -/
def opCdr : Exec H (Request H) := pairField Prod.snd

/-- `SET_CAR` and `SET_CDR`. -/
def setPairField (update : Value → Value × Value → Value × Value) : Exec H (Request H) := do
  let val ← pop
  let pair ← pop
  if pair.type = .pair then do
    let c ← consAt pair.ptr
    let c := update val c
    setObject pair.ptr.toNat (.cons c.1 c.2)
    pushNext nilVal
  else pushNext nilVal

/-- `OP_SET_CAR`. -/
def opSetCar : Exec H (Request H) := setPairField fun v c => (v, c.2)

/-- `OP_SET_CDR`. -/
def opSetCdr : Exec H (Request H) := setPairField fun v c => (c.1, v)

/-- `OP_VEC_CREATE`. -/
def opVecCreate (count : ℤ) : Exec H (Request H) := do
  match ← heapAlloc L .empty with
  | none => fail
  | some p => do
    let vm ← get
    if ¬ L.arenaAlloc vm.heap .vectorHeader then fail
    else if count > 0 ∧ ¬ L.arenaAlloc vm.heap (.items count.toNat) then fail
    else do
      let items ← popInto count.toNat []
      setObject p (.vector count items)
      pushNext (heapVal .vector p)

/-- The vector behind a `VAL_VECTOR`: its length and items, or `NULL`. -/
def vectorAt (ptr : ℤ) : Exec H (Option (ℤ × List Value)) := do
  match ← heapAt ptr with
  | .vector len items => pure (some (len, items))
  | .empty => pure none
  | _ => undefinedBehaviour

/-- `OP_VEC_REF`. -/
def opVecRef : Exec H (Request H) := do
  let idx ← pop
  let vecVal ← pop
  if vecVal.type ≠ .vector then pushNext nilVal
  else do
    let i := L.doubles.toInt (L.doubles.asNumber idx)
    match ← vectorAt vecVal.ptr with
    | some (len, items) =>
      if 0 ≤ i ∧ i < len then pushNext (items.getD i.toNat nilVal) else pushNext nilVal
    | none => pushNext nilVal

/-- `OP_VEC_SET`. -/
def opVecSet : Exec H (Request H) := do
  let val ← pop
  let idx ← pop
  let vecVal ← pop
  if vecVal.type = .vector then do
    let i := L.doubles.toInt (L.doubles.asNumber idx)
    match ← vectorAt vecVal.ptr with
    | some (len, items) =>
      if 0 ≤ i ∧ i < len then do
        setObject vecVal.ptr.toNat (.vector len (items.set i.toNat val))
        pushNext nilVal
      else pushNext nilVal
    | none => pushNext nilVal
  else pushNext nilVal

/-- `OP_VEC_LEN`. -/
def opVecLen : Exec H (Request H) := do
  let vecVal ← pop
  if vecVal.type = .vector then do
    match ← vectorAt vecVal.ptr with
    | some (len, _) => pushNext (intVal len)
    | none => pushNext (intVal 0)
  else pushNext (intVal 0)

/-- The bytes behind a `VAL_STRING`, or `NULL`. -/
def stringAt (ptr : ℤ) : Exec H (Option (List UInt8)) := do
  match ← heapAt ptr with
  | .string bytes => pure (some bytes)
  | .empty => pure none
  | _ => undefinedBehaviour

/-- `OP_STR_REF`. -/
def opStrRef : Exec H (Request H) := do
  let idx ← pop
  let strVal ← pop
  if strVal.type = .string then do
    let i := L.doubles.toInt (L.doubles.asNumber idx)
    match ← stringAt strVal.ptr with
    | some bytes =>
      if 0 ≤ i ∧ i < bytes.length then pushNext (charVal (bytes.getD i.toNat 0).toNat)
      else pushNext (charVal 0)
    | none => pushNext (charVal 0)
  else pushNext (charVal 0)

/-- `OP_STR_LEN`. -/
def opStrLen : Exec H (Request H) := do
  let strVal ← pop
  if strVal.type = .string then do
    match ← stringAt strVal.ptr with
    | some bytes => pushNext (intVal bytes.length)
    | none => pushNext (intVal 0)
  else pushNext (intVal 0)

/-! ## Continuations, handlers, winds -/

/-- The part of the VM a continuation keeps. -/
def VM.capture (vm : VM H) : VmContinuation where
  pc := vm.pc
  fp := vm.fp
  sp := vm.sp
  frameCount := vm.frameCount
  nHandlers := vm.nHandlers
  nWinds := vm.nWinds
  savedStack := fun i => if (i : ℤ) < vm.sp then vm.stack i else nilVal
  savedFrames := fun i => if i < vm.frameCount then vm.frames i else ⟨0, 0, 0⟩

/-- The allocation of the continuation and the call of `proc` with it. -/
def captureAndCall (proc : Value) : Exec H (Request H) := do
  match ← heapAlloc L .empty with
  | none => fail
  | some p => do
    let vm ← get
    if ¬ L.arenaAlloc vm.heap (.continuation vm.sp vm.frameCount) then fail
    else do
      setObject p (.continuation vm.capture)
      push proc
      push (heapVal .continuation p)
      callClosure proc 1

/-- `OP_INVOKE_CC`. -/
def opInvokeCc : Exec H (Request H) := do
  let val ← pop
  let contVal ← pop
  if contVal.type = .continuation then do
    match ← continuationAt contVal.ptr with
    | some cont => pure (.invoke cont val)
    | none => next
  else next

/-- `OP_PUSH_HANDLER`. -/
def opPushHandler (target : ℤ) : Exec H (Request H) := do
  let vm ← get
  if vm.nHandlers ≥ maxHandlers then fail
  else do
    modify fun vm => { vm with
      handlerStack := fun j => if j = vm.nHandlers
        then ⟨target, vm.sp, vm.fp, vm.frameCount, vm.nWinds⟩ else vm.handlerStack j
      nHandlers := vm.nHandlers + 1 }
    next

/-- `OP_POP_HANDLER`. -/
def opPopHandler : Exec H (Request H) := do
  modify fun vm => { vm with nHandlers := vm.nHandlers - 1 }
  next

/-- `OP_GET_EXN`. -/
def opGetExn : Exec H (Request H) := do
  let vm ← get
  pushNext vm.currentException

/-- The loop of `PACK_REST` over the slots `base`, ..., `base + n - 1`, last first: the list, and
whether the heap was full. -/
def packRest (base : ℤ) : ℕ → Value → Exec H (Value × Bool)
  | 0, list => pure (list, false)
  | n + 1, list => do
    let item ← stackAt (base + n)
    match ← heapAlloc L (.cons item list) with
    | none => do
      setError
      pure (list, true)
    | some p => packRest base n (pairVal p)

/-- Records the extent of `before` and `after`. -/
def pushWind (before after : Value) : Exec H (Request H) := do
  modify fun vm => { vm with
    windStack := fun j => if j = vm.nWinds then ⟨before, after⟩ else vm.windStack j
    nWinds := vm.nWinds + 1 }
  next

/-- `OP_WIND_POP`. -/
def opWindPop : Exec H (Request H) := do
  let vm ← get
  if vm.nWinds > 0 then do
    modify fun vm => { vm with nWinds := vm.nWinds - 1 }
    let after := (vm.windStack (vm.nWinds - 1)).after
    if after.type = .closure then pure (.thunk after) else next
  else next

end Vm
