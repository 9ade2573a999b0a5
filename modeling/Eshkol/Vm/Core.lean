import Mathlib.Data.BitVec

/-!
# The state of the bytecode VM

`vm_core.c`: tagged values, heap objects, the VM record, and the helpers every opcode handler is
written with. A C access outside an array, or through a heap object of another kind, is undefined
behaviour; here the computation then has no result (`none`).

The model is of a VM with no AD tape active: `active_tape` is `NULL`, so `ad_node_map`, which is
only ever read under an active tape, is left out. Diagnostics on `stderr` are left out too.
-/

namespace Vm

/-! ## Limits (desktop profile) -/

/-- `STACK_SIZE`. -/
def stackSize : ℤ := 4096

/-- `MAX_FRAMES`. -/
def maxFrames : ℕ := 256

/-- `MAX_CONSTS`. -/
def maxConsts : ℤ := 1024

/-- `HEAP_SIZE`. -/
def heapSize : ℕ := 65536

/-- The length of `handler_stack`. -/
def maxHandlers : ℕ := 16

/-- The length of `wind_stack`. -/
def maxWinds : ℕ := 32

/-- The length of `outputs`. -/
def maxOutputs : ℕ := 256

/-! ## Values -/

/-- The tags of values. -/
inductive ValType where
  | nil | int | float | bool | pair | closure | string | vector | tensor | kb | complex | rational
  | bignum | dual | factorGraph | continuation | workspace | subst | hash | bytevector
  | parameterObj | adTape | errorObj | manifold | port | void | hyperDual | riemannianAdamState
  | future | char
deriving DecidableEq, Repr

/-- A tag and the eight bytes of the union. -/
structure Value where
  type : ValType
  as : BitVec 64
deriving DecidableEq, Repr

/-- `v.as.i`. -/
def Value.i (v : Value) : ℤ := v.as.toInt

/-- `v.as.b`, as a condition. -/
def Value.b (v : Value) : Bool := v.as.truncate 32 ≠ 0#32

/-- `v.as.ptr`. -/
def Value.ptr (v : Value) : ℤ := (v.as.truncate 32).toInt

/-- `NIL_VAL`. -/
def nilVal : Value := ⟨.nil, 0⟩

/-- `INT_VAL`. -/
def intVal (i : ℤ) : Value := ⟨.int, BitVec.ofInt 64 i⟩

/-- `FLOAT_VAL`, of the bits of a double. -/
def floatVal (d : BitVec 64) : Value := ⟨.float, d⟩

/-- `BOOL_VAL`. -/
def boolVal (b : Bool) : Value := ⟨.bool, if b then 1 else 0⟩

/-- A value of the tag `VAL_VOID`. -/
def voidVal : Value := ⟨.void, 0⟩

/-- A character: the tag `VAL_CHAR`. -/
def charVal (i : ℤ) : Value := ⟨.char, BitVec.ofInt 64 i⟩

/-- A value that points to the heap object `p`. -/
def heapVal (t : ValType) (p : ℕ) : Value := ⟨t, BitVec.ofNat 64 p⟩

/-- `PAIR_VAL`. -/
def pairVal (p : ℕ) : Value := heapVal .pair p

/-- `CLOSURE_VAL`. -/
def closureVal (p : ℕ) : Value := heapVal .closure p

/-- `is_truthy`. `NIL` is false, too. -/
def isTruthy (v : Value) : Bool :=
  if v.type = .bool then v.b
  else if v.type = .nil then false
  else true

/-! ## Doubles -/

/-- The C operations on `double`, on bit patterns. -/
structure Doubles where
  ofInt : ℤ → BitVec 64
  add : BitVec 64 → BitVec 64 → BitVec 64
  sub : BitVec 64 → BitVec 64 → BitVec 64
  mul : BitVec 64 → BitVec 64 → BitVec 64
  div : BitVec 64 → BitVec 64 → BitVec 64
  fmod : BitVec 64 → BitVec 64 → BitVec 64
  neg : BitVec 64 → BitVec 64
  fabs : BitVec 64 → BitVec 64
  eq : BitVec 64 → BitVec 64 → Bool
  lt : BitVec 64 → BitVec 64 → Bool
  le : BitVec 64 → BitVec 64 → Bool
  /-- the cast `(int64_t)d` -/
  toInt64 : BitVec 64 → ℤ
  /-- the cast `(int)d` -/
  toInt : BitVec 64 → ℤ

namespace Doubles
variable (D : Doubles)

/-- `as_number`: 0 for what is no number. -/
def asNumber (v : Value) : BitVec 64 :=
  if v.type = .int then D.ofInt v.i
  else if v.type = .float then v.as
  else if v.type = .char then D.ofInt v.i
  else D.ofInt 0

/-- `number_val`: an integer where the double is a small whole number. -/
def numberVal (d : BitVec 64) : Value :=
  if D.eq d (D.ofInt (D.toInt64 d)) ∧ D.lt (D.fabs d) (D.ofInt (10 ^ 15)) then
    intVal (D.toInt64 d)
  else floatVal d

end Doubles

/-- The doubles of the machine the model runs on. -/
def Doubles.float : Doubles :=
  let dbl (d : BitVec 64) : Float := Float.ofBits ⟨d⟩
  let bits (x : Float) : BitVec 64 := x.toBits.toBitVec
  { ofInt := fun n => bits (Float.ofInt n)
    add := fun x y => bits (dbl x + dbl y)
    sub := fun x y => bits (dbl x - dbl y)
    mul := fun x y => bits (dbl x * dbl y)
    div := fun x y => bits (dbl x / dbl y)
    fmod := fun x y =>
      let q := dbl x / dbl y
      bits (dbl x - dbl y * (if q < 0 then q.ceil else q.floor))
    neg := fun x => bits (-dbl x)
    fabs := fun x => bits (dbl x).abs
    eq := fun x y => dbl x == dbl y
    lt := fun x y => dbl x < dbl y
    le := fun x y => dbl x ≤ dbl y
    toInt64 := fun x => (dbl x).toInt64.toInt
    toInt := fun x => (dbl x).toInt32.toInt }

/-! ## The heap -/

/-- A frame of the call stack. -/
structure CallFrame where
  returnPc : ℤ
  returnFp : ℤ
  funcPc : ℤ
deriving DecidableEq, Repr

/-- `VmContinuation`: the saved part of the stack and of the frames, and four counters. -/
structure VmContinuation where
  pc : ℤ
  fp : ℤ
  sp : ℤ
  frameCount : ℕ
  nHandlers : ℕ
  nWinds : ℕ
  savedStack : ℕ → Value
  savedFrames : ℕ → CallFrame

/-- What lies outside the interpreter: the objects only the natives look into, the rest of the VM
record together with the outside world, and a native function that waits for a closure it called. -/
structure Host where
  Obj : Type
  Ext : Type
  Susp : Type

/-- A heap object, by what its union holds. `empty` is an object whose `opaque.ptr` is still
`NULL`. -/
inductive HeapObject (H : Host) where
  | cons (car cdr : Value)
  | closure (funcPc : ℤ) (upvalues : List Value)
  | string (bytes : List UInt8)
  | vector (len : ℤ) (items : List Value)
  | continuation (cont : VmContinuation)
  | rational (num denom : ℤ)
  | dual (primal tangent : BitVec 64)
  | bignum (n : ℤ)
  | empty
  | other (obj : H.Obj)

/-! ## The VM record -/

/-- `OpCode`, in the order of the enumeration. -/
inductive OpCode where
  | nop | const | nil | true | false | pop | dup
  | add | sub | mul | div | mod | neg | abs
  | eq | lt | gt | le | ge | not
  | getLocal | setLocal | getUpvalue | setUpvalue
  | closure | call | tailCall | return
  | jump | jumpIfFalse | loop
  | cons | car | cdr | nullP
  | print | halt | nativeCall | closeUpvalue
  | vecCreate | vecRef | vecSet | vecLen | strRef | strLen
  | pairP | numP | strP | boolP | procP | vecP
  | setCar | setCdr | popn | openClosure
  | callcc | invokeCc | pushHandler | popHandler | getExn | packRest | windPush | windPop | void
deriving DecidableEq, Repr

/-- A decoded instruction. -/
structure Instr where
  op : OpCode
  operand : ℤ
deriving DecidableEq, Repr

/-- An entry of `handler_stack`. -/
structure Handler where
  pc : ℤ
  sp : ℤ
  fp : ℤ
  frameCount : ℕ
  nWinds : ℕ
deriving DecidableEq, Repr

/-- An entry of `wind_stack`. -/
structure Wind where
  before : Value
  after : Value
deriving DecidableEq, Repr

/-- The VM. Arrays with a separate count are functions of the index; `stdout` is the text printed
so far. -/
structure VM (H : Host) where
  code : List Instr
  constants : ℕ → Value
  nConstants : ℤ
  pc : ℤ
  stack : ℕ → Value
  sp : ℤ
  frames : ℕ → CallFrame
  fp : ℤ
  frameCount : ℕ
  heap : List (HeapObject H)
  outputs : List Value
  stdout : List String
  handlerStack : ℕ → Handler
  nHandlers : ℕ
  currentException : Value
  windStack : ℕ → Wind
  nWinds : ℕ
  halted : Bool
  error : Bool
  ext : H.Ext

/-- What a native function does next: it returns, it calls a closure and waits for the result, or
it reaches `raise`. -/
inductive NativeStep (H : Host) where
  | done (vm : VM H)
  | call (closure : Value) (args : List Value) (vm : VM H) (k : H.Susp)
  | raise (vm : VM H)

/-- The requests made to the arena. -/
inductive AllocRequest where
  | object
  | vectorHeader
  | items (n : ℕ)
  | continuation (sp : ℤ) (frameCount : ℕ)
deriving DecidableEq, Repr

/-- Everything the interpreter loop calls and does not define: doubles, the arena, the printer and
the native functions. -/
structure Lib (H : Host) where
  doubles : Doubles
  arenaAlloc : List (HeapObject H) → AllocRequest → Bool
  printValue : List (HeapObject H) → Value → String
  dispatchNative : ℤ → VM H → NativeStep H
  resumeNative : H.Susp → Value → VM H → NativeStep H

variable {H : Host}

/-- A VM that was just initialised and given a program. -/
def VM.load (code : List Instr) (constants : List Value) (ext : H.Ext) : VM H where
  code := code
  constants := fun i => constants.getD i nilVal
  nConstants := constants.length
  pc := 0
  stack := fun _ => nilVal
  sp := 0
  frames := fun _ => ⟨0, 0, 0⟩
  fp := 0
  frameCount := 0
  heap := []
  outputs := []
  stdout := []
  handlerStack := fun _ => ⟨0, 0, 0, 0, 0⟩
  nHandlers := 0
  currentException := nilVal
  windStack := fun _ => ⟨nilVal, nilVal⟩
  nWinds := 0
  halted := false
  error := false
  ext := ext

/-- A host without natives: every native id is unknown. -/
def bareHost : Host := ⟨Empty, Unit, Empty⟩

/-- A library without heap objects of its own. -/
def bareLib : Lib bareHost where
  doubles := Doubles.float
  arenaAlloc := fun _ _ => true
  printValue := fun _ _ => ""
  dispatchNative := fun _ vm => .done { vm with error := true }
  resumeNative := fun k _ _ => nomatch k

/-- A piece of a handler: it may change the VM, and has no result where C has none. -/
abbrev Exec (H : Host) := StateT (VM H) Option

/-- Undefined behaviour. -/
def undefinedBehaviour {α : Type} : Exec H α := fun _ => none

/-- The error flag, which ends the run. -/
def setError : Exec H Unit := modify fun vm => { vm with error := true }

/-! ## The value stack -/

/-- `vm->stack[i]`. -/
def stackAt (i : ℤ) : Exec H Value := fun vm =>
  if 0 ≤ i ∧ i < stackSize then some (vm.stack i.toNat, vm) else none

/-- The stack with slot `i` replaced. -/
def VM.withSlot (vm : VM H) (i : ℤ) (v : Value) : VM H :=
  { vm with stack := fun j => if (j : ℤ) = i then v else vm.stack j }

/-- `vm->stack[i] = v`. -/
def setStackAt (i : ℤ) (v : Value) : Exec H Unit := fun vm =>
  if 0 ≤ i ∧ i < stackSize then some ((), vm.withSlot i v) else none

/-- Sets the stack pointer. -/
def setSp (sp : ℤ) : Exec H Unit := modify fun vm => { vm with sp := sp }

/-- `vm_push`. -/
def push (v : Value) : Exec H Unit := do
  let vm ← get
  if vm.sp ≥ stackSize then setError
  else do
    setStackAt vm.sp v
    setSp (vm.sp + 1)

/-- `vm_pop`. -/
def pop : Exec H Value := do
  let vm ← get
  if vm.sp ≤ 0 then do
    setError
    pure nilVal
  else do
    setSp (vm.sp - 1)
    stackAt (vm.sp - 1)

/-- `vm_peek`, from the top. -/
def peek (offset : ℤ) : Exec H Value := do
  let vm ← get
  let idx := vm.sp - 1 - offset
  if idx < 0 ∨ idx ≥ vm.sp then pure nilVal
  else stackAt idx

/-- `for (i = n - 1; i >= 0; i--) dst[i] = vm_pop(vm)`. -/
def popInto : ℕ → List Value → Exec H (List Value)
  | 0, acc => pure acc
  | n + 1, acc => do
    let v ← pop
    popInto n (v :: acc)

/-! ## Heap access -/

/-- `vm->heap.objects[ptr]`. -/
def heapAt (ptr : ℤ) : Exec H (HeapObject H) := fun vm =>
  if 0 ≤ ptr then (vm.heap[ptr.toNat]?).map fun o => (o, vm) else none

/-- `heap_alloc`, with the object's content: `none` is the return value -1. -/
def heapAlloc (L : Lib H) (o : HeapObject H) : Exec H (Option ℕ) := do
  let vm ← get
  if vm.heap.length ≥ heapSize then pure none
  else if L.arenaAlloc vm.heap .object then do
    modify fun vm => { vm with heap := vm.heap ++ [o] }
    pure (some vm.heap.length)
  else pure none

/-- Overwrites a heap object. -/
def setObject (p : ℕ) (o : HeapObject H) : Exec H Unit :=
  modify fun vm => { vm with heap := vm.heap.set p o }

/-- The value of a heap-boxed or immediate number as a double. -/
def asNumberVm (L : Lib H) (v : Value) : Exec H (BitVec 64) :=
  if v.type = .rational then do
    match ← heapAt v.ptr with
    | .rational num denom =>
      if denom ≠ 0 then
        pure (L.doubles.div (L.doubles.ofInt num) (L.doubles.ofInt denom))
      else pure (L.doubles.ofInt 0)
    | .empty => pure (L.doubles.ofInt 0)
    | _ => undefinedBehaviour
  else if v.type = .dual then do
    match ← heapAt v.ptr with
    | .dual primal _ => pure primal
    | .empty => pure (L.doubles.ofInt 0)
    | _ => undefinedBehaviour
  else pure (L.doubles.asNumber v)

/-! ## Big integers -/

/-- One of the operands is a bignum. -/
def eitherBignum (a b : Value) : Bool := a.type = .bignum || b.type = .bignum

/-- `bignum_to_int64` without overflow. -/
def fitsInt64 (n : ℤ) : Bool := -2 ^ 63 ≤ n && n < 2 ^ 63

/-- The payload of a `VAL_BIGNUM`. -/
def bignumAt (v : Value) : Exec H ℤ := do
  match ← heapAt v.ptr with
  | .bignum n => pure n
  | _ => undefinedBehaviour

/-- An operand as an integer. -/
def coerceBignum (L : Lib H) (v : Value) : Exec H ℤ :=
  if v.type = .bignum then bignumAt v
  else if v.type = .int ∨ v.type = .char then pure v.i
  else pure (L.doubles.toInt64 (L.doubles.asNumber v))

/-- Pushes an integer, as a bignum only where it has to be one. -/
def pushBignumNorm (L : Lib H) (n : ℤ) : Exec H Unit :=
  if fitsInt64 n then push (intVal n)
  else do
    match ← heapAlloc L (.bignum n) with
    | none => setError
    | some p => push (heapVal .bignum p)

/-- The operations of `arith`. -/
inductive ArithOp where
  | add | sub | mul | mod
deriving DecidableEq, Repr

/-- An operand as a double, bignums included. -/
def bignumToDouble (L : Lib H) (v : Value) : Exec H (BitVec 64) :=
  if v.type = .bignum then do
    let n ← bignumAt v
    pure (L.doubles.ofInt n)
  else pure (L.doubles.asNumber v)

/-- The operation on doubles. -/
def ArithOp.onDoubles (D : Doubles) : ArithOp → BitVec 64 → BitVec 64 → BitVec 64
  | .add => D.add
  | .sub => D.sub
  | _ => D.mul

/-- `vm_bignum_arith`; the bignum library's operations are those of the integers. -/
def bignumArith (L : Lib H) (a b : Value) (op : ArithOp) : Exec H Unit :=
  if op ≠ .mod ∧ (a.type = .float ∨ b.type = .float) then do
    let x ← bignumToDouble L a
    let y ← bignumToDouble L b
    push (floatVal (op.onDoubles L.doubles x y))
  else do
    let ab ← coerceBignum L a
    let bb ← coerceBignum L b
    match op with
    | .add => pushBignumNorm L (ab + bb)
    | .sub => pushBignumNorm L (ab - bb)
    | .mul => pushBignumNorm L (ab * bb)
    | .mod =>
      if bb = 0 then setError
      else
        -- the truncated remainder, moved to the sign of the divisor
        let r := ab.tmod bb
        if r ≠ 0 ∧ (r < 0) ≠ (bb < 0) then pushBignumNorm L (r + bb)
        else pushBignumNorm L r

/-- `vm_bignum_compare_vals`. -/
def bignumCompareVals (L : Lib H) (a b : Value) : Exec H ℤ :=
  if a.type = .float ∨ b.type = .float then do
    let x ← bignumToDouble L a
    let y ← bignumToDouble L b
    pure (if L.doubles.lt x y then -1 else if L.doubles.lt y x then 1 else 0)
  else do
    let ab ← coerceBignum L a
    let bb ← coerceBignum L b
    pure (if ab < bb then -1 else if ab > bb then 1 else 0)

end Vm
