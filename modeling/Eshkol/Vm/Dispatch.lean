import Eshkol.Base.PartialState
import Eshkol.Vm.Machine

/-!
# The two dispatch loops

`vm_run.c` has the interpreter twice: a computed-goto loop for GCC and Clang, and a `switch` loop
for other compilers. Here are the handlers in which the two differ, each as its loop has it, the
two tables, and how far the loops agree.
-/

namespace Vm

open PartialRun PartialState

variable {H : Host} (L : Lib H)

/-! ## The computed-goto loop -/

namespace Goto

def opNeg : Exec H (Request H) := do
  let a ← pop
  if a.type = .hyperDual then do
    push a
    pure (.native 1909)
  else if a.type = .dual then do
    push a
    pure (.native 384)
  else negAbs L (fun n => -n) L.doubles.neg a

def opAbs : Exec H (Request H) := do
  let a ← pop
  if a.type = .hyperDual then do
    push a
    pure (.native 1916)
  else if a.type = .dual then do
    push a
    pure (.native 383)
  else negAbs L (fun n => |n|) L.doubles.fabs a

def opGetLocal (operand : ℤ) : Exec H (Request H) := do
  let vm ← get
  let src := vm.fp + operand
  if src < 0 ∨ src ≥ stackSize then fail
  else do
    let v ← stackAt src
    pushNext v

def opSetLocal (operand : ℤ) : Exec H (Request H) := do
  let vm ← get
  let dst := vm.fp + operand
  if dst < 0 ∨ dst ≥ stackSize then fail
  else do
    let v ← peek 0
    setStackAt dst v
    opPop

/-- `CALL` and `TAIL_CALL` on a continuation; a `NULL` continuation is not a closure either. -/
def invokeOr (func : Value) (argc : ℤ) (call : Exec H (Request H)) : Exec H (Request H) := do
  if func.type = .continuation ∧ argc ≥ 1 then do
    let vm ← get
    let val ← stackAt (vm.sp - 1)
    match ← continuationAt func.ptr with
    | some cont => pure (.invoke cont val)
    | none => fail
  else if func.type ≠ .closure then fail
  else call

def opCall (argc : ℤ) : Exec H (Request H) := do
  let vm ← get
  let func ← stackAt (vm.sp - 1 - argc)
  invokeOr func argc (callClosure func argc)

def opTailCall (argc : ℤ) : Exec H (Request H) := do
  let vm ← get
  let func ← stackAt (vm.sp - 1 - argc)
  invokeOr func argc (tailCallClosure func argc)

def opCallcc : Exec H (Request H) := do
  let proc ← pop
  if proc.type ≠ .closure then pushNext nilVal
  else do
    let vm ← get
    if vm.sp > stackSize ∨ vm.frameCount > maxFrames then fail
    else captureAndCall L proc

def opPackRest (nFixed : ℤ) : Exec H (Request H) := do
  let vm ← get
  let (list, full) ← packRest L (vm.fp + nFixed) (vm.sp - vm.fp - nFixed).toNat nilVal
  if full then next
  else do
    setSp (vm.fp + nFixed)
    pushNext list

def opWindPush : Exec H (Request H) := do
  let after ← pop
  let before ← pop
  let vm ← get
  if vm.nWinds ≥ maxWinds then fail
  else pushWind before after

def exec (instr : Instr) : Exec H (Request H) :=
  match instr.op with
  | .nop => next
  | .const => opConst instr.operand
  | .nil => pushNext nilVal
  | .true => pushNext (boolVal true)
  | .false => pushNext (boolVal false)
  | .pop => opPop
  | .dup => opDup
  | .add => opAdd L
  | .sub => opSub L
  | .mul => opMul L
  | .div => opDiv L
  | .mod => opMod L
  | .neg => opNeg L
  | .abs => opAbs L
  | .eq => compare L (asNumberVm L) cmpEq
  | .lt => compare L (asNumberVm L) cmpLt
  | .gt => compare L (asNumberVm L) cmpGt
  | .le => compare L (asNumberVm L) cmpLe
  | .ge => compare L (asNumberVm L) cmpGe
  | .not => opNot
  | .getLocal => opGetLocal instr.operand
  | .setLocal => opSetLocal instr.operand
  | .getUpvalue => opGetUpvalue instr.operand
  | .setUpvalue => opSetUpvalue instr.operand
  | .closure => opClosure L instr.operand
  | .call => opCall instr.operand
  | .tailCall => opTailCall instr.operand
  | .return => opReturn
  | .jump => opJump instr.operand
  | .jumpIfFalse => opJumpIfFalse instr.operand
  | .loop => opJump instr.operand
  | .cons => opCons L
  | .car => opCar
  | .cdr => opCdr
  | .nullP => typeTest (· = .nil)
  | .print => opPrint L
  | .halt => opHalt
  | .nativeCall => pure (.native instr.operand)
  | .closeUpvalue => opCloseUpvalue instr.operand
  | .vecCreate => opVecCreate L instr.operand
  | .vecRef => opVecRef L
  | .vecSet => opVecSet L
  | .vecLen => opVecLen
  | .strRef => opStrRef L
  | .strLen => opStrLen
  | .pairP => typeTest (· = .pair)
  | .numP => typeTest fun t => t = .int || t = .float
  | .strP => typeTest (· = .string)
  | .boolP => typeTest (· = .bool)
  | .procP => typeTest (· = .closure)
  | .vecP => typeTest (· = .vector)
  | .setCar => opSetCar
  | .setCdr => opSetCdr
  | .popn => opPopn instr.operand
  | .openClosure => next
  | .callcc => opCallcc L
  | .invokeCc => opInvokeCc
  | .pushHandler => opPushHandler instr.operand
  | .popHandler => opPopHandler
  | .getExn => opGetExn
  | .packRest => opPackRest L instr.operand
  | .windPush => opWindPush
  | .windPop => opWindPop
  | .void => pushNext voidVal

end Goto

def gotoLoop : Loop H := ⟨Goto.exec L, none⟩

/-! ## The switch loop -/

namespace Switch

def opNeg : Exec H (Request H) := do
  let a ← pop
  negAbs L (fun n => -n) L.doubles.neg a

def opAbs : Exec H (Request H) := do
  let a ← pop
  negAbs L (fun n => |n|) L.doubles.fabs a

def opGetLocal (operand : ℤ) : Exec H (Request H) := do
  let vm ← get
  let v ← stackAt (vm.fp + operand)
  pushNext v

def opSetLocal (operand : ℤ) : Exec H (Request H) := do
  let vm ← get
  let v ← peek 0
  setStackAt (vm.fp + operand) v
  opPop

/-- `CALL`: a `NULL` continuation is passed over. -/
def opCall (argc : ℤ) : Exec H (Request H) := do
  let vm ← get
  let func ← stackAt (vm.sp - 1 - argc)
  if func.type = .continuation ∧ argc ≥ 1 then do
    let val ← stackAt (vm.sp - 1)
    match ← continuationAt func.ptr with
    | some cont => pure (.invoke cont val)
    | none => next
  else if func.type ≠ .closure then fail
  else callClosure func argc

/-- `TAIL_CALL` knows closures only. -/
def opTailCall (argc : ℤ) : Exec H (Request H) := do
  let vm ← get
  let func ← stackAt (vm.sp - 1 - argc)
  if func.type ≠ .closure then fail
  else tailCallClosure func argc

/-- `CALLCC` without a look at the bounds: beyond them the copies leave the arrays. -/
def opCallcc : Exec H (Request H) := do
  let proc ← pop
  if proc.type ≠ .closure then pushNext nilVal
  else do
    let vm ← get
    if vm.sp > stackSize ∨ vm.frameCount > maxFrames then undefinedBehaviour
    else captureAndCall L proc

/-- `PACK_REST`: on a full heap `break` leaves the inner loop only. -/
def opPackRest (nFixed : ℤ) : Exec H (Request H) := do
  let vm ← get
  let (list, _) ← packRest L (vm.fp + nFixed) (vm.sp - vm.fp - nFixed).toNat nilVal
  setSp (vm.fp + nFixed)
  pushNext list

/-- `WIND_PUSH`: on a full wind stack the extent is dropped. -/
def opWindPush : Exec H (Request H) := do
  let after ← pop
  let before ← pop
  let vm ← get
  if vm.nWinds < maxWinds then pushWind before after
  else next

def exec (instr : Instr) : Exec H (Request H) :=
  match instr.op with
  | .nop => next
  | .const => opConst instr.operand
  | .nil => pushNext nilVal
  | .true => pushNext (boolVal true)
  | .false => pushNext (boolVal false)
  | .pop => opPop
  | .dup => opDup
  | .add => opAdd L
  | .sub => opSub L
  | .mul => opMul L
  | .div => opDiv L
  | .mod => opMod L
  | .neg => opNeg L
  | .abs => opAbs L
  | .eq => compare L (fun v => pure (L.doubles.asNumber v)) cmpEq
  | .lt => compare L (fun v => pure (L.doubles.asNumber v)) cmpLt
  | .gt => compare L (fun v => pure (L.doubles.asNumber v)) cmpGt
  | .le => compare L (fun v => pure (L.doubles.asNumber v)) cmpLe
  | .ge => compare L (fun v => pure (L.doubles.asNumber v)) cmpGe
  | .not => opNot
  | .getLocal => opGetLocal instr.operand
  | .setLocal => opSetLocal instr.operand
  | .getUpvalue => opGetUpvalue instr.operand
  | .setUpvalue => opSetUpvalue instr.operand
  | .closure => opClosure L instr.operand
  | .call => opCall instr.operand
  | .tailCall => opTailCall instr.operand
  | .return => opReturn
  | .jump => opJump instr.operand
  | .jumpIfFalse => opJumpIfFalse instr.operand
  | .loop => opJump instr.operand
  | .cons => opCons L
  | .car => opCar
  | .cdr => opCdr
  | .nullP => typeTest (· = .nil)
  | .print => opPrint L
  | .halt => opHalt
  | .nativeCall => pure (.native instr.operand)
  | .closeUpvalue => opCloseUpvalue instr.operand
  | .vecCreate => opVecCreate L instr.operand
  | .vecRef => opVecRef L
  | .vecSet => opVecSet L
  | .vecLen => opVecLen
  | .strRef => opStrRef L
  | .strLen => opStrLen
  | .pairP => typeTest (· = .pair)
  | .numP => typeTest fun t => t = .int || t = .float
  | .strP => typeTest (· = .string)
  | .boolP => typeTest (· = .bool)
  | .procP => typeTest (· = .closure)
  | .vecP => typeTest (· = .vector)
  | .setCar => opSetCar
  | .setCdr => opSetCdr
  | .popn => opPopn instr.operand
  | .openClosure => next
  | .callcc => opCallcc L
  | .invokeCc => opInvokeCc
  | .pushHandler => opPushHandler instr.operand
  | .popHandler => opPopHandler
  | .getExn => opGetExn
  | .packRest => opPackRest L instr.operand
  | .windPush => opWindPush
  | .windPop => opWindPop
  | .void => pushNext voidVal

end Switch

/-- The value `vm_pop` would return after `k` pops. -/
def VM.operandAt (vm : VM H) (k : ℕ) : Value :=
  if vm.sp - k ≤ 0 then nilVal else vm.stack (vm.sp - k - 1).toNat

/-- Whatever `n` further objects are put on the heap, each of them gets its memory. -/
def HasRoom (L : Lib H) (heap : List (HeapObject H)) (n : ℕ) : Prop :=
  ∀ heap', heap.length ≤ heap'.length → heap'.length < heap.length + n →
    heap'.length < heapSize ∧ L.arenaAlloc heap' .object = true

section handlers
variable {L} {vm : VM H}

lemma pop_eq (vm : VM H) : pop vm =
    if vm.sp ≤ 0 then some (nilVal, { vm with error := true })
    else (stackAt (vm.sp - 1) { vm with sp := vm.sp - 1 }) := by
  unfold pop
  show (if vm.sp ≤ 0 then _ else _ : Exec H Value) vm = _
  split <;> rfl

/-- What a pop that succeeds returns, and the fields it leaves alone. -/
lemma pop_spec {v : Value} {vm' : VM H} (h : pop vm = some (v, vm')) :
    v = vm.operandAt 0 ∧ vm'.operandAt 0 = vm.operandAt 1 ∧ vm'.sp ≤ max vm.sp 0 ∧
      vm'.nWinds = vm.nWinds ∧ vm'.frameCount = vm.frameCount := by
  rw [pop_eq] at h
  split at h
  · rename_i hsp
    cases h
    have hnil : ∀ k : ℕ, vm.operandAt k = nilVal := fun k => if_pos (by omega)
    exact ⟨(hnil 0).symm, (hnil 0).trans (hnil 1).symm, le_max_left _ _, rfl, rfl⟩
  · rename_i hsp
    unfold stackAt at h
    split at h
    · cases h
      refine ⟨?_, ?_, le_max_of_le_left (by simp), rfl, rfl⟩
      · unfold VM.operandAt
        rw [if_neg (by omega)]
        simp
      · unfold VM.operandAt
        simp
    · cases h

lemma stackAt_spec {i : ℤ} {v : Value} {vm' : VM H} (h : stackAt i vm = some (v, vm')) :
    v = vm.stack i.toNat ∧ vm' = vm := by
  unfold stackAt at h
  split at h
  · cases h
    exact ⟨rfl, rfl⟩
  · cases h

end handlers

end Vm
