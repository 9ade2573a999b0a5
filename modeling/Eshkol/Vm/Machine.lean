import Eshkol.Vm.Ops

/-!
# The interpreter loop as a machine

`vm_run` calls itself: an after-thunk or a native function that calls a closure starts a nested
interpreter on the same VM. The machine makes the C stack explicit. A configuration is the VM (or
a native function about to act on it) together with the suspended callers of the running
interpreter, and one step executes one instruction, one action of a native function, or the return
from a nested interpreter.

A loop is given by its handlers and by its limit on instructions; `Vm.Dispatch` has the two loops
of the source.
-/

namespace Vm

variable {H : Host}

/-- One of the two dispatch loops. -/
structure Loop (H : Host) where
  exec : Instr → Exec H (Request H)
  limit : Option ℕ

/-- The registers `vm_call_closure_from_native` saves. -/
structure SavedRegs where
  pc : ℤ
  fp : ℤ
  sp : ℤ
  frameCount : ℕ
  halted : Bool

/-- What the caller of a nested interpreter goes on with. -/
inductive Resume (H : Host) where
  /-- the end of `WIND_POP` -/
  | windPop
  /-- the unwinding loop of a continuation's invocation -/
  | invoke (cont : VmContinuation) (val : Value)
  /-- the unwinding loop of `raise`, down to `target` winds -/
  | raise (target : ℕ)
  | native (k : H.Susp)

/-- A suspended `vm_run` and the call of `vm_call_closure_from_native` it waits in. -/
structure HostFrame (H : Host) where
  saved : SavedRegs
  steps : ℕ
  resume : Resume H

/-- The interpreter is at an instruction, or a native function is about to act. -/
inductive Control (H : Host) where
  | run (vm : VM H)
  | native (act : NativeStep H)

/-- A configuration; `steps` counts the instructions of the running `vm_run`. -/
structure Config (H : Host) where
  control : Control H
  steps : ℕ
  host : List (HostFrame H)

def NativeStep.vm : NativeStep H → VM H
  | .done vm => vm
  | .call _ _ vm _ => vm
  | .raise vm => vm

/-- The VM of a configuration. -/
def Config.vm (c : Config H) : VM H :=
  match c.control with
  | .run vm => vm
  | .native act => act.vm

/-! ## Calling a closure from C -/

/-- The first half of `vm_call_closure_from_native`: it returns at once, or starts an
interpreter. -/
inductive Entered (H : Host) where
  | returned (v : Value) (vm : VM H)
  | running (vm : VM H) (saved : SavedRegs)

def pushAll : List Value → Exec H Unit
  | [] => pure ()
  | v :: vs => do
    push v
    pushAll vs

def VM.savedRegs (vm : VM H) : SavedRegs := ⟨vm.pc, vm.fp, vm.sp, vm.frameCount, vm.halted⟩

/-- Pushes the closure and its arguments and sets up a frame with the sentinel return address. -/
def enterClosure (closure : Value) (args : List Value) (funcPc : ℤ) (vm : VM H) :
    Option (Entered H) := do
  let (_, vm₁) ← pushAll (closure :: args) vm
  if vm₁.frameCount ≥ maxFrames then some (.returned nilVal { vm₁ with sp := vm.sp })
  else some (.running
    { vm₁.withFrame ⟨-1, vm.fp, funcPc⟩ with
      fp := vm₁.sp - args.length
      pc := funcPc
      halted := false }
    vm.savedRegs)

def callClosureFromNative (closure : Value) (args : List Value) (vm : VM H) :
    Option (Entered H) :=
  if closure.type ≠ .closure ∨ closure.ptr < 0 then some (.returned nilVal vm)
  else if closure.ptr ≥ heapSize then none
  else
    match vm.heap[closure.ptr.toNat]? with
    | none => some (.returned nilVal vm)
    | some (.closure funcPc _) => enterClosure closure args funcPc vm
    | some _ => none

/-- The second half: the result, and the VM with its registers restored. -/
def returnFromClosure (saved : SavedRegs) (vm : VM H) : Option (Value × VM H) := do
  let result ← if vm.sp > saved.sp then (stackAt (vm.sp - 1) vm).map Prod.fst else some nilVal
  some (result, { vm with
    pc := saved.pc
    fp := saved.fp
    sp := saved.sp
    frameCount := saved.frameCount
    halted := saved.halted
    error := false })

/-! ## Leaving dynamic extents -/

/-- How far an unwinding loop gets before it ends or has to wait for a thunk. -/
inductive Unwound (H : Host) where
  | finished (vm : VM H)
  | running (vm : VM H) (saved : SavedRegs)

/-- `while (n_winds > target) { n_winds--; call the after-thunk }`, from `n` winds. -/
def unwind (target : ℕ) : ℕ → VM H → Option (Unwound H)
  | 0, vm => some (.finished vm)
  | n + 1, vm =>
    if n + 1 > target then
      let vm := { vm with nWinds := n }
      let after := (vm.windStack n).after
      if after.type = .closure then
        match callClosureFromNative after [] vm with
        | none => none
        | some (.returned _ vm) => unwind target n vm
        | some (.running vm saved) => some (.running vm saved)
      else unwind target n vm
    else some (.finished vm)

/-- The `memcpy`s and assignments that end a continuation's invocation. -/
def VM.restore (vm : VM H) (cont : VmContinuation) : VM H :=
  { vm with
    stack := fun i => if (i : ℤ) < cont.sp then cont.savedStack i else vm.stack i
    frames := fun i => if i < cont.frameCount then cont.savedFrames i else vm.frames i
    sp := cont.sp
    fp := cont.fp
    frameCount := cont.frameCount
    nHandlers := cont.nHandlers
    pc := cont.pc }

def restoreContinuation (cont : VmContinuation) (val : Value) (vm : VM H) : Option (VM H) :=
  if cont.sp > stackSize ∨ cont.frameCount > maxFrames then some { vm with error := true }
  else if cont.sp < 0 then none
  else (push val (vm.restore cont)).map Prod.snd

/-- The end of `raise`: the topmost handler entry that is left gives the registers. -/
def jumpToHandler (vm : VM H) : VM H :=
  let h := vm.handlerStack vm.nHandlers
  { vm with sp := h.sp, fp := h.fp, frameCount := h.frameCount, pc := h.pc }

/-! ## Steps -/

/-- Suspends the running interpreter and starts a nested one. -/
def Config.enter (steps : ℕ) (host : List (HostFrame H)) (resume : Resume H) (vm : VM H)
    (saved : SavedRegs) : Config H :=
  ⟨.run vm, 0, ⟨saved, steps, resume⟩ :: host⟩

/-- The unwinding loop of a continuation's invocation, then the restore. -/
def invokeContinuation (cont : VmContinuation) (val : Value) (steps : ℕ)
    (host : List (HostFrame H)) (vm : VM H) : Option (Config H) :=
  match unwind cont.nWinds vm.nWinds vm with
  | none => none
  | some (.finished vm) => (restoreContinuation cont val vm).map fun vm => ⟨.run vm, steps, host⟩
  | some (.running vm saved) => some (Config.enter steps host (.invoke cont val) vm saved)

/-- The unwinding loop of `raise`, then the jump to the handler. -/
def raiseTo (target : ℕ) (steps : ℕ) (host : List (HostFrame H)) (vm : VM H) :
    Option (Config H) :=
  match unwind target vm.nWinds vm with
  | none => none
  | some (.finished vm) => some ⟨.run (jumpToHandler vm), steps, host⟩
  | some (.running vm saved) => some (Config.enter steps host (.raise target) vm saved)

/-- Native 130. -/
def raise (steps : ℕ) (host : List (HostFrame H)) (vm : VM H) : Option (Config H) := do
  let (exn, vm) ← pop vm
  let vm := { vm with currentException := exn }
  if vm.nHandlers > 0 then
    let vm := { vm with nHandlers := vm.nHandlers - 1 }
    raiseTo (vm.handlerStack vm.nHandlers).nWinds steps host vm
  else some ⟨.run { vm with error := true }, steps, host⟩

/-- Calls the after-thunk of an extent left by `WIND_POP`. -/
def runThunk (after : Value) (steps : ℕ) (host : List (HostFrame H)) (vm : VM H) :
    Option (Config H) :=
  match callClosureFromNative after [] vm with
  | none => none
  | some (.returned _ vm) => some ⟨.run vm, steps, host⟩
  | some (.running vm saved) => some (Config.enter steps host .windPop vm saved)

section step
variable (L : Lib H)

/-- Serves a handler's request. -/
def perform (r : Request H) (steps : ℕ) (host : List (HostFrame H)) (vm : VM H) :
    Option (Config H) :=
  match r with
  | .next => some ⟨.run vm, steps, host⟩
  | .native id => some ⟨.native (L.dispatchNative id vm), steps, host⟩
  | .thunk after => runThunk after steps host vm
  | .invoke cont val => invokeContinuation cont val steps host vm

/-- One action of a native function. -/
def nativeStep (act : NativeStep H) (steps : ℕ) (host : List (HostFrame H)) :
    Option (Config H) :=
  match act with
  | .done vm => some ⟨.run vm, steps, host⟩
  | .raise vm => raise steps host vm
  | .call closure args vm k =>
    match callClosureFromNative closure args vm with
    | none => none
    | some (.returned v vm) => some ⟨.native (L.resumeNative k v vm), steps, host⟩
    | some (.running vm saved) => some (Config.enter steps host (.native k) vm saved)

/-- The return from a nested interpreter to the frame that waits for it. -/
def returnStep (f : HostFrame H) (host : List (HostFrame H)) (vm : VM H) : Option (Config H) := do
  let (result, vm) ← returnFromClosure f.saved vm
  match f.resume with
  | .windPop => some ⟨.run vm, f.steps, host⟩
  | .invoke cont val => invokeContinuation cont val f.steps host vm
  | .raise target => raiseTo target f.steps host vm
  | .native k => some ⟨.native (L.resumeNative k result vm), f.steps, host⟩

/-- The exit condition of the loop. -/
def VM.exited (vm : VM H) : Bool := vm.halted || vm.error || (vm.code.length : ℤ) ≤ vm.pc

/-- Fetches and executes one instruction. -/
def instrStep (lp : Loop H) (vm : VM H) (steps : ℕ) (host : List (HostFrame H)) :
    Option (Config H) :=
  if lp.limit = some steps then some ⟨.run { vm with error := true }, steps + 1, host⟩
  else if vm.pc < 0 then none
  else do
    let instr ← vm.code[vm.pc.toNat]?
    let (r, vm) ← lp.exec instr { vm with pc := vm.pc + 1 }
    perform L r (steps + 1) host vm

/-- One step of the machine. When the outermost interpreter has exited, nothing moves. -/
def Config.step (lp : Loop H) (c : Config H) : Option (Config H) :=
  match c.control with
  | .native act => nativeStep L act c.steps c.host
  | .run vm =>
    if vm.exited then
      match c.host with
      | [] => some c
      | f :: host => returnStep L f host vm
    else instrStep L lp vm c.steps c.host

/-- The start of `vm_run` on `vm`. -/
def Config.start (vm : VM H) : Config H := ⟨.run vm, 0, []⟩

end step

end Vm
