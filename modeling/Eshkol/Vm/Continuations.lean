import Eshkol.Vm.DynamicState

/-!
# Continuations

`CALLCC` copies the value stack and the frames, and keeps the handler stack and the wind stack by
their counts only. This file says when the invocation of a continuation nevertheless resumes with
the four stacks of the capture: when none of the extents and handlers of the capture was left in
between.
-/

namespace Vm

open PartialRun PartialState

variable {H : Host} {L : Lib H}

/-! ## Capture -/

/-- `c` is about to execute `CALLCC` on a procedure. -/
def Captures (c : Config H) (vm : VM H) : Prop :=
  c.control = .run vm ∧ vm.exited = false ∧
    (∃ operand, vm.code[vm.pc.toNat]? = some ⟨.callcc, operand⟩) ∧
    (vm.operandAt 0).type = .closure

/-- The VM at the moment of capture: the procedure was popped and the next instruction is the
return address. -/
def VM.captured (vm : VM H) : VM H := { vm with pc := vm.pc + 1, sp := vm.sp - 1 }

/-- `vm` has the continuation captured at `vmc` as its object `p`, and still has the handlers and
winds of `vmc`. -/
structure Captured (vmc : VM H) (p : ℕ) (vm : VM H) : Prop where
  object : vm.heap[p]? = some (.continuation vmc.capture)
  handlers : ∀ i < vmc.nHandlers, vm.handlerStack i = vmc.handlerStack i
  winds : ∀ i < vmc.nWinds, vm.windStack i = vmc.windStack i

section capture
variable {s t : VM H}

/-- A push that sets no error has pushed. -/
lemma push_of_error {v : Value} {u : Unit} (h : push v s = some (u, t)) (herr : t.error = false) :
    s.error = false ∧ 0 ≤ s.sp ∧ s.sp < stackSize ∧ t.sp = s.sp + 1 := by
  unfold push at h
  rw [get_bind_apply] at h
  split at h
  · cases h
    cases herr
  · rename_i hlt
    obtain ⟨_, s₁, h₁, h₂⟩ := bind_eq_some h
    unfold setStackAt at h₁
    split at h₁
    · rename_i hroom
      cases h₁
      cases h₂
      exact ⟨herr, hroom.1, hroom.2, rfl⟩
    · cases h₁

lemma callClosure_spec {func : Value} {argc : ℤ} {r : Request H}
    (h : callClosure func argc s = some (r, t)) : r = .next ∧ (t.error = false → s.error = false) := by
  obtain ⟨funcPc, s₁, hfunc, hcall⟩ := bind_eq_some h
  obtain ⟨o, s₂, hread, hpc⟩ := bind_eq_some hfunc
  obtain ⟨hs, -⟩ := heapAt_spec hread
  rw [hs] at hpc
  cases o with
  | closure funcPc' upvalues =>
    cases hpc
    rw [get_bind_apply] at hcall
    split at hcall
    · cases hcall
      exact ⟨rfl, fun herr => by cases herr⟩
    · cases hcall
      exact ⟨rfl, fun herr => herr⟩
  | _ => cases hpc

/-- `CALLCC` that sets no error stores the VM of the moment of capture. -/
lemma captureAndCall_spec {proc : Value} {r : Request H}
    (h : captureAndCall L proc s = some (r, t)) :
    r = .next ∧ (t.error = false →
      t.heap[s.heap.length]? = some (.continuation s.capture) ∧ 0 ≤ s.sp ∧ s.sp + 1 < stackSize) := by
  obtain ⟨p, s₁, halloc, hrest⟩ := bind_eq_some h
  unfold heapAlloc at halloc
  rw [get_bind_apply] at halloc
  have hfail : ∀ u : VM H, fail u = some (r, t) → r = .next ∧ t.error = true := by
    intro u hu
    cases hu
    exact ⟨rfl, rfl⟩
  split at halloc
  · cases halloc
    obtain ⟨hr, herr⟩ := hfail _ hrest
    exact ⟨hr, fun hok => by rw [herr] at hok; cases hok⟩
  · split at halloc
    · cases halloc
      simp only [get_bind_apply] at hrest
      split at hrest
      · obtain ⟨hr, herr⟩ := hfail _ hrest
        exact ⟨hr, fun hok => by rw [herr] at hok; cases hok⟩
      · obtain ⟨_, s₂, hset, hrest₂⟩ := bind_eq_some hrest
        obtain ⟨_, s₃, hproc, hrest₃⟩ := bind_eq_some hrest₂
        obtain ⟨_, s₄, hcont, hcall⟩ := bind_eq_some hrest₃
        obtain ⟨hr, hcallErr⟩ := callClosure_spec hcall
        refine ⟨hr, fun hok => ?_⟩
        obtain ⟨herr₃, hpos₃, hlt₃, -⟩ := push_of_error hcont (hcallErr hok)
        obtain ⟨herr₂, hpos₂, hlt₂, hsp₂⟩ := push_of_error hproc herr₃
        have hkept : Untouched s₂ t := ((Moves.moves (R := Untouched) hproc).trans
          (Moves.moves hcont)).trans (Moves.moves hcall)
        cases hset
        have hsp : s₃.sp = s.sp + 1 := hsp₂
        refine ⟨hkept.continuations _ _ ?_, hpos₂, by omega⟩
        show ((s.heap ++ [HeapObject.empty]).set s.heap.length _)[s.heap.length]? = _
        rw [List.getElem?_set_self (by simp)]
        rfl
    · cases halloc
      obtain ⟨hr, herr⟩ := hfail _ hrest
      exact ⟨hr, fun hok => by rw [herr] at hok; cases hok⟩

/-- The step at `CALLCC`. -/
lemma step_captures {c c' : Config H} {vm : VM H} (h : Captures c vm)
    (hstep : c.step L (gotoLoop L) = some c') (herr : c'.vm.error = false) :
    Captured vm.captured vm.heap.length c'.vm ∧ 0 ≤ vm.captured.sp ∧
      vm.captured.sp < stackSize ∧ vm.captured.frameCount ≤ maxFrames := by
  obtain ⟨hcontrol, hrun, ⟨operand, hfetch⟩, hproc⟩ := h
  obtain ⟨-, instr, r, s', hfetch', hexec, hperform⟩ := step_exec hcontrol hrun hstep
  rw [hfetch] at hfetch'
  cases hfetch'
  replace hexec : Goto.opCallcc L { vm with pc := vm.pc + 1 } = some (r, s') := hexec
  obtain ⟨proc, s₁, hpop, hrest⟩ := bind_eq_some hexec
  have hval : proc = vm.operandAt 0 := (pop_spec hpop).1
  -- a procedure was on the stack, so the pop went through
  have hpos : 0 < vm.sp := by
    by_contra hle
    rw [show vm.operandAt 0 = nilVal from if_pos (by omega)] at hproc
    cases hproc
  have hs₁ : s₁ = vm.captured := by
    rw [pop_eq, if_neg (by show ¬ vm.sp ≤ 0; omega)] at hpop
    exact (stackAt_spec hpop).2
  rw [if_neg (by rw [hval]; simp [hproc]), get_bind_apply, hs₁] at hrest
  have hnext : ∀ s : VM H, perform L .next (c.steps + 1) c.host s = some c' → c'.vm = s := by
    intro s hs
    cases hs
    rfl
  split at hrest
  · cases hrest
    rw [hnext _ hperform] at herr
    cases herr
  · rename_i hbound
    have huntouched : Untouched vm.captured s' := Moves.moves hrest
    obtain ⟨hr, hspec⟩ := captureAndCall_spec hrest
    subst hr
    rw [hnext _ hperform] at herr ⊢
    obtain ⟨hobj, hsp, hroom⟩ := hspec herr
    refine ⟨⟨hobj, fun i _ => ?_, fun i _ => ?_⟩, hsp, by omega, by omega⟩
    · rw [huntouched.handlerStack]
    · rw [huntouched.windStack]

/-- Until a handler or an extent of the capture is left, the VM keeps what was captured. -/
lemma Captured.step {vmc : VM H} {p : ℕ} {c c' : Config H} (hL : NativesKeep L)
    (h : Captured vmc p c.vm) (hhandlers : vmc.nHandlers ≤ c.vm.nHandlers)
    (hwinds : vmc.nWinds ≤ c.vm.nWinds) (hstep : c.step L (gotoLoop L) = some c') :
    Captured vmc p c'.vm := by
  have hkept := step_keptBelow hL hstep
  refine ⟨hkept.continuations _ _ h.object, fun i hi => ?_, fun i hi => ?_⟩
  · rw [hkept.handlers i (by omega), h.handlers i hi]
  · rw [hkept.winds i (by omega), h.winds i hi]

end capture

/-! ## Invocation -/

/-- The value that is called. -/
def callee (instr : Instr) (vm : VM H) : Value :=
  if instr.op = .invokeCc then vm.operandAt 1 else vm.stack (vm.sp - 1 - instr.operand).toNat

/-- `c` is about to invoke the continuation object `p` with `val`; `t` is the VM after the operands
were read. -/
def Invokes (L : Lib H) (c : Config H) (p : ℕ) (val : Value) (t : VM H) : Prop :=
  ∃ vm instr cont, c.control = .run vm ∧ vm.exited = false ∧
    vm.code[vm.pc.toNat]? = some instr ∧
    (instr.op = .call ∨ instr.op = .tailCall ∨ instr.op = .invokeCc) ∧
    (callee instr vm).ptr = p ∧
    Goto.exec L instr { vm with pc := vm.pc + 1 } = some (.invoke cont val, t)

section invoke
variable {s t : VM H} {cont : VmContinuation} {val : Value}

lemma pop_heap {v : Value} (h : pop s = some (v, t)) : t.heap = s.heap := by
  rw [pop_eq] at h
  split at h
  · cases h
    rfl
  · rw [(stackAt_spec h).2]

/-- The object behind a continuation that is not `NULL`. -/
lemma continuationAt_object {ptr : ℤ} (h : continuationAt ptr s = some (some cont, t)) :
    t = s ∧ s.heap[ptr.toNat]? = some (.continuation cont) := by
  obtain ⟨o, s₁, hread, hrest⟩ := bind_eq_some h
  obtain ⟨hs, hp⟩ := heapAt_spec hread
  rw [hs] at hrest
  cases o with
  | continuation k =>
    cases hrest
    exact ⟨rfl, hp⟩
  | empty => cases hrest
  | _ => cases hrest

/-- `CALL` and `TAIL_CALL` invoke the continuation they were called on. -/
lemma invokeOr_spec {func : Value} {argc : ℤ} {call : Exec H (Request H)}
    (hcall : ∀ r u, call s = some (r, u) → r = .next)
    (h : Goto.invokeOr func argc call s = some (.invoke cont val, t)) :
    s.heap[func.ptr.toNat]? = some (.continuation cont) := by
  unfold Goto.invokeOr at h
  split at h
  · rw [get_bind_apply] at h
    obtain ⟨v, s₁, hval, hrest⟩ := bind_eq_some h
    obtain ⟨o, s₂, hcont, hfin⟩ := bind_eq_some hrest
    rw [(stackAt_spec hval).2] at hcont
    cases o with
    | none => cases hfin
    | some k =>
      cases hfin
      exact (continuationAt_object hcont).2
  · split at h
    · cases h
    · cases hcall _ _ h

lemma tailCallClosure_spec {func : Value} {argc : ℤ} {r : Request H}
    (h : tailCallClosure func argc s = some (r, t)) : r = .next := by
  obtain ⟨_, _, -, h₁⟩ := bind_eq_some h
  obtain ⟨_, _, -, h₂⟩ := bind_eq_some h₁
  obtain ⟨_, _, -, h₃⟩ := bind_eq_some h₂
  obtain ⟨_, _, -, h₄⟩ := bind_eq_some h₃
  obtain ⟨_, _, -, h₅⟩ := bind_eq_some h₄
  cases h₅
  rfl

/-- The continuation that is invoked is the object behind the callee. -/
lemma exec_invoke {instr : Instr}
    (hop : instr.op = .call ∨ instr.op = .tailCall ∨ instr.op = .invokeCc)
    (h : Goto.exec L instr s = some (.invoke cont val, t)) :
    s.heap[(callee instr s).ptr.toNat]? = some (.continuation cont) ∧ Untouched s t := by
  rcases instr with ⟨op, argc⟩
  simp only at hop
  rcases hop with rfl | rfl | rfl
  · replace h : Goto.opCall argc s = some (.invoke cont val, t) := h
    refine ⟨?_, Moves.moves h⟩
    unfold Goto.opCall at h
    rw [get_bind_apply] at h
    obtain ⟨func, s₁, hfunc, hrest⟩ := bind_eq_some h
    obtain ⟨hval, hs⟩ := stackAt_spec hfunc
    rw [hs] at hrest
    rw [show callee ⟨.call, argc⟩ s = func from hval.symm]
    exact invokeOr_spec (fun r u hu => (callClosure_spec hu).1) hrest
  · replace h : Goto.opTailCall argc s = some (.invoke cont val, t) := h
    refine ⟨?_, Moves.moves h⟩
    unfold Goto.opTailCall at h
    rw [get_bind_apply] at h
    obtain ⟨func, s₁, hfunc, hrest⟩ := bind_eq_some h
    obtain ⟨hval, hs⟩ := stackAt_spec hfunc
    rw [hs] at hrest
    rw [show callee ⟨.tailCall, argc⟩ s = func from hval.symm]
    exact invokeOr_spec (fun r u hu => tailCallClosure_spec hu) hrest
  · replace h : opInvokeCc s = some (.invoke cont val, t) := h
    refine ⟨?_, Moves.moves h⟩
    obtain ⟨v, s₁, hval, hrest⟩ := bind_eq_some h
    obtain ⟨k, s₂, hk, hinvoke⟩ := bind_eq_some hrest
    have hcallee : k = s.operandAt 1 := by rw [(pop_spec hk).1, (pop_spec hval).2.1]
    split at hinvoke
    · obtain ⟨o, s₃, hcont, hfin⟩ := bind_eq_some hinvoke
      cases o with
      | none => cases hfin
      | some k' =>
        cases hfin
        rw [show callee ⟨.invokeCc, argc⟩ s = k from hcallee.symm]
        have hheap : s₂.heap = s.heap := by rw [pop_heap hk, pop_heap hval]
        rw [← hheap]
        exact (continuationAt_object hcont).2
    · cases hinvoke

end invoke

/-! ## Leaving the extents -/

/-- A call of `after` from C starts an interpreter. -/
def VM.CanStart (vm : VM H) (after : Value) : Prop :=
  after.type = .closure ∧ 0 ≤ after.ptr ∧ after.ptr < heapSize ∧
    (∃ funcPc upvalues, vm.heap[after.ptr.toNat]? = some (.closure funcPc upvalues)) ∧
    vm.frameCount < maxFrames ∧ 0 ≤ vm.sp ∧ vm.sp < stackSize

/-- The closure that the running interpreter was started on. -/
def Config.calledThunk (c : Config H) : Value := c.vm.stack (c.vm.fp - 1).toNat

/-- The innermost interpreter has left its loop. -/
def Config.returning (c : Config H) : Bool :=
  match c.control with
  | .run vm => vm.exited
  | .native _ => false

/-- The after-thunk that the step from `c` to `c'` starts for an invocation made with `depth`
suspended callers. -/
def startedThunk (depth : ℕ) (c c' : Config H) : List Value :=
  if c'.host.length = depth + 1 ∧
      (c.host.length = depth ∨ c.host.length = depth + 1 ∧ c.returning = true) then
    [c'.calledThunk]
  else []

/-- The machine, with a record of the after-thunks started so far. -/
def tracedStep (L : Lib H) (depth : ℕ) (g : Config H × List Value) :
    Option (Config H × List Value) :=
  (g.1.step L (gotoLoop L)).map fun c' => (c', g.2 ++ startedThunk depth g.1 c')

/-- The after-thunks of the `q` innermost extents, innermost first. -/
def VM.afters (vm : VM H) (q : ℕ) : List Value :=
  (List.range q).map fun i => (vm.windStack (vm.nWinds - 1 - i)).after

section unwind
variable {s : VM H} {cont : VmContinuation} {val : Value}

lemma push_eq_of_room (v : Value) (hpos : 0 ≤ s.sp) (hlt : s.sp < stackSize) :
    push v s = some ((), { s.withSlot s.sp v with sp := s.sp + 1 }) := by
  unfold push
  rw [get_bind_apply, if_neg (by omega), bind_apply]
  unfold setStackAt
  rw [if_pos ⟨hpos, hlt⟩]
  rfl

lemma callClosureFromNative_start {after : Value} (h : s.CanStart after) :
    ∃ t saved, callClosureFromNative after [] s = some (.running t saved) ∧
      t.stack (t.fp - 1).toNat = after ∧ t.nWinds = s.nWinds := by
  obtain ⟨htype, hptr, hsize, ⟨funcPc, upvalues, hobj⟩, hframes, hpos, hlt⟩ := h
  unfold callClosureFromNative
  rw [if_neg (by simp [htype, hptr]), if_neg (by omega), hobj]
  simp only
  unfold enterClosure
  have hpush : pushAll [after] s = some ((), { s.withSlot s.sp after with sp := s.sp + 1 }) := by
    unfold pushAll
    rw [bind_apply, push_eq_of_room after hpos hlt]
    rfl
  rw [hpush, Option.bind_eq_bind, Option.bind_some]
  simp only
  rw [if_neg (by show ¬ s.frameCount ≥ maxFrames; omega)]
  refine ⟨_, _, rfl, ?_, rfl⟩
  show (if (((s.sp + 1 - ((0 : ℕ) : ℤ) - 1).toNat : ℕ) : ℤ) = s.sp then after else _) = after
  rw [if_pos (by omega)]

/-- The unwinding loop with an extent to leave starts the thunk of the innermost one. -/
lemma invokeContinuation_start (cont : VmContinuation) (val : Value) (steps : ℕ)
    (host : List (HostFrame H)) {k : ℕ} (hk : s.nWinds = k + 1)
    (hlt : cont.nWinds < k + 1) (hstart : s.CanStart (s.windStack k).after) :
    ∃ c saved, invokeContinuation cont val steps host s = some c ∧
      c.host = ⟨saved, steps, .invoke cont val⟩ :: host ∧
      c.calledThunk = (s.windStack k).after := by
  have hstart' : ({ s with nWinds := k } : VM H).CanStart (s.windStack k).after := hstart
  obtain ⟨t, saved, hcall, hslot, -⟩ := callClosureFromNative_start hstart'
  unfold invokeContinuation
  have hunwind : unwind cont.nWinds s.nWinds s = some (.running t saved) := by
    rw [hk]
    unfold unwind
    rw [if_pos hlt]
    simp only [hstart.1, if_true, hcall]
  rw [hunwind]
  exact ⟨_, saved, rfl, rfl, hslot⟩

/-- The unwinding loop with no extent to leave restores at once. -/
lemma invokeContinuation_finish {steps : ℕ} {host : List (HostFrame H)} {c : Config H}
    (hle : s.nWinds ≤ cont.nWinds) (h : invokeContinuation cont val steps host s = some c) :
    ∃ t, restoreContinuation cont val s = some t ∧ c = ⟨.run t, steps, host⟩ := by
  have hunwind : unwind cont.nWinds s.nWinds s = some (.finished s) := by
    cases hn : s.nWinds with
    | zero => rfl
    | succ k =>
      unfold unwind
      rw [if_neg (by omega)]
  unfold invokeContinuation at h
  rw [hunwind] at h
  obtain ⟨t, ht, rfl⟩ := Option.map_eq_some_iff.1 h
  exact ⟨t, ht, rfl⟩

end unwind

/-! ## The suspended callers -/

/-- `c` runs on top of `host`, or of one more caller. -/
def OnTopOf (host : List (HostFrame H)) (c : Config H) : Prop :=
  c.host = host ∨ ∃ f, c.host = f :: host

section host
variable {s : VM H} {steps : ℕ} {host : List (HostFrame H)} {c c' : Config H}

lemma invokeContinuation_host {cont : VmContinuation} {val : Value}
    (h : invokeContinuation cont val steps host s = some c) : OnTopOf host c := by
  unfold invokeContinuation at h
  split at h
  · cases h
  · obtain ⟨t, -, rfl⟩ := Option.map_eq_some_iff.1 h
    exact .inl rfl
  · cases h
    exact .inr ⟨_, rfl⟩

lemma raiseTo_host {target : ℕ} (h : raiseTo target steps host s = some c) : OnTopOf host c := by
  unfold raiseTo at h
  split at h
  · cases h
  · cases h
    exact .inl rfl
  · cases h
    exact .inr ⟨_, rfl⟩

lemma raise_host (h : raise steps host s = some c) : OnTopOf host c := by
  unfold raise at h
  obtain ⟨⟨exn, s₁⟩, -, hrest⟩ := Option.bind_eq_some_iff.1 h
  simp only at hrest
  split at hrest
  · exact raiseTo_host hrest
  · cases hrest
    exact .inl rfl

lemma runThunk_host {after : Value} (h : runThunk after steps host s = some c) :
    OnTopOf host c := by
  unfold runThunk at h
  split at h
  · cases h
  · cases h
    exact .inl rfl
  · cases h
    exact .inr ⟨_, rfl⟩

lemma perform_host {r : Request H} (h : perform L r steps host s = some c) : OnTopOf host c := by
  cases r with
  | next =>
    cases h
    exact .inl rfl
  | native id =>
    cases h
    exact .inl rfl
  | thunk after => exact runThunk_host h
  | invoke cont val => exact invokeContinuation_host h

lemma nativeStep_host {act : NativeStep H} (h : nativeStep L act steps host = some c) :
    OnTopOf host c := by
  cases act with
  | done vm =>
    cases h
    exact .inl rfl
  | raise vm => exact raise_host h
  | call closure args vm k =>
    unfold nativeStep at h
    simp only at h
    split at h
    · cases h
    · cases h
      exact .inl rfl
    · cases h
      exact .inr ⟨_, rfl⟩

lemma returnStep_host {f : HostFrame H} (h : returnStep L f host s = some c) :
    OnTopOf host c := by
  unfold returnStep at h
  obtain ⟨⟨v, s₁⟩, -, hrest⟩ := Option.bind_eq_some_iff.1 h
  simp only at hrest
  split at hrest
  · cases hrest
    exact .inl rfl
  · exact invokeContinuation_host hrest
  · exact raiseTo_host hrest
  · cases hrest
    exact .inl rfl

/-- With a caller suspended, a step returns to it when the interpreter has left its loop, and keeps
it otherwise. -/
lemma step_host {f : HostFrame H} (hhost : c.host = f :: host)
    (h : c.step L (gotoLoop L) = some c') :
    (c.returning = true ∧ returnStep L f host c.vm = some c') ∨
      (c.returning = false ∧ OnTopOf (f :: host) c') := by
  rcases c with ⟨control, steps, chost⟩
  simp only at hhost
  subst hhost
  cases control with
  | native act => exact .inr ⟨rfl, nativeStep_host h⟩
  | run vm =>
    cases hexit : vm.exited with
    | true =>
      unfold Config.step at h
      simp only [hexit, if_true] at h
      exact .inl ⟨hexit, h⟩
    | false =>
      obtain ⟨-, instr, r, s, -, -, hperform⟩ := step_exec rfl hexit h
      exact .inr ⟨hexit, perform_host hperform⟩

end host

/-! ## The run of an invocation -/

/-- The conditions on a state while the extents are left: no handler and no extent of the capture is
left, the thunk that runs leaves no extent but its own ones, and the next thunk can be called. -/
structure UnwindOk (cont : VmContinuation) (depth : ℕ) (t : VM H) (g : Config H × List Value) :
    Prop where
  handlers : cont.nHandlers ≤ g.1.vm.nHandlers
  winds : t.nWinds - g.2.length ≤ g.1.vm.nWinds
  balanced : g.1.host.length = depth + 1 → g.1.returning = true →
    g.1.vm.nWinds = t.nWinds - g.2.length
  starts : ∀ f host v s, g.1.host = f :: host → host.length = depth →
    returnFromClosure f.saved g.1.vm = some (v, s) → cont.nWinds < s.nWinds →
    s.CanStart (s.windStack (s.nWinds - 1)).after

/-- In the middle of an invocation that has started `g.2.length` thunks. -/
structure Unwinding (cont : VmContinuation) (val : Value) (host : List (HostFrame H)) (t : VM H)
    (g : Config H × List Value) : Prop where
  started : cont.nWinds + g.2.length ≤ t.nWinds
  thunks : g.2 = t.afters g.2.length
  caller : ∃ inner f, g.1.host = inner ++ f :: host ∧ f.resume = .invoke cont val
  handlers : ∀ i < cont.nHandlers, g.1.vm.handlerStack i = t.handlerStack i
  winds : ∀ i < t.nWinds - g.2.length, g.1.vm.windStack i = t.windStack i

/-- The invocation has ended: all thunks were started and the continuation was restored. -/
def Restored (cont : VmContinuation) (val : Value) (host : List (HostFrame H)) (t : VM H)
    (g : Config H × List Value) : Prop :=
  g.2 = t.afters (t.nWinds - cont.nWinds) ∧
    ∃ s u steps, restoreContinuation cont val s = some u ∧ g.1 = ⟨.run u, steps, host⟩ ∧
      s.nWinds = cont.nWinds ∧
      (∀ i < cont.nHandlers, s.handlerStack i = t.handlerStack i) ∧
      ∀ i < cont.nWinds, s.windStack i = t.windStack i

section invocation
variable {cont : VmContinuation} {val : Value} {host : List (HostFrame H)} {t : VM H}

lemma VM.afters_succ (vm : VM H) (q : ℕ) :
    vm.afters (q + 1) = vm.afters q ++ [(vm.windStack (vm.nWinds - 1 - q)).after] := by
  unfold VM.afters
  rw [List.range_succ, List.map_append, List.map_singleton]

@[simp] lemma VM.length_afters (vm : VM H) (q : ℕ) : (vm.afters q).length = q := by
  unfold VM.afters
  rw [List.length_map, List.length_range]

/-- The unwinding loop at the level reached so far. -/
lemma invokeContinuation_unwinds {s : VM H} {steps : ℕ} {c : Config H} {q : ℕ}
    (h : invokeContinuation cont val steps host s = some c) (hq : cont.nWinds + q ≤ t.nWinds)
    (hlevel : s.nWinds = t.nWinds - q)
    (hhandlers : ∀ i < cont.nHandlers, s.handlerStack i = t.handlerStack i)
    (hwinds : ∀ i < t.nWinds - q, s.windStack i = t.windStack i)
    (hstart : cont.nWinds < s.nWinds → s.CanStart (s.windStack (s.nWinds - 1)).after) :
    (c.host.length = host.length + 1 ∧
      Unwinding cont val host t (c, t.afters q ++ [c.calledThunk])) ∨
      (c.host.length = host.length ∧ Restored cont val host t (c, t.afters q)) := by
  by_cases hdone : s.nWinds ≤ cont.nWinds
  · obtain ⟨u, hu, rfl⟩ := invokeContinuation_finish hdone h
    have hall : q = t.nWinds - cont.nWinds := by omega
    refine .inr ⟨rfl, ?_, s, u, steps, hu, rfl, by omega, hhandlers, fun i hi => hwinds i (by omega)⟩
    rw [hall]
  · have hlt : cont.nWinds < s.nWinds := by omega
    obtain ⟨k, hk⟩ : ∃ k, s.nWinds = k + 1 := ⟨s.nWinds - 1, by omega⟩
    have hstart' := hstart hlt
    rw [hk, Nat.add_sub_cancel] at hstart'
    obtain ⟨c', saved, hc', hhost, hthunk⟩ :=
      invokeContinuation_start cont val steps host hk (by omega) hstart'
    rw [h] at hc'
    cases hc'
    have hentries := invokeContinuation_entries h
    have hkth : s.windStack k = t.windStack (t.nWinds - 1 - q) := by
      rw [hwinds k (by omega)]
      congr 1
      omega
    have hlen : (t.afters q ++ [c.calledThunk]).length = q + 1 := by simp
    refine .inl ⟨by rw [hhost]; rfl, ⟨?_, ?_, ⟨[], _, hhost, rfl⟩, ?_, ?_⟩⟩
    · rw [hlen]
      omega
    · rw [hlen, VM.afters_succ, hthunk, hkth]
    · intro i hi
      rw [hentries.handlerStack, hhandlers i hi]
    · intro i hi
      rw [hlen] at hi
      rw [hentries.windStack, hwinds i (by omega)]

/-- Where no thunk of the invocation starts, the entries below the level are kept. -/
lemma Unwinding.keep {g : Config H × List Value} {c' : Config H} (hL : NativesKeep L)
    (h : Unwinding cont val host t g) (hok : UnwindOk cont host.length t g)
    (hstep : g.1.step L (gotoLoop L) = some c')
    (hcaller : ∃ inner f, c'.host = inner ++ f :: host ∧ f.resume = .invoke cont val) :
    Unwinding cont val host t (c', g.2) := by
  have hkept := step_keptBelow hL hstep
  refine ⟨h.started, h.thunks, hcaller, fun i hi => ?_, fun i hi => ?_⟩
  · have hlt : i < g.1.vm.nHandlers := lt_of_lt_of_le hi hok.handlers
    rw [hkept.handlers i hlt, h.handlers i hi]
  · have hlt : i < g.1.vm.nWinds := lt_of_lt_of_le hi hok.winds
    rw [hkept.winds i hlt, h.winds i hi]

/-- A step in the middle of an invocation: inside a thunk, or from one thunk to the next. -/
lemma Unwinding.step {g g' : Config H × List Value} (hL : NativesKeep L)
    (h : Unwinding cont val host t g) (hok : UnwindOk cont host.length t g)
    (hstep : tracedStep L host.length g = some g') :
    Unwinding cont val host t g' ∨ Restored cont val host t g' := by
  obtain ⟨c', hc', rfl⟩ := Option.map_eq_some_iff.1 hstep
  obtain ⟨inner, f, hhost, hresume⟩ := h.caller
  have hnone : ∀ {d : Config H}, ¬ (d.host.length = host.length + 1 ∧
      (g.1.host.length = host.length ∨ g.1.host.length = host.length + 1 ∧ g.1.returning = true)) →
      g.2 ++ startedThunk host.length g.1 d = g.2 := by
    intro d hd
    unfold startedThunk
    rw [if_neg hd, List.append_nil]
  cases inner with
  | cons f' inner =>
    -- a nested interpreter of the thunk
    have hlen : g.1.host.length = inner.length + 1 + (host.length + 1) := by
      rw [hhost]
      simp
      omega
    rw [hnone (by omega)]
    refine .inl (h.keep hL hok hc' ?_)
    rcases step_host hhost hc' with ⟨-, hret⟩ | ⟨-, htop⟩
    · rcases returnStep_host hret with heq | ⟨f'', heq⟩
      · exact ⟨inner, f, heq, hresume⟩
      · exact ⟨f'' :: inner, f, heq, hresume⟩
    · rcases htop with heq | ⟨f'', heq⟩
      · exact ⟨f' :: inner, f, heq, hresume⟩
      · exact ⟨f'' :: f' :: inner, f, heq, hresume⟩
  | nil =>
    have hlen : g.1.host.length = host.length + 1 := by
      rw [hhost]
      rfl
    rcases step_host hhost hc' with ⟨hreturning, hret⟩ | ⟨hreturning, htop⟩
    · -- the thunk is done
      unfold returnStep at hret
      obtain ⟨⟨v, s⟩, hs, hrest⟩ := Option.bind_eq_some_iff.1 hret
      have huntouched := returnFromClosure_untouched hs
      simp only [hresume] at hrest
      have hlevel : s.nWinds = t.nWinds - g.2.length := by
        rw [huntouched.nWinds]
        exact hok.balanced hlen hreturning
      have hthunks : g.2 ++ startedThunk host.length g.1 c' =
          if c'.host.length = host.length + 1 then t.afters g.2.length ++ [c'.calledThunk]
          else t.afters g.2.length := by
        unfold startedThunk
        rw [← h.thunks]
        by_cases hc : c'.host.length = host.length + 1
        · rw [if_pos ⟨hc, .inr ⟨hlen, hreturning⟩⟩, if_pos hc]
        · rw [if_neg fun hand => hc hand.1, if_neg hc, List.append_nil]
      rw [hthunks]
      rcases invokeContinuation_unwinds hrest h.started hlevel
          (fun i hi => by rw [huntouched.handlerStack]; exact h.handlers i hi)
          (fun i hi => by rw [huntouched.windStack]; exact h.winds i hi)
          (fun hlt => hok.starts f host v s hhost rfl hs hlt) with ⟨hc, hun⟩ | ⟨hc, hres⟩
      · rw [if_pos hc]
        exact .inl hun
      · rw [if_neg (by omega)]
        exact .inr hres
    · -- the thunk goes on
      rw [hnone (by rw [hreturning]; simp [hlen])]
      refine .inl (h.keep hL hok hc' ?_)
      rcases htop with heq | ⟨f', heq⟩
      · exact ⟨[], f, heq, hresume⟩
      · exact ⟨[f'], f, heq, hresume⟩

end invocation

/-- `vm` has the four stacks of `vmc`, with `val` on top. -/
structure Resumed (vmc : VM H) (val : Value) (vm : VM H) : Prop where
  pc : vm.pc = vmc.pc
  fp : vm.fp = vmc.fp
  sp : vm.sp = vmc.sp + 1
  stack : ∀ i : ℕ, (i : ℤ) < vmc.sp → vm.stack i = vmc.stack i
  value : vm.stack vmc.sp.toNat = val
  frameCount : vm.frameCount = vmc.frameCount
  frames : ∀ i < vmc.frameCount, vm.frames i = vmc.frames i
  nHandlers : vm.nHandlers = vmc.nHandlers
  handlers : ∀ i < vmc.nHandlers, vm.handlerStack i = vmc.handlerStack i
  nWinds : vm.nWinds = vmc.nWinds
  winds : ∀ i < vmc.nWinds, vm.windStack i = vmc.windStack i

/-- What restoring a captured continuation gives. -/
lemma restoreContinuation_resumes {vmc s u : VM H} {val : Value}
    (h : restoreContinuation vmc.capture val s = some u) (hpos : 0 ≤ vmc.sp)
    (hroom : vmc.sp < stackSize) (hframes : vmc.frameCount ≤ maxFrames)
    (hn : s.nWinds = vmc.nWinds)
    (hhandlers : ∀ i < vmc.nHandlers, s.handlerStack i = vmc.handlerStack i)
    (hwinds : ∀ i < vmc.nWinds, s.windStack i = vmc.windStack i) : Resumed vmc val u := by
  unfold restoreContinuation at h
  have hbound : ¬ (vmc.capture.sp > stackSize ∨ vmc.capture.frameCount > maxFrames) := by
    show ¬ (vmc.sp > stackSize ∨ vmc.frameCount > maxFrames)
    omega
  rw [if_neg hbound, if_neg (by show ¬ vmc.sp < 0; omega),
    push_eq_of_room val (by exact hpos) (by exact hroom)] at h
  cases h
  refine ⟨rfl, rfl, rfl, fun i hi => ?_, ?_, rfl, fun i hi => ?_, rfl, hhandlers, hn, hwinds⟩
  · show (if (i : ℤ) = vmc.sp then val else if (i : ℤ) < vmc.sp then
      (if (i : ℤ) < vmc.sp then vmc.stack i else nilVal) else s.stack i) = vmc.stack i
    rw [if_neg (by omega), if_pos hi, if_pos hi]
  · show (if ((vmc.sp.toNat : ℕ) : ℤ) = vmc.sp then val else _) = val
    rw [if_pos (by omega)]
  · show (if i < vmc.frameCount then (if i < vmc.frameCount then vmc.frames i else ⟨0, 0, 0⟩)
      else s.frames i) = vmc.frames i
    rw [if_pos hi, if_pos hi]

/-- The first step of an invocation. -/
lemma Invokes.step {c : Config H} {vm : VM H} {p : ℕ} {val : Value} {t vmc : VM H}
    {g : Config H × List Value} (h : Invokes L c p val t) (hcap : Captured vmc p c.vm)
    (hcontrol : c.control = .run vm) (hwinds : vmc.nWinds ≤ c.vm.nWinds)
    (hstart : vmc.nWinds < t.nWinds → t.CanStart (t.windStack (t.nWinds - 1)).after)
    (hstep : tracedStep L c.host.length (c, []) = some g) :
    Untouched vm t ∧
      (Unwinding vmc.capture val c.host t g ∨ Restored vmc.capture val c.host t g) := by
  obtain ⟨vm', instr, cont, hcontrol', hrun, hfetch, hop, hptr, hexec⟩ := h
  rw [hcontrol] at hcontrol'
  cases hcontrol'
  have hcvm : c.vm = vm := by simp [Config.vm, hcontrol]
  obtain ⟨hobj, huntouched⟩ := exec_invoke hop hexec
  -- the object is the one that was captured
  have hcont : cont = vmc.capture := by
    have hobj' : vm.heap[p]? = some (.continuation cont) := by
      rw [show callee instr { vm with pc := vm.pc + 1 } = callee instr vm from rfl, hptr] at hobj
      exact hobj
    have hcapobj := hcap.object
    rw [hcvm, hobj'] at hcapobj
    cases hcapobj
    rfl
  have hpc : Untouched vm { vm with pc := vm.pc + 1 } := .of_heap_eq rfl rfl rfl rfl rfl
  have hvt : Untouched vm t := hpc.trans huntouched
  refine ⟨hvt, ?_⟩
  subst hcont
  obtain ⟨d, hd, rfl⟩ := Option.map_eq_some_iff.1 hstep
  obtain ⟨-, instr', r, s, hfetch', hexec', hperform⟩ := step_exec hcontrol hrun hd
  rw [hfetch] at hfetch'
  cases hfetch'
  rw [hexec] at hexec'
  cases hexec'
  have hlevel : vmc.nWinds ≤ t.nWinds := by
    rw [hvt.nWinds, ← hcvm]
    exact hwinds
  rcases invokeContinuation_unwinds (t := t) hperform (show vmc.capture.nWinds + 0 ≤ t.nWinds from hlevel)
      rfl (fun _ _ => rfl) (fun _ _ => rfl) hstart with ⟨hlen, hun⟩ | ⟨hlen, hres⟩
  · refine .inl ?_
    rw [show ([] : List Value) ++ startedThunk c.host.length c d = t.afters 0 ++ [d.calledThunk] from
      if_pos ⟨hlen, .inl rfl⟩]
    exact hun
  · refine .inr ?_
    rw [show ([] : List Value) ++ startedThunk c.host.length c d = t.afters 0 from
      if_neg fun hand => by rw [hlen] at hand; omega]
    exact hres

/-- A continuation that is invoked before a handler or an extent of its capture is left resumes with
the four stacks of the capture, after the after-thunks of the extents entered since, innermost
first. -/
theorem continuation_resumes (hL : NativesKeep L) {c₀ c₁ c₂ c₃ : Config H} {vm₀ t : VM H}
    {val : Value} {thunks : List Value} {n m : ℕ} (hcapture : Captures c₀ vm₀)
    (hcall : c₀.step L (gotoLoop L) = some c₁) (herr : c₁.vm.error = false)
    (hrun : runN (Config.step L (gotoLoop L)) n c₁ = some c₂)
    (hfloor : ∀ k ≤ n, ∀ c, runN (Config.step L (gotoLoop L)) k c₁ = some c →
      vm₀.nHandlers ≤ c.vm.nHandlers ∧ vm₀.nWinds ≤ c.vm.nWinds)
    (hinvoke : Invokes L c₂ vm₀.heap.length val t)
    (hstart : vm₀.nWinds < t.nWinds → t.CanStart (t.windStack (t.nWinds - 1)).after)
    (hleave : runN (tracedStep L c₂.host.length) (m + 1) (c₂, []) = some (c₃, thunks))
    (hok : ∀ j, 0 < j → j ≤ m → ∀ g, runN (tracedStep L c₂.host.length) j (c₂, []) = some g →
      g.1.host.length ≠ c₂.host.length ∧ UnwindOk vm₀.captured.capture c₂.host.length t g)
    (hend : c₃.host.length = c₂.host.length) :
    Resumed vm₀.captured val c₃.vm ∧
      thunks = c₂.vm.afters (c₂.vm.nWinds - vm₀.nWinds) := by
  obtain ⟨hcap₁, hpos, hroom, hframes⟩ := step_captures hcapture hcall herr
  have hcap : Captured vm₀.captured vm₀.heap.length c₂.vm := by
    refine PartialRun.invariant (P := fun c => Captured vm₀.captured vm₀.heap.length c.vm) hcap₁ ?_ hrun
    intro k hk c c' hc hcapc hstep
    obtain ⟨hhandlers, hwinds⟩ := hfloor k hk.le c hc
    exact hcapc.step hL hhandlers hwinds hstep
  obtain ⟨hhandlers₂, hwinds₂⟩ := hfloor n le_rfl c₂ hrun
  obtain ⟨vm₂, hcontrol⟩ : ∃ vm, c₂.control = .run vm := by
    obtain ⟨vm, -, -, hcontrol, -⟩ := hinvoke
    exact ⟨vm, hcontrol⟩
  have hcvm : c₂.vm = vm₂ := by simp [Config.vm, hcontrol]
  -- the invariant of the unwinding, after the first step
  have hinv : ∀ j ≤ m, ∀ g, runN (tracedStep L c₂.host.length) (j + 1) (c₂, []) = some g →
      Untouched vm₂ t ∧ (Unwinding vm₀.captured.capture val c₂.host t g ∨
        Restored vm₀.captured.capture val c₂.host t g) := by
    intro j
    induction j with
    | zero =>
      intro _ g hg
      exact hinvoke.step hcap hcontrol hwinds₂ hstart hg
    | succ j ih =>
      intro hj g hg
      obtain ⟨g₁, hg₁, hstep⟩ := exists_of_runN_succ hg
      obtain ⟨huntouched, hstate⟩ := ih (by omega) g₁ hg₁
      obtain ⟨hne, hokg⟩ := hok (j + 1) (by omega) hj g₁ hg₁
      refine ⟨huntouched, ?_⟩
      rcases hstate with hun | ⟨-, s, u, steps, -, hg₁', -⟩
      · exact hun.step hL hokg hstep
      · rw [hg₁'] at hne
        exact absurd rfl hne
  obtain ⟨huntouched, hun | hres⟩ := hinv m le_rfl _ hleave
  · obtain ⟨inner, f, hhost, -⟩ := hun.caller
    simp only at hhost
    rw [hhost, List.length_append, List.length_cons] at hend
    omega
  · obtain ⟨hthunks, s, u, steps, hrestore, hc₃, hn, hhandlers, hwinds⟩ := hres
    simp only at hthunks hc₃
    have hresumed : Resumed vm₀.captured val u := by
      refine restoreContinuation_resumes hrestore hpos hroom hframes hn (fun i hi => ?_) fun i hi => ?_
      · rw [hhandlers i hi, huntouched.handlerStack, ← hcvm, hcap.handlers i hi]
      · rw [hwinds i hi, huntouched.windStack, ← hcvm, hcap.winds i hi]
    refine ⟨by rw [hc₃]; exact hresumed, ?_⟩
    rw [hthunks]
    unfold VM.afters
    rw [huntouched.nWinds, huntouched.windStack, hcvm]
    rfl

/-- A program that captures a continuation, enters an extent and leaves it through the
continuation. -/
def windAndInvoke : VM bareHost :=
  .load [⟨.closure, 0⟩, ⟨.callcc, 0⟩, ⟨.halt, 0⟩, ⟨.nil, 0⟩, ⟨.closure, 1⟩, ⟨.windPush, 0⟩,
    ⟨.getLocal, 0⟩, ⟨.nil, 0⟩, ⟨.call, 1⟩, ⟨.nil, 0⟩, ⟨.return, 0⟩] [intVal 3, intVal 9] ()

/-- The configuration after `n` steps. -/
def windAndInvokeAt (n : ℕ) : Config bareHost :=
  (runN (Config.step bareLib (gotoLoop bareLib)) n (Config.start windAndInvoke)).getD
    (Config.start windAndInvoke)

lemma windAndInvokeAt_eq {n : ℕ}
    (h : (runN (Config.step bareLib (gotoLoop bareLib)) n (Config.start windAndInvoke)).isSome) :
    runN (Config.step bareLib (gotoLoop bareLib)) n (Config.start windAndInvoke)
      = some (windAndInvokeAt n) := by
  obtain ⟨c, hc⟩ := Option.isSome_iff_exists.1 h
  rw [windAndInvokeAt, hc, Option.getD_some]

/-- The configuration is at an instruction. -/
def Config.running (c : Config H) : Bool :=
  match c.control with
  | .run _ => true
  | .native _ => false

lemma control_eq_run {c : Config H} (h : c.running = true) : c.control = .run c.vm := by
  rcases c with ⟨control, steps, host⟩
  cases control with
  | run vm => rfl
  | native act => cases h

def isClosure : Option (HeapObject H) → Bool
  | some (.closure _ _) => true
  | _ => false

/-- The handler of an instruction asks for an invocation with `nil`, one extent is entered, and its
thunk, object 2, can be called. -/
def asksToInvoke : Option (Request bareHost × VM bareHost) → Bool
  | some (.invoke _ val, t) => decide (val = nilVal ∧ t.nWinds = 1 ∧
      (t.windStack 0).after = closureVal 2 ∧ t.frameCount < maxFrames ∧ 0 ≤ t.sp ∧
      t.sp < stackSize) && isClosure t.heap[2]?
  | _ => false

lemma asksToInvoke_spec {r : Option (Request bareHost × VM bareHost)} (h : asksToInvoke r = true) :
    ∃ cont t, r = some (.invoke cont nilVal, t) ∧ t.nWinds = 1 ∧
      t.CanStart (t.windStack (t.nWinds - 1)).after := by
  unfold asksToInvoke at h
  split at h
  · rename_i cont val t
    rw [Bool.and_eq_true, decide_eq_true_eq] at h
    obtain ⟨⟨rfl, hwinds, hafter, hframes, hsp, hroom⟩, hobj⟩ := h
    refine ⟨cont, t, rfl, hwinds, ?_⟩
    rw [hwinds, hafter]
    have hclosure : ∃ funcPc upvalues, t.heap[2]? = some (.closure funcPc upvalues) := by
      unfold isClosure at hobj
      split at hobj
      · rename_i funcPc upvalues hget
        exact ⟨funcPc, upvalues, hget⟩
      · cases hobj
    exact ⟨rfl, by decide, by decide, hclosure, hframes, hsp, hroom⟩
  · cases h

/-- What evaluation finds: the configurations at the capture and at the invocation, and the run of the
thunk. -/
lemma windAndInvoke_evaluated :
    (∀ n ∈ [1, 2, 7], (runN (Config.step bareLib (gotoLoop bareLib)) n (Config.start windAndInvoke)).isSome) ∧
    (∀ n ∈ [1, 7], (windAndInvokeAt n).running = true ∧ (windAndInvokeAt n).vm.exited = false) ∧
    (windAndInvokeAt 1).vm.code[(windAndInvokeAt 1).vm.pc.toNat]? = some ⟨.callcc, 0⟩ ∧
    ((windAndInvokeAt 1).vm.operandAt 0).type = .closure ∧
    (windAndInvokeAt 1).vm.nHandlers = 0 ∧ (windAndInvokeAt 1).vm.nWinds = 0 ∧
    (windAndInvokeAt 2).vm.error = false ∧
    (windAndInvokeAt 7).vm.code[(windAndInvokeAt 7).vm.pc.toNat]? = some ⟨.call, 1⟩ ∧
    (callee ⟨.call, 1⟩ (windAndInvokeAt 7).vm).ptr = ((windAndInvokeAt 1).vm.heap.length : ℤ) ∧
    asksToInvoke (Goto.exec bareLib ⟨.call, 1⟩
      { (windAndInvokeAt 7).vm with pc := (windAndInvokeAt 7).vm.pc + 1 }) = true ∧
    (windAndInvokeAt 7).host.length = 0 ∧
    [closureVal 2] = (windAndInvokeAt 7).vm.afters
      ((windAndInvokeAt 7).vm.nWinds - (windAndInvokeAt 1).vm.nWinds) ∧
    (∀ j ∈ [1, 2, 3], (runN (tracedStep bareLib 0) j (windAndInvokeAt 7, [])).map
      (fun g => (g.1.host.length, g.1.vm.nWinds, g.2.length)) = some (1, 0, 1)) ∧
    (runN (tracedStep bareLib 0) 4 (windAndInvokeAt 7, [])).map (fun g => g.1.host.length) = some 0 := by
  decide +kernel

lemma windAndInvoke_step :
    (windAndInvokeAt 1).step bareLib (gotoLoop bareLib) = some (windAndInvokeAt 2) := by
  have h₁ := windAndInvokeAt_eq (windAndInvoke_evaluated.1 1 (by simp))
  have h₂ := windAndInvokeAt_eq (windAndInvoke_evaluated.1 (1 + 1) (by simp))
  rw [runN_succ, h₁, Option.bind_some] at h₂
  exact h₂

lemma windAndInvoke_run :
    runN (Config.step bareLib (gotoLoop bareLib)) 5 (windAndInvokeAt 2)
      = some (windAndInvokeAt 7) := by
  have h₂ := windAndInvokeAt_eq (windAndInvoke_evaluated.1 2 (by simp))
  have h₇ := windAndInvokeAt_eq (windAndInvoke_evaluated.1 (2 + 5) (by simp))
  rw [runN_add, h₂, Option.bind_some] at h₇
  exact h₇

lemma windAndInvoke_captures : Captures (windAndInvokeAt 1) (windAndInvokeAt 1).vm := by
  obtain ⟨-, hat, hfetch, hproc, -⟩ := windAndInvoke_evaluated
  obtain ⟨hrunning, hrun⟩ := hat 1 (by simp)
  exact ⟨control_eq_run hrunning, hrun, ⟨0, hfetch⟩, hproc⟩

lemma windAndInvoke_invokes : ∃ t, Invokes bareLib (windAndInvokeAt 7)
    (windAndInvokeAt 1).vm.heap.length nilVal t ∧ t.nWinds = 1 ∧
      t.CanStart (t.windStack (t.nWinds - 1)).after := by
  obtain ⟨-, hat, -, -, -, -, -, hfetch, hcallee, hasks, -⟩ := windAndInvoke_evaluated
  obtain ⟨hrunning, hrun⟩ := hat 7 (by simp)
  obtain ⟨cont, t, hexec, hrest⟩ := asksToInvoke_spec hasks
  exact ⟨t, ⟨_, _, cont, control_eq_run hrunning, hrun, hfetch, .inl rfl, hcallee, hexec⟩, hrest⟩

/-- While the thunk runs, the wind stack is empty. -/
lemma windAndInvoke_unwinding {j : ℕ} (hpos : 0 < j) (hle : j ≤ 3)
    {g : Config bareHost × List Value}
    (hg : runN (tracedStep bareLib 0) j (windAndInvokeAt 7, []) = some g) :
    g.1.host.length = 1 ∧ g.1.vm.nWinds = 0 ∧ g.2.length = 1 := by
  obtain ⟨-, -, -, -, -, -, -, -, -, -, -, -, hthunk, -⟩ := windAndInvoke_evaluated
  have hstate := hthunk j (by simp; omega)
  rw [hg, Option.map_some, Option.some.injEq, Prod.mk.injEq, Prod.mk.injEq] at hstate
  exact hstate

/-- The continuation resumes after one thunk, the closure that is object 2. -/
theorem continuation_resumes_windAndInvoke :
    ∃ g, runN (tracedStep bareLib 0) 4 (windAndInvokeAt 7, []) = some g ∧
      Resumed (windAndInvokeAt 1).vm.captured nilVal g.1.vm ∧ g.2 = [closureVal 2] := by
  have hL : NativesKeep bareLib :=
    ⟨fun _ _ => .of_heap_eq rfl rfl rfl rfl rfl, fun k => nomatch k⟩
  obtain ⟨-, -, -, -, hhandlers, hwinds, herr, -, -, -, hdepth, hafters, -, hreturns⟩ := windAndInvoke_evaluated
  obtain ⟨t, hinvoke, htwinds, hstart⟩ := windAndInvoke_invokes
  obtain ⟨g, hg, hend⟩ := Option.map_eq_some_iff.1 hreturns
  refine ⟨g, hg, ?_⟩
  rw [hafters]
  refine continuation_resumes hL windAndInvoke_captures windAndInvoke_step herr
    windAndInvoke_run (fun k _ c _ => ?_) hinvoke (fun _ => hstart) (by rw [hdepth]; exact hg)
    (fun j hpos hle g' hg' => ?_) (by rw [hend, hdepth])
  · rw [hhandlers, hwinds]
    exact ⟨Nat.zero_le _, Nat.zero_le _⟩
  · rw [hdepth] at hg' ⊢
    obtain ⟨hlen, hn, htr⟩ := windAndInvoke_unwinding hpos hle hg'
    refine ⟨by omega, ⟨?_, by omega, fun _ _ => by omega, fun f host v s _ _ hret hlt => ?_⟩⟩
    · show (windAndInvokeAt 1).vm.nHandlers ≤ _
      omega
    · rw [(returnFromClosure_untouched hret).nWinds, hn] at hlt
      exact absurd hlt (Nat.not_lt_zero _)

/-- A program that leaves an extent and re-enters it through a continuation. -/
def reenter : VM bareHost :=
  .load [⟨.closure, 1⟩, ⟨.closure, 1⟩, ⟨.windPush, 0⟩, ⟨.closure, 0⟩, ⟨.callcc, 0⟩, ⟨.windPop, 0⟩,
    ⟨.dup, 0⟩, ⟨.nil, 0⟩, ⟨.invokeCc, 0⟩, ⟨.halt, 0⟩, ⟨.getLocal, 0⟩, ⟨.return, 0⟩, ⟨.nil, 0⟩,
    ⟨.return, 0⟩] [intVal 10, intVal 12] ()

/-- At the capture one extent is entered; the invocation resumes behind it with none. -/
theorem reenter_loses_extent :
    (runN (Config.step bareLib (gotoLoop bareLib)) 4 (Config.start reenter)).map
        (fun c => (c.vm.pc, c.vm.nWinds)) = some (4, 1) ∧
      (runN (Config.step bareLib (gotoLoop bareLib)) 13 (Config.start reenter)).map
        (fun c => (c.vm.pc, c.vm.nWinds)) = some (8, 0) ∧
      (runN (Config.step bareLib (gotoLoop bareLib)) 14 (Config.start reenter)).map
        (fun c => (c.vm.pc, c.vm.nWinds)) = some (5, 0) := by
  decide +kernel

end Vm
