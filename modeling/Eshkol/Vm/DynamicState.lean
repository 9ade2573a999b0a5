import Eshkol.Vm.Dispatch

/-!
# Handlers, winds and captured continuations

Four opcodes, the invocation of a continuation and `raise` change the handler stack or the wind
stack; everything else leaves them alone, and nothing changes a continuation that was captured.
-/

namespace Vm

open PartialRun PartialState

variable {H : Host} {L : Lib H}

/-! ## What most of the VM leaves alone -/

/-- The same handlers and winds, and every captured continuation still there. -/
structure Untouched (s t : VM H) : Prop where
  nHandlers : t.nHandlers = s.nHandlers
  handlerStack : t.handlerStack = s.handlerStack
  nWinds : t.nWinds = s.nWinds
  windStack : t.windStack = s.windStack
  heap : s.heap.length ≤ t.heap.length
  continuations : ∀ (p : ℕ) (k : VmContinuation),
    s.heap[p]? = some (.continuation k) → t.heap[p]? = some (.continuation k)

lemma Untouched.refl (s : VM H) : Untouched s s := ⟨rfl, rfl, rfl, rfl, le_rfl, fun _ _ h => h⟩

lemma Untouched.trans {s t u : VM H} (h₁ : Untouched s t) (h₂ : Untouched t u) : Untouched s u where
  nHandlers := h₂.nHandlers.trans h₁.nHandlers
  handlerStack := h₂.handlerStack.trans h₁.handlerStack
  nWinds := h₂.nWinds.trans h₁.nWinds
  windStack := h₂.windStack.trans h₁.windStack
  heap := h₁.heap.trans h₂.heap
  continuations p k h := h₂.continuations p k (h₁.continuations p k h)

instance : IsPreorder (VM H) Untouched where
  refl := Untouched.refl
  trans _ _ _ := Untouched.trans

/-- An assignment to other fields. -/
lemma Untouched.of_heap_eq {s t : VM H} (h₁ : t.nHandlers = s.nHandlers)
    (h₂ : t.handlerStack = s.handlerStack) (h₃ : t.nWinds = s.nWinds)
    (h₄ : t.windStack = s.windStack) (h₅ : t.heap = s.heap) : Untouched s t :=
  ⟨h₁, h₂, h₃, h₄, by rw [h₅], fun _ _ h => by rw [h₅]; exact h⟩

/-- Overwriting an object that is no continuation of `s`. -/
lemma Untouched.set {s t : VM H} (h : Untouched s t) {p : ℕ} {o : HeapObject H}
    (hp : ∀ k, s.heap[p]? ≠ some (.continuation k)) :
    Untouched s { t with heap := t.heap.set p o } where
  nHandlers := h.nHandlers
  handlerStack := h.handlerStack
  nWinds := h.nWinds
  windStack := h.windStack
  heap := by
    show s.heap.length ≤ (t.heap.set p o).length
    rw [List.length_set]
    exact h.heap
  continuations q k hq := by
    have hne : p ≠ q := fun he => hp k (by rw [he]; exact hq)
    show (t.heap.set p o)[q]? = _
    rw [List.getElem?_set_ne hne]
    exact h.continuations q k hq

section helpers

instance : Moves Untouched (setError : Exec H Unit) :=
  .modify fun _ => .of_heap_eq rfl rfl rfl rfl rfl

instance (sp : ℤ) : Moves Untouched (setSp sp : Exec H Unit) :=
  .modify fun _ => .of_heap_eq rfl rfl rfl rfl rfl

instance {α : Type} : Moves Untouched (undefinedBehaviour : Exec H α) where
  moves h := by cases h

instance (i : ℤ) : Moves Untouched (stackAt i : Exec H Value) where
  moves h := by
    rw [(stackAt_spec h).2]
    exact .refl _

instance (i : ℤ) (v : Value) : Moves Untouched (setStackAt i v : Exec H Unit) where
  moves h := by
    unfold setStackAt at h
    split at h
    · cases h
      exact .of_heap_eq rfl rfl rfl rfl rfl
    · cases h

instance (v : Value) : Moves Untouched (push v : Exec H Unit) := by
  unfold push
  infer_instance

instance : Moves Untouched (pop : Exec H Value) := by
  unfold pop
  infer_instance

instance (k : ℤ) : Moves Untouched (peek k : Exec H Value) := by
  unfold peek
  infer_instance

instance (n : ℕ) : ∀ acc, Moves Untouched (popInto n acc : Exec H (List Value)) := by
  induction n with
  | zero => exact fun _ => .pure _
  | succ n ih =>
    intro acc
    unfold popInto
    infer_instance

instance (v : Value) : Moves Untouched (pushNext v : Exec H (Request H)) := by
  unfold pushNext
  infer_instance

instance : Moves Untouched (next : Exec H (Request H)) := by
  unfold next
  infer_instance

instance : Moves Untouched (fail : Exec H (Request H)) := by
  unfold fail
  infer_instance

/-- Reading an object changes nothing. -/
lemma heapAt_spec {ptr : ℤ} {o : HeapObject H} {s t : VM H} (h : heapAt ptr s = some (o, t)) :
    t = s ∧ s.heap[ptr.toNat]? = some o := by
  unfold heapAt at h
  split at h
  · obtain ⟨o', ho', heq⟩ := Option.map_eq_some_iff.1 h
    cases heq
    exact ⟨rfl, ho'⟩
  · cases h

instance (ptr : ℤ) : Moves Untouched (heapAt ptr : Exec H (HeapObject H)) where
  moves h := by
    rw [(heapAt_spec h).1]
    exact .refl _

lemma heapAlloc_spec {o : HeapObject H} {r : Option ℕ} {s t : VM H}
    (h : heapAlloc L o s = some (r, t)) :
    Untouched s t ∧ ∀ p, r = some p → p = s.heap.length := by
  unfold heapAlloc at h
  rw [get_bind_apply] at h
  split at h
  · cases h
    exact ⟨.refl _, fun p hp => by cases hp⟩
  · split at h
    · cases h
      refine ⟨⟨rfl, rfl, rfl, rfl, by simp, fun p k hp => ?_⟩, fun p hp => by cases hp; rfl⟩
      show (s.heap ++ [o])[p]? = _
      rw [List.getElem?_append_left (List.getElem?_eq_some_iff.1 hp).1]
      exact hp
    · cases h
      exact ⟨.refl _, fun p hp => by cases hp⟩

instance (o : HeapObject H) : Moves Untouched (heapAlloc L o) where
  moves h := (heapAlloc_spec h).1

/-- An object that was just allocated is no continuation of the earlier state. -/
lemma getElem?_ne_continuation {s : VM H} {p : ℕ} (hp : s.heap.length ≤ p) (k : VmContinuation) :
    s.heap[p]? ≠ some (.continuation k) := by
  rw [List.getElem?_eq_none hp]
  exact fun h => by cases h

/-- Filling in an object that was allocated after `s`. -/
lemma Untouched.setObject {s t u : VM H} {p : ℕ} {o : HeapObject H} {r : Unit}
    (h : Untouched s t) (hp : s.heap.length ≤ p) (hset : Vm.setObject p o t = some (r, u)) :
    Untouched s u := by
  cases hset
  exact h.set (getElem?_ne_continuation hp)

/-- Overwriting the object that was just read, which is no continuation. -/
lemma Untouched.of_setObject {s t : VM H} {p : ℕ} {o o' : HeapObject H} {r : Unit}
    (hp : s.heap[p]? = some o') (ho : ∀ k, o' ≠ .continuation k)
    (hset : Vm.setObject p o s = some (r, t)) : Untouched s t := by
  cases hset
  refine (Untouched.refl s).set fun k hk => ?_
  rw [hp] at hk
  cases hk
  exact ho k rfl

instance (i : ℤ) : Moves Untouched (constantAt i : Exec H Value) where
  moves h := by
    unfold constantAt at h
    split at h
    · cases h
      exact .refl _
    · cases h

instance (v : Value) : Moves Untouched (asNumberVm L v) := by
  refine .branch (.seq fun o => ?_) (.branch (.seq fun o => ?_) inferInstance)
  · cases o <;> infer_instance
  · cases o <;> infer_instance

instance (v : Value) : Moves Untouched (bignumAt v : Exec H ℤ) := by
  refine .seq fun o => ?_
  cases o <;> infer_instance

instance (v : Value) : Moves Untouched (coerceBignum L v) := by
  unfold coerceBignum
  infer_instance

instance (n : ℤ) : Moves Untouched (pushBignumNorm L n) := by
  refine .branch inferInstance (.seq fun r => ?_)
  cases r <;> infer_instance

instance (v : Value) : Moves Untouched (bignumToDouble L v) := by
  unfold bignumToDouble
  infer_instance

instance (a b : Value) (op : ArithOp) : Moves Untouched (bignumArith L a b op) := by
  refine .branch inferInstance (.seq fun x => .seq fun y => ?_)
  cases op <;> infer_instance

instance (a b : Value) : Moves Untouched (bignumCompareVals L a b) := by
  unfold bignumCompareVals
  infer_instance

end helpers

section handlers

instance (operand : ℤ) : Moves Untouched (opConst operand : Exec H (Request H)) := by
  unfold opConst
  infer_instance

instance : Moves Untouched (opPop : Exec H (Request H)) := by
  unfold opPop
  infer_instance

instance : Moves Untouched (opDup : Exec H (Request H)) := by
  unfold opDup
  infer_instance

instance (n : ℤ) : Moves Untouched (opPopn n : Exec H (Request H)) := by
  unfold opPopn
  infer_instance

instance (a b : Value) (id : ℤ) : Moves Untouched (rebox a b id : Exec H (Request H)) := by
  unfold rebox
  infer_instance

instance (op : ArithOp) (i j k l : ℤ) : Moves Untouched (arith L op i j k l) := by
  unfold arith
  infer_instance

instance : Moves Untouched (opDiv L) := by
  unfold opDiv
  infer_instance

instance : Moves Untouched (opMod L) := by
  unfold opMod
  infer_instance

instance (f : ℤ → ℤ) (g : BitVec 64 → BitVec 64) (a : Value) : Moves Untouched (negAbs L f g a) := by
  unfold negAbs
  infer_instance

instance : Moves Untouched (Goto.opNeg L) := by
  unfold Goto.opNeg
  infer_instance

instance : Moves Untouched (Goto.opAbs L) := by
  unfold Goto.opAbs
  infer_instance

instance (num : Value → Exec H (BitVec 64)) [∀ v, Moves Untouched (num v)] (c : CompareOp) :
    Moves Untouched (compare L num c) := by
  unfold compare
  infer_instance

instance : Moves Untouched (opNot : Exec H (Request H)) := by
  unfold opNot
  infer_instance

instance (p : ValType → Bool) : Moves Untouched (typeTest p : Exec H (Request H)) := by
  unfold typeTest
  infer_instance

instance (i : ℤ) : Moves Untouched (Goto.opGetLocal i : Exec H (Request H)) := by
  unfold Goto.opGetLocal
  infer_instance

instance (i : ℤ) : Moves Untouched (Goto.opSetLocal i : Exec H (Request H)) := by
  unfold Goto.opSetLocal
  infer_instance

instance (i : ℤ) : Moves Untouched (opGetUpvalue i : Exec H (Request H)) := by
  refine .seq fun vm => .seq fun cl => .branch (.seq fun o => ?_) inferInstance
  cases o <;> infer_instance

instance (ptr i : ℤ) (v : Value) : Moves Untouched (setUpvalueOf ptr i v : Exec H Unit) where
  moves h := by
    obtain ⟨o, s₁, hread, hrest⟩ := bind_eq_some h
    obtain ⟨rfl, hp⟩ := heapAt_spec hread
    cases o with
    | closure funcPc upvalues =>
      simp only at hrest
      split at hrest
      · exact .of_setObject hp (fun k hk => by cases hk) hrest
      · cases hrest
        exact .refl _
    | _ => cases hrest

instance (i : ℤ) : Moves Untouched (opSetUpvalue i : Exec H (Request H)) := by
  unfold opSetUpvalue
  infer_instance

instance (i : ℤ) : Moves Untouched (opCloseUpvalue i : Exec H (Request H)) := by
  unfold opCloseUpvalue
  infer_instance

instance (operand : ℤ) : Moves Untouched (opClosure L operand) where
  moves h := by
    obtain ⟨f, s₁, h₁, h⟩ := bind_eq_some h
    obtain ⟨r, s₂, h₂, h⟩ := bind_eq_some h
    have hsafe := Moves.moves (R := Untouched) h₁
    obtain ⟨halloc, hp⟩ := heapAlloc_spec h₂
    cases r with
    | none => exact hsafe.trans (halloc.trans (Moves.moves h))
    | some p =>
      obtain ⟨upvalues, s₃, h₃, h⟩ := bind_eq_some h
      obtain ⟨_, s₄, h₄, h⟩ := bind_eq_some h
      have hset := (halloc.trans (Moves.moves h₃)).setObject (hp p rfl).ge h₄
      exact hsafe.trans (hset.trans (Moves.moves h))

instance (ptr : ℤ) : Moves Untouched (funcPcAt ptr : Exec H ℤ) := by
  refine .seq fun o => ?_
  cases o <;> infer_instance

instance (ptr : ℤ) : Moves Untouched (continuationAt ptr : Exec H (Option VmContinuation)) := by
  refine .seq fun o => ?_
  cases o <;> infer_instance

instance (func : Value) (argc : ℤ) : Moves Untouched (callClosure func argc : Exec H (Request H)) := by
  refine .seq fun funcPc => .seq fun vm => .branch inferInstance ?_
  exact .modify_seq (fun _ => .of_heap_eq rfl rfl rfl rfl rfl) fun _ => inferInstance

instance (dst src : ℤ) (n : ℕ) : Moves Untouched (moveSlots dst src n : Exec H Unit) := by
  induction n with
  | zero => exact .pure _
  | succ n ih =>
    unfold moveSlots
    infer_instance

instance (func : Value) (argc : ℤ) :
    Moves Untouched (tailCallClosure func argc : Exec H (Request H)) := by
  refine .seq fun funcPc => .seq fun vm => .seq fun _ => .seq fun _ =>
    .seq fun _ => ?_
  exact .modify_seq (fun _ => .of_heap_eq rfl rfl rfl rfl rfl) fun _ => inferInstance

instance : Moves Untouched (opReturn : Exec H (Request H)) := by
  have halt : Moves Untouched (do
      modify fun vm => { vm with halted := true }
      next : Exec H (Request H)) :=
    .modify_seq (fun _ => .of_heap_eq rfl rfl rfl rfl rfl) fun _ => inferInstance
  refine .seq fun result => .seq fun vm => .branch (.seq fun _ => halt) ?_
  refine .branch ?_ ?_
  · exact .modify_seq (fun _ => .of_heap_eq rfl rfl rfl rfl rfl) fun _ =>
      .seq fun _ => halt
  · exact .modify_seq (fun _ => .of_heap_eq rfl rfl rfl rfl rfl) fun _ => inferInstance

instance (target : ℤ) : Moves Untouched (opJump target : Exec H (Request H)) :=
  .modify_seq (fun _ => .of_heap_eq rfl rfl rfl rfl rfl) fun _ => inferInstance

instance (target : ℤ) : Moves Untouched (opJumpIfFalse target : Exec H (Request H)) := by
  unfold opJumpIfFalse
  infer_instance

instance : Moves Untouched (opPrint L) := by
  refine .seq fun v => .branch inferInstance ?_
  exact .modify_seq (fun _ => .of_heap_eq rfl rfl rfl rfl rfl) fun _ => inferInstance

instance : Moves Untouched (opHalt : Exec H (Request H)) :=
  .modify_seq (fun _ => .of_heap_eq rfl rfl rfl rfl rfl) fun _ => inferInstance

instance : Moves Untouched (opCons L) := by
  refine .seq fun car => .seq fun cdr => .seq fun r => ?_
  cases r <;> infer_instance

/-- The object behind a pair is a pair. -/
lemma consAt_spec {ptr : ℤ} {c : Value × Value} {s t : VM H} (h : consAt ptr s = some (c, t)) :
    t = s ∧ s.heap[ptr.toNat]? = some (.cons c.1 c.2) := by
  obtain ⟨o, s₁, hread, hrest⟩ := bind_eq_some h
  obtain ⟨rfl, hp⟩ := heapAt_spec hread
  cases o with
  | cons car cdr =>
    cases hrest
    exact ⟨rfl, hp⟩
  | _ => cases hrest

instance (ptr : ℤ) : Moves Untouched (consAt ptr : Exec H (Value × Value)) where
  moves h := by
    rw [(consAt_spec h).1]
    exact .refl _

instance (f : Value × Value → Value) : Moves Untouched (pairField f : Exec H (Request H)) := by
  unfold pairField
  infer_instance

instance (f : Value → Value × Value → Value × Value) :
    Moves Untouched (setPairField f : Exec H (Request H)) := by
  refine .seq fun val => .seq fun pair => .branch ⟨fun h => ?_⟩ inferInstance
  obtain ⟨c, s₁, h₁, hrest⟩ := bind_eq_some h
  obtain ⟨hs, hp⟩ := consAt_spec h₁
  obtain ⟨_, s₂, h₂, hpush⟩ := bind_eq_some hrest
  rw [hs] at h₂
  exact (Untouched.of_setObject hp (fun k hk => by cases hk) h₂).trans (Moves.moves hpush)

instance (count : ℤ) : Moves Untouched (opVecCreate L count) where
  moves h := by
    obtain ⟨r, s₁, h₁, h⟩ := bind_eq_some h
    obtain ⟨halloc, hp⟩ := heapAlloc_spec h₁
    cases r with
    | none => exact halloc.trans (Moves.moves h)
    | some p =>
      simp only [get_bind_apply] at h
      split at h
      · exact halloc.trans (Moves.moves h)
      · split at h
        · exact halloc.trans (Moves.moves h)
        · obtain ⟨items, s₂, h₂, h⟩ := bind_eq_some h
          obtain ⟨_, s₃, h₃, h⟩ := bind_eq_some h
          have hset := (halloc.trans (Moves.moves h₂)).setObject (hp p rfl).ge h₃
          exact hset.trans (Moves.moves h)

/-- The object behind a vector is a vector, or not filled in yet. -/
lemma vectorAt_spec {ptr : ℤ} {r : Option (ℤ × List Value)} {s t : VM H}
    (h : vectorAt ptr s = some (r, t)) :
    t = s ∧ ∃ o, s.heap[ptr.toNat]? = some o ∧ ∀ k, o ≠ .continuation k := by
  obtain ⟨o, s₁, hread, hrest⟩ := bind_eq_some h
  obtain ⟨rfl, hp⟩ := heapAt_spec hread
  cases o with
  | vector len items =>
    cases hrest
    exact ⟨rfl, _, hp, fun k hk => by cases hk⟩
  | empty =>
    cases hrest
    exact ⟨rfl, _, hp, fun k hk => by cases hk⟩
  | _ => cases hrest

instance (ptr : ℤ) : Moves Untouched (vectorAt ptr : Exec H (Option (ℤ × List Value))) where
  moves h := by
    rw [(vectorAt_spec h).1]
    exact .refl _

instance : Moves Untouched (opVecRef L) := by
  refine .seq fun idx => .seq fun v => .branch inferInstance (.seq fun r => ?_)
  cases r <;> infer_instance

instance : Moves Untouched (opVecSet L) := by
  refine .seq fun val => .seq fun idx => .seq fun v =>
    .branch ⟨fun h => ?_⟩ inferInstance
  obtain ⟨r, s₁, h₁, hrest⟩ := bind_eq_some h
  obtain ⟨hs, o, hp, ho⟩ := vectorAt_spec h₁
  rw [hs] at hrest
  cases r with
  | none => exact Moves.moves hrest
  | some vec =>
    simp only at hrest
    split at hrest
    · obtain ⟨_, s₂, h₂, hpush⟩ := bind_eq_some hrest
      exact (Untouched.of_setObject hp ho h₂).trans (Moves.moves hpush)
    · exact Moves.moves hrest

instance : Moves Untouched (opVecLen : Exec H (Request H)) := by
  refine .seq fun v => .branch (.seq fun r => ?_) inferInstance
  cases r <;> infer_instance

instance (ptr : ℤ) : Moves Untouched (stringAt ptr : Exec H (Option (List UInt8))) := by
  refine .seq fun o => ?_
  cases o <;> infer_instance

instance : Moves Untouched (opStrRef L) := by
  refine .seq fun idx => .seq fun v => .branch (.seq fun r => ?_) inferInstance
  cases r <;> infer_instance

instance : Moves Untouched (opStrLen : Exec H (Request H)) := by
  refine .seq fun v => .branch (.seq fun r => ?_) inferInstance
  cases r <;> infer_instance

instance (proc : Value) : Moves Untouched (captureAndCall L proc) where
  moves h := by
    obtain ⟨r, s₁, h₁, h⟩ := bind_eq_some h
    obtain ⟨halloc, hp⟩ := heapAlloc_spec h₁
    cases r with
    | none => exact halloc.trans (Moves.moves h)
    | some p =>
      simp only [get_bind_apply] at h
      split at h
      · exact halloc.trans (Moves.moves h)
      · obtain ⟨_, s₂, h₂, h⟩ := bind_eq_some h
        have hset := halloc.setObject (hp p rfl).ge h₂
        exact hset.trans (Moves.moves h)

instance (func : Value) (argc : ℤ) (call : Exec H (Request H)) [Moves Untouched call] :
    Moves Untouched (Goto.invokeOr func argc call) := by
  refine .branch (.seq fun vm => .seq fun val => .seq fun r => ?_) inferInstance
  cases r <;> infer_instance

instance (argc : ℤ) : Moves Untouched (Goto.opCall argc : Exec H (Request H)) := by
  unfold Goto.opCall
  infer_instance

instance (argc : ℤ) : Moves Untouched (Goto.opTailCall argc : Exec H (Request H)) := by
  unfold Goto.opTailCall
  infer_instance

instance : Moves Untouched (Goto.opCallcc L) := by
  unfold Goto.opCallcc
  infer_instance

instance : Moves Untouched (opInvokeCc : Exec H (Request H)) := by
  refine .seq fun val => .seq fun v => .branch (.seq fun r => ?_) inferInstance
  cases r <;> infer_instance

instance : Moves Untouched (opGetExn : Exec H (Request H)) := by
  unfold opGetExn
  infer_instance

instance (base : ℤ) (n : ℕ) : ∀ list, Moves Untouched (packRest L base n list) := by
  induction n with
  | zero => exact fun _ => .pure _
  | succ n ih =>
    intro list
    refine .seq fun item => .seq fun r => ?_
    cases r <;> infer_instance

instance (nFixed : ℤ) : Moves Untouched (Goto.opPackRest L nFixed) := by
  unfold Goto.opPackRest
  infer_instance

end handlers

/-- The opcodes that change the handler stack or the wind stack. -/
def touchesStacks (op : OpCode) : Bool :=
  op = .pushHandler || op = .popHandler || op = .windPush || op = .windPop

lemma exec_untouched {instr : Instr} (h : touchesStacks instr.op = false) :
    Moves Untouched (Goto.exec L instr) := by
  rcases instr with ⟨op, operand⟩
  unfold Goto.exec
  cases op with
  | pushHandler | popHandler | windPush | windPop => cases h
  | add | sub | mul => exact inferInstanceAs (Moves Untouched (arith L _ _ _ _ _))
  | car | cdr => exact inferInstanceAs (Moves Untouched (pairField _))
  | setCar | setCdr => exact inferInstanceAs (Moves Untouched (setPairField _))
  | _ => infer_instance

/-! ## Entries below the counts -/

/-- The same entries on both stacks, whatever the counts. -/
structure SameEntries (s t : VM H) : Prop where
  handlerStack : t.handlerStack = s.handlerStack
  windStack : t.windStack = s.windStack
  continuations : ∀ (p : ℕ) (k : VmContinuation),
    s.heap[p]? = some (.continuation k) → t.heap[p]? = some (.continuation k)

/-- The same entries below the counts of `s`. -/
structure KeptBelow (s t : VM H) : Prop where
  handlers : ∀ i < s.nHandlers, t.handlerStack i = s.handlerStack i
  winds : ∀ i < s.nWinds, t.windStack i = s.windStack i
  continuations : ∀ (p : ℕ) (k : VmContinuation),
    s.heap[p]? = some (.continuation k) → t.heap[p]? = some (.continuation k)

/-- The native functions other than `raise` leave handlers, winds and continuations alone. -/
structure NativesKeep (L : Lib H) : Prop where
  dispatch : ∀ id vm, Untouched vm (L.dispatchNative id vm).vm
  resume : ∀ k v vm, Untouched vm (L.resumeNative k v vm).vm

lemma SameEntries.refl (s : VM H) : SameEntries s s := ⟨rfl, rfl, fun _ _ h => h⟩

lemma SameEntries.trans {s t u : VM H} (h₁ : SameEntries s t) (h₂ : SameEntries t u) :
    SameEntries s u :=
  ⟨h₂.handlerStack.trans h₁.handlerStack, h₂.windStack.trans h₁.windStack,
    fun p k h => h₂.continuations p k (h₁.continuations p k h)⟩

lemma Untouched.sameEntries {s t : VM H} (h : Untouched s t) : SameEntries s t :=
  ⟨h.handlerStack, h.windStack, h.continuations⟩

lemma SameEntries.keptBelow {s t : VM H} (h : SameEntries s t) : KeptBelow s t :=
  ⟨fun _ _ => by rw [h.handlerStack], fun _ _ => by rw [h.windStack], h.continuations⟩

/-- A handler either pushes an entry and is done, or leaves the entries alone. -/
lemma exec_entries {instr : Instr} {s t : VM H} {r : Request H}
    (h : Goto.exec L instr s = some (r, t)) :
    (KeptBelow s t ∧ r = .next) ∨ SameEntries s t := by
  by_cases htouch : touchesStacks instr.op = false
  · have hmoves : Moves Untouched (Goto.exec L instr) := exec_untouched htouch
    exact .inr (hmoves.moves h).sameEntries
  · rcases instr with ⟨op, operand⟩
    cases op with
    | pushHandler =>
      replace h : opPushHandler operand s = some (r, t) := h
      unfold opPushHandler at h
      rw [get_bind_apply] at h
      split at h
      · exact .inr (Moves.moves (R := Untouched) h).sameEntries
      · cases h
        refine .inl ⟨⟨fun i hi => ?_, fun _ _ => rfl, fun _ _ hk => hk⟩, rfl⟩
        show (if i = s.nHandlers then _ else s.handlerStack i) = s.handlerStack i
        rw [if_neg (by omega)]
    | popHandler =>
      cases h
      exact .inr ⟨rfl, rfl, fun _ _ hk => hk⟩
    | windPush =>
      replace h : Goto.opWindPush s = some (r, t) := h
      obtain ⟨after, s₁, h₁, h⟩ := bind_eq_some h
      obtain ⟨before, s₂, h₂, h⟩ := bind_eq_some h
      have hpops : Untouched s s₂ := (Moves.moves (R := Untouched) h₁).trans (Moves.moves h₂)
      rw [get_bind_apply] at h
      split at h
      · exact .inr (hpops.trans (Moves.moves h)).sameEntries
      · cases h
        refine .inl ⟨⟨fun i _ => ?_, fun i hi => ?_, hpops.continuations⟩, rfl⟩
        · show s₂.handlerStack i = _
          rw [hpops.handlerStack]
        · show (if i = s₂.nWinds then _ else s₂.windStack i) = s.windStack i
          rw [hpops.nWinds, if_neg (by omega), hpops.windStack]
    | windPop =>
      replace h : opWindPop s = some (r, t) := h
      unfold opWindPop at h
      rw [get_bind_apply] at h
      split at h
      · rw [modify_bind_apply] at h
        split at h
        · cases h
          exact .inr ⟨rfl, rfl, fun _ _ hk => hk⟩
        · cases h
          exact .inr ⟨rfl, rfl, fun _ _ hk => hk⟩
      · cases h
        exact .inr (.refl _)
    | _ => exact absurd rfl htouch

/-! ## The machine -/

section machine
variable {s : VM H}

instance (vs : List Value) : Moves Untouched (pushAll vs : Exec H Unit) := by
  induction vs with
  | nil => exact .pure _
  | cons v vs ih =>
    unfold pushAll
    infer_instance

/-- The VM after the first half of a call from C. -/
def Entered.vm : Entered H → VM H
  | .returned _ vm => vm
  | .running vm _ => vm

lemma enterClosure_untouched {closure : Value} {args : List Value} {funcPc : ℤ} {e : Entered H}
    (h : enterClosure closure args funcPc s = some e) : Untouched s e.vm := by
  unfold enterClosure at h
  obtain ⟨⟨_, s₁⟩, hpush, h⟩ := Option.bind_eq_some_iff.1 h
  have huntouched : Untouched s s₁ := Moves.moves hpush
  simp only at h
  split at h
  · cases h
    exact huntouched.trans (.of_heap_eq rfl rfl rfl rfl rfl)
  · cases h
    exact huntouched.trans (.of_heap_eq rfl rfl rfl rfl rfl)

lemma callClosureFromNative_untouched {closure : Value} {args : List Value} {e : Entered H}
    (h : callClosureFromNative closure args s = some e) : Untouched s e.vm := by
  unfold callClosureFromNative at h
  split at h
  · cases h
    exact .refl _
  · split at h
    · cases h
    · split at h
      · cases h
        exact .refl _
      · exact enterClosure_untouched h
      · cases h

lemma returnFromClosure_untouched {saved : SavedRegs} {v : Value} {t : VM H}
    (h : returnFromClosure saved s = some (v, t)) : Untouched s t := by
  unfold returnFromClosure at h
  split at h
  · obtain ⟨_, _, h⟩ := Option.bind_eq_some_iff.1 h
    cases h
    exact .of_heap_eq rfl rfl rfl rfl rfl
  · cases h
    exact .of_heap_eq rfl rfl rfl rfl rfl

/-- The VM where an unwinding loop stops. -/
def Unwound.vm : Unwound H → VM H
  | .finished vm => vm
  | .running vm _ => vm

lemma unwind_entries (target : ℕ) (n : ℕ) : ∀ {s : VM H} {u : Unwound H},
    unwind target n s = some u → SameEntries s u.vm := by
  induction n with
  | zero =>
    intro s u h
    cases h
    exact .refl _
  | succ n ih =>
    intro s u h
    have hdrop : SameEntries s { s with nWinds := n } := ⟨rfl, rfl, fun _ _ hk => hk⟩
    unfold unwind at h
    split at h
    · simp only at h
      split at h
      · split at h
        · cases h
        · rename_i hcall
          exact hdrop.trans ((callClosureFromNative_untouched hcall).sameEntries.trans (ih h))
        · rename_i hcall
          cases h
          exact hdrop.trans (callClosureFromNative_untouched hcall).sameEntries
      · exact hdrop.trans (ih h)
    · cases h
      exact .refl _

lemma restoreContinuation_entries {cont : VmContinuation} {val : Value} {t : VM H}
    (h : restoreContinuation cont val s = some t) : SameEntries s t := by
  unfold restoreContinuation at h
  split at h
  · cases h
    exact ⟨rfl, rfl, fun _ _ hk => hk⟩
  · split at h
    · cases h
    · obtain ⟨⟨_, t'⟩, hpush, rfl⟩ := Option.map_eq_some_iff.1 h
      have hrestore : SameEntries s (s.restore cont) := ⟨rfl, rfl, fun _ _ hk => hk⟩
      exact hrestore.trans (Moves.moves (R := Untouched) hpush).sameEntries

lemma invokeContinuation_entries {cont : VmContinuation} {val : Value} {steps : ℕ}
    {host : List (HostFrame H)} {c : Config H}
    (h : invokeContinuation cont val steps host s = some c) : SameEntries s c.vm := by
  unfold invokeContinuation at h
  split at h
  · cases h
  · rename_i hun
    obtain ⟨t, ht, rfl⟩ := Option.map_eq_some_iff.1 h
    exact (unwind_entries _ _ hun).trans (restoreContinuation_entries ht)
  · rename_i hun
    cases h
    exact unwind_entries _ _ hun

lemma raiseTo_entries {target : ℕ} {steps : ℕ} {host : List (HostFrame H)} {c : Config H}
    (h : raiseTo target steps host s = some c) : SameEntries s c.vm := by
  unfold raiseTo at h
  split at h
  · cases h
  · rename_i hun
    cases h
    exact (unwind_entries _ _ hun).trans ⟨rfl, rfl, fun _ _ hk => hk⟩
  · rename_i hun
    cases h
    exact unwind_entries _ _ hun

lemma raise_entries {steps : ℕ} {host : List (HostFrame H)} {c : Config H}
    (h : raise steps host s = some c) : SameEntries s c.vm := by
  unfold raise at h
  obtain ⟨⟨exn, s₁⟩, hpop, h⟩ := Option.bind_eq_some_iff.1 h
  have hentries : SameEntries s s₁ := (Moves.moves (R := Untouched) hpop).sameEntries
  simp only at h
  split at h
  · refine hentries.trans (SameEntries.trans ?_ (raiseTo_entries h))
    exact ⟨rfl, rfl, fun _ _ hk => hk⟩
  · cases h
    exact hentries.trans ⟨rfl, rfl, fun _ _ hk => hk⟩

lemma runThunk_entries {after : Value} {steps : ℕ} {host : List (HostFrame H)} {c : Config H}
    (h : runThunk after steps host s = some c) : SameEntries s c.vm := by
  unfold runThunk at h
  split at h
  · cases h
  · rename_i hcall
    cases h
    exact (callClosureFromNative_untouched hcall).sameEntries
  · rename_i hcall
    cases h
    exact (callClosureFromNative_untouched hcall).sameEntries

lemma perform_entries (hL : NativesKeep L) {r : Request H} {steps : ℕ}
    {host : List (HostFrame H)} {c : Config H} (h : perform L r steps host s = some c) :
    SameEntries s c.vm := by
  cases r with
  | next =>
    cases h
    exact .refl _
  | native id =>
    cases h
    exact (hL.dispatch id s).sameEntries
  | thunk after => exact runThunk_entries h
  | invoke cont val => exact invokeContinuation_entries h

lemma nativeStep_entries (hL : NativesKeep L) {act : NativeStep H} {steps : ℕ}
    {host : List (HostFrame H)} {c : Config H} (h : nativeStep L act steps host = some c) :
    SameEntries act.vm c.vm := by
  cases act with
  | done vm =>
    cases h
    exact .refl _
  | raise vm => exact raise_entries h
  | call closure args vm k =>
    unfold nativeStep at h
    simp only at h
    split at h
    · cases h
    · rename_i hcall
      cases h
      exact ((callClosureFromNative_untouched hcall).trans (hL.resume k _ _)).sameEntries
    · rename_i hcall
      cases h
      exact (callClosureFromNative_untouched hcall).sameEntries

lemma returnStep_entries (hL : NativesKeep L) {f : HostFrame H} {host : List (HostFrame H)}
    {c : Config H} (h : returnStep L f host s = some c) : SameEntries s c.vm := by
  unfold returnStep at h
  obtain ⟨⟨v, s₁⟩, hret, h⟩ := Option.bind_eq_some_iff.1 h
  have huntouched : Untouched s s₁ := returnFromClosure_untouched hret
  refine huntouched.sameEntries.trans ?_
  simp only at h
  split at h
  · cases h
    exact .refl _
  · exact invokeContinuation_entries h
  · exact raiseTo_entries h
  · cases h
    exact (hL.resume _ _ _).sameEntries

/-- A step at an instruction: the handler runs, then its request is served. -/
lemma step_exec {c c' : Config H} {vm : VM H} (hcontrol : c.control = .run vm)
    (hrun : vm.exited = false) (h : c.step L (gotoLoop L) = some c') :
    0 ≤ vm.pc ∧ ∃ instr r s, vm.code[vm.pc.toNat]? = some instr ∧
      Goto.exec L instr { vm with pc := vm.pc + 1 } = some (r, s) ∧
      perform L r (c.steps + 1) c.host s = some c' := by
  unfold Config.step at h
  simp only [hcontrol, hrun, Bool.false_eq_true, if_false] at h
  unfold instrStep at h
  have hlimit : ¬ (gotoLoop L).limit = some c.steps := by simp [gotoLoop]
  rw [if_neg hlimit] at h
  split at h
  · cases h
  · obtain ⟨instr, hfetch, hrest⟩ := Option.bind_eq_some_iff.1 h
    obtain ⟨⟨r, s⟩, hexec, hperform⟩ := Option.bind_eq_some_iff.1 hrest
    exact ⟨by omega, instr, r, s, hfetch, hexec, hperform⟩

/-- A step writes handler and wind entries above the counts only, and changes no continuation. -/
lemma step_keptBelow (hL : NativesKeep L) {c c' : Config H}
    (h : c.step L (gotoLoop L) = some c') : KeptBelow c.vm c'.vm := by
  rcases c with ⟨control, steps, host⟩
  cases control with
  | native act => exact (nativeStep_entries hL h).keptBelow
  | run vm =>
    cases hexit : vm.exited with
    | true =>
      unfold Config.step at h
      simp only [hexit, if_true] at h
      cases host with
      | nil =>
        cases h
        exact (SameEntries.refl vm).keptBelow
      | cons f host => exact (returnStep_entries hL h).keptBelow
    | false =>
      obtain ⟨-, instr, r, s, -, hexec, hperform⟩ := step_exec rfl hexit h
      rcases exec_entries hexec with ⟨hkept, rfl⟩ | hsame
      · cases hperform
        exact ⟨hkept.handlers, hkept.winds, hkept.continuations⟩
      · have hstep := hsame.trans (perform_entries hL hperform)
        exact ⟨fun i _ => by rw [hstep.handlerStack]; rfl,
          fun i _ => by rw [hstep.windStack]; rfl, hstep.continuations⟩

end machine

end Vm
