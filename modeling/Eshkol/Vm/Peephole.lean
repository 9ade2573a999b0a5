import Eshkol.Vm.DeadSlots

/-!
# The peephole optimizer

`vm_peephole.c`. The pass looks at every two neighbouring instructions from left to right and
overwrites pairs that cancel with `NOP`s, until nothing changes. Nothing is moved, so program
counters keep their meaning.
-/

namespace Vm

open PartialRun PartialState

/-- The part of a `FuncChunk` the optimizer works on. -/
structure FuncChunk where
  code : List Instr
  constants : List Value
deriving DecidableEq, Repr

/-! ## The pass -/

/-- `c->constants[i]`. -/
def constantOf (constants : List Value) (i : ℤ) : Option Value :=
  if 0 ≤ i then constants[i.toNat]? else none

/-- `v.type == VAL_INT && v.as.i == k`. -/
def Value.isInt (v : Value) (k : ℤ) : Bool := v.type = .int && v.i = k

def nopInstr : Instr := ⟨.nop, 0⟩

/-- The five rewrites that take effect. -/
inductive Rule where
  | addZero | mulOne | notNot | negNeg | dupPop
deriving DecidableEq, Repr

/-- The rewrite that applies to two neighbours. -/
def matchRule (constants : List Value) (a b : Instr) : Option Rule :=
  match a.op, b.op with
  | .const, .add => if (constantOf constants a.operand).any (·.isInt 0) then some .addZero else none
  | .const, .mul => if (constantOf constants a.operand).any (·.isInt 1) then some .mulOne else none
  | .not, .not => some .notNot
  | .neg, .neg => some .negNeg
  | .dup, .pop => some .dupPop
  | _, _ => none

def matchAt (constants : List Value) (code : List Instr) (i : ℕ) : Option Rule :=
  match code[i]?, code[i + 1]? with
  | some a, some b => matchRule constants a b
  | _, _ => none

/-- The pairs, taken greedily from the left; `taken` says that the first instruction already
belongs to one. -/
def pairFrom (constants : List Value) (taken : Bool) (code : List Instr) : ℕ → Option Rule
  | 0 => if taken then none else matchAt constants code 0
  | i + 1 => if (pairFrom constants taken code i).isSome then none else matchAt constants code (i + 1)

/-- Instruction `i` belongs to a pair. -/
def inPair (constants : List Value) (taken : Bool) (code : List Instr) : ℕ → Bool
  | 0 => taken || (pairFrom constants taken code 0).isSome
  | i + 1 => (pairFrom constants taken code i).isSome || (pairFrom constants taken code (i + 1)).isSome

/-- The two instructions do the same: they are equal, or both are `MUL`. -/
def SameOp (a b : Instr) : Prop := a = b ∨ a.op = .mul ∧ b.op = .mul

/-- The constants that the pass looks at exist. -/
def InPool (constants : List Value) (code : List Instr) : Prop :=
  ∀ i a b, code[i]? = some a → code[i + 1]? = some b → a.op = .const → b.op = .add ∨ b.op = .mul →
    (constantOf constants a.operand).isSome

/-- `out` is `code` with `NOP`s in the pairs. -/
def Eliminated (constants : List Value) (taken : Bool) (code out : List Instr) : Prop :=
  out.length = code.length ∧
    ∀ i a, code[i]? = some a → ∃ b, out[i]? = some b ∧
      if inPair constants taken code i then b = nopInstr else SameOp a b

section pass
variable {constants : List Value} {a b : Instr}

lemma SameOp.trans {c : Instr} (h₁ : SameOp a b) (h₂ : SameOp b c) : SameOp a c := by
  rcases h₁ with rfl | h₁
  · exact h₂
  · rcases h₂ with rfl | h₂
    · exact .inr h₁
    · exact .inr ⟨h₁.1, h₂.2⟩

lemma SameOp.op_eq (h : SameOp a b) : b.op = a.op := by
  rcases h with rfl | h
  · rfl
  · rw [h.1, h.2]

lemma matchRule_nop_left : matchRule constants nopInstr b = none := rfl

lemma matchRule_nop_right : matchRule constants a nopInstr = none := by
  rcases a with ⟨op, operand⟩
  cases op <;> rfl

/-- The operand of the second instruction plays no part, nor does that of a `MUL`. -/
lemma matchRule_sameOp {a' b' : Instr} (ha : SameOp a a') (hb : SameOp b b') :
    matchRule constants a' b' = matchRule constants a b := by
  unfold matchRule
  rw [hb.op_eq, ha.op_eq]
  rcases ha with rfl | ha
  · rfl
  · rw [ha.1]

lemma pairFrom_succ (taken : Bool) (code : List Instr) (i : ℕ) :
    pairFrom constants taken code (i + 1) =
      if (pairFrom constants taken code i).isSome then none else matchAt constants code (i + 1) :=
  rfl

lemma matchAt_eq_none {code : List Instr} (h : code.length ≤ 1) (i : ℕ) :
    matchAt constants code i = none := by
  unfold matchAt
  rw [show code[i + 1]? = none from List.getElem?_eq_none (by omega)]
  cases code[i]? <;> rfl

lemma pairFrom_eq_none {taken : Bool} {code : List Instr}
    (h : ∀ i, matchAt constants code i = none) (i : ℕ) : pairFrom constants taken code i = none := by
  cases i with
  | zero =>
    unfold pairFrom
    rw [h 0, ite_self]
  | succ i => rw [pairFrom_succ, h (i + 1), ite_self]

lemma InPool.tail {code : List Instr} (h : InPool constants (a :: code)) :
    InPool constants code := fun i => h (i + 1)

/-- Where an instruction is not in a pair it is not the second one of a pair either. -/
lemma pairFrom_of_not_inPair {code : List Instr} {i : ℕ}
    (h : inPair constants false code i = false) (h' : inPair constants false code (i + 1) = false) :
    matchAt constants code i = none := by
  have hpair : pairFrom constants false code i = matchAt constants code i := by
    cases i with
    | zero => rfl
    | succ i =>
      have hprev : (pairFrom constants false code i).isSome = false := (Bool.or_eq_false_iff.1 h).1
      rw [pairFrom_succ, hprev]
      rfl
  have hnone : (pairFrom constants false code i).isSome = false := (Bool.or_eq_false_iff.1 h').1
  rw [hpair] at hnone
  simpa using hnone

/-- After one round no neighbours cancel any more. -/
lemma Eliminated.matchAt_eq_none {code out : List Instr}
    (h : Eliminated constants false code out) (i : ℕ) : matchAt constants out i = none := by
  obtain ⟨hlen, hspec⟩ := h
  by_cases hi : i + 1 < code.length
  · obtain ⟨a', ha', hrel⟩ := hspec i _ (List.getElem?_eq_getElem (by omega))
    obtain ⟨b', hb', hrel'⟩ := hspec (i + 1) _ (List.getElem?_eq_getElem hi)
    unfold matchAt
    rw [ha', hb']
    show matchRule constants a' b' = none
    by_cases hin : inPair constants false code i = true
    · rw [if_pos hin] at hrel
      rw [hrel, matchRule_nop_left]
    · by_cases hin' : inPair constants false code (i + 1) = true
      · rw [if_pos hin'] at hrel'
        rw [hrel', matchRule_nop_right]
      · rw [if_neg hin] at hrel
        rw [if_neg hin'] at hrel'
        have hnone := pairFrom_of_not_inPair (by simpa using hin) (by simpa using hin')
        unfold matchAt at hnone
        rw [List.getElem?_eq_getElem (by omega), List.getElem?_eq_getElem hi] at hnone
        rw [matchRule_sameOp hrel hrel']
        exact hnone
  · unfold matchAt
    rw [show out[i + 1]? = none from List.getElem?_eq_none (by omega)]
    cases out[i]? <;> rfl

/-- An instruction of the result that is no `NOP` comes from the same one of the code. -/
lemma Eliminated.origin {taken : Bool} {code out : List Instr}
    (h : Eliminated constants taken code out) {i : ℕ} {b : Instr} (hb : out[i]? = some b)
    (hnop : b.op ≠ .nop) : ∃ a, code[i]? = some a ∧ SameOp a b := by
  obtain ⟨hlen, hspec⟩ := h
  have hi : i < code.length := by
    rw [← hlen]
    exact (List.getElem?_eq_some_iff.1 hb).1
  obtain ⟨b', hb', hrel⟩ := hspec i _ (List.getElem?_eq_getElem hi)
  rw [hb] at hb'
  cases hb'
  refine ⟨_, List.getElem?_eq_getElem hi, ?_⟩
  split at hrel
  · rw [hrel] at hnop
    exact absurd rfl hnop
  · exact hrel

lemma inPair_eq_false {code : List Instr} (h : ∀ i, pairFrom constants false code i = none)
    (i : ℕ) : inPair constants false code i = false := by
  cases i with
  | zero => simp [inPair, h 0]
  | succ i => simp [inPair, h i, h (i + 1)]

/-- A second round changes nothing that matters. -/
lemma Eliminated.trans {code out out' : List Instr} (h : Eliminated constants false code out)
    (h' : Eliminated constants false out out') : Eliminated constants false code out' := by
  refine ⟨h'.1.trans h.1, fun i a ha => ?_⟩
  obtain ⟨b, hb, hrel⟩ := h.2 i a ha
  obtain ⟨c, hc, hrel'⟩ := h'.2 i b hb
  have hout := inPair_eq_false (pairFrom_eq_none h.matchAt_eq_none) i
  rw [hout] at hrel'
  simp only [Bool.false_eq_true, if_false] at hrel'
  refine ⟨c, hc, ?_⟩
  split
  · rename_i hin
    rw [if_pos hin] at hrel
    subst hrel
    rcases hrel' with rfl | hrel'
    · rfl
    · cases hrel'.1
  · rename_i hin
    rw [if_neg hin] at hrel
    exact hrel.trans hrel'

end pass

end Vm
