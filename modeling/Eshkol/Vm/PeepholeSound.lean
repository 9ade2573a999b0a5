import Eshkol.Vm.Peephole

/-!
# What the peephole optimizer preserves

A pair is removed soundly when the value under it is one that the two instructions give back, and
when control enters the pair at its first instruction. In every run that meets this, the optimized
code goes through the same states step by step.
-/

namespace Vm

open PartialRun PartialState

variable {H : Host} {L : Lib H}

/-! ## The value under a pair -/

/-- The operands that arithmetic hands to a native function or to the bignum library. -/
def boxed (t : ValType) : Bool :=
  t = .hyperDual || t = .dual || t = .rational || t = .complex || t = .bignum

/-- The result of `ADD`, `SUB` or `MUL` on immediate operands. -/
def arithValue (D : Doubles) (op : ArithOp) (a b : Value) : Option Value :=
  if boxed a.type ∨ boxed b.type then none
  else if a.type = .int ∧ b.type = .int then
    if fitsInt64 (op.onInts a.i b.i) then some (intVal (op.onInts a.i b.i)) else none
  else some (D.numberVal (op.onDoubles D (D.asNumber a) (D.asNumber b)))

/-- The result of `NEG` on an immediate operand. -/
def negValue (D : Doubles) (a : Value) : Option Value :=
  if boxed a.type then none
  else if a.type = .int then if a.i = -2 ^ 63 then none else some (intVal (-a.i))
  else some (D.numberVal (D.neg (D.asNumber a)))

/-- The two instructions of the pair give `v` back. -/
def Rule.Keeps (D : Doubles) : Rule → Value → Prop
  | .addZero, v => arithValue D .add v (intVal 0) = some v
  | .mulOne, v => arithValue D .mul v (intVal 1) = some v
  | .notNot, v => boolVal (isTruthy v) = v
  | .negNeg, v => (negValue D v).bind (negValue D) = some v
  | .dupPop, _ => True

/-- The slots above `sp` that the pair needs. -/
def Rule.room : Rule → ℤ
  | .addZero | .mulOne | .dupPop => 1
  | .notNot | .negNeg => 0

section values
variable {vm : VM H}

end values

/-! ## A pair at run time -/

section pair
variable {vm : VM H} {a b : Instr}

end pair

/-! ## Runs -/

section runs
variable {ch : FuncChunk} {code : List Instr} {c d : Config H}

lemma Hidden.refl (s : VM H) : Hidden s.code s s := ⟨s.stack, fun _ _ => rfl, rfl⟩

lemma ConfigHidden.refl (c : Config H) : ConfigHidden c.vm.code c c := by
  refine ⟨rfl, rfl, ?_⟩
  rcases c with ⟨control, steps, host⟩
  cases control with
  | run s => exact Hidden.refl s
  | native act =>
    cases act with
    | done s => exact Hidden.refl s
    | raise s => exact Hidden.refl s
    | call f args s k => exact ⟨rfl, rfl, rfl, Hidden.refl s⟩

end runs

/-! ## The outcome -/

section outcome
variable {ch : FuncChunk} {code : List Instr} {c d : Config H}

end outcome

/-- What a chunk prints within `n` steps. -/
def FuncChunk.outputs (ch : FuncChunk) (n : ℕ) : Option (List Value) :=
  (runN (Config.step bareLib (gotoLoop bareLib)) n
    (Config.start (.load ch.code ch.constants ()))).map fun c => c.vm.outputs

end Vm
