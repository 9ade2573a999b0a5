import Eshkol.Base.ReverseMode
import Mathlib.Analysis.Calculus.Deriv.Add
import Mathlib.Analysis.Calculus.Deriv.Inv
import Mathlib.Topology.Algebra.Module.ModuleTopology

/-!
# The recording tape

Reverse-mode differentiation with scalar nodes. Every operation is recorded with a closure that
turns the adjoint of its output into those of its inputs; `tape-gradient` walks the records from the
newest to the oldest. The numbers are any with the operations and the flonums that the tape writes. In
a field the flonums are its own elements, and the adjoints are the derivatives.
-/

namespace Ad

open ReverseMode (Edges Acyclic tangent accumulate visit sweep)

/-- A record `(output-node input-nodes backward-closure)`. -/
structure Op (K : Type) where
  out : ℕ
  ins : List ℕ
  backward : K → List K

/-- `#(ops nodes)`: both lists are built by prepending. -/
structure Tape (K : Type) where
  ops : List (Op K)
  nodes : List ℕ

/-- The tape with the two slots of every node made so far. -/
structure State (K : Type) where
  value : ℕ → K
  grad : ℕ → K
  count : ℕ
  tape : Tape K

/-- The flonums `0.0`, `1.0` and `2.0`. -/
class Flonums (K : Type) where
  zero : K
  one : K
  two : K

/-- `(= g 0.0)`. -/
class ZeroTest (K : Type) where
  isZero : K → Bool

/-- Exact arithmetic. -/
instance {K : Type} [Field K] : Flonums K := ⟨0, 1, 2⟩

instance {K : Type} [Field K] [DecidableEq K] : ZeroTest K := ⟨fun g => g = 0⟩

variable {K : Type}

section flonums

variable [Flonums K]

/-- `make-tape`, before any node is made. -/
def makeTape : State K := ⟨fun _ => Flonums.zero, fun _ => Flonums.zero, 0, ⟨[], []⟩⟩

/-- `tape-register-node!` of a new node `#(value 0.0)`. -/
def tapeRegisterNode (s : State K) (value : K) : State K × ℕ :=
  let n := s.count
  ({ value := Function.update s.value n value
     grad := Function.update s.grad n Flonums.zero
     count := n + 1
     tape := { s.tape with nodes := n :: s.tape.nodes } }, n)

/-- `tape-record!`. -/
def tapeRecord (s : State K) (out : ℕ) (ins : List ℕ) (backward : K → List K) : State K × ℕ :=
  ({ s with tape := { s.tape with ops := ⟨out, ins, backward⟩ :: s.tape.ops } }, out)

/-- `record-op!`. -/
def recordOp (s : State K) (inputs : List ℕ) (outValue : K) (backward : K → List K) :
    State K × ℕ :=
  let (s, out) := tapeRegisterNode s outValue
  tapeRecord s out inputs backward

/-- `tape-input`. -/
def tapeInput (s : State K) (value : K) : State K × ℕ := tapeRegisterNode s value

/-- `tape-const`. -/
def tapeConst (s : State K) (value : K) : State K × ℕ := tapeRegisterNode s value

end flonums

variable [Add K] [Sub K] [Mul K] [Div K] [Neg K] [Flonums K]

/-- `tape-add`. -/
def tapeAdd (s : State K) (a b : ℕ) : State K × ℕ :=
  let av := s.value a
  let bv := s.value b
  recordOp s [a, b] (av + bv) fun g => [g, g]

/-- `tape-sub`. -/
def tapeSub (s : State K) (a b : ℕ) : State K × ℕ :=
  let av := s.value a
  let bv := s.value b
  recordOp s [a, b] (av - bv) fun g => [g, -g]

/-- `tape-mul`. -/
def tapeMul (s : State K) (a b : ℕ) : State K × ℕ :=
  let av := s.value a
  let bv := s.value b
  recordOp s [a, b] (av * bv) fun g => [g * bv, g * av]

/-- `tape-div`, of a divisor that is not zero. -/
def tapeDiv (s : State K) (a b : ℕ) : State K × ℕ :=
  let av := s.value a
  let bv := s.value b
  recordOp s [a, b] (av / bv) fun g => [g / bv, -(g * av / (bv * bv))]

/-- `tape-neg`. -/
def tapeNeg (s : State K) (a : ℕ) : State K × ℕ :=
  let av := s.value a
  recordOp s [a] (-av) fun g => [-g]

/-- `tape-square`. -/
def tapeSquare (s : State K) (a : ℕ) : State K × ℕ :=
  let av := s.value a
  recordOp s [a] (av * av) fun g => [g * Flonums.two * av]

/-- `tape-distribute!`. -/
def tapeDistribute : List ℕ → List K → (ℕ → K) → ℕ → K
  | i :: ins, g :: grads, grad => tapeDistribute ins grads (Function.update grad i (grad i + g))
  | _, _, grad => grad

/-- `tape-zero-grads!`. -/
def tapeZeroGrads (s : State K) : State K :=
  { s with grad := s.tape.nodes.foldl (fun grad n => Function.update grad n Flonums.zero) s.grad }

section gradient

variable [ZeroTest K]

/-- The loop of `tape-gradient` on one record: zero adjoints are skipped. -/
def backwardStep (grad : ℕ → K) (op : Op K) : ℕ → K :=
  let g := grad op.out
  if !ZeroTest.isZero g then tapeDistribute op.ins (op.backward g) grad else grad

/-- `tape-gradient`, with the state it leaves. -/
def tapeGradient (s : State K) (output : ℕ) (targets : List ℕ) : List K × State K :=
  let s := tapeZeroGrads s
  let grad := Function.update s.grad output Flonums.one
  let grad := s.tape.ops.foldl backwardStep grad
  (targets.map grad, { s with grad := grad })

end gradient

/-! ## Recorded computations -/

/-- A call that makes a node. -/
inductive Instr (K : Type) where
  | input (v : K)
  | const (v : K)
  | add (a b : ℕ)
  | sub (a b : ℕ)
  | mul (a b : ℕ)
  | div (a b : ℕ)
  | neg (a : ℕ)
  | square (a : ℕ)

namespace Instr

/-- The nodes that a call reads. -/
def operands : Instr K → List ℕ
  | input _ | const _ => []
  | add a b | sub a b | mul a b | div a b => [a, b]
  | neg a | square a => [a]

/-- The call on a tape. -/
def run (s : State K) : Instr K → State K × ℕ
  | input v => tapeInput s v
  | const v => tapeConst s v
  | add a b => tapeAdd s a b
  | sub a b => tapeSub s a b
  | mul a b => tapeMul s a b
  | div a b => tapeDiv s a b
  | neg a => tapeNeg s a
  | square a => tapeSquare s a

/-- No division by zero. -/
def Defined [ZeroTest K] (value : ℕ → K) : Instr K → Prop
  | div _ b => ZeroTest.isZero (value b) = false
  | _ => True

/-- The value of the new node. -/
def eval (value : ℕ → K) : Instr K → K
  | input v | const v => v
  | add a b => value a + value b
  | sub a b => value a - value b
  | mul a b => value a * value b
  | div a b => value a / value b
  | neg a => -value a
  | square a => value a * value a

/-- The closure of the new node. -/
def backward (value : ℕ → K) : Instr K → K → List K
  | input _, _ | const _, _ => []
  | add _ _, g => [g, g]
  | sub _ _, g => [g, -g]
  | mul a b, g => [g * value b, g * value a]
  | div a b, g => [g / value b, -(g * value a / (value b * value b))]
  | neg _, g => [-g]
  | square a, g => [g * Flonums.two * value a]

end Instr

/-- The tapes that record a computation, with calls of `tape-gradient` in between. -/
inductive Records [ZeroTest K] : List (Instr K) → State K → Prop
  | make : Records [] makeTape
  | record {p : List (Instr K)} {s : State K} (h : Records p s) (i : Instr K)
      (hoperands : ∀ o ∈ i.operands, o < s.count) (hdefined : i.Defined s.value) :
      Records (p ++ [i]) (i.run s).1
  | gradient {p : List (Instr K)} {s : State K} (h : Records p s) (output : ℕ)
      (targets : List ℕ) (houtput : output < s.count) (htargets : ∀ t ∈ targets, t < s.count) :
      Records p (tapeGradient s output targets).2

/-- The value of node `k` when node `t` has the value `x` and the nodes after it are computed anew. -/
def replay (p : List (Instr K)) (t : ℕ) (x : K) (k : ℕ) : K :=
  if k = t then x
  else match p[k]? with
    | some i => i.eval fun o => if o < k then replay p t x o else Flonums.zero
    | none => Flonums.zero
termination_by k

/-! ## What the recording keeps -/

section record

variable {s : State K} {p p' : List (Instr K)} {i : Instr K} {value value' grad : ℕ → K}

omit [Flonums K] in
lemma Instr.eval_congr (h : ∀ o ∈ i.operands, value o = value' o) :
    i.eval value = i.eval value' := by
  cases i <;> simp_all [eval, operands]

omit [Add K] [Sub K] in
lemma Instr.backward_congr (h : ∀ o ∈ i.operands, value o = value' o) :
    i.backward value = i.backward value' := by
  funext g
  cases i <;> simp_all [backward, operands]

lemma Instr.run_value : (i.run s).1.value = Function.update s.value s.count (i.eval s.value) := by
  cases i <;> rfl

lemma Instr.run_count : (i.run s).1.count = s.count + 1 := by
  cases i <;> rfl

lemma Instr.run_nodes : (i.run s).1.tape.nodes = s.count :: s.tape.nodes := by
  cases i <;> rfl

omit [Add K] [Sub K] [Mul K] [Div K] [Neg K] [Flonums K] in
lemma foldl_update_self {z : K} {l : List ℕ} {n : ℕ} (h : n ∈ l ∨ grad n = z) :
    l.foldl (fun grad m => Function.update grad m z) grad n = z := by
  induction l generalizing grad with
  | nil => simpa using h
  | cons m l ih =>
    rw [List.foldl_cons]
    apply ih
    rcases eq_or_ne n m with rfl | hne
    · exact .inr (Function.update_self n z grad)
    · rw [Function.update_of_ne hne]
      simpa [hne] using h

variable [ZeroTest K]

omit [Add K] [Sub K] [Mul K] [Div K] [Neg K] [Flonums K] in
lemma Instr.defined_congr (h : ∀ o ∈ i.operands, value o = value' o) :
    i.Defined value ↔ i.Defined value' := by
  cases i <;> simp_all [Defined, operands]

/-- The record of a call, as the walk meets it. -/
def passStep (p : List (Instr K)) (value : ℕ → K) (k : ℕ) (grad : ℕ → K) : ℕ → K :=
  match p[k]? with
  | some i => backwardStep grad ⟨k, i.operands, i.backward value⟩
  | none => grad

/-- The walk over the calls before the `n`-th, the last one first. -/
def passDown (p : List (Instr K)) (value : ℕ → K) : ℕ → (ℕ → K) → ℕ → K
  | 0, grad => grad
  | n + 1, grad => passDown p value n (passStep p value n grad)

omit [Sub K] in
lemma passDown_congr {n : ℕ} (hp : ∀ k < n, p[k]? = p'[k]?)
    (hvalue : ∀ k < n, ∀ i, p[k]? = some i → ∀ o ∈ i.operands, value o = value' o) :
    passDown p value n grad = passDown p' value' n grad := by
  induction n generalizing grad with
  | zero => rfl
  | succ n ih =>
    have hstep : passStep p value n grad = passStep p' value' n grad := by
      rw [passStep, passStep, ← hp n (Nat.lt_succ_self n)]
      cases hi : p[n]? with
      | none => rfl
      | some i => simp only [Instr.backward_congr (hvalue n (Nat.lt_succ_self n) i hi)]
    rw [passDown, passDown, hstep, ih (fun k hk => hp k (hk.trans (Nat.lt_succ_self n)))
      fun k hk => hvalue k (hk.trans (Nat.lt_succ_self n))]

/-- Walking the records of one more call. A leaf has no record, and would pass nothing on. -/
lemma Instr.run_walk : (i.run s).1.tape.ops.foldl backwardStep grad =
    s.tape.ops.foldl backwardStep (backwardStep grad ⟨s.count, i.operands, i.backward s.value⟩) := by
  have hleaf : backwardStep grad ⟨s.count, [], fun _ => []⟩ = grad := by
    rw [backwardStep]
    split_ifs
    · rw [tapeDistribute.eq_def]
    · rfl
  cases i with
  | input v => exact congrArg (fun grad => s.tape.ops.foldl backwardStep grad) hleaf.symm
  | const v => exact congrArg (fun grad => s.tape.ops.foldl backwardStep grad) hleaf.symm
  | _ => rfl

/-- The tape records the computation. -/
structure Recorded (p : List (Instr K)) (s : State K) : Prop where
  count : s.count = p.length
  nodes : ∀ n < s.count, n ∈ s.tape.nodes
  operands : ∀ (k : ℕ) (i : Instr K), p[k]? = some i → ∀ o ∈ i.operands, o < k
  defined : ∀ (k : ℕ) (i : Instr K), p[k]? = some i → i.Defined s.value
  value : ∀ (k : ℕ) (i : Instr K), p[k]? = some i → s.value k = i.eval s.value
  walk : ∀ grad, s.tape.ops.foldl backwardStep grad = passDown p s.value s.count grad

lemma recorded_makeTape : Recorded ([] : List (Instr K)) makeTape where
  count := rfl
  nodes n hn := absurd hn (Nat.not_lt_zero n)
  operands k i h := by simp at h
  defined k i h := by simp at h
  value k i h := by simp at h
  walk grad := rfl

/-- A call leaves the value of every older node. -/
lemma Recorded.value_of_lt (h : Recorded p s) {k : ℕ} (hk : k < p.length) :
    (i.run s).1.value k = s.value k := by
  rw [Instr.run_value, Function.update_of_ne (by rw [h.count]; omega)]

lemma Recorded.record (h : Recorded p s) (hoperands : ∀ o ∈ i.operands, o < s.count)
    (hdefined : i.Defined s.value) : Recorded (p ++ [i]) (i.run s).1 := by
  have hold : ∀ (k : ℕ) (j : Instr K), p[k]? = some j → ∀ o ∈ j.operands,
      s.value o = (i.run s).1.value o := fun k j hj o ho => by
    have hk : k < p.length := (List.getElem?_eq_some_iff.1 hj).1
    exact (h.value_of_lt ((h.operands k j hj o ho).trans hk)).symm
  have hnew : ∀ o ∈ i.operands, s.value o = (i.run s).1.value o := fun o ho =>
    (h.value_of_lt (h.count ▸ hoperands o ho)).symm
  have hcases : ∀ k j, (p ++ [i])[k]? = some j → p[k]? = some j ∨ (k = p.length ∧ j = i) := by
    intro k j hj
    rw [List.getElem?_append] at hj
    split at hj
    · exact .inl hj
    · rename_i hlt
      obtain ⟨hk, rfl⟩ := List.getElem?_eq_some_iff.1 hj
      rw [List.length_singleton] at hk
      exact .inr ⟨by omega, by simp⟩
  constructor
  · rw [Instr.run_count, h.count, List.length_append, List.length_singleton]
  · intro n hn
    rw [Instr.run_count] at hn
    rw [Instr.run_nodes, List.mem_cons]
    rcases Nat.lt_succ_iff_lt_or_eq.1 hn with hn | rfl
    · exact .inr (h.nodes n hn)
    · exact .inl rfl
  · intro k j hj o ho
    rcases hcases k j hj with hj | ⟨rfl, rfl⟩
    · exact h.operands k j hj o ho
    · exact h.count ▸ hoperands o ho
  · intro k j hj
    rcases hcases k j hj with hj | ⟨rfl, rfl⟩
    · exact (Instr.defined_congr (hold k j hj)).1 (h.defined k j hj)
    · exact (Instr.defined_congr hnew).1 hdefined
  · intro k j hj
    rcases hcases k j hj with hj | ⟨rfl, rfl⟩
    · rw [h.value_of_lt (List.getElem?_eq_some_iff.1 hj).1, h.value k j hj,
        Instr.eval_congr (hold k j hj)]
    · rw [← Instr.eval_congr hnew, Instr.run_value, ← h.count, Function.update_self]
  · intro grad
    rw [Instr.run_walk, h.walk, Instr.run_count, passDown]
    have hlast : (p ++ [i])[s.count]? = some i := by rw [h.count, List.getElem?_concat_length]
    have hstep : passStep (p ++ [i]) (i.run s).1.value s.count grad =
        backwardStep grad ⟨s.count, i.operands, i.backward s.value⟩ := by
      rw [passStep, hlast]
      simp only [Instr.backward_congr hnew]
    rw [hstep]
    refine passDown_congr (fun k hk => ?_) fun k hk j hj => hold k j hj
    rw [List.getElem?_append_left (h.count ▸ hk)]

/-- A gradient leaves the recording as it was. -/
lemma Recorded.gradient (h : Recorded p s) (output : ℕ) (targets : List ℕ) :
    Recorded p (tapeGradient s output targets).2 :=
  ⟨h.count, h.nodes, h.operands, h.defined, h.value, h.walk⟩

/-- Run lemma: what recording leaves behind. -/
lemma Records.recorded (h : Records p s) : Recorded p s := by
  induction h with
  | make => exact recorded_makeTape
  | record _ i hoperands hdefined ih => exact ih.record hoperands hdefined
  | gradient _ output targets _ _ ih => exact ih.gradient output targets

/-- The adjoints that `tape-gradient` reads. -/
lemma Recorded.tapeGradient_eq (h : Recorded p s) (output : ℕ) (targets : List ℕ) :
    (tapeGradient s output targets).1 = targets.map (passDown p s.value s.count
      (Function.update (tapeZeroGrads s).grad output Flonums.one)) := by
  rw [tapeGradient]
  show targets.map (s.tape.ops.foldl backwardStep _) = _
  rw [h.walk]

lemma Recorded.zeroGrads (h : Recorded p s) {n : ℕ} (hn : n < s.count) :
    (tapeZeroGrads s).grad n = Flonums.zero := foldl_update_self (.inl (h.nodes n hn))

end record

/-! ## Exact arithmetic -/

section field

variable {K : Type} [Field K] {p : List (Instr K)} {i : Instr K} {value value' grad : ℕ → K}

/-- The partial derivatives of the new node by its operands. -/
def Instr.partials (value : ℕ → K) : Instr K → List K
  | input _ | const _ => []
  | add _ _ => [1, 1]
  | sub _ _ => [1, -1]
  | mul a b => [value b, value a]
  | div a b => [1 / value b, -(value a / (value b * value b))]
  | neg _ => [-1]
  | square a => [2 * value a]

/-- The edges of the new node. -/
def Instr.edges (value : ℕ → K) (i : Instr K) : List (ℕ × K) := i.operands.zip (i.partials value)

lemma Instr.edges_congr (h : ∀ o ∈ i.operands, value o = value' o) :
    i.edges value = i.edges value' := by
  cases i <;> simp_all [edges, partials, operands]

/-- A closure multiplies the adjoint with the partial derivatives. -/
lemma Instr.backward_eq (g : K) : i.backward value g = (i.partials value).map (g * ·) := by
  cases i with
  | div a b => simp only [backward, partials, List.map_cons, List.map_nil, mul_neg, mul_one_div, mul_div_assoc]
  | square a => simp [backward, partials, Flonums.two, mul_assoc]
  | _ => simp [backward, partials]

lemma tapeDistribute_eq (ins : List ℕ) (grads : List K) (grad : ℕ → K) :
    tapeDistribute ins grads grad = accumulate (ins.zip grads) grad := by
  induction ins generalizing grads grad with
  | nil => rw [tapeDistribute.eq_def]; rfl
  | cons n ins ih =>
    cases grads with
    | nil => rw [tapeDistribute.eq_def]; rfl
    | cons g grads => rw [tapeDistribute, ih]; rfl

lemma accumulate_zero {es : List (ℕ × K)} (h : ∀ e ∈ es, e.2 = 0) : accumulate es grad = grad := by
  induction es with
  | nil => rfl
  | cons e es ih =>
    obtain ⟨he, hes⟩ := List.forall_mem_cons.1 h
    rw [accumulate, he, add_zero, Function.update_eq_self, ih hes]

variable [DecidableEq K]

/-- A record whose closure multiplies the adjoint with the partial derivatives. -/
lemma backwardStep_eq {out : ℕ} {ins : List ℕ} {partials : List K} {backward : K → List K}
    (h : ∀ g, backward g = partials.map (g * ·)) :
    backwardStep grad ⟨out, ins, backward⟩ = visit (fun _ => ins.zip partials) out grad := by
  have hzip : ins.zip (backward (grad out)) =
      (ins.zip partials).map fun e => (e.1, grad out * e.2) := by
    rw [h, List.zip_map_right]
    rfl
  rw [backwardStep, tapeDistribute_eq, hzip, visit]
  by_cases hg : grad out = 0
  · -- a zero adjoint would add zeros
    rw [if_neg (by simp [ZeroTest.isZero, hg]), accumulate_zero]
    intro e he
    obtain ⟨e', -, rfl⟩ := List.mem_map.1 he
    rw [hg, zero_mul]
  · rw [if_pos (by simp [ZeroTest.isZero, hg])]

/-- The edges of a recorded computation. -/
def edgesOf (p : List (Instr K)) (value : ℕ → K) : Edges K := fun k =>
  match p[k]? with
  | some i => i.edges value
  | none => []

/-- The walk is the sweep over the edges. -/
lemma passDown_eq (n : ℕ) : passDown p value n grad = sweep (edgesOf p value) n grad := by
  induction n generalizing grad with
  | zero => rfl
  | succ n ih =>
    have hstep : passStep p value n grad = visit (edgesOf p value) n grad := by
      rw [passStep, visit, edgesOf]
      cases p[n]? with
      | none => rfl
      | some i => exact backwardStep_eq Instr.backward_eq
    rw [passDown, sweep, hstep, ih]

/-- The values of a computation. -/
structure Computes (p : List (Instr K)) (value : ℕ → K) : Prop where
  operands : ∀ (k : ℕ) (i : Instr K), p[k]? = some i → ∀ o ∈ i.operands, o < k
  defined : ∀ (k : ℕ) (i : Instr K), p[k]? = some i → i.Defined value
  value : ∀ (k : ℕ) (i : Instr K), p[k]? = some i → value k = i.eval value

lemma Computes.acyclic (h : Computes p value) : Acyclic (edgesOf p value) := by
  intro k e he
  unfold edgesOf at he
  split at he
  case h_1 i hi => exact h.operands k i hi e.1 (List.of_mem_zip he).1
  case h_2 => simp at he

end field

/-! ## Derivatives -/

section derivative

variable {K : Type} [NontriviallyNormedField K] {p : List (Instr K)} {value : ℕ → K} {t k : ℕ}

lemma replay_self {x : K} : replay p t x t = x := by rw [replay, if_pos rfl]

lemma Instr.replay_eq {i : Instr K} (hk : k ≠ t) (hi : p[k]? = some i)
    (hoperands : ∀ o ∈ i.operands, o < k) (x : K) :
    replay p t x k = i.eval (replay p t x) := by
  rw [replay, if_neg hk]
  simp only [hi]
  exact Instr.eval_congr fun o ho => if_pos (hoperands o ho)

/-- A call is differentiated by the partial derivatives at its operands. -/
lemma Instr.hasDerivAt_eval {i : Instr K} {f : K → ℕ → K} {f' : ℕ → K} {x : K}
    [DecidableEq K] (hf : ∀ o ∈ i.operands, HasDerivAt (fun x => f x o) (f' o) x) (hdefined : i.Defined (f x)) :
    HasDerivAt (fun x => i.eval (f x)) (((i.edges (f x)).map fun e => e.2 * f' e.1).sum) x := by
  cases i with
  | input v => simpa [edges, operands, eval] using hasDerivAt_const x v
  | const v => simpa [edges, operands, eval] using hasDerivAt_const x v
  | add a b =>
    have ha := hf a (by simp [operands])
    have hb := hf b (by simp [operands])
    refine (ha.add hb).congr_deriv ?_
    simp [edges, operands, partials]
  | sub a b =>
    have ha := hf a (by simp [operands])
    have hb := hf b (by simp [operands])
    refine (ha.sub hb).congr_deriv ?_
    simp [edges, operands, partials, sub_eq_add_neg]
  | mul a b =>
    have ha := hf a (by simp [operands])
    have hb := hf b (by simp [operands])
    refine (ha.mul hb).congr_deriv ?_
    simp [edges, operands, partials, mul_comm]
  | div a b =>
    have ha := hf a (by simp [operands])
    have hb := hf b (by simp [operands])
    have hne : f x b ≠ 0 := of_decide_eq_false hdefined
    refine (ha.div hb hne).congr_deriv ?_
    simp [edges, operands, partials]
    field_simp
    ring
  | neg a =>
    have ha := hf a (by simp [operands])
    refine ha.neg.congr_deriv ?_
    simp [edges, operands, partials]
  | square a =>
    have ha := hf a (by simp [operands])
    refine (ha.mul ha).congr_deriv ?_
    simp [edges, operands, partials]
    ring

variable [DecidableEq K]

/-- Replayed with its own value at node `t`, the computation has the recorded values. -/
lemma Computes.replay_value (h : Computes p value) (t : ℕ) (hk : k < p.length) :
    replay p t (value t) k = value k := by
  induction k using Nat.strong_induction_on with
  | h k ih =>
    rcases eq_or_ne k t with rfl | hne
    · exact replay_self
    · have hi := List.getElem?_eq_getElem hk
      have hoperands := h.operands k _ hi
      rw [Instr.replay_eq hne hi hoperands, h.value k _ hi]
      exact Instr.eval_congr fun o ho =>
        ih o (hoperands o ho) ((hoperands o ho).trans hk)

/-- The tangents are the derivatives of the replayed values. -/
lemma Computes.hasDerivAt_replay (h : Computes p value) (t : ℕ) (hk : k < p.length) :
    HasDerivAt (fun x => replay p t x k) (tangent (edgesOf p value) t k) (value t) := by
  induction k using Nat.strong_induction_on with
  | h k ih =>
    rcases eq_or_ne k t with rfl | hne
    · rw [ReverseMode.tangent_self]
      refine (hasDerivAt_id (value k)).congr_of_eventuallyEq ?_
      exact Filter.Eventually.of_forall fun x => replay_self
    · have hi := List.getElem?_eq_getElem hk
      have hoperands := h.operands k _ hi
      have hvalue : ∀ o ∈ p[k].operands, replay p t (value t) o = value o := fun o ho =>
        h.replay_value t ((hoperands o ho).trans hk)
      have hderiv := Instr.hasDerivAt_eval
        (fun o ho => ih o (hoperands o ho) ((hoperands o ho).trans hk))
        ((Instr.defined_congr hvalue).2 (h.defined k _ hi))
      have hedges : edgesOf p value k = p[k].edges (replay p t (value t)) := by
        rw [edgesOf, hi]
        exact (Instr.edges_congr hvalue).symm
      rw [ReverseMode.tangent_of_ne h.acyclic hne, hedges]
      refine hderiv.congr_of_eventuallyEq (Filter.Eventually.of_forall fun x => ?_)
      exact Instr.replay_eq hne hi hoperands x

/-- In exact arithmetic the walk gives the derivatives of the output, the rest of the computation being
replayed. -/
lemma Computes.hasDerivAt (h : Computes p value) {output : ℕ} (houtput : output < p.length) (ht : t < p.length) :
    HasDerivAt (fun x => replay p t x output)
      (passDown p value p.length (Function.update (fun _ => 0) output 1) t) (value t) := by
  have hderiv := h.hasDerivAt_replay t houtput
  rwa [← ReverseMode.sweep_seed h.acyclic (Function.update_self output 1 fun _ => 0)
    (fun n _ hne => Function.update_of_ne hne 1 fun _ => 0) houtput ht, ← passDown_eq] at hderiv

end derivative

end Ad
