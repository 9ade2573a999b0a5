import Eshkol.Ad.Tape
import Mathlib.Data.PNat.Basic
import Mathlib.Tactic.GCongr
import Mathlib.Tactic.Ring

/-!
# Checkpointed reverse

A chain of layers on Taylor towers is differentiated by one scalar parameter, either on one tape or
block by block from checkpoints, with the adjoint of a block's input handed on to the block before.
The numbers are any with the operations that a layer makes: the size of the tapes does not depend on them.
-/

namespace Checkpoint

open Ad

/-- A vector of `order + 1` coefficients. -/
abbrev Tower (A : Type) := ℕ → A

/-! ## Towers of plain numbers -/

variable {K : Type} [Add K] [Mul K] [Div K] [Neg K] [NatCast K] [Flonums K] (sin cos : K → K)

/-- `cr-factorial`. -/
def crFactorial : ℕ → K
  | 0 => Flonums.one
  | n + 1 => if n + 1 ≤ 1 then Flonums.one else ((n + 1 : ℕ) : K) * crFactorial n

/-- `cr-tower-new`. -/
def crTowerNew : Tower K := fun _ => Flonums.zero

/-- `cr-tower-seed`. -/
def crTowerSeed (t0 : K) (order : ℕ) : Tower K :=
  let tw := Function.update crTowerNew 0 t0
  if order ≥ 1 then Function.update tw 1 Flonums.one else tw

/-- `cr-tower-copy`. -/
def crTowerCopy (tw : Tower K) (order : ℕ) : Tower K :=
  (List.range (order + 1)).foldl (fun out k => Function.update out k (tw k)) crTowerNew

/-- `cr-tower-scale`. -/
def crTowerScale (tw : Tower K) (v : K) (order : ℕ) : Tower K :=
  (List.range (order + 1)).foldl (fun out k => Function.update out k (v * tw k)) crTowerNew

/-- The inner loop of `cr-tower-sin`: `sum-s` and `sum-c` after the terms up to `n`. -/
def sinSums (tw s c : Tower K) (k n : ℕ) : K × K :=
  (List.range' 1 n).foldl (fun sums (j : ℕ) =>
    let juj := (j : K) * tw j
    (sums.1 + juj * c (k - j), sums.2 + juj * s (k - j))) (Flonums.zero, Flonums.zero)

/-- The outer loop of `cr-tower-sin`: both towers after the coefficients up to `n`. -/
def sinTowers (tw : Tower K) (n : ℕ) : Tower K × Tower K :=
  (List.range' 1 n).foldl (fun sc (k : ℕ) =>
    let sums := sinSums tw sc.1 sc.2 k k
    (Function.update sc.1 k (sums.1 / (k : K)), Function.update sc.2 k (-(sums.2 / (k : K)))))
    (Function.update crTowerNew 0 (sin (tw 0)), Function.update crTowerNew 0 (cos (tw 0)))

/-- `cr-tower-sin`. -/
def crTowerSin (tw : Tower K) (order : ℕ) : Tower K := (sinTowers sin cos tw order).1

/-- `cr-layer-forward`. -/
def crLayerForward (tw : Tower K) (v : K) (order : ℕ) : Tower K :=
  crTowerSin sin cos (crTowerScale tw v order) order

/-- The `advance` loop, over `n` layers. -/
def advance (v : K) (order n : ℕ) (x : Tower K) : Tower K :=
  (List.range n).foldl (fun xx _ => crLayerForward sin cos xx v order) x

/-- The loop of `cr-block-boundaries`. -/
def boundariesLoop (n : ℕ) (block : ℕ+) (i : ℕ) (acc : List ℕ) : List ℕ :=
  if i ≥ n then acc.reverse
  else
    let i2 := if i + block < n then i + block else n
    boundariesLoop n block i2 (i2 :: acc)
termination_by n - i
decreasing_by
  have := block.pos
  split_ifs <;> omega

/-- `cr-block-boundaries`. -/
def crBlockBoundaries (n : ℕ) (block : ℕ+) : List ℕ := boundariesLoop n block 0 [0]

/-- The loop of `cr-forward-checkpoints`. -/
def checkpointsLoop (v : K) (order : ℕ) : List ℕ → ℕ → Tower K → List (Tower K) → List (Tower K)
  | _ :: target :: bs, i, x, acc =>
    let xx := advance sin cos v order (target - i) x
    checkpointsLoop v order (target :: bs) (max i target) xx (crTowerCopy xx order :: acc)
  | _, _, _, acc => acc.reverse

/-- `cr-forward-checkpoints`. -/
def crForwardCheckpoints (t0 v : K) (order : ℕ) (boundaries : List ℕ) : List (Tower K) :=
  let seed := crTowerSeed t0 order
  checkpointsLoop sin cos v order boundaries 0 seed [crTowerCopy seed order]

/-! ## Towers on the tape -/

/-- `tape-sin`. -/
def tapeSin (s : State K) (a : ℕ) : State K × ℕ :=
  let av := s.value a
  recordOp s [a] (sin av) fun g => [g * cos av]

/-- `tape-cos`. -/
def tapeCos (s : State K) (a : ℕ) : State K × ℕ :=
  let av := s.value a
  recordOp s [a] (cos av) fun g => [g * -sin av]

/-- `tape-node-count`. -/
def tapeNodeCount (s : State K) : ℕ := s.tape.nodes.length

/-- `tape-op-count`. -/
def tapeOpCount (s : State K) : ℕ := s.tape.ops.length

/-- `cr-tower-const-tape`, up to coefficient `n`. -/
def constTapeLoop (s : State K) (vals : Tower K) (n : ℕ) : State K × Tower ℕ :=
  (List.range n).foldl (fun st k =>
    let made := tapeConst st.1 (vals k)
    (made.1, Function.update st.2 k made.2)) (s, fun _ => 0)

/-- `cr-tower-const-tape`. -/
def crTowerConstTape (s : State K) (order : ℕ) (vals : Tower K) : State K × Tower ℕ :=
  constTapeLoop s vals (order + 1)

/-- `cr-tower-scale-tape`, up to coefficient `n`. -/
def scaleTapeLoop (s : State K) (tw : Tower ℕ) (vnode n : ℕ) : State K × Tower ℕ :=
  (List.range n).foldl (fun st k =>
    let made := tapeMul st.1 (tw k) vnode
    (made.1, Function.update st.2 k made.2)) (s, fun _ => 0)

/-- `cr-tower-scale-tape`. -/
def crTowerScaleTape (s : State K) (tw : Tower ℕ) (vnode order : ℕ) : State K × Tower ℕ :=
  scaleTapeLoop s tw vnode (order + 1)

/-- An accumulator that begins as `#f` takes a term. -/
def accumulateTape (s : State K) (acc : Option ℕ) (term : ℕ) : State K × ℕ :=
  match acc with
  | some a => tapeAdd s a term
  | none => (s, term)

/-- One step of the inner loop of `cr-tower-sin-tape`. -/
def sinTapeTerm (tw sn cn : Tower ℕ) (k : ℕ) (st : State K × Option ℕ × Option ℕ) (j : ℕ) :
    State K × Option ℕ × Option ℕ :=
  let jc := tapeConst st.1 (j : K)
  let juj := tapeMul jc.1 jc.2 (tw j)
  let termS := tapeMul juj.1 juj.2 (cn (k - j))
  let termC := tapeMul termS.1 juj.2 (sn (k - j))
  let accS := accumulateTape termC.1 st.2.1 termS.2
  let accC := accumulateTape accS.1 st.2.2 termC.2
  (accC.1, some accS.2, some accC.2)

/-- One step of the outer loop of `cr-tower-sin-tape`. -/
def sinTapeStep (tw : Tower ℕ) (st : State K × Tower ℕ × Tower ℕ) (k : ℕ) :
    State K × Tower ℕ × Tower ℕ :=
  let sums := (List.range' 1 k).foldl (sinTapeTerm tw st.2.1 st.2.2 k) (st.1, none, none)
  let kc := tapeConst sums.1 (k : K)
  let sk := tapeDiv kc.1 (sums.2.1.getD 0) kc.2
  let quot := tapeDiv sk.1 (sums.2.2.getD 0) kc.2
  let ck := tapeNeg quot.1 quot.2
  (ck.1, Function.update st.2.1 k sk.2, Function.update st.2.2 k ck.2)

/-- `cr-tower-sin-tape`. -/
def crTowerSinTape (s : State K) (tw : Tower ℕ) (order : ℕ) : State K × Tower ℕ :=
  let s0 := tapeSin sin cos s (tw 0)
  let c0 := tapeCos sin cos s0.1 (tw 0)
  let st := (List.range' 1 order).foldl (sinTapeStep tw)
    (c0.1, Function.update (fun _ => 0) 0 s0.2, Function.update (fun _ => 0) 0 c0.2)
  (st.1, st.2.1)

/-- `cr-layer-tape`. -/
def crLayerTape (s : State K) (tw : Tower ℕ) (vnode order : ℕ) : State K × Tower ℕ :=
  let scaled := crTowerScaleTape s tw vnode order
  crTowerSinTape sin cos scaled.1 scaled.2 order

/-- The loop over `n` layers. -/
def layersTape (s : State K) (tw : Tower ℕ) (vnode order n : ℕ) : State K × Tower ℕ :=
  (List.range n).foldl (fun st _ => crLayerTape sin cos st.1 st.2 vnode order) (s, tw)

/-- `cr-vjp-seed`, up to coefficient `n`. -/
def vjpLoop (s : State K) (x : Tower ℕ) (adjoint : Tower K) (n : ℕ) : State K × Option ℕ :=
  (List.range n).foldl (fun st m =>
    let w := tapeConst st.1 (adjoint m)
    let term := tapeMul w.1 w.2 (x m)
    let acc := accumulateTape term.1 st.2 term.2
    (acc.1, some acc.2)) (s, none)

/-- `cr-vjp-seed`. -/
def crVjpSeed (s : State K) (x : Tower ℕ) (adjoint : Tower K) (order : ℕ) : State K × ℕ :=
  let st := vjpLoop s x adjoint (order + 1)
  (st.1, st.2.getD 0)

/-- `cr-vec->list`. -/
def crVecToList {A : Type} (order : ℕ) (v : Tower A) : List A := (List.range (order + 1)).map v

/-- The loop of `cr-list->vec`. -/
def listToVecLoop : List K → ℕ → Tower K → Tower K
  | [], _, out => out
  | a :: l, k, out => listToVecLoop l (k + 1) (Function.update out k a)

/-- `cr-list->vec`. -/
def crListToVec (lst : List K) : Tower K := listToVecLoop lst 0 crTowerNew

section drivers

variable [ZeroTest K]

/-- `#(dv-local new-adjoint peak-node-count peak-op-count)`. -/
structure BlockResult (K : Type) where
  dv : K
  adjoint : Tower K
  nodes : ℕ
  ops : ℕ

/-- `cr-backward-block`. -/
def crBackwardBlock (start stop : ℕ) (cpIn : Tower K) (v0 : K) (adjoint : Tower K) (order : ℕ) :
    BlockResult K :=
  let v := tapeInput makeTape v0
  let inTw := crTowerConstTape v.1 order cpIn
  let x := layersTape sin cos inTw.1 inTw.2 v.2 order (stop - start)
  let loss := crVjpSeed x.1 x.2 adjoint order
  let targets := v.2 :: crVecToList order inTw.2
  let grads := (tapeGradient loss.1 loss.2 targets).1
  ⟨grads.headD Flonums.zero, crListToVec grads.tail, tapeNodeCount loss.1, tapeOpCount loss.1⟩

/-- `#(dv peak-node-count peak-op-count)`. -/
structure DenseResult (K : Type) where
  dv : K
  nodes : ℕ
  ops : ℕ

/-- `dense-tower-reverse`. -/
def denseTowerReverse (t0 v0 : K) (n order k : ℕ) : DenseResult K :=
  let v := tapeInput makeTape v0
  let inTw := crTowerConstTape v.1 order (crTowerSeed t0 order)
  let x := layersTape sin cos inTw.1 inTw.2 v.2 order n
  let kfact := tapeConst x.1 (crFactorial k)
  let loss := tapeMul kfact.1 kfact.2 (x.2 k)
  let grads := (tapeGradient loss.1 loss.2 [v.2]).1
  ⟨grads.headD Flonums.zero, tapeNodeCount loss.1, tapeOpCount loss.1⟩

/-- `#(dv peak-node-count peak-op-count block-count block-size)`. -/
structure CheckpointedResult (K : Type) where
  dv : K
  peakNodes : ℕ
  peakOps : ℕ
  nblocks : ℕ
  block : ℕ+

/-- The loop of `checkpointed-tower-reverse`, from the last boundary to the first. -/
def reverseLoop (v0 : K) (order : ℕ) (block : ℕ+) :
    List ℕ → List (Tower K) → Tower K → K → ℕ → ℕ → ℕ → CheckpointedResult K
  | stop :: start :: ends, _ :: cpIn :: cps, adjoint, totalDv, peakNodes, peakOps, nblocks =>
    let res := crBackwardBlock sin cos start stop cpIn v0 adjoint order
    reverseLoop v0 order block (start :: ends) (cpIn :: cps) res.adjoint (totalDv + res.dv)
      (if res.nodes > peakNodes then res.nodes else peakNodes)
      (if res.ops > peakOps then res.ops else peakOps) (nblocks + 1)
  | _, _, _, totalDv, peakNodes, peakOps, nblocks => ⟨totalDv, peakNodes, peakOps, nblocks, block⟩

/-- `checkpointed-tower-reverse`. -/
def checkpointedTowerReverse (t0 v0 : K) (n order k : ℕ) (block : ℕ+) : CheckpointedResult K :=
  let boundaries := crBlockBoundaries n block
  let checkpoints := crForwardCheckpoints sin cos t0 v0 order boundaries
  let adjoint0 := Function.update crTowerNew k (crFactorial k)
  reverseLoop sin cos v0 order block boundaries.reverse checkpoints.reverse adjoint0 Flonums.zero 0 0 0

end drivers

/-! ## Loops -/

lemma foldl_range'_succ {σ : Type} (f : σ → ℕ → σ) (st : σ) (n : ℕ) :
    (List.range' 1 (n + 1)).foldl f st = f ((List.range' 1 n).foldl f st) (n + 1) := by
  rw [List.range'_concat, List.foldl_append]
  simp [Nat.add_comm]

/-! ## The schedule -/

/-- A boundary with one at most `block` layers before it. -/
def Follows (block : ℕ+) (start stop : ℕ) : Prop := start < stop ∧ stop ≤ start + block

/-- Increasing boundaries from 0 to `n`, at most `block` layers apart. -/
structure Schedule (n : ℕ) (block : ℕ+) (boundaries : List ℕ) : Prop where
  chain : boundaries.IsChain (Follows block)
  head : boundaries.head? = some 0
  last : boundaries.getLast? = some n
  length : boundaries.length = (n + block - 1) / block + 1

lemma boundariesLoop_spec (n : ℕ) (block : ℕ+) (i : ℕ) (acc : List ℕ) (hi : i ≤ n)
    (hchain : (i :: acc).IsChain (Function.swap (Follows block)))
    (hlast : (i :: acc).getLast? = some 0) :
    (boundariesLoop n block i (i :: acc)).IsChain (Follows block) ∧
      (boundariesLoop n block i (i :: acc)).head? = some 0 ∧
      (boundariesLoop n block i (i :: acc)).getLast? = some n ∧
      (boundariesLoop n block i (i :: acc)).length =
        acc.length + 1 + (n - i + block - 1) / block := by
  have hblock := block.pos
  rw [boundariesLoop]
  by_cases hdone : n ≤ i
  · obtain rfl := le_antisymm hi hdone
    rw [if_pos hdone]
    refine ⟨List.isChain_reverse.2 hchain, ?_, ?_, ?_⟩
    · rw [List.head?_reverse, hlast]
    · rw [List.getLast?_reverse, List.head?_cons]
    · have hzero : (i - i + (block : ℕ) - 1) / block = 0 := Nat.div_eq_of_lt (by omega)
      rw [hzero, List.length_reverse, List.length_cons, Nat.add_zero]
  · rw [if_neg hdone]
    by_cases hnext : i + block < n
    · simp only [if_pos hnext]
      have ih := boundariesLoop_spec n block (i + block) (i :: acc) hnext.le
        (List.isChain_cons_cons.2 ⟨⟨by omega, le_rfl⟩, hchain⟩)
        (by rw [List.getLast?_cons_cons, hlast])
      have hsplit : n - i + block - 1 = n - (i + block) + block - 1 + block := by omega
      have hdiv : (n - i + (block : ℕ) - 1) / block = (n - (i + block) + block - 1) / block + 1 := by
        rw [hsplit, Nat.add_div_right _ hblock]
      refine ⟨ih.1, ih.2.1, ih.2.2.1, ?_⟩
      rw [ih.2.2.2, hdiv, List.length_cons]
      omega
    · simp only [if_neg hnext]
      have ih := boundariesLoop_spec n block n (i :: acc) le_rfl
        (List.isChain_cons_cons.2 ⟨⟨by omega, by omega⟩, hchain⟩)
        (by rw [List.getLast?_cons_cons, hlast])
      have hone : (n - i + (block : ℕ) - 1) / block = 1 :=
        Nat.div_eq_of_lt_le (by omega) (by omega)
      have hzero : (n - n + (block : ℕ) - 1) / block = 0 := Nat.div_eq_of_lt (by omega)
      refine ⟨ih.1, ih.2.1, ih.2.2.1, ?_⟩
      rw [ih.2.2.2, hone, hzero, List.length_cons]
termination_by n - i

lemma schedule (n : ℕ) (block : ℕ+) : Schedule n block (crBlockBoundaries n block) := by
  obtain ⟨hchain, hhead, hlast, hlength⟩ := boundariesLoop_spec n block 0 [] (Nat.zero_le n)
    (List.isChain_singleton 0) rfl
  refine ⟨hchain, hhead, hlast, ?_⟩
  rw [crBlockBoundaries, hlength, Nat.sub_zero, List.length_nil, Nat.zero_add, Nat.add_comm]

/-- From the last boundary to the first. -/
lemma Schedule.reverse {n : ℕ} {block : ℕ+} {boundaries : List ℕ} (h : Schedule n block boundaries) :
    ∃ ends, boundaries.reverse = n :: ends ∧
      (n :: ends).IsChain (Function.swap (Follows block)) ∧ (n :: ends).getLast? = some 0 ∧
      ends.length = (n + block - 1) / block := by
  have hhead : boundaries.reverse.head? = some n := by rw [List.head?_reverse, h.last]
  obtain ⟨ends, hends⟩ := List.head?_eq_some_iff.1 hhead
  refine ⟨ends, hends, ?_, ?_, ?_⟩
  · rw [← hends]
    exact List.isChain_reverse.2 h.chain
  · rw [← hends, List.getLast?_reverse, h.head]
  · have hlength := congrArg List.length hends
    rw [List.length_reverse, h.length, List.length_cons] at hlength
    omega

lemma length_checkpointsLoop (v : K) (order b : ℕ) (bs : List ℕ) (i : ℕ) (x : Tower K) (acc : List (Tower K)) :
    (checkpointsLoop sin cos v order (b :: bs) i x acc).length = acc.length + bs.length := by
  induction bs generalizing b i x acc with
  | nil => simp [checkpointsLoop]
  | cons target bs ih =>
    rw [checkpointsLoop, ih, List.length_cons, List.length_cons]
    omega

/-! ## The size of the tape -/

section size

variable {order : ℕ} {s : State K} {k : ℕ}

omit [Add K] [Mul K] [Div K] [Neg K] [NatCast K] in
@[simp]
lemma tapeNodeCount_tapeConst (v : K) : tapeNodeCount (tapeConst s v).1 = tapeNodeCount s + 1 := rfl

omit [Add K] [Mul K] [Div K] [Neg K] [NatCast K] in
@[simp]
lemma tapeNodeCount_recordOp (ins : List ℕ) (v : K) (backward : K → List K) :
    tapeNodeCount (recordOp s ins v backward).1 = tapeNodeCount s + 1 := rfl

omit [Mul K] [Div K] [Neg K] [NatCast K] in
@[simp]
lemma tapeNodeCount_accumulateTape (acc : Option ℕ) (term : ℕ) :
    tapeNodeCount (accumulateTape s acc term).1 = tapeNodeCount s + if acc.isSome then 1 else 0 := by
  cases acc <;> rfl

omit [Add K] [Mul K] [Div K] [Neg K] [NatCast K] [Flonums K] in
/-- A loop that records `m` nodes in each turn. -/
lemma tapeNodeCount_foldl {σ : Type} {f : State K × σ → ℕ → State K × σ} {m : ℕ}
    (hstep : ∀ st i, tapeNodeCount (f st i).1 = tapeNodeCount st.1 + m) (st : State K × σ)
    (l : List ℕ) : tapeNodeCount (l.foldl f st).1 = tapeNodeCount st.1 + l.length * m := by
  induction l generalizing st with
  | nil => simp
  | cons i l ih =>
    rw [List.foldl_cons, ih, hstep, List.length_cons]
    ring

omit [Add K] [Mul K] [Div K] [Neg K] [NatCast K] in
lemma tapeNodeCount_crTowerConstTape (vals : Tower K) :
    tapeNodeCount (crTowerConstTape s order vals).1 = tapeNodeCount s + (order + 1) := by
  refine (tapeNodeCount_foldl (m := 1) (fun _ _ => rfl) (s, fun _ => 0) (List.range (order + 1))).trans ?_
  rw [List.length_range, Nat.mul_one]

omit [Add K] [Div K] [Neg K] [NatCast K] in
lemma tapeNodeCount_crTowerScaleTape (tw : Tower ℕ) (vnode : ℕ) :
    tapeNodeCount (crTowerScaleTape s tw vnode order).1 = tapeNodeCount s + (order + 1) := by
  refine (tapeNodeCount_foldl (m := 1) (fun _ _ => rfl) (s, fun _ => 0) (List.range (order + 1))).trans ?_
  rw [List.length_range, Nat.mul_one]

omit [Div K] [Neg K] in
/-- The first term of the two sums takes four nodes, every other one six. -/
lemma tapeNodeCount_sinTapeTerm (tw sn cn : Tower ℕ) (n : ℕ) :
    tapeNodeCount ((List.range' 1 (n + 1)).foldl (sinTapeTerm tw sn cn k) (s, none, none)).1 =
        tapeNodeCount s + 6 * n + 4 ∧
      ((List.range' 1 (n + 1)).foldl (sinTapeTerm tw sn cn k) (s, none, none)).2.1.isSome ∧
      ((List.range' 1 (n + 1)).foldl (sinTapeTerm tw sn cn k) (s, none, none)).2.2.isSome := by
  induction n with
  | zero => exact ⟨rfl, rfl, rfl⟩
  | succ n ih =>
    rw [foldl_range'_succ]
    refine ⟨?_, rfl, rfl⟩
    simp only [sinTapeTerm, tapeMul, tapeNodeCount_accumulateTape, tapeNodeCount_recordOp,
      tapeNodeCount_tapeConst, ih, if_true]
    ring

lemma tapeNodeCount_sinTapeStep (tw : Tower ℕ) (st : State K × Tower ℕ × Tower ℕ) (n : ℕ) :
    tapeNodeCount (sinTapeStep tw st (n + 1)).1 = tapeNodeCount st.1 + 6 * n + 8 := by
  simp only [sinTapeStep, tapeDiv, tapeNeg, tapeNodeCount_recordOp, tapeNodeCount_tapeConst,
    (tapeNodeCount_sinTapeTerm (s := st.1) tw st.2.1 st.2.2 n).1]

lemma tapeNodeCount_sinTapeSteps (tw : Tower ℕ) (st : State K × Tower ℕ × Tower ℕ) (n : ℕ) :
    tapeNodeCount ((List.range' 1 n).foldl (sinTapeStep tw) st).1 =
      tapeNodeCount st.1 + 3 * n * n + 5 * n := by
  induction n with
  | zero => rfl
  | succ n ih =>
    rw [foldl_range'_succ, tapeNodeCount_sinTapeStep, ih]
    ring

lemma tapeNodeCount_crLayerTape (tw : Tower ℕ) (vnode : ℕ) :
    tapeNodeCount (crLayerTape sin cos s tw vnode order).1 =
      tapeNodeCount s + 3 * (order + 1) * (order + 1) := by
  simp only [crLayerTape, crTowerSinTape, tapeNodeCount_sinTapeSteps, tapeSin, tapeCos,
    tapeNodeCount_recordOp, tapeNodeCount_crTowerScaleTape]
  ring

lemma tapeNodeCount_layersTape (tw : Tower ℕ) (vnode n : ℕ) :
    tapeNodeCount (layersTape sin cos s tw vnode order n).1 =
      tapeNodeCount s + n * (3 * (order + 1) * (order + 1)) := by
  rw [layersTape, tapeNodeCount_foldl fun st _ => tapeNodeCount_crLayerTape sin cos st.2 vnode,
    List.length_range]

omit [Div K] [Neg K] [NatCast K] in
lemma tapeNodeCount_crVjpSeed (x : Tower ℕ) (adjoint : Tower K) :
    tapeNodeCount (crVjpSeed s x adjoint order).1 = tapeNodeCount s + 3 * order + 2 := by
  have hloop : ∀ n, tapeNodeCount (vjpLoop s x adjoint (n + 1)).1 = tapeNodeCount s + 3 * n + 2 ∧
      (vjpLoop s x adjoint (n + 1)).2.isSome := by
    intro n
    induction n with
    | zero => exact ⟨rfl, rfl⟩
    | succ n ih =>
      have hsucc := List.range_succ (n := n + 1)
      rw [vjpLoop, hsucc, List.foldl_append, ← vjpLoop]
      refine ⟨?_, rfl⟩
      simp only [List.foldl_cons, List.foldl_nil, tapeMul, tapeNodeCount_accumulateTape,
        tapeNodeCount_recordOp, tapeNodeCount_tapeConst, ih, if_true]
      ring
  exact (hloop order).1

variable [ZeroTest K]

lemma crBackwardBlock_nodes (start stop : ℕ) (cpIn : Tower K) (v0 : K) (adjoint : Tower K) :
    (crBackwardBlock sin cos start stop cpIn v0 adjoint order).nodes =
      4 * (order + 1) + 3 * (order + 1) * (order + 1) * (stop - start) := by
  have hinput : tapeNodeCount (tapeInput makeTape v0).1 = 1 := rfl
  simp only [crBackwardBlock, tapeNodeCount_crVjpSeed, tapeNodeCount_layersTape,
    tapeNodeCount_crTowerConstTape, hinput]
  ring

lemma denseTowerReverse_nodes (t0 v0 : K) (n : ℕ) :
    (denseTowerReverse sin cos t0 v0 n order k).nodes =
      order + 4 + 3 * (order + 1) * (order + 1) * n := by
  have hinput : tapeNodeCount (tapeInput makeTape v0).1 = 1 := rfl
  simp only [denseTowerReverse, tapeMul, tapeNodeCount_recordOp, tapeNodeCount_tapeConst,
    tapeNodeCount_layersTape, tapeNodeCount_crTowerConstTape, hinput]
  ring

lemma reverseLoop_peakNodes (v0 : K) (block : ℕ+) {stop : ℕ} {ends : List ℕ}
    (hchain : (stop :: ends).IsChain (Function.swap (Follows block))) (cps : List (Tower K))
    (adjoint : Tower K) (totalDv : K) (peakNodes peakOps nblocks : ℕ)
    (hpeak : peakNodes ≤ 4 * (order + 1) + 3 * (order + 1) * (order + 1) * block) :
    (reverseLoop sin cos v0 order block (stop :: ends) cps adjoint totalDv peakNodes peakOps
      nblocks).peakNodes ≤ 4 * (order + 1) + 3 * (order + 1) * (order + 1) * block := by
  induction ends generalizing stop cps adjoint totalDv peakNodes peakOps nblocks with
  | nil => simpa [reverseLoop] using hpeak
  | cons start ends ih =>
    obtain ⟨hfollows, hrest⟩ := List.isChain_cons_cons.1 hchain
    match cps with
    | [] => simpa [reverseLoop] using hpeak
    | [_] => simpa [reverseLoop] using hpeak
    | _ :: cpIn :: cps =>
      rw [reverseLoop]
      apply ih hrest
      rw [crBackwardBlock_nodes]
      have hlayers : stop - start ≤ block := by
        have := hfollows.2
        omega
      split_ifs with hmore
      · gcongr
      · exact hpeak

/-- The sweep keeps one tower for every boundary and tapes at most `block` layers at a time, where
the dense tape holds all `n`. -/
theorem checkpointed_tape_size (t0 v0 : K) (n order k : ℕ) (block : ℕ+) :
    (crForwardCheckpoints sin cos t0 v0 order (crBlockBoundaries n block)).length =
        (n + block - 1) / block + 1 ∧
      (checkpointedTowerReverse sin cos t0 v0 n order k block).peakNodes ≤
        4 * (order + 1) + 3 * (order + 1) * (order + 1) * block ∧
      (denseTowerReverse sin cos t0 v0 n order k).nodes =
        order + 4 + 3 * (order + 1) * (order + 1) * n := by
  have hschedule := schedule n block
  obtain ⟨ends, hends, hchain, -⟩ := hschedule.reverse
  refine ⟨?_, ?_, denseTowerReverse_nodes sin cos t0 v0 n⟩
  · obtain ⟨bs, hbs⟩ := List.head?_eq_some_iff.1 hschedule.head
    have hlength := hschedule.length
    rw [hbs, List.length_cons] at hlength
    rw [crForwardCheckpoints, hbs, length_checkpointsLoop, List.length_singleton]
    omega
  · simp only [checkpointedTowerReverse, hends]
    exact reverseLoop_peakNodes sin cos v0 block hchain _ _ _ _ _ _ (Nat.zero_le _)

end size

end Checkpoint
