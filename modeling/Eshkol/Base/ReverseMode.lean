import Mathlib.Algebra.BigOperators.Intervals
import Mathlib.Algebra.BigOperators.Ring.Finset

/-!
# Reverse accumulation

A computation is a graph whose nodes are numbered in the order of their creation. A node has an edge
to each of its operands, labelled with the partial derivative by it. The sweep from the last node to
the first adds to each node the sum over the paths from the seed, which is the tangent that the
forward recursion computes.
-/

namespace ReverseMode

variable {K : Type} [CommSemiring K]

/-- The operands of every node, with the partial derivatives by them. -/
abbrev Edges (K : Type) := ℕ → List (ℕ × K)

/-- Operands come before the nodes that use them. -/
def Acyclic (edges : Edges K) : Prop := ∀ k, ∀ e ∈ edges k, e.1 < k

/-- The derivative of node `k` by node `t`, computed forward. -/
def tangent (edges : Edges K) (t k : ℕ) : K :=
  if k = t then 1
  else ((edges k).map fun e => if e.1 < k then e.2 * tangent edges t e.1 else 0).sum
termination_by k

/-- Every pair of a list adds its second component to the entry of its first. -/
def accumulate : List (ℕ × K) → (ℕ → K) → ℕ → K
  | [], grad => grad
  | e :: es, grad => accumulate es (Function.update grad e.1 (grad e.1 + e.2))

/-- Node `k` passes its adjoint on to its operands. -/
def visit (edges : Edges K) (k : ℕ) (grad : ℕ → K) : ℕ → K :=
  accumulate ((edges k).map fun e => (e.1, grad k * e.2)) grad

/-- The nodes below `k`, the last one first. -/
def sweep (edges : Edges K) : ℕ → (ℕ → K) → ℕ → K
  | 0, grad => grad
  | k + 1, grad => sweep edges k (visit edges k grad)

variable {edges edges' : Edges K} {grad : ℕ → K} {t k n : ℕ}

@[simp]
lemma tangent_self : tangent edges t t = 1 := by rw [tangent, if_pos rfl]

lemma tangent_of_ne (hedges : Acyclic edges) (h : k ≠ t) :
    tangent edges t k = ((edges k).map fun e => e.2 * tangent edges t e.1).sum := by
  rw [tangent, if_neg h]
  congr 1
  refine List.map_congr_left fun e he => ?_
  rw [if_pos (hedges k e he)]

/-- A node does not depend on a later one. -/
theorem tangent_of_lt (hedges : Acyclic edges) (h : k < t) : tangent edges t k = 0 := by
  induction k using Nat.strong_induction_on with
  | h k ih =>
    rw [tangent_of_ne hedges (Nat.ne_of_lt h)]
    refine List.sum_eq_zero fun x hx => ?_
    obtain ⟨e, he, rfl⟩ := List.mem_map.1 hx
    have hlt := hedges k e he
    rw [ih e.1 hlt (hlt.trans h), mul_zero]

lemma accumulate_of_notMem {es : List (ℕ × K)} (h : ∀ e ∈ es, e.1 ≠ n) :
    accumulate es grad n = grad n := by
  induction es generalizing grad with
  | nil => rfl
  | cons e es ih =>
    obtain ⟨he, hes⟩ := List.forall_mem_cons.1 h
    rw [accumulate, ih hes, Function.update_of_ne he.symm]

/-- What an accumulation adds to a weighted sum of the entries. -/
theorem sum_accumulate {es : List (ℕ × K)} (w : ℕ → K) (h : ∀ e ∈ es, e.1 < k) :
    ∑ n ∈ Finset.range k, accumulate es grad n * w n =
      ∑ n ∈ Finset.range k, grad n * w n + (es.map fun e => e.2 * w e.1).sum := by
  induction es generalizing grad with
  | nil => simp [accumulate]
  | cons e es ih =>
    obtain ⟨he, hes⟩ := List.forall_mem_cons.1 h
    have hmem : e.1 ∈ Finset.range k := Finset.mem_range.2 he
    have hupdate : ∑ n ∈ Finset.range k, Function.update grad e.1 (grad e.1 + e.2) n * w n =
        ∑ n ∈ Finset.range k, grad n * w n + e.2 * w e.1 := by
      rw [← Finset.add_sum_erase _ _ hmem, ← Finset.add_sum_erase _ (fun n => grad n * w n) hmem,
        Function.update_self, add_mul, add_right_comm]
      congr 2
      refine Finset.sum_congr rfl fun n hn => ?_
      rw [Function.update_of_ne (Finset.ne_of_mem_erase hn)]
    rw [accumulate, ih hes, hupdate, List.map_cons, List.sum_cons, add_assoc]

/-- The sweep turns the adjoints of the nodes below `k` into derivatives by `t`. -/
theorem sweep_eq (hedges : Acyclic edges) (k : ℕ) (grad : ℕ → K) :
    sweep edges k grad t =
      if t < k then ∑ n ∈ Finset.range k, grad n * tangent edges t n else grad t := by
  induction k generalizing grad with
  | zero => simp [sweep]
  | succ k ih =>
    have hbelow : ∀ e ∈ (edges k).map fun e => (e.1, grad k * e.2), e.1 < k := by
      intro e he
      obtain ⟨e', he', rfl⟩ := List.mem_map.1 he
      exact hedges k e' he'
    have hkeep : ∀ n, k ≤ n → visit edges k grad n = grad n := fun n hn =>
      accumulate_of_notMem fun e he => Nat.ne_of_lt ((hbelow e he).trans_le hn)
    rw [sweep, ih]
    rcases lt_trichotomy t k with hlt | rfl | hgt
    · -- the visit passes on `grad k` times what the tangent of `k` is made of
      rw [if_pos hlt, if_pos (hlt.trans (Nat.lt_succ_self k)), visit, sum_accumulate _ hbelow,
        Finset.sum_range_succ, tangent_of_ne hedges (Nat.ne_of_gt hlt), List.map_map,
        ← List.sum_map_mul_left]
      simp only [Function.comp_def, mul_assoc]
    · rw [if_neg (Nat.lt_irrefl t), if_pos (Nat.lt_succ_self t), hkeep t le_rfl,
        Finset.sum_range_succ, tangent_self, mul_one]
      rw [Finset.sum_eq_zero, zero_add]
      intro n hn
      rw [tangent_of_lt hedges (Finset.mem_range.1 hn), mul_zero]
    · rw [if_neg (Nat.lt_asymm hgt), if_neg (by omega), hkeep t hgt.le]

/-- From the seed `1` at one node the sweep computes the derivatives of that node. -/
theorem sweep_seed {output : ℕ} (hedges : Acyclic edges) (hseed : grad output = 1)
    (hzero : ∀ n < k, n ≠ output → grad n = 0) (ho : output < k) (ht : t < k) :
    sweep edges k grad t = tangent edges t output := by
  rw [sweep_eq hedges, if_pos ht, Finset.sum_eq_single_of_mem output (Finset.mem_range.2 ho),
    hseed, one_mul]
  intro n hn hne
  rw [hzero n (Finset.mem_range.1 hn) hne, zero_mul]

end ReverseMode
