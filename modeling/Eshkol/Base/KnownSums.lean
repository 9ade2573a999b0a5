import Eshkol.Base.Replication
import Mathlib.Algebra.BigOperators.Group.Finset.Piecewise
import Mathlib.Algebra.Order.BigOperators.Group.Finset

/-!
# Sums over what is known

Amounts of operations, added up over what a snapshot knows. A replica learns the operations of a
node in the order in which that node issued them, so of two snapshots one knows all that the other
does of a node, and merging takes the larger of the two sums for that node.
-/

namespace Replication

variable {ι σ υ κ M : Type*} {log : List (Operation ι υ κ)} {o : Operation ι υ κ}
  {known known' : Finset ℕ} {n : ι}

/-! ## The order in which operations become known -/

/-- With an operation, everything that its node issued before is known. -/
def KnownInOrder (log : List (Operation ι υ κ)) (known : Finset ℕ) : Prop :=
  ∀ i ∈ known, ∀ j < i, ∀ n,
    At log i (fun o => o.node = n) → At log j (fun o => o.node = n) → j ∈ known

lemma KnownInOrder.grow (h : KnownInOrder log known) (hknown : ∀ i ∈ known, i < log.length) :
    KnownInOrder (log ++ [o]) known := by
  intro i hi j hj n hnode hnode'
  rw [at_append (hknown i hi)] at hnode
  rw [at_append (hj.trans (hknown i hi))] at hnode'
  exact h i hi j hj n hnode hnode'

lemma KnownInOrder.insert (h : KnownInOrder log known) (hknown : ∀ i ∈ known, i < log.length)
    (hown : ∀ i, At log i (fun o' => o'.node = o.node) → i ∈ known) :
    KnownInOrder (log ++ [o]) (insert log.length known) := by
  intro i hi j hj n hnode hnode'
  apply Finset.mem_insert_of_mem
  rcases Finset.mem_insert.1 hi with rfl | hi
  · rw [at_append hj] at hnode'
    rw [at_last] at hnode
    subst hnode
    exact hown j hnode'
  · exact h.grow hknown i hi j hj n hnode hnode'

lemma KnownInOrder.union (h : KnownInOrder log known) (h' : KnownInOrder log known') :
    KnownInOrder log (known ∪ known') := by
  intro i hi j hj n hnode hnode'
  rcases Finset.mem_union.1 hi with hi | hi
  · exact Finset.mem_union_left _ (h i hi j hj n hnode hnode')
  · exact Finset.mem_union_right _ (h' i hi j hj n hnode hnode')

/-- Of two snapshots, one knows all that the other does of a node. -/
theorem KnownInOrder.total_order (h : KnownInOrder log known) (h' : KnownInOrder log known') (n : ι) :
    (∀ i ∈ known, At log i (fun o => o.node = n) → i ∈ known') ∨
      ∀ i ∈ known', At log i (fun o => o.node = n) → i ∈ known := by
  by_contra hneither
  push Not at hneither
  obtain ⟨⟨i, hi, hnode, hunknown⟩, j, hj, hnode', hunknown'⟩ := hneither
  -- the earlier of the two is known with the later one
  rcases Nat.lt_trichotomy i j with hlt | rfl | hlt
  · exact hunknown (h' j hj i hlt n hnode' hnode)
  · exact hunknown hj
  · exact hunknown' (h i hi j hlt n hnode hnode')

lemma System.Current.own_at {s : Snapshot σ} (h : System.Current log n s) (i : ℕ)
    (hi : At log i fun o => o.node = n) : i ∈ s.known := by
  obtain ⟨o, ho, hnode⟩ := hi
  exact h.own i o ho hnode

/-! ## Amounts -/

section total

variable [AddCommMonoid M]

/-- The amounts of the known operations, added up. -/
def total (amount : Operation ι υ κ → M) (log : List (Operation ι υ κ)) (known : Finset ℕ) : M :=
  ∑ i ∈ known, (log[i]?).elim 0 amount

/-- The amounts of one node's operations only. -/
def ofNode [DecidableEq ι] (n : ι) (amount : Operation ι υ κ → M) (o : Operation ι υ κ) : M :=
  if o.node = n then amount o else 0

variable {amount : Operation ι υ κ → M}

lemma total_grow (hknown : ∀ i ∈ known, i < log.length) :
    total amount (log ++ [o]) known = total amount log known := by
  apply Finset.sum_congr rfl
  intro i hi
  rw [List.getElem?_append_left (hknown i hi)]

lemma total_insert (hknown : ∀ i ∈ known, i < log.length) :
    total amount (log ++ [o]) (insert log.length known) = amount o + total amount log known := by
  have hnew : log.length ∉ known := fun hmem => (hknown _ hmem).false
  have hold : total amount (log ++ [o]) known = total amount log known := total_grow hknown
  rw [total] at hold
  rw [total, Finset.sum_insert hnew, hold, List.getElem?_concat_length]
  rfl

end total

section order

variable [AddCommMonoid M] [LinearOrder M] [IsOrderedAddMonoid M] {amount : Operation ι υ κ → M}

omit [IsOrderedAddMonoid M] in
lemma elim_amount_nonneg (hamount : ∀ o, 0 ≤ amount o) (i : ℕ) :
    0 ≤ (log[i]?).elim 0 amount := by
  cases log[i]? with
  | none => exact le_rfl
  | some o => exact hamount o

/-- Where one side knows all amounts that count, they are what is known together. -/
theorem total_union_of_imp (hamount : ∀ o, 0 ≤ amount o)
    (h : ∀ i ∈ known, (log[i]?).elim 0 amount ≠ 0 → i ∈ known') :
    total amount log (known ∪ known') = max (total amount log known) (total amount log known') := by
  have hunion : total amount log (known ∪ known') = total amount log known' := by
    symm
    apply Finset.sum_subset Finset.subset_union_right
    intro i hi hunknown
    by_contra hne
    have hmem : i ∈ known := (Finset.mem_union.1 hi).resolve_right hunknown
    exact hunknown (h i hmem hne)
  have hle : total amount log known ≤ total amount log (known ∪ known') := by
    apply Finset.sum_le_sum_of_subset_of_nonneg Finset.subset_union_left
    intro i _ _
    exact elim_amount_nonneg hamount i
  rw [hunion] at hle ⊢
  exact (max_eq_right hle).symm

variable [DecidableEq ι]

omit [IsOrderedAddMonoid M] in
lemma ofNode_nonneg (hamount : ∀ o, 0 ≤ amount o) (o : Operation ι υ κ) :
    0 ≤ ofNode n amount o := by
  rw [ofNode]
  split_ifs
  · exact hamount o
  · exact le_rfl

omit [LinearOrder M] [IsOrderedAddMonoid M] in
lemma at_of_ofNode_ne_zero {i : ℕ} (h : (log[i]?).elim 0 (ofNode n amount) ≠ 0) :
    At log i fun o => o.node = n := by
  cases ho : log[i]? with
  | none => simp [ho] at h
  | some o =>
    refine ⟨o, ho, ?_⟩
    by_contra hne
    simp [ho, ofNode, hne] at h

/-- Together, two snapshots know the larger of what each knows of a node. -/
theorem total_union (hamount : ∀ o, 0 ≤ amount o) (h : KnownInOrder log known)
    (h' : KnownInOrder log known') :
    total (ofNode n amount) log (known ∪ known') =
      max (total (ofNode n amount) log known) (total (ofNode n amount) log known') := by
  have hnonneg : ∀ o, 0 ≤ ofNode n amount o := ofNode_nonneg hamount
  rcases h.total_order h' n with hle | hle
  · exact total_union_of_imp hnonneg fun i hi hne => hle i hi (at_of_ofNode_ne_zero hne)
  · rw [Finset.union_comm, max_comm]
    exact total_union_of_imp hnonneg fun i hi hne => hle i hi (at_of_ofNode_ne_zero hne)

end order

end Replication
