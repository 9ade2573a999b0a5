import Mathlib.Algebra.GroupWithZero.Nat
import Mathlib.Data.List.Nodup
import Mathlib.Order.Lattice
import Mathlib.Order.Nat

/-!
# Vector clocks

Association lists from nodes to counters, and the list helpers of the replicated data types.
-/

namespace Distributed

variable {ν α : Type*} [DecidableEq ν] [DecidableEq α]

/-- `distributed-cons-unique`. -/
def consUnique (value : α) (values : List α) : List α :=
  if value ∈ values then values else value :: values

/-- `distributed-list-union`. -/
def listUnion : List α → List α → List α
  | a, [] => a
  | a, x :: b => listUnion (consUnique x a) b

lemma mem_consUnique {x y : α} {values : List α} :
    y ∈ consUnique x values ↔ y = x ∨ y ∈ values := by
  unfold consUnique
  split
  · next hx =>
    refine ⟨.inr, ?_⟩
    rintro (rfl | hy)
    · exact hx
    · exact hy
  · exact List.mem_cons

lemma mem_listUnion {y : α} {a b : List α} : y ∈ listUnion a b ↔ y ∈ a ∨ y ∈ b := by
  induction b generalizing a with
  | nil => simp [listUnion]
  | cons x b ih =>
    rw [listUnion, ih, mem_consUnique, List.mem_cons]
    tauto

/-- A vector clock: entries of a node and its count. -/
abbrev Counts (ν κ : Type*) := List (ν × κ)

/-- A clock that advances by one only. -/
abbrev Clock (ν : Type*) := Counts ν ℕ

section

variable {κ : Type*} [LinearOrder κ]

/-- `distributed-max`. -/
def distributedMax (a b : κ) : κ := if b < a then a else b

lemma distributedMax_eq (a b : κ) : distributedMax a b = max a b := by
  rw [distributedMax]
  split_ifs with h
  · exact (max_eq_left h.le).symm
  · exact (max_eq_right (not_lt.1 h)).symm

end

namespace Counts

variable {κ : Type*}

/-- `vector-clock-ref`: the count of the first entry of the node, or zero. -/
@[grind =]
def ref [Zero κ] : Counts ν κ → ν → κ
  | [], _ => 0
  | (m, count) :: clock, node => if node = m then count else ref clock node

/-- `vector-clock-set`. -/
@[grind =]
def set : Counts ν κ → ν → κ → Counts ν κ
  | [], node, counter => [(node, counter)]
  | (m, count) :: clock, node, counter =>
    if node = m then (node, counter) :: clock else (m, count) :: set clock node counter

/-- `vector-clock-merge`. -/
@[grind =]
def merge [Zero κ] [LinearOrder κ] : Counts ν κ → Counts ν κ → Counts ν κ
  | a, [] => a
  | a, (node, count) :: b => merge (a.set node (distributedMax (a.ref node) count)) b

/-- No node has two entries. -/
def Distinct (clock : Counts ν κ) : Prop := (clock.map Prod.fst).Nodup

variable {clock a b : Counts ν κ} {node m : ν} {n : κ}

section ref

variable [Zero κ]

@[simp]
lemma ref_set_self : (clock.set node n).ref node = n := by
  induction clock with
  | nil => simp [set, ref]
  | cons e clock ih =>
    obtain ⟨m, count⟩ := e
    by_cases h : node = m
    · simp [set, ref, h]
    · simp [set, ref, h, ih]

lemma ref_set_of_ne (h : m ≠ node) : (clock.set node n).ref m = clock.ref m := by
  induction clock with
  | nil => simp [set, ref, h]
  | cons e clock ih =>
    obtain ⟨k, count⟩ := e
    by_cases hk : node = k
    · subst hk
      simp [set, ref, h]
    · simp [set, ref, hk, ih]

lemma ref_eq_zero (h : node ∉ clock.map Prod.fst) : clock.ref node = 0 := by
  induction clock with
  | nil => rfl
  | cons e clock ih =>
    obtain ⟨m, count⟩ := e
    simp only [List.map_cons, List.mem_cons, not_or] at h
    rw [ref, if_neg h.1, ih h.2]

end ref

lemma mem_nodes_set : m ∈ (clock.set node n).map Prod.fst ↔
    m = node ∨ m ∈ clock.map Prod.fst := by
  induction clock with
  | nil => simp [set]
  | cons e clock ih =>
    obtain ⟨k, count⟩ := e
    by_cases hk : node = k
    · subst hk
      simp [set]
    · simp only [set, hk, if_false, List.map_cons, List.mem_cons, ih]
      tauto

lemma Distinct.set (h : clock.Distinct) : (clock.set node n).Distinct := by
  induction clock with
  | nil => simp [Counts.set, Distinct]
  | cons e clock ih =>
    obtain ⟨k, count⟩ := e
    simp only [Distinct, List.map_cons, List.nodup_cons] at h
    by_cases hk : node = k
    · subst hk
      simpa [Counts.set, Distinct] using h
    · simp only [Counts.set, hk, if_false, Distinct, List.map_cons, List.nodup_cons]
      refine ⟨fun hmem => ?_, ih h.2⟩
      rcases mem_nodes_set.1 hmem with rfl | hmem
      · exact hk rfl
      · exact h.1 hmem

section merge

variable [Zero κ] [LinearOrder κ]

lemma Distinct.merge (h : a.Distinct) : (a.merge b).Distinct := by
  induction b generalizing a with
  | nil => exact h
  | cons e b ih => exact ih h.set

/-- A merged clock has the larger count of each node. -/
lemma ref_merge (hb : b.Distinct) (ha : 0 ≤ a.ref node) :
    (a.merge b).ref node = max (a.ref node) (b.ref node) := by
  induction b generalizing a with
  | nil => exact (max_eq_left ha).symm
  | cons e b ih =>
    obtain ⟨m, count⟩ := e
    simp only [Distinct, List.map_cons, List.nodup_cons] at hb
    rw [Counts.merge, ref]
    by_cases h : node = m
    · subst h
      have hmax : 0 ≤ max (a.ref node) count := ha.trans (le_max_left _ _)
      rw [ih hb.2 (by rwa [ref_set_self, distributedMax_eq]), ref_set_self, if_pos rfl, ref_eq_zero hb.1,
        distributedMax_eq, max_eq_left hmax]
    · rw [ih hb.2 (by rwa [ref_set_of_ne h]), ref_set_of_ne h, if_neg h]

end merge

end Counts

namespace Clock

/-- `vector-clock-tick` by one. -/
def tick (clock : Clock ν) (node : ν) : Clock ν := clock.set node (clock.ref node + 1)

variable {clock a b : Clock ν} {node m : ν} {n : ℕ}

@[simp]
lemma ref_tick_self : (clock.tick node).ref node = clock.ref node + 1 := Counts.ref_set_self

lemma ref_tick_of_ne (h : m ≠ node) : (clock.tick node).ref m = clock.ref m := Counts.ref_set_of_ne h

lemma le_ref_tick : clock.ref m ≤ (clock.tick node).ref m := by
  by_cases h : m = node
  · rw [h, ref_tick_self]
    exact Nat.le_succ _
  · exact Nat.le_of_eq (ref_tick_of_ne h).symm

lemma ref_merge (hb : b.Distinct) : (a.merge b).ref node = max (a.ref node) (b.ref node) :=
  Counts.ref_merge hb (Nat.zero_le _)

lemma set_append (h : node ∉ a.map Prod.fst) : (a ++ b).set node n = a ++ b.set node n := by
  induction a with
  | nil => rfl
  | cons e a ih =>
    obtain ⟨m, count⟩ := e
    rw [List.map_cons, List.mem_cons, not_or] at h
    rw [List.cons_append, Counts.set, if_neg h.1, ih h.2, List.cons_append]

lemma ref_append (h : node ∉ a.map Prod.fst) : (a ++ b).ref node = b.ref node := by
  induction a with
  | nil => rfl
  | cons e a ih =>
    obtain ⟨m, count⟩ := e
    rw [List.map_cons, List.mem_cons, not_or] at h
    rw [List.cons_append, Counts.ref, if_neg h.1, ih h.2]

/-- An entry that both clocks have stays where it is. -/
lemma merge_cons (h : m ∉ a.map Prod.fst) {k : ℕ} (hle : k ≤ n) (c d : Clock ν) :
    (a ++ (m, k) :: c).merge ((m, n) :: d) = ((a ++ [(m, n)]) ++ c).merge d := by
  rw [Counts.merge, ref_append h, set_append h, Counts.ref, if_pos rfl, distributedMax_eq, Nat.max_eq_right hle,
    Counts.set, if_pos rfl,
    List.append_assoc]
  rfl

lemma merge_append_self (h : (a ++ b).Distinct) : (a ++ b).merge b = a ++ b := by
  induction b generalizing a with
  | nil => rfl
  | cons e b ih =>
    obtain ⟨m, count⟩ := e
    have hm : m ∉ a.map Prod.fst := by
      rw [Counts.Distinct, List.map_append, List.map_cons] at h
      exact fun hmem => (List.nodup_append.1 h).2.2 m hmem m List.mem_cons_self rfl
    have hsame : (a ++ [(m, count)]) ++ b = a ++ (m, count) :: b := by rw [List.append_assoc]; rfl
    rw [merge_cons hm (Nat.le_refl _), ih (by rwa [hsame]), hsame]

lemma merge_set (h : (a ++ b).Distinct) (hnode : node ∉ a.map Prod.fst) (hle : b.ref node ≤ n) :
    (a ++ b).merge (b.set node n) = a ++ b.set node n := by
  induction b generalizing a with
  | nil =>
    rw [List.append_nil, Counts.set, Counts.merge, Counts.merge, Counts.ref_eq_zero hnode, distributedMax_eq,
      Nat.max_eq_right (Nat.zero_le n)]
    have hset := @set_append _ _ a [] node n hnode
    rwa [List.append_nil] at hset
  | cons e b ih =>
    obtain ⟨m, count⟩ := e
    have hm : m ∉ a.map Prod.fst := by
      rw [Counts.Distinct, List.map_append, List.map_cons] at h
      exact fun hmem => (List.nodup_append.1 h).2.2 m hmem m List.mem_cons_self rfl
    have hsame : ∀ k, (a ++ [(m, k)]) ++ b = a ++ (m, k) :: b := fun k => by
      rw [List.append_assoc]
      rfl
    by_cases heq : node = m
    · subst heq
      rw [Counts.ref, if_pos rfl] at hle
      rw [Counts.set, if_pos rfl, merge_cons hm hle]
      have hdistinct : ((a ++ [(node, n)]) ++ b).Distinct := by
        rw [hsame]
        rw [Counts.Distinct, List.map_append, List.map_cons] at h ⊢
        exact h
      rw [merge_append_self hdistinct, hsame]
    · rw [Counts.ref, if_neg heq] at hle
      have hnode' : node ∉ (a ++ [(m, count)]).map Prod.fst := by
        rw [List.map_append, List.mem_append, not_or]
        exact ⟨hnode, by simpa using heq⟩
      rw [Counts.set, if_neg heq, merge_cons hm (Nat.le_refl _), ih (by rwa [hsame]) hnode' hle, List.append_assoc]
      rfl

/-- A clock that ticked is the merge of it with what it was. -/
lemma merge_tick (h : clock.Distinct) : clock.merge (clock.tick node) = clock.tick node :=
  @merge_set _ _ [] clock node _ h List.not_mem_nil (Nat.le_succ _)

end Clock

lemma Counts.Distinct.tick {clock : Clock ν} {node : ν} (h : clock.Distinct) : (clock.tick node).Distinct :=
  h.set

end Distributed
