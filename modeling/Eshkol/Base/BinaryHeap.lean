import Mathlib.Data.List.Basic
import Mathlib.Logic.Equiv.Basic

/-!
# Binary heaps

A list read as a tree, in which the children of a position are at twice the position plus one and
plus two. A sift swaps an element along a path, and keeps the edges in order that do not touch it.
-/

namespace BinaryHeap

variable {α : Type} {l : List α} {i j x y : ℕ} {a b : α}

/-! ## Swaps -/

/-- The list with the elements of two positions exchanged. -/
def swap (l : List α) (i j : ℕ) : List α :=
  match l[i]?, l[j]? with
  | some a, some b => (l.set i b).set j a
  | _, _ => l

lemma swap_eq (hi : l[i]? = some a) (hj : l[j]? = some b) : swap l i j = (l.set i b).set j a := by
  rw [swap, hi, hj]

lemma swap_perm (l : List α) (i j : ℕ) : List.Perm (swap l i j) l := by
  rw [swap]
  split
  · rename_i a b hi hj
    obtain ⟨hilt, rfl⟩ := List.getElem?_eq_some_iff.1 hi
    obtain ⟨hjlt, rfl⟩ := List.getElem?_eq_some_iff.1 hj
    exact List.set_set_perm hilt hjlt
  · exact List.Perm.refl l

@[simp]
lemma length_swap (l : List α) (i j : ℕ) : (swap l i j).length = l.length :=
  (swap_perm l i j).length_eq

lemma getElem?_swap (hi : i < l.length) (hj : j < l.length) (x : ℕ) :
    (swap l i j)[x]? = l[Equiv.swap i j x]? := by
  rw [swap_eq (List.getElem?_eq_getElem hi) (List.getElem?_eq_getElem hj)]
  by_cases hxj : x = j
  · rw [hxj, Equiv.swap_apply_right, List.getElem?_set_self (by rwa [List.length_set]),
      List.getElem?_eq_getElem hi]
  · rw [List.getElem?_set_ne (Ne.symm hxj)]
    by_cases hxi : x = i
    · rw [hxi, Equiv.swap_apply_left, List.getElem?_set_self hi, List.getElem?_eq_getElem hj]
    · rw [List.getElem?_set_ne (Ne.symm hxi), Equiv.swap_apply_of_ne_of_ne hxi hxj]

/-! ## Edges -/

/-- The position over a position. -/
def parent (i : ℕ) : ℕ := (i - 1) / 2

lemma parent_lt (h : 0 < i) : parent i < i := by
  rw [parent]
  omega

lemma parent_eq_iff (h : 0 < i) : parent i = j ↔ i = 2 * j + 1 ∨ i = 2 * j + 2 := by
  rw [parent]
  omega

/-- The order of the elements is total and transitive. -/
structure TotalPreorder (le : α → α → Prop) : Prop where
  trans : ∀ {a b c}, le a b → le b c → le a c
  total : ∀ a b, le a b ∨ le b a

variable (le : α → α → Prop)

/-- The elements of two positions are in order, where both positions have one. -/
def Below (l : List α) (i j : ℕ) : Prop := ∀ a ∈ l[i]?, ∀ b ∈ l[j]?, le a b

/-- No element comes after its children. -/
def Ordered (l : List α) : Prop := ∀ i, 0 < i → Below le l (parent i) i

/-- The children of the hole come after its parent. -/
def Around (l : List α) (hole : ℕ) : Prop :=
  0 < hole → ∀ i, 0 < i → parent i = hole → Below le l (parent hole) i

/-- Every edge but the one over the hole is in order. -/
structure UpOrder (l : List α) (hole : ℕ) : Prop where
  edges : ∀ i, 0 < i → i ≠ hole → Below le l (parent i) i
  around : Around le l hole

/-- Every edge but those under the hole is in order. -/
structure DownOrder (l : List α) (hole : ℕ) : Prop where
  edges : ∀ i, 0 < i → parent i ≠ hole → Below le l (parent i) i
  around : Around le l hole

variable {le} {hole k : ℕ}

lemma Below.trans (hle : TotalPreorder le) (hj : j < l.length) (h : Below le l i j)
    (h' : Below le l j k) : Below le l i k := fun a ha c hc =>
  hle.trans (h a ha _ (List.getElem?_eq_getElem hj)) (h' _ (List.getElem?_eq_getElem hj) c hc)

lemma Below.refl (hle : TotalPreorder le) (l : List α) (i : ℕ) : Below le l i i := by
  intro a ha b hb
  rw [Option.mem_unique ha hb]
  exact (hle.total b b).elim id id

/-- Where two elements are not in order, they are in order the other way round. -/
theorem Below.of_not (hle : TotalPreorder le) (h : ¬ Below le l i j) : Below le l j i := by
  simp only [Below, not_forall] at h
  obtain ⟨a, ha, b, hb, hab⟩ := h
  intro b' hb' a' ha'
  rw [Option.mem_unique hb' hb, Option.mem_unique ha' ha]
  exact (hle.total a b).resolve_left hab

lemma below_swap (hi : i < l.length) (hj : j < l.length) :
    Below le (swap l i j) x y ↔ Below le l (Equiv.swap i j x) (Equiv.swap i j y) := by
  rw [Below, Below, getElem?_swap hi hj, getElem?_swap hi hj]

/-- No element comes before the one at the root. -/
theorem Ordered.root (hle : TotalPreorder le) (h : Ordered le l) (hi : i < l.length) :
    Below le l 0 i := by
  induction i using Nat.strongRecOn with
  | _ i ih =>
    rcases Nat.eq_zero_or_pos i with rfl | hpos
    · exact Below.refl hle l 0
    · have hparent := parent_lt hpos
      exact (ih (parent i) hparent (by omega)).trans hle (by omega) (h i hpos)

/-! ## Sifting up -/

/-- A new element at the end is a hole to be sifted up. -/
theorem Ordered.concat (h : Ordered le l) (a : α) : UpOrder le (l ++ [a]) l.length := by
  refine ⟨fun i hpos hne => ?_, fun hpos i hi hparent => ?_⟩
  · intro p hp c hc
    have hlt : i < l.length := by
      have hc := (List.getElem?_eq_some_iff.1 hc).1
      rw [List.length_append, List.length_singleton] at hc
      omega
    have hparent := parent_lt hpos
    rw [Option.mem_def, List.getElem?_append_left (by omega)] at hp hc
    exact h i hpos p hp c hc
  · intro p hp c hc
    have hc := (List.getElem?_eq_some_iff.1 hc).1
    have hlt := parent_lt hi
    rw [List.length_append, List.length_singleton] at hc
    omega

lemma UpOrder.finish (h : UpOrder le l hole) (hstop : 0 < hole → Below le l (parent hole) hole) :
    Ordered le l := by
  intro i hpos
  by_cases hi : i = hole
  · subst hi
    exact hstop hpos
  · exact h.edges i hpos hi

lemma UpOrder.move (hle : TotalPreorder le) (h : UpOrder le l hole) (hpos : 0 < hole)
    (hhole : hole < l.length) (hlt : Below le l hole (parent hole)) :
    UpOrder le (swap l hole (parent hole)) (parent hole) := by
  have hparent := parent_lt hpos
  have hp : parent hole < l.length := by omega
  refine ⟨fun i hi hne => ?_, fun hpos' i hi heq => ?_⟩
  · rw [below_swap hhole hp]
    by_cases hih : i = hole
    · subst hih
      rwa [Equiv.swap_apply_right, Equiv.swap_apply_left]
    · rw [Equiv.swap_apply_of_ne_of_ne hih hne]
      by_cases hchild : parent i = hole
      · rw [hchild, Equiv.swap_apply_left]
        exact h.around hpos i hi hchild
      · by_cases hsibling : parent i = parent hole
        · rw [hsibling, Equiv.swap_apply_right]
          refine hlt.trans hle hp ?_
          rw [← hsibling]
          exact h.edges i hi hih
        · rw [Equiv.swap_apply_of_ne_of_ne hchild hsibling]
          exact h.edges i hi hih
  · -- The children of the old parent are the hole and its sibling.
    have hgrand := parent_lt hpos'
    have hedge := h.edges (parent hole) hpos' (by omega)
    rw [below_swap hhole hp, Equiv.swap_apply_of_ne_of_ne (by omega) (by omega)]
    by_cases hih : i = hole
    · subst hih
      rwa [Equiv.swap_apply_left]
    · have hchild := parent_lt hi
      rw [Equiv.swap_apply_of_ne_of_ne hih (by omega)]
      refine hedge.trans hle hp ?_
      rw [← heq]
      exact h.edges i hi hih

/-! ## Sifting down -/

/-- With its last element in place of the root the rest of the list has a hole to be sifted down. -/
theorem Ordered.replaceRoot {z : α} (h : Ordered le (a :: (l ++ [z]))) : DownOrder le (z :: l) 0 := by
  refine ⟨fun i hpos hne => ?_, fun hpos => absurd hpos (Nat.lt_irrefl 0)⟩
  have hget {j : ℕ} {c : α} (hj : 0 < j) (hc : c ∈ (z :: l)[j]?) : c ∈ (a :: (l ++ [z]))[j]? := by
    obtain ⟨j, rfl⟩ := Nat.exists_eq_succ_of_ne_zero (Nat.ne_of_gt hj)
    rw [Option.mem_def, List.getElem?_cons_succ] at hc ⊢
    rwa [List.getElem?_append_left (List.getElem?_eq_some_iff.1 hc).1]
  exact fun p hp c hc => h i hpos p (hget (Nat.pos_of_ne_zero hne) hp) c (hget hpos hc)

lemma DownOrder.finish (h : DownOrder le l hole)
    (hstop : ∀ i, 0 < i → parent i = hole → Below le l hole i) : Ordered le l := by
  intro i hpos
  by_cases hi : parent i = hole
  · rw [hi]
    exact hstop i hpos hi
  · exact h.edges i hpos hi

lemma DownOrder.move (h : DownOrder le l hole) (hpos : 0 < k) (hk : k < l.length)
    (hparent : parent k = hole) (hlt : Below le l k hole)
    (hmin : ∀ i, 0 < i → parent i = hole → i ≠ k → Below le l k i) :
    DownOrder le (swap l hole k) k := by
  have hhole : hole < k := by
    rw [← hparent]
    exact parent_lt hpos
  have hswap {x y : ℕ} : Below le (swap l hole k) x y ↔
      Below le l (Equiv.swap hole k x) (Equiv.swap hole k y) := below_swap (Nat.lt_trans hhole hk) hk
  refine ⟨fun i hi hne => ?_, fun _ i hi heq => ?_⟩
  · have hchild := parent_lt hi
    rw [hswap]
    by_cases hik : i = k
    · subst hik
      rwa [hparent, Equiv.swap_apply_left, Equiv.swap_apply_right]
    · by_cases hsibling : parent i = hole
      · rw [hsibling, Equiv.swap_apply_left, Equiv.swap_apply_of_ne_of_ne (by omega) hik]
        exact hmin i hi hsibling hik
      · rw [Equiv.swap_apply_of_ne_of_ne hsibling hne]
        by_cases hih : i = hole
        · subst hih
          rw [Equiv.swap_apply_left]
          exact h.around hi k hpos hparent
        · rw [Equiv.swap_apply_of_ne_of_ne hih hik]
          exact h.edges i hi hsibling
  · have hchild := parent_lt hi
    rw [hswap, hparent, Equiv.swap_apply_left, Equiv.swap_apply_of_ne_of_ne (by omega) (by omega),
      ← heq]
    exact h.edges i hi (by omega)

end BinaryHeap
