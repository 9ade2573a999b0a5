import Mathlib.Data.List.Basic

/-!
# Bottom-up merging of runs

A list cut into runs, in which every pass merges the runs two by two. Merging keeps the elements
whatever the comparison is; when it comes from a strict weak order, merging keeps the runs sorted
and the order of the elements that the comparison does not separate.
-/

namespace RunMerging

open List (merge)

variable {α : Type} {r : α → α → Bool} {w : ℕ}

/-- The relation that a comparison decides. -/
abbrev Less (r : α → α → Bool) (a b : α) : Prop := r a b = true

/-- The comparison under which a merge takes the right element only when it is strictly less. -/
def notLess (r : α → α → Bool) (a b : α) : Bool := !r b a

/-- The elements that the comparison does not separate from `x`. -/
def tied (r : α → α → Bool) (x y : α) : Bool := !r x y && !r y x

/-- Every adjacent pair of runs is merged. -/
@[grind =]
def mergePairs (r : α → α → Bool) : List (List α) → List (List α)
  | [] => []
  | [run] => [run]
  | xs :: ys :: runs => merge xs ys (notLess r) :: mergePairs r runs

/-- No run is empty, none is longer than `w`, and every run but the last has length `w`. -/
@[grind =]
def Aligned (w : ℕ) : List (List α) → Prop
  | [] => True
  | run :: runs =>
    run ≠ [] ∧ run.length ≤ w ∧ (runs ≠ [] → run.length = w) ∧ Aligned w runs

lemma aligned_singletons (l : List α) : Aligned 1 (l.map fun x => [x]) := by
  induction l with
  | nil => trivial
  | cons x l ih => exact ⟨List.cons_ne_nil x [], Nat.le_refl 1, fun _ => rfl, ih⟩

/-- When the runs are as long as the list there is at most one. -/
theorem Aligned.tail_eq_nil {run : List α} {runs : List (List α)} (h : Aligned w (run :: runs))
    (hn : (run :: runs).flatten.length ≤ w) : runs = [] := by
  cases runs with
  | nil => rfl
  | cons next rest =>
    obtain ⟨-, -, hrun, hnext, -⟩ := h
    have hfull : run.length = w := hrun (List.cons_ne_nil next rest)
    have hpos : 0 < next.length := List.length_pos_iff.2 hnext
    simp only [List.flatten_cons, List.length_append] at hn
    omega

/-- A pass doubles the width of the runs. -/
theorem Aligned.pass {runs : List (List α)} (h : Aligned w runs) :
    Aligned (w * 2) (mergePairs r runs) := by
  fun_induction mergePairs r runs with
  | case1 => trivial
  | case2 run => exact ⟨h.1, Nat.le_trans h.2.1 (by omega), fun hne => absurd rfl hne, trivial⟩
  | case3 xs ys runs ih =>
    obtain ⟨hxs, hxlen, hxfull, hys, hylen, hyfull, hruns⟩ := h
    have hx : xs.length = w := hxfull (List.cons_ne_nil ys runs)
    have hpos : 0 < xs.length := List.length_pos_iff.2 hxs
    have hmerge := List.length_merge (notLess r) xs ys
    refine ⟨List.length_pos_iff.1 (by omega), by omega, ?_, ih hruns⟩
    intro hne
    have hy : ys.length = w := hyfull (by
      rintro rfl
      exact hne rfl)
    omega

/-- A pass keeps the elements. -/
theorem flatten_mergePairs_perm (r : α → α → Bool) (runs : List (List α)) :
    (mergePairs r runs).flatten.Perm runs.flatten := by
  fun_induction mergePairs r runs with
  | case1 => exact .refl _
  | case2 run => exact .refl _
  | case3 xs ys runs ih =>
    simp only [List.flatten_cons, ← List.append_assoc]
    exact List.Perm.append (List.merge_perm_append _) ih

section order

variable [IsStrictWeakOrder α (Less r)]

lemma less_trans {a b c : α} : Less r a b → Less r b c → Less r a c :=
  IsTrans.trans (r := Less r) a b c

/-- What is not less than something not less is not less. -/
theorem notLess_trans {a b c : α} (hab : notLess r a b) (hbc : notLess r b c) :
    notLess r a c := by
  simp only [notLess, Bool.not_eq_true', ← Bool.not_eq_true] at hab hbc ⊢
  intro hca
  -- otherwise `c` is tied with `b` and `b` with `a`, so that `c` is tied with `a`
  have hab' : ¬Less r a b := fun h => hbc (less_trans hca h)
  have hbc' : ¬Less r b c := fun h => hab (less_trans h hca)
  exact (IsStrictWeakOrder.incomp_trans c b a ⟨hbc, hbc'⟩ ⟨hab, hab'⟩).1 hca

lemma notLess_total (a b : α) : notLess r a b || notLess r b a := by
  by_contra h
  simp only [notLess, Bool.or_eq_true, Bool.not_eq_true', not_or, Bool.not_eq_false] at h
  exact Std.Irrefl.irrefl (r := Less r) b (less_trans h.1 h.2)

/-- What is tied with a smaller element is not in a run that begins with the larger one. -/
theorem not_tied_of_less {x y a z : α} (hya : Less r y a) (haz : notLess r a z)
    (hxy : tied r x y) : tied r x z = false := by
  have hyz : Less r y z := by
    by_contra hyz
    have hzy : notLess r z y := by simpa [notLess] using hyz
    have hay : notLess r a y := notLess_trans haz hzy
    simp [notLess, hya] at hay
  by_contra hxz
  simp only [tied, Bool.not_eq_false, Bool.and_eq_true, Bool.not_eq_true'] at hxy hxz
  simp only [← Bool.not_eq_true] at hxy hxz
  exact (IsStrictWeakOrder.incomp_trans y x z ⟨hxy.2, hxy.1⟩ ⟨hxz.1, hxz.2⟩).1 hyz

/-- Merging sorted runs gives sorted runs. -/
theorem pairwise_mergePairs {runs : List (List α)}
    (h : ∀ run ∈ runs, run.Pairwise fun a b => notLess r a b) :
    ∀ run ∈ mergePairs r runs, run.Pairwise fun a b => notLess r a b := by
  fun_induction mergePairs r runs with
  | case1 => exact h
  | case2 run => exact h
  | case3 xs ys runs ih =>
    obtain ⟨hxs, hys, hruns⟩ : _ ∧ _ ∧ _ := by simpa only [List.forall_mem_cons] using h
    refine List.forall_mem_cons.2 ⟨?_, ih hruns⟩
    exact List.pairwise_merge (fun _ _ _ => notLess_trans) notLess_total xs ys hxs hys

/-- A merge of sorted runs lists the elements tied with `x` of the left run first. -/
theorem filter_merge (x : α) {xs ys : List α} (hxs : xs.Pairwise fun a b => notLess r a b) :
    (merge xs ys (notLess r)).filter (tied r x) =
      xs.filter (tied r x) ++ ys.filter (tied r x) := by
  fun_induction merge xs ys (notLess r) with
  | case1 ys => rfl
  | case2 xs => simp
  | case3 a xs b ys hle ih =>
    have htail := ih (List.pairwise_cons.1 hxs).2
    simp only [List.filter_cons] at htail ⊢
    rw [htail]
    split <;> rfl
  | case4 a xs b ys hle ih =>
    have htail := ih hxs
    have hba : Less r b a := by simpa [notLess] using hle
    -- when `b` is tied with `x`, nothing of the left run is
    by_cases hb : tied r x b
    · have hnone : (a :: xs).filter (tied r x) = [] := by
        rw [List.filter_eq_nil_iff]
        intro z hz
        have haz : notLess r a z := by
          rcases List.mem_cons.1 hz with rfl | hz
          · simpa using notLess_total (r := r) z z
          · exact (List.pairwise_cons.1 hxs).1 z hz
        simp [not_tied_of_less hba haz hb]
      rw [List.filter_cons_of_pos hb, List.filter_cons_of_pos hb, htail, hnone]
      rfl
    · rw [List.filter_cons_of_neg hb, List.filter_cons_of_neg hb, htail]

/-- A pass keeps the order of tied elements. -/
theorem filter_mergePairs (x : α) {runs : List (List α)}
    (h : ∀ run ∈ runs, run.Pairwise fun a b => notLess r a b) :
    (mergePairs r runs).flatten.filter (tied r x) = runs.flatten.filter (tied r x) := by
  fun_induction mergePairs r runs with
  | case1 => rfl
  | case2 run => rfl
  | case3 xs ys runs ih =>
    obtain ⟨hxs, hys, hruns⟩ : _ ∧ _ ∧ _ := by simpa only [List.forall_mem_cons] using h
    simp only [List.flatten_cons, List.filter_append, filter_merge x hxs, ih hruns,
      List.append_assoc]

end order

end RunMerging
