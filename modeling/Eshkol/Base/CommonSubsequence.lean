import Mathlib.Order.Bounds.Defs
import Mathlib.Order.MinMax

/-!
# Longest common subsequences

The length of a longest common subsequence by the usual recursion, and that no common subsequence is longer.
-/

namespace CommonSubsequence

variable {α : Type*}

/-- The lengths of the common subsequences. -/
def commonLengths (xs ys : List α) : Set ℕ := {n | ∃ zs : List α, zs.Sublist xs ∧ zs.Sublist ys ∧ zs.length = n}

/-- The lengths do not depend on the direction. -/
theorem commonLengths_reverse (xs ys : List α) : commonLengths xs.reverse ys.reverse = commonLengths xs ys := by
  apply Set.ext
  intro n
  constructor
  · rintro ⟨zs, hxs, hys, hlength⟩
    refine ⟨zs.reverse, ?_, ?_, by rw [List.length_reverse, hlength]⟩
    · simpa using hxs.reverse
    · simpa using hys.reverse
  · rintro ⟨zs, hxs, hys, hlength⟩
    exact ⟨zs.reverse, hxs.reverse, hys.reverse, by rw [List.length_reverse, hlength]⟩

variable [DecidableEq α]

/-- The recursion over the first elements. -/
def lcsLength : List α → List α → ℕ
  | [], _ => 0
  | _ :: _, [] => 0
  | x :: xs, y :: ys =>
    if x = y then lcsLength xs ys + 1 else max (lcsLength xs (y :: ys)) (lcsLength (x :: xs) ys)
termination_by xs ys => xs.length + ys.length

@[simp] lemma lcsLength_nil_left (ys : List α) : lcsLength [] ys = 0 := by rw [lcsLength]

@[simp] lemma lcsLength_nil_right (xs : List α) : lcsLength xs [] = 0 := by
  cases xs <;> rw [lcsLength]

lemma lcsLength_cons_cons (x y : α) (xs ys : List α) :
    lcsLength (x :: xs) (y :: ys) =
      if x = y then lcsLength xs ys + 1 else max (lcsLength xs (y :: ys)) (lcsLength (x :: xs) ys) := by
  rw [lcsLength]

/-- There is a common subsequence of that length. -/
theorem lcsLength_mem (xs ys : List α) : lcsLength xs ys ∈ commonLengths xs ys := by
  induction xs, ys using lcsLength.induct with
  | case1 ys => exact ⟨[], List.nil_sublist _, List.nil_sublist _, (lcsLength_nil_left ys).symm⟩
  | case2 x xs => exact ⟨[], List.nil_sublist _, List.nil_sublist _, (lcsLength_nil_right _).symm⟩
  | case3 xs x ys ih =>
    obtain ⟨zs, hxs, hys, hlength⟩ := ih
    rw [lcsLength_cons_cons, if_pos rfl]
    exact ⟨x :: zs, hxs.cons_cons x, hys.cons_cons x, by rw [List.length_cons, hlength]⟩
  | case4 x xs y ys hne ihx ihy =>
    rw [lcsLength_cons_cons, if_neg hne]
    rcases max_choice (lcsLength xs (y :: ys)) (lcsLength (x :: xs) ys) with hmax | hmax
    · obtain ⟨zs, hxs, hys, hlength⟩ := ihx
      exact ⟨zs, hxs.cons x, hys, by rw [hmax, hlength]⟩
    · obtain ⟨zs, hxs, hys, hlength⟩ := ihy
      exact ⟨zs, hxs, hys.cons y, by rw [hmax, hlength]⟩

/-- No common subsequence is longer. -/
theorem length_le_lcsLength {xs ys zs : List α} (hxs : zs.Sublist xs) (hys : zs.Sublist ys) :
    zs.length ≤ lcsLength xs ys := by
  induction xs, ys using lcsLength.induct generalizing zs with
  | case1 ys => rw [List.sublist_nil.1 hxs]; exact Nat.zero_le _
  | case2 x xs => rw [List.sublist_nil.1 hys]; exact Nat.zero_le _
  | case3 xs x ys ih =>
    rw [lcsLength_cons_cons, if_pos rfl]
    -- without its first element it is common to the rests, whichever elements it was taken from
    have htail : zs.tail.length ≤ lcsLength xs ys := ih (by simpa using hxs.tail) (by simpa using hys.tail)
    rw [List.length_tail] at htail
    omega
  | case4 x xs y ys hne ihx ihy =>
    rw [lcsLength_cons_cons, if_neg hne]
    rcases List.sublist_cons_iff.1 hxs with hxs' | ⟨rest, rfl, -⟩
    · exact (ihx hxs' hys).trans (le_max_left _ _)
    · rcases List.sublist_cons_iff.1 hys with hys' | ⟨rest', heq, -⟩
      · exact (ihy hxs hys').trans (le_max_right _ _)
      · exact absurd (List.cons.inj heq).1 hne

lemma isGreatest_lcsLength (xs ys : List α) : IsGreatest (commonLengths xs ys) (lcsLength xs ys) := by
  refine ⟨lcsLength_mem xs ys, ?_⟩
  rintro n ⟨zs, hxs, hys, rfl⟩
  exact length_le_lcsLength hxs hys

end CommonSubsequence
