import Mathlib.Logic.Relation
import Mathlib.Data.List.Nodup
import Mathlib.Data.List.Infix

/-!
# Forests

A node has at most one parent. Where every line of ancestors ends, being below another node is a
partial order, and two nodes with a common bound have a least one: the first of one line that is on
the other.
-/

namespace Forest

variable {α : Type} {parent : α → Option α} {a b c : α} {l l' : List α}

/-- `b` is `a` or one of its ancestors. -/
def Below (parent : α → Option α) : α → α → Prop :=
  Relation.ReflTransGen fun x y => parent x = some y

/-- The node and its ancestors, in order. -/
inductive Line (parent : α → Option α) : α → List α → Prop where
  | root {a : α} (h : parent a = none) : Line parent a [a]
  | step {a b : α} {l : List α} (h : parent a = some b) (hl : Line parent b l) : Line parent a (a :: l)

lemma Line.unique (h : Line parent a l) (h' : Line parent a l') : l = l' := by
  induction h generalizing l' with
  | root h =>
    cases h' with
    | root => rfl
    | step h' => cases h.symm.trans h'
  | step h _ ih =>
    cases h' with
    | root h' => cases h.symm.trans h'
    | step h' hl' =>
      cases h.symm.trans h'
      rw [ih hl']

lemma Line.head (h : Line parent a l) : ∃ rest, l = a :: rest := by
  cases h with
  | root => exact ⟨[], rfl⟩
  | step => exact ⟨_, rfl⟩

/-- The line of an ancestor is the end of the line. -/
theorem Line.suffix (h : Line parent a l) (hab : Below parent a b) :
    ∃ l', Line parent b l' ∧ l' <:+ l := by
  induction hab using Relation.ReflTransGen.head_induction_on generalizing l with
  | refl => exact ⟨l, h, List.suffix_rfl⟩
  | head hstep _ ih =>
    cases h with
    | root h => cases h.symm.trans hstep
    | step h hl =>
      cases h.symm.trans hstep
      obtain ⟨l', hl', hsuffix⟩ := ih hl
      exact ⟨l', hl', hsuffix.trans (List.suffix_cons _ _)⟩

/-- The line lists what the node is below. -/
theorem Line.mem_iff (h : Line parent a l) : b ∈ l ↔ Below parent a b := by
  constructor
  · intro hb
    induction h with
    | root =>
      cases List.mem_singleton.1 hb
      exact .refl
    | step h _ ih =>
      obtain rfl | hb := List.mem_cons.1 hb
      · exact .refl
      · exact .head h (ih hb)
  · intro hab
    obtain ⟨l', hl', hsuffix⟩ := h.suffix hab
    obtain ⟨rest, rfl⟩ := hl'.head
    exact hsuffix.subset List.mem_cons_self

/-- No node is its own ancestor when its line ends. -/
theorem Below.antisymm (h : Line parent a l) (hab : Below parent a b) (hba : Below parent b a) : a = b := by
  obtain ⟨lb, hlb, hba'⟩ := h.suffix hab
  obtain ⟨la, hla, hab'⟩ := hlb.suffix hba
  obtain rfl := hla.unique h
  obtain rfl : lb = la := List.IsSuffix.eq_of_length_le hba' hab'.length_le
  obtain ⟨rest, rfl⟩ := hla.head
  obtain ⟨rest', heq⟩ := hlb.head
  exact (List.cons.inj heq).1

lemma Line.nodup (h : Line parent a l) : l.Nodup := by
  induction h with
  | root => exact List.nodup_singleton _
  | @step a b l h hl ih =>
    refine List.nodup_cons.2 ⟨fun hmem => ?_, ih⟩
    -- the line would be as long as itself and one more
    obtain ⟨l', hl', hsuffix⟩ := hl.suffix (hl.mem_iff.1 hmem)
    cases hl'.unique (.step h hl)
    have := hsuffix.length_le
    rw [List.length_cons] at this
    omega

/-- Two ancestors of a node are one below the other. -/
theorem Below.total (hab : Below parent a b) (hac : Below parent a c) :
    Below parent b c ∨ Below parent c b :=
  Relation.ReflTransGen.total_of_right_unique
    (fun _ _ _ hy hz => Option.some.inj (hy.symm.trans hz)) hab hac

/-- A line goes on down to what is below its start. -/
theorem Line.of_below (h : Line parent b l) (hab : Below parent a b) : ∃ l', Line parent a l' := by
  induction hab using Relation.ReflTransGen.head_induction_on with
  | refl => exact ⟨l, h⟩
  | head hstep _ ih =>
    obtain ⟨l', hl'⟩ := ih
    exact ⟨_, .step hstep hl'⟩

/-- Lines end where a rank falls from a node to its parent. -/
theorem exists_line (rank : α → ℕ) (h : ∀ x y, parent x = some y → rank y < rank x) (a : α) :
    ∃ l, Line parent a l := by
  induction hn : rank a using Nat.strong_induction_on generalizing a with
  | _ n ih =>
    cases hp : parent a with
    | none => exact ⟨[a], .root hp⟩
    | some b =>
      obtain ⟨l, hl⟩ := ih (rank b) (hn ▸ h a b hp) b rfl
      exact ⟨a :: l, .step hp hl⟩

/-- Every node of a line but the last has a parent. -/
theorem Line.parent_isSome (h : Line parent a l) : ∀ x ∈ l.dropLast, (parent x).isSome := by
  induction h with
  | root => simp
  | step h hl ih =>
    obtain ⟨rest, rfl⟩ := hl.head
    rw [List.dropLast_cons_cons]
    rintro x (_ | ⟨_, hx⟩)
    · rw [h]
      rfl
    · exact ih x hx

section common
variable [DecidableEq α]

/-- The first of one line that is on the other. -/
def common (l l' : List α) : Option α := l.find? (· ∈ l')

/-- What is found is the least bound of both. -/
theorem common_eq_some (h : Line parent a l) (h' : Line parent b l') {m : α}
    (hm : common l l' = some m) : Below parent a m ∧ Below parent b m ∧
      ∀ c, Below parent a c → Below parent b c → Below parent m c := by
  have hmem : m ∈ l := List.mem_of_find?_eq_some hm
  have hmem' : m ∈ l' := by simpa using List.find?_some hm
  refine ⟨h.mem_iff.1 hmem, h'.mem_iff.1 hmem', fun c hac hbc => ?_⟩
  clear hmem hmem'
  induction h with
  | @root a h =>
    obtain rfl : m = a := List.mem_singleton.1 (List.mem_of_find?_eq_some hm)
    exact hac
  | @step a x l h hl ih =>
    rw [common, List.find?_cons] at hm
    by_cases ha : a ∈ l'
    · rw [decide_eq_true ha] at hm
      cases hm
      exact hac
    · rw [decide_eq_false ha] at hm
      obtain rfl | ⟨y, hy, hyc⟩ := Relation.ReflTransGen.cases_head hac
      · exact absurd (h'.mem_iff.2 hbc) ha
      · cases h.symm.trans hy
        exact ih hm hyc

lemma common_eq_none (h : Line parent a l) (h' : Line parent b l') :
    common l l' = none ↔ ∀ c, Below parent a c → ¬ Below parent b c := by
  rw [common, List.find?_eq_none]
  constructor
  · intro hnone c hac hbc
    exact hnone c (h.mem_iff.2 hac) (by simpa using h'.mem_iff.2 hbc)
  · intro hnone c hc hc'
    exact hnone c (h.mem_iff.1 hc) (h'.mem_iff.1 (by simpa using hc'))

/-- Which line is searched makes no difference. -/
theorem common_comm (h : Line parent a l) (h' : Line parent b l') : common l l' = common l' l := by
  cases hm : common l l' with
  | none =>
    refine ((common_eq_none h' h).2 fun c hbc hac => ?_).symm
    exact (common_eq_none h h').1 hm c hac hbc
  | some m =>
    obtain ⟨ham, hbm, hleast⟩ := common_eq_some h h' hm
    cases hm' : common l' l with
    | none => exact absurd ham ((common_eq_none h' h).1 hm' m hbm)
    | some m' =>
      obtain ⟨hbm', ham', hleast'⟩ := common_eq_some h' h hm'
      obtain ⟨lm, hlm, -⟩ := h.suffix ham
      rw [Below.antisymm hlm (hleast m' ham' hbm') (hleast' m hbm ham)]

end common

/-! ## A new leaf -/

/-- With a parent for a node that no line goes through, the other lines stay. -/
theorem Line.update {parent' : α → Option α} {n : α} (h : Line parent a l) (hn : n ∉ l)
    (hsame : ∀ x, x ≠ n → parent' x = parent x) : Line parent' a l := by
  induction h with
  | root h =>
    refine .root ?_
    rw [hsame _ fun heq => hn (by simp [heq]), h]
  | step h _ ih =>
    refine .step ?_ (ih fun hmem => hn (List.mem_cons_of_mem _ hmem))
    rw [hsame _ fun heq => hn (by simp [heq]), h]

end Forest
