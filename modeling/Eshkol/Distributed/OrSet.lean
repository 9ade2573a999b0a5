import Eshkol.Base.Replication
import Eshkol.Distributed.VectorClock

/-!
# The observed-remove set

Adds are values with dots, removals are dots, and a value is visible while one of its dots has
not been removed.
-/

namespace Distributed

variable {ν α : Type*} [DecidableEq ν] [DecidableEq α]

/-- The node that added and its counter. -/
abbrev Dot (ν : Type*) := ν × ℕ

/-- `#(or-set adds removals clock)`. -/
structure OrSet (ν α : Type*) where
  adds : List (α × Dot ν)
  removes : List (Dot ν)
  clock : Clock ν

namespace OrSet

/-- `make-or-set`. -/
def make : OrSet ν α := ⟨[], [], []⟩

/-- `or-set-active-dots-for`. -/
def activeDotsFor : List (α × Dot ν) → List (Dot ν) → α → List (Dot ν)
  | [], _, _ => []
  | (x, dot) :: adds, removals, value =>
    if x = value ∧ dot ∉ removals then dot :: activeDotsFor adds removals value
    else activeDotsFor adds removals value

/-- The dot that `or-set-add` gives to the next add of a node. -/
def nextDot (set : OrSet ν α) (node : ν) : Dot ν := (node, (set.clock.tick node).ref node)

/-- `or-set-add`. -/
def add (set : OrSet ν α) (node : ν) (value : α) : OrSet ν α where
  adds := consUnique (value, set.nextDot node) set.adds
  removes := set.removes
  clock := set.clock.tick node

/-- `or-set-remove`. -/
def remove (set : OrSet ν α) (value : α) : OrSet ν α where
  adds := set.adds
  removes := listUnion set.removes (activeDotsFor set.adds set.removes value)
  clock := set.clock

/-- `or-set-elements-loop`. -/
def elementsLoop : List (α × Dot ν) → List (Dot ν) → List α → List α
  | [], _, seen => seen
  | (x, dot) :: adds, removals, seen =>
    if dot ∉ removals ∧ x ∉ seen then elementsLoop adds removals (x :: seen)
    else elementsLoop adds removals seen

/-- `or-set-elements`. -/
def elements (set : OrSet ν α) : List α := elementsLoop set.adds set.removes []

/-- `or-set-merge`. -/
def merge (a b : OrSet ν α) : OrSet ν α where
  adds := listUnion a.adds b.adds
  removes := listUnion a.removes b.removes
  clock := a.clock.merge b.clock

/-! ## What is visible -/

variable {set a b c : OrSet ν α} {value : α} {dot : Dot ν}

lemma mem_activeDotsFor {adds : List (α × Dot ν)} {removals : List (Dot ν)} :
    dot ∈ activeDotsFor adds removals value ↔ (value, dot) ∈ adds ∧ dot ∉ removals := by
  induction adds with
  | nil => simp [activeDotsFor]
  | cons e adds ih =>
    obtain ⟨x, d⟩ := e
    rw [activeDotsFor, List.mem_cons, Prod.mk.injEq]
    split
    · next h =>
      obtain ⟨rfl, hd⟩ := h
      rw [List.mem_cons, ih]
      constructor
      · rintro (rfl | h)
        · exact ⟨.inl ⟨rfl, rfl⟩, hd⟩
        · exact ⟨.inr h.1, h.2⟩
      · rintro ⟨⟨-, rfl⟩ | h, hnot⟩
        · exact .inl rfl
        · exact .inr ⟨h, hnot⟩
    · next h =>
      rw [ih]
      refine and_congr_left fun hnot => ⟨.inr, ?_⟩
      rintro (⟨rfl, rfl⟩ | h')
      · exact absurd ⟨rfl, hnot⟩ h
      · exact h'

end OrSet

end Distributed
