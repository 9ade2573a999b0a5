import Mathlib.Data.List.Infix

/-!
# Cursors into a list

A parser that passes a position along reads words off a fixed list. `Beyond` is the type of
the positions it may return after consuming something, and `OccursAt` says which word stands
at a position. The lemmas take a word apart from left to right.
-/

namespace Cursor

/-- A position after `pos` and no later than the end `len`. -/
abbrev Beyond (pos len : ℕ) := {q : ℕ // pos < q ∧ q ≤ len}

/-- A position no earlier than `pos` that does not pass the end `len`. -/
abbrev Onward (pos len : ℕ) := {q : ℕ // pos ≤ q ∧ q ≤ max pos len}

namespace Beyond

/-- What lies beyond a later position lies beyond an earlier one. -/
def weaken {p q len : ℕ} (h : p ≤ q) (r : Beyond q len) : Beyond p len :=
  ⟨r.1, Nat.lt_of_le_of_lt h r.2.1, r.2.2⟩

@[simp]
lemma weaken_val {p q len : ℕ} (h : p ≤ q) (r : Beyond q len) : (r.weaken h).1 = r.1 := rfl

end Beyond

namespace Onward

/-- What lies onward from a later position lies onward from an earlier one. -/
def weaken {p q len : ℕ} (h : p ≤ q) (hq : q ≤ max p len) (r : Onward q len) : Onward p len :=
  ⟨r.1, Nat.le_trans h r.2.1, by have := r.2.2; omega⟩

/-- What lies onward from a later position within the text lies beyond an earlier one. -/
def beyond {p q len : ℕ} (h : p < q) (hq : q ≤ len) (r : Onward q len) : Beyond p len :=
  ⟨r.1, Nat.lt_of_lt_of_le h r.2.1, by have := r.2.2; omega⟩

@[simp]
lemma weaken_val {p q len : ℕ} (h : p ≤ q) (hq : q ≤ max p len) (r : Onward q len) :
    (r.weaken h hq).1 = r.1 := rfl

@[simp]
lemma beyond_val {p q len : ℕ} (h : p < q) (hq : q ≤ len) (r : Onward q len) :
    (r.beyond h hq).1 = r.1 := rfl

end Onward

/-- What may be left of a list after something was read off its front. -/
abbrev Rest {α : Type*} (s : List α) := {r : List α // r.length < s.length}

/-- What may be left of a list may be left of a longer one. -/
def Rest.weaken {α : Type*} {s t : List α} (h : t.length ≤ s.length) (r : Rest t) : Rest s :=
  ⟨r.1, Nat.lt_of_lt_of_le r.2 h⟩

@[simp]
lemma Rest.weaken_val {α : Type*} {s t : List α} (h : t.length ≤ s.length) (r : Rest t) :
    (r.weaken h).1 = r.1 := rfl

/-- A result with what is left, as a list. -/
def Rest.plain {α : Type*} {β : Type*} {s : List α} (r : Option (β × Rest s)) :
    Option (β × List α) :=
  r.map fun r => (r.1, r.2.1)

section OccursAt

variable {α : Type*} {text word u v : List α} {pos : ℕ}

/-- The list `word` can be read off `text` from position `pos` on. -/
def OccursAt (text : List α) (pos : ℕ) (word : List α) : Prop := word <+: text.drop pos

@[simp]
lemma occursAt_nil : OccursAt text pos [] := List.nil_prefix

lemma occursAt_cons {a : α} :
    OccursAt text pos (a :: word) ↔ text[pos]? = some a ∧ OccursAt text (pos + 1) word := by
  unfold OccursAt
  rw [show text.drop (pos + 1) = (text.drop pos).tail by rw [List.tail_drop],
    ← List.head?_drop]
  cases text.drop pos with
  | nil => simp
  | cons b rest =>
    rw [List.cons_prefix_cons, List.head?_cons, List.tail_cons, Option.some_inj]
    exact and_congr_left' eq_comm

lemma occursAt_append :
    OccursAt text pos (u ++ v) ↔ OccursAt text pos u ∧ OccursAt text (pos + u.length) v := by
  induction u generalizing pos with
  | nil => simp
  | cons a u ih =>
    rw [List.cons_append, occursAt_cons, occursAt_cons, ih, List.length_cons,
      Nat.add_right_comm, Nat.add_assoc, and_assoc]

lemma occursAt_singleton {a : α} : OccursAt text pos [a] ↔ text[pos]? = some a := by
  rw [occursAt_cons]
  simp

/-- A word at the front of a text. -/
theorem occursAt_zero : OccursAt text 0 word ↔ word <+: text := by
  rw [OccursAt, List.drop_zero]

/-- A word that is read ends within the text. -/
theorem OccursAt.end_le (h : OccursAt text pos word) (hpos : pos ≤ text.length) :
    pos + word.length ≤ text.length := by
  have hlength := h.length_le
  rw [List.length_drop] at hlength
  omega

/-- The word that occurs at a position is the slice of its length. -/
theorem OccursAt.take_eq (h : OccursAt text pos word) :
    (text.drop pos).take word.length = word :=
  (List.prefix_iff_eq_take.1 h).symm

end OccursAt

end Cursor
