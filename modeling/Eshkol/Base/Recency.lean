import Mathlib.Data.List.Basic

/-!
# Least recently used

A bounded map that forgets the key that was touched least recently: a list of entries, the one
touched last in front. Keys are compared by an equivalence.
-/

namespace Recency

variable {K V W : Type}

/-- The comparison of keys is an equivalence. -/
structure SameKey (same : K → K → Bool) : Prop where
  refl : ∀ k, same k k = true
  symm : ∀ {k k'}, same k k' = true → same k' k = true
  trans : ∀ {k k' k''}, same k k' = true → same k' k'' = true → same k k'' = true

lemma SameKey.congr {same : K → K → Bool} (h : SameKey same) {k k' : K} (hk : same k k' = true)
    (x : K) : same k x = same k' x := by
  rw [Bool.eq_iff_iff]
  exact ⟨h.trans (h.symm hk), h.trans hk⟩

section entries

variable (same : K → K → Bool)

@[grind =]
def lookup : List (K × V) → K → Option V
  | [], _ => none
  | (k', v) :: l, k => if same k' k then some v else lookup l k

/-- The other entries. -/
@[grind =]
def erase (l : List (K × V)) (k : K) : List (K × V) := l.filter fun e => !same e.1 k

/-- No two entries have the same key. -/
def Distinct (l : List (K × V)) : Prop := l.Pairwise fun e e' => same e.1 e'.1 = false

variable {same} {l : List (K × V)} {k k' : K} {v : V}

lemma lookup_eq_some_iff (hsame : SameKey same) (h : Distinct same l) :
    lookup same l k = some v ↔ ∃ k', (k', v) ∈ l ∧ same k' k = true := by
  induction l with
  | nil => simp [lookup]
  | cons e l ih =>
    obtain ⟨k₁, w⟩ := e
    obtain ⟨hne, hl⟩ := List.pairwise_cons.1 h
    rw [lookup]
    split_ifs with hk
    · constructor
      · rintro ⟨rfl⟩
        exact ⟨k₁, List.mem_cons_self, hk⟩
      · rintro ⟨k₂, hmem, hk₂⟩
        rcases List.mem_cons.1 hmem with heq | hmem
        · rw [(Prod.mk.inj heq).2]
        · have hfalse := hne _ hmem
          rw [hsame.trans hk (hsame.symm hk₂)] at hfalse
          cases hfalse
    · rw [ih hl]
      constructor
      · rintro ⟨k₂, hmem, hk₂⟩
        exact ⟨k₂, List.mem_cons_of_mem _ hmem, hk₂⟩
      · rintro ⟨k₂, hmem, hk₂⟩
        rcases List.mem_cons.1 hmem with heq | hmem
        · rw [← (Prod.mk.inj heq).1] at hk
          exact absurd hk₂ hk
        · exact ⟨k₂, hmem, hk₂⟩

lemma lookup_erase (hsame : SameKey same) :
    lookup same (erase same l k) k' = if same k k' then none else lookup same l k' := by
  induction l with
  | nil => simp [erase, lookup]
  | cons e l ih =>
    obtain ⟨k₁, w⟩ := e
    rw [erase, List.filter_cons]
    by_cases hk : same k₁ k = true
    · have hcongr := hsame.congr hk k'
      rw [if_neg (by simp [hk]), ← erase, ih, lookup, hcongr]
      split_ifs <;> rfl
    · rw [if_pos (by simp [hk]), lookup, ← erase, ih, lookup]
      by_cases hk' : same k₁ k' = true
      · have hne : ¬ same k k' = true := fun hkk => hk (hsame.trans hk' (hsame.symm hkk))
        rw [if_pos hk', if_neg hne, if_pos hk']
      · rw [if_neg hk', if_neg hk']

/-- An entry in front of the others. -/
theorem lookup_cons_erase (hsame : SameKey same) : lookup same ((k, v) :: erase same l k) k' =
    if same k k' then some v else lookup same l k' := by
  rw [lookup, lookup_erase hsame]
  split_ifs <;> rfl

lemma Distinct.erase (h : Distinct same l) (k : K) : Distinct same (erase same l k) :=
  List.Pairwise.filter _ h

lemma Distinct.cons_erase (hsame : SameKey same) (h : Distinct same l) (k : K) (v : V) :
    Distinct same ((k, v) :: Recency.erase same l k) := by
  refine List.pairwise_cons.2 ⟨fun e he => ?_, h.erase k⟩
  have hne := (List.mem_filter.1 he).2
  rw [Bool.not_eq_true'] at hne
  rw [Bool.eq_false_iff] at hne ⊢
  exact fun hk => hne (hsame.symm hk)

lemma erase_of_lookup (h : lookup same l k = none) : erase same l k = l := by
  induction l with
  | nil => rfl
  | cons e l ih =>
    obtain ⟨k₁, w⟩ := e
    rw [lookup] at h
    split_ifs at h with hk
    rw [erase, List.filter_cons, if_pos (by simp [hk]), ← erase, ih h]

/-- Taking out a key leaves one entry less. -/
theorem length_erase (hsame : SameKey same) (h : Distinct same l) (hk : lookup same l k = some v) :
    (erase same l k).length + 1 = l.length := by
  induction l with
  | nil => simp [lookup] at hk
  | cons e l ih =>
    obtain ⟨k₁, w⟩ := e
    obtain ⟨hne, hl⟩ := List.pairwise_cons.1 h
    rw [lookup] at hk
    split_ifs at hk with hk₁
    · have hnone : lookup same l k = none := by
        rw [Option.eq_none_iff_forall_ne_some]
        intro u hu
        obtain ⟨k₂, hmem, hk₂⟩ := (lookup_eq_some_iff hsame hl).1 hu
        have hfalse := hne _ hmem
        rw [hsame.trans hk₁ (hsame.symm hk₂)] at hfalse
        cases hfalse
      rw [erase, List.filter_cons, if_neg (by simp [hk₁]), ← erase, erase_of_lookup hnone,
        List.length_cons]
    · rw [erase, List.filter_cons, if_pos (by simp [hk₁]), ← erase, List.length_cons, ih hl hk,
        List.length_cons]

/-- A function of the values, in the entries. -/
def mapValues (f : V → W) (l : List (K × V)) : List (K × W) := l.map fun e => (e.1, f e.2)

end entries

/-! ## The bounded map -/

inductive Call (K V : Type) where
  | set (key : K) (value : V)
  | get (key : K)
  | getDefault (key : K) (default : V)
  | has (key : K)
  | delete (key : K)
  | clear

/-- What a call returns: a value, or nothing where the key is absent, or whether there was one. -/
inductive Result (V : Type) where
  | value (v : Option V)
  | flag (b : Bool)
  | done
deriving DecidableEq

section calls

variable (same : K → K → Bool) (capacity : ℕ)

/-- A key that is present comes to the front. -/
def touch (l : List (K × V)) (k : K) : List (K × V) :=
  match lookup same l k with
  | some v => (k, v) :: erase same l k
  | none => l

/-- A new key goes in front, and makes the last one go where the list is full. -/
def insert (l : List (K × V)) (k : K) (v : V) : List (K × V) :=
  if (lookup same l k).isSome then (k, v) :: erase same l k
  else (k, v) :: if capacity ≤ l.length then l.dropLast else l

/-- What a call returns. -/
def Call.answer (l : List (K × V)) : Call K V → Result V
  | .set _ _ => .done
  | .get k => .value (lookup same l k)
  | .getDefault k d => .value (some ((lookup same l k).getD d))
  | .has k => .flag (lookup same l k).isSome
  | .delete k => .flag (lookup same l k).isSome
  | .clear => .done

/-- The entries after a call. -/
def Call.next (l : List (K × V)) : Call K V → List (K × V)
  | .set k v => insert same capacity l k v
  | .get k => touch same l k
  | .getDefault k _ => touch same l k
  | .has _ => l
  | .delete k => erase same l k
  | .clear => []

variable {same capacity} {l : List (K × V)} {k : K} {v : V}

lemma touch_eq (h : lookup same l k = some v) : touch same l k = (k, v) :: erase same l k := by
  rw [touch, h]

lemma touch_of_lookup (h : lookup same l k = none) : touch same l k = l := by rw [touch, h]

/-- The list does not outgrow the capacity. -/
theorem length_next_le (hsame : SameKey same) (h : Distinct same l) (hpos : 0 < capacity)
    (hl : l.length ≤ capacity) (c : Call K V) : (c.next same capacity l).length ≤ capacity := by
  have htouch (k : K) : (touch same l k).length ≤ capacity := by
    cases hk : lookup same l k with
    | none => rwa [touch_of_lookup hk]
    | some v =>
      rw [touch_eq hk, List.length_cons, length_erase hsame h hk]
      exact hl
  cases c with
  | set k v =>
    show (insert same capacity l k v).length ≤ capacity
    rw [insert]
    split_ifs with hk hfull
    · obtain ⟨w, hw⟩ := Option.isSome_iff_exists.1 hk
      rw [List.length_cons, length_erase hsame h hw]
      exact hl
    · rw [List.length_cons, List.length_dropLast]
      omega
    · rw [List.length_cons]
      omega
  | get k => exact htouch k
  | getDefault k d => exact htouch k
  | has k => exact hl
  | delete k => exact Nat.le_trans (List.length_filter_le _ _) hl
  | clear => exact Nat.zero_le _

variable (same capacity)

/-- The results of a sequence of calls and the entries after the last. -/
def run : List (K × V) → List (Call K V) → List (Result V) × List (K × V)
  | l, [] => ([], l)
  | l, c :: cs => (c.answer same l :: (run (c.next same capacity l) cs).1,
      (run (c.next same capacity l) cs).2)

end calls

end Recency
