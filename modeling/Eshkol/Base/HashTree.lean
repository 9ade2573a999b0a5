import Mathlib.Data.List.Basic

/-!
# Hash trees

Trees whose digest is the hash of an encoding of the digests below. Where the encoding is injective,
two trees of one shape with one digest are the same, or two different things with the same hash were
hashed for them.
-/

/-- Trees with data at the leaves. A twin has the same tree on both sides. -/
inductive HashTree (α : Type) where
  | leaf (a : α)
  | pair (left right : HashTree α)
  | twin (tree : HashTree α)

namespace HashTree

variable {α δ : Type}

/-- The data from left to right, that of a twin once. -/
def leaves : HashTree α → List α
  | leaf a => [a]
  | pair l r => l.leaves ++ r.leaves
  | twin t => t.leaves

/-- Trees that differ in their data only. -/
inductive SameShape : HashTree α → HashTree α → Prop where
  | leaf (a b : α) : SameShape (leaf a) (leaf b)
  | pair {l r l' r' : HashTree α} : SameShape l l' → SameShape r r' → SameShape (pair l r) (pair l' r')
  | twin {t t' : HashTree α} : SameShape t t' → SameShape (twin t) (twin t')

/-! ## Building a tree level by level -/

/-- Neighbours become pairs, and the last of an odd number becomes a twin. -/
def pairUp : List (HashTree α) → List (HashTree α)
  | [] => []
  | [t] => [twin t]
  | l :: r :: rest => pair l r :: pairUp rest

lemma length_pairUp (level : List (HashTree α)) : (pairUp level).length = (level.length + 1) / 2 := by
  induction level using pairUp.induct with
  | case1 => simp [pairUp]
  | case2 t => simp [pairUp]
  | case3 l r rest ih =>
    rw [pairUp, List.length_cons, ih, List.length_cons, List.length_cons]
    omega

/-- Levels are paired up until one tree is left. -/
def build : List (HashTree α) → Option (HashTree α)
  | [] => none
  | [t] => some t
  | l :: r :: rest => build (pairUp (l :: r :: rest))
termination_by level => level.length
decreasing_by
  rw [length_pairUp, List.length_cons, List.length_cons]
  omega

lemma flatMap_leaves_pairUp (level : List (HashTree α)) :
    (pairUp level).flatMap leaves = level.flatMap leaves := by
  induction level using pairUp.induct with
  | case1 => rfl
  | case2 t => rfl
  | case3 l r rest ih => simp [pairUp, ih, leaves]

/-- The tree that is built has the data of the level. -/
theorem leaves_of_build {level : List (HashTree α)} {t : HashTree α} (h : build level = some t) :
    t.leaves = level.flatMap leaves := by
  induction level using build.induct with
  | case1 => simp [build] at h
  | case2 u =>
    rw [build, Option.some.injEq] at h
    simp [h]
  | case3 l r rest ih =>
    rw [build] at h
    rw [ih h, flatMap_leaves_pairUp]

lemma sameShape_pairUp {level level' : List (HashTree α)} (h : level.Forall₂ SameShape level') :
    (pairUp level).Forall₂ SameShape (pairUp level') := by
  induction level using pairUp.induct generalizing level' with
  | case1 =>
    cases h
    exact .nil
  | case2 t =>
    obtain _ | ⟨ht, hrest⟩ := h
    cases hrest
    exact .cons (.twin ht) .nil
  | case3 l r rest ih =>
    obtain _ | ⟨hl, hrest⟩ := h
    obtain _ | ⟨hr, hrest⟩ := hrest
    exact .cons (.pair hl hr) (ih hrest)

/-- Trees that are built of trees of the same shapes have the same shape. -/
theorem sameShape_of_build {level level' : List (HashTree α)} {t t' : HashTree α}
    (h : level.Forall₂ SameShape level') (ht : build level = some t) (ht' : build level' = some t') :
    SameShape t t' := by
  induction level using build.induct generalizing level' with
  | case1 => simp [build] at ht
  | case2 u =>
    obtain _ | ⟨hu, hrest⟩ := h
    cases hrest
    rw [build, Option.some.injEq] at ht ht'
    rwa [← ht, ← ht']
  | case3 l r rest ih =>
    have hpairs := sameShape_pairUp h
    obtain _ | ⟨hl, hrest⟩ := h
    obtain _ | ⟨hr, hrest⟩ := hrest
    rw [build] at ht ht'
    exact ih hpairs ht ht'

lemma sameShape_leaves {xs ys : List α} (h : xs.length = ys.length) :
    (xs.map leaf).Forall₂ SameShape (ys.map leaf) := by
  induction xs generalizing ys with
  | nil =>
    obtain rfl := List.eq_nil_of_length_eq_zero h.symm
    exact .nil
  | cons x xs ih =>
    cases ys with
    | nil => cases h
    | cons y ys => exact .cons (.leaf x y) (ih (by simpa using h))

/-! ## Digests -/

/-- The side that a sibling is on. -/
inductive Side where
  | left | right
deriving DecidableEq

section digest

variable (hash : α → δ) (encode : δ → δ → α)

def digest : HashTree α → δ
  | leaf a => hash a
  | pair l r => hash (encode (digest l) (digest r))
  | twin t => hash (encode (digest t) (digest t))

/-- All that is hashed for the digest of a tree. -/
def hashed : HashTree α → List α
  | leaf a => [a]
  | pair l r => encode (digest hash encode l) (digest hash encode r) :: (hashed l ++ hashed r)
  | twin t => encode (digest hash encode t) (digest hash encode t) :: hashed t

/-- Something of one list and something else of the other have the same hash. -/
def Collision (xs ys : List α) : Prop := ∃ x ∈ xs, ∃ y ∈ ys, x ≠ y ∧ hash x = hash y

variable {hash encode}

/-- The data of the leaves is hashed. -/
theorem mem_hashed {t : HashTree α} {a : α} (h : a ∈ t.leaves) : a ∈ hashed hash encode t := by
  induction t with
  | leaf b => exact h
  | pair l r ihl ihr =>
    rw [hashed, List.mem_cons, List.mem_append]
    exact .inr ((List.mem_append.1 h).imp ihl ihr)
  | twin t ih => exact List.mem_cons_of_mem _ (ih h)

lemma Collision.mono {xs xs' ys ys' : List α} (h : Collision hash xs ys) (hx : xs ⊆ xs')
    (hy : ys ⊆ ys') : Collision hash xs' ys' := by
  obtain ⟨x, hxs, y, hys, hne, heq⟩ := h
  exact ⟨x, hx hxs, y, hy hys, hne, heq⟩

lemma eq_or_collision {x y : α} {xs ys : List α} (h : hash x = hash y) (hx : x ∈ xs) (hy : y ∈ ys) :
    x = y ∨ Collision hash xs ys := by
  by_cases heq : x = y
  · exact .inl heq
  · exact .inr ⟨x, hx, y, hy, heq, h⟩

/-- Trees of one shape with one digest are the same, but for a collision. -/
theorem eq_of_digest_eq (hencode : Function.Injective2 encode) {t t' : HashTree α}
    (hshape : SameShape t t') (h : digest hash encode t = digest hash encode t') :
    t = t' ∨ Collision hash (hashed hash encode t) (hashed hash encode t') := by
  induction hshape with
  | leaf a b =>
    have hhash : hash a = hash b := h
    refine (eq_or_collision hhash (List.mem_singleton_self a) (List.mem_singleton_self b)).imp_left ?_
    rintro rfl
    rfl
  | @pair l r l' r' _ _ ihl ihr =>
    have hhash : hash (encode (digest hash encode l) (digest hash encode r)) =
        hash (encode (digest hash encode l') (digest hash encode r')) := h
    rcases eq_or_collision hhash List.mem_cons_self List.mem_cons_self with heq | hcollision
    · obtain ⟨hl, hr⟩ := hencode heq
      rcases ihl hl with rfl | hcollision
      · rcases ihr hr with rfl | hcollision
        · exact .inl rfl
        · exact .inr (hcollision.mono (by simp [hashed]) (by simp [hashed]))
      · exact .inr (hcollision.mono (by simp [hashed]) (by simp [hashed]))
    · exact .inr hcollision
  | @twin t t' _ ih =>
    have hhash : hash (encode (digest hash encode t) (digest hash encode t)) =
        hash (encode (digest hash encode t') (digest hash encode t')) := h
    rcases eq_or_collision hhash List.mem_cons_self List.mem_cons_self with heq | hcollision
    · obtain ⟨ht, -⟩ := hencode heq
      rcases ih ht with rfl | hcollision
      · exact .inl rfl
      · exact .inr (hcollision.mono (by simp [hashed]) (by simp [hashed]))
    · exact .inr hcollision

/-! ## Paths -/

variable (hash encode)

/-- One step up: a node and its sibling, in order. -/
def join (d : δ) : δ × Side → α
  | (sibling, .right) => encode d sibling
  | (sibling, .left) => encode sibling d

/-- The digest at the end of a path, from the digest at its start. -/
def climb (d : δ) : List (δ × Side) → δ
  | [] => d
  | step :: path => climb (hash (join encode d step)) path

/-- All that is hashed along a path. -/
def climbed (d : δ) : List (δ × Side) → List α
  | [] => []
  | step :: path => join encode d step :: climbed (hash (join encode d step)) path

/-- The siblings from a leaf to the root. -/
def path : HashTree α → ℕ → List (δ × Side)
  | leaf _, _ => []
  | pair l r, i =>
    if i < l.leaves.length then path l i ++ [(digest hash encode r, .right)]
    else path r (i - l.leaves.length) ++ [(digest hash encode l, .left)]
  | twin t, i => path t i ++ [(digest hash encode t, .right)]

variable {hash encode} {t : HashTree α} {i : ℕ} {a : α}

lemma climb_append (d : δ) (p q : List (δ × Side)) :
    climb hash encode d (p ++ q) = climb hash encode (climb hash encode d p) q := by
  induction p generalizing d with
  | nil => rfl
  | cons step p ih => exact ih _

lemma climbed_append (d : δ) (p q : List (δ × Side)) : climbed hash encode d (p ++ q) =
    climbed hash encode d p ++ climbed hash encode (climb hash encode d p) q := by
  induction p generalizing d with
  | nil => rfl
  | cons step p ih => exact congrArg _ (ih _)

/-- The path of a leaf leads from its hash to the digest. -/
theorem climb_path (h : t.leaves[i]? = some a) :
    climb hash encode (hash a) (path hash encode t i) = digest hash encode t := by
  induction t generalizing i with
  | leaf b =>
    obtain rfl : b = a := by
      have hmem := List.mem_of_getElem? h
      exact (List.mem_singleton.1 hmem).symm
    rfl
  | pair l r ihl ihr =>
    rw [leaves] at h
    rw [path]
    split_ifs with hi
    · rw [List.getElem?_append_left hi] at h
      rw [climb_append, ihl h]
      rfl
    · rw [List.getElem?_append_right (Nat.not_lt.1 hi)] at h
      rw [climb_append, ihr h]
      rfl
  | twin t ih =>
    rw [path, climb_append, ih h]
    rfl

lemma join_inj (hencode : Function.Injective2 encode) {d x : δ} {step step' : δ × Side}
    (hside : step.2 = step'.2) (h : join encode d step = join encode x step') : d = x := by
  obtain ⟨sibling, side⟩ := step
  obtain ⟨sibling', side'⟩ := step'
  obtain rfl : side = side' := hside
  cases side with
  | left => exact (hencode h).2
  | right => exact (hencode h).1

/-- The last step of a path comes from where it should, but for a collision. -/
theorem climb_concat (hencode : Function.Injective2 encode) {d x : δ} {step : δ × Side}
    {p q : List (δ × Side)} {ys : List α} (hsides : p.map Prod.snd = (q ++ [step]).map Prod.snd)
    (hclimb : climb hash encode d p = hash (join encode x step)) (hmem : join encode x step ∈ ys) :
    (∃ p', p'.map Prod.snd = q.map Prod.snd ∧ climb hash encode d p' = x ∧
      climbed hash encode d p' ⊆ climbed hash encode d p) ∨
        Collision hash (climbed hash encode d p) ys := by
  rw [List.map_append, List.map_singleton] at hsides
  obtain ⟨p', last, rfl, hinit, hlast⟩ := List.map_eq_append_iff.1 hsides
  obtain ⟨step', hstep, hside⟩ := List.map_eq_singleton_iff.1 hlast
  subst hstep
  rw [climb_append] at hclimb
  rw [climbed_append]
  have hlast' : join encode (climb hash encode d p') step' ∈ climbed hash encode d p' ++
      climbed hash encode (climb hash encode d p') [step'] :=
    List.mem_append_right _ List.mem_cons_self
  refine (eq_or_collision hclimb hlast' hmem).imp_left fun heq => ?_
  exact ⟨p', hinit, join_inj hencode hside heq, List.subset_append_left _ _⟩

/-- A path with the sides of a leaf's path that leads to the digest starts at the hash of the leaf,
but for a collision. -/
theorem eq_hash_of_climb (hencode : Function.Injective2 encode) (h : t.leaves[i]? = some a) {d : δ}
    {p : List (δ × Side)} (hsides : p.map Prod.snd = (path hash encode t i).map Prod.snd)
    (hclimb : climb hash encode d p = digest hash encode t) :
    d = hash a ∨ Collision hash (climbed hash encode d p) (hashed hash encode t) := by
  induction t generalizing i p with
  | leaf b =>
    obtain rfl := List.map_eq_nil_iff.1 hsides
    obtain rfl : b = a := (List.mem_singleton.1 (List.mem_of_getElem? h)).symm
    exact .inl hclimb
  | pair l r ihl ihr =>
    rw [leaves] at h
    rw [path] at hsides
    split_ifs at hsides with hi
    · rw [List.getElem?_append_left hi] at h
      rcases climb_concat hencode hsides hclimb List.mem_cons_self with
        ⟨p', hinit, hclimb', hsub⟩ | hcollision
      · exact (ihl h hinit hclimb').imp_right fun hcollision =>
          hcollision.mono hsub (by simp [hashed])
      · exact .inr hcollision
    · rw [List.getElem?_append_right (Nat.not_lt.1 hi)] at h
      rcases climb_concat hencode hsides hclimb List.mem_cons_self with
        ⟨p', hinit, hclimb', hsub⟩ | hcollision
      · exact (ihr h hinit hclimb').imp_right fun hcollision =>
          hcollision.mono hsub (by simp [hashed])
      · exact .inr hcollision
  | twin t ih =>
    rcases climb_concat hencode hsides hclimb List.mem_cons_self with
      ⟨p', hinit, hclimb', hsub⟩ | hcollision
    · exact (ih h hinit hclimb').imp_right fun hcollision =>
        hcollision.mono hsub (by simp [hashed])
    · exact .inr hcollision

/-- A path with the sides of a leaf's path that leads to the digest starts at the data of the leaf,
but for a collision. -/
theorem eq_of_climb (hencode : Function.Injective2 encode) (h : t.leaves[i]? = some a) {b : α}
    {p : List (δ × Side)} (hsides : p.map Prod.snd = (path hash encode t i).map Prod.snd)
    (hclimb : climb hash encode (hash b) p = digest hash encode t) :
    b = a ∨ Collision hash (b :: climbed hash encode (hash b) p) (hashed hash encode t) := by
  rcases eq_hash_of_climb hencode h hsides hclimb with heq | hcollision
  · exact eq_or_collision heq List.mem_cons_self (mem_hashed (List.mem_of_getElem? h))
  · exact .inr (hcollision.mono (List.subset_cons_self _ _) (List.Subset.refl _))

end digest

end HashTree
