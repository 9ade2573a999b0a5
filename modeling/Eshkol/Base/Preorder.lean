import Eshkol.Base.Forest
import Mathlib.Data.List.Perm.Subperm

/-!
# Preorder walks of a forest

A forest is given by the children of each identifier, in order. The walk below an identifier visits
every child and then walks below it. Cycles are possible away from the roots, so the walk takes a
bound on its depth and has no result when it would go deeper.
-/

namespace Preorder

variable {α κ β γ : Type}

/-- The walk of a list of nodes, where `below` walks below an identifier. -/
def walkAll (id : κ → α) (visit : κ → List β) (below : α → Option (List β)) :
    List κ → Option (List β)
  | [] => some []
  | c :: cs => do
    let deeper ← below (id c)
    let later ← walkAll id visit below cs
    some (visit c ++ (deeper ++ later))

/-- The walk below an identifier. -/
def walk (id : κ → α) (visit : κ → List β) (children : α → List κ) : ℕ → α → Option (List β)
  | 0, _ => none
  | n + 1, p => walkAll id visit (walk id visit children n) (children p)

section lists

variable {id : κ → α} {visit : κ → List β} {below below' : α → Option (List β)} {c : κ}
  {cs cs' : List κ} {out : List β}

lemma walkAll_cons_eq_some : walkAll id visit below (c :: cs) = some out ↔
    ∃ deeper later, below (id c) = some deeper ∧ walkAll id visit below cs = some later ∧
      visit c ++ (deeper ++ later) = out := by
  simp [walkAll, Option.bind_eq_some_iff]

lemma walkAll_append_eq_some : walkAll id visit below (cs ++ cs') = some out ↔
    ∃ first second, walkAll id visit below cs = some first ∧
      walkAll id visit below cs' = some second ∧ first ++ second = out := by
  induction cs generalizing out with
  | nil => simp [walkAll]
  | cons c cs ih =>
    simp only [List.cons_append, walkAll_cons_eq_some, ih]
    constructor
    · rintro ⟨deeper, _, hdeeper, ⟨first, second, hfirst, hsecond, rfl⟩, rfl⟩
      exact ⟨_, second, ⟨deeper, first, hdeeper, hfirst, rfl⟩, hsecond, by simp⟩
    · rintro ⟨_, second, ⟨deeper, first, hdeeper, hfirst, rfl⟩, hsecond, rfl⟩
      exact ⟨deeper, _, hdeeper, ⟨first, second, hfirst, hsecond, rfl⟩, by simp⟩

lemma walkAll_congr (h : ∀ c ∈ cs, below (id c) = below' (id c)) :
    walkAll id visit below cs = walkAll id visit below' cs := by
  induction cs with
  | nil => rfl
  | cons c cs ih =>
    rw [walkAll, walkAll, h c List.mem_cons_self,
      ih fun c' hc' => h c' (List.mem_cons_of_mem _ hc')]

/-- A walk of a list has a result when every walk below it has, and keeps it where they do. -/
theorem walkAll_mono (h : ∀ c ∈ cs, ∀ out, below (id c) = some out → below' (id c) = some out)
    (hcs : walkAll id visit below cs = some out) : walkAll id visit below' cs = some out := by
  induction cs generalizing out with
  | nil => exact hcs
  | cons c cs ih =>
    obtain ⟨deeper, later, hdeeper, hlater, rfl⟩ := walkAll_cons_eq_some.1 hcs
    exact walkAll_cons_eq_some.2 ⟨deeper, later, h c List.mem_cons_self _ hdeeper,
      ih (fun c' hc' => h c' (List.mem_cons_of_mem _ hc')) hlater, rfl⟩

lemma walkAll_isSome (h : ∀ c ∈ cs, (below (id c)).isSome) :
    (walkAll id visit below cs).isSome := by
  induction cs with
  | nil => rfl
  | cons c cs ih =>
    obtain ⟨deeper, hdeeper⟩ := Option.isSome_iff_exists.1 (h c List.mem_cons_self)
    obtain ⟨later, hlater⟩ :=
      Option.isSome_iff_exists.1 (ih fun c' hc' => h c' (List.mem_cons_of_mem _ hc'))
    rw [walkAll_cons_eq_some.2 ⟨deeper, later, hdeeper, hlater, rfl⟩]
    rfl

lemma mem_walkAll {x : β} (hcs : walkAll id visit below cs = some out) :
    x ∈ out ↔ ∃ c ∈ cs, x ∈ visit c ∨ ∃ deeper, below (id c) = some deeper ∧ x ∈ deeper := by
  induction cs generalizing out with
  | nil =>
    obtain rfl := Option.some.inj hcs
    simp
  | cons c cs ih =>
    obtain ⟨deeper, later, hdeeper, hlater, rfl⟩ := walkAll_cons_eq_some.1 hcs
    simp only [List.mem_append, List.mem_cons, ih hlater, exists_eq_or_imp, hdeeper,
      Option.some.injEq, exists_eq_left', or_assoc]

/-- Where a walk of a list has a result, the walks below its nodes have. -/
theorem exists_of_mem_walkAll (hcs : walkAll id visit below cs = some out) (hc : c ∈ cs) :
    ∃ deeper, below (id c) = some deeper := by
  obtain ⟨pre, post, rfl⟩ := List.append_of_mem hc
  obtain ⟨_, _, -, hrest, -⟩ := walkAll_append_eq_some.1 hcs
  obtain ⟨deeper, _, hdeeper, -⟩ := walkAll_cons_eq_some.1 hrest
  exact ⟨deeper, hdeeper⟩

/-- Visiting a function of what is visited maps the result. -/
theorem walkAll_map (f : β → γ) {below₂ : α → Option (List γ)}
    (h : ∀ p, below₂ p = (below p).map (List.map f)) :
    walkAll id (fun c => (visit c).map f) below₂ cs =
      (walkAll id visit below cs).map (List.map f) := by
  induction cs with
  | nil => rfl
  | cons c cs ih =>
    rw [walkAll, walkAll, ih, h]
    cases below (id c) <;> cases walkAll id visit below cs <;> simp

end lists

section walks

variable {id : κ → α} {visit : κ → List β} {children : α → List κ} {p q : α} {m n : ℕ}
  {out : List β}

lemma walk_mono (h : walk id visit children n p = some out) (hnm : n ≤ m) :
    walk id visit children m p = some out := by
  induction n generalizing m p out with
  | zero => cases h
  | succ n ih =>
    obtain ⟨m, rfl⟩ : ∃ k, m = k + 1 := ⟨m - 1, by omega⟩
    exact walkAll_mono (fun c _ out hout => ih hout (by omega)) h

/-- Two depths at which the walk has a result give the same one. -/
theorem walk_unique {out' : List β} (h : walk id visit children n p = some out)
    (h' : walk id visit children m p = some out') : out = out' := by
  have hmax := walk_mono h (Nat.le_max_left n m)
  exact Option.some.inj (hmax.symm.trans (walk_mono h' (Nat.le_max_right n m)))

lemma walk_map (f : β → γ) : walk id (fun c => (visit c).map f) children n p =
    (walk id visit children n p).map (List.map f) := by
  induction n generalizing p with
  | zero => rfl
  | succ n ih => exact walkAll_map f fun _ => ih

end walks

/-! ## Walks of a forest with parents -/

/-- The parents of identifiers agree with the children, and different nodes have different
identifiers. -/
structure Linked (id : κ → α) (children : α → List κ) (parent : α → Option α) : Prop where
  parent_eq_some : ∀ {x p}, parent x = some p ↔ ∃ c ∈ children p, id c = x
  id_inj : ∀ {p q c d}, c ∈ children p → d ∈ children q → id c = id d → c = d
  nodup : ∀ p, (children p).Nodup

section forest

open Forest

variable {id : κ → α} {visit : κ → List β} {children : α → List κ} {parent : α → Option α}
  {p q : α} {n : ℕ} {out : List β} {c d : κ} {l ids : List α}

lemma Linked.parent_eq (h : Linked id children parent) (hc : c ∈ children p) :
    parent (id c) = some p := h.parent_eq_some.2 ⟨c, hc, rfl⟩

/-- Nothing is below its own children. -/
theorem Linked.not_below_child (h : Linked id children parent) (hl : Line parent p l)
    (hc : c ∈ children p) : ¬ Below parent p (id c) := by
  intro hbelow
  have hstep := h.parent_eq hc
  have hsame := hbelow.antisymm hl (.single hstep)
  -- the line of `p` would go through `p` again
  have hnodup := (Line.step hstep hl).nodup
  obtain ⟨rest, rfl⟩ := hl.head
  simp [hsame] at hnodup

/-- What is below two children of one node shows that they are the same. -/
theorem Linked.child_unique (h : Linked id children parent) (hl : Line parent p l)
    (hc : c ∈ children p) (hd : d ∈ children p) (hqc : Below parent q (id c))
    (hqd : Below parent q (id d)) : c = d := by
  have haux : ∀ {c d}, c ∈ children p → d ∈ children p → Below parent (id c) (id d) → c = d := by
    intro c d hc hd hcd
    obtain heq | ⟨y, hy, hyd⟩ := Relation.ReflTransGen.cases_head hcd
    · exact h.id_inj hc hd heq
    · cases (h.parent_eq hc).symm.trans hy
      exact absurd hyd (h.not_below_child hl hd)
  rcases hqc.total hqd with hcd | hdc
  · exact haux hc hd hcd
  · exact (haux hd hc hdc).symm

/-- Walks below an identifier whose line of ancestors ends have a result at a depth bounded by the
number of identifiers. -/
theorem walk_isSome (h : Linked id children parent) (hids : ∀ x y, parent x = some y → x ∈ ids)
    (hl : Line parent p l) (hn : ids.length + 1 < n + l.length) :
    (walk id visit children n p).isSome := by
  induction n generalizing p l with
  | zero =>
    -- the line repeats no identifier, so it is not longer than they are many
    have hsub : l.dropLast ⊆ ids := fun x hx => by
      obtain ⟨y, hy⟩ := Option.isSome_iff_exists.1 (hl.parent_isSome x hx)
      exact hids x y hy
    have hlength := (List.subperm_of_subset (hl.nodup.sublist (List.dropLast_sublist l)) hsub).length_le
    rw [List.length_dropLast] at hlength
    omega
  | succ n ih =>
    refine walkAll_isSome fun c hc => ih (.step (h.parent_eq hc) hl) ?_
    rw [List.length_cons]
    omega

/-- The walk visits the nodes below. -/
theorem mem_walk {x : β} (h : Linked id children parent)
    (hwalk : walk id visit children n p = some out) :
    x ∈ out ↔ ∃ c q, c ∈ children q ∧ x ∈ visit c ∧ Below parent q p := by
  induction n generalizing p out with
  | zero => cases hwalk
  | succ n ih =>
    rw [mem_walkAll hwalk]
    constructor
    · rintro ⟨c, hc, hx | ⟨deeper, hdeeper, hx⟩⟩
      · exact ⟨c, p, hc, hx, .refl⟩
      · obtain ⟨d, q, hd, hx, hq⟩ := (ih hdeeper).1 hx
        exact ⟨d, q, hd, hx, hq.tail (h.parent_eq hc)⟩
    · rintro ⟨d, q, hd, hx, hq⟩
      obtain rfl | ⟨y, hqy, hy⟩ := Relation.ReflTransGen.cases_tail hq
      · exact ⟨d, hd, .inl hx⟩
      · obtain ⟨c, hc, rfl⟩ := h.parent_eq_some.1 hy
        obtain ⟨deeper, hdeeper⟩ := exists_of_mem_walkAll hwalk hc
        exact ⟨c, hc, .inr ⟨deeper, hdeeper, (ih hdeeper).2 ⟨d, q, hd, hx, hqy⟩⟩⟩

/-! ## The visible nodes -/

variable {visible : κ → Bool} {nodes : List κ}

/-- A node is visited as itself when it is visible. -/
def visitVisible (visible : κ → Bool) (c : κ) : List κ := if visible c then [c] else []

lemma mem_visitVisible : c ∈ visitVisible visible d ↔ c = d ∧ visible d = true := by
  by_cases hd : visible d <;> simp [visitVisible, hd]

/-- A walk of some nodes lists the visible ones at or below one of them. -/
theorem mem_walkAll_visible (h : Linked id children parent) {cs : List κ}
    (hwalk : walkAll id (visitVisible visible) (walk id (visitVisible visible) children n) cs =
      some nodes) : d ∈ nodes ↔ visible d = true ∧
        ∃ c ∈ cs, d = c ∨ ∃ q, d ∈ children q ∧ Below parent q (id c) := by
  rw [mem_walkAll hwalk]
  constructor
  · rintro ⟨c, hc, hd | ⟨deeper, hdeeper, hd⟩⟩
    · obtain ⟨rfl, hvisible⟩ := mem_visitVisible.1 hd
      exact ⟨hvisible, d, hc, .inl rfl⟩
    · obtain ⟨e, q, he, hd, hq⟩ := (mem_walk h hdeeper).1 hd
      obtain ⟨rfl, hvisible⟩ := mem_visitVisible.1 hd
      exact ⟨hvisible, c, hc, .inr ⟨q, he, hq⟩⟩
  · rintro ⟨hvisible, c, hc, rfl | ⟨q, hd, hq⟩⟩
    · exact ⟨d, hc, .inl (mem_visitVisible.2 ⟨rfl, hvisible⟩)⟩
    · obtain ⟨deeper, hdeeper⟩ := exists_of_mem_walkAll hwalk hc
      exact ⟨c, hc, .inr ⟨deeper, hdeeper,
        (mem_walk h hdeeper).2 ⟨d, q, hd, mem_visitVisible.2 ⟨rfl, hvisible⟩, hq⟩⟩⟩

/-- What a walk of some children lists is at or below one of them. -/
theorem below_of_mem_walkAll (h : Linked id children parent) {cs : List κ}
    (hwalk : walkAll id (visitVisible visible) (walk id (visitVisible visible) children n) cs =
      some nodes) (hd : d ∈ nodes) : ∃ c ∈ cs, Below parent (id d) (id c) := by
  obtain ⟨-, c, hc, rfl | ⟨q, hd, hq⟩⟩ := (mem_walkAll_visible h hwalk).1 hd
  · exact ⟨d, hc, .refl⟩
  · exact ⟨c, hc, .head (h.parent_eq hd) hq⟩

/-- The walk visits no node twice. -/
theorem walk_nodup (h : Linked id children parent) (hl : Line parent p l)
    (hwalk : walk id (visitVisible visible) children n p = some nodes) : nodes.Nodup := by
  induction n generalizing p l nodes with
  | zero => cases hwalk
  | succ n ih =>
    have hlist : ∀ cs : List κ, cs.Nodup → (∀ c ∈ cs, c ∈ children p) → ∀ nodes,
        walkAll id (visitVisible visible) (walk id (visitVisible visible) children n) cs =
          some nodes → nodes.Nodup := by
      intro cs hcs hsub
      induction cs with
      | nil =>
        intro nodes hnodes
        obtain rfl := Option.some.inj hnodes
        exact List.nodup_nil
      | cons c cs ihcs =>
        intro nodes hnodes
        obtain ⟨hnot, hcs⟩ := List.nodup_cons.1 hcs
        obtain ⟨deeper, later, hdeeper, hlater, rfl⟩ := walkAll_cons_eq_some.1 hnodes
        have hc := hsub c List.mem_cons_self
        have hlaterBelow : ∀ d ∈ later, Below parent (id d) (id c) → False := by
          intro d hd hdc
          obtain ⟨c', hc', hbelow⟩ := below_of_mem_walkAll h hlater hd
          obtain rfl := h.child_unique hl hc (hsub c' (List.mem_cons_of_mem _ hc')) hdc hbelow
          exact hnot hc'
        have hdeeperBelow : ∀ d ∈ deeper, Below parent (id d) (id c) ∧ d ≠ c := by
          intro d hd
          obtain ⟨e, q, he, hd, hq⟩ := (mem_walk h hdeeper).1 hd
          obtain ⟨rfl, -⟩ := mem_visitVisible.1 hd
          refine ⟨.head (h.parent_eq he) hq, ?_⟩
          rintro rfl
          cases (h.parent_eq hc).symm.trans (h.parent_eq he)
          exact h.not_below_child hl hc hq
        refine List.nodup_append.2 ⟨?_, List.nodup_append.2 ⟨ih (.step (h.parent_eq hc) hl) hdeeper,
          ihcs hcs (fun c' hc' => hsub c' (List.mem_cons_of_mem _ hc')) later hlater, ?_⟩, ?_⟩
        · unfold visitVisible
          split
          · exact List.nodup_singleton _
          · exact List.nodup_nil
        · rintro d hd _ hd' rfl
          exact hlaterBelow d hd' (hdeeperBelow d hd).1
        · rintro d hd _ hd' rfl
          obtain ⟨rfl, -⟩ := mem_visitVisible.1 hd
          rcases List.mem_append.1 hd' with hd' | hd'
          · exact (hdeeperBelow d hd').2 rfl
          · exact hlaterBelow d hd' .refl
    exact hlist (children p) (h.nodup p) (fun _ hc => hc) nodes hwalk

/-! ## A new node -/

variable {children' : α → List κ} {target : α}

/-- Walks that do not come past `target` do not depend on its children. -/
theorem walk_congr (h : Linked id children parent) (hchildren : ∀ q ≠ target, children' q = children q)
    (hq : ¬ Below parent target q) : walk id visit children' n q = walk id visit children n q := by
  induction n generalizing q with
  | zero => rfl
  | succ n ih =>
    have hne : q ≠ target := by
      rintro rfl
      exact hq .refl
    rw [walk, walk, hchildren q hne]
    exact walkAll_congr fun c hc => ih fun hbelow => hq (hbelow.tail (h.parent_eq hc))

/-- A visible node that is put among the children of `target` comes with what is below it between
what the walks of the children before and after it show. -/
theorem walk_insert {new : κ} {pre post hung : List κ} {lt lq : List α} {m : ℕ}
    (h : Linked id children parent) (hlt : Line parent target lt)
    (hchildren : ∀ q ≠ target, children' q = children q)
    (hnew : children' target = pre ++ new :: post) (hold : children target = pre ++ post)
    (hvisible : visible new = true)
    (hhung : walk id (visitVisible visible) children m (id new) = some hung)
    (hfresh : ¬ Below parent target (id new)) (hlq : Line parent q lq)
    (hq : Below parent target q)
    (hwalk : walk id (visitVisible visible) children n q = some nodes) :
    ∃ before first second after k,
      walkAll id (visitVisible visible) (walk id (visitVisible visible) children k) pre = some first ∧
      walkAll id (visitVisible visible) (walk id (visitVisible visible) children k) post = some second ∧
      nodes = before ++ (first ++ (second ++ after)) ∧
      walk id (visitVisible visible) children' (n + m) q =
        some (before ++ (first ++ new :: (hung ++ (second ++ after)))) ∧
      (q = target ∧ before = [] ∨
        ∃ t r start, t ∈ children r ∧ id t = target ∧ before = start ++ visitVisible visible t) := by
  induction n generalizing q lq nodes with
  | zero => cases hwalk
  | succ n ih =>
    -- away from the target nothing changes, but that there is depth to spare
    have hsame : ∀ {x nodes k}, ¬ Below parent target x → k ≤ n + m →
        walk id (visitVisible visible) children k x = some nodes →
        walk id (visitVisible visible) children' (n + m) x = some nodes := by
      intro x nodes k hx hk hwalk
      rw [walk_congr h hchildren hx]
      exact walk_mono hwalk hk
    rw [Nat.succ_add]
    by_cases hqt : q = target
    · subst hqt
      rw [walk, hold] at hwalk
      obtain ⟨first, second, hfirst, hsecond, rfl⟩ := walkAll_append_eq_some.1 hwalk
      have hkeep : ∀ c ∈ pre ++ post, ∀ out,
          walk id (visitVisible visible) children n (id c) = some out →
          walk id (visitVisible visible) children' (n + m) (id c) = some out := by
        intro c hc out hout
        exact hsame (h.not_below_child hlt (hold ▸ hc)) (Nat.le_add_right n m) hout
      refine ⟨[], first, second, [], n, hfirst, hsecond, by simp, ?_, .inl ⟨rfl, rfl⟩⟩
      rw [walk, hnew]
      have hpre := walkAll_mono (fun c hc => hkeep c (List.mem_append_left _ hc)) hfirst
      have hpost := walkAll_mono (fun c hc => hkeep c (List.mem_append_right _ hc)) hsecond
      refine walkAll_append_eq_some.2 ⟨first, _, hpre, walkAll_cons_eq_some.2
        ⟨hung, second, hsame hfresh (Nat.le_add_left m n) hhung, hpost, rfl⟩, ?_⟩
      simp [visitVisible, hvisible]
    · -- the target is below one of the children, and the walks below the others stay
      obtain heq | ⟨y, hbelow, hy⟩ := Relation.ReflTransGen.cases_tail hq
      · exact absurd heq hqt
      obtain ⟨c, hc, rfl⟩ := h.parent_eq_some.1 hy
      obtain ⟨left, right, hsplit⟩ := List.append_of_mem hc
      have hother : ∀ d ∈ left ++ right, ¬ Below parent target (id d) := by
        intro d hd hbelow'
        have hd' : d ∈ children q := by
          rw [hsplit]
          simp only [List.mem_append, List.mem_cons] at hd ⊢
          tauto
        obtain rfl := h.child_unique hlq hc hd' hbelow hbelow'
        have hnodup := h.nodup q
        rw [hsplit, List.nodup_middle, List.nodup_cons] at hnodup
        exact hnodup.1 hd
      rw [walk, hsplit] at hwalk
      obtain ⟨outer, rest, hleft, hrest, rfl⟩ := walkAll_append_eq_some.1 hwalk
      obtain ⟨deeper, later, hdeeper, hright, rfl⟩ := walkAll_cons_eq_some.1 hrest
      obtain ⟨before, first, second, after, k, hfirst, hsecond, rfl, hdeeper', hbefore⟩ :=
        ih (.step hy hlq) hbelow hdeeper
      have hleft' := walkAll_mono (fun d hd out =>
        hsame (hother d (List.mem_append_left _ hd)) (Nat.le_add_right n m)) hleft
      have hright' := walkAll_mono (fun d hd out =>
        hsame (hother d (List.mem_append_right _ hd)) (Nat.le_add_right n m)) hright
      refine ⟨outer ++ (visitVisible visible c ++ before), first, second, after ++ later, k,
        hfirst, hsecond, by simp, ?_, .inr ?_⟩
      · rw [walk, hchildren q hqt, hsplit]
        refine walkAll_append_eq_some.2 ⟨outer, _, hleft', walkAll_cons_eq_some.2
          ⟨_, later, hdeeper', hright', rfl⟩, ?_⟩
        simp
      · obtain ⟨hct, rfl⟩ | ⟨t, r, start, htr, ht, rfl⟩ := hbefore
        · exact ⟨c, q, outer, hc, hct, by simp⟩
        · exact ⟨t, r, outer ++ (visitVisible visible c ++ start), htr, ht, by simp⟩

end forest

end Preorder
