import Mathlib.Data.List.Basic
import Mathlib.Data.List.Induction
import Mathlib.Logic.Relation

/-!
# First-order terms and triangular substitutions

Terms over variables, atoms and heads with arguments; substitution, occurrence and unifiers. A list
of bindings, each variable bound once and to a term it does not occur in under the bindings before
it, is triangular: it has an idempotent solution that every solution factors through, and the graph
of its bindings has no cycle.
-/

namespace FirstOrder

variable {ν α φ : Type}

inductive Tree (ν α φ : Type) where
  | var (x : ν)
  | atom (a : α)
  | node (f : φ) (args : List (Tree ν α φ))

namespace Tree

/-- Induction with a hypothesis for every argument. -/
@[elab_as_elim]
theorem induct {P : Tree ν α φ → Prop} (var : ∀ x, P (.var x)) (atom : ∀ a, P (.atom a))
    (node : ∀ f args, (∀ t ∈ args, P t) → P (.node f args)) : ∀ t, P t
  | .var x => var x
  | .atom a => atom a
  | .node f args => node f args fun t _ => induct var atom node t

mutual

/-- Simultaneous substitution. -/
def bind (σ : ν → Tree ν α φ) : Tree ν α φ → Tree ν α φ
  | .var x => σ x
  | .atom a => .atom a
  | .node f args => .node f (bindAll σ args)

def bindAll (σ : ν → Tree ν α φ) : List (Tree ν α φ) → List (Tree ν α φ)
  | [] => []
  | t :: ts => bind σ t :: bindAll σ ts

end

lemma bindAll_eq_map (σ : ν → Tree ν α φ) (ts : List (Tree ν α φ)) :
    bindAll σ ts = ts.map (bind σ) := by
  induction ts with
  | nil => rfl
  | cons t ts ih => rw [bindAll, ih, List.map_cons]

variable {σ τ : ν → Tree ν α φ}

@[simp] lemma bind_var (x : ν) : (var x : Tree ν α φ).bind σ = σ x := by rw [bind]

@[simp] lemma bind_atom (a : α) : (atom a : Tree ν α φ).bind σ = .atom a := by rw [bind]

@[simp] lemma bind_node (f : φ) (args : List (Tree ν α φ)) :
    (node f args).bind σ = .node f (args.map (bind σ)) := by rw [bind, bindAll_eq_map]

lemma bind_bind (t : Tree ν α φ) : (t.bind σ).bind τ = t.bind fun x => (σ x).bind τ := by
  induction t using induct with
  | var x => simp
  | atom a => simp
  | node f args ih =>
    simp only [bind_node, List.map_map, node.injEq, true_and]
    exact List.map_congr_left ih

/-- The variable occurs in the term. -/
inductive Occurs (x : ν) : Tree ν α φ → Prop where
  | var : Occurs x (.var x)
  | node {f : φ} {args : List (Tree ν α φ)} {t : Tree ν α φ} (ht : t ∈ args) (h : Occurs x t) :
    Occurs x (.node f args)

@[simp] lemma occurs_var {x y : ν} : Occurs x (var y : Tree ν α φ) ↔ x = y := by
  constructor
  · rintro ⟨⟩
    rfl
  · rintro rfl
    exact .var

@[simp] lemma occurs_atom {x : ν} {a : α} : ¬ Occurs x (atom a : Tree ν α φ) := by
  rintro ⟨⟩

@[simp] lemma occurs_node {x : ν} {f : φ} {args : List (Tree ν α φ)} :
    Occurs x (node f args) ↔ ∃ t ∈ args, Occurs x t := by
  constructor
  · rintro (_ | ⟨ht, h⟩)
    exact ⟨_, ht, h⟩
  · rintro ⟨t, ht, h⟩
    exact .node ht h

lemma bind_congr {t : Tree ν α φ} (h : ∀ x, Occurs x t → σ x = τ x) : t.bind σ = t.bind τ := by
  induction t using induct with
  | var x => simpa using h x .var
  | atom a => simp
  | node f args ih =>
    simp only [bind_node, node.injEq, true_and]
    exact List.map_congr_left fun t ht => ih t ht fun x hx => h x (.node ht hx)

lemma bind_self {t : Tree ν α φ} (h : ∀ x, Occurs x t → σ x = .var x) : t.bind σ = t := by
  induction t using induct with
  | var x => simpa using h x .var
  | atom a => simp
  | node f args ih =>
    simp only [bind_node, node.injEq, true_and]
    rw [List.map_congr_left fun t ht => ih t ht fun x hx => h x (.node ht hx), List.map_id']

lemma occurs_bind {y : ν} {t : Tree ν α φ} :
    Occurs y (t.bind σ) ↔ ∃ x, Occurs x t ∧ Occurs y (σ x) := by
  induction t using induct with
  | var x => simp
  | atom a => simp
  | node f args ih =>
    simp only [bind_node, occurs_node, List.mem_map, exists_exists_and_eq_and]
    constructor
    · rintro ⟨t, ht, h⟩
      obtain ⟨x, hx, hy⟩ := (ih t ht).1 h
      exact ⟨x, ⟨t, ht, hx⟩, hy⟩
    · rintro ⟨x, ⟨t, ht, hx⟩, hy⟩
      exact ⟨t, ht, (ih t ht).2 ⟨x, hx, hy⟩⟩

/-- What a variable is replaced by is smaller than a term the variable occurs in. -/
theorem sizeOf_lt_of_occurs (σ : ν → Tree ν α φ) {x : ν} {t : Tree ν α φ} (h : Occurs x t)
    (hne : t ≠ .var x) : sizeOf (σ x) < sizeOf (t.bind σ) := by
  have hle : ∀ t : Tree ν α φ, Occurs x t → sizeOf (σ x) ≤ sizeOf (t.bind σ) := by
    intro t ht
    induction ht with
    | var => simp
    | node hmem _ ih =>
      have := List.sizeOf_lt_of_mem (List.mem_map_of_mem (f := bind σ) hmem)
      simp only [bind_node, node.sizeOf_spec]
      omega
  cases h with
  | var => exact absurd rfl hne
  | node hmem h =>
    have hlt := List.sizeOf_lt_of_mem (List.mem_map_of_mem (f := bind σ) hmem)
    have := hle _ h
    simp only [bind_node, node.sizeOf_spec]
    omega

mutual

/-- The nesting of heads. -/
def depth : Tree ν α φ → ℕ
  | .var _ => 0
  | .atom _ => 0
  | .node _ args => depthAll args + 1

def depthAll : List (Tree ν α φ) → ℕ
  | [] => 0
  | t :: ts => max (depth t) (depthAll ts)

end

lemma depth_lt_of_mem {f : φ} {args : List (Tree ν α φ)} {t : Tree ν α φ} (h : t ∈ args) :
    t.depth < (node f args).depth := by
  have hle : t.depth ≤ depthAll args := by
    induction args with
    | nil => cases h
    | cons a args ih =>
      rw [depthAll]
      obtain rfl | h := List.mem_cons.1 h
      · exact Nat.le_max_left _ _
      · exact Nat.le_trans (ih h) (Nat.le_max_right _ _)
  rw [depth]
  omega

/-! ### Renaming the heads -/

section mapHead
variable {ψ : Type} {name : φ → ψ}

mutual

/-- The same term with its heads renamed. -/
def mapHead (name : φ → ψ) : Tree ν α φ → Tree ν α ψ
  | .var x => .var x
  | .atom a => .atom a
  | .node f args => .node (name f) (mapHeadAll name args)

def mapHeadAll (name : φ → ψ) : List (Tree ν α φ) → List (Tree ν α ψ)
  | [] => []
  | t :: ts => mapHead name t :: mapHeadAll name ts

end

lemma mapHeadAll_eq_map (ts : List (Tree ν α φ)) : mapHeadAll name ts = ts.map (mapHead name) := by
  induction ts with
  | nil => rfl
  | cons t ts ih => rw [mapHeadAll, ih, List.map_cons]

@[simp] lemma mapHead_var (x : ν) : (var x : Tree ν α φ).mapHead name = .var x := by rw [mapHead]

@[simp] lemma mapHead_atom (a : α) : (atom a : Tree ν α φ).mapHead name = .atom a := by rw [mapHead]

@[simp] lemma mapHead_node (f : φ) (args : List (Tree ν α φ)) :
    (node f args).mapHead name = .node (name f) (args.map (mapHead name)) := by
  rw [mapHead, mapHeadAll_eq_map]

/-- Renaming and substitution commute. -/
theorem mapHead_bind (t : Tree ν α φ) :
    (t.bind σ).mapHead name = (t.mapHead name).bind fun x => (σ x).mapHead name := by
  induction t using induct with
  | var x => simp
  | atom a => simp
  | node f args ih =>
    simp only [bind_node, mapHead_node, List.map_map, node.injEq, true_and]
    exact List.map_congr_left ih

/-- Renaming keeps the variables. -/
@[simp] theorem occurs_mapHead {x : ν} {t : Tree ν α φ} : Occurs x (t.mapHead name) ↔ Occurs x t := by
  induction t using induct with
  | var y => simp
  | atom a => simp
  | node f args ih =>
    simp only [mapHead_node, occurs_node, List.mem_map, exists_exists_and_eq_and]
    exact exists_congr fun t => and_congr_right fun ht => ih t ht

lemma mapHead_injective (hname : Function.Injective name) :
    Function.Injective (mapHead name : Tree ν α φ → Tree ν α ψ) := by
  intro t
  induction t using induct with
  | var x =>
    intro u h
    cases u <;> simp_all
  | atom a =>
    intro u h
    cases u <;> simp_all
  | node f args ih =>
    intro u h
    cases u with
    | var y => simp at h
    | atom b => simp at h
    | node g args' =>
      simp only [mapHead_node, node.injEq] at h
      refine congrArg₂ node (hname h.1) ?_
      have hargs := h.2
      clear h
      induction args generalizing args' with
      | nil => simpa using hargs.symm
      | cons a args iha =>
        cases args' with
        | nil => simp at hargs
        | cons a' args' =>
          simp only [List.map_cons, List.cons.injEq] at hargs
          rw [ih a List.mem_cons_self hargs.1,
            iha (fun t ht => ih t (List.mem_cons_of_mem _ ht)) args' hargs.2]

end mapHead

end Tree

/-! ## Bindings -/

open Tree

variable {bs : List (ν × Tree ν α φ)} {θ : ν → Tree ν α φ}

/-- `y` occurs in what `x` is bound to. -/
def Depends (bs : List (ν × Tree ν α φ)) (x y : ν) : Prop := ∃ t, (x, t) ∈ bs ∧ Occurs y t

section snoc
variable {x : ν} {t : Tree ν α φ} {a b : ν}

/-- A path either keeps to the old bindings, or gets to the new variable along them. -/
theorem reaches_snoc (h : Relation.ReflTransGen (Depends (bs ++ [(x, t)])) a b) :
    Relation.ReflTransGen (Depends bs) a b ∨ Relation.ReflTransGen (Depends bs) a x := by
  induction h using Relation.ReflTransGen.head_induction_on with
  | refl => exact .inl .refl
  | head hstep _ ih =>
    obtain ⟨u, hu, hoccurs⟩ := hstep
    obtain hu | hu := List.mem_append.1 hu
    · exact ih.imp (.head ⟨u, hu, hoccurs⟩) (.head ⟨u, hu, hoccurs⟩)
    · cases List.mem_singleton.1 hu
      exact .inr .refl

lemma transGen_snoc (h : Relation.TransGen (Depends (bs ++ [(x, t)])) a b) :
    Relation.TransGen (Depends bs) a b ∨
      (Relation.ReflTransGen (Depends (bs ++ [(x, t)])) a x ∧
        Relation.TransGen (Depends (bs ++ [(x, t)])) x b) := by
  induction h using Relation.TransGen.head_induction_on with
  | single hstep =>
    obtain ⟨u, hu, hoccurs⟩ := hstep
    obtain hold | hnew := List.mem_append.1 hu
    · exact .inl (.single ⟨u, hold, hoccurs⟩)
    · cases List.mem_singleton.1 hnew
      exact .inr ⟨.refl, .single ⟨_, hu, hoccurs⟩⟩
  | head hstep hrest ih =>
    obtain ⟨u, hu, hoccurs⟩ := hstep
    obtain hold | hnew := List.mem_append.1 hu
    · obtain ih | ⟨hax, hxb⟩ := ih
      · exact .inl (.head ⟨u, hold, hoccurs⟩ ih)
      · exact .inr ⟨.head ⟨u, hu, hoccurs⟩ hax, hxb⟩
    · cases List.mem_singleton.1 hnew
      exact .inr ⟨.refl, .head ⟨_, hu, hoccurs⟩ hrest⟩

end snoc

/-- The substitution solves every binding of the list. -/
def Satisfies (θ : ν → Tree ν α φ) (bs : List (ν × Tree ν α φ)) : Prop :=
  ∀ x t, (x, t) ∈ bs → θ x = t.bind θ

variable [DecidableEq ν]

/-- One more binding after `σ`. -/
@[grind =]
def solveStep (σ : ν → Tree ν α φ) (b : ν × Tree ν α φ) : ν → Tree ν α φ := fun y =>
  (σ y).bind (Function.update .var b.1 (b.2.bind σ))

/-- The bindings of the list applied one after the other. -/
def solve (bs : List (ν × Tree ν α φ)) : ν → Tree ν α φ := bs.foldl solveStep .var

/-- Each variable is bound once, and to a term that it does not occur in under the bindings before
it. -/
inductive Triangular : List (ν × Tree ν α φ) → Prop where
  | nil : Triangular []
  | snoc {bs : List (ν × Tree ν α φ)} {x : ν} {t : Tree ν α φ} (h : Triangular bs)
    (hnew : x ∉ bs.map Prod.fst) (hoccurs : ¬ Occurs x (t.bind (solve bs))) :
    Triangular (bs ++ [(x, t)])

lemma solve_nil : solve ([] : List (ν × Tree ν α φ)) = .var := rfl

lemma solve_snoc (bs : List (ν × Tree ν α φ)) (b : ν × Tree ν α φ) :
    solve (bs ++ [b]) = solveStep (solve bs) b := by
  rw [solve, List.foldl_append]
  rfl

lemma solve_of_unbound {x : ν} (h : x ∉ bs.map Prod.fst) : solve bs x = .var x := by
  induction bs using List.reverseRecOn with
  | nil => rfl
  | append_singleton bs b ih =>
    simp only [List.map_append, List.mem_append, List.map_cons, List.map_nil, List.mem_singleton,
      not_or] at h
    rw [solve_snoc, solveStep, ih h.1, bind_var, Function.update_of_ne h.2]

/-- A bound variable is solved away. -/
theorem Triangular.not_occurs_solve (h : Triangular bs) {x : ν} (hx : x ∈ bs.map Prod.fst) (y : ν) :
    ¬ Occurs x (solve bs y) := by
  induction h generalizing y with
  | nil => cases hx
  | @snoc bs z t h hnew hoccurs ih =>
    rw [solve_snoc, solveStep, occurs_bind]
    rintro ⟨w, hw, hxw⟩
    by_cases hwz : w = z
    · subst hwz
      rw [Function.update_self] at hxw
      simp only [List.map_append, List.mem_append, List.map_cons, List.map_nil,
        List.mem_singleton] at hx
      obtain hx | rfl := hx
      · obtain ⟨u, -, hu⟩ := occurs_bind.1 hxw
        exact ih hx u hu
      · exact hoccurs hxw
    · rw [Function.update_of_ne hwz, occurs_var] at hxw
      subst hxw
      simp only [List.map_append, List.mem_append, List.map_cons, List.map_nil,
        List.mem_singleton] at hx
      obtain hx | rfl := hx
      · exact ih hx y hw
      · exact hwz rfl

/-- A substitution that solves the bindings factors through their solution. -/
theorem Satisfies.factors (h : Satisfies θ bs) (y : ν) : (solve bs y).bind θ = θ y := by
  induction bs using List.reverseRecOn generalizing y with
  | nil => rfl
  | append_singleton bs b ih =>
    have hbs : Satisfies θ bs := fun x t hx => h x t (List.mem_append_left _ hx)
    have hb : θ b.1 = b.2.bind θ := h b.1 b.2 (by simp)
    rw [solve_snoc, solveStep, bind_bind]
    refine Eq.trans (bind_congr fun x _ => ?_) (ih hbs y)
    by_cases hx : x = b.1
    · subst hx
      rw [Function.update_self, bind_bind, hb]
      exact bind_congr fun z _ => ih hbs z
    · rw [Function.update_of_ne hx, bind_var]

lemma Satisfies.factors_bind (h : Satisfies θ bs) (t : Tree ν α φ) :
    (t.bind (solve bs)).bind θ = t.bind θ := by
  rw [bind_bind]
  exact bind_congr fun x _ => h.factors x

/-- The solution solves the bindings. -/
theorem Triangular.satisfies (h : Triangular bs) : Satisfies (solve bs) bs := by
  induction h with
  | nil =>
    intro x t hx
    cases hx
  | @snoc bs z u h hnew hoccurs ih =>
    have hself : Satisfies (solve (bs ++ [(z, u)])) bs := by
      intro x t hx
      have hxt : solve bs x = t.bind (solve bs) := ih x t hx
      rw [solve_snoc]
      show (solve bs x).bind _ = _
      rw [hxt, bind_bind]
      rfl
    have hu : u.bind (solve (bs ++ [(z, u)])) = u.bind (solve bs) := by
      rw [solve_snoc]
      show u.bind (fun y => (solve bs y).bind _) = _
      rw [← bind_bind]
      refine bind_self fun y hy => Function.update_of_ne ?_ _ _
      rintro rfl
      exact hoccurs hy
    intro x t hx
    obtain hx | hx := List.mem_append.1 hx
    · exact hself x t hx
    · cases List.mem_singleton.1 hx
      rw [hu, solve_snoc, solveStep, solve_of_unbound hnew, bind_var, Function.update_self]

/-- Renaming the heads of every binding renames those of the solution. -/
theorem solve_mapHead {ψ : Type} (name : φ → ψ) (bs : List (ν × Tree ν α φ)) (x : ν) :
    solve (bs.map fun b => (b.1, b.2.mapHead name)) x = (solve bs x).mapHead name := by
  induction bs using List.reverseRecOn generalizing x with
  | nil => simp [solve_nil]
  | append_singleton bs b ih =>
    rw [List.map_append, List.map_cons, List.map_nil, solve_snoc, solve_snoc, solveStep, solveStep, ih,
      mapHead_bind]
    refine bind_congr fun y _ => ?_
    by_cases hy : y = b.1
    · subst hy
      rw [Function.update_self, Function.update_self, mapHead_bind]
      exact bind_congr fun z _ => ih z
    · rw [Function.update_of_ne hy, Function.update_of_ne hy, mapHead_var]

/-! ## Acyclicity -/

/-- What a variable leads to occurs in its solution, if it is unbound. -/
theorem Triangular.occurs_of_reaches (h : Triangular bs) {x y : ν}
    (hxy : Relation.ReflTransGen (Depends bs) x y) (hy : y ∉ bs.map Prod.fst) :
    Occurs y (solve bs x) := by
  induction hxy using Relation.ReflTransGen.head_induction_on with
  | refl => rw [solve_of_unbound hy]; exact .var
  | head hstep _ ih =>
    obtain ⟨t, ht, hoccurs⟩ := hstep
    rw [h.satisfies _ t ht, occurs_bind]
    exact ⟨_, hoccurs, ih⟩

/-- No variable depends on itself. -/
theorem Triangular.acyclic (h : Triangular bs) (a : ν) : ¬ Relation.TransGen (Depends bs) a a := by
  induction h generalizing a with
  | nil =>
    intro ha
    obtain ⟨_, ⟨_, hmem, _⟩, -⟩ := Relation.TransGen.head'_iff.1 ha
    cases hmem
  | @snoc bs x t h hnew hoccurs ih =>
    -- a cycle through the new variable would make it occur in its own term
    have hx : ¬ Relation.TransGen (Depends (bs ++ [(x, t)])) x x := by
      intro hcycle
      obtain ⟨y, ⟨u, hu, hy⟩, hrest⟩ := Relation.TransGen.head'_iff.1 hcycle
      have hut : u = t := by
        obtain hold | hlast := List.mem_append.1 hu
        · exact absurd (List.mem_map_of_mem (f := Prod.fst) hold) hnew
        · cases List.mem_singleton.1 hlast
          rfl
      subst hut
      have hyx : Relation.ReflTransGen (Depends bs) y x := (reaches_snoc hrest).elim id id
      exact hoccurs (occurs_bind.2 ⟨y, hy, h.occurs_of_reaches hyx hnew⟩)
    intro ha
    obtain hold | ⟨hax, hxa⟩ := transGen_snoc ha
    · exact ih a hold
    · exact hx (hxa.trans_left hax)

end FirstOrder
