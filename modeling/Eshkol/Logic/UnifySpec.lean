import Eshkol.Logic.Unify
import Mathlib.Data.Set.Finite.Lattice

/-!
# Well-formed substitutions

A substitution is well formed when each variable was bound once, to a walked term that it does not
occur in. Then every chain of variables ends, and following a variable keeps what a solution makes of
a term.
-/

namespace Logic

open FirstOrder FirstOrder.Tree

variable {α β φ : Type} {bs : List (ℕ × Term α φ)}

/-- The variables that are bound. -/
def domain (bs : List (ℕ × Term α φ)) : List ℕ := bs.map Prod.fst

lemma domain_snoc (bs : List (ℕ × Term α φ)) (x : ℕ) (t : Term α φ) :
    domain (bs ++ [(x, t)]) = domain bs ++ [x] := by simp [domain]

lemma substLookup_eq_none {x : ℕ} (h : x ∉ domain bs) : substLookup bs x = none := by
  rw [substLookup, List.lookup_eq_none_iff]
  intro b hb
  simp only [bne_iff_ne, ne_eq]
  rintro rfl
  exact h (List.mem_map_of_mem hb)

lemma substLookup_snoc (bs : List (ℕ × Term α φ)) (x y : ℕ) (t : Term α φ) :
    substLookup (bs ++ [(x, t)]) y = (substLookup bs y).or (if y = x then some t else none) := by
  rw [substLookup, List.lookup_append, substLookup]
  by_cases hyx : y = x
  · simp [hyx]
  · have hne : (y == x) = false := by simpa using hyx
    rw [List.lookup_cons, hne, List.lookup_nil, if_neg hyx]

/-- A walked term: no variable, or one that is not bound. -/
def Walked (bs : List (ℕ × Term α φ)) (w : Term α φ) : Prop := ∀ x, w = .var x → x ∉ domain bs

lemma walkFrom_of_walked {w : Term α φ} (h : Walked bs w) (n : ℕ) :
    walkFrom bs (n + 1) w = some w := by
  cases w with
  | var x => rw [walkFrom, substLookup_eq_none (h x rfl)]
  | atom a => rfl
  | fact p f args => rfl

/-- With one binding more a chain is at most one step longer. -/
lemma walkFrom_snoc {x : ℕ} {t : Term α φ} {n : ℕ} {u w : Term α φ}
    (h : walkFrom bs n u = some w) (ht : Walked (bs ++ [(x, t)]) t) :
    ∃ w', walkFrom (bs ++ [(x, t)]) (n + 1) u = some w' ∧
      (w' = w ∧ w ≠ .var x ∨ w = .var x ∧ w' = t) := by
  induction n generalizing u with
  | zero => cases h
  | succ n ih =>
    cases u with
    | var y =>
      rw [walkFrom] at h
      rw [walkFrom, substLookup_snoc]
      cases hlook : substLookup bs y with
      | some v =>
        rw [hlook] at h
        exact ih h
      | none =>
        rw [hlook] at h
        cases h
        by_cases hyx : y = x
        · subst hyx
          exact ⟨t, by simpa using walkFrom_of_walked ht n, .inr ⟨rfl, rfl⟩⟩
        · exact ⟨.var y, by simp [hyx], .inl ⟨rfl, by simpa using hyx⟩⟩
    | atom a =>
      cases h
      exact ⟨_, rfl, .inl ⟨rfl, by simp⟩⟩
    | fact p f args =>
      cases h
      exact ⟨_, rfl, .inl ⟨rfl, by simp⟩⟩

/-- The loop over the arguments finds one that answers `true`, if the answers are right. -/
lemma anyArg_spec {check : Term α φ → Option Bool} {P Q : Term α φ → Prop}
    {args : List (Term α φ)} (h : ∀ a ∈ args, ∃ found, check a = some found ∧
      (found = true → P a) ∧ (found = false → Q a → ¬ P a)) :
    ∃ found, anyArg check args = some found ∧ (found = true → ∃ a ∈ args, P a) ∧
      (found = false → (∀ a ∈ args, Q a) → ∀ a ∈ args, ¬ P a) := by
  induction args with
  | nil => exact ⟨false, rfl, by simp, by simp⟩
  | cons a args ih =>
    obtain ⟨found, hcheck, htrue, hfalse⟩ := h a List.mem_cons_self
    rw [anyArg, hcheck, Option.bind_some]
    cases found with
    | true => exact ⟨true, rfl, fun _ => ⟨a, List.mem_cons_self, htrue rfl⟩, by simp⟩
    | false =>
      obtain ⟨found, hany, htrue', hfalse'⟩ := ih fun b hb => h b (List.mem_cons_of_mem _ hb)
      refine ⟨found, hany, fun hf => ?_, fun hf hQ => ?_⟩
      · obtain ⟨b, hb, hP⟩ := htrue' hf
        exact ⟨b, List.mem_cons_of_mem _ hb, hP⟩
      · rintro b (_ | ⟨_, hb⟩)
        · exact hfalse rfl (hQ a List.mem_cons_self)
        · exact hfalse' hf (fun c hc => hQ c (List.mem_cons_of_mem _ hc)) b hb

/-! ## The invariant -/

variable [BEq α] [Atoms α β]

/-- What a fact's address leads to. -/
abbrev Memory (β φ : Type) := ℕ → φ × List (Tree ℕ β φ)

/-- Every fact of the term lies in the memory. -/
inductive Term.In (mem : Memory β φ) : Term α φ → Prop where
  | var (x : ℕ) : Term.In mem (.var x)
  | atom (a : α) : Term.In mem (.atom a)
  | fact {p : ℕ} {f : φ} {args : List (Term α φ)} (hmem : mem p = (f, args.map Term.tree))
    (hargs : ∀ a ∈ args, a.In mem) : Term.In mem (.fact p f args)

inductive WellFormed (mem : Memory β φ) : List (ℕ × Term α φ) → Prop where
  | nil : WellFormed mem []
  | snoc {bs : List (ℕ × Term α φ)} {x : ℕ} {t : Term α φ} (h : WellFormed mem bs)
    (hnew : x ∉ domain bs) (hwalked : ∀ y, t = .var y → y ∉ domain bs)
    (hoccurs : ¬ Occurs x (resolve bs t)) (ht : t.In mem) : WellFormed mem (bs ++ [(x, t)])

variable {mem : Memory β φ}

lemma map_fst_equations (bs : List (ℕ × Term α φ)) : (equations bs).map Prod.fst = domain bs := by
  simp [equations, domain, Function.comp_def]

/-- The bindings are a triangular system. -/
lemma WellFormed.triangular (h : WellFormed mem bs) : Triangular (equations bs) := by
  induction h with
  | nil => exact .nil
  | @snoc bs x t _ hnew _ hoccurs _ ih =>
    rw [equations, List.map_append]
    exact .snoc ih (by rw [← equations, map_fst_equations]; exact hnew) hoccurs

/-! ## Walking -/

/-- Walking keeps what every solution makes of the term. -/
structure WalksTo (mem : Memory β φ) (bs : List (ℕ × Term α φ)) (t w : Term α φ) : Prop where
  walk_eq : walk (some bs) t = some w
  walked : Walked bs w
  same : ∀ θ, Satisfies θ (equations bs) → w.tree.bind θ = t.tree.bind θ
  inMem : t.In mem → w.In mem
  source : w = t ∨ ∃ x, (x, w) ∈ bs

lemma equations_snoc (bs : List (ℕ × Term α φ)) (x : ℕ) (t : Term α φ) :
    equations (bs ++ [(x, t)]) = equations bs ++ [(x, t.tree)] := by simp [equations]

/-- Every chain ends. -/
lemma WellFormed.walksTo (h : WellFormed mem bs) (t : Term α φ) : ∃ w, WalksTo mem bs t w := by
  induction h with
  | nil =>
    refine ⟨t, walkFrom_of_walked (fun x _ => by simp [domain]) 0, fun x _ => by simp [domain],
      fun _ _ => rfl, id, .inl rfl⟩
  | @snoc bs x u h hnew hwalked hoccurs hu ih =>
    obtain ⟨w, hwalk, hw, hsame, hin, hsource⟩ := ih
    have hself : Walked (bs ++ [(x, u)]) u := by
      intro y hy
      rw [domain_snoc, List.mem_append, List.mem_singleton, not_or]
      refine ⟨hwalked y hy, ?_⟩
      rintro rfl
      refine hoccurs ?_
      rw [hy, resolve, tree_var, bind_var, solve_of_unbound (by rw [map_fst_equations]; exact hnew)]
      exact .var
    have hold : ∀ θ, Satisfies θ (equations (bs ++ [(x, u)])) → Satisfies θ (equations bs) := by
      intro θ hθ y v hv
      exact hθ y v (by rw [equations_snoc]; exact List.mem_append_left _ hv)
    obtain ⟨w', hwalk', ⟨rfl, hne⟩ | ⟨rfl, rfl⟩⟩ := walkFrom_snoc hwalk hself
    · refine ⟨w', ?_, fun y hy => ?_, fun θ hθ => hsame θ (hold θ hθ), hin, ?_⟩
      · rw [walk, List.length_append]
        exact hwalk'
      · rw [domain_snoc, List.mem_append, List.mem_singleton, not_or]
        refine ⟨hw y hy, ?_⟩
        rintro rfl
        exact hne hy
      · exact hsource.imp id fun ⟨y, hy⟩ => ⟨y, List.mem_append_left _ hy⟩
    · refine ⟨w', ?_, hself, fun θ hθ => ?_, fun _ => hu, .inr ⟨x, by simp⟩⟩
      · rw [walk, List.length_append]
        exact hwalk'
      · rw [← hsame θ (hold θ hθ), tree_var, bind_var]
        exact (hθ x w'.tree (by rw [equations_snoc]; simp)).symm

/-! ## The occurs check -/

lemma resolve_fact (bs : List (ℕ × Term α φ)) (p : ℕ) (f : φ) (args : List (Term α φ)) :
    resolve bs (.fact p f args) = .node f (args.map (resolve bs)) := by
  simp [resolve, Function.comp_def]

lemma WalksTo.resolve_eq (h : WellFormed mem bs) {t w : Term α φ} (hw : WalksTo mem bs t w) :
    resolve bs w = resolve bs t := hw.same _ h.triangular.satisfies

lemma WalksTo.resolve_var {t : Term α φ} {x : ℕ} (hw : WalksTo mem bs t (.var x)) :
    resolve bs (.var x) = .var x := by
  rw [resolve, tree_var, bind_var, solve_of_unbound]
  rw [map_fst_equations]
  exact hw.walked x rfl

/-- The check answers; `true` is right, and `false` is right when the limit is below the term. -/
lemma WellFormed.occursImpl_spec (h : WellFormed mem bs) (x level : ℕ) (t : Term α φ) :
    ∃ found, occursImpl (some bs) x level t = some found ∧
      (found = true → Occurs x (resolve bs t)) ∧
      (found = false → (resolve bs t).depth < level → ¬ Occurs x (resolve bs t)) := by
  induction level generalizing t with
  | zero => exact ⟨false, rfl, by simp, fun _ hlt => absurd hlt (Nat.not_lt_zero _)⟩
  | succ level ih =>
    obtain ⟨w, hw⟩ := h.walksTo t
    rw [occursImpl, hw.walk_eq, Option.bind_some, ← hw.resolve_eq h]
    cases w with
    | var y =>
      rw [hw.resolve_var]
      refine ⟨y == x, rfl, fun hyx => ?_, fun hyx _ => ?_⟩
      · rw [occurs_var]
        exact (beq_iff_eq.1 hyx).symm
      · rw [occurs_var]
        rintro rfl
        simp at hyx
    | atom a =>
      refine ⟨false, rfl, by simp, fun _ _ => ?_⟩
      rw [resolve, tree_atom, bind_atom]
      exact occurs_atom
    | fact p f args =>
      have hargs : ∀ a ∈ args, ∃ found, occursImpl (some bs) x level a = some found ∧
          (found = true → Occurs x (resolve bs a)) ∧
          (found = false → (resolve bs a).depth < level → ¬ Occurs x (resolve bs a)) :=
        fun a _ => ih a
      obtain ⟨found, hany, htrue, hfalse⟩ := anyArg_spec hargs
      refine ⟨found, hany, fun hf => ?_, fun hf hdepth => ?_⟩
      · obtain ⟨a, ha, hocc⟩ := htrue hf
        rw [resolve_fact]
        exact .node (List.mem_map_of_mem ha) hocc
      · rw [resolve_fact, occurs_node]
        rintro ⟨u, hu, hocc⟩
        obtain ⟨a, ha, rfl⟩ := List.mem_map.1 hu
        refine hfalse hf (fun b hb => ?_) a ha hocc
        have := depth_lt_of_mem (f := f) (List.mem_map_of_mem (f := resolve bs) hb)
        rw [resolve_fact] at hdepth
        omega

/-- The occurs check lets no circular binding pass. -/
def BindsSoundly (bs : List (ℕ × Term α φ)) (x : ℕ) (w : Term α φ) : Prop :=
  occurs (some bs) x w = some false → ¬ Occurs x (resolve bs w)

/-- It lets none pass into a term that is nested within its limit. -/
lemma WellFormed.bindsSoundly (h : WellFormed mem bs) (x : ℕ) {w : Term α φ}
    (hdepth : (resolve bs w).depth ≤ occursCheckMaxDepth) : BindsSoundly bs x w := by
  intro hoccurs
  obtain ⟨found, hfound, -, hnot⟩ := h.occursImpl_spec x (occursCheckMaxDepth + 1) w
  obtain rfl : found = false := Option.some_inj.1 (hfound.symm.trans hoccurs)
  exact hnot rfl (Nat.lt_succ_of_le hdepth)

end Logic
