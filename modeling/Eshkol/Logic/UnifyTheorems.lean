import Eshkol.Logic.UnifyTermination
import Eshkol.Hash.DeepEqual

/-!
# Runs of the unifier

The substitutions that calls of the unifier build from an empty one, as long as no occurs check gives
up above a circular binding. On these a call returns a most general unifier or fails rightly, except
that it takes the null pointer for failure; their bindings have no cycle, and they are resolved in
full up to the depth limit.
-/

namespace Logic

open FirstOrder FirstOrder.Tree

/-! ## Atoms without doubles -/

/-- Values of a heap that have no double in them. -/
def ExactValue (heap : UInt64 → Hash.Cell) : Type := { v : Hash.Value // v.In heap ∧ v.Exact }

instance (heap : UInt64 → Hash.Cell) : BEq (ExactValue heap) := ⟨fun a b => Hash.deepEqual a.1 b.1⟩

instance (heap : UInt64 → Hash.Cell) : Atoms (ExactValue heap) Hash.Meaning where
  meaning a := a.1.meaning
  beq_iff a b := Hash.deepEqual_iff a.2.1 b.2.1 a.2.2 b.2.2

variable {α β φ : Type}

/-! ## The null pointer -/

lemma walk_nil (t : Term α φ) : walk (some []) t = some t := by
  cases t <;> rfl

lemma walk_getD (s : Subst α φ) (t : Term α φ) : walk s t = walk (some (s.getD [])) t := by
  cases s with
  | none => exact (walk_nil t).symm
  | some bs => rfl

lemma occursImpl_null (x level : ℕ) :
    (occursImpl none x level : Term α φ → Option Bool) = occursImpl (some []) x level := by
  induction level with
  | zero => rfl
  | succ level ih =>
    funext t
    rw [occursImpl, occursImpl, walk_nil, ih]
    rfl

lemma bindVar_null (x : ℕ) (t : Term α φ) : bindVar none x t = bindVar (some []) x t := by
  rw [bindVar, bindVar, occurs, occurs, occursImpl_null]
  rfl

section null
variable [BEq α] [DecidableEq φ]

mutual

/-- The first comparison that the call makes and that is not of two facts finds equal values, or
there is none to make: nothing is bound before it. -/
def startsEqual : Term α φ → Term α φ → Bool
  | .var x, .var y => x == y
  | .atom a, .atom b => a == b
  | .fact p f as, .fact q g bs =>
    p == q || (f == g && as.length == bs.length && argsStartEqual as bs)
  | _, _ => false

def argsStartEqual : List (Term α φ) → List (Term α φ) → Bool
  | a :: _, b :: _ => startsEqual a b
  | _, _ => true

end

lemma unify_null_succ (fuel : ℕ) (t1 t2 : Term α φ) : unify (fuel + 1) none t1 t2 =
    if taggedValuesEqual t1 t2 then some none else unifyWalked (unify fuel) none t1 t2 := by
  rw [unify]
  rfl

/-- Success without a binding is returned as the null pointer. -/
lemma returns_null {t1 t2 : Term α φ} (h : startsEqual t1 t2 = true) :
    Returns none t1 t2 none := by
  have hequal : ∀ u v : Term α φ, taggedValuesEqual u v = true → Returns none u v none :=
    fun u v huv => .of_unify 1 (by rw [unify_null_succ, if_pos huv])
  induction hn : sizeOf t1 using Nat.strong_induction_on generalizing t1 t2 with
  | _ n ih =>
    cases t1 with
    | var x =>
      cases t2 with
      | var y => exact hequal _ _ (by simpa only [startsEqual, taggedValuesEqual] using h)
      | atom b => simp [startsEqual] at h
      | fact q g bs => simp [startsEqual] at h
    | atom a =>
      cases t2 with
      | var y => simp [startsEqual] at h
      | atom b => exact hequal _ _ (by simpa only [startsEqual, taggedValuesEqual] using h)
      | fact q g bs => simp [startsEqual] at h
    | fact p f as =>
      cases t2 with
      | var y => simp [startsEqual] at h
      | atom b => simp [startsEqual] at h
      | fact q g bs =>
        simp only [startsEqual, Bool.or_eq_true, Bool.and_eq_true, beq_iff_eq] at h
        obtain rfl | ⟨⟨rfl, hlen⟩, hargs⟩ := h
        · exact hequal _ _ (by simp [taggedValuesEqual])
        cases as with
        | nil =>
          refine .of_unify 1 ?_
          rw [unify_null_succ, unifyWalked_facts _ _ hlen, ite_eq_left_iff]
          exact fun _ => rfl
        | cons a as =>
          cases bs with
          | nil => cases hlen
          | cons b bs =>
            have hlt : sizeOf a < n := by
              subst hn
              simp only [Term.fact.sizeOf_spec, List.cons.sizeOf_spec]
              omega
            obtain ⟨k, hk⟩ := ih _ hlt (by simpa only [argsStartEqual] using hargs) rfl
            refine .of_unify (k + 1) ?_
            rw [unify_null_succ, unifyWalked_facts _ _ hlen, unifyArgs, hk k (Nat.le_refl k),
              ite_eq_left_iff]
            exact fun _ => rfl

/-- Otherwise the null pointer is taken for the empty substitution. -/
lemma unify_null (fuel : ℕ) {t1 t2 : Term α φ} (h : startsEqual t1 t2 = false) :
    unify fuel none t1 t2 = unify fuel (some []) t1 t2 := by
  induction fuel generalizing t1 t2 with
  | zero => rfl
  | succ fuel ih =>
    rw [unify_null_succ, unify, walk_nil, walk_nil, Option.bind_some, Option.bind_some]
    have hne : taggedValuesEqual t1 t2 = false := by
      cases t1 <;> cases t2 <;> simp_all [startsEqual, taggedValuesEqual]
    rw [hne, if_neg Bool.false_ne_true, if_neg Bool.false_ne_true]
    cases t1 with
    | var x => exact bindVar_null x t2
    | atom a =>
      cases t2 with
      | var x => exact bindVar_null x _
      | atom b => rfl
      | fact q g bs => rfl
    | fact p f as =>
      cases t2 with
      | var x => exact bindVar_null x _
      | atom b => rfl
      | fact q g bs =>
        by_cases hfg : f = g
        · subst hfg
          by_cases hlen : as.length = bs.length
          · rw [unifyWalked_facts _ _ hlen, unifyWalked_facts _ _ hlen]
            have hargs : argsStartEqual as bs = false := by
              simp only [startsEqual, Bool.or_eq_false_iff] at h
              simpa [hlen] using h.2
            cases as with
            | nil => simp [argsStartEqual] at hargs
            | cons a as =>
              cases bs with
              | nil => simp [argsStartEqual] at hargs
              | cons b bs =>
                rw [argsStartEqual] at hargs
                rw [unifyArgs, unifyArgs, ih hargs]
          · rw [unifyWalked, unifyWalked, if_neg (not_not.2 rfl), if_neg (not_not.2 rfl), if_pos hlen,
              if_pos hlen]
        · rw [unifyWalked, unifyWalked, if_pos hfg, if_pos hfg]

end null

/-! ## Resolving in full -/

lemma mapM_eq_some {γ δ : Type} {f : γ → Option δ} {g : γ → δ} {l : List γ}
    (h : ∀ a ∈ l, f a = some (g a)) : l.mapM f = some (l.map g) := by
  induction l with
  | nil => rfl
  | cons a l ih =>
    rw [List.mapM_cons, h a List.mem_cons_self, ih fun b hb => h b (List.mem_cons_of_mem _ hb)]
    rfl

variable [BEq α] [Atoms α β] {mem : Memory β φ}

/-- Above its limit `walk_deep_impl` resolves the term in full. -/
lemma WellFormed.walkDeepImpl_eq {bs : List (ℕ × Term α φ)} (h : WellFormed mem bs) {level : ℕ}
    {t : Term α φ} (hdepth : (resolve bs t).depth < level) :
    walkDeepImpl (some bs) level t = some (resolve bs t) := by
  induction level generalizing t with
  | zero => exact absurd hdepth (Nat.not_lt_zero _)
  | succ level ih =>
    obtain ⟨w, hw⟩ := h.walksTo t
    rw [walkDeepImpl, hw.walk_eq, Option.bind_some]
    rw [← hw.resolve_eq h] at hdepth ⊢
    cases w with
    | var x =>
      rw [hw.resolve_var]
      simp
    | atom a => simp [resolve]
    | fact p f args =>
      have hargs : ∀ a ∈ args, walkDeepImpl (some bs) level a = some (resolve bs a) := by
        intro a ha
        have := depth_lt_of_mem (f := f) (List.mem_map_of_mem (f := resolve bs) ha)
        rw [resolve_fact] at hdepth
        exact ih (by omega)
      rw [resolve_fact]
      simp only [mapM_eq_some hargs, Option.map_some]

lemma walkDeepImpl_null (level : ℕ) :
    (walkDeepImpl none level : Term α φ → Option (Tree ℕ β φ)) = walkDeepImpl (some []) level := by
  induction level with
  | zero => rfl
  | succ level ih =>
    funext t
    rw [walkDeepImpl, walkDeepImpl, walk_nil, ih]
    rfl

lemma walkDeep_getD (s : Subst α φ) (t : Term α φ) :
    walkDeep s t = walkDeep (some (s.getD [])) t := by
  cases s with
  | none => rw [walkDeep, walkDeepImpl_null]; rfl
  | some bs => rfl

/-- A term without the variables that are bound. -/
def Resolved (bs : List (ℕ × Term α φ)) (t : Tree ℕ β φ) : Prop := ∀ x ∈ domain bs, ¬ Occurs x t

lemma WellFormed.resolved {bs : List (ℕ × Term α φ)} (h : WellFormed mem bs) (t : Term α φ) :
    Resolved bs (resolve bs t) := by
  intro x hx hoccurs
  obtain ⟨y, -, hy⟩ := occurs_bind.1 hoccurs
  exact h.triangular.not_occurs_solve (by rw [map_fst_equations]; exact hx) y hy

/-! ## Runs -/

section runs
variable [DecidableEq φ]

/-- The substitutions that calls build, none of which makes a circular binding. -/
inductive Reachable (mem : Memory β φ) : Subst α φ → Prop where
  | null : Reachable mem none
  | empty : Reachable mem (some [])
  | unify {s : Subst α φ} {bs : List (ℕ × Term α φ)} {t1 t2 : Term α φ} (h : Reachable mem s)
    (h1 : t1.In mem) (h2 : t2.In mem) (hsound : ∀ fuel, CallBindsSoundly fuel (s.getD []) t1 t2)
    (hreturns : Returns s t1 t2 (some bs)) : Reachable mem (some bs)

/-- Both terms become the same, and so do the two sides of every binding of `bs`. -/
def IsUnifier (bs : List (ℕ × Term α φ)) (t1 t2 : Term α φ) (θ : ℕ → Tree ℕ β φ) : Prop :=
  Satisfies θ (equations bs) ∧ t1.tree.bind θ = t2.tree.bind θ

/-- `bs'` is a most general unifier of the terms that extends `bs`. -/
structure MostGeneral (bs bs' : List (ℕ × Term α φ)) (t1 t2 : Term α φ) : Prop where
  resolved : resolve bs' t1 = resolve bs' t2
  appended : ∃ new, bs' = bs ++ new
  factors : ∀ θ, IsUnifier bs t1 t2 θ → ∀ x, (solve (equations bs') x).bind θ = θ x

/-- The call returns a most general unifier, or the null pointer when there is none. -/
def Correct (s : Subst α φ) (t1 t2 : Term α φ) : Prop :=
  (∃ bs', Returns s t1 t2 (some bs') ∧ MostGeneral (s.getD []) bs' t1 t2) ∨
    (Returns s t1 t2 none ∧ ∀ θ, ¬ IsUnifier (s.getD []) t1 t2 θ)

lemma Returns.of_null {t1 t2 : Term α φ} {r : Subst α φ} (h : startsEqual t1 t2 = false)
    (hr : Returns (some []) t1 t2 r) : Returns none t1 t2 r := by
  obtain ⟨n, hn⟩ := hr
  exact ⟨n, fun fuel hle => by rw [unify_null fuel h, hn fuel hle]⟩

/-- A call that succeeds takes the null pointer for the empty substitution. -/
lemma Returns.of_some {s : Subst α φ} {bs : List (ℕ × Term α φ)} {t1 t2 : Term α φ}
    (h : Returns s t1 t2 (some bs)) : Returns (some (s.getD [])) t1 t2 (some bs) := by
  cases s with
  | some bs₀ => exact h
  | none =>
    cases hstart : startsEqual t1 t2 with
    | true => cases (returns_null hstart).unique h
    | false =>
      obtain ⟨n, hn⟩ := h
      exact ⟨n, fun fuel hle => by rw [Option.getD_none, ← unify_null fuel hstart, hn fuel hle]⟩

/-- Run lemma: no unifier call builds a cycle. -/
lemma Reachable.wellFormed {s : Subst α φ} (h : Reachable mem s) : WellFormed mem (s.getD []) := by
  induction h with
  | null => exact .nil
  | empty => exact .nil
  | unify h h1 h2 hsound hreturns ih =>
    obtain ⟨n, hn⟩ := hreturns.of_some
    have hext : Extends mem _ _ _ _ := unify_spec ih h1 h2 (hsound n) (hn n (Nat.le_refl n))
    exact hext.wellFormed

/-- What a call with a substitution, not the null pointer, returns is right. -/
lemma WellFormed.correct {bs : List (ℕ × Term α φ)} (h : WellFormed mem bs) {t1 t2 : Term α φ}
    (h1 : t1.In mem) (h2 : t2.In mem) (hsound : ∀ fuel, CallBindsSoundly fuel bs t1 t2) :
    Correct (some bs) t1 t2 := by
  obtain ⟨r, hr⟩ := h.unify_returns h1 h2 hsound
  obtain ⟨n, hn⟩ := id hr
  have hout := unify_spec h h1 h2 (hsound n) (hn n (Nat.le_refl n))
  cases r with
  | none => exact .inr ⟨hr, fun θ hθ => hout θ hθ.1 (by simpa using hθ.2)⟩
  | some bs' =>
    have hext : Extends mem bs bs' [t1] [t2] := hout
    refine .inl ⟨bs', hr, by simpa using hext.solves, hext.appended, fun θ hθ x => ?_⟩
    exact (hext.general θ hθ.1 (by simpa using hθ.2)).factors x

/-- A call that binds a variable. -/
lemma callBindsSoundly_var {bs : List (ℕ × Term α φ)} {t1 t2 w : Term α φ} {x : ℕ}
    (h1 : walk (some bs) t1 = some (.var x)) (h2 : walk (some bs) t2 = some w)
    (h : BindsSoundly bs x w) (fuel : ℕ) : CallBindsSoundly fuel bs t1 t2 := by
  cases fuel with
  | zero => trivial
  | succ fuel =>
    intro w1 w2 hw1 hw2 _
    cases h1.symm.trans hw1
    cases h2.symm.trans hw2
    exact h

/-- A heap without objects that an atom could point to. -/
def noObjects : UInt64 → Hash.Cell := fun _ => .leaf (.string [])

/-- The integer 1. -/
def one : ExactValue noObjects := ⟨.leaf (.imm .int64 1), trivial, by decide, by decide, by decide⟩

/-- The fact `(p ?0)` at address 8. -/
def factOfZero : Term (ExactValue noObjects) (List UInt8) := .fact 8 [112] [.var 0]

def onlyFact : Memory Hash.Meaning (List UInt8) := fun _ => ([112], [.var 0])

/-- `?0` bound to 1. -/
def zeroIsOne : Subst (ExactValue noObjects) (List UInt8) := some [(0, .atom one)]

lemma reachable_zeroIsOne : Reachable onlyFact zeroIsOne := by
  have hreturns : Returns (some []) (.var 0) (.atom one) zeroIsOne := .of_unify 1 rfl
  refine .unify .empty (.var 0) (.atom one) (callBindsSoundly_var rfl rfl fun _ => ?_) hreturns
  simp [resolve]

/-- A call returns the right result unless it is given the null pointer and could succeed without
binding anything before its first comparison. -/
theorem unify_correct_iff {s : Subst α φ} (h : Reachable mem s) {t1 t2 : Term α φ} (h1 : t1.In mem)
    (h2 : t2.In mem) (hsound : ∀ fuel, CallBindsSoundly fuel (s.getD []) t1 t2) :
    Correct s t1 t2 ↔ (s = none → startsEqual t1 t2 = true → ∀ θ, ¬ IsUnifier [] t1 t2 θ) := by
  have hwf := h.wellFormed
  cases s with
  | some bs => exact iff_of_true (hwf.correct h1 h2 hsound) (fun h => absurd h (Option.some_ne_none _))
  | none =>
    cases hstart : startsEqual t1 t2 with
    | true =>
      have hnull := returns_null hstart
      constructor
      · rintro (⟨bs', hr, -⟩ | ⟨-, hnone⟩)
        · cases hnull.unique hr
        · exact fun _ _ => hnone
      · exact fun hnone => .inr ⟨hnull, hnone rfl rfl⟩
    | false =>
      refine iff_of_true ?_ (fun _ h => absurd h Bool.false_ne_true)
      obtain ⟨bs', hr, hgeneral⟩ | ⟨hr, hnone⟩ := hwf.correct h1 h2 hsound
      · exact .inl ⟨bs', .of_null hstart hr, hgeneral⟩
      · exact .inr ⟨.of_null hstart hr, hnone⟩

theorem unify_correct_iff_zeroIsOne :
    Reachable onlyFact zeroIsOne ∧ factOfZero.In onlyFact ∧ Correct zeroIsOne (.var 1) factOfZero := by
  have hin : factOfZero.In onlyFact := .fact (by simp [onlyFact]) (by simp [Term.In.var])
  have hsound : BindsSoundly [(0, .atom one)] 1 factOfZero := by
    refine reachable_zeroIsOne.wellFormed.bindsSoundly 1 ?_
    simp [resolve, factOfZero, zeroIsOne, solve, solveStep, equations, Tree.depth, Tree.depthAll,
      occursCheckMaxDepth]
  refine ⟨reachable_zeroIsOne, hin, ?_⟩
  exact (unify_correct_iff reachable_zeroIsOne (.var 1) hin (callBindsSoundly_var rfl rfl hsound)).2
    fun h => absurd h (Option.some_ne_none _)

/-- Given the null pointer for the empty substitution, two equal integers do not unify. -/
theorem equal_atoms_not_correct :
    ¬ Correct (none : Subst (ExactValue noObjects) (List UInt8)) (.atom one) (.atom one) := by
  have hnull : Returns (none : Subst (ExactValue noObjects) (List UInt8)) (.atom one) (.atom one) none :=
    returns_null rfl
  rintro (⟨bs', hr, -⟩ | ⟨-, hnone⟩)
  · cases hnull.unique hr
  · exact hnone .var ⟨fun _ _ hx => absurd hx List.not_mem_nil, rfl⟩

/-- No variable depends on itself; every chain of variables ends; a term that is no deeper than the
limit once resolved is resolved in full. -/
theorem reachable_acyclic {s : Subst α φ} (h : Reachable mem s) :
    (∀ x, ¬ Relation.TransGen (Depends (equations (s.getD []))) x x) ∧
      (∀ t, ∃ w, walk s t = some w ∧ Walked (s.getD []) w) ∧
      ∀ t, (resolve (s.getD []) t).depth ≤ walkDeepMaxDepth →
        walkDeep s t = some (resolve (s.getD []) t) ∧ Resolved (s.getD []) (resolve (s.getD []) t) := by
  have hwf := h.wellFormed
  refine ⟨hwf.triangular.acyclic, fun t => ?_, fun t hdepth => ⟨?_, hwf.resolved t⟩⟩
  · obtain ⟨w, hw⟩ := hwf.walksTo t
    exact ⟨w, by rw [walk_getD, hw.walk_eq], hw.walked⟩
  · rw [walkDeep_getD]
    exact hwf.walkDeepImpl_eq (Nat.lt_succ_of_le hdepth)

theorem reachable_acyclic_zeroIsOne :
    Reachable onlyFact zeroIsOne ∧
      (∀ x, ¬ Relation.TransGen (Depends (equations (zeroIsOne.getD []))) x x) ∧
      walkDeep zeroIsOne factOfZero = some (resolve (zeroIsOne.getD []) factOfZero) := by
  have h := reachable_acyclic reachable_zeroIsOne
  refine ⟨reachable_zeroIsOne, h.1, (h.2.2 factOfZero ?_).1⟩
  simp [resolve, factOfZero, zeroIsOne, solve, solveStep, equations, depth, depthAll, walkDeepMaxDepth]

/-- `(p (p … ?0))`. -/
def nest : ℕ → Term (ExactValue noObjects) (List UInt8)
  | 0 => .var 0
  | n + 1 => .fact (8 * n) [112] [nest n]

lemma occursImpl_nest (level : ℕ) : occursImpl (some []) 0 level (nest level) = some false := by
  induction level with
  | zero => rfl
  | succ level ih =>
    rw [occursImpl, walk_nil, nest, Option.bind_some]
    simp only [anyArg, ih, Option.bind_some, if_neg Bool.false_ne_true]

lemma occurs_nest (n : ℕ) : Occurs 0 (nest n).tree := by
  induction n with
  | zero =>
    rw [nest, tree_var]
    exact .var
  | succ n ih =>
    rw [nest, tree_fact]
    exact .node (List.mem_map_of_mem List.mem_cons_self) ih

/-- Below the limit of the occurs check a variable is bound to a term that it occurs in. -/
theorem nest_binds_cyclically :
    Returns (some []) (.var 0) (nest 1001) (some [(0, nest 1001)]) ∧
      Relation.TransGen (Depends (equations [(0, nest 1001)])) 0 0 := by
  have hocc : occurs (some []) 0 (nest 1001) = some false := occursImpl_nest 1001
  have hne : taggedValuesEqual (.var 0) (nest 1001) = false := by
    rw [nest]
    rfl
  refine ⟨.of_unify 1 ?_, .single ⟨_, List.mem_cons_self, occurs_nest 1001⟩⟩
  rw [unify, walk_nil, walk_nil, Option.bind_some, Option.bind_some, hne, if_neg Bool.false_ne_true,
    unifyWalked, bindVar, hocc]
  rfl

end runs

end Logic
