import Eshkol.Logic.UnifyTheorems

/-!
# The unifier of the VM

The VM's unifier is a port of the runtime's. It follows variables and extends substitutions in the
same way, and names predicates by numbers; its occurs check does not look inside facts.
-/

namespace Logic

open FirstOrder FirstOrder.Tree

variable {α β φ ψ : Type}

/-! ## Both unifiers -/

section engine
variable [BEq α] [DecidableEq φ]

/-- Binding a variable after an occurs check. -/
def bindVarWith (occurs : Subst α φ → ℕ → Term α φ → Option Bool) (s : Subst α φ) (x : ℕ)
    (t : Term α φ) : Option (Subst α φ) :=
  (occurs s x t).map fun found => if found then none else extendSubst s x t

/-- The cases of walked terms that are not equal. -/
def unifyWalkedWith (occurs : Subst α φ → ℕ → Term α φ → Option Bool)
    (unify : Subst α φ → Term α φ → Term α φ → Option (Subst α φ)) (s : Subst α φ) :
    Term α φ → Term α φ → Option (Subst α φ)
  | .var x, w2 => bindVarWith occurs s x w2
  | w1, .var x => bindVarWith occurs s x w1
  | .fact _ f as, .fact _ g bs =>
    if f ≠ g then some none
    else if as.length ≠ bs.length then some none
    else unifyArgs unify s as bs
  | _, _ => some none

/-- A unifier with the given occurs check. -/
def unifyWith (occurs : Subst α φ → ℕ → Term α φ → Option Bool) :
    ℕ → Subst α φ → Term α φ → Term α φ → Option (Subst α φ)
  | 0, _, _, _ => none
  | fuel + 1, s, t1, t2 =>
    (walk s t1).bind fun w1 => (walk s t2).bind fun w2 =>
      if taggedValuesEqual w1 w2 then some s
      else unifyWalkedWith occurs (unifyWith occurs fuel) s w1 w2

/-- The runtime's unifier is the one with the runtime's check. -/
lemma unify_eq_unifyWith (fuel : ℕ) : (unify fuel : Subst α φ → _) = unifyWith occurs fuel := by
  induction fuel with
  | zero => rfl
  | succ fuel ih =>
    funext s t1 t2
    have hwalked : ∀ w1 w2, unifyWalked (unify fuel) s w1 w2 =
        unifyWalkedWith occurs (unifyWith occurs fuel) s w1 w2 := by
      intro w1 w2
      rw [ih]
      cases w1 with
      | var x => rfl
      | atom a => cases w2 <;> rfl
      | fact p f as => cases w2 <;> rfl
    simp only [unify, unifyWith, hwalked]

end engine

/-! ## The VM's -/

/-- `vm_walk`. -/
def vmWalk (s : Subst α φ) (t : Term α φ) : Option (Term α φ) := walk s t

/-- `OCCURS_MAX_DEPTH`. -/
def occursMaxDepth : ℕ := 1000

/-- `vm_occurs_impl`: no facts are looked into. -/
def vmOccursImpl (x : ℕ) (t : Term α φ) (s : Subst α φ) (depth : ℕ) : Option Bool :=
  if depth > occursMaxDepth then some false
  else (vmWalk s t).map fun
    | .var y => y == x
    | _ => false

/-- `vm_occurs`. -/
def vmOccurs (s : Subst α φ) (x : ℕ) (t : Term α φ) : Option Bool := vmOccursImpl x t s 0

/-- `vm_unify`, with `vm_unify_facts`. -/
def vmUnify [BEq α] [DecidableEq φ] :
    ℕ → Subst α φ → Term α φ → Term α φ → Option (Subst α φ) :=
  unifyWith vmOccurs

/-- The VM's call returns. -/
def VmReturns [BEq α] [DecidableEq φ] (s : Subst α φ) (t1 t2 : Term α φ) (r : Subst α φ) : Prop :=
  ∃ n, ∀ fuel, n ≤ fuel → vmUnify fuel s t1 t2 = some r

/-- `WALK_DEEP_MAX`. -/
def walkDeepMax : ℕ := 10000

/-- `vm_walk_deep_full`, so many levels before its limit; the copy is taken without its addresses. -/
def vmWalkDeepFull [BEq α] [Atoms α β] (s : Subst α φ) : ℕ → Term α φ → Option (Tree ℕ β φ)
  | 0, t => some t.tree
  | level + 1, t => (vmWalk s t).bind fun
    | .fact _ f args => (args.mapM (vmWalkDeepFull s level)).map (.node f)
    | w => some w.tree

/-- `vm_walk_deep_full` from depth 0. -/
def vmWalkDeep [BEq α] [Atoms α β] (s : Subst α φ) (t : Term α φ) : Option (Tree ℕ β φ) :=
  vmWalkDeepFull s (walkDeepMax + 1) t

/-- Integers are compared by value. -/
instance : Atoms Int64 Int64 where
  meaning a := a
  beq_iff _ _ := beq_iff_eq

/-! ## Calls without a circular binding -/

section free
variable [BEq α] [Atoms α β] [DecidableEq φ]

/-- Walked terms are not a variable and a term that it occurs in. -/
def WalkedBindFreely (free : List (ℕ × Term α φ) → Term α φ → Term α φ → Prop)
    (unify : Subst α φ → Term α φ → Term α φ → Option (Subst α φ)) (bs : List (ℕ × Term α φ)) :
    Term α φ → Term α φ → Prop
  | .var x, w2 => ¬ Occurs x (resolve bs w2)
  | w1, .var x => ¬ Occurs x (resolve bs w1)
  | .fact _ f as, .fact _ g cs =>
    f = g → as.length = cs.length → ArgsBindSoundly free unify bs as cs
  | _, _ => True

/-- Within `fuel` nested calls, the runtime's unifier is not asked to bind a variable to a term that
it occurs in. -/
def CallBindsFreely : ℕ → List (ℕ × Term α φ) → Term α φ → Term α φ → Prop
  | 0, _, _, _ => True
  | fuel + 1, bs, t1, t2 => ∀ w1 w2, walk (some bs) t1 = some w1 → walk (some bs) t2 = some w2 →
      taggedValuesEqual w1 w2 = false →
      WalkedBindFreely (CallBindsFreely fuel) (unify fuel) bs w1 w2

end free

end Logic
