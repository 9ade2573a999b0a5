import Eshkol.Base.FirstOrder

/-!
# The unifier of the logic runtime

Terms are logic variables, atoms and facts. A substitution is a list of bindings, extended at its
end; the null pointer stands for the empty one, and for failure. Variables are followed through the
bindings, and a variable is bound after an occurs check that looks a fixed number of levels down.
-/

namespace Logic

open FirstOrder

/-- A tagged value as the unifier sees it. Atoms are compared by `eshkol_deep_equal`, their `==`; a
fact has an address, a predicate name and arguments. -/
inductive Term (α φ : Type) where
  | var (x : ℕ)
  | atom (a : α)
  | fact (addr : ℕ) (predicate : φ) (args : List (Term α φ))

variable {α φ : Type}

/-- `eshkol_substitution_t*`. -/
abbrev Subst (α φ : Type) := Option (List (ℕ × Term α φ))

/-- `eshkol_subst_lookup`: the first binding of the variable. -/
def substLookup (bs : List (ℕ × Term α φ)) (x : ℕ) : Option (Term α φ) := bs.lookup x

/-- `eshkol_extend_subst`. -/
def extendSubst (s : Subst α φ) (x : ℕ) (t : Term α φ) : Subst α φ := some (s.getD [] ++ [(x, t)])

/-- The loop of `eshkol_walk`. -/
def walkFrom (bs : List (ℕ × Term α φ)) : ℕ → Term α φ → Option (Term α φ)
  | 0, _ => none
  | fuel + 1, .var x =>
    match substLookup bs x with
    | none => some (.var x)
    | some t => walkFrom bs fuel t
  | _ + 1, t => some t

/-- `eshkol_walk`. A chain that passes more bindings than there are passes one twice and never
ends. -/
def walk (s : Subst α φ) (t : Term α φ) : Option (Term α φ) :=
  match s with
  | none => some t
  | some bs => walkFrom bs (bs.length + 1) t

/-- `OCCURS_CHECK_MAX_DEPTH`. -/
def occursCheckMaxDepth : ℕ := 1000

/-- `WALK_DEEP_MAX_DEPTH`. -/
def walkDeepMaxDepth : ℕ := 10000

/-- The loop over the arguments of a fact, up to the first that answers `true`. -/
def anyArg (check : Term α φ → Option Bool) : List (Term α φ) → Option Bool
  | [] => some false
  | a :: as => (check a).bind fun found => if found then some true else anyArg check as

/-- `occurs_impl`, so many levels before its limit. -/
def occursImpl (s : Subst α φ) (x : ℕ) : ℕ → Term α φ → Option Bool
  | 0, _ => some false
  | level + 1, t => (walk s t).bind fun
    | .var y => some (y == x)
    | .atom _ => some false
    | .fact _ _ args => anyArg (occursImpl s x level) args

/-- `occurs`. -/
def occurs (s : Subst α φ) (x : ℕ) (t : Term α φ) : Option Bool :=
  occursImpl s x (occursCheckMaxDepth + 1) t

section unify
variable [BEq α] [DecidableEq φ]

/-- `tagged_values_equal`: variables by number, atoms by `eshkol_deep_equal`, and facts, which it
knows nothing of, by address. -/
def taggedValuesEqual : Term α φ → Term α φ → Bool
  | .var x, .var y => x == y
  | .atom a, .atom b => a == b
  | .fact p _ _, .fact q _ _ => p == q
  | _, _ => false

/-- The loop over the arguments of two facts of one arity. -/
def unifyArgs (unify : Subst α φ → Term α φ → Term α φ → Option (Subst α φ)) :
    Subst α φ → List (Term α φ) → List (Term α φ) → Option (Subst α φ)
  | current, a :: as, b :: bs => (unify current a b).bind fun
    | none => some none
    | some current => unifyArgs unify (some current) as bs
  | current, _, _ => some current

/-- Binding a variable after the occurs check. -/
def bindVar (s : Subst α φ) (x : ℕ) (t : Term α φ) : Option (Subst α φ) :=
  (occurs s x t).map fun found => if found then none else extendSubst s x t

/-- `eshkol_unify` on walked terms that are not equal. -/
def unifyWalked (unify : Subst α φ → Term α φ → Term α φ → Option (Subst α φ)) (s : Subst α φ) :
    Term α φ → Term α φ → Option (Subst α φ)
  | .var x, w2 => bindVar s x w2
  | w1, .var x => bindVar s x w1
  | .fact _ f as, .fact _ g bs =>
    if f ≠ g then some none
    else if as.length ≠ bs.length then some none
    else unifyArgs unify s as bs
  | _, _ => some none

/-- `eshkol_unify`; without a result it has not returned within `fuel` nested calls. -/
def unify : ℕ → Subst α φ → Term α φ → Term α φ → Option (Subst α φ)
  | 0, _, _, _ => none
  | fuel + 1, s, t1, t2 =>
    (walk s t1).bind fun w1 => (walk s t2).bind fun w2 =>
      if taggedValuesEqual w1 w2 then some s else unifyWalked (unify fuel) s w1 w2

/-- The call returns. -/
def Returns (s : Subst α φ) (t1 t2 : Term α φ) (r : Subst α φ) : Prop :=
  ∃ n, ∀ fuel, n ≤ fuel → unify fuel s t1 t2 = some r

end unify

/-! ## What terms stand for -/

/-- Atoms that `eshkol_deep_equal` compares by what they mean. -/
class Atoms (α : Type) (β : outParam Type) [BEq α] where
  meaning : α → β
  beq_iff : ∀ a b : α, (a == b) = true ↔ meaning a = meaning b

variable {β : Type} [BEq α] [Atoms α β]

mutual

/-- The term without its addresses. -/
def Term.tree : Term α φ → Tree ℕ β φ
  | .var x => .var x
  | .atom a => .atom (Atoms.meaning a)
  | .fact _ f args => .node f (trees args)

def trees : List (Term α φ) → List (Tree ℕ β φ)
  | [] => []
  | t :: ts => t.tree :: trees ts

end

lemma trees_eq_map (ts : List (Term α φ)) : trees ts = ts.map Term.tree := by
  induction ts with
  | nil => rfl
  | cons t ts ih => rw [trees, ih, List.map_cons]

@[simp] lemma tree_var (x : ℕ) : (Term.var x : Term α φ).tree = .var x := by rw [Term.tree]

@[simp] lemma tree_atom (a : α) : (Term.atom a : Term α φ).tree = .atom (Atoms.meaning a) := by rw [Term.tree]

@[simp] lemma tree_fact (p : ℕ) (f : φ) (args : List (Term α φ)) :
    (Term.fact p f args).tree = .node f (args.map Term.tree) := by rw [Term.tree, trees_eq_map]

/-- The equations of a list of bindings. -/
def equations (bs : List (ℕ × Term α φ)) : List (ℕ × Tree ℕ β φ) :=
  bs.map fun b => (b.1, b.2.tree)

/-- The term with its variables fully resolved. -/
def resolve (bs : List (ℕ × Term α φ)) (t : Term α φ) : Tree ℕ β φ :=
  t.tree.bind (solve (equations bs))

/-- `walk_deep_impl`, so many levels before its limit; the copy is taken without its addresses. -/
def walkDeepImpl (s : Subst α φ) : ℕ → Term α φ → Option (Tree ℕ β φ)
  | 0, t => some t.tree
  | level + 1, t => (walk s t).bind fun
    | .fact _ f args => (args.mapM (walkDeepImpl s level)).map (.node f)
    | w => some w.tree

/-- `eshkol_walk_deep`. -/
def walkDeep (s : Subst α φ) (t : Term α φ) : Option (Tree ℕ β φ) :=
  walkDeepImpl s (walkDeepMaxDepth + 1) t

end Logic
