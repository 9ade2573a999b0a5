import Eshkol.Macro.Ast

/-!
# Matching of macro patterns

A pattern is matched against a form from left to right; an element that an ellipsis follows takes all arguments
that are left. The pattern is then a template itself, of which a match is an instance.
-/

namespace Macro

/-- `eshkol_macro_pattern_t`, with `followed_by_ellipsis` last. -/
inductive MacroPattern where
  | var (identifier : String) (ellipsis : Bool)
  | literal (identifier : String) (ellipsis : Bool)
  | list (elements : List MacroPattern) (ellipsis : Bool)

/-- A property holds of all patterns when lists have it as soon as their elements do. -/
@[elab_as_elim, induction_eliminator]
lemma MacroPattern.induct {motive : MacroPattern → Prop}
    (var : ∀ identifier ellipsis, motive (.var identifier ellipsis))
    (literal : ∀ identifier ellipsis, motive (.literal identifier ellipsis))
    (list : ∀ elements ellipsis, (∀ p ∈ elements, motive p) → motive (.list elements ellipsis))
    (p : MacroPattern) : motive p := by
  have rest (q : MacroPattern) (_ : sizeOf q < sizeOf p) : motive q :=
    MacroPattern.induct var literal list q
  cases p with
  | var identifier ellipsis => exact var identifier ellipsis
  | literal identifier ellipsis => exact literal identifier ellipsis
  | list elements ellipsis =>
    refine list elements ellipsis fun q hq => rest q ?_
    have hlt := List.sizeOf_lt_of_mem hq
    simp only [MacroPattern.list.sizeOf_spec]
    omega
termination_by sizeOf p

/-- Whether an ellipsis follows the pattern. -/
def MacroPattern.followedByEllipsis : MacroPattern → Bool
  | .var _ ellipsis => ellipsis
  | .literal _ ellipsis => ellipsis
  | .list _ ellipsis => ellipsis

mutual

/-- `collectPatternVarDepths`. -/
def collectPatternVarDepths : MacroPattern → ℕ → (String → Option ℕ) → String → Option ℕ
  | .var identifier _, depth, out =>
    if identifier = "" ∨ identifier = "_" then out
    else fun name => if name = identifier then some depth else out name
  | .literal _ _, _, out => out
  | .list elements _, depth, out => collectVarDepthsInList elements depth out

/-- The loop over the elements of a list. -/
@[grind =]
def collectVarDepthsInList : List MacroPattern → ℕ → (String → Option ℕ) → String → Option ℕ
  | [], _, out => out
  | elem :: rest, depth, out =>
    collectVarDepthsInList rest depth
      (collectPatternVarDepths elem (depth + if elem.followedByEllipsis then 1 else 0) out)

end

/-- The variables of a pattern and their depths. -/
@[grind =]
def MacroPattern.depths (p : MacroPattern) : String → Option ℕ := collectPatternVarDepths p 0 fun _ => none

/-- No variable is bound. -/
def noBindings : Bindings := fun _ => none

/-- The bindings after the repetitions of an element, of each variable one sequence. -/
@[grind =]
def mergeRepetitions (elem : MacroPattern) (subResults : List Bindings) (bindings : Bindings) : Bindings :=
  fun name =>
    match elem.depths name with
    | some childDepth =>
      some (.sequence childDepth (subResults.map fun sub => (sub name).getD (MatchTree.empty childDepth)))
    | none => bindings name

/-- `isSymbol`. -/
def isSymbol (ast : Ast) (name : String) : Bool :=
  match ast with
  | .var id => id == name
  | _ => false

/-- The callee and the arguments of a call. -/
def callParts : Ast → Option (List Ast)
  | .call .call .nullptr _ => none
  | .call .call func vars => some (func :: vars)
  | _ => none

mutual

/-- `matchPattern`: the bindings afterwards, if it succeeds. -/
@[grind =]
def matchPattern : MacroPattern → Ast → Bindings → Option Bindings
  | .var identifier _, ast, bindings =>
    if identifier = "_" then some bindings
    else some fun name => if name = identifier then some (.scalar ast) else bindings name
  | .literal identifier _, ast, bindings => if isSymbol ast identifier then some bindings else none
  | .list elements _, ast, bindings =>
    match callParts ast with
    | some args => matchPatternSeq elements args bindings
    | none => none

/-- `matchPatternSeq`, from the current element and argument on. -/
@[grind =]
def matchPatternSeq : List MacroPattern → List Ast → Bindings → Option Bindings
  | [], args, bindings => if args.isEmpty then some bindings else none
  | elem :: rest, args, bindings =>
    if elem.followedByEllipsis then
      match args.mapM fun arg => matchPattern elem arg noBindings with
      | some subResults => matchPatternSeq rest [] (mergeRepetitions elem subResults bindings)
      | none => none
    else
      match args with
      | [] => none
      | arg :: args =>
        match matchPattern elem arg bindings with
        | some bindings => matchPatternSeq rest args bindings
        | none => none

end

/-! ## Patterns as templates -/

/-- How the parser reads a list: the empty one is a call of `list`. -/
def callForm : List Ast → Ast
  | [] => .call .call (.var "list") []
  | func :: vars => .call .call func vars

mutual

/-- A pattern as a template, its lists read as calls. -/
@[grind =]
def MacroPattern.template : MacroPattern → Ast
  | .var identifier _ => .var identifier
  | .literal identifier _ => .var identifier
  | .list elements _ => callForm (templateItems elements)

/-- The elements of a list, each with its ellipsis. -/
@[grind =]
def templateItems : List MacroPattern → List Ast
  | [] => []
  | elem :: rest =>
    elem.template :: ((if elem.followedByEllipsis then [.var "..."] else []) ++ templateItems rest)

/-- The variables of a pattern, from left to right. -/
@[grind =]
def MacroPattern.variables : MacroPattern → List String
  | .var identifier _ => [identifier]
  | .literal _ _ => []
  | .list elements _ => variablesInList elements

/-- The variables of the elements of a list. -/
@[grind =]
def variablesInList : List MacroPattern → List String
  | [] => []
  | elem :: rest => elem.variables ++ variablesInList rest

/-- The literals of a pattern. -/
def MacroPattern.literals : MacroPattern → List String
  | .var _ _ => []
  | .literal identifier _ => [identifier]
  | .list elements _ => literalsInList elements

/-- The literals of the elements of a list. -/
def literalsInList : List MacroPattern → List String
  | [] => []
  | elem :: rest => elem.literals ++ literalsInList rest

/-- An ellipsis only follows the last element of a list. -/
@[grind =]
def MacroPattern.trailing : MacroPattern → Bool
  | .list elements _ => trailingInList elements
  | _ => true

/-- The same of the elements of a list. -/
@[grind =]
def trailingInList : List MacroPattern → Bool
  | [] => true
  | elem :: rest => (!elem.followedByEllipsis || rest.isEmpty) && (elem.trailing && trailingInList rest)

/-- Every list has an element. -/
@[grind =]
def MacroPattern.nonempty : MacroPattern → Bool
  | .list [] _ => false
  | .list (elem :: rest) _ => elem.nonempty && nonemptyInList rest
  | _ => true

/-- The same of the elements of a list. -/
@[grind =]
def nonemptyInList : List MacroPattern → Bool
  | [] => true
  | elem :: rest => elem.nonempty && nonemptyInList rest

/-- Every list has a first element that is not repeated, and what is repeated contains a variable. -/
@[grind =]
def MacroPattern.expandable : MacroPattern → Bool
  | .list [] _ => false
  | .list (elem :: rest) _ => !elem.followedByEllipsis && (elem.expandable && expandableInList rest)
  | _ => true

/-- The same of the elements of a list after the first. -/
@[grind =]
def expandableInList : List MacroPattern → Bool
  | [] => true
  | elem :: rest =>
    (!elem.followedByEllipsis || !elem.variables.isEmpty) && (elem.expandable && expandableInList rest)

end

/-- Every variable occurs once, under a name that is one, and ellipses stand at the ends of lists. -/
structure MacroPattern.Linear (p : MacroPattern) : Prop where
  nodup : p.variables.Nodup
  names : ∀ x ∈ p.variables, x ≠ "" ∧ x ≠ "_" ∧ x ≠ "..."
  literals : ∀ x ∈ p.literals, x ≠ "..." ∧ x ∉ p.variables
  trailing : p.trailing = true

/-- The tree has a depth, and its leaves are forms. -/
def MatchTree.HasDepth : ℕ → MatchTree → Prop
  | 0, .scalar ast => ast ≠ .nullptr
  | depth + 1, .sequence childDepth elements => childDepth = depth ∧ ∀ t ∈ elements, HasDepth depth t
  | _, _ => False

/-- An assignment of forms to the variables of a pattern, of sequences to those under ellipses. -/
def Assigns (p : MacroPattern) (bindings : Bindings) : Prop :=
  ∀ name, (∀ depth, p.depths name = some depth → ∃ t, bindings name = some t ∧ t.HasDepth depth) ∧
    (p.depths name = none → bindings name = none)

/-- A match instantiates the pattern to the form, and without a match no assignment does. -/
def InverseAt (p : MacroPattern) (form : Ast) : Prop :=
  (∀ bindings, matchPattern p form noBindings = some bindings → substituteBindings p.template bindings = form) ∧
    (matchPattern p form noBindings = none → ∀ bindings, Assigns p bindings →
      substituteBindings p.template bindings ≠ form)

end Macro
