import Mathlib.Data.Int.Notation
import Mathlib.Data.List.Basic

/-!
# Syntax rules of the bytecode compiler

The expander copies nodes through a record that ends before the compiler's: what kind of literal a number is lies
behind it. Patterns are matched into a table of named bindings of fixed size, and instantiated from it.
-/

namespace Vm.SyntaxRules

/-! ## Nodes -/

/-- `is_char`, `is_inexact`, `is_int` and `ival` of a number. -/
structure Literal where
  isChar : Bool
  isInexact : Bool
  isInt : Bool
  ival : ℤ
deriving DecidableEq

/-- `Node` of the compiler, with `D` for the doubles. Only of numbers the kind of literal is read. -/
inductive Node (D : Type) where
  | number (numval : D) (literal : Literal)
  | symbol (symbol : String)
  | list (children : List (Node D))
  | string (symbol : String)
  | bool (numval : Bool)

/-- `MacroNode`, the part that the expander knows of. -/
inductive MacroNode (D : Type) where
  | number (numval : D)
  | symbol (symbol : String)
  | list (children : List (MacroNode D))
  | string (symbol : String)
  | bool (numval : Bool)

variable {D : Type}

mutual

/-- A node of the compiler as the expander sees it. -/
def Node.header : Node D → MacroNode D
  | .number numval _ => .number numval
  | .symbol symbol => .symbol symbol
  | .list children => .list (headers children)
  | .string symbol => .string symbol
  | .bool numval => .bool numval

/-- The same of the children of a list. -/
def headers : List (Node D) → List (MacroNode D)
  | [] => []
  | node :: rest => node.header :: headers rest

end

/-- What a number that `macro_node_new` allocated shows as: its capacity is read for `is_char`, and for the other
fields what lies behind it. -/
def Literal.copied (beyond : Literal) : Literal := { beyond with isChar := false }

mutual

/-- A node that the expander allocated as the compiler sees it: `beyond` is what lies behind each copy, which is
told from the others by its path from the root. -/
def MacroNode.asNode (beyond : List ℕ → Literal) : MacroNode D → Node D
  | .number numval => .number numval (.copied (beyond []))
  | .symbol symbol => .symbol symbol
  | .list children => .list (asNodes beyond 0 children)
  | .string symbol => .string symbol
  | .bool numval => .bool numval

/-- The same of the children of a list from number `i` on. -/
def asNodes (beyond : List ℕ → Literal) (i : ℕ) : List (MacroNode D) → List (Node D)
  | [] => []
  | node :: rest => node.asNode (fun path => beyond (i :: path)) :: asNodes beyond (i + 1) rest

end

mutual

/-- `macro_node_deep_copy`. -/
def macroNodeDeepCopy : MacroNode D → MacroNode D
  | .number numval => .number numval
  | .symbol symbol => .symbol symbol
  | .list children => .list (copyChildren children)
  | .string symbol => .string symbol
  | .bool numval => .bool numval

/-- The loop over the children. -/
def copyChildren : List (MacroNode D) → List (MacroNode D)
  | [] => []
  | node :: rest => macroNodeDeepCopy node :: copyChildren rest

end

/-! ## Bindings -/

/-- `value` or `list` of a `MacroBinding`. -/
inductive Captured (D : Type) where
  | single (value : MacroNode D)
  | many (list : List (MacroNode D))

/-- `is_ellipsis`. -/
def Captured.isEllipsis : Captured D → Bool
  | .single _ => false
  | .many _ => true

/-- `MacroBinding`. -/
structure MacroBinding (D : Type) where
  name : String
  captured : Captured D

/-- `MAX_BINDINGS` -/
def maxBindings : ℕ := 64

/-- What fits a name of 64 characters and a zero. -/
def truncated (name : String) : String := String.ofList (name.toList.take 63)

/-- `macro_bindings_add` and `macro_bindings_add_ellipsis`. -/
@[grind =]
def macroBindingsAdd (bindings : List (MacroBinding D)) (name : String) (captured : Captured D) :
    Option (List (MacroBinding D)) :=
  if maxBindings ≤ bindings.length then none else some (bindings ++ [⟨truncated name, captured⟩])

/-- `macro_bindings_lookup`. -/
def macroBindingsLookup (bindings : List (MacroBinding D)) (name : String) : Option (Captured D) :=
  (bindings.find? fun binding => binding.name == name).map MacroBinding.captured

/-! ## Matching -/

/-- `is_ellipsis`. -/
def isEllipsis : MacroNode D → Bool
  | .symbol symbol => symbol == "..."
  | _ => false

/-- Whether a symbol binds what it is matched with. -/
def isVariable (literals : List String) (symbol : String) : Bool := symbol != "_" && !literals.contains symbol

mutual

/-- `vm_macro_match`: the bindings afterwards, if it succeeds. -/
@[grind =]
def vmMacroMatch [BEq D] (literals : List String) :
    MacroNode D → MacroNode D → List (MacroBinding D) → Option (List (MacroBinding D))
  | .symbol symbol, input, bindings =>
    if symbol == "_" then some bindings
    else if literals.contains symbol then
      match input with
      | .symbol other => if other == symbol then some bindings else none
      | _ => none
    else macroBindingsAdd bindings symbol (.single input)
  | .number numval, .number other, bindings => if numval == other then some bindings else none
  | .string symbol, .string other, bindings => if symbol == other then some bindings else none
  | .bool numval, .bool other, bindings => if numval == other then some bindings else none
  | .list children, .list inputs, bindings =>
    match children.findIdx? isEllipsis with
    | none =>
      if children.length = inputs.length then matchRange literals children 0 children.length inputs bindings else none
    -- no pattern before the ellipsis
    | some 0 => none
    | some (prefixLen + 1) =>
      let suffixLen := children.length - (prefixLen + 1) - 1
      let minInput := prefixLen + suffixLen
      if inputs.length < minInput then none
      else
        (matchRange literals children 0 prefixLen inputs bindings).bind fun bindings =>
        (matchRange literals children (prefixLen + 2) suffixLen (inputs.drop (inputs.length - suffixLen))
          bindings).bind fun bindings =>
        matchRepeated literals children prefixLen ((inputs.drop prefixLen).take (inputs.length - minInput)) bindings
  | _, _, _ => none

/-- The loop over `count` patterns after the first `skip`. -/
def matchRange [BEq D] (literals : List String) :
    List (MacroNode D) → ℕ → ℕ → List (MacroNode D) → List (MacroBinding D) → Option (List (MacroBinding D))
  | _, _, 0, _, bindings => some bindings
  | _ :: rest, skip + 1, count + 1, inputs, bindings => matchRange literals rest skip (count + 1) inputs bindings
  | pattern :: rest, 0, count + 1, input :: inputs, bindings =>
    (vmMacroMatch literals pattern input bindings).bind (matchRange literals rest 0 count inputs)
  | _, _, _, _, _ => none

/-- What is done with the elements that the pattern before the ellipsis takes. -/
def matchRepeated [BEq D] (literals : List String) :
    List (MacroNode D) → ℕ → List (MacroNode D) → List (MacroBinding D) → Option (List (MacroBinding D))
  | [], _, _, _ => none
  | _ :: rest, index + 1, items, bindings => matchRepeated literals rest index items bindings
  | pattern :: _, 0, items, bindings =>
    match pattern with
    | .symbol symbol =>
      if isVariable literals symbol then macroBindingsAdd bindings symbol (.many items)
      else if items.all fun item => (vmMacroMatch literals pattern item []).isSome then some bindings else none
    -- each repetition adds its bindings individually
    | .list _ => items.foldlM (fun bindings item => vmMacroMatch literals pattern item bindings) bindings
    | _ => if items.all fun item => (vmMacroMatch literals pattern item []).isSome then some bindings else none

end

/-! ## Instantiation -/

/-- The binding of an ellipsis variable among the children of a template. -/
def findEllipsisBinding (children : List (MacroNode D)) (bindings : List (MacroBinding D)) :
    Option (String × List (MacroNode D)) :=
  children.findSome? fun child =>
    match child with
    | .symbol symbol =>
      match macroBindingsLookup bindings symbol with
      | some (.many list) => some (symbol, list)
      | _ => none
    | _ => none

/-- The bindings with the first ellipsis binding of the name made a single one. -/
def replaceBinding : List (MacroBinding D) → String → MacroNode D → List (MacroBinding D)
  | [], _, _ => []
  | binding :: rest, name, value =>
    if binding.name == name && binding.captured.isEllipsis then ⟨binding.name, .single value⟩ :: rest
    else binding :: replaceBinding rest name value

mutual

/-- `vm_macro_instantiate`. -/
def vmMacroInstantiate : MacroNode D → List (MacroBinding D) → MacroNode D
  | .symbol symbol, bindings =>
    match macroBindingsLookup bindings symbol with
    | some (.single value) => macroNodeDeepCopy value
    | _ => .symbol symbol
  | .list children, bindings => .list (instantiateChildren children bindings)
  | tmpl, _ => macroNodeDeepCopy tmpl

/-- The loop over the children of a list. -/
@[grind =]
def instantiateChildren : List (MacroNode D) → List (MacroBinding D) → List (MacroNode D)
  | [], _ => []
  | [child], bindings => [vmMacroInstantiate child bindings]
  | sub :: next :: rest, bindings =>
    if isEllipsis next then
      (match sub with
        | .symbol symbol =>
          match macroBindingsLookup bindings symbol with
          | some (.many list) => list.map macroNodeDeepCopy
          | _ => []
        | .list children =>
          match findEllipsisBinding children bindings with
          | some (name, list) =>
            list.map fun value => vmMacroInstantiate sub (replaceBinding bindings name value)
          | none => []
        | _ => []) ++ instantiateChildren rest bindings
    else vmMacroInstantiate sub bindings :: instantiateChildren (next :: rest) bindings

end

end Vm.SyntaxRules

/-!
## Linear patterns and what a form holds for them

Which part of a form each variable of a pattern stands for, in the order of the bindings, and when the bindings
give that part back.
-/

namespace Vm.SyntaxRules

variable {D : Type}

/-! ## Patterns -/

/-- The pattern before an ellipsis: a variable or a list of variables. -/
inductive Repeatable (literals : List String) : MacroNode D → Prop where
  | symbol (name : String) : isVariable literals name = true → name ≠ "..." → Repeatable literals (.symbol name)
  | list (names : List String) : (∀ name ∈ names, isVariable literals name = true ∧ name ≠ "...") →
      Repeatable literals (.list (names.map .symbol))

/-- Constants, literals, variables and lists of patterns, with at most one ellipsis in a list. -/
inductive WellFormed (literals : List String) : MacroNode D → Prop where
  | number (numval : D) : WellFormed literals (.number numval)
  | string (text : String) : WellFormed literals (.string text)
  | bool (numval : Bool) : WellFormed literals (.bool numval)
  | symbol (name : String) : name ≠ "_" → name ≠ "..." → WellFormed literals (.symbol name)
  | list (patterns : List (MacroNode D)) : (∀ p ∈ patterns, WellFormed literals p) →
      WellFormed literals (.list patterns)
  | repeated (before after : List (MacroNode D)) (element : MacroNode D) : (∀ p ∈ before, WellFormed literals p) →
      (∀ p ∈ after, WellFormed literals p) → Repeatable literals element →
      WellFormed literals (.list (before ++ element :: .symbol "..." :: after))

mutual

/-- The variables of a pattern, from left to right. -/
@[grind =]
def patternVariables (literals : List String) : MacroNode D → List String
  | .symbol name => if isVariable literals name && name != "..." then [name] else []
  | .list children => patternVariablesInList literals children
  | _ => []

/-- The same of the elements of a list. -/
@[grind =]
def patternVariablesInList (literals : List String) : List (MacroNode D) → List String
  | [] => []
  | child :: rest => patternVariables literals child ++ patternVariablesInList literals rest

end

/-- Every variable occurs once. -/
structure Linear (literals : List String) (pattern : MacroNode D) : Prop where
  wellFormed : WellFormed literals pattern
  nodup : (patternVariables literals pattern).Nodup

/-! ## The parts of a form -/

/-- What a form holds for a part of the pattern. -/
inductive Part (D : Type) where
  /-- a variable -/
  | one (name : String) (form : MacroNode D)
  /-- a literal, which the form has as well -/
  | literal (name : String)
  /-- a repeated variable -/
  | many (name : String) (forms : List (MacroNode D))
  /-- a repeated list of variables -/
  | lists (names : List String) (forms : List (MacroNode D))
  /-- a number, and the one in the form -/
  | number (numval other : D)

/-- The parts for the pattern before an ellipsis. -/
def repeatedParts : MacroNode D → List (MacroNode D) → List (Part D)
  | .symbol name, forms => [.many name forms]
  | .list children, forms =>
    [.lists (children.filterMap fun child =>
      match child with
      | .symbol name => some name
      | _ => none) forms]
  | _, _ => []

mutual

/-- The parts of a form that a pattern matches, those after an ellipsis before the repeated one. -/
def parts (literals : List String) : MacroNode D → MacroNode D → List (Part D)
  | .symbol name, form => if isVariable literals name then [.one name form] else [.literal name]
  | .number numval, .number other => [.number numval other]
  | .list children, .list forms => partsOfList literals children forms
  | _, _ => []

/-- The same of the elements of a list. -/
@[grind =]
def partsOfList (literals : List String) : List (MacroNode D) → List (MacroNode D) → List (Part D)
  | [child], form :: _ => parts literals child form
  | child :: next :: rest, forms =>
    if isEllipsis next then
      partsOfList literals rest (forms.drop (forms.length - rest.length)) ++
        repeatedParts child (forms.take (forms.length - rest.length))
    else
      match forms with
      | form :: forms => parts literals child form ++ partsOfList literals (next :: rest) forms
      | [] => []
  | _, _ => []

end

/-- The elements of a list. -/
def childrenOf : MacroNode D → List (MacroNode D)
  | .list children => children
  | _ => []

/-- The bindings of a part, under their full names. -/
def Part.bindings : Part D → List (MacroBinding D)
  | .one name form => [⟨name, .single form⟩]
  | .literal _ => []
  | .many name forms => [⟨name, .many forms⟩]
  | .lists names forms =>
    forms.flatMap fun form => (names.zip (childrenOf form)).map fun pair => ⟨pair.1, .single pair.2⟩
  | .number _ _ => []

/-- The variable that the table holds under a name, and what it stands for. -/
def holder (ps : List (Part D)) (name : String) : Option (MacroBinding D) :=
  (ps.flatMap Part.bindings).find? fun binding => truncated binding.name == name

/-- A symbol stands for a form when the table holds it under its own name. Otherwise the form is the symbol itself,
or the one that the table holds instead of it. -/
def Stands (ps : List (Part D)) (name : String) (form : MacroNode D) : Prop :=
  match holder ps name with
  | some ⟨other, .single _⟩ => other = name ∨ form = .symbol other
  | _ => form = .symbol name

/-- When the bindings give a part back: what is repeated is there under its own name, or nothing is repeated; lists
are not repeated; and the numbers are the same. -/
def Part.Kept (ps : List (Part D)) : Part D → Prop
  | .one name form => Stands ps name form
  | .literal name => Stands ps name (.symbol name)
  | .many name forms => forms = [] ∨ (holder ps name).map MacroBinding.name = some name
  | .lists _ forms => forms = []
  | .number numval other => numval = other

/-- All parts are given back. -/
def Kept (literals : List String) (pattern form : MacroNode D) : Prop :=
  ∀ part ∈ parts literals pattern form, part.Kept (parts literals pattern form)

mutual

/-- Every number has the kind of literal that its copy has. -/
def Node.LiteralsCopied (beyond : List ℕ → Literal) : Node D → Prop
  | .number _ literal => literal = .copied (beyond [])
  | .list children => LiteralsCopiedInList beyond 0 children
  | _ => True

/-- The same of the children of a list from number `i` on. -/
def LiteralsCopiedInList (beyond : List ℕ → Literal) (i : ℕ) : List (Node D) → Prop
  | [] => True
  | node :: rest =>
    node.LiteralsCopied (fun path => beyond (i :: path)) ∧ LiteralsCopiedInList beyond (i + 1) rest

end

end Vm.SyntaxRules
