import Eshkol.Macro.Ast

/-!
# Replacement in every position

What substitution would be if it replaced the bound names wherever a template has one: also in the fields that hold
a string, in parameters, and in the operations that are copied. An array is repeated the same way everywhere.
`substituteBindings` moreover writes the new body of a match clause into the template that it reads.
-/

namespace Macro

/-- `getSymbolName`. -/
def getSymbolName : Ast → String
  | .var id => id
  | _ => ""

/-- The name that stands in place of a name. -/
@[grind =]
def renamed (bindings : Bindings) (name : String) : String :=
  ((bindings name).bind MatchTree.firstScalar).elim name getSymbolName

/-- The name as a driver, if it is bound to a sequence. -/
@[grind =]
def repeatedName (bindings : Bindings) (name : String) : Option String :=
  if ((bindings name).any MatchTree.isSequence) then some name else none

/-! ## The repeated variable -/

mutual

/-- The first repeated variable in any position. -/
def findDriverAnywhere : Ast → Bindings → Option String
  | .var id, bindings => repeatedName bindings id
  | .cons car cdr, bindings => (findDriverAnywhere car bindings).or (findDriverAnywhere cdr bindings)
  | .call _ func vars, bindings => (findDriverAnywhere func bindings).or (findDriverAnywhereInList vars bindings)
  | .sequence _ expressions, bindings => findDriverAnywhereInList expressions bindings
  | .define name value parameters restParam, bindings =>
    (repeatedName bindings name).or ((findDriverAnywhere value bindings).or
      ((findDriverAnywhereInList parameters bindings).or (restParam.bind (repeatedName bindings))))
  | .lambda parameters restParam body, bindings =>
    (findDriverAnywhereInList parameters bindings).or
      ((restParam.bind (repeatedName bindings)).or (findDriverAnywhere body bindings))
  | .letForm _ name items body, bindings =>
    (name.bind (repeatedName bindings)).or
      ((findDriverAnywhereInList items bindings).or (findDriverAnywhere body bindings))
  | .matchForm expr clauses, bindings =>
    (findDriverAnywhere expr bindings).or (findDriverAnywhereInList clauses bindings)
  | .clause pattern guard body, bindings =>
    (findDriverAnywhere pattern bindings).or
      ((findDriverAnywhere guard bindings).or (findDriverAnywhere body bindings))
  | .setForm name value, bindings => (repeatedName bindings name).or (findDriverAnywhere value bindings)
  | .guardForm varName clauses body, bindings =>
    (repeatedName bindings varName).or
      ((findDriverAnywhereInList clauses bindings).or (findDriverAnywhereInList body bindings))
  | .unary _ operand, bindings => findDriverAnywhere operand bindings
  | .dynamicWind before thunk after, bindings =>
    (findDriverAnywhere before bindings).or
      ((findDriverAnywhere thunk bindings).or (findDriverAnywhere after bindings))
  | .other _ names parts, bindings =>
    (names.findSome? (repeatedName bindings)).or (findDriverAnywhereInList parts bindings)
  | _, _ => none

/-- The same in an array. -/
def findDriverAnywhereInList : List Ast → Bindings → Option String
  | [], _ => none
  | item :: rest, bindings => (findDriverAnywhere item bindings).or (findDriverAnywhereInList rest bindings)

end

/-! ## The replacement -/

mutual

/-- Every occurrence of a bound name is replaced, and nothing else is changed. -/
def replaceAll : Ast → Bindings → Ast
  | .var id, bindings => ((bindings id).bind MatchTree.firstScalar).getD (.var id)
  | .cons car cdr, bindings => .cons (replaceAll car bindings) (replaceAll cdr bindings)
  | .call op func vars, bindings => .call op (replaceAll func bindings) (replaceAllInList vars false bindings)
  | .sequence op expressions, bindings => .sequence op (replaceAllInList expressions false bindings)
  | .define name value parameters restParam, bindings =>
    .define (renamed bindings name) (replaceAll value bindings) (replaceAllInList parameters false bindings)
      (restParam.map (renamed bindings))
  | .lambda parameters restParam body, bindings =>
    .lambda (replaceAllInList parameters false bindings) (restParam.map (renamed bindings)) (replaceAll body bindings)
  | .letForm op name items body, bindings =>
    .letForm op (name.map (renamed bindings)) (replaceAllInList items false bindings) (replaceAll body bindings)
  | .matchForm expr clauses, bindings =>
    .matchForm (replaceAll expr bindings) (replaceAllInList clauses false bindings)
  | .clause pattern guard body, bindings =>
    .clause (replaceAll pattern bindings) (replaceAll guard bindings) (replaceAll body bindings)
  | .setForm name value, bindings => .setForm (renamed bindings name) (replaceAll value bindings)
  | .guardForm varName clauses body, bindings =>
    .guardForm (renamed bindings varName) (replaceAllInList clauses false bindings)
      (replaceAllInList body false bindings)
  | .unary op operand, bindings => .unary op (replaceAll operand bindings)
  | .dynamicWind before thunk after, bindings =>
    .dynamicWind (replaceAll before bindings) (replaceAll thunk bindings) (replaceAll after bindings)
  | .other kind names parts, bindings =>
    .other kind (names.map (renamed bindings)) (replaceAllInList parts false bindings)
  | ast, _ => ast

/-- An item that ellipses follow is repeated. An ellipsis without an item before it stays. -/
@[grind =]
def replaceAllInList : List Ast → Bool → Bindings → List Ast
  | [], _, _ => []
  | item :: rest, counted, bindings =>
    if counted && isEllipsisSymbol item then replaceAllInList rest true bindings
    else
      match ellipsisCount rest with
      | more + 1 =>
        expandEllipsisElementN (findDriverAnywhere item) (fun peeled => [replaceAll item peeled]) more bindings ++
          replaceAllInList rest true bindings
      | 0 => replaceAll item bindings :: replaceAllInList rest false bindings

end

/-! ## Writes into the template -/

mutual

/-- The bodies of match clauses that `substituteBindings` overwrites in the template, each with the new one. -/
def clauseWrites : Ast → Bindings → List (Ast × Ast)
  | .cons car cdr, bindings => clauseWrites car bindings ++ clauseWrites cdr bindings
  | .call _ func vars, bindings => clauseWrites func bindings ++ clauseWritesInList vars false bindings
  | .sequence _ expressions, bindings => clauseWritesInList expressions false bindings
  | .define _ value _ _, bindings => clauseWrites value bindings
  | .lambda _ _ body, bindings => clauseWrites body bindings
  | .letForm _ _ items body, bindings => clauseWritesOfEach items bindings ++ clauseWrites body bindings
  | .matchForm expr clauses, bindings => clauseWrites expr bindings ++ clauseWritesOfEach clauses bindings
  | .clause _ _ body, bindings => clauseWrites body bindings ++ [(body, substituteBindings body bindings)]
  | .setForm _ value, bindings => clauseWrites value bindings
  | .guardForm _ clauses body, bindings =>
    clauseWritesOfEach clauses bindings ++ clauseWritesInList body false bindings
  | .unary _ operand, bindings => clauseWrites operand bindings
  | .dynamicWind before thunk after, bindings =>
    clauseWrites before bindings ++ clauseWrites thunk bindings ++ clauseWrites after bindings
  | _, _ => []

/-- The same along `substituteBindingsInList`. -/
def clauseWritesInList : List Ast → Bool → Bindings → List (Ast × Ast)
  | [], _, _ => []
  | item :: rest, counted, bindings =>
    if counted && isEllipsisSymbol item then clauseWritesInList rest true bindings
    else
      match ellipsisCount rest with
      | more + 1 =>
        expandEllipsisElementN (findEllipsisDriver item) (clauseWrites item) more bindings ++
          clauseWritesInList rest true bindings
      | 0 =>
        if isEllipsisSymbol item then clauseWritesInList rest false bindings
        else clauseWrites item bindings ++ clauseWritesInList rest false bindings

/-- The same along `substituteEach`. -/
def clauseWritesOfEach : List Ast → Bindings → List (Ast × Ast)
  | [], _ => []
  | item :: rest, bindings => clauseWrites item bindings ++ clauseWritesOfEach rest bindings

end

/-- Substitution replaces everything, and leaves the template as it was. -/
structure Replaced (template : Ast) (bindings : Bindings) : Prop where
  result : substituteBindings template bindings = replaceAll template bindings
  writes : ∀ write ∈ clauseWrites template bindings, write.1 = write.2

/-! ## Templates -/

mutual

/-- Whether the names occur nowhere and no item of an array is repeated. -/
def untouched (names : List String) : Ast → Bool
  | .var id => !names.contains id
  | .cons car cdr => untouched names car && untouched names cdr
  | .call _ func vars => untouched names func && untouchedInList names vars
  | .sequence _ expressions => untouchedInList names expressions
  | .define name value parameters restParam =>
    !names.contains name && untouched names value && untouchedInList names parameters &&
      restParam.all fun rest => !names.contains rest
  | .lambda parameters restParam body =>
    untouchedInList names parameters && (restParam.all fun rest => !names.contains rest) && untouched names body
  | .letForm _ name items body =>
    (name.all fun name => !names.contains name) && untouchedInList names items && untouched names body
  | .matchForm expr clauses => untouched names expr && untouchedInList names clauses
  | .clause pattern guard body => untouched names pattern && untouched names guard && untouched names body
  | .setForm name value => !names.contains name && untouched names value
  | .guardForm varName clauses body =>
    !names.contains varName && untouchedInList names clauses && untouchedInList names body
  | .unary _ operand => untouched names operand
  | .dynamicWind before thunk after =>
    untouched names before && untouched names thunk && untouched names after
  | .other _ fields parts => (fields.all fun field => !names.contains field) && untouchedInList names parts
  | .blank => true
  | .nullptr => true
  | .constant _ => true

/-- The same of the items of an array. -/
def untouchedInList (names : List String) : List Ast → Bool
  | [] => true
  | item :: rest => untouched names item && (ellipsisCount rest == 0) && untouchedInList names rest

end

/-- Whether a part of a cons cell is a node. -/
def notNull : Ast → Bool
  | .nullptr => false
  | _ => true

mutual

/-- Whether the names occur only where substitution replaces them, and ellipses only where it repeats an item: not
in match clauses, parameters or an operation of the default case, and not as a name that a node defines, assigns
or binds; and the parts of a cons cell are there. -/
@[grind =]
def settled (names : List String) : Ast → Bool
  | .cons car cdr => notNull car && notNull cdr && settled names car && settled names cdr
  | .call _ func vars => settled names func && settledInList names vars false
  | .sequence _ expressions => settledInList names expressions false
  | .define name value parameters restParam =>
    !names.contains name && settled names value && untouchedInList names parameters &&
      restParam.all fun rest => !names.contains rest
  | .lambda parameters restParam body =>
    untouchedInList names parameters && (restParam.all fun rest => !names.contains rest) && settled names body
  | .letForm _ name items body =>
    (name.all fun name => !names.contains name) && settledEach names items && settled names body
  | .matchForm expr clauses => settled names expr && settledEach names clauses
  | .clause pattern guard body =>
    untouched names pattern && untouched names guard && untouched names body && settled names body
  | .setForm name value => !names.contains name && settled names value
  | .guardForm varName clauses body =>
    !names.contains varName && settledEach names clauses && settledInList names body false
  | .unary _ operand => settled names operand
  | .dynamicWind before thunk after => settled names before && settled names thunk && settled names after
  | .other _ fields parts => (fields.all fun field => !names.contains field) && untouchedInList names parts
  | .var _ => true
  | .blank => true
  | .nullptr => true
  | .constant _ => true

/-- The same of an array in which ellipses are expanded. -/
@[grind =]
def settledInList (names : List String) : List Ast → Bool → Bool
  | [], _ => true
  | item :: rest, counted =>
    if counted && isEllipsisSymbol item then settledInList names rest true
    else
      match ellipsisCount rest with
      | _ + 1 => settled names item && settledInList names rest true
      | 0 => !isEllipsisSymbol item && settled names item && settledInList names rest false

/-- The same of an array in which they are not. -/
@[grind =]
def settledEach (names : List String) : List Ast → Bool
  | [] => true
  | item :: rest => settled names item && (ellipsisCount rest == 0) && settledEach names rest

end

end Macro
