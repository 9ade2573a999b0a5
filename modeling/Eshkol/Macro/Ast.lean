import Mathlib.Data.List.Basic
import Mathlib.Data.List.Flatten

/-!
# Syntax trees of the frontend

The nodes that the macro expander walks through, each with the fields that it reads or hands on. A name in a
field is a string, not a node. What a pattern variable stands for is a tree of sequences, one level for every
ellipsis above it.
-/

namespace Macro

/-- The operations that share the fields of a call. -/
inductive CallOp where
  | call
  | quasiquote
  | unquote
  | unquoteSplicing
  | quote
  | cond
  | case
  | when
  | unless
  | doLoop
deriving DecidableEq

/-- The operations that hold an array of expressions. -/
inductive SequenceOp where
  | sequence
  | and
  | or
  | values
deriving DecidableEq

/-- The operations that share the fields of `let`. -/
inductive LetOp where
  | letOp
  | letStar
  | letrec
  | letrecStar
deriving DecidableEq

/-- The operations with one operand. -/
inductive UnaryOp where
  | raise
  | callCc
deriving DecidableEq

/-- `eshkol_ast_t`. -/
inductive Ast where
  /-- `eshkol_ast_t{}` -/
  | blank
  /-- a null pointer, where a field may hold one -/
  | nullptr
  /-- a number, a string, a character or another atom, as written -/
  | constant (text : String)
  | var (id : String)
  | cons (car cdr : Ast)
  | call (op : CallOp) (func : Ast) (vars : List Ast)
  | sequence (op : SequenceOp) (expressions : List Ast)
  | define (name : String) (value : Ast) (parameters : List Ast) (restParam : Option String)
  | lambda (parameters : List Ast) (restParam : Option String) (body : Ast)
  | letForm (op : LetOp) (name : Option String) (bindings : List Ast) (body : Ast)
  | matchForm (expr : Ast) (clauses : List Ast)
  /-- `eshkol_match_clause_t`, in the clauses of a `match` only -/
  | clause (pattern guard body : Ast)
  | setForm (name : String) (value : Ast)
  | guardForm (varName : String) (clauses body : List Ast)
  | unary (op : UnaryOp) (operand : Ast)
  | dynamicWind (before thunk after : Ast)
  /-- any other operation, function, tensor or match pattern: its names and nodes, in the order of its fields -/
  | other (kind : ℕ) (names : List String) (parts : List Ast)

/-- A property holds of all trees when each kind of node has it as soon as its parts do. -/
@[elab_as_elim, induction_eliminator]
lemma Ast.induct {motive : Ast → Prop} (blank : motive .blank) (nullptr : motive .nullptr)
    (constant : ∀ text, motive (.constant text)) (var : ∀ id, motive (.var id))
    (cons : ∀ car cdr, motive car → motive cdr → motive (.cons car cdr))
    (call : ∀ op func vars, motive func → (∀ t ∈ vars, motive t) → motive (.call op func vars))
    (sequence : ∀ op expressions, (∀ t ∈ expressions, motive t) → motive (.sequence op expressions))
    (define : ∀ name value parameters restParam, motive value → (∀ t ∈ parameters, motive t) →
      motive (.define name value parameters restParam))
    (lambda : ∀ parameters restParam body, (∀ t ∈ parameters, motive t) → motive body →
      motive (.lambda parameters restParam body))
    (letForm : ∀ op name bindings body, (∀ t ∈ bindings, motive t) → motive body →
      motive (.letForm op name bindings body))
    (matchForm : ∀ expr clauses, motive expr → (∀ t ∈ clauses, motive t) → motive (.matchForm expr clauses))
    (clause : ∀ pattern guard body, motive pattern → motive guard → motive body →
      motive (.clause pattern guard body))
    (setForm : ∀ name value, motive value → motive (.setForm name value))
    (guardForm : ∀ varName clauses body, (∀ t ∈ clauses, motive t) → (∀ t ∈ body, motive t) →
      motive (.guardForm varName clauses body))
    (unary : ∀ op operand, motive operand → motive (.unary op operand))
    (dynamicWind : ∀ before thunk after, motive before → motive thunk → motive after →
      motive (.dynamicWind before thunk after))
    (other : ∀ kind names parts, (∀ t ∈ parts, motive t) → motive (.other kind names parts))
    (ast : Ast) : motive ast := by
  have rest (t : Ast) (_ : sizeOf t < sizeOf ast) : motive t :=
    Ast.induct blank nullptr constant var cons call sequence define lambda letForm matchForm clause setForm
      guardForm unary dynamicWind other t
  have mem {ts : List Ast} (h : sizeOf ts < sizeOf ast) (t : Ast) (ht : t ∈ ts) : motive t :=
    rest t (Nat.lt_trans (List.sizeOf_lt_of_mem ht) h)
  cases ast with
  | blank => exact blank
  | nullptr => exact nullptr
  | constant text => exact constant text
  | var id => exact var id
  | cons car cdr => exact cons car cdr (rest car (by simp +arith)) (rest cdr (by simp +arith))
  | call op func vars => exact call op func vars (rest func (by simp +arith)) (mem (by simp +arith))
  | sequence op expressions => exact sequence op expressions (mem (by simp +arith))
  | define name value parameters restParam =>
    exact define name value parameters restParam (rest value (by simp +arith)) (mem (by simp +arith))
  | lambda parameters restParam body =>
    exact lambda parameters restParam body (mem (by simp +arith)) (rest body (by simp +arith))
  | letForm op name bindings body =>
    exact letForm op name bindings body (mem (by simp +arith)) (rest body (by simp +arith))
  | matchForm expr clauses => exact matchForm expr clauses (rest expr (by simp +arith)) (mem (by simp +arith))
  | clause pattern guard body =>
    exact clause pattern guard body (rest pattern (by simp +arith)) (rest guard (by simp +arith))
      (rest body (by simp +arith))
  | setForm name value => exact setForm name value (rest value (by simp +arith))
  | guardForm varName clauses body =>
    exact guardForm varName clauses body (mem (by simp +arith)) (mem (by simp +arith))
  | unary op operand => exact unary op operand (rest operand (by simp +arith))
  | dynamicWind before thunk after =>
    exact dynamicWind before thunk after (rest before (by simp +arith)) (rest thunk (by simp +arith))
      (rest after (by simp +arith))
  | other kind names parts => exact other kind names parts (mem (by simp +arith))
termination_by sizeOf ast

/-- `MatchTree`: what one name stands for. A sequence counts the levels below its elements. -/
inductive MatchTree where
  | scalar (ast : Ast)
  | sequence (depth : ℕ) (elements : List MatchTree)

namespace MatchTree

/-- A tree of a depth with nothing in it. -/
def empty : ℕ → MatchTree
  | 0 => .scalar .blank
  | depth + 1 => .sequence depth []

/-- The repetitions at the outermost level. -/
def elements : MatchTree → List MatchTree
  | .scalar _ => []
  | .sequence _ elements => elements

/-- Whether there is such a level. -/
def isSequence : MatchTree → Bool
  | .scalar _ => false
  | .sequence _ _ => true

/-- `matchTreeFirstScalar`, for a tree with `matchTreeHasValue`. Where the source would read the front of an
empty vector there is no value. -/
def firstScalar : MatchTree → Option Ast
  | .scalar ast => some ast
  | .sequence _ [] => none
  | .sequence _ (first :: _) => firstScalar first

/-- The tree at one repetition, from `peelBindingsAtIndex`. -/
def peel (index : ℕ) : MatchTree → MatchTree
  | .scalar ast => .scalar ast
  | .sequence depth elements =>
    match elements[min index (elements.length - 1)]? with
    | some element => element
    | none => empty depth

end MatchTree

/-- `Bindings`, a map from names. -/
abbrev Bindings := String → Option MatchTree

/-- `peelBindingsAtIndex`. -/
@[grind =]
def peelBindingsAtIndex (bindings : Bindings) (index : ℕ) : Bindings :=
  fun name => (bindings name).map (MatchTree.peel index)

end Macro

/-!
## Substitution into templates

Variables are replaced where a node stands for one, and an item of an array that ellipses follow is repeated
as often as the first repeated variable found in it. Fields that hold a name, parameters, match patterns and
the operations of the default case are copied.
-/

namespace Macro

/-- `isEllipsisSymbol`. -/
@[grind =]
def isEllipsisSymbol : Ast → Bool
  | .var id => id == "..."
  | _ => false

/-- How many ellipses an array begins with. -/
@[grind =]
def ellipsisCount (items : List Ast) : ℕ := (items.takeWhile isEllipsisSymbol).length

/-- What `substituteBindings` puts in place of a null part of a cons cell. -/
def orBlank : Ast → Ast
  | .nullptr => .blank
  | ast => ast

/-! ## The driver -/

mutual

/-- `findEllipsisDriver`. -/
@[grind =]
def findEllipsisDriver : Ast → Bindings → Option String
  | .var id, bindings => if ((bindings id).any MatchTree.isSequence) then some id else none
  | .cons car cdr, bindings => (findEllipsisDriver car bindings).or (findEllipsisDriver cdr bindings)
  | .call _ func vars, bindings => (findEllipsisDriver func bindings).or (findDriverInList vars bindings)
  | .sequence _ expressions, bindings => findDriverInList expressions bindings
  | .define _ value _ _, bindings => findEllipsisDriver value bindings
  | .lambda _ _ body, bindings => findEllipsisDriver body bindings
  | .letForm _ _ items body, bindings => (findDriverInList items bindings).or (findEllipsisDriver body bindings)
  | .matchForm expr clauses, bindings => (findEllipsisDriver expr bindings).or (findDriverInList clauses bindings)
  | .clause _ _ body, bindings => findEllipsisDriver body bindings
  | .setForm _ value, bindings => findEllipsisDriver value bindings
  | .guardForm _ clauses body, bindings => (findDriverInList clauses bindings).or (findDriverInList body bindings)
  | .unary _ operand, bindings => findEllipsisDriver operand bindings
  | .dynamicWind before thunk after, bindings =>
    (findEllipsisDriver before bindings).or
      ((findEllipsisDriver thunk bindings).or (findEllipsisDriver after bindings))
  | _, _ => none

/-- The loop over an array in `findEllipsisDriver`. -/
@[grind =]
def findDriverInList : List Ast → Bindings → Option String
  | [], _ => none
  | item :: rest, bindings => (findEllipsisDriver item bindings).or (findDriverInList rest bindings)

end

/-! ## Repetition -/

/-- What `inner` gives for every repetition of the driver, or what `visit` gives when there is none. -/
def overRepetitions {α : Type} (driver : Bindings → Option String) (visit inner : Bindings → List α)
    (bindings : Bindings) : List α :=
  match driver bindings with
  | none => visit bindings
  | some drive =>
    (List.range ((bindings drive).elim [] MatchTree.elements).length).flatMap fun i =>
      inner (peelBindingsAtIndex bindings i)

/-- `expandEllipsisElementN` for one ellipsis and `more`, where `visit` substitutes the element. -/
@[grind =]
def expandEllipsisElementN {α : Type} (driver : Bindings → Option String) (visit : Bindings → List α) :
    ℕ → Bindings → List α
  | 0 => overRepetitions driver visit visit
  | more + 1 => overRepetitions driver visit (expandEllipsisElementN driver visit more)

mutual

/-- `substituteBindings`. -/
@[grind =]
def substituteBindings : Ast → Bindings → Ast
  | .var id, bindings => ((bindings id).bind MatchTree.firstScalar).getD (.var id)
  | .cons car cdr, bindings =>
    .cons (orBlank (substituteBindings car bindings)) (orBlank (substituteBindings cdr bindings))
  | .call op func vars, bindings =>
    .call op (substituteBindings func bindings) (substituteBindingsInList vars false bindings)
  | .sequence op expressions, bindings => .sequence op (substituteBindingsInList expressions false bindings)
  | .define name value parameters restParam, bindings =>
    .define name (substituteBindings value bindings) parameters restParam
  | .lambda parameters restParam body, bindings => .lambda parameters restParam (substituteBindings body bindings)
  | .letForm op name items body, bindings =>
    .letForm op name (substituteEach items bindings) (substituteBindings body bindings)
  | .matchForm expr clauses, bindings =>
    .matchForm (substituteBindings expr bindings) (substituteEach clauses bindings)
  | .clause pattern guard body, bindings => .clause pattern guard (substituteBindings body bindings)
  | .setForm name value, bindings => .setForm name (substituteBindings value bindings)
  | .guardForm varName clauses body, bindings =>
    .guardForm varName (substituteEach clauses bindings) (substituteBindingsInList body false bindings)
  | .unary op operand, bindings => .unary op (substituteBindings operand bindings)
  | .dynamicWind before thunk after, bindings =>
    .dynamicWind (substituteBindings before bindings) (substituteBindings thunk bindings)
      (substituteBindings after bindings)
  | ast, _ => ast

/-- `substituteBindingsInList`; the flag tells that the ellipses at the beginning belong to the item before. -/
@[grind =]
def substituteBindingsInList : List Ast → Bool → Bindings → List Ast
  | [], _, _ => []
  | item :: rest, counted, bindings =>
    if counted && isEllipsisSymbol item then substituteBindingsInList rest true bindings
    else
      match ellipsisCount rest with
      | more + 1 =>
        expandEllipsisElementN (findEllipsisDriver item) (fun peeled => [substituteBindings item peeled]) more
          bindings ++ substituteBindingsInList rest true bindings
      | 0 =>
        -- a misplaced ellipsis is reported and skipped
        if isEllipsisSymbol item then substituteBindingsInList rest false bindings
        else substituteBindings item bindings :: substituteBindingsInList rest false bindings

/-- The loop over bindings or clauses, which takes each item as it is. -/
def substituteEach : List Ast → Bindings → List Ast
  | [], _ => []
  | item :: rest, bindings => substituteBindings item bindings :: substituteEach rest bindings

end

end Macro
