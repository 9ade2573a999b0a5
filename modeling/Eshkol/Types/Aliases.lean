import Eshkol.Types.Promotion

/-!
# Type expressions, aliases and their resolution

`define-type` puts a name for a type expression into the context, with parameters or without.
Instantiating an alias replaces its parameters in its expression; resolving an expression looks
the aliases up that it names and gives the id of a type.
-/

namespace Types

/-! ## Type expressions -/

/-- The kinds of `hott_type_kind_t` without a payload. -/
inductive PrimitiveKind where
  | invalid | integer | real | number | boolean | string | char | symbol | null | any | nothing
  | dependent | path
deriving DecidableEq

inductive ContainerKind where
  | list | vector | tensor | pointer
deriving DecidableEq

inductive PairKind where
  | pair | product | sum
deriving DecidableEq

/-- `hott_type_expr_t`. -/
inductive TypeExpr where
  /-- a null pointer, where a field may hold one -/
  | nullptr
  | primitive (kind : PrimitiveKind)
  | var (name : String)
  | arrow (params : List TypeExpr) (returnType : TypeExpr)
  | forallType (typeVars : List String) (body : TypeExpr)
  | container (kind : ContainerKind) (elementType : TypeExpr)
  | pair (kind : PairKind) (left right : TypeExpr)
  | universeType (level : UInt32)

/-- A property holds of all type expressions when each kind has it as soon as its parts do. -/
@[elab_as_elim, induction_eliminator]
lemma TypeExpr.induct {motive : TypeExpr → Prop} (nullptr : motive .nullptr)
    (primitive : ∀ kind, motive (.primitive kind)) (var : ∀ name, motive (.var name))
    (arrow : ∀ params returnType, (∀ t ∈ params, motive t) → motive returnType →
      motive (.arrow params returnType))
    (forallType : ∀ typeVars body, motive body → motive (.forallType typeVars body))
    (container : ∀ kind elementType, motive elementType → motive (.container kind elementType))
    (pair : ∀ kind left right, motive left → motive right → motive (.pair kind left right))
    (universeType : ∀ level, motive (.universeType level)) (t : TypeExpr) : motive t := by
  have rest (u : TypeExpr) (_ : sizeOf u < sizeOf t) : motive u :=
    TypeExpr.induct nullptr primitive var arrow forallType container pair universeType u
  cases t with
  | nullptr => exact nullptr
  | primitive kind => exact primitive kind
  | var name => exact var name
  | arrow params returnType =>
    refine arrow params returnType (fun u hu => rest u ?_) (rest returnType (by simp +arith))
    have hlt := List.sizeOf_lt_of_mem hu
    simp only [TypeExpr.arrow.sizeOf_spec]
    omega
  | forallType typeVars body => exact forallType typeVars body (rest body (by simp +arith))
  | container kind elementType =>
    exact container kind elementType (rest elementType (by simp +arith))
  | pair kind left right =>
    exact pair kind left right (rest left (by simp +arith)) (rest right (by simp +arith))
  | universeType level => exact universeType level
termination_by sizeOf t

/-! ## Substitution -/

/-- `std::map<std::string, hott_type_expr_t*>`. -/
abbrev Substitutions := Std.TreeMap String TypeExpr

mutual

/-- `substituteTypeVars`: at a forall, its variables are taken out of the substitutions. -/
def substituteTypeVars : TypeExpr → Substitutions → TypeExpr
  | .var name, substitutions => (substitutions[name]?).getD (.var name)
  | .arrow params returnType, substitutions =>
    .arrow (substituteInParams params substitutions) (substituteTypeVars returnType substitutions)
  | .forallType typeVars body, substitutions =>
    .forallType typeVars
      (substituteTypeVars body (typeVars.foldl (fun inner v => inner.erase v) substitutions))
  | .container kind elementType, substitutions =>
    .container kind (substituteTypeVars elementType substitutions)
  | .pair kind left right, substitutions =>
    .pair kind (substituteTypeVars left substitutions) (substituteTypeVars right substitutions)
  | .nullptr, _ => .nullptr
  | .primitive kind, _ => .primitive kind
  | .universeType level, _ => .universeType level

/-- The loop over the parameter types in `substituteTypeVars`. -/
def substituteInParams : List TypeExpr → Substitutions → List TypeExpr
  | [], _ => []
  | t :: rest, substitutions =>
    substituteTypeVars t substitutions :: substituteInParams rest substitutions

end

/-! ## Aliases -/

/-- The aliases of `Context`. -/
structure Context where
  typeAliases : Std.TreeMap String TypeExpr
  typeAliasParams : Std.TreeMap String (List String)

namespace Context

def empty : Context := ⟨∅, ∅⟩

/-- `defineTypeAlias`. -/
def defineTypeAlias (ctx : Context) (name : String) (typeExpr : TypeExpr) (params : List String) :
    Context :=
  let ctx := { ctx with typeAliases := ctx.typeAliases.insert name typeExpr }
  if params.isEmpty then ctx
  else { ctx with typeAliasParams := ctx.typeAliasParams.insert name params }

/-- `getTypeAliasParams`. -/
def getTypeAliasParams (ctx : Context) (name : String) : List String :=
  (ctx.typeAliasParams[name]?).getD []

/-- `lookupTypeAlias`. -/
def lookupTypeAlias (ctx : Context) (name : String) : Option TypeExpr := ctx.typeAliases[name]?

/-- `instantiateTypeAlias`; what it copies it returns as it is. -/
def instantiateTypeAlias (ctx : Context) (name : String) (typeArgs : List TypeExpr) :
    Option TypeExpr :=
  match ctx.typeAliases[name]? with
  | none => none
  | some typeExpr =>
    match ctx.typeAliasParams[name]? with
    | none => some typeExpr
    | some params =>
      some (substituteTypeVars typeExpr
        ((params.zip typeArgs).foldl (fun s (param, arg) => s.insert param arg) ∅))

end Context

/-- A `define-type` form. -/
structure AliasDefinition where
  name : String
  params : List String
  typeExpr : TypeExpr

/-- The context after `define-type` forms. -/
def contextAfter (definitions : List AliasDefinition) : Context :=
  definitions.foldl (fun ctx d => ctx.defineTypeAlias d.name d.typeExpr d.params) .empty

/-! ## Resolution -/

namespace BuiltinTypes

def string : TypeId := ⟨21, .u0, 0⟩
def char : TypeId := ⟨22, .u0, typeFlagExact⟩
def boolean : TypeId := ⟨25, .u0, typeFlagExact⟩
def symbol : TypeId := ⟨27, .u0, 0⟩
def list : TypeId := ⟨100, .u1, 0⟩
def vector : TypeId := ⟨101, .u1, 0⟩
def tensor : TypeId := ⟨104, .u1, 0⟩
def pointer : TypeId := ⟨109, .u1, 0⟩

end BuiltinTypes

/-- `lookupType` in `name_to_id_`: the name as it is, else in lower case. -/
def lookupType (nameToId : Std.TreeMap String TypeId) (name : String) : Option TypeId :=
  nameToId[name]?.or nameToId[name.map Char.toLower]?

/-- The type of a primitive kind in `resolveType`. -/
def PrimitiveKind.resolved : PrimitiveKind → TypeId
  | integer => BuiltinTypes.int64
  | real => BuiltinTypes.float64
  | string => BuiltinTypes.string
  | boolean => BuiltinTypes.boolean
  | char => BuiltinTypes.char
  | null => BuiltinTypes.null
  | symbol => BuiltinTypes.symbol
  | _ => BuiltinTypes.value

/-- The type of a container in `resolveType`. -/
def ContainerKind.resolved : ContainerKind → TypeId
  | list => BuiltinTypes.list
  | vector => BuiltinTypes.vector
  | tensor => BuiltinTypes.tensor
  | pointer => BuiltinTypes.pointer

section

variable (ctx : Context) (nameToId : Std.TreeMap String TypeId)
  (resolveAlias : TypeExpr → StateT TypeEnvironment Option TypeId)

mutual

/-- `resolveType`, which asks `resolveAlias` about the expression of an alias. -/
def resolveTypeWith : TypeExpr → StateT TypeEnvironment Option TypeId
  | .nullptr => pure BuiltinTypes.value
  | .primitive kind => pure kind.resolved
  | .var name =>
    match ctx.lookupTypeAlias name with
    | some typeExpr => resolveAlias typeExpr
    | none => pure ((lookupType nameToId name).getD BuiltinTypes.value)
  | .arrow params returnType => do
    let paramTypes ← resolveParamsWith params
    let returnType ← resolveTypeWith returnType
    fun env => some (env.makeFunctionType paramTypes returnType false)
  | .container kind _ => pure kind.resolved
  | .pair _ _ _ => pure BuiltinTypes.pair
  | .forallType _ body => resolveTypeWith body
  | .universeType _ => pure BuiltinTypes.value

/-- The loop over the parameter types in `resolveType`. -/
def resolveParamsWith : List TypeExpr → StateT TypeEnvironment Option (List TypeId)
  | [] => pure []
  | t :: rest => do
    let type ← resolveTypeWith t
    let types ← resolveParamsWith rest
    pure (type :: types)

end

end

/-- `resolveType`, so many aliases deep. -/
def resolveTypeWithin (ctx : Context) (nameToId : Std.TreeMap String TypeId) :
    ℕ → TypeExpr → StateT TypeEnvironment Option TypeId
  | 0 => fun _ _ => none
  | depth + 1 => resolveTypeWith ctx nameToId (resolveTypeWithin ctx nameToId depth)

end Types
