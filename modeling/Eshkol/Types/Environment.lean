import Eshkol.Base.Interning

/-!
# The type environment of the checker

Types are known by 16-bit ids. Built-in and user-defined types have a node with a supertype in the
type graph; pair types and function types are interned by their components and have no node. Subtype
queries are answered from a memo table when they were asked before.
-/

namespace Types

/-! ## Types -/

/-- `Universe`. -/
inductive Universe where
  | u0 | u1 | u2 | uOmega

/-- `TYPE_FLAG_EXACT`. -/
def typeFlagExact : UInt8 := 1

/-- `TYPE_FLAG_LINEAR`. -/
def typeFlagLinear : UInt8 := 2

/-- `TYPE_FLAG_PROOF`. -/
def typeFlagProof : UInt8 := 4

/-- `RuntimeRep`. -/
inductive RuntimeRep where
  | int8 | int16 | int32 | int64 | uint8 | uint16 | uint32 | uint64 | float32 | float64 | pointer
  | taggedValue | struct | erased

structure TypeId where
  id : UInt16
  level : Universe
  flags : UInt8

/-- `operator==`: by number. -/
instance : BEq TypeId := ⟨fun a b => a.id == b.id⟩

@[simp] lemma typeId_beq {a b : TypeId} : (a == b) = true ↔ a.id = b.id :=
  beq_iff_eq (a := a.id)

/-- `TypeNode::Origin`. -/
inductive Origin where
  | builtin | userDefined

structure TypeNode where
  id : TypeId
  name : String
  supertype : Option TypeId := none
  subtypes : List TypeId := []
  paramNames : List String := []
  runtimeRep : RuntimeRep
  isTypeFamily : Bool := false
  origin : Origin := .builtin

/-- The node of a user-defined type. -/
def TypeNode.userNode (id : TypeId) (name : String) (supertype : Option TypeId) : TypeNode :=
  { id, name, supertype, runtimeRep := .taggedValue, origin := .userDefined }

/-- `PiType::Parameter`. -/
structure Parameter where
  name : String
  type : TypeId
  isValueParam : Bool

/-- `PiType`. -/
structure PiFunctionType where
  params : List Parameter
  returnType : TypeId
  isDependent : Bool
  isVariadic : Bool := false

/-- The signature that `makeFunctionType` stores. -/
def PiFunctionType.make (paramTypes : List TypeId) (returnType : TypeId) (isVariadic : Bool) :
    PiFunctionType :=
  ⟨paramTypes.map (⟨"", ·, false⟩), returnType, false, isVariadic⟩

/-- The signature that `makeFunctionType` looks for. -/
def PiFunctionType.hasTypes (paramTypes : List TypeId) (returnType : TypeId) (isVariadic : Bool)
    (signature : PiFunctionType) : Bool :=
  signature.returnType == returnType && signature.params.length == paramTypes.length &&
    signature.isVariadic == isVariadic &&
    (signature.params.zip paramTypes).all fun (p, t) => p.type == t

/-- The order of `std::pair<uint16_t, uint16_t>`. -/
abbrev pairOrder : UInt16 × UInt16 → UInt16 × UInt16 → Ordering :=
  compareLex (compareOn Prod.fst) (compareOn Prod.snd)

structure TypeEnvironment where
  types : Std.TreeMap UInt16 TypeNode
  nextUserId : UInt16
  subtypeCache : Std.TreeMap (UInt16 × UInt16) Bool pairOrder
  functionTypeCache : Std.TreeMap UInt16 PiFunctionType
  nextFunctionTypeId : UInt16
  pairElementCache : Std.TreeMap UInt16 (TypeId × TypeId)
  nextPairTypeId : UInt16

namespace TypeEnvironment

/-! ## Registration -/

/-- `addSubtype`. -/
def addSubtype (env : TypeEnvironment) (supertype subtype : TypeId) : TypeEnvironment :=
  { env with types := env.types.modify supertype.id fun node =>
      { node with subtypes := node.subtypes ++ [subtype] } }

/-- A node, under its own id and among the subtypes of its supertype. -/
@[grind =]
def addNode (env : TypeEnvironment) (node : TypeNode) : TypeEnvironment :=
  let env := { env with types := env.types.insert node.id.id node }
  match node.supertype with
  | none => env
  | some supertype => env.addSubtype supertype node.id

/-- `registerUserType`. -/
def registerUserType (env : TypeEnvironment) (name : String) (level : Universe) (flags : UInt8)
    (supertype : Option TypeId) : TypeId × TypeEnvironment :=
  let id : TypeId := ⟨env.nextUserId, level, flags⟩
  let env := { env with nextUserId := env.nextUserId + 1 }
  (id, env.addNode (.userNode id name supertype))

/-- `makeFunctionType`. -/
def makeFunctionType (env : TypeEnvironment) (paramTypes : List TypeId) (returnType : TypeId)
    (isVariadic : Bool) : TypeId × TypeEnvironment :=
  let (id, cache, next) := Interning.intern env.functionTypeCache env.nextFunctionTypeId
    (PiFunctionType.hasTypes paramTypes returnType isVariadic) (.make paramTypes returnType isVariadic)
  (⟨id, .u0, 0⟩, { env with functionTypeCache := cache, nextFunctionTypeId := next })

/-- `makePairType`. -/
def makePairType (env : TypeEnvironment) (carType cdrType : TypeId) : TypeId × TypeEnvironment :=
  let found : TypeId × TypeId → Bool := fun elements => elements.1 == carType && elements.2 == cdrType
  let (id, cache, next) :=
    Interning.intern env.pairElementCache env.nextPairTypeId found (carType, cdrType)
  (⟨id, .u1, 0⟩, { env with pairElementCache := cache, nextPairTypeId := next })

/-! ## Lookup -/

/-- `getTypeNode`. -/
def getTypeNode (env : TypeEnvironment) (id : TypeId) : Option TypeNode := env.types[id.id]?

/-- `getFunctionType`. -/
def getFunctionType (env : TypeEnvironment) (id : TypeId) : Option PiFunctionType := env.functionTypeCache[id.id]?

/-- `getPairElementTypes`. -/
def getPairElementTypes (env : TypeEnvironment) (id : TypeId) : Option (TypeId × TypeId) :=
  env.pairElementCache[id.id]?

/-- `isTrackedPairType`. -/
def isTrackedPairType (env : TypeEnvironment) (id : TypeId) : Bool := env.pairElementCache.contains id.id

end TypeEnvironment

/-! ## Built-in types -/

/-- A call of `registerBuiltinType`. -/
def builtin (id : UInt16) (name : String) (level : Universe) (flags : UInt8) (rep : RuntimeRep)
    (supertype : Option TypeId) : TypeNode :=
  { id := ⟨id, level, flags⟩, name, supertype, runtimeRep := rep }

/-- A call of `registerTypeFamily`, and the flags that are set afterwards. -/
def family (id : UInt16) (name : String) (paramNames : List String) (rep : RuntimeRep) (flags : UInt8) :
    TypeNode :=
  { id := ⟨id, .u1, flags⟩, name, paramNames, runtimeRep := rep, isTypeFamily := true }

namespace BuiltinTypes

def invalid : TypeId := ⟨0, .u0, 0⟩
def value : TypeId := ⟨10, .u0, 0⟩
def number : TypeId := ⟨11, .u0, 0⟩
def integer : TypeId := ⟨12, .u0, typeFlagExact⟩
def int64 : TypeId := ⟨13, .u0, typeFlagExact⟩
def real : TypeId := ⟨15, .u0, 0⟩
def complex : TypeId := ⟨18, .u0, 0⟩
def text : TypeId := ⟨20, .u0, 0⟩
def null : TypeId := ⟨26, .u0, 0⟩
def pair : TypeId := ⟨102, .u1, 0⟩

end BuiltinTypes

open BuiltinTypes in
/-- What `initializeBuiltinTypes` registers, in order. -/
def builtinTypes : List TypeNode := [
  builtin 1 "Type0" .u1 0 .erased none,
  builtin 2 "Type1" .u2 0 .erased none,
  builtin 3 "Type2" .uOmega 0 .erased none,
  builtin 10 "Value" .u0 0 .taggedValue none,
  builtin 11 "Number" .u0 0 .taggedValue value,
  builtin 12 "Integer" .u0 typeFlagExact .int64 number,
  builtin 28 "Int8" .u0 typeFlagExact .int8 integer,
  builtin 29 "Int16" .u0 typeFlagExact .int16 integer,
  builtin 30 "Int32" .u0 typeFlagExact .int32 integer,
  builtin 13 "Int64" .u0 typeFlagExact .int64 integer,
  builtin 31 "ISize" .u0 typeFlagExact .int64 integer,
  builtin 14 "Natural" .u0 typeFlagExact .uint64 integer,
  builtin 32 "UInt8" .u0 typeFlagExact .uint8 integer,
  builtin 33 "UInt16" .u0 typeFlagExact .uint16 integer,
  builtin 34 "UInt32" .u0 typeFlagExact .uint32 integer,
  builtin 35 "UInt64" .u0 typeFlagExact .uint64 integer,
  builtin 36 "USize" .u0 typeFlagExact .uint64 integer,
  builtin 24 "BigInt" .u0 typeFlagExact .pointer integer,
  builtin 15 "Real" .u0 0 .float64 number,
  builtin 16 "Float64" .u0 0 .float64 real,
  builtin 17 "Float32" .u0 0 .float64 real,
  builtin 18 "Complex" .u0 0 .struct number,
  builtin 19 "Complex64" .u0 0 .struct complex,
  builtin 23 "Complex128" .u0 0 .struct complex,
  builtin 20 "Text" .u0 0 .pointer value,
  builtin 21 "String" .u0 0 .pointer text,
  builtin 22 "Char" .u0 typeFlagExact .int64 text,
  builtin 25 "Boolean" .u0 typeFlagExact .int64 value,
  builtin 26 "Null" .u0 0 .int64 value,
  builtin 27 "Symbol" .u0 0 .pointer value,
  family 100 "List" ["a"] .pointer 0,
  family 101 "Vector" ["a"] .pointer 0,
  family 102 "Pair" ["a", "b"] .pointer 0,
  family 103 "->" ["a", "b"] .pointer 0,
  family 104 "Tensor" ["a", "shape"] .pointer 0,
  family 109 "Ptr" ["a"] .pointer 0,
  family 105 "Closure" ["a", "b"] .pointer 0,
  family 106 "Dual" ["a"] .struct 0,
  family 107 "ADNode" ["a"] .pointer 0,
  family 108 "HashTable" ["k", "v"] .pointer 0,
  family 110 "Handle" ["k"] .pointer typeFlagLinear,
  family 111 "Buffer" ["a", "n"] .pointer 0,
  family 112 "Stream" ["a"] .pointer typeFlagLinear,
  builtin 200 "Eq" .u2 typeFlagProof .erased none,
  builtin 201 "<" .u2 typeFlagProof .erased none,
  builtin 202 "Bounded" .u2 typeFlagProof .erased none,
  builtin 203 "<:" .u2 typeFlagProof .erased none]

/-- Nothing registered yet. -/
def emptyEnvironment : TypeEnvironment where
  types := ∅
  nextUserId := 1000
  subtypeCache := ∅
  functionTypeCache := ∅
  nextFunctionTypeId := 500
  pairElementCache := ∅
  nextPairTypeId := 300

/-- The constructor of `TypeEnvironment`. -/
def initial : TypeEnvironment := builtinTypes.foldl .addNode emptyEnvironment

namespace TypeEnvironment

/-! ## Subtyping -/

/-- The loop of `isSubtypeUncached` along the supertypes of a node. -/
def walkSupertypes (env : TypeEnvironment) (super : TypeId) : ℕ → TypeNode → Option Bool
  | 0, _ => none
  | fuel + 1, node =>
    match node.supertype with
    | none => some false
    | some supertype =>
      if supertype == super then some true
      else match env.getTypeNode supertype with
        | none => some false
        | some node => env.walkSupertypes super fuel node

/-- `isSubtypeUncached`, which asks `isSubtype` about pairs. A walk that passes more nodes than there
are passes one twice and never ends. -/
def isSubtypeUncachedWith
    (isSubtype : TypeEnvironment → TypeId → TypeId → Option (Bool × TypeEnvironment))
    (env : TypeEnvironment) (sub super : TypeId) : Option (Bool × TypeEnvironment) :=
  if sub == super then some (true, env)
  else if env.isTrackedPairType sub then
    if super == BuiltinTypes.pair then some (true, env) else isSubtype env BuiltinTypes.pair super
  else match env.getTypeNode sub with
    | none => some (false, env)
    | some node => (env.walkSupertypes super (env.types.size + 1) node).map (·, env)

/-- `isSubtype`, so many calls deep. -/
def isSubtypeWithin : ℕ → TypeEnvironment → TypeId → TypeId → Option (Bool × TypeEnvironment)
  | 0, _, _, _ => none
  | depth + 1, env, sub, super =>
    match env.subtypeCache[(sub.id, super.id)]? with
    | some result => some (result, env)
    | none =>
      (isSubtypeUncachedWith (isSubtypeWithin depth) env sub super).map fun (result, env) =>
        (result, { env with subtypeCache := env.subtypeCache.insert (sub.id, super.id) result })

/-- `isSubtype`. The only call that it makes is about `Pair`; if that makes a call too, it is the same
one, and so on for ever. -/
def isSubtype (env : TypeEnvironment) (sub super : TypeId) : Option (Bool × TypeEnvironment) :=
  isSubtypeWithin 2 env sub super

/-- `isSubtypeUncached`. -/
def isSubtypeUncached (env : TypeEnvironment) (sub super : TypeId) : Option (Bool × TypeEnvironment) :=
  isSubtypeUncachedWith isSubtype env sub super

/-- The loop of `getSupertypeChain` from a node. -/
def supertypes (env : TypeEnvironment) : ℕ → Option TypeNode → Option (List TypeId)
  | 0, _ => none
  | fuel + 1, node =>
    match node.bind TypeNode.supertype with
    | none => some []
    | some supertype => (env.supertypes fuel (env.getTypeNode supertype)).map (supertype :: ·)

/-- `getSupertypeChain`, so many calls deep. -/
def getSupertypeChainWithin (env : TypeEnvironment) : ℕ → TypeId → Option (List TypeId)
  | 0, _ => none
  | depth + 1, type =>
    if env.isTrackedPairType type then
      (env.getSupertypeChainWithin depth BuiltinTypes.pair).map (type :: ·)
    else (env.supertypes (env.types.size + 1) (env.getTypeNode type)).map (type :: ·)

/-- `getSupertypeChain`. -/
def getSupertypeChain (env : TypeEnvironment) (type : TypeId) : Option (List TypeId) :=
  env.getSupertypeChainWithin 2 type

/-- `leastCommonSupertype`. -/
def leastCommonSupertype (env : TypeEnvironment) (a b : TypeId) : Option (Option TypeId) :=
  if a == b then some (some a)
  else (env.getSupertypeChain a).bind fun chainA => (env.getSupertypeChain b).map fun chainB =>
    chainA.find? fun t => chainB.any fun u => t == u

end TypeEnvironment

end Types
