import Eshkol.Types.Environment

/-!
# Types of arithmetic

Two operand types are promoted by a chain of special cases, the first that applies. A sum, difference, product or
quotient has the type of its first two operands.
-/

namespace Types

namespace BuiltinTypes

def float64 : TypeId := ⟨16, .u0, 0⟩
def complex64 : TypeId := ⟨19, .u0, 0⟩
def complex128 : TypeId := ⟨23, .u0, 0⟩
def bigInt : TypeId := ⟨24, .u0, typeFlagExact⟩

end BuiltinTypes

/-- One of the complex types. -/
def isComplex (t : TypeId) : Bool :=
  t == BuiltinTypes.complex || t == BuiltinTypes.complex64 || t == BuiltinTypes.complex128

section

open BuiltinTypes

/-- The cases of `promoteForArithmetic`, with the queries that they make. -/
def promoteWith {m : Type → Type} [Monad m] (isSubtype : TypeId → TypeId → m Bool)
    (leastCommonSupertype : TypeId → TypeId → m (Option TypeId)) (a b : TypeId) : m TypeId := do
  if a == b then pure a
  else if a == value then pure b
  else if b == value then pure a
  else if ← pure (a == number) <&&> (isSubtype b integer <||> isSubtype b real) then pure b
  else if ← pure (b == number) <&&> (isSubtype a integer <||> isSubtype a real) then pure a
  else if isComplex a || isComplex b then pure complex
  else if ← (pure (a == bigInt) <&&> isSubtype b integer) <||> (pure (b == bigInt) <&&> isSubtype a integer) then
    pure bigInt
  else if ← (pure (a == bigInt) <&&> isSubtype b real) <||> (pure (b == bigInt) <&&> isSubtype a real) then
    pure float64
  else if ← (isSubtype a integer <&&> isSubtype b real) <||> (isSubtype a real <&&> isSubtype b integer) then
    pure float64
  else if ← isSubtype a integer <&&> isSubtype b integer then pure int64
  else if ← isSubtype a real <&&> isSubtype b real then pure float64
  else
    let lcs ← leastCommonSupertype a b
    pure (lcs.getD number)

end

namespace TypeEnvironment

/-- `promoteForArithmetic`; the environment remembers the answers. -/
def promoteForArithmetic (a b : TypeId) : StateT TypeEnvironment Option TypeId :=
  promoteWith (fun sub super env => env.isSubtype sub super)
    (fun a b env => (env.leastCommonSupertype a b).map (·, env)) a b

end TypeEnvironment

/-! ## Arithmetic expressions -/

/-- `TypeCheckResult`: the inferred type, or the message of an error. -/
abbrev TypeCheckResult := Except String TypeId

/-- The arithmetic of `synthesizeOperation`, after all operands have been looked at. -/
def synthesizeArithmetic (operands : List TypeCheckResult) : StateT TypeEnvironment Option TypeCheckResult :=
  match operands with
  | .ok left :: .ok right :: _ => do
    let type ← TypeEnvironment.promoteForArithmetic left right
    pure (.ok type)
  | .ok _ :: .error message :: _ => pure (.error message)
  | .error message :: _ :: _ => pure (.error message)
  | _ => pure (.error "Arithmetic requires at least 2 operands")

/-- The arithmetic of `synthesizeApplication`, after all arguments have been looked at. -/
def synthesizeArithmeticCall (argTypes : List TypeCheckResult) : StateT TypeEnvironment Option TypeCheckResult :=
  match argTypes with
  | .ok left :: .ok right :: _ => do
    let type ← TypeEnvironment.promoteForArithmetic left right
    pure (.ok type)
  | _ => pure (.ok BuiltinTypes.number)

end Types
