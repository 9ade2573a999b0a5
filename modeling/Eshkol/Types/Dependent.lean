import Mathlib.Data.Nat.Notation

/-!
# Compile-time values

Dimensions are natural numbers that are known when the program is compiled, or expressions that are folded in signed
64-bit arithmetic. Doubles are a parameter. A signed operation that overflows wraps around.
-/

namespace Types.Dependent

/-- What the folding takes from doubles. -/
class ConstDoubles (D : Type) where
  zero : D
  ofInt64 : Int64 → D
  ofUInt64 : UInt64 → D
  toUInt64 : D → UInt64
  add : D → D → D
  sub : D → D → D
  mul : D → D → D
  div : D → D → D
  eq : D → D → Bool
  le : D → D → Bool

/-- The operations that are folded. -/
inductive ArithOp where
  | addOp | subOp | mulOp | divOp
deriving DecidableEq

/-- An integer literal of the program. -/
inductive IntLiteral where
  | int64 (int64Val : Int64)
  | int32 (int32Val : Int32)
  | int16 (int16Val : Int16)
  | int8 (int8Val : Int8)
  | uint64 (uint64Val : UInt64)
  | uint32 (uint32Val : UInt32)
  | uint16 (uint16Val : UInt16)
  | uint8 (uint8Val : UInt8)

/-- The literal as a signed number of 64 bits. -/
def IntLiteral.toInt64 : IntLiteral → Int64
  | .int64 v => v
  | .int32 v => v.toInt64
  | .int16 v => v.toInt64
  | .int8 v => v.toInt64
  | .uint64 v => v.toInt64
  | .uint32 v => v.toUInt64.toInt64
  | .uint16 v => v.toUInt64.toInt64
  | .uint8 v => v.toUInt64.toInt64

/-- An expression of the program, as far as the folding looks at it. -/
inductive Ast (D : Type) where
  | literal (value : IntLiteral)
  | double (doubleVal : D)
  | var (id : String)
  | op (op : ArithOp) (vars : List (Ast D))
  | other

/-- `ConstValue`. -/
inductive ConstValue (D : Type) where
  | integer (intVal : Int64)
  | float (floatVal : D)
  | none

section

variable {D : Type} [ConstDoubles D]

namespace ConstValue

/-- `isValid`. -/
def isValid : ConstValue D → Bool
  | .none => false
  | _ => true

/-- `asDouble`. -/
def asDouble : ConstValue D → D
  | .integer v => ConstDoubles.ofInt64 v
  | .float v => v
  | .none => ConstDoubles.zero

/-- Two integers are combined as integers, and other values as doubles. -/
def combine (ints : Int64 → Int64 → Int64) (floats : D → D → D) : ConstValue D → ConstValue D → ConstValue D
  | .none, _ => .none
  | _, .none => .none
  | .integer a, .integer b => .integer (ints a b)
  | a, b => .float (floats a.asDouble b.asDouble)

/-- `add`. -/
def add : ConstValue D → ConstValue D → ConstValue D := combine (· + ·) ConstDoubles.add

/-- `sub`. -/
def sub : ConstValue D → ConstValue D → ConstValue D := combine (· - ·) ConstDoubles.sub

/-- `mul`. -/
def mul : ConstValue D → ConstValue D → ConstValue D := combine (· * ·) ConstDoubles.mul

/-- Division by a zero of its own kind has no value. -/
def isZero : ConstValue D → Bool
  | .integer v => v == 0
  | .float v => ConstDoubles.eq v ConstDoubles.zero
  | .none => false

/-- `div`. -/
def div (a b : ConstValue D) : ConstValue D :=
  if b.isZero then .none else combine (· / ·) ConstDoubles.div a b

end ConstValue

/-- The function of an operation. -/
def ArithOp.apply : ArithOp → ConstValue D → ConstValue D → ConstValue D
  | .addOp => ConstValue.add
  | .subOp => ConstValue.sub
  | .mulOp => ConstValue.mul
  | .divOp => ConstValue.div

mutual

/-- `evaluateConstExpr`. -/
def evaluateConstExpr : Ast D → ConstValue D
  | .literal l => .integer l.toInt64
  | .double v => .float v
  | .var _ => .none
  | .op op (first :: second :: rest) =>
    let result := evaluateConstExpr first
    if result.isValid then
      let operand := evaluateConstExpr second
      if operand.isValid then
        let result := op.apply result operand
        if op = .divOp ∧ ¬result.isValid then .none else evaluateOperands op result rest
      else .none
    else .none
  | .op _ _ => .none
  | .other => .none

/-- The loop over the other operands. -/
def evaluateOperands (op : ArithOp) (result : ConstValue D) : List (Ast D) → ConstValue D
  | [] => result
  | next :: rest =>
    let operand := evaluateConstExpr next
    if operand.isValid then
      let result := op.apply result operand
      if op = .divOp ∧ ¬result.isValid then .none else evaluateOperands op result rest
    else .none

end

end

/-- `CTValue`; a null expression is `none`. -/
inductive CTValue (D : Type) where
  | nat (natVal : UInt64)
  | bool (boolVal : Bool)
  | expr (e : Option (Ast D))
  | unknown

namespace CTValue

variable {D : Type} [ConstDoubles D]

/-- `tryEvalNat`. -/
def tryEvalNat : CTValue D → Option UInt64
  | .nat n => some n
  | .expr (some e) =>
    match evaluateConstExpr e with
    | .integer v => if 0 ≤ v then some v.toUInt64 else none
    | .float v =>
      if ConstDoubles.le ConstDoubles.zero v ∧ ConstDoubles.eq v (ConstDoubles.ofUInt64 (ConstDoubles.toUInt64 v)) then
        some (ConstDoubles.toUInt64 v)
      else none
    | .none => none
  | _ => none

/-- `add`. -/
def add (a b : CTValue D) : CTValue D :=
  match a.tryEvalNat, b.tryEvalNat with
  | some lhs, some rhs => .nat (lhs + rhs)
  | _, _ => .unknown

/-- `mul`. -/
def mul (a b : CTValue D) : CTValue D :=
  match a.tryEvalNat, b.tryEvalNat with
  | some lhs, some rhs => .nat (lhs * rhs)
  | _, _ => .unknown

end CTValue

/-- `DimensionChecker::Result`. -/
structure CheckResult where
  valid : Bool
  errorMessage : String
deriving DecidableEq

/-- `failure`. -/
def CheckResult.failure (msg : String) : CheckResult := ⟨false, msg⟩

section

variable {D : Type} [ConstDoubles D]

end

end Types.Dependent
