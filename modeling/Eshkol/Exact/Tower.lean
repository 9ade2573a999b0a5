import Eshkol.Exact.Rational
import Eshkol.Exact.NumberText

/-!
# The numeric tower

The entry points that take tagged numbers: 64-bit integers, bignums, rationals and doubles. Floating
point itself is a parameter. Allocation does not fail.
-/

namespace Exact

open Hash (Bignum Rational)

/-- A tagged number, or the `#f` of a text that is none. -/
inductive Tagged (D : Type) where
  | int64 (n : Int64)
  | double (d : D)
  | bignum (n : Bignum)
  | rational (q : Rational)
  | false

/-- Floating point. Of a rational `misread` takes the fields for those of a bignum, and `pointer`
takes an address for an integer. -/
class Doubles (D : Type) where
  ofInt64 : Int64 → D
  ofBignum : Bignum → D
  ofRational : Rational → D
  misread : Rational → D
  pointer : Tagged D → D
  add : D → D → D
  sub : D → D → D
  mul : D → D → D
  div : D → D → D
  pow : D → D → D
  isZero : D → Bool
  strtod : List UInt8 → D × List UInt8

/-- An exception with its message, or an access out of bounds. -/
inductive Fault where
  | raised (message : String)
  | undefined
deriving DecidableEq

abbrev Outcome (α : Type) := Except Fault α

/-- The `op` of `eshkol_bignum_binary_tagged`, in order. -/
inductive BinaryOp where
  | add | sub | mul | div | mod | quotient | remainder | neg
deriving DecidableEq

/-- The `op` of `eshkol_bignum_bitwise_tagged`, in order. -/
inductive BitwiseOp where
  | and | or | xor | not | shift
deriving DecidableEq

variable {D : Type}

namespace Tagged

def isDouble : Tagged D → Bool
  | .double _ => true
  | _ => Bool.false

/-- `eshkol_is_rational_tagged`. -/
def isRational : Tagged D → Bool
  | .rational _ => true
  | _ => Bool.false

end Tagged

/-! ## Rationals -/

/-- `tagged_exact_to_rational`. -/
def taggedExactToRational : Tagged D → Option Rational
  | .int64 n => some (rationalCreate n 1)
  | .bignum n => some (rationalCreateBn n (Bignum.ofInt64 1))
  | .rational q => some q
  | _ => none

/-- `rational_result_to_tagged`. -/
def rationalResultToTagged : Rational → Tagged D
  | .small n d => if d = 1 then .int64 n else .rational (.small n d)
  | .big n d => if bnEqualsI64 d 1 then .bignum n else .rational (.big n d)

section doubles

variable [Doubles D]

/-- `tagged_any_to_double`. -/
def taggedAnyToDouble : Tagged D → D
  | .int64 n => Doubles.ofInt64 n
  | .double d => d
  | .bignum n => Doubles.ofBignum n
  | .rational q => Doubles.ofRational q
  | .false => Doubles.ofInt64 0

/-- `eshkol_rational_binary_tagged`. -/
def rationalBinaryTagged (a b : Tagged D) (op : BinaryOp) : Outcome (Tagged D) :=
  if a.isDouble || b.isDouble then
    let da := taggedAnyToDouble a
    let db := taggedAnyToDouble b
    .ok <| .double <| match op with
      | .add => Doubles.add da db
      | .sub => Doubles.sub da db
      | .mul => Doubles.mul da db
      | .div => Doubles.div da db
      | _ => Doubles.ofInt64 0
  else
    match taggedExactToRational a, taggedExactToRational b with
    | some ra, some rb =>
      match op with
      | .add => .ok (rationalResultToTagged (rationalAdd ra rb))
      | .sub => .ok (rationalResultToTagged (rationalSub ra rb))
      | .mul => .ok (rationalResultToTagged (rationalMul ra rb))
      | .div => ((rationalDiv ra rb).mapError .raised).map rationalResultToTagged
      | _ => .ok (rationalResultToTagged (rationalCreate 0 1))
    | _, _ => .ok (.int64 0)

/-! ## Integers -/

/-- `tagged_to_bignum`. It takes any object for a bignum. -/
def taggedToBignum : Tagged D → Option (Outcome Bignum)
  | .int64 n => some (.ok (Bignum.ofInt64 n))
  | .bignum n => some (.ok n)
  | .rational _ => some (.error .undefined)
  | _ => none

/-- The conversion of an operand where a rational is not looked for. -/
def taggedToDouble : Tagged D → D
  | .int64 n => Doubles.ofInt64 n
  | .double d => d
  | .bignum n => Doubles.ofBignum n
  | .rational q => Doubles.misread q
  | .false => Doubles.ofInt64 0

/-- A bignum result, as a 64-bit integer if it fits. -/
def demote (r : Bignum) : Tagged D :=
  match bignumFitsInt64 r with
  | some n => .int64 n
  | none => .bignum r

/-- `eshkol_bignum_mod` with its check. -/
def bignumModOrRaise (a b : Bignum) : Outcome Bignum :=
  if b.isZero then .error (.raised "bignum modulo by zero") else .ok (bignumMod a b)

/-- `modulo`: the remainder, with the divisor added if the signs differ. -/
def bignumModulo (a b : Bignum) : Outcome Bignum :=
  (bignumModOrRaise a b).map fun m =>
    if !m.isZero && m.negative != b.negative then bignumAdd m b else m

/-- `eshkol_bignum_binary_tagged`. -/
def bignumBinaryTagged (left right : Tagged D) (op : BinaryOp) : Outcome (Tagged D) :=
  if left.isRational || right.isRational then
    match op with
    | .add | .sub | .mul | .div => rationalBinaryTagged left right op
    | .neg => rationalBinaryTagged (.int64 0) left .sub
    | .mod | .quotient | .remainder => .ok (.int64 0)
  else if op = .neg then
    match taggedToBignum left with
    | some a => a.map fun a => .bignum (bignumNeg a)
    | none => .ok (.int64 0)
  else if left.isDouble || right.isDouble then
    let ld := taggedToDouble left
    let rd := taggedToDouble right
    .ok <| .double <| match op with
      | .add => Doubles.add ld rd
      | .sub => Doubles.sub ld rd
      | .mul => Doubles.mul ld rd
      | .div => if Doubles.isZero rd then Doubles.ofInt64 0 else Doubles.div ld rd
      | _ => Doubles.ofInt64 0
  else
    match taggedToBignum left, taggedToBignum right with
    | some a, some b => do
      let a ← a
      let b ← b
      match op with
      | .add => .ok (demote (bignumAdd a b))
      | .sub => .ok (demote (bignumSub a b))
      | .mul => .ok (demote (bignumMul a b))
      | .div =>
        if b.isZero then .error (.raised "bignum division by zero")
        else .ok (rationalResultToTagged (rationalCreateBn a b))
      | .mod => (bignumModulo a b).map demote
      | .quotient =>
        if b.isZero then .error (.raised "bignum division by zero") else .ok (demote (bignumDiv a b))
      | .remainder => (bignumModOrRaise a b).map demote
      | .neg => .ok (.int64 0)
    | _, _ => .ok (.int64 0)

/-- `eshkol_gcd_tagged`. -/
def gcdTagged (left right : Tagged D) : Outcome (Tagged D) :=
  match taggedToBignum left, taggedToBignum right with
  | some a, some b => do
    let a ← a
    let b ← b
    .ok (demote (bnGcd a b))
  | _, _ => .ok (.int64 0)

/-- The exact integers, `to_bignum` of `eshkol_bignum_bitwise_tagged`. -/
def toBignum : Tagged D → Option Bignum
  | .int64 n => some (Bignum.ofInt64 n)
  | .bignum n => some n
  | _ => none

/-- The exponent as a double; an object counts by its address. -/
def exponentToDouble : Tagged D → D
  | .double d => d
  | .int64 n => Doubles.ofInt64 n
  | .false => Doubles.ofInt64 0
  | v => Doubles.pointer v

/-- `eshkol_bignum_pow_tagged`. -/
def bignumPowTagged (base exponent : Tagged D) : Outcome (Tagged D) :=
  let fallback := .ok (.double (Doubles.pow (taggedToDouble base) (exponentToDouble exponent)))
  match toBignum base, exponent with
  | some bnBase, .int64 exp =>
    if 0 ≤ exp then .ok (demote (bignumPow bnBase exp.toUInt64))
    else
      match bignumFitsInt64 (bignumPow bnBase (0 - exp.toUInt64)) with
      | some denom =>
        if denom = 0 then .error (.raised "expt: 0 raised to a negative power")
        else .ok (.rational (rationalCreate 1 denom))
      | none => fallback
  | _, _ => fallback

/-- `eshkol_bignum_bitwise_tagged`. -/
def bignumBitwiseTagged (left right : Tagged D) (op : BitwiseOp) : Outcome (Tagged D) :=
  let binary (f : Bignum → Bignum → Bignum) : Outcome (Tagged D) :=
    match toBignum left, toBignum right with
    | some a, some b => .ok (demote (f a b))
    | _, _ => .ok (.int64 0)
  match op with
  | .and => binary bignumBitwiseAnd
  | .or => binary bignumBitwiseOr
  | .xor => binary bignumBitwiseXor
  | .not =>
    match toBignum left with
    | some a => .ok (demote (bignumBitwiseNot a))
    | none => .ok (.int64 0)
  | .shift =>
    let shiftCount := match right with
      | .int64 n => n
      | _ => 0
    match toBignum left with
    | some a =>
      match bignumShift a shiftCount with
      | some r => .ok (demote r)
      | none => .error .undefined
    | none => .ok (.int64 0)

/-! ## Texts -/

def isBlank (c : UInt8) : Bool := c == ' '.toUInt8 || c == '\t'.toUInt8

def isDigit (c : UInt8) : Bool := '0'.toUInt8 ≤ c && c ≤ '9'.toUInt8

/-- What the scan of a decimal number finds first. -/
inductive Literal where
  | fraction (slashPos : List UInt8)
  | float
  | integer
  | other

/-- The scan of `eshkol_s2n_decimal` for syntax markers. -/
def scanDecimal : List UInt8 → Literal
  | [] => .integer
  | c :: p =>
    if c == '/'.toUInt8 then .fraction (c :: p)
    else if c == '.'.toUInt8 || c == 'e'.toUInt8 || c == 'E'.toUInt8 then .float
    else if !isDigit c then .other
    else scanDecimal p

/-- `eshkol_s2n_decimal`, once the text is scanned. -/
def s2nLiteral (start : List UInt8) : Literal → Tagged D
  | .other => .false
  | .fraction slashPos =>
    let num := strtoll start 10
    let denom := strtoll slashPos.tail 10
    if num.endptr == slashPos && !num.erange && denom.endptr.isEmpty && !denom.erange && denom.value != 0 then
      .rational (rationalCreate num.value denom.value)
    else .false
  | .float =>
    let (val, endptr) := Doubles.strtod start
    let endptr := endptr.dropWhile isBlank
    if !endptr.isEmpty || endptr == start then .false else .double val
  | .integer =>
    let val := strtoll start 10
    let endptr := val.endptr.dropWhile isBlank
    if !val.erange && endptr != start && endptr.isEmpty then .int64 val.value
    else if val.erange then
      match bignumFromString start with
      | some bn => .bignum bn
      | none => .false
    else .false

/-- `eshkol_s2n_decimal`. -/
def s2nDecimal (start : List UInt8) : Tagged D :=
  match (readSign start).2 with
  | [] => .false
  | c :: p =>
    if !isDigit c && c != '.'.toUInt8 then .false else s2nLiteral start (scanDecimal (c :: p))

/-- `eshkol_s2n_radix_int`. -/
def s2nRadixInt (start : List UInt8) (radix : ℕ) : Tagged D :=
  let slash := start.dropWhile (· != '/'.toUInt8)
  if !slash.isEmpty then
    let num := strtoll start radix
    if num.endptr != slash || num.endptr == start || num.erange then .false
    else
      let denom := strtoll slash.tail radix
      let endptr := denom.endptr.dropWhile isBlank
      if endptr == slash.tail || !endptr.isEmpty || denom.erange || denom.value == 0 then .false
      else .rational (rationalCreate num.value denom.value)
  else
    let val := strtoll start radix
    let endptr := val.endptr.dropWhile isBlank
    if endptr == start || !endptr.isEmpty || val.erange then .false else .int64 val.value

/-- The radix that `#b`, `#o`, `#d` and `#x` stand for. -/
def radixOfMark (c : UInt8) : Option Int64 :=
  let c := c ||| 0x20
  if c == 'b'.toUInt8 then some 2
  else if c == 'o'.toUInt8 then some 8
  else if c == 'd'.toUInt8 then some 10
  else if c == 'x'.toUInt8 then some 16
  else none

/-- The number proper and its radix, once blanks and a radix prefix are gone. -/
def numberAndRadix (str : List UInt8) (radix : Int64) : Option (List UInt8 × Int64) :=
  match str.dropWhile isBlank with
  | [] => none
  | c :: mark :: start =>
    if c == '#'.toUInt8 then
      (radixOfMark mark).bind fun radix => if start.isEmpty then none else some (start, radix)
    else some (c :: mark :: start, radix)
  | start => some (start, radix)

/-- `eshkol_string_to_number_radix_tagged`. -/
def stringToNumberRadixTagged (str : List UInt8) (radix : Int64) : Tagged D :=
  match numberAndRadix str radix with
  | none => .false
  | some (start, radix) =>
    if radix < 2 || 36 < radix then .false
    else if radix = 10 then s2nDecimal start
    else s2nRadixInt start radix.toInt.toNat

end doubles

end Exact
