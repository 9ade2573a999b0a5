import Eshkol.Base.Rounding
import Eshkol.Vm.Core

/-!
# Exact numbers in the VM

The arithmetic and comparison handlers of `vm_run.c`, the natives 32-34 and 36-38 of `vm_native.c`
with the bignum helpers, and the natives 331-334 with `vm_rational.c`, on exact operands.

A number is taken together with the heap object it points to; allocation succeeds, and the bignum
library's operations are those of the integers. The doubles that come up are conversions of
integers and what is computed from them, all finite and normal, so a double is its value. A cast or
an operation that C leaves undefined has the outcome `undefined`.
-/

namespace Vm.Numbers

open Rounding

/-- `VmRational`. -/
structure VmRational where
  num : ℤ
  denom : ℤ
deriving DecidableEq, Repr

/-- A `VAL_INT`, `VAL_BIGNUM` or `VAL_RATIONAL`. -/
inductive Number where
  | int (i : ℤ)
  | bignum (n : ℤ)
  | rational (r : VmRational)
deriving DecidableEq, Repr

def Number.isBignum : Number → Bool
  | .bignum _ => true
  | _ => false

def Number.isRational : Number → Bool
  | .rational _ => true
  | _ => false

/-- What an operator leaves behind: an exact number or a `VAL_FLOAT` on the stack, or `vm->error`. -/
inductive Outcome where
  | push (v : Number)
  | float
  | error
  | undefined
deriving DecidableEq, Repr

def int64Min : ℤ := -2 ^ 63

/-! ## Doubles -/

/-- The nearest double: 53 significant bits, ties to even. -/
def roundDouble (q : ℚ) : ℚ := roundToBits 52 q

/-- The integer next to `q` on the side of zero. -/
def truncate (q : ℚ) : ℤ := if 0 ≤ q then ⌊q⌋ else ⌈q⌉

/-- The cast `(int64_t)d`. -/
def castInt64 (d : ℚ) : Option ℤ := if fitsInt64 (truncate d) then some (truncate d) else none

/-- `as_number`: a bignum and a rational count as `0.0`. -/
def asNumber : Number → ℚ
  | .int i => roundDouble i
  | _ => 0

/-- `as_number_vm`: a bignum counts as `0.0`. -/
def asNumberVm : Number → ℚ
  | .int i => roundDouble i
  | .rational r => if r.denom ≠ 0 then roundDouble (roundDouble r.num / roundDouble r.denom) else 0
  | .bignum _ => 0

/-- `number_val`. -/
def numberVal (d : ℚ) : Outcome :=
  match castInt64 d with
  | none => .undefined
  | some i => if d = roundDouble i ∧ |d| < 10 ^ 15 then .push (.int i) else .float

/-! ## Bignum helpers -/

/-- `vm_either_bignum`. -/
def eitherBignum (a b : Number) : Bool := a.isBignum || b.isBignum

/-- `vm_coerce_bignum`: a rational goes through `as_number`. -/
def coerceBignum : Number → ℤ
  | .int i => i
  | .bignum n => n
  | .rational _ => 0

/-- `vm_push_bignum_norm`. -/
def pushBignumNorm (n : ℤ) : Outcome :=
  if fitsInt64 n then .push (.int n) else .push (.bignum n)

/-- The `op` of `vm_bignum_arith`. -/
inductive BignumOp where
  | add | sub | mul | quotient | remainder | modulo
deriving DecidableEq, Repr

/-- `vm_bignum_arith`. -/
def bignumArith (a b : Number) (op : BignumOp) : Outcome :=
  let ab := coerceBignum a
  let bb := coerceBignum b
  match op with
  | .add => pushBignumNorm (ab + bb)
  | .sub => pushBignumNorm (ab - bb)
  | .mul => pushBignumNorm (ab * bb)
  | .quotient => if bb = 0 then .error else pushBignumNorm (ab.tdiv bb)
  | .remainder => if bb = 0 then .error else pushBignumNorm (ab.tmod bb)
  | .modulo =>
    if bb = 0 then .error
    else
      let r := ab.tmod bb
      if r ≠ 0 ∧ r.sign ≠ bb.sign then pushBignumNorm (r + bb) else pushBignumNorm r

/-- `vm_bignum_compare_vals`. -/
def bignumCompareVals (a b : Number) : ℤ :=
  let ab := coerceBignum a
  let bb := coerceBignum b
  if ab < bb then -1 else if ab > bb then 1 else 0

/-! ## Rationals -/

/-- `vm_rational_gcd_i64`: Euclid's algorithm on the magnitudes. -/
def vmRationalGcd (a b : ℤ) : ℤ := Int.gcd a b

/-- `vm_rational_normalize`. -/
def vmRationalNormalize (num denom : ℤ) : VmRational :=
  if denom = 0 then ⟨num, denom⟩
  else if denom < 0 ∧ (num = int64Min ∨ denom = int64Min) then ⟨num, denom⟩
  else
    let num := if denom < 0 then -num else num
    let denom := if denom < 0 then -denom else denom
    if num = 0 then ⟨num, 1⟩
    else
      let g := vmRationalGcd num denom
      if g > 1 then ⟨num.tdiv g, denom.tdiv g⟩ else ⟨num, denom⟩

/-- `vm_rational_alloc`; `none` is `NULL`. -/
def vmRationalAlloc (num denom : ℤ) : Option VmRational :=
  if denom = 0 then none else some (vmRationalNormalize num denom)

/-- `vm_rational_pack128`: `NULL` when the reduced fraction does not fit. The 128-bit intermediates
of its callers do not overflow. -/
def vmRationalPack128 (num denom : ℤ) : Option VmRational :=
  if denom = 0 then none
  else
    let n := if denom < 0 then -num else num
    let d := if denom < 0 then -denom else denom
    if n = 0 then vmRationalAlloc 0 1
    else
      let g : ℤ := Int.gcd n d
      let n' := if g > 1 then n.tdiv g else n
      let d' := if g > 1 then d.tdiv g else d
      if n' > 2 ^ 63 - 1 ∨ n' < int64Min ∨ d' > 2 ^ 63 - 1 then none
      else vmRationalAlloc n' d'

/-- `vm_rational_add`. -/
def vmRationalAdd (a b : VmRational) : Option VmRational :=
  vmRationalPack128 (a.num * b.denom + b.num * a.denom) (a.denom * b.denom)

/-- `vm_rational_sub`. -/
def vmRationalSub (a b : VmRational) : Option VmRational :=
  vmRationalPack128 (a.num * b.denom - b.num * a.denom) (a.denom * b.denom)

/-- `vm_rational_mul`. -/
def vmRationalMul (a b : VmRational) : Option VmRational :=
  let g1 := vmRationalGcd a.num b.denom
  let g2 := vmRationalGcd b.num a.denom
  vmRationalPack128 (a.num.tdiv g1 * b.num.tdiv g2) (a.denom.tdiv g2 * b.denom.tdiv g1)

/-- `vm_rational_div`. The sign of `b->num` is moved by negating it, which overflows at `INT64_MIN`:
the outer `none`. -/
def vmRationalDiv (a b : VmRational) : Option (Option VmRational) :=
  if b.num = 0 then some none
  else if b.num = int64Min then none
  else
    let bNum := if b.num < 0 then -b.denom else b.denom
    let bDenom := if b.num < 0 then -b.num else b.num
    let g1 := vmRationalGcd a.num bDenom
    let g2 := vmRationalGcd bNum a.denom
    some (vmRationalPack128 (a.num.tdiv g1 * bNum.tdiv g2) (a.denom.tdiv g2 * bDenom.tdiv g1))

/-- An operand of the natives 331-334. -/
def rationalOperand : Number → Option VmRational
  | .rational r => some r
  | v => (castInt64 (asNumber v)).map fun i => ⟨i, 1⟩

/-- How the natives 331-334 end: no result becomes a float. -/
def pushRational : Option VmRational → Outcome
  | none => .float
  | some r => if r.denom = 1 then .push (.int r.num) else .push (.rational r)

/-- The same for a result that may be undefined. -/
def pushResult : Option (Option VmRational) → Outcome
  | none => .undefined
  | some r => pushRational r

/-- The natives 331-334, by the function they call. -/
def nativeRational (f : VmRational → VmRational → Option (Option VmRational)) (a b : Number) :
    Outcome :=
  match rationalOperand a, rationalOperand b with
  | some x, some y => pushResult (f x y)
  | _, _ => .undefined

def native331 : Number → Number → Outcome := nativeRational fun x y => some (vmRationalAdd x y)
def native332 : Number → Number → Outcome := nativeRational fun x y => some (vmRationalSub x y)
def native333 : Number → Number → Outcome := nativeRational fun x y => some (vmRationalMul x y)
def native334 : Number → Number → Outcome := nativeRational vmRationalDiv

/-! ## Opcodes -/

/-- `ADD`, `SUB` and `MUL`. -/
def arith (onInts : ℤ → ℤ → ℤ) (onDoubles : ℚ → ℚ → ℚ) (op : BignumOp)
    (native : Number → Number → Outcome) (a b : Number) : Outcome :=
  if a.isRational || b.isRational then native a b
  else if eitherBignum a b then bignumArith a b op
  else
    match a, b with
    | .int x, .int y =>
      if fitsInt64 (onInts x y) then .push (.int (onInts x y)) else bignumArith a b op
    | _, _ => numberVal (roundDouble (onDoubles (asNumber a) (asNumber b)))

def opAdd : Number → Number → Outcome := arith (· + ·) (· + ·) .add native331
def opSub : Number → Number → Outcome := arith (· - ·) (· - ·) .sub native332
def opMul : Number → Number → Outcome := arith (· * ·) (· * ·) .mul native333

def opDiv (a b : Number) : Outcome :=
  if a.isRational || b.isRational then native334 a b
  else
    match a, b with
    | .int _, .int y => if y = 0 then .error else native334 a b
    | _, _ =>
      if asNumber b = 0 then .error else numberVal (roundDouble (asNumber a / asNumber b))

/-- C's `fmod`, which is exact. -/
def fmod (x y : ℚ) : ℚ := x - y * truncate (x / y)

/-- `INT64_MIN % -1` is undefined. -/
def opMod (a b : Number) : Outcome :=
  if eitherBignum a b then bignumArith a b .modulo
  else
    match a, b with
    | .int x, .int y =>
      if y = 0 then .error
      else if x = int64Min ∧ y = -1 then .undefined
      else
        let r := x.tmod y
        .push (.int (if r ≠ 0 ∧ (r < 0) ≠ (y < 0) then r + y else r))
    | _, _ =>
      let bd := asNumber b
      if bd = 0 then .error
      else
        let r := fmod (asNumber a) bd
        numberVal (if r ≠ 0 ∧ (r > 0) ≠ (bd > 0) then roundDouble (r + bd) else r)

def opNeg : Number → Outcome
  | .bignum n => pushBignumNorm (-n)
  | .int i => if i = int64Min then pushBignumNorm (-i) else .push (.int (-i))
  | a => numberVal (-asNumber a)

def opAbs : Number → Outcome
  | .bignum n => pushBignumNorm |n|
  | .int i => if i = int64Min then pushBignumNorm |i| else .push (.int (if i < 0 then -i else i))
  | a => numberVal |asNumber a|

inductive CompareOp where
  | eq | lt | gt | le | ge
deriving DecidableEq, Repr

/-- The C operator, on integers and on doubles. -/
def CompareOp.on {α : Type} [LinearOrder α] : CompareOp → α → α → Bool
  | .eq, x, y => x = y
  | .lt, x, y => x < y
  | .gt, x, y => x > y
  | .le, x, y => x ≤ y
  | .ge, x, y => x ≥ y

/-- `EQ`, `LT`, `GT`, `LE` and `GE`. -/
def compare (c : CompareOp) (a b : Number) : Bool :=
  if eitherBignum a b then c.on (bignumCompareVals a b) 0
  else
    match a, b with
    | .int x, .int y => c.on x y
    | _, _ => c.on (asNumberVm a) (asNumberVm b)

def opEq : Number → Number → Bool := compare .eq
def opLt : Number → Number → Bool := compare .lt
def opGt : Number → Number → Bool := compare .gt
def opLe : Number → Number → Bool := compare .le
def opGe : Number → Number → Bool := compare .ge

/-! ## Natives -/

/-- Native 32, `expt`: outside the first branch `pow` gives a float. -/
def native32 : Number → Number → Outcome
  | .int x, .int e => if 0 ≤ e then pushBignumNorm (x ^ e.toNat) else .float
  | .bignum n, .int e => if 0 ≤ e then pushBignumNorm (n ^ e.toNat) else .float
  | _, _ => .float

/-- Native 33, `min`. -/
def native33 (a b : Number) : Outcome :=
  if eitherBignum a b then .push (if bignumCompareVals a b ≤ 0 then a else b)
  else numberVal (if asNumberVm a < asNumberVm b then asNumberVm a else asNumberVm b)

/-- Native 34, `max`. -/
def native34 (a b : Number) : Outcome :=
  if eitherBignum a b then .push (if bignumCompareVals a b ≥ 0 then a else b)
  else numberVal (if asNumberVm a > asNumberVm b then asNumberVm a else asNumberVm b)

/-- The natives 36-38: `%` and `/` of `INT64_MIN` by `-1` are undefined. -/
def nativeDivision (op : BignumOp) (onInts : ℤ → ℤ → ℤ) (a b : Number) : Outcome :=
  if eitherBignum a b then bignumArith a b op
  else
    match castInt64 (asNumber a), castInt64 (asNumber b) with
    | some ia, some ib =>
      if ib = 0 then .error
      else if ia = int64Min ∧ ib = -1 then .undefined
      else .push (.int (onInts ia ib))
    | _, _ => .undefined

/-- Native 36, `modulo`. -/
def native36 : Number → Number → Outcome :=
  nativeDivision .modulo fun ia ib =>
    let r := ia.tmod ib
    if r ≠ 0 ∧ (r < 0) ≠ (ib < 0) then r + ib else r

/-- Native 37, `remainder`. -/
def native37 : Number → Number → Outcome := nativeDivision .remainder Int.tmod

/-- Native 38, `quotient`. -/
def native38 : Number → Number → Outcome := nativeDivision .quotient Int.tdiv

end Vm.Numbers
