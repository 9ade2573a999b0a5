import Eshkol.Exact.BignumSpec

/-!
# Exact rationals

A rational is a pair of 64-bit integers or, when a part leaves their range, of bignums; it is kept
reduced, with a positive denominator. Sums and products of small ones are formed in 128 bits, and
formed again with bignums if the reduced result is too large.
-/

namespace Exact

open Hash (Bignum Rational)

/-- A result that may have raised an exception instead, with its message. -/
abbrev Raises (α : Type) := Except String α

/-- `bn_equals_i64`. -/
def bnEqualsI64 (a : Bignum) (k : Int64) : Bool := bignumFitsInt64 a == some k

/-- The magnitude, as a bignum. -/
def bnAbs (a : Bignum) : Bignum := if a.negative then bignumNeg a else a

/-- The loop of `bn_gcd` and of `eshkol_gcd_tagged`. -/
def bnGcdLoop : ℕ → Bignum → Bignum → Bignum
  | 0, x, _ => x
  | fuel + 1, x, y =>
    if y.isZero then x else bnGcdLoop fuel y { bignumMod x y with negative := false }

/-- `bn_gcd`: the second number gets smaller in every round. -/
def bnGcd (a b : Bignum) : Bignum :=
  { bnGcdLoop (magnitude b.limbs + 1) (bnAbs a) (bnAbs b) with negative := false }

/-- `eshkol_rational_create_bn`. -/
def rationalCreateBn (num denom : Bignum) : Rational :=
  if denom.isZero then .small 0 1
  else
    let num' := if denom.negative then bignumNeg num else num
    let denom' := if denom.negative then bignumNeg denom else denom
    let g := bnGcd num' denom'
    let reduce := !bnEqualsI64 g 1 && !g.isZero
    let num'' := if reduce then bignumDiv num' g else num'
    let denom'' := if reduce then bignumDiv denom' g else denom'
    match bignumFitsInt64 num'', bignumFitsInt64 denom'' with
    | some ni, some di => .small ni di
    | _, _ => .big num'' denom''

/-- A result of 128-bit arithmetic. -/
def int128 (x : ℤ) : ℤ := x.bmod (1 <<< 128)

/-- `gcd` and `gcd128`: Euclid's algorithm on the magnitudes. -/
def gcd128 (a b : ℤ) : ℤ := Nat.gcd a.natAbs b.natAbs

/-- `fits_int64`. -/
def fitsInt64 (v : ℤ) : Bool := Int64.minValue.toInt ≤ v && v ≤ Int64.maxValue.toInt

/-- `rational_create_safe`: nothing when the reduced pair does not fit. -/
def rationalCreateSafe (num denom : ℤ) : Option Rational :=
  let num' := if denom = 0 then 0 else if denom < 0 then int128 (-num) else num
  let denom' := if denom = 0 then 1 else if denom < 0 then int128 (-denom) else denom
  let g := gcd128 num' denom'
  let num'' := if 1 < g then num'.tdiv g else num'
  let denom'' := if 1 < g then denom'.tdiv g else denom'
  if !fitsInt64 num'' || !fitsInt64 denom'' then none
  else some (.small (.ofInt num'') (.ofInt denom''))

/-- `eshkol_rational_create`. The smallest integer has no negation of 64 bits, and goes through
bignums. -/
def rationalCreate (num denom : Int64) : Rational :=
  let num := if denom = 0 then 0 else num
  let denom := if denom = 0 then 1 else denom
  if denom = Int64.minValue ∨ num = Int64.minValue then
    rationalCreateBn (Bignum.ofInt64 num) (Bignum.ofInt64 denom)
  else
    let num' := if denom < 0 then -num else num
    let denom' := if denom < 0 then -denom else denom
    let g := gcd128 num'.toInt denom'.toInt
    if 1 < g then .small (.ofInt (num'.toInt.tdiv g)) (.ofInt (denom'.toInt.tdiv g))
    else .small num' denom'

/-- `rat_num_bn`. -/
def ratNumBn : Rational → Bignum
  | .small n _ => Bignum.ofInt64 n
  | .big n _ => n

/-- `rat_den_bn`. -/
def ratDenBn : Rational → Bignum
  | .small _ d => Bignum.ofInt64 d
  | .big _ d => d

/-- The shape of the four operations: 128 bits if both are small and the result fits, bignums
otherwise. -/
def rationalOp (small : ℤ → ℤ → ℤ → ℤ → ℤ × ℤ) (big : Bignum → Bignum → Bignum → Bignum → Bignum × Bignum)
    (a b : Rational) : Rational :=
  let viaBignums :=
    let r := big (ratNumBn a) (ratDenBn a) (ratNumBn b) (ratDenBn b)
    rationalCreateBn r.1 r.2
  match a, b with
  | .small an ad, .small bn bd =>
    let r := small an.toInt ad.toInt bn.toInt bd.toInt
    (rationalCreateSafe (int128 r.1) (int128 r.2)).getD viaBignums
  | _, _ => viaBignums

/-- `eshkol_rational_add`. -/
def rationalAdd : Rational → Rational → Rational :=
  rationalOp (fun an ad bn bd => (an * bd + bn * ad, ad * bd))
    (fun an ad bn bd => (bignumAdd (bignumMul an bd) (bignumMul bn ad), bignumMul ad bd))

/-- `eshkol_rational_sub`. -/
def rationalSub : Rational → Rational → Rational :=
  rationalOp (fun an ad bn bd => (an * bd - bn * ad, ad * bd))
    (fun an ad bn bd => (bignumSub (bignumMul an bd) (bignumMul bn ad), bignumMul ad bd))

/-- `eshkol_rational_mul`. -/
def rationalMul : Rational → Rational → Rational :=
  rationalOp (fun an ad bn bd => (an * bn, ad * bd))
    (fun an ad bn bd => (bignumMul an bn, bignumMul ad bd))

/-- The divisor is zero. -/
def ratIsZero : Rational → Bool
  | .small n _ => n == 0
  | .big n _ => n.isZero

/-- `eshkol_rational_div`. -/
def rationalDiv (a b : Rational) : Raises Rational :=
  if ratIsZero b then .error "rational division by zero"
  else .ok (rationalOp (fun an ad bn bd => (an * bd, ad * bn))
    (fun an ad bn bd => (bignumMul an bd, bignumMul ad bn)) a b)

end Exact
