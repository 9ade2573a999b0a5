import Eshkol.Base.LongDivision
import Eshkol.Hash.Keys

/-!
# Bignum arithmetic

Signed numbers of 64-bit limbs, least significant first. The loops over the limbs are those of long
arithmetic in radix `2^64`, on the limbs as natural numbers; a result is written back limb by limb.
-/

namespace Exact

open Hash (Bignum)

/-- The radix, `2^64`. -/
def radix : ℕ := 1 <<< 64

/-- The limbs as digits. -/
def words (limbs : List UInt64) : List ℕ := limbs.map UInt64.toNat

/-- The digits written as limbs. -/
def limbsOf (digits : List ℕ) : List UInt64 := digits.map UInt64.ofNat

/-- `bignum_alloc`: zeros. -/
def bignumAlloc (numLimbs : ℕ) : Bignum := ⟨false, List.replicate numLimbs 0⟩

/-- `bignum_normalize`: the leading zero limbs go, but for the last, and zero is not negative. -/
def bignumNormalize (bn : Bignum) : Bignum :=
  let trimmed := bn.limbs.rdropWhile (· == 0)
  let limbs := if trimmed.isEmpty then bn.limbs.take 1 else trimmed
  ⟨bn.negative && limbs != [0], limbs⟩

/-- `bignum_add_abs`. -/
def bignumAddAbs (a b : Bignum) : Bignum :=
  let maxLimbs := max a.limbs.length b.limbs.length
  bignumNormalize ⟨false, limbsOf (Radix.add radix maxLimbs 0 (words a.limbs) (words b.limbs))⟩

/-- `bignum_sub_abs`. -/
def bignumSubAbs (a b : Bignum) : Bignum :=
  bignumNormalize ⟨false, limbsOf (Radix.sub radix 0 (words a.limbs) (words b.limbs))⟩

/-- `eshkol_bignum_add`. -/
def bignumAdd (a b : Bignum) : Bignum :=
  if a.negative = b.negative then { bignumAddAbs a b with negative := a.negative }
  else
    match a.compareAbs b with
    | .eq => bignumAlloc 1
    | .gt => { bignumSubAbs a b with negative := a.negative }
    | .lt => { bignumSubAbs b a with negative := b.negative }

/-- `eshkol_bignum_sub`. -/
def bignumSub (a b : Bignum) : Bignum :=
  if a.negative ≠ b.negative then { bignumAddAbs a b with negative := a.negative }
  else
    match a.compareAbs b with
    | .eq => bignumAlloc 1
    | .gt => { bignumSubAbs a b with negative := a.negative }
    | .lt => { bignumSubAbs b a with negative := !a.negative }

/-- `eshkol_bignum_mul`. -/
def bignumMul (a b : Bignum) : Bignum :=
  let result := (bignumAlloc (a.limbs.length + b.limbs.length)).limbs
  let limbs := limbsOf (Radix.mulRows radix (words a.limbs) (words result) (words b.limbs))
  bignumNormalize ⟨a.negative != b.negative && limbs != [0], limbs⟩

/-- `eshkol_bignum_from_overflow`: the sum, difference or product that left the range of `int64`. -/
def bignumFromOverflow (a b : Int64) (op : ℤ) : Option Bignum :=
  let ba := Bignum.ofInt64 a
  let bb := Bignum.ofInt64 b
  match op with
  | 0 => some (bignumAdd ba bb)
  | 1 => some (bignumSub ba bb)
  | 2 => some (bignumMul ba bb)
  | _ => none

/-! ## Division -/

/-- `bignum_div_limb`. -/
def bignumDivLimb (a : Bignum) (divisor : UInt64) : Bignum × UInt64 :=
  let division := Radix.divDigit radix divisor.toNat (words a.limbs)
  (bignumNormalize ⟨false, limbsOf division.1⟩, UInt64.ofNat division.2)

/-- The shift left by `shift` bits, a bit of each limb into the next. -/
def shiftLimbsLeft (shift : ℕ) : ℕ → List ℕ → List ℕ
  | carry, [] => [carry]
  | carry, x :: xs =>
    ((x <<< shift) % radix ||| carry) :: shiftLimbsLeft shift (x >>> (64 - shift)) xs

/-- The shift right by `shift` bits, from the most significant limb down. -/
def shiftLimbsRight (shift : ℕ) : List ℕ → List ℕ
  | [] => []
  | [x] => [x >>> shift]
  | x :: y :: ys => (x >>> shift ||| (y <<< (64 - shift)) % radix) :: shiftLimbsRight shift (y :: ys)

/-- `__builtin_clzll`, of a limb that is not zero. -/
def countLeadingZeros (limb : ℕ) : ℕ := 63 - limb.log2

/-- `bignum_divmod_abs`: quotient and remainder of the magnitudes. -/
def bignumDivmodAbs (a b : Bignum) : Bignum × Bignum :=
  match b.limbs with
  | [divisor] =>
    let division := bignumDivLimb a divisor
    (division.1, ⟨false, [division.2]⟩)
  | _ =>
    match a.compareAbs b with
    | .lt => (bignumAlloc 1, ⟨false, a.limbs⟩)
    | .eq => (⟨false, [1]⟩, bignumAlloc 1)
    | .gt =>
      let n := b.limbs.length
      let m := a.limbs.length - n
      let top := (words b.limbs).getD (n - 1) 0
      let shift := if top ≠ 0 then countLeadingZeros top else 0
      let vn := if 0 < shift then (shiftLimbsLeft shift 0 (words b.limbs)).take n else words b.limbs
      let un := if 0 < shift then shiftLimbsLeft shift 0 (words a.limbs) else words a.limbs ++ [0]
      let division := Radix.divLoop radix vn (m + 1) un
      let rest := division.2.take n
      (bignumNormalize ⟨false, limbsOf division.1⟩,
        bignumNormalize ⟨false, limbsOf (if 0 < shift then shiftLimbsRight shift rest else rest)⟩)

/-- `eshkol_bignum_div`, of a divisor that is not zero. -/
def bignumDiv (a b : Bignum) : Bignum :=
  let q := (bignumDivmodAbs a b).1
  { q with negative := a.negative != b.negative && !q.isZero }

/-- `eshkol_bignum_mod`, of a divisor that is not zero. -/
def bignumMod (a b : Bignum) : Bignum :=
  let r := (bignumDivmodAbs a b).2
  { r with negative := a.negative && !r.isZero }

/-- `eshkol_bignum_neg`. -/
def bignumNeg (a : Bignum) : Bignum := ⟨!a.isZero && !a.negative, a.limbs⟩

/-- `eshkol_bignum_fits_int64`, with the value that fits. -/
def bignumFitsInt64 (a : Bignum) : Option Int64 :=
  match a.limbs with
  | [val] =>
    if a.negative then
      if val = 0x8000000000000000 then some Int64.minValue
      else if val ≤ 0x7FFFFFFFFFFFFFFF then some (-val.toInt64) else none
    else if val ≤ 0x7FFFFFFFFFFFFFFF then some val.toInt64 else none
  | _ => none

/-! ## Exponentiation -/

/-- The loop of `eshkol_bignum_pow`: `result * b ^ e`. -/
def bignumPowLoop : ℕ → Bignum → Bignum → ℕ → Bignum
  | 0, result, _, _ => result
  | fuel + 1, result, b, e =>
    if 0 < e then
      let result := if e % 2 = 1 then bignumMul result b else result
      let e := e >>> 1
      bignumPowLoop fuel result (if 0 < e then bignumMul b b else b) e
    else result

/-- `eshkol_bignum_pow`: an exponent of 64 bits is used up in 64 rounds. -/
def bignumPow (base : Bignum) (exp : UInt64) : Bignum :=
  if exp = 0 then Bignum.ofInt64 1
  else if exp = 1 then bignumMul base (Bignum.ofInt64 1)
  else bignumPowLoop 64 (Bignum.ofInt64 1) (bignumMul base (Bignum.ofInt64 1)) exp.toNat

end Exact

/-!
## Bitwise operations on bignums

Conjunction and its kin work on two's complement limbs, in a buffer of at most 127 of them. A shift
moves whole limbs first and then bits.
-/

namespace Exact

open Hash (Bignum)

/-- The leading zero limbs go, but for the last. -/
def trimLimbs (limbs : List UInt64) : List UInt64 :=
  let trimmed := limbs.rdropWhile (· == 0)
  if trimmed.isEmpty then limbs.take 1 else trimmed

/-- Flip all bits, add one. -/
def negateLimbs : ℕ → List UInt64 → List UInt64
  | _, [] => []
  | carry, limb :: limbs =>
    let sum := (~~~limb).toNat + carry
    UInt64.ofNat sum :: negateLimbs (sum / radix) limbs

/-- `to_twos_complement`, in `n` limbs. -/
def toTwosComplement (a : Bignum) (n : ℕ) : List UInt64 :=
  let out := (List.range n).map (a.limbs.getD · 0)
  if a.negative then negateLimbs 1 out else out

/-- The limbs past those of the number are its sign. -/
def signExtended (a : Bignum) (n : ℕ) : List UInt64 :=
  let ext : UInt64 := if a.negative then 0xFFFFFFFFFFFFFFFF else 0
  (toTwosComplement a n).mapIdx fun i limb => if i < a.limbs.length then limb else ext

/-- `from_twos_complement`. -/
def fromTwosComplement (tc : List UInt64) : Bignum :=
  let negative := tc.getLastD 0 >>> 63 != 0
  ⟨negative, trimLimbs (if negative then negateLimbs 1 tc else tc)⟩

/-- The common shape of conjunction, disjunction and their exclusive kind. -/
def bignumBitwise (op : UInt64 → UInt64 → UInt64) (a b : Bignum) : Bignum :=
  let n := min (max a.limbs.length b.limbs.length + 1) 127
  fromTwosComplement (List.zipWith op (signExtended a n) (signExtended b n))

/-- `eshkol_bignum_bitwise_and`. -/
def bignumBitwiseAnd : Bignum → Bignum → Bignum := bignumBitwise (· &&& ·)

/-- `eshkol_bignum_bitwise_or`. -/
def bignumBitwiseOr : Bignum → Bignum → Bignum := bignumBitwise (· ||| ·)

/-- `eshkol_bignum_bitwise_xor`. -/
def bignumBitwiseXor : Bignum → Bignum → Bignum := bignumBitwise (· ^^^ ·)

/-- `eshkol_bignum_bitwise_not`. -/
def bignumBitwiseNot (a : Bignum) : Bignum :=
  let one := Bignum.ofInt64 1
  if a.negative then bignumSub (bignumNeg a) one else bignumNeg (bignumAdd a one)

/-- A conversion to `uint32_t`. -/
def toUInt32 (x : ℕ) : ℕ := x % (1 <<< 32)

/-- `eshkol_bignum_shift`. There is no result when the limbs of the buffer cannot be counted in 32
bits, or the count has no negation. -/
def bignumShift (a : Bignum) (count : Int64) : Option Bignum :=
  if a.isZero || count == 0 then some (Bignum.ofInt64 0)
  else if 0 < count then
    let wordShift := toUInt32 (count.toInt.toNat / 64)
    let bitShift := count.toInt.toNat % 64
    if 1 <<< 32 ≤ a.limbs.length + wordShift + 1 then none
    else
      let limbs := List.replicate wordShift 0 ++
        if bitShift = 0 then words a.limbs ++ [0] else shiftLimbsLeft bitShift 0 (words a.limbs)
      some ⟨a.negative, trimLimbs (limbsOf limbs)⟩
  else if count = Int64.minValue then none
  else
    let wordShift := toUInt32 (count.toInt.natAbs / 64)
    let bitShift := count.toInt.natAbs % 64
    if a.limbs.length ≤ wordShift then
      some (if a.negative then Bignum.ofInt64 (-1) else Bignum.ofInt64 0)
    else
      let limbs := (words a.limbs).drop wordShift
      let limbs := if bitShift = 0 then limbs else shiftLimbsRight bitShift limbs
      let result : Bignum := ⟨a.negative, trimLimbs (limbsOf limbs)⟩
      some (if a.negative && result.isZero then Bignum.ofInt64 (-1) else result)

end Exact
