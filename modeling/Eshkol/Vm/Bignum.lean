import Eshkol.Base.DigitBits
import Eshkol.Base.DigitShift
import Mathlib.Data.Sign.Basic

/-!
# Bignums of the virtual machine

A sign and 32-bit limbs, least significant first. The loops over the limbs run in integers of 64 bits; a
result is written back limb by limb and loses its leading zeros. No limbs and the sign 0 are zero.
-/

namespace Vm.Bignum

/-- The radix, `2^32`. -/
def limbRadix : ℕ := 1 <<< 32

/-- `VmBignum`, as far as `n_limbs` goes. -/
structure VmBignum where
  sign : SignType
  limbs : List UInt32
deriving DecidableEq

/-- The limbs as digits. -/
def words (limbs : List UInt32) : List ℕ := limbs.map UInt32.toNat

/-- The digits written as limbs. -/
def limbsOf (digits : List ℕ) : List UInt32 := digits.map UInt32.ofNat

/-- `bignum_normalize`. -/
def bignumNormalize (b : VmBignum) : VmBignum :=
  let limbs := b.limbs.rdropWhile (· == 0)
  ⟨if limbs.isEmpty then 0 else b.sign, limbs⟩

/-- The limbs of a number of 64 bits: two, or one when the upper half is zero. -/
def limbsOfUint64 (mag : ℕ) : List UInt32 :=
  let low := UInt32.ofNat (mag % limbRadix)
  let high := UInt32.ofNat (mag >>> 32)
  if high ≠ 0 then [low, high] else [low]

/-- `bignum_from_int64`. -/
def bignumFromInt64 (v : Int64) : VmBignum :=
  if v = 0 then ⟨0, []⟩
  else if v < 0 then ⟨-1, limbsOfUint64 v.toInt.natAbs⟩
  else ⟨1, limbsOfUint64 v.toInt.natAbs⟩

/-- `bignum_from_uint64`. -/
def bignumFromUint64 (v : UInt64) : VmBignum :=
  if v = 0 then ⟨0, []⟩ else ⟨1, limbsOfUint64 v.toNat⟩

/-- `bignum_is_zero`. -/
def bignumIsZero (b : VmBignum) : Bool := b.limbs.isEmpty || b.sign == 0

/-- The loop of `bignum_compare_magnitude`, from the most significant limb down. -/
def compareLimbs : List UInt32 → List UInt32 → Ordering
  | a :: as, b :: bs => if a ≠ b then (if b < a then .gt else .lt) else compareLimbs as bs
  | _, _ => .eq

/-- `bignum_compare_magnitude`. -/
def bignumCompareMagnitude (a b : VmBignum) : Ordering :=
  if a.limbs.length ≠ b.limbs.length then
    if b.limbs.length < a.limbs.length then .gt else .lt
  else compareLimbs a.limbs.reverse b.limbs.reverse

/-! ## Addition and subtraction -/

/-- `mag_add`: one limb more than the longer number has, for the carry. -/
def magAdd (a b : VmBignum) : VmBignum :=
  let maxN := max a.limbs.length b.limbs.length + 1
  bignumNormalize ⟨0, limbsOf ((Radix.add limbRadix maxN 0 (words a.limbs) (words b.limbs)).take maxN)⟩

/-- The loop of `mag_sub`: a difference below zero borrows from the next limb. -/
def magSubLimbs : ℕ → List ℕ → List ℕ → List ℕ
  | _, [], _ => []
  | borrow, la :: as, bs =>
    let diff : ℤ := la - bs.headD 0 - borrow
    if diff < 0 then (diff + limbRadix).toNat :: magSubLimbs 1 as bs.tail
    else diff.toNat :: magSubLimbs 0 as bs.tail

/-- `mag_sub`. -/
def magSub (a b : VmBignum) : VmBignum :=
  bignumNormalize ⟨0, limbsOf (magSubLimbs 0 (words a.limbs) (words b.limbs))⟩

/-- `bignum_neg`. -/
def bignumNeg (a : VmBignum) : VmBignum := if !bignumIsZero a then { a with sign := -a.sign } else a

/-- `bignum_abs_val`. -/
def bignumAbsVal (a : VmBignum) : VmBignum := if a.sign < 0 then { a with sign := 1 } else a

/-- `bignum_add`. -/
def bignumAdd (a b : VmBignum) : VmBignum :=
  if bignumIsZero a then b
  else if bignumIsZero b then a
  else if a.sign = b.sign then { magAdd a b with sign := a.sign }
  else
    let cmp := bignumCompareMagnitude a b
    if cmp = .eq then bignumFromInt64 0
    else if cmp = .gt then { magSub a b with sign := a.sign }
    else { magSub b a with sign := b.sign }

/-- `bignum_sub`. -/
def bignumSub (a b : VmBignum) : VmBignum :=
  if bignumIsZero b then a
  else if bignumIsZero a then bignumNeg b
  else if a.sign ≠ b.sign then { magAdd a b with sign := a.sign }
  else
    let cmp := bignumCompareMagnitude a b
    if cmp = .eq then bignumFromInt64 0
    else if cmp = .gt then { magSub a b with sign := a.sign }
    else { magSub b a with sign := -a.sign }

/-! ## Division -/

/-- `mag_div_single`, of a divisor that is not zero: the quotient and the remainder. -/
def magDivSingle (a : VmBignum) (d : UInt32) : VmBignum × UInt32 :=
  let division := Radix.divDigit limbRadix d.toNat (words a.limbs)
  (bignumNormalize ⟨1, limbsOf division.1⟩, UInt32.ofNat division.2)

/-- The bits by which the top limb is shifted until its top bit is set; a limb has 32. -/
def normalizingShift : ℕ → ℕ → ℕ
  | 0, _ => 0
  | fuel + 1, t => if t < 0x80000000 then normalizingShift fuel ((t <<< 1) % limbRadix) + 1 else 0

/-- The shift to the left by `s` bits, with the carry out of it as the last limb. -/
def shiftLimbsLeft (s : ℕ) : ℕ → List ℕ → List ℕ
  | carry, [] => [carry]
  | carry, x :: xs =>
    let tmp := x <<< s ||| carry
    tmp % limbRadix :: shiftLimbsLeft s (tmp >>> 32) xs

/-- The shift to the right by `s` bits, from the most significant limb down, with the carry out of it. -/
def shiftLimbsRight (s : ℕ) : List ℕ → List ℕ × ℕ
  | [] => ([], 0)
  | x :: xs =>
    let rest := shiftLimbsRight s xs
    ((x >>> s ||| rest.2) :: rest.1, (x <<< (32 - s)) % limbRadix)

/-- `mag_div_knuth`, of a divisor with two limbs or more. The main loop is that of long division; its
borrow is kept here with the other sign. -/
def magDivKnuth (a b : VmBignum) : VmBignum × VmBignum :=
  let n := b.limbs.length
  if a.limbs.length < n then (bignumFromInt64 0, a)
  else
    let m := a.limbs.length - n
    let s := normalizingShift 32 ((words b.limbs).getD (n - 1) 0)
    let vn := if 0 < s then (shiftLimbsLeft s 0 (words b.limbs)).take n else words b.limbs
    let un := if 0 < s then shiftLimbsLeft s 0 (words a.limbs) else words a.limbs ++ [0]
    let division := Radix.divLoop limbRadix vn (m + 1) un
    let rest := division.2.take n
    (bignumNormalize ⟨1, limbsOf division.1⟩,
      bignumNormalize ⟨1, limbsOf (if 0 < s then (shiftLimbsRight s rest).1 else rest)⟩)

/-- A sign for a number that is not zero. -/
def withSign (b : VmBignum) (sign : SignType) : VmBignum :=
  if bignumIsZero b then b else { b with sign := sign }

/-- `bignum_divmod`; a divisor of zero has two zeros. -/
def bignumDivmod (a b : VmBignum) : VmBignum × VmBignum :=
  if bignumIsZero b then (bignumFromInt64 0, bignumFromInt64 0)
  else if bignumIsZero a then (bignumFromInt64 0, bignumFromInt64 0)
  else
    let division :=
      if b.limbs.length = 1 then
        let single := magDivSingle a (b.limbs.headD 0)
        (single.1, bignumFromUint64 single.2.toUInt64)
      else
        let cmp := bignumCompareMagnitude a b
        if cmp = .lt then (bignumFromInt64 0, a)
        else if cmp = .eq then (bignumFromInt64 1, bignumFromInt64 0)
        else magDivKnuth a b
    (withSign division.1 (if a.sign = b.sign then 1 else -1), withSign division.2 a.sign)

/-- `bignum_mod`. -/
def bignumMod (a b : VmBignum) : VmBignum := (bignumDivmod a b).2

/-- The loop of `bignum_gcd`; there is no result when the fuel runs out. -/
def gcdLoop : ℕ → VmBignum → VmBignum → Option VmBignum
  | 0, _, _ => none
  | fuel + 1, x, y =>
    if bignumIsZero y then some x else gcdLoop fuel y (withSign (bignumMod x y) 1)

/-- `bignum_gcd`. -/
def bignumGcd (fuel : ℕ) (a b : VmBignum) : Option VmBignum :=
  if bignumIsZero a then some (bignumAbsVal b)
  else if bignumIsZero b then some (bignumAbsVal a)
  else gcdLoop fuel (bignumAbsVal a) (bignumAbsVal b)

end Vm.Bignum

/-!
## Bitwise operations and shifts of the virtual machine's bignums

A number below zero has the complement of `|x| - 1` for its bits. Conjunction is computed for every pair of
signs; disjunction and exclusive disjunction of numbers below zero follow from it by complements.
-/

namespace Vm.Bignum

open Radix (zipPad)

/-- `|x| - 1`, for the complement of a number below zero. -/
def magMinusOne (a : VmBignum) : VmBignum := magSub (bignumAbsVal a) (bignumFromInt64 1)

/-- `bignum_bitwise_and`. -/
def bignumBitwiseAnd (a b : VmBignum) : VmBignum :=
  if bignumIsZero a || bignumIsZero b then bignumFromInt64 0
  else if 0 < a.sign && 0 < b.sign then
    let minN := min a.limbs.length b.limbs.length
    bignumNormalize ⟨1, zipPad (· &&& ·) 0 minN a.limbs b.limbs⟩
  else
    let maxN := max a.limbs.length b.limbs.length
    if 0 < a.sign && b.sign < 0 then
      bignumNormalize ⟨1, zipPad (fun x y => x &&& ~~~y) 0 a.limbs.length a.limbs (magMinusOne b).limbs⟩
    else if a.sign < 0 && 0 < b.sign then
      bignumNormalize ⟨1, zipPad (fun x y => ~~~x &&& y) 0 b.limbs.length (magMinusOne a).limbs b.limbs⟩
    else
      -- both below zero: the complement of the disjunction
      let orVal := bignumNormalize
        ⟨1, zipPad (· ||| ·) 0 maxN (magMinusOne a).limbs (magMinusOne b).limbs⟩
      { bignumAdd orVal (bignumFromInt64 1) with sign := -1 }

/-- `bignum_bitwise_not`. -/
def bignumBitwiseNot (a : VmBignum) : VmBignum :=
  let one := bignumFromInt64 1
  if 0 ≤ a.sign then { bignumAdd a one with sign := -1 } else bignumSub (bignumAbsVal a) one

/-- `bignum_bitwise_or`. -/
def bignumBitwiseOr (a b : VmBignum) : VmBignum :=
  if bignumIsZero a then b
  else if bignumIsZero b then a
  else if 0 < a.sign && 0 < b.sign then
    let maxN := max a.limbs.length b.limbs.length
    bignumNormalize ⟨1, zipPad (· ||| ·) 0 maxN a.limbs b.limbs⟩
  else bignumBitwiseNot (bignumBitwiseAnd (bignumBitwiseNot a) (bignumBitwiseNot b))

/-- `bignum_bitwise_xor`. -/
def bignumBitwiseXor (a b : VmBignum) : VmBignum :=
  if bignumIsZero a then b
  else if bignumIsZero b then a
  else if 0 < a.sign && 0 < b.sign then
    let maxN := max a.limbs.length b.limbs.length
    bignumNormalize ⟨1, zipPad (· ^^^ ·) 0 maxN a.limbs b.limbs⟩
  else
    let orVal := bignumBitwiseOr a b
    let andVal := bignumBitwiseAnd a b
    bignumBitwiseAnd orVal (bignumBitwiseNot andVal)

/-! ## Shifts -/

/-- `bignum_shift_left`, by an amount that is positive. -/
def shiftLeftBy (a : VmBignum) (shift : ℕ) : VmBignum :=
  let limbShift := shift / 32
  let bitShift := shift % 32
  let limbs := if bitShift = 0 then words a.limbs ++ [0] else shiftLimbsLeft bitShift 0 (words a.limbs)
  bignumNormalize ⟨a.sign, limbsOf (List.replicate limbShift 0 ++ limbs)⟩

/-- The limbs from `limbShift` on, shifted to the right by `bitShift` bits. -/
def shiftedDown (a : VmBignum) (limbShift bitShift : ℕ) : List ℕ :=
  let limbs := (words a.limbs).drop limbShift
  if bitShift = 0 then limbs else Radix.shiftRight 32 bitShift limbs

/-- Whether a bit that is shifted out is set. -/
def anyBitSet (a : VmBignum) (limbShift bitShift : ℕ) : Bool :=
  (a.limbs.take limbShift).any (· != 0) ||
    (decide (0 < bitShift) && ((words a.limbs).getD limbShift 0 &&& ((1 <<< bitShift) - 1)) != 0)

/-- `bignum_shift_right`, by an amount that is positive. -/
def shiftRightBy (a : VmBignum) (shift : ℕ) : VmBignum :=
  let limbShift := shift / 32
  let bitShift := shift % 32
  if a.limbs.length ≤ limbShift then bignumFromInt64 (if a.sign < 0 then -1 else 0)
  else
    let r := bignumNormalize ⟨a.sign, limbsOf (shiftedDown a limbShift bitShift)⟩
    -- a number below zero is rounded down
    if a.sign < 0 && anyBitSet a limbShift bitShift then
      { bignumAdd (bignumAbsVal r) (bignumFromInt64 1) with sign := -1 }
    else r

/-- `bignum_shift_left`. A negative amount is for the other function with its sign changed; `INT_MIN` has
no such number. -/
def bignumShiftLeft (a : VmBignum) (shift : Int32) : Option VmBignum :=
  if bignumIsZero a || shift == 0 then some a
  else if shift < 0 then
    if shift = Int32.minValue then none else some (shiftRightBy a shift.toInt.natAbs)
  else some (shiftLeftBy a shift.toInt.natAbs)

/-- `bignum_shift_right`. -/
def bignumShiftRight (a : VmBignum) (shift : Int32) : Option VmBignum :=
  if bignumIsZero a || shift == 0 then some a
  else if shift < 0 then
    if shift = Int32.minValue then none else some (shiftLeftBy a shift.toInt.natAbs)
  else some (shiftRightBy a shift.toInt.natAbs)

end Vm.Bignum
