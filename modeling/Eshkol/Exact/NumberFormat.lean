import Eshkol.Exact.Tower
import Eshkol.Logic.Persistence

/-!
# The texts of exact numbers

What the printer makes of a number: the C library writes integers of 64 bits, bignums are divided by ten
digit by digit, and a rational is its two parts with a slash.
-/

namespace Exact

open Hash (Rational)
open Logic (bignumToString)

def asciiDigit (d : ℕ) : UInt8 := '0'.toUInt8 + UInt8.ofNat d

/-- The decimal digits of a number, the first one first. -/
def decimalText (m : ℕ) : List UInt8 :=
  if m = 0 then ['0'.toUInt8] else (Nat.digits 10 m).reverse.map asciiDigit

/-- An integer as the C library writes it. -/
def integerText (x : ℤ) : List UInt8 :=
  if x < 0 then '-'.toUInt8 :: decimalText x.natAbs else decimalText x.natAbs

/-- `%lld`. -/
def formatInt64 (n : Int64) : List UInt8 := integerText n.toInt

/-- `eshkol_rational_to_string`. -/
def rationalToString : Rational → List UInt8
  | .big num den =>
    let numS := (bignumToString true num).getD []
    if bnEqualsI64 den 1 then numS
    else numS ++ '/'.toUInt8 :: (bignumToString true den).getD []
  | .small num den =>
    if den = 1 then formatInt64 num else formatInt64 num ++ '/'.toUInt8 :: formatInt64 den

/-- The text of an exact number. -/
def exactToString {D : Type} : Tagged D → Option (List UInt8)
  | .int64 n => some (formatInt64 n)
  | .bignum n => bignumToString true n
  | .rational q => some (rationalToString q)
  | .double _ => none
  | .false => none

end Exact
