import Eshkol.Exact.Bignum

/-!
# Reading integers

`strtoll` of the C library, and the decimal reader for bignums. A text is its bytes up to the
terminating zero, and a pointer into it is what is left of the text from there on.
-/

namespace Exact

open Hash (Bignum)

/-- `isspace`. -/
def isSpace (c : UInt8) : Bool := c == 0x20 || (0x09 ≤ c && c ≤ 0x0D)

/-- A digit of a number in some radix, letters of either case going on after nine. -/
def digitOf (base : ℕ) (c : UInt8) : Option ℕ :=
  let digit :=
    if '0'.toUInt8 ≤ c && c ≤ '9'.toUInt8 then some (c.toNat - '0'.toNat)
    else if 'a'.toUInt8 ≤ c && c ≤ 'z'.toUInt8 then some (c.toNat - 'a'.toNat + 10)
    else if 'A'.toUInt8 ≤ c && c ≤ 'Z'.toUInt8 then some (c.toNat - 'A'.toNat + 10)
    else none
  digit.filter (· < base)

/-- A sign, and what follows it. -/
def readSign : List UInt8 → Bool × List UInt8
  | [] => (false, [])
  | c :: rest =>
    if c == '-'.toUInt8 then (true, rest)
    else if c == '+'.toUInt8 then (false, rest) else (false, c :: rest)

/-- The prefix of a hexadecimal number, dropped if a digit follows. -/
def dropHexMark (base : ℕ) (text : List UInt8) : List UInt8 :=
  match text with
  | zero :: mark :: digit :: rest =>
    if base = 16 && zero == '0'.toUInt8 && (mark == 'x'.toUInt8 || mark == 'X'.toUInt8) &&
        (digitOf base digit).isSome then digit :: rest
    else text
  | _ => text

/-- The digits at the front of a text, and what follows them. -/
def readDigits (base : ℕ) : List UInt8 → List ℕ × List UInt8
  | [] => ([], [])
  | c :: rest =>
    match digitOf base c with
    | some d => (d :: (readDigits base rest).1, (readDigits base rest).2)
    | none => ([], c :: rest)

/-- The number the digits denote, the most significant first. -/
def digitsValue (base : ℕ) (digits : List ℕ) : ℕ := Nat.ofDigits base digits.reverse

/-- A magnitude with its sign. -/
def signedValue (negative : Bool) (magnitude : ℕ) : ℤ := if negative then -(magnitude : ℤ) else magnitude

/-- The result of `strtoll`: the value, where it stopped and whether it sets `ERANGE`. -/
structure Strtoll where
  value : Int64
  endptr : List UInt8
  erange : Bool
deriving DecidableEq

/-- `strtoll`. A value out of range is replaced by the nearest in range. -/
def strtoll (start : List UInt8) (base : ℕ) : Strtoll :=
  let (negative, text) := readSign (start.dropWhile isSpace)
  let (digits, endptr) := readDigits base (dropHexMark base text)
  if digits.isEmpty then ⟨0, start, false⟩
  else
    let value := signedValue negative (digitsValue base digits)
    if value < Int64.minValue.toInt then ⟨Int64.minValue, endptr, true⟩
    else if Int64.maxValue.toInt < value then ⟨Int64.maxValue, endptr, true⟩
    else ⟨.ofInt value, endptr, false⟩

/-- `eshkol_bignum_from_string`: a sign, and at least one digit. -/
def bignumFromString (str : List UInt8) : Option Bignum :=
  let (negative, digits) := readSign str
  if digits.isEmpty then none
  else (digits.mapM (digitOf 10)).map fun digits =>
    bignumNormalize ⟨negative, limbsOf (digits.foldl (fun limbs digit => Radix.mulAdd radix 10 digit limbs) [0])⟩

end Exact
