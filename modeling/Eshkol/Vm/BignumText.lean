import Eshkol.Exact.NumberFormat
import Eshkol.Vm.Bignum

/-!
# Decimal texts of bignums in the virtual machine

Reading and writing go nine digits at a time. A text is its bytes up to the terminating zero. Sizes are
computed in `int`: there is no result when one of them does not fit, nor when an array is too short.
-/

namespace Vm.Bignum

open Exact (readSign digitOf decimalText)

/-- The value of an `int` expression; it is undefined outside the range. -/
def int32 (x : ℤ) : Option ℤ :=
  if Int32.minValue.toInt ≤ x ∧ x ≤ Int32.maxValue.toInt then some x else none

/-- The conversion of a length to `int`, which drops the upper bits. -/
def intOfSize (n : ℕ) : ℤ := (n : ℤ).bmod (1 <<< 32)

/-- `10^9`. -/
def chunkBase : UInt32 := 1000000000

/-! ## Reading -/

/-- Zeros are skipped while something follows them. -/
def skipZeros : List UInt8 → List UInt8
  | c :: d :: rest => if c = '0'.toUInt8 then skipZeros (d :: rest) else c :: d :: rest
  | text => text

/-- `est_limbs`. -/
def estLimbs (len : ℤ) : Option ℤ := do
  let bits ← int32 (len * 34)
  let rounded ← int32 (bits + 319)
  int32 (rounded.tdiv 320 + 2)

/-- The characters of a chunk as a number of 32 bits; there is none if one of them is not a digit. -/
def chunkVal (chunk : List UInt8) : Option ℕ :=
  chunk.foldlM (fun val c => (digitOf 10 c).map fun digit => (val * 10 + digit) % limbRadix) 0

/-- The base of a chunk. -/
def chunkMultiplier (chunkLen : ℕ) : ℕ := (fun multiplier => multiplier * 10 % limbRadix)^[chunkLen] 1

/-- The size of the next chunk: the first one takes what does not fill nine characters. -/
def nextChunkLen (first : Bool) (remaining : ℕ) : ℕ :=
  if first && remaining % 9 ≠ 0 then remaining % 9 else 9

lemma nextChunkLen_pos (first : Bool) (remaining : ℕ) : 0 < nextChunkLen first remaining := by
  rw [nextChunkLen]
  split
  · rename_i h
    rw [Bool.and_eq_true, decide_eq_true_eq] at h
    omega
  · exact Nat.succ_pos 8

/-- The loop of `bignum_from_string`. A carry is below the radix, so that it takes one limb at most. -/
def readChunks (first : Bool) (limbs : List ℕ) (text : List UInt8) : Option (List ℕ) :=
  if text = [] then some limbs
  else
    let chunkLen := nextChunkLen first text.length
    match chunkVal (text.take chunkLen) with
    | none => none
    | some val =>
      readChunks false (Radix.mulAdd limbRadix (chunkMultiplier chunkLen) val limbs) (text.drop chunkLen)
termination_by text.length
decreasing_by
  rename_i hne
  have hpos := List.length_pos_iff.2 hne
  have hchunk := nextChunkLen_pos first text.length
  rw [List.length_drop]
  omega

/-- `bignum_from_string`. -/
def bignumFromString (s : List UInt8) : Option VmBignum :=
  if s = [] then some (bignumFromInt64 0)
  else
    let neg := (readSign s).1
    let text := skipZeros (readSign s).2
    let len := intOfSize text.length
    if len = 0 then some (bignumFromInt64 0)
    else do
      let _ ← estLimbs len
      match readChunks true [] (text.take len.toNat) with
      | none => some (bignumFromInt64 0)
      | some limbs => some (bignumNormalize ⟨if neg then -1 else 1, limbsOf limbs⟩)

/-! ## Writing -/

/-- The loop that divides by `10^9`, which yields the last digits first. `room` is what is left of the array
of chunks. -/
def extractChunks : ℕ → VmBignum → Option (List UInt32)
  | 0, tmp => if bignumIsZero tmp then some [] else none
  | room + 1, tmp =>
    if bignumIsZero tmp then some []
    else
      let division := magDivSingle tmp chunkBase
      (extractChunks room division.1).map (division.2 :: ·)

/-- The chunks of a number. -/
def bignumChunks (b : VmBignum) : Option (List UInt32) := do
  let maxChunks ← int32 (b.limbs.length * 2 + 2)
  extractChunks maxChunks.toNat (bignumAbsVal b)

/-- `%09u`. -/
def paddedText (chunk : UInt32) : List UInt8 :=
  List.replicate (9 - (decimalText chunk.toNat).length) '0'.toUInt8 ++ decimalText chunk.toNat

/-- The chunks in the order of the text, all but the first one with leading zeros. -/
def chunksText : List UInt32 → List UInt8
  | [] => []
  | chunk :: chunks => decimalText chunk.toNat ++ chunks.flatMap paddedText

/-- `bignum_to_string`. -/
def bignumToString (b : VmBignum) : Option (List UInt8) :=
  if bignumIsZero b then some ['0'.toUInt8]
  else do
    let estLen ← int32 (b.limbs.length * 10 + 2)
    let chunks ← bignumChunks b
    let text := (if b.sign < 0 then ['-'.toUInt8] else []) ++ chunksText chunks.reverse
    if (text.length + 1 : ℤ) ≤ estLen then some text else none

end Vm.Bignum
