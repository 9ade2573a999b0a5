import Eshkol.Base.DigitBits
import Eshkol.Exact.RingTheorems

/-!
# The arithmetic shift of bignums

A shift to the left is exact. A shift to the right drops bits of the magnitude, so that a number below zero
is rounded towards zero, and the number of whole limbs to shift by is cut to 32 bits.
-/

namespace Exact

open Hash (Bignum)
open Radix (Digits)
open Nat (ofDigits)
open TwosComplement (arithmeticShift)

/-- Trimmed limbs under a sign that is none for zero. -/
lemma denotes_trim {l : List ℕ} {m : ℕ} (negative : Bool) (hl : Digits radix l) (hne : l ≠ [])
    (hval : ofDigits radix l = m) (hzero : m = 0 → negative = false) :
    Denotes ⟨negative, trimLimbs (limbsOf l)⟩ (if negative then -(m : ℤ) else m) := by
  obtain ⟨hnorm, hmag⟩ := normalize_limbsOf negative hl hne
  have hlimbs : (bignumNormalize ⟨negative, limbsOf l⟩).limbs = trimLimbs (limbsOf l) := rfl
  rw [hlimbs, hval] at hmag
  refine ⟨⟨hnorm.nonempty, hnorm.top, fun hsingle => ?_⟩, ?_⟩
  · refine hzero ?_
    have hsingle' : trimLimbs (limbsOf l) = [0] := hsingle
    rw [← hmag, hsingle', magnitude_singleton]
    rfl
  · rw [toInt]
    simp only [hmag]

lemma pow_shift (count : ℕ) : radix ^ (count / 64) * 2 ^ (count % 64) = 2 ^ count := by
  rw [radix_eq, ← pow_mul, ← pow_add, Nat.div_add_mod]

/-! ## To the left -/

/-- The limbs of `eshkol_bignum_shift` to the left. -/
lemma shiftedUp_spec (a : Bignum) (count : ℕ) :
    let limbs := List.replicate (count / 64) 0 ++
      if count % 64 = 0 then words a.limbs ++ [0] else shiftLimbsLeft (count % 64) 0 (words a.limbs)
    Digits radix limbs ∧ limbs ≠ [] ∧ ofDigits radix limbs = magnitude a.limbs * 2 ^ count := by
  have hbits : count % 64 ≤ 64 := by omega
  obtain ⟨hval, hdigits, hlen⟩ := Radix.shiftedDividend_spec (w := 64) hbits (digits_words a.limbs)
  have hlimbs : (if count % 64 = 0 then words a.limbs ++ [0] else shiftLimbsLeft (count % 64) 0 (words a.limbs)) =
      Radix.shiftedDividend 64 (count % 64) (words a.limbs) := by
    rw [Radix.shiftedDividend]
    by_cases hzero : count % 64 = 0
    · rw [if_pos hzero, if_neg (by omega)]
    · rw [if_neg hzero, if_pos (by omega), shiftLimbsLeft_eq]
  simp only [hlimbs]
  refine ⟨?_, ?_, ?_⟩
  · rw [Radix.digits_append]
    exact ⟨fun d hd => by rw [List.eq_of_mem_replicate hd]; decide, hdigits⟩
  · refine List.ne_nil_of_length_pos ?_
    rw [List.length_append, hlen]
    omega
  · rw [Radix.ofDigits_replicate_append, ← pow_shift count, Nat.mul_comm (magnitude a.limbs), Nat.mul_assoc]
    exact congrArg _ hval

/-! ## To the right -/

/-- The bits by which a count of `k` shifts to the right: of the whole limbs only 32 bits count. -/
def shiftedBits (k : ℕ) : ℕ := 64 * toUInt32 (k / 64) + k % 64

/-- The result of a shift to the right by `e` bits. -/
def truncatedShift (x : ℤ) (e : ℕ) : ℤ :=
  if x < 0 then (if x.natAbs / 2 ^ e = 0 then -1 else -((x.natAbs / 2 ^ e : ℕ) : ℤ))
  else ((x.natAbs / 2 ^ e : ℕ) : ℤ)

lemma shiftedDown_spec (a : Bignum) {wordShift bitShift : ℕ} (hbits : bitShift < 64)
    (hlen : wordShift < a.limbs.length) :
    let limbs := if bitShift = 0 then (words a.limbs).drop wordShift
      else shiftLimbsRight bitShift ((words a.limbs).drop wordShift)
    Digits radix limbs ∧ limbs ≠ [] ∧
      ofDigits radix limbs = magnitude a.limbs / 2 ^ (64 * wordShift + bitShift) := by
  have hdigits := (digits_words a.limbs).drop wordShift
  obtain ⟨hval, hshifted, hlength⟩ := Radix.shiftedRemainder_spec (w := 64) (s := bitShift) (by omega) hdigits
  obtain ⟨-, hdrop⟩ := Radix.ofDigits_take_drop one_lt_radix (digits_words a.limbs)
    (by rw [length_words]; omega : wordShift ≤ (words a.limbs).length)
  have hlimbs : (if bitShift = 0 then (words a.limbs).drop wordShift
      else shiftLimbsRight bitShift ((words a.limbs).drop wordShift)) =
      Radix.shiftedRemainder 64 bitShift ((words a.limbs).drop wordShift) := by
    rw [Radix.shiftedRemainder]
    by_cases hzero : bitShift = 0
    · rw [if_pos hzero, if_neg (by omega)]
    · rw [if_neg hzero, if_pos (by omega), shiftLimbsRight_eq]
  simp only [hlimbs]
  refine ⟨hshifted, ?_, ?_⟩
  · refine List.ne_nil_of_length_pos ?_
    rw [hlength, List.length_drop, length_words]
    omega
  · have hpow : 2 ^ (64 * wordShift + bitShift) = radix ^ wordShift * 2 ^ bitShift := by
      rw [radix_eq, ← pow_mul, ← pow_add]
    rw [hpow, ← Nat.div_div_eq_div_mul, magnitude, ← hdrop]
    exact hval

/-- The sign of a number that is not zero. -/
lemma Normalized.negative_iff {a : Bignum} (ha : Normalized a) : a.negative = true ↔ toInt a < 0 := by
  constructor
  · exact ha.toInt_neg
  · intro hlt
    by_contra hfalse
    have := toInt_nonneg (by simpa using hfalse : a.negative = false)
    omega

lemma truncatedShift_toInt {a : Bignum} (ha : Normalized a) (e : ℕ) :
    truncatedShift (toInt a) e = if a.negative
      then (if magnitude a.limbs / 2 ^ e = 0 then -1 else -((magnitude a.limbs / 2 ^ e : ℕ) : ℤ))
      else ((magnitude a.limbs / 2 ^ e : ℕ) : ℤ) := by
  rw [truncatedShift, natAbs_toInt]
  by_cases hneg : a.negative = true
  · rw [if_pos hneg, if_pos (ha.negative_iff.1 hneg)]
  · rw [if_neg hneg, if_neg (mt ha.negative_iff.2 hneg)]

/-- A left shift is a product. -/
lemma shiftLeft_spec {a : Bignum} {count : Int64} (ha : Normalized a) (hne : toInt a ≠ 0)
    (hpos : 0 < count) (halloc : a.limbs.length + count.toInt.toNat / 64 + 1 < 1 <<< 32) :
    ∃ r, bignumShift a count = some r ∧ Denotes r (toInt a * 2 ^ count.toInt.toNat) := by
  have hzero : a.isZero = false := by
    by_contra htrue
    rw [Bool.not_eq_false, ha.isZero_iff] at htrue
    have := natAbs_toInt a
    omega
  have hcount : (count == 0) = false := by
    rw [beq_eq_false_iff_ne]
    rintro rfl
    exact absurd hpos (by decide)
  have hword : toUInt32 (count.toInt.toNat / 64) = count.toInt.toNat / 64 :=
    Nat.mod_eq_of_lt (by omega)
  obtain ⟨hdigits, hlimbs, hval⟩ := shiftedUp_spec a count.toInt.toNat
  rw [bignumShift, hzero, hcount, Bool.or_self, if_neg Bool.false_ne_true, if_pos hpos]
  simp only [hword]
  rw [if_neg (by omega)]
  refine ⟨_, rfl, ?_⟩
  have h := denotes_trim a.negative hdigits hlimbs hval fun hm => by
    rw [Nat.mul_eq_zero] at hm
    exact ha.zero_nonneg (hm.resolve_right (Nat.two_pow_pos _).ne')
  have hvalue : toInt a * 2 ^ count.toInt.toNat = if a.negative
      then -((magnitude a.limbs * 2 ^ count.toInt.toNat : ℕ) : ℤ)
      else (magnitude a.limbs * 2 ^ count.toInt.toNat : ℕ) := by
    rw [toInt]
    split <;> push_cast <;> ring
  rw [hvalue]
  exact h

/-- A right shift truncates the magnitude. -/
lemma shiftRight_spec {a : Bignum} {count : Int64} (ha : Normalized a) (hne : toInt a ≠ 0)
    (hneg : count.toInt < 0) (hmin : count ≠ Int64.minValue) :
    ∃ r, bignumShift a count = some r ∧
      Denotes r (truncatedShift (toInt a) (shiftedBits count.toInt.natAbs)) := by
  have hzero : a.isZero = false := by
    by_contra htrue
    rw [Bool.not_eq_false, ha.isZero_iff] at htrue
    have := natAbs_toInt a
    omega
  have hcount : (count == 0) = false := by
    rw [beq_eq_false_iff_ne]
    rintro rfl
    exact absurd hneg (by decide)
  have hnot_pos : ¬ 0 < count := by
    rw [Int64.lt_iff_toInt_lt, Int64.toInt_zero]
    omega
  rw [bignumShift, hzero, hcount, Bool.or_self, if_neg Bool.false_ne_true, if_neg hnot_pos, if_neg hmin,
    truncatedShift_toInt ha, shiftedBits]
  simp only
  by_cases hlen : a.limbs.length ≤ toUInt32 (count.toInt.natAbs / 64)
  · -- the magnitude has no limb that is left
    have hdiv : magnitude a.limbs / 2 ^ (64 * toUInt32 (count.toInt.natAbs / 64) + count.toInt.natAbs % 64) =
        0 := by
      rw [Nat.div_eq_zero_iff]
      refine .inr (Nat.lt_of_lt_of_le (magnitude_lt _) ?_)
      rw [radix_eq, ← pow_mul]
      exact Nat.pow_le_pow_right (by decide) (by omega)
    rw [if_pos hlen, hdiv]
    refine ⟨_, rfl, ?_⟩
    split
    · exact denotes_ofInt64 (-1)
    · exact denotes_ofInt64 0
  · rw [if_neg hlen]
    obtain ⟨hdigits, hlimbs, hval⟩ := shiftedDown_spec a
      (Nat.mod_lt count.toInt.natAbs (by decide : 0 < 64)) (Nat.lt_of_not_le hlen)
    generalize (if count.toInt.natAbs % 64 = 0 then _ else _ : List ℕ) = limbs at *
    generalize magnitude a.limbs / 2 ^ _ = m at *
    have hisZero : Bignum.isZero ⟨a.negative, trimLimbs (limbsOf limbs)⟩ = true ↔ m = 0 := by
      have h := denotes_trim false hdigits hlimbs hval fun _ => rfl
      have hmag := h.toInt_eq
      rw [if_neg Bool.false_ne_true] at hmag
      exact (h.normalized.isZero_iff).trans (by
        rw [← natAbs_toInt ⟨false, _⟩, hmag]
        omega)
    refine ⟨_, rfl, ?_⟩
    by_cases hm : m = 0
    · rw [hisZero.2 hm, Bool.and_true, if_pos hm]
      cases hsign : a.negative with
      | true => exact denotes_ofInt64 (-1)
      | false =>
        have h := denotes_trim false hdigits hlimbs hval fun _ => rfl
        exact h
    · have hfalse : Bignum.isZero ⟨a.negative, trimLimbs (limbsOf limbs)⟩ = false := by
        rw [← Bool.not_eq_true, hisZero]
        exact hm
      rw [hfalse, Bool.and_false, if_neg Bool.false_ne_true, if_neg hm]
      exact denotes_trim a.negative hdigits hlimbs hval fun h => absurd h hm

/-! ## When the shift is right -/

/-- When a shift to the right by `k` bits rounds down: of the counts whose limbs fit into 32 bits those
that drop nothing or everything of a number below zero, of the others those that happen to leave the same. -/
def RightExact (x : ℤ) (k : ℕ) : Prop :=
  if k / 64 < 1 <<< 32 then 0 ≤ x ∨ ((2 ^ k : ℕ) : ℤ) ∣ x ∨ x.natAbs < 2 ^ k
  else x.natAbs < 2 ^ shiftedBits k ∨ (x < 0 ∧ x.natAbs < 2 ^ (shiftedBits k + 1))

/-- When the shift by `count` is the product with `2 ^ count`, rounded down. -/
def ShiftExact (x : ℤ) (count : Int64) : Prop :=
  x = 0 ∨ 0 < count ∨ (count.toInt < 0 ∧ count ≠ Int64.minValue ∧ RightExact x count.toInt.natAbs)

/-- Where truncation is the floor. -/
lemma truncatedShift_eq_iff {x : ℤ} {k : ℕ} (hx : x ≠ 0)
    (hlt : ¬ k / 64 < 1 <<< 32 → x.natAbs < 2 ^ k) :
    truncatedShift x (shiftedBits k) = x / (2 ^ k : ℕ) ↔ RightExact x k := by
  have hpow : 0 < 2 ^ k := Nat.two_pow_pos k
  have hpos : x.natAbs ≠ 0 := by omega
  have hneg : x < 0 → x / (2 ^ k : ℕ) = if x.natAbs % 2 ^ k = 0 then -((x.natAbs / 2 ^ k : ℕ) : ℤ)
      else Int.negSucc (x.natAbs / 2 ^ k) := by
    intro hx_neg
    rw [← TwosComplement.neg_ediv hpow]
    congr 1
    omega
  have hnonneg : ¬ x < 0 → x / (2 ^ k : ℕ) = (x.natAbs / 2 ^ k : ℕ) := by
    intro hx_nonneg
    rw [Int.natCast_ediv]
    congr 1
    omega
  rw [RightExact, truncatedShift]
  by_cases hword : k / 64 < 1 <<< 32
  · have hbits : shiftedBits k = k := by
      rw [shiftedBits, toUInt32, Nat.mod_eq_of_lt hword]
      omega
    rw [if_pos hword, hbits]
    by_cases hx_neg : x < 0
    · have hdvd : ((2 ^ k : ℕ) : ℤ) ∣ x ↔ x.natAbs % 2 ^ k = 0 := by
        rw [Int.natCast_dvd, Nat.dvd_iff_mod_eq_zero]
      have hsmall : x.natAbs < 2 ^ k ↔ x.natAbs / 2 ^ k = 0 := by
        rw [Nat.div_eq_zero_iff]
        omega
      have hdiv := Nat.mod_add_div x.natAbs (2 ^ k)
      rw [if_pos hx_neg, hneg hx_neg, hdvd, hsmall]
      by_cases hzero : x.natAbs / 2 ^ k = 0
      · rw [hzero, Nat.mul_zero] at hdiv
        rw [hzero, if_pos rfl, if_neg (by omega)]
        exact ⟨fun _ => .inr (.inr rfl), fun _ => rfl⟩
      · rw [if_neg hzero]
        by_cases hdrop : x.natAbs % 2 ^ k = 0
        · rw [if_pos hdrop]
          exact ⟨fun _ => .inr (.inl hdrop), fun _ => rfl⟩
        · rw [if_neg hdrop, Int.negSucc_eq]
          omega
    · rw [if_neg hx_neg, hnonneg hx_neg]
      exact ⟨fun _ => .inl (by omega), fun _ => rfl⟩
  · -- every bit is dropped
    have hquot : x.natAbs / 2 ^ k = 0 := Nat.div_eq_of_lt (hlt hword)
    have hdouble : 2 ^ (shiftedBits k + 1) = 2 * 2 ^ shiftedBits k := by rw [pow_succ, Nat.mul_comm]
    have hpow_bits : 0 < 2 ^ shiftedBits k := Nat.two_pow_pos _
    have hsmall : x.natAbs / 2 ^ shiftedBits k = 0 ↔ x.natAbs < 2 ^ shiftedBits k := by
      rw [Nat.div_eq_zero_iff]
      omega
    have hone : x.natAbs / 2 ^ shiftedBits k < 2 ↔ x.natAbs < 2 * 2 ^ shiftedBits k :=
      Nat.div_lt_iff_lt_mul hpow_bits
    rw [if_neg hword, hdouble, ← hsmall, ← hone]
    generalize x.natAbs / 2 ^ shiftedBits k = q
    by_cases hx_neg : x < 0
    · rw [if_pos hx_neg, hneg hx_neg, hquot, Nat.mod_eq_of_lt (hlt hword), if_neg hpos]
      split <;> omega
    · rw [if_neg hx_neg, hnonneg hx_neg, hquot]
      omega

/-- For a result that can be allocated the shift is exact just on these counts. -/
theorem shift_iff {a : Bignum} {count : Int64} (ha : Normalized a) (hlen : a.limbs.length < 1 <<< 32)
    (halloc : 0 < count → a.limbs.length + count.toInt.toNat / 64 + 1 < 1 <<< 32) :
    (∃ r, bignumShift a count = some r ∧ Denotes r (arithmeticShift (toInt a) count.toInt)) ↔
      ShiftExact (toInt a) count := by
  rw [ShiftExact]
  by_cases hx : toInt a = 0
  · have hzero : a.isZero = true := ha.isZero_iff.2 (by rw [← natAbs_toInt, hx]; rfl)
    rw [bignumShift, hzero, Bool.true_or, if_pos rfl, hx, TwosComplement.arithmeticShift_zero_left]
    exact ⟨fun _ => .inl rfl, fun _ => ⟨_, rfl, denotes_ofInt64 0⟩⟩
  by_cases hcount : count = 0
  · -- the code returns zero for a count of zero
    subst hcount
    rw [bignumShift, beq_self_eq_true, Bool.or_true, if_pos rfl, Int64.toInt_zero,
      TwosComplement.arithmeticShift_pos le_rfl, Int.natAbs_zero, pow_zero, mul_one]
    constructor
    · rintro ⟨r, hr, hdenotes⟩
      rw [← Option.some.inj hr] at hdenotes
      exact absurd ((denotes_ofInt64 0).toInt_eq.symm.trans hdenotes.toInt_eq).symm hx
    · rintro (hzero | hpos | hneg)
      · exact absurd hzero hx
      · exact absurd hpos (by decide)
      · exact absurd hneg.1 (by decide)
  have hcount_ne : count.toInt ≠ 0 := fun h => hcount (Int64.toInt_inj.1 h)
  have hpos_iff : 0 < count ↔ 0 < count.toInt := by rw [Int64.lt_iff_toInt_lt, Int64.toInt_zero]
  by_cases hpos : 0 < count
  · have hcount_pos := hpos_iff.1 hpos
    obtain ⟨r, hr, hdenotes⟩ := shiftLeft_spec ha hx hpos (halloc hpos)
    rw [hr, TwosComplement.arithmeticShift_pos hcount_pos.le]
    refine ⟨fun _ => .inr (.inl hpos), fun _ => ⟨r, rfl, ?_⟩⟩
    rwa [show count.toInt.natAbs = count.toInt.toNat by omega]
  have hneg : count.toInt < 0 := by
    rw [hpos_iff] at hpos
    omega
  by_cases hmin : count = Int64.minValue
  · subst hmin
    have hzero : a.isZero = false := by
      by_contra htrue
      rw [Bool.not_eq_false, ha.isZero_iff] at htrue
      have := natAbs_toInt a
      omega
    have hnone : bignumShift a Int64.minValue = none := by
      rw [bignumShift, hzero, Bool.false_or, if_neg (by decide), if_neg (by decide), if_pos rfl]
    rw [hnone]
    constructor
    · rintro ⟨r, hr, -⟩
      cases hr
    · rintro (hzero | hpos' | hneg')
      · exact absurd hzero hx
      · exact absurd hpos' (by decide)
      · exact absurd rfl hneg'.2.1
  obtain ⟨r, hr, hdenotes⟩ := shiftRight_spec ha hx hneg hmin
  have hlt : ¬ count.toInt.natAbs / 64 < 1 <<< 32 → (toInt a).natAbs < 2 ^ count.toInt.natAbs := by
    intro hword
    rw [natAbs_toInt]
    refine Nat.lt_of_lt_of_le (magnitude_lt _) ?_
    rw [radix_eq, ← pow_mul]
    exact Nat.pow_le_pow_right (by decide) (by omega)
  have hiff := truncatedShift_eq_iff hx hlt
  rw [hr, TwosComplement.arithmeticShift_of_neg hneg]
  constructor
  · rintro ⟨r', hr', hdenotes'⟩
    rw [← Option.some.inj hr'] at hdenotes'
    exact .inr (.inr ⟨hneg, hmin, hiff.1 (hdenotes.toInt_eq.symm.trans hdenotes'.toInt_eq)⟩)
  · rintro (hzero | hpos' | ⟨-, -, hright⟩)
    · exact absurd hzero hx
    · exact absurd hpos' hpos
    · rw [← hiff.2 hright]
      exact ⟨r, rfl, hdenotes⟩

/-- `5` shifted to the left by 70. -/
theorem shift_iff_five :
    ∃ r, bignumShift ⟨false, [5]⟩ 70 = some r ∧ Denotes r (arithmeticShift 5 70) :=
  (shift_iff ⟨by decide, by decide, by decide⟩ (by decide) (by decide)).2 (.inr (.inl (by decide)))

/-- `5` shifted by zero is zero. -/
theorem not_shift_zero :
    ¬ ∃ r, bignumShift ⟨false, [5]⟩ 0 = some r ∧ Denotes r (arithmeticShift (toInt ⟨false, [5]⟩) 0) := by
  rintro ⟨r, hr, hdenotes⟩
  have hzero : bignumShift ⟨false, [5]⟩ 0 = some (Bignum.ofInt64 0) := by decide
  rw [hzero] at hr
  have hvalue := hdenotes.toInt_eq
  rw [← Option.some.inj hr, TwosComplement.arithmeticShift_pos le_rfl] at hvalue
  exact absurd hvalue (by decide)

end Exact
