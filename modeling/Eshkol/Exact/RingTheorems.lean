import Eshkol.Exact.BignumSpec
import Eshkol.Base.LongDivisionRange

/-!
# The ring of bignums

The operations on normalized bignums are those of `ℤ`, and the comparisons tell the sign of the
difference.
-/

namespace Exact

open Hash (Bignum)

/-- A normalized bignum of value `x`. -/
structure Denotes (r : Bignum) (x : ℤ) : Prop where
  normalized : Normalized r
  toInt_eq : toInt r = x

lemma denotes_add {a b : Bignum} (ha : Normalized a) (hb : Normalized b) :
    Denotes (bignumAdd a b) (toInt a + toInt b) := ⟨(add_spec ha hb).1, (add_spec ha hb).2⟩

lemma denotes_sub {a b : Bignum} (ha : Normalized a) (hb : Normalized b) :
    Denotes (bignumSub a b) (toInt a - toInt b) := ⟨(sub_spec ha hb).1, (sub_spec ha hb).2⟩

lemma denotes_mul {a b : Bignum} (ha : Normalized a) (hb : Normalized b) :
    Denotes (bignumMul a b) (toInt a * toInt b) := ⟨(mul_spec ha hb).1, (mul_spec ha hb).2⟩

lemma denotes_neg {a : Bignum} (ha : Normalized a) : Denotes (bignumNeg a) (-toInt a) :=
  ⟨(neg_spec ha).1, (neg_spec ha).2⟩

lemma denotes_pow {a : Bignum} (ha : Normalized a) (exp : UInt64) :
    Denotes (bignumPow a exp) (toInt a ^ exp.toNat) := ⟨(pow_spec ha exp).1, (pow_spec ha exp).2⟩

lemma denotes_ofInt64 (n : Int64) : Denotes (Bignum.ofInt64 n) n.toInt :=
  ⟨(ofInt64_spec n).1, (ofInt64_spec n).2⟩

/-- The result of an operation on `int64`s, by its number in the call. -/
def overflowed (a b : Int64) : Fin 3 → ℤ
  | 0 => a.toInt + b.toInt
  | 1 => a.toInt - b.toInt
  | 2 => a.toInt * b.toInt

/-- What overflowed is done again in limbs. -/
lemma fromOverflow_spec (a b : Int64) (op : Fin 3) :
    ∃ r, bignumFromOverflow a b op.val = some r ∧ Denotes r (overflowed a b op) := by
  have ha := denotes_ofInt64 a
  have hb := denotes_ofInt64 b
  match op with
  | 0 =>
    have h := denotes_add ha.normalized hb.normalized
    rw [ha.toInt_eq, hb.toInt_eq] at h
    exact ⟨_, rfl, h⟩
  | 1 =>
    have h := denotes_sub ha.normalized hb.normalized
    rw [ha.toInt_eq, hb.toInt_eq] at h
    exact ⟨_, rfl, h⟩
  | 2 =>
    have h := denotes_mul ha.normalized hb.normalized
    rw [ha.toInt_eq, hb.toInt_eq] at h
    exact ⟨_, rfl, h⟩

/-! ## Comparison -/

/-- The number that stands for the outcome of a comparison. -/
def sign : Ordering → ℤ
  | .lt => -1
  | .eq => 0
  | .gt => 1

@[simp] lemma sign_swap (o : Ordering) : sign o.swap = -sign o := by
  cases o <;> rfl

lemma sign_compare (m n : ℕ) : sign (compare m n) = (m - n : ℤ).sign := by
  rw [Nat.compare_eq_ite_lt]
  by_cases hlt : m < n
  · rw [if_pos hlt, Int.sign_eq_neg_one_of_neg (by omega)]
    rfl
  · rw [if_neg hlt]
    by_cases hgt : n < m
    · rw [if_pos hgt, Int.sign_eq_one_of_pos (by omega)]
      rfl
    · rw [if_neg hgt, show (m - n : ℤ) = 0 by omega]
      rfl

lemma toInt_nonneg {a : Bignum} (h : a.negative = false) : 0 ≤ toInt a := by
  simp [toInt, h]

lemma Normalized.toInt_neg {a : Bignum} (ha : Normalized a) (h : a.negative = true) : toInt a < 0 := by
  have hpos : magnitude a.limbs ≠ 0 := by
    intro hzero
    simp [ha.zero_nonneg hzero] at h
  simp only [toInt, h, if_true]
  omega

lemma Normalized.isZero_of_negative {a : Bignum} (ha : Normalized a) (h : a.negative = true) :
    a.isZero = false := by
  by_contra hzero
  rw [Bool.not_eq_false, ha.isZero_iff] at hzero
  simp [ha.zero_nonneg hzero] at h

/-- `eshkol_bignum_compare` tells the sign of the difference. -/
lemma compare_spec {a b : Bignum} (ha : Normalized a) (hb : Normalized b) :
    sign (a.compare b) = (toInt a - toInt b).sign := by
  rw [Bignum.compare]
  by_cases hsign : a.negative = b.negative
  · rw [if_neg (not_not.2 hsign), compareAbs_eq ha hb]
    cases hneg : a.negative with
    | false =>
      rw [if_neg Bool.false_ne_true, sign_compare]
      simp [toInt, hneg, ← hsign]
    | true =>
      rw [if_pos rfl, sign_swap, sign_compare, ← Int.sign_neg, Int.neg_sub]
      congr 1
      simp only [toInt, hneg, ← hsign, if_true]
      omega
  · -- zero is not negative, so the two are not both zero
    rw [if_pos hsign]
    cases hneg : a.negative with
    | true =>
      have hneg_b : b.negative = false := by simpa [hneg] using hsign
      have hlt := ha.toInt_neg hneg
      have hge := toInt_nonneg hneg_b
      rw [ha.isZero_of_negative hneg, Bool.false_and, if_neg Bool.false_ne_true, if_pos rfl,
        Int.sign_eq_neg_one_of_neg (by omega)]
      rfl
    | false =>
      have hneg_b : b.negative = true := by simpa [hneg] using Ne.symm hsign
      have hge := toInt_nonneg hneg
      have hlt := hb.toInt_neg hneg_b
      rw [hb.isZero_of_negative hneg_b, Bool.and_false, if_neg Bool.false_ne_true,
        if_neg Bool.false_ne_true, Int.sign_eq_one_of_pos (by omega)]
      rfl

lemma compareAbs_singleton (negative negative' : Bool) (x y : UInt64) :
    Bignum.compareAbs ⟨negative, [x]⟩ ⟨negative', [y]⟩ =
      if y < x then .gt else if x < y then .lt else .eq := by
  simp only [Bignum.compareAbs, List.length_singleton, List.reverse_singleton, Bignum.compareLimbs]
  rw [if_neg (not_not.2 rfl)]
  by_cases hxy : x = y
  · subst hxy
    simp
  · have hlt : y < x ∨ x < y := by
      rw [← UInt64.toNat_inj] at hxy
      rw [UInt64.lt_iff_toNat_lt, UInt64.lt_iff_toNat_lt]
      omega
    rw [if_pos hxy]
    by_cases hyx : y < x
    · rw [if_pos hyx, if_pos hyx]
    · rw [if_neg hyx, if_neg hyx, if_pos (hlt.resolve_left hyx)]

/-- The quick path of `eshkol_bignum_compare_int64` agrees with the full comparison. -/
lemma compareInt64_eq (a : Bignum) (b : Int64) : a.compareInt64 b = a.compare (Bignum.ofInt64 b) := by
  obtain ⟨negative, limbs⟩ := a
  rcases limbs with _ | ⟨av, _ | ⟨av', rest⟩⟩
  · rfl
  · cases negative with
    | false =>
      simp only [Bignum.compareInt64]
      split
      · rename_i hb
        rw [Bignum.ofInt64, if_neg (not_lt.2 hb), Bignum.compare, if_neg (not_not.2 rfl),
          compareAbs_singleton]
        rfl
      · rfl
    | true =>
      simp only [Bignum.compareInt64]
      split
      · rename_i hb
        rw [Bignum.ofInt64, if_pos hb, Bignum.compare, if_neg (not_not.2 rfl), compareAbs_singleton]
        simp only [if_true]
        split
        · rfl
        · split <;> rfl
      · rfl
  · rfl

/-! ## The operations together -/

/-- What the ring operations and the comparisons return. -/
structure RingExact (a b : Bignum) (exp : UInt64) (m n : Int64) (op : Fin 3) : Prop where
  add : Denotes (bignumAdd a b) (toInt a + toInt b)
  sub : Denotes (bignumSub a b) (toInt a - toInt b)
  mul : Denotes (bignumMul a b) (toInt a * toInt b)
  neg : Denotes (bignumNeg a) (-toInt a)
  pow : Denotes (bignumPow a exp) (toInt a ^ exp.toNat)
  fromOverflow : ∃ r, bignumFromOverflow m n op.val = some r ∧ Denotes r (overflowed m n op)
  compare : sign (a.compare b) = (toInt a - toInt b).sign
  compareInt64 : sign (a.compareInt64 n) = (toInt a - n.toInt).sign

theorem ring_exact {a b : Bignum} (ha : Normalized a) (hb : Normalized b) (exp : UInt64) (m n : Int64)
    (op : Fin 3) : RingExact a b exp m n op where
  add := denotes_add ha hb
  sub := denotes_sub ha hb
  mul := denotes_mul ha hb
  neg := denotes_neg ha
  pow := denotes_pow ha exp
  fromOverflow := fromOverflow_spec m n op
  compare := compare_spec ha hb
  compareInt64 := by
    have hn := denotes_ofInt64 n
    rw [compareInt64_eq, compare_spec ha hn.normalized, hn.toInt_eq]

/-- `-2^64 - 1` and `1`, and the product `INT64_MIN * INT64_MIN`. -/
theorem ring_exact_two_limbs :
    Normalized ⟨true, [1, 1]⟩ ∧ Normalized ⟨false, [1]⟩ ∧
      RingExact ⟨true, [1, 1]⟩ ⟨false, [1]⟩ 3 Int64.minValue Int64.minValue 2 :=
  have ha : Normalized ⟨true, [1, 1]⟩ := ⟨by decide, by decide, by decide⟩
  have hb : Normalized ⟨false, [1]⟩ := ⟨by decide, by decide, by decide⟩
  ⟨ha, hb, ring_exact ha hb 3 Int64.minValue Int64.minValue 2⟩

end Exact

/-!
## Division of bignums

Quotient and remainder satisfy Euclid's identity, the remainder with the sign of the dividend, and the
128-bit integers in which `bignum_divmod_abs` works hold every value it computes.
-/

namespace Exact

open Hash (Bignum)

/-- What `bignum_divmod_abs` computes fits: in `bignum_div_limb` for a divisor of one limb, in the main
loop for a longer one that is below the dividend. -/
def DivmodInRange (a b : Bignum) : Prop :=
  match b.limbs with
  | [divisor] => Radix.DivDigitInRange radix divisor.toNat (words a.limbs)
  | _ =>
    match a.compareAbs b with
    | .gt =>
      Radix.DivLoopInRange radix (shiftedDivisor b) (a.limbs.length - b.limbs.length + 1)
        (shiftedDividend a b)
    | _ => True

lemma divmod_inRange {a b : Bignum} (ha : Normalized a) (hb : Normalized b) (hne : toInt b ≠ 0) :
    DivmodInRange a b := by
  unfold DivmodInRange
  split
  · rename_i divisor hlimbs
    have hpos : 0 < divisor.toNat := by
      have hmag := natAbs_toInt b
      rw [hlimbs, magnitude_singleton] at hmag
      omega
    exact Radix.divDigit_inRange hpos divisor.toNat_lt (digits_words a.limbs)
  · rename_i hlong
    split
    · rename_i hcmp
      rw [compareAbs_eq ha hb] at hcmp
      have hlength : 1 < b.limbs.length := by
        by_contra hshort
        obtain ⟨divisor, hdivisor⟩ : ∃ divisor, b.limbs = [divisor] := by
          rw [← List.length_eq_one_iff]
          have := List.length_pos_iff.2 hb.nonempty
          omega
        exact hlong divisor hdivisor
      have hscaled := (scaled_operands ha hb hlength (Nat.compare_eq_gt.1 hcmp)).2
      have hrange := hscaled.inRange (by decide)
      rwa [length_words, length_words] at hrange
    · trivial

/-- What `eshkol_bignum_div` and `eshkol_bignum_mod` return. -/
structure DivisionExact (a b : Bignum) : Prop where
  quotient : Normalized (bignumDiv a b)
  remainder : Normalized (bignumMod a b)
  identity : toInt a = toInt (bignumDiv a b) * toInt b + toInt (bignumMod a b)
  bounded : |toInt (bignumMod a b)| < |toInt b|
  sign : toInt (bignumMod a b) = 0 ∨ (toInt (bignumMod a b)).sign = (toInt a).sign
  inRange : DivmodInRange a b

theorem division_exact {a b : Bignum} (ha : Normalized a) (hb : Normalized b) (hne : toInt b ≠ 0) :
    DivisionExact a b := by
  obtain ⟨hquotient, hdiv⟩ := div_spec ha hb hne
  obtain ⟨hremainder, hmod⟩ := mod_spec ha hb hne
  refine ⟨hquotient, hremainder, ?_, ?_, ?_, divmod_inRange ha hb hne⟩
  · rw [hdiv, hmod, Int.mul_comm]
    exact (Int.mul_tdiv_add_tmod _ _).symm
  · rw [hmod, Int.abs_eq_natAbs, Int.abs_eq_natAbs, Int.natAbs_tmod]
    exact_mod_cast Nat.mod_lt _ (by omega)
  · rw [hmod]
    exact Radix.sign_tmod _ _

/-- `-2^128` by `2^64 + 1`. -/
theorem division_exact_two_limbs : DivisionExact ⟨true, [0, 0, 1]⟩ ⟨false, [1, 1]⟩ :=
  division_exact ⟨by decide, by decide, by decide⟩ ⟨by decide, by decide, by decide⟩ (by decide)

end Exact
