import Eshkol.Vm.Rationals

/-!
# Rounding rationals in machine arithmetic

The four roundings of `vm_rational.c`, in two's complement. Three of them wrap around and back; the
ceiling does not come back.
-/

namespace Vm.Numbers

open Rounding

/-- `vm_rational_floor`. -/
def rationalFloor (a : VmRational) : ℤ :=
  if 0 ≤ a.num then a.num.tdiv a.denom
  else int64 (int64 (-(int64 (int64 (-a.num) - 1)).tdiv a.denom) - 1)

/-- `vm_rational_ceil`. -/
def rationalCeil (a : VmRational) : ℤ :=
  if 0 ≤ a.num then (int64 (int64 (a.num + a.denom) - 1)).tdiv a.denom
  else int64 (-(int64 (-a.num)).tdiv a.denom)

/-- `vm_rational_truncate`. -/
def rationalTruncate (a : VmRational) : ℤ := a.num.tdiv a.denom

/-- `vm_rational_round`. -/
def rationalRound (a : VmRational) : ℤ :=
  let fl := rationalFloor a
  let rem := int64 (a.num - int64 (fl * a.denom))
  let twiceRem := int128 (2 * rem)
  if twiceRem < a.denom then fl
  else if twiceRem > a.denom then int64 (fl + 1)
  else if fl.tmod 2 = 0 then fl
  else int64 (fl + 1)

/-- The four roundings are those of the value. -/
structure RoundsRight (a : VmRational) : Prop where
  floor : rationalFloor a = ⌊a.value⌋
  ceil : rationalCeil a = ⌈a.value⌉
  truncate : rationalTruncate a = towardZero a.value
  round : rationalRound a = roundHalfEven a.value

/-- The ceiling of a positive number adds the denominator first, and that of a negative one negates
the numerator. -/
def CeilFits (a : VmRational) : Prop :=
  (0 ≤ a.num → a.num + a.denom - 1 < 2 ^ 63) ∧ (a.num = int64Min → a.denom = 1)

/-- An intermediate result may wrap around. -/
lemma int64_sub (x y : ℤ) : int64 (int64 x - y) = int64 (x - y) := Int.bmod_sub_bmod

lemma int64_sub_right (x y : ℤ) : int64 (x - int64 y) = int64 (x - y) := Int.sub_bmod_bmod

/-- The floor of a negative quotient, from one of positive numbers. -/
lemma neg_ediv_eq {d : ℤ} (hd : 0 < d) (n : ℤ) : -((-n - 1) / d) - 1 = n / d := by
  have hsum := Int.mul_ediv_add_emod (-n - 1) d
  have hlow := Int.emod_nonneg (-n - 1) hd.ne'
  have hhigh := Int.emod_lt_of_pos (-n - 1) hd
  have hrem : d - 1 - (-n - 1) % d + d * (-((-n - 1) / d) - 1) = n := by linarith
  exact (((Int.ediv_emod_unique hd).2 ⟨hrem, by omega, by omega⟩).1).symm

section roundings

variable {a : VmRational} (ha : Normal a)
include ha

lemma rationalFloor_eq : rationalFloor a = a.num / a.denom := by
  obtain ⟨hlow, hhigh, hpos, hdhigh⟩ := ha.bounds
  unfold rationalFloor
  by_cases hneg : 0 ≤ a.num
  · rw [if_pos hneg, Int.tdiv_eq_ediv_of_nonneg hneg]
  · have hpred : int64 (int64 (-a.num) - 1) = -a.num - 1 := by
      rw [int64_sub]
      exact int64_eq (fitsInt64_iff.2 (by omega))
    have hnonneg : 0 ≤ (-a.num - 1) / a.denom := Int.ediv_nonneg (by omega) hpos.le
    have hle : (-a.num - 1) / a.denom ≤ -a.num - 1 := Int.ediv_le_self _ (by omega)
    rw [if_neg hneg, hpred, Int.tdiv_eq_ediv_of_nonneg (by omega), int64_sub,
      int64_eq (fitsInt64_iff.2 (by omega)), neg_ediv_eq hpos]

lemma floor_eq : rationalFloor a = ⌊a.value⌋ := by
  rw [VmRational.value, floor_intCast_div ha.denom_pos, rationalFloor_eq ha]

lemma truncate_eq : rationalTruncate a = towardZero a.value := by
  rw [VmRational.value, towardZero_intCast_div ha.denom_pos, rationalTruncate]

/-- The product of the floor and the denominator may wrap around, the remainder does not. -/
lemma round_eq : rationalRound a = roundHalfEven a.value := by
  obtain ⟨hlow, hhigh, hpos, hdhigh⟩ := ha.bounds
  have hnonneg := Int.emod_nonneg a.num hpos.ne'
  have hlt := Int.emod_lt_of_pos a.num hpos
  have hrem : int64 (a.num - int64 (a.num / a.denom * a.denom)) = a.num % a.denom := by
    rw [int64_sub_right, mul_comm, ← Int.emod_def]
    exact int64_eq (fitsInt64_iff.2 (by omega))
  have htwice := int128_eq (x := 2 * (a.num % a.denom)) (by omega) (by omega)
  have hnext : a.denom ≤ 2 * (a.num % a.denom) → int64 (a.num / a.denom + 1) = a.num / a.denom + 1 := by
    intro hhalf
    have hsum := Int.mul_ediv_add_emod a.num a.denom
    apply int64_eq
    rw [fitsInt64_iff]
    constructor
    · nlinarith
    · nlinarith
  have heven : (a.num / a.denom).tmod 2 = 0 ↔ a.num / a.denom % 2 = 0 := by
    rw [← Int.dvd_iff_tmod_eq_zero, Int.dvd_iff_emod_eq_zero]
  rw [VmRational.value, roundHalfEven_intCast_div hpos]
  unfold rationalRound
  simp only [rationalFloor_eq ha, hrem, htwice, heven, gt_iff_lt]
  split_ifs with hlow hhigh heven
  · rfl
  · exact hnext hhigh.le
  · rfl
  · exact hnext (not_lt.1 hlow)

/-! ### The ceiling -/

lemma ceil_nonneg_iff (hneg : 0 ≤ a.num) :
    rationalCeil a = ⌈a.value⌉ ↔ a.num + a.denom - 1 < 2 ^ 63 := by
  obtain ⟨hlow, hhigh, hpos, hdhigh⟩ := ha.bounds
  have hceil : ⌈a.value⌉ = (a.num + a.denom - 1) / a.denom := by
    rw [VmRational.value, ceil_intCast_div hpos, ← neg_ediv_eq hpos (a.num + a.denom - 1)]
    have hshift : -(a.num + a.denom - 1) - 1 = -a.num + -1 * a.denom := by ring
    rw [hshift, Int.add_mul_ediv_right _ _ hpos.ne']
    ring
  unfold rationalCeil
  rw [if_pos hneg, int64_sub, hceil]
  constructor
  · intro h
    by_contra hlarge
    -- the sum is negative, and the ceiling is not
    have hwrapped : int64 (a.num + a.denom - 1) = a.num + a.denom - 1 - 2 ^ 64 := by
      rw [int64, ← Int.sub_bmod_right]
      exact Int.bmod_eq_of_le (by simp; omega) (by simp; omega)
    have hle : (a.num + a.denom - 1 - 2 ^ 64).tdiv a.denom ≤ 0 := by
      have hopposite : 0 ≤ (-(a.num + a.denom - 1 - 2 ^ 64)).tdiv a.denom :=
        Int.tdiv_nonneg (by omega) hpos.le
      rw [Int.neg_tdiv] at hopposite
      omega
    have hone : 1 ≤ (a.num + a.denom - 1) / a.denom := by
      rw [Int.le_ediv_iff_mul_le hpos]
      omega
    rw [hwrapped] at h
    omega
  · intro hfits
    rw [int64_eq (fitsInt64_iff.2 (by omega)), Int.tdiv_eq_ediv_of_nonneg (by omega)]

lemma ceil_neg_iff (hneg : a.num < 0) :
    rationalCeil a = ⌈a.value⌉ ↔ (a.num = int64Min → a.denom = 1) := by
  obtain ⟨hlow, hhigh, hpos, hdhigh⟩ := ha.bounds
  have hceil : ⌈a.value⌉ = -(-a.num / a.denom) := by
    rw [VmRational.value, ceil_intCast_div hpos]
  have hnonneg : 0 ≤ -a.num / a.denom := Int.ediv_nonneg (by omega) hpos.le
  have hle : -a.num / a.denom ≤ -a.num := Int.ediv_le_self _ (by omega)
  unfold rationalCeil
  rw [if_neg (by omega), hceil]
  by_cases hmin : a.num = int64Min
  · -- it is its own opposite
    have hself : int64 (-a.num) = a.num := by
      rw [hmin]
      rfl
    have hquotient : a.num.tdiv a.denom = -(-a.num / a.denom) := by
      rw [← Int.tdiv_eq_ediv_of_nonneg (by omega), Int.neg_tdiv, neg_neg]
    rw [hself, hquotient, neg_neg]
    constructor
    · intro h _
      by_contra hone
      have hpositive : 1 ≤ -a.num / a.denom := by
        rw [Int.le_ediv_iff_mul_le hpos]
        rw [int64Min] at hmin
        omega
      have hsmall : -a.num / a.denom ≤ -a.num / 2 := by
        rw [Int.le_ediv_iff_mul_le (by norm_num)]
        have hmul := Int.ediv_mul_le (-a.num) hpos.ne'
        have htwo := mul_le_mul_of_nonneg_left (by omega : 2 ≤ a.denom) hnonneg
        omega
      rw [int64_eq (fitsInt64_iff.2 (by omega))] at h
      omega
    · intro hone
      rw [hone hmin, Int.ediv_one, hmin]
      rfl
  · rw [int64Min] at hmin
    rw [int64_eq (x := -a.num) (fitsInt64_iff.2 (by omega)), Int.tdiv_eq_ediv_of_nonneg (by omega),
      int64_eq (fitsInt64_iff.2 (by omega))]
    exact iff_of_true rfl fun h => absurd h hmin

/-- Ceilings are right unless the numerator wraps around. -/
lemma ceil_iff : rationalCeil a = ⌈a.value⌉ ↔ CeilFits a := by
  by_cases hneg : 0 ≤ a.num
  · have hmin : a.num ≠ int64Min := by
      rw [int64Min]
      omega
    rw [ceil_nonneg_iff ha hneg, CeilFits]
    exact ⟨fun h => ⟨fun _ => h, fun hc => absurd hc hmin⟩, fun h => h.1 hneg⟩
  · rw [ceil_neg_iff ha (not_le.1 hneg), CeilFits]
    exact ⟨fun h => ⟨fun hc => absurd hc hneg, h⟩, fun h => h.2⟩

end roundings

theorem roundings_right_iff {a : VmRational} (ha : Normal a) : RoundsRight a ↔ CeilFits a :=
  ⟨fun h => (ceil_iff ha).1 h.ceil,
    fun h => ⟨floor_eq ha, (ceil_iff ha).2 h, truncate_eq ha, round_eq ha⟩⟩

/-- Next to the smallest numerator. -/
theorem roundings_right_halves : RoundsRight ⟨1 - 2 ^ 63, 2⟩ :=
  (roundings_right_iff (a := ⟨1 - 2 ^ 63, 2⟩) ⟨by decide, by decide, by decide, by decide⟩).2
    ⟨by decide, by decide⟩

theorem not_roundings_right : ¬ ∀ a, Normal a → RoundsRight a := by
  intro h
  have hnormal : Normal ⟨int64Min, 3⟩ := ⟨by decide, by decide, by decide, by decide⟩
  have hfits := (ceil_iff hnormal).1 (h _ hnormal).ceil
  exact absurd (hfits.2 rfl) (by decide)

end Vm.Numbers
