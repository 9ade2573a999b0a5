import Eshkol.Exact.Canonical
import Mathlib.Algebra.Order.Field.Power

/-!
# The tower is exact

Sums, differences, products and quotients of exact numbers are exact whichever representations meet,
and so are the three divisions of integers. A power with a negative exponent is exact as long as its
denominator fits 64 bits.
-/

namespace Exact

open Hash (Bignum Rational)

variable {D : Type}

/-- The result is exact, with this value. -/
def Yields (outcome : Outcome (Tagged D)) (x : ℚ) : Prop := ∃ z, outcome = .ok z ∧ value z = some x

lemma yields_of {outcome : Outcome (Tagged D)} {x : ℚ} (h : ∃ z, outcome = .ok z ∧ Represents z x) :
    Yields outcome x := by
  obtain ⟨z, hz, hrep⟩ := h
  exact ⟨z, hz, hrep.value⟩

lemma yields_demote {r : Bignum} (hr : Normalized r) : Yields (D := D) (.ok (demote r)) (toInt r) :=
  ⟨_, rfl, (demote_spec hr).value⟩

lemma value_resultToTagged_isSome (r : Rational) : (value (D := D) (rationalResultToTagged r)).isSome := by
  cases r <;> rw [rationalResultToTagged] <;> split <;> rfl

lemma value_demote_isSome (r : Bignum) : (value (D := D) (demote r)).isSome := by
  rw [demote]
  split <;> rfl

lemma value_map_demote_isSome {outcome : Outcome Bignum} {z : Tagged D} (h : outcome.map demote = .ok z) :
    (value z).isSome := by
  cases outcome with
  | error fault => cases h
  | ok r =>
    cases h
    exact value_demote_isSome r

section arithmetic

variable [Doubles D] {x y : Tagged D} {p q : ℚ} (hx : Represents x p) (hy : Represents y q)
include hx hy

/-- Operations with a rational are exact. -/
lemma rationalBinary_exact :
    Yields (rationalBinaryTagged x y .add) (p + q) ∧ Yields (rationalBinaryTagged x y .sub) (p - q) ∧
      Yields (rationalBinaryTagged x y .mul) (p * q) ∧
      (q ≠ 0 → Yields (rationalBinaryTagged x y .div) (p / q)) := by
  refine ⟨yields_of (rationalBinary_add hx hy), yields_of (rationalBinary_sub hx hy),
    yields_of (rationalBinary_mul hx hy), fun hq => ?_⟩
  obtain ⟨hzero, -⟩ | ⟨-, hdiv⟩ := rationalBinary_div hx hy
  · exact absurd hzero hq
  · exact yields_of hdiv

/-- Operations of integers are exact. -/
lemma bignumBinary_exact :
    Yields (bignumBinaryTagged x y .add) (p + q) ∧ Yields (bignumBinaryTagged x y .sub) (p - q) ∧
      Yields (bignumBinaryTagged x y .mul) (p * q) ∧
      (q ≠ 0 → Yields (bignumBinaryTagged x y .div) (p / q)) := by
  by_cases hr : (x.isRational || y.isRational) = true
  · simp only [bignumBinary_route hr]
    exact rationalBinary_exact hx hy
  · rw [Bool.or_eq_true, not_or, Bool.not_eq_true, Bool.not_eq_true] at hr
    obtain ⟨a, b, ⟨ha, rfl⟩, ⟨hb, rfl⟩, heq⟩ := bignumBinary_eq hx hy hr.1 hr.2
    simp only [heq]
    obtain ⟨hadd, hadd_val⟩ := add_spec ha hb
    obtain ⟨hsub, hsub_val⟩ := sub_spec ha hb
    obtain ⟨hmul, hmul_val⟩ := mul_spec ha hb
    refine ⟨?_, ?_, ?_, fun hne => ?_⟩
    · have h := yields_demote (D := D) hadd
      rw [hadd_val] at h
      exact_mod_cast h
    · have h := yields_demote (D := D) hsub
      rw [hsub_val] at h
      exact_mod_cast h
    · have h := yields_demote (D := D) hmul
      rw [hmul_val] at h
      exact_mod_cast h
    · have hb0 : toInt b ≠ 0 := by exact_mod_cast hne
      have hquot := createBn_spec ha hb hb0
      rw [if_neg fun h => hb0 ((isZero_iff_toInt hb).1 h)]
      refine ⟨_, rfl, ?_⟩
      rw [(resultToTagged_spec hquot.reduced).value, hquot.value hb0]

/-- Integer division truncates, and the modulus has the sign of the divisor. -/
lemma integerDivision_exact {m n : ℤ} (hp : p = m) (hq : q = n) (hn : n ≠ 0) :
    Yields (bignumBinaryTagged x y .quotient) (m.tdiv n : ℤ) ∧
      Yields (bignumBinaryTagged x y .remainder) (m.tmod n : ℤ) ∧
      Yields (bignumBinaryTagged x y .mod) (m.fmod n : ℤ) := by
  subst hp hq
  obtain ⟨a, b, ⟨ha, hma⟩, ⟨hb, hnb⟩, heq⟩ :=
    bignumBinary_eq hx hy (isRational_of_int hx) (isRational_of_int hy)
  obtain rfl : m = toInt a := by exact_mod_cast hma
  obtain rfl : n = toInt b := by exact_mod_cast hnb
  have hb0 : b.isZero = false := Bool.eq_false_iff.2 fun h => hn ((isZero_iff_toInt hb).1 h)
  obtain ⟨hdiv, hdiv_val⟩ := div_spec ha hb hn
  obtain ⟨hmod, hmod_val⟩ := mod_spec ha hb hn
  obtain ⟨r, hr, hnorm, hr_val⟩ := bignumModulo_spec ha hb hn
  simp only [heq, hb0, bignumModOrRaise, hr, Bool.false_eq_true, if_false]
  rw [← hdiv_val, ← hmod_val, ← hr_val]
  exact ⟨yields_demote hdiv, yields_demote hmod, yields_demote hnorm⟩

lemma rationalBinary_isSome {op : BinaryOp} {z : Tagged D} (h : rationalBinaryTagged x y op = .ok z) :
    (value z).isSome := by
  obtain ⟨ra, rb, -, -, heq⟩ := rationalBinary_eq hx hy
  rw [heq] at h
  cases op with
  | div =>
    cases hdiv : rationalDiv ra rb with
    | error message =>
      rw [hdiv] at h
      cases h
    | ok r =>
      rw [hdiv] at h
      cases h
      exact value_resultToTagged_isSome r
  | _ =>
    cases h
    exact value_resultToTagged_isSome _

lemma bignumBinary_isSome {op : BinaryOp} {z : Tagged D} (h : bignumBinaryTagged x y op = .ok z) :
    (value z).isSome := by
  by_cases hr : (x.isRational || y.isRational) = true
  · rw [bignumBinary_route hr] at h
    cases op with
    | add => exact rationalBinary_isSome hx hy h
    | sub => exact rationalBinary_isSome hx hy h
    | mul => exact rationalBinary_isSome hx hy h
    | div => exact rationalBinary_isSome hx hy h
    | neg => exact rationalBinary_isSome (represents_int64 0) hx h
    | _ =>
      cases h
      rfl
  · rw [Bool.or_eq_true, not_or, Bool.not_eq_true, Bool.not_eq_true] at hr
    obtain ⟨a, b, -, -, heq⟩ := bignumBinary_eq hx hy hr.1 hr.2
    rw [heq] at h
    cases op with
    | div =>
      simp only at h
      split at h
      · cases h
      · cases h
        exact value_resultToTagged_isSome _
    | quotient =>
      simp only at h
      split at h
      · cases h
      · cases h
        exact value_demote_isSome _
    | mod => exact value_map_demote_isSome h
    | remainder => exact value_map_demote_isSome h
    | neg =>
      cases h
      rfl
    | _ =>
      cases h
      exact value_demote_isSome _

end arithmetic

/-! ## Powers -/

lemma exists_bignum {x : Tagged D} {m : ℤ} (hx : Represents x (m : ℚ)) :
    ∃ a, toBignum x = some a ∧ Normalized a ∧ m = toInt a := by
  obtain ⟨a, ha, -, hnorm, hval⟩ := toBignum_spec hx (isRational_of_int hx)
  exact ⟨a, ha, hnorm, by exact_mod_cast hval⟩

section powers

variable [Doubles D] {x : Tagged D} {m : ℤ} (hx : Represents x (m : ℚ))
include hx

/-- Powers are exact, and reciprocals of powers in range. -/
lemma pow_exact {e : Int64} (h : 0 ≤ e.toInt ∨ (m ≠ 0 ∧ InRange (m ^ e.toInt.natAbs))) :
    Yields (bignumPowTagged x (.int64 e)) ((m : ℚ) ^ e.toInt) := by
  obtain ⟨a, ha, hnorm, rfl⟩ := exists_bignum hx
  by_cases he : 0 ≤ e.toInt
  · have hpow : ((toInt a : ℚ) ^ e.toInt) = (toInt a : ℚ) ^ e.toInt.toNat := by
      rw [← zpow_natCast, Int.toNat_of_nonneg he]
    rw [hpow]
    exact yields_of (pow_nonneg ha hnorm he)
  · obtain ⟨hne, hrange⟩ := h.resolve_left he
    obtain ⟨hzero, -⟩ | ⟨denom, -, hdenom, hdne, heq⟩ | ⟨hout, -⟩ :=
      pow_neg_eq ha hnorm (by omega : e.toInt < 0)
    · exact absurd hzero hne
    · have hquot := create_spec 1 hdne
      have hdne' : denom.toInt ≠ 0 := fun h => hdne (Int64.toInt_inj.1 h)
      have hexp : e.toInt = -(e.toInt.natAbs : ℤ) := by omega
      refine ⟨_, heq, ?_⟩
      rw [value, hquot.value hdne', hdenom]
      generalize e.toInt.natAbs = k at hexp
      rw [hexp, zpow_neg, zpow_natCast]
      simp [show Int64.toInt 1 = 1 from rfl]
    · exact absurd hrange hout

/-- Where the denominator does not fit, floating point takes over. -/
lemma pow_inexact {e : Int64} (he : e.toInt < 0) (h : ¬ InRange (m ^ e.toInt.natAbs)) :
    bignumPowTagged x (.int64 e) = .ok (.double (Doubles.pow (taggedToDouble x) (Doubles.ofInt64 e))) := by
  obtain ⟨a, ha, hnorm, rfl⟩ := exists_bignum hx
  obtain ⟨hzero, -⟩ | ⟨denom, -, hdenom, -, -⟩ | ⟨-, heq⟩ := pow_neg_eq ha hnorm he
  · rw [hzero, zero_pow (by omega)] at h
    exact absurd (by decide) h
  · rw [← hdenom] at h
    exact absurd (inRange_toInt denom) h
  · exact heq

end powers

lemma fmod_sign (m : ℤ) {n : ℤ} (hn : n ≠ 0) :
    n ∣ m - m.fmod n ∧ (m.fmod n).natAbs < n.natAbs ∧ 0 ≤ m.fmod n * n := by
  have hdvd : n ∣ m - m.fmod n := ⟨m.fdiv n, by linarith [Int.fmod_add_mul_fdiv m n]⟩
  rcases lt_or_gt_of_ne hn with hneg | hpos
  · have hlo := Int.fmod_nonneg_of_pos (-m) (by omega : 0 < -n)
    have hhi := Int.fmod_lt_of_pos (-m) (by omega : 0 < -n)
    rw [Int.neg_fmod_neg] at hlo hhi
    exact ⟨hdvd, by omega, mul_nonneg_of_nonpos_of_nonpos (by omega) hneg.le⟩
  · have hlo := Int.fmod_nonneg_of_pos m hpos
    have hhi := Int.fmod_lt_of_pos m hpos
    exact ⟨hdvd, by omega, mul_nonneg hlo hpos.le⟩

/-- Exact arithmetic is exact, on any mix of representations. Only the denominator of a power with a
negative exponent is held to 64 bits, and a double is given where it does not fit. -/
theorem tower_exact [Doubles D] {x y : Tagged D} {p q : ℚ} (hx : Canonical x) (hy : Canonical y)
    (hp : value x = some p) (hq : value y = some q) :
    (∀ dispatch ∈ [bignumBinaryTagged, rationalBinaryTagged (D := D)],
      Yields (dispatch x y .add) (p + q) ∧ Yields (dispatch x y .sub) (p - q) ∧
        Yields (dispatch x y .mul) (p * q) ∧ (q ≠ 0 → Yields (dispatch x y .div) (p / q)) ∧
        ∀ op z, dispatch x y op = .ok z → z.isDouble = false) ∧
    (∀ m n : ℤ, p = m → q = n → n ≠ 0 →
      ∃ quotient remainder modulus : ℤ, Yields (bignumBinaryTagged x y .quotient) quotient ∧
        Yields (bignumBinaryTagged x y .remainder) remainder ∧
        Yields (bignumBinaryTagged x y .mod) modulus ∧
        quotient = m.tdiv n ∧ m = quotient * n + remainder ∧
        n ∣ m - modulus ∧ modulus.natAbs < n.natAbs ∧ 0 ≤ modulus * n) ∧
    (∀ (m : ℤ) (e : Int64), p = m →
      (0 ≤ e.toInt ∨ (m ≠ 0 ∧ InRange (m ^ e.toInt.natAbs)) →
        Yields (bignumPowTagged x (.int64 e)) ((m : ℚ) ^ e.toInt)) ∧
      (e.toInt < 0 → ¬ InRange (m ^ e.toInt.natAbs) → bignumPowTagged x (.int64 e) =
        .ok (.double (Doubles.pow (taggedToDouble x) (Doubles.ofInt64 e))))) := by
  have hrx : Represents x p := ⟨hx, hp⟩
  have hry : Represents y q := ⟨hy, hq⟩
  have hexact : ∀ z : Tagged D, (value z).isSome → z.isDouble = false := by
    intro z hz
    cases z with
    | double d => cases hz
    | _ => rfl
  refine ⟨fun dispatch hmem => ?_, fun m n hm hn hne => ?_, fun m e hm => ?_⟩
  · simp only [List.mem_cons, List.not_mem_nil, or_false] at hmem
    rcases hmem with rfl | rfl
    · obtain ⟨hadd, hsub, hmul, hdiv⟩ := bignumBinary_exact hrx hry
      exact ⟨hadd, hsub, hmul, hdiv, fun op z hz => hexact z (bignumBinary_isSome hrx hry hz)⟩
    · obtain ⟨hadd, hsub, hmul, hdiv⟩ := rationalBinary_exact hrx hry
      exact ⟨hadd, hsub, hmul, hdiv, fun op z hz => hexact z (rationalBinary_isSome hrx hry hz)⟩
  · obtain ⟨hquot, hrem, hmod⟩ := integerDivision_exact hrx hry hm hn hne
    obtain ⟨hdvd, hlt, hsign⟩ := fmod_sign m hne
    exact ⟨_, _, _, hquot, hrem, hmod, rfl, (Int.tdiv_mul_add_tmod m n).symm, hdvd, hlt, hsign⟩
  · subst hm
    exact ⟨pow_exact hrx, pow_inexact hrx⟩

/-- A bignum and a rational. -/
theorem tower_exact_two_thirds :
    Yields (bignumBinaryTagged (.bignum ⟨false, [0, 1]⟩ : Tagged Float) (.rational (.small 2 3)) .add)
        (2 ^ 64 + 2 / 3) ∧
      Yields (rationalBinaryTagged (.bignum ⟨false, [0, 1]⟩ : Tagged Float) (.rational (.small 2 3)) .div)
        (2 ^ 64 / (2 / 3)) := by
  have hx : Canonical (.bignum ⟨false, [0, 1]⟩ : Tagged Float) :=
    ⟨⟨by decide, by decide, by decide⟩, by decide⟩
  have hy : Canonical (.rational (.small 2 3) : Tagged Float) :=
    ⟨⟨by decide, by decide, trivial⟩, by decide⟩
  have hp : value (.bignum ⟨false, [0, 1]⟩ : Tagged Float) = some (2 ^ 64) := by
    have hint : toInt ⟨false, [0, 1]⟩ = 2 ^ 64 := by decide
    rw [value, hint]
    norm_num
  have hq : value (.rational (.small 2 3) : Tagged Float) = some (2 / 3) := by
    have hnum : ratNum (.small 2 3) = 2 := by decide
    have hden : ratDen (.small 2 3) = 3 := by decide
    rw [value, ratValue, hnum, hden]
    norm_num
  have h := (tower_exact hx hy hp hq).1
  exact ⟨(h bignumBinaryTagged (by simp)).1, (h rationalBinaryTagged (by simp)).2.2.2.1 (by norm_num)⟩

/-- The power `2 ^ (-64)` is a double, not the exact rational. -/
theorem expt_two_not_exact :
    ¬ ∀ (x : Tagged Float) (m : ℤ) (e : Int64), Canonical x → value x = some (m : ℚ) →
      (0 ≤ e.toInt ∨ m ≠ 0) → Yields (bignumPowTagged x (.int64 e)) ((m : ℚ) ^ e.toInt) := by
  intro h
  have hx : Represents (.int64 2 : Tagged Float) ((2 : ℤ) : ℚ) := represents_int64 2
  obtain ⟨z, hz, hval⟩ := h (.int64 2) 2 (-64) trivial hx.value (.inr (by decide))
  rw [pow_inexact hx (by decide) (by decide)] at hz
  cases hz
  cases hval

end Exact
