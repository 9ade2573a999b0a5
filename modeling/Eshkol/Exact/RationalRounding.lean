import Eshkol.Base.Rounding
import Eshkol.Exact.RationalSpec

/-!
# Rounding rationals

The four roundings read the 64-bit fields of a rational. One with bignums leaves `0/1` in them, and
the test for a half doubles the remainder in 64 bits.
-/

namespace Exact

open Hash (Bignum Rational)
open Rounding

/-! ## `int64_t` -/

/-- A result of `int64_t` arithmetic, if it does not overflow. -/
def checked (x : ℤ) : Option ℤ := if fitsInt64 x then some x else none

/-- `n / d`. -/
def quotient (n d : ℤ) : Option ℤ := if d = 0 then none else checked (n.tdiv d)

/-- `n % d`, undefined where the quotient is. -/
def remainder (n d : ℤ) : Option ℤ := (quotient n d).map fun _ => n.tmod d

/-- `if (x < 0) x = -x`. -/
def absolute (x : ℤ) : Option ℤ := if x < 0 then checked (-x) else some x

/-! ## The functions -/

/-- The `numerator` field. -/
def numeratorField : Rational → ℤ
  | .small n _ => n.toInt
  | .big _ _ => 0

/-- The `denominator` field. -/
def denominatorField : Rational → ℤ
  | .small _ d => d.toInt
  | .big _ _ => 1

/-- The body of `eshkol_rational_floor`. -/
def floorOf (n d : ℤ) : Option ℤ := do
  let q ← quotient n d
  let rem ← remainder n d
  if 0 ≤ n ∨ rem = 0 then some q else checked (q - 1)

/-- The body of `eshkol_rational_ceil`. -/
def ceilOf (n d : ℤ) : Option ℤ := do
  let q ← quotient n d
  let rem ← remainder n d
  if n ≤ 0 ∨ rem = 0 then some q else checked (q + 1)

/-- The body of `eshkol_rational_round`. -/
def roundOf (n d : ℤ) : Option ℤ := do
  let q ← quotient n d
  let rem ← remainder n d
  let magnitude ← absolute rem
  let twiceRem ← checked (2 * magnitude)
  if d < twiceRem then checked (if 0 ≤ n then q + 1 else q - 1)
  else if twiceRem = d ∧ q.tmod 2 ≠ 0 then
    -- exact half
    checked (if 0 ≤ n then q + 1 else q - 1)
  else some q

/-- `eshkol_rational_floor`. -/
def rationalFloor (r : Rational) : Option ℤ := floorOf (numeratorField r) (denominatorField r)

/-- `eshkol_rational_ceil`. -/
def rationalCeil (r : Rational) : Option ℤ := ceilOf (numeratorField r) (denominatorField r)

/-- `eshkol_rational_truncate`. -/
def rationalTruncate (r : Rational) : Option ℤ := quotient (numeratorField r) (denominatorField r)

/-- `eshkol_rational_round`. -/
def rationalRound (r : Rational) : Option ℤ := roundOf (numeratorField r) (denominatorField r)

/-! ## What they return -/

/-- Every rounding that fits is returned, and no step overflows on the way. -/
structure RoundsRight (r : Rational) : Prop where
  floor : InRange ⌊ratValue r⌋ → rationalFloor r = some ⌊ratValue r⌋
  ceil : InRange ⌈ratValue r⌉ → rationalCeil r = some ⌈ratValue r⌉
  truncate : InRange (towardZero (ratValue r)) → rationalTruncate r = some (towardZero (ratValue r))
  round : InRange (roundHalfEven (ratValue r)) → rationalRound r = some (roundHalfEven (ratValue r))

/-- Twice the remainder fits; of a rational with bignums no rounding does. -/
def RoundingHolds : Rational → Prop
  | .small n d => 2 * |n.toInt.tmod d.toInt| < 2 ^ 63
  | .big n d => 2 ^ 63 ≤ ratValue (.big n d) ∨ ratValue (.big n d) ≤ -2 ^ 63 - 1

lemma checked_of_inRange {x : ℤ} (h : InRange x) : checked x = some x :=
  if_pos ((fitsInt64_iff x).2 h)

lemma checked_of_not_inRange {x : ℤ} (h : ¬ InRange x) : checked x = none :=
  if_neg fun hfits => h ((fitsInt64_iff x).1 hfits)

section small

variable {n d : Int64} (hd : 0 < d.toInt)
include hd

lemma quotient_toInt : quotient n.toInt d.toInt = some (n.toInt.tdiv d.toInt) := by
  rw [quotient, if_neg hd.ne', checked_of_inRange ((inRange_toInt n).tdiv hd.le)]

lemma remainder_toInt : remainder n.toInt d.toInt = some (n.toInt.tmod d.toInt) := by
  rw [remainder, quotient_toInt hd, Option.map_some]

lemma rationalFloor_small (h : InRange ⌊ratValue (.small n d)⌋) :
    rationalFloor (.small n d) = some ⌊ratValue (.small n d)⌋ := by
  show floorOf n.toInt d.toInt = _
  rw [ratValue, ratNum, ratDen, floor_intCast_div hd, ediv_eq_tdiv hd] at h ⊢
  simp only [floorOf, quotient_toInt hd, remainder_toInt hd, Option.bind_eq_bind, Option.bind_some]
  split_ifs at h ⊢
  · rfl
  · exact checked_of_inRange h

lemma rationalCeil_small (h : InRange ⌈ratValue (.small n d)⌉) :
    rationalCeil (.small n d) = some ⌈ratValue (.small n d)⌉ := by
  show ceilOf n.toInt d.toInt = _
  rw [ratValue, ratNum, ratDen, ceil_intCast_div hd, neg_ediv_eq_tdiv hd] at h ⊢
  simp only [ceilOf, quotient_toInt hd, remainder_toInt hd, Option.bind_eq_bind, Option.bind_some]
  split_ifs at h ⊢
  · rfl
  · exact checked_of_inRange h

lemma rationalTruncate_small :
    rationalTruncate (.small n d) = some (towardZero (ratValue (.small n d))) := by
  rw [ratValue, ratNum, ratDen, towardZero_intCast_div hd]
  exact quotient_toInt hd

lemma absolute_rem : absolute (n.toInt.tmod d.toInt) = some |n.toInt.tmod d.toInt| := by
  have hlow := Int.lt_tmod_of_pos n.toInt hd
  have hrange := d.toInt_lt
  unfold absolute
  split_ifs with h
  · rw [checked_of_inRange ⟨by omega, by omega⟩, abs_of_neg h]
  · rw [abs_of_nonneg (not_lt.1 h)]

/-- Once the remainder is doubled the comparisons are exact. -/
lemma rationalRound_small (h : InRange (roundHalfEven (ratValue (.small n d))))
    (htwice : 2 * |n.toInt.tmod d.toInt| < 2 ^ 63) :
    rationalRound (.small n d) = some (roundHalfEven (ratValue (.small n d))) := by
  have hnonneg := abs_nonneg (n.toInt.tmod d.toInt)
  have hdouble := checked_of_inRange (x := 2 * |n.toInt.tmod d.toInt|) ⟨by omega, htwice⟩
  have heven : (n.toInt.tdiv d.toInt).tmod 2 = 0 ↔ n.toInt.tdiv d.toInt % 2 = 0 := by
    rw [← Int.dvd_iff_tmod_eq_zero, Int.dvd_iff_emod_eq_zero]
  show roundOf n.toInt d.toInt = _
  rw [ratValue, ratNum, ratDen, roundHalfEven_eq_tdiv hd] at h ⊢
  simp only [roundOf, quotient_toInt hd, remainder_toInt hd, absolute_rem hd, hdouble, heven, ne_eq,
    Option.bind_eq_bind, Option.bind_some] at h ⊢
  split_ifs at h ⊢ <;> first | exact checked_of_inRange h | rfl | omega

/-- A remainder that cannot be doubled leaves a quotient far from the bounds. -/
lemma inRange_roundHalfEven (hlarge : 2 ^ 63 ≤ 2 * |n.toInt.tmod d.toInt|) :
    InRange (roundHalfEven (ratValue (.small n d))) := by
  have hrem : |n.toInt.tmod d.toInt| < d.toInt :=
    abs_lt.2 ⟨Int.lt_tmod_of_pos n.toInt hd, Int.tmod_lt_of_pos n.toInt hd⟩
  have hd2 : 2 ≤ d.toInt := by omega
  have hle : (n.toInt.tdiv d.toInt).natAbs ≤ n.toInt.natAbs / 2 := by
    rw [Int.natAbs_tdiv]
    exact Nat.div_le_div_left (by omega) two_pos
  have hn := inRange_toInt n
  rw [InRange] at hn ⊢
  rw [ratValue, ratNum, ratDen, roundHalfEven_eq_tdiv hd]
  split_ifs <;> omega

lemma rationalRound_overflow (hlarge : 2 ^ 63 ≤ 2 * |n.toInt.tmod d.toInt|) :
    rationalRound (.small n d) = none := by
  have hout : ¬ InRange (2 * |n.toInt.tmod d.toInt|) := by
    rw [InRange]
    omega
  show roundOf n.toInt d.toInt = none
  simp only [roundOf, quotient_toInt hd, remainder_toInt hd, absolute_rem hd, checked_of_not_inRange hout,
    Option.bind_eq_bind, Option.bind_some, Option.bind_none]

lemma roundsRight_small : RoundsRight (.small n d) ↔ RoundingHolds (.small n d) := by
  constructor
  · intro h
    show 2 * |n.toInt.tmod d.toInt| < 2 ^ 63
    by_contra hlarge
    have hround := h.round (inRange_roundHalfEven hd (not_lt.1 hlarge))
    rw [rationalRound_overflow hd (not_lt.1 hlarge)] at hround
    exact absurd hround (by simp)
  · intro h
    exact ⟨rationalFloor_small hd, rationalCeil_small hd, fun _ => rationalTruncate_small hd,
      fun hrange => rationalRound_small hd hrange h⟩

end small

section big

variable {n d : Bignum}

/-- The fields of a rational with bignums are those of zero. -/
lemma rounding_big : rationalFloor (.big n d) = some 0 ∧ rationalCeil (.big n d) = some 0 ∧
    rationalTruncate (.big n d) = some 0 ∧ rationalRound (.big n d) = some 0 := ⟨rfl, rfl, rfl, rfl⟩

lemma ratValue_big_ne (hr : Reduced (.big n d)) : ratValue (.big n d) ≠ 0 := by
  intro hzero
  have hd : (ratDen (.big n d) : ℚ) ≠ 0 := by exact_mod_cast hr.den_pos.ne'
  rw [ratValue, div_eq_zero_iff, or_iff_left hd, Int.cast_eq_zero] at hzero
  have hone := hr.coprime
  have hpos := hr.den_pos
  rw [hzero, Int.gcd_zero_left] at hone
  refine hr.represented.2.2 ⟨?_, ?_⟩
  · rw [show toInt n = 0 from hzero]
    decide
  · rw [show toInt d = 1 by rw [ratDen] at hone hpos; omega]
    decide

/-- A rounding that fits is `0`, and the floor and the ceiling are not both. -/
lemma holds_of_roundsRight_big (hr : Reduced (.big n d)) (h : RoundsRight (.big n d)) :
    RoundingHolds (.big n d) := by
  obtain ⟨hfloor, hceil, -, -⟩ := rounding_big (n := n) (d := d)
  have hne := ratValue_big_ne hr
  show 2 ^ 63 ≤ ratValue (.big n d) ∨ ratValue (.big n d) ≤ -2 ^ 63 - 1
  have hf := h.floor
  have hc := h.ceil
  rw [hfloor, Option.some.injEq] at hf
  rw [hceil, Option.some.injEq] at hc
  generalize ratValue (.big n d) = q at hne hf hc ⊢
  by_contra hrange
  rw [not_or, not_le, not_le] at hrange
  have hlt : ⌊q⌋ < 2 ^ 63 := Int.floor_lt.2 (by exact_mod_cast hrange.1)
  have hgt : -2 ^ 63 - 1 < ⌈q⌉ := Int.lt_ceil.2 (by exact_mod_cast hrange.2)
  rcases lt_or_gt_of_ne hne with hneg | hpos
  · have hle : ⌈q⌉ ≤ 0 := Int.ceil_le.2 (by exact_mod_cast hneg.le)
    have hfl0 : ⌊q⌋ < 0 := Int.floor_lt.2 (by exact_mod_cast hneg)
    have hnext := Int.ceil_le_floor_add_one q
    have h0 := hc ⟨by omega, by omega⟩
    have h1 := hf ⟨by omega, by omega⟩
    omega
  · have hge : 0 ≤ ⌊q⌋ := Int.le_floor.2 (by exact_mod_cast hpos.le)
    have hce0 : 0 < ⌈q⌉ := Int.ceil_pos.2 hpos
    have hnext := Int.ceil_le_floor_add_one q
    have h0 := hf ⟨by omega, hlt⟩
    have h1 := hc ⟨by omega, by omega⟩
    omega

lemma roundsRight_of_holds_big (h : RoundingHolds (.big n d)) : RoundsRight (.big n d) := by
  have h : 2 ^ 63 ≤ ratValue (.big n d) ∨ ratValue (.big n d) ≤ -2 ^ 63 - 1 := h
  -- what lies between the floor and the ceiling does not fit
  suffices hout : ∀ z : ℤ, ⌊ratValue (.big n d)⌋ ≤ z → z ≤ ⌈ratValue (.big n d)⌉ → ¬ InRange z by
    have hfc := Int.floor_le_ceil (ratValue (.big n d))
    have htrunc : ⌊ratValue (.big n d)⌋ ≤ towardZero (ratValue (.big n d)) ∧
        towardZero (ratValue (.big n d)) ≤ ⌈ratValue (.big n d)⌉ := by
      unfold towardZero
      split_ifs <;> omega
    have hround : roundHalfEven (ratValue (.big n d)) ≤ ⌈ratValue (.big n d)⌉ := by
      have hmono := roundHalfEven_mono (Int.le_ceil (ratValue (.big n d)))
      rwa [roundHalfEven_intCast] at hmono
    exact ⟨fun hin => absurd hin (hout _ le_rfl hfc), fun hin => absurd hin (hout _ hfc le_rfl),
      fun hin => absurd hin (hout _ htrunc.1 htrunc.2),
      fun hin => absurd hin (hout _ (floor_le_roundHalfEven _) hround)⟩
  intro z hlow hhigh hin
  rw [InRange] at hin
  rcases h with hge | hle
  · have : (2 ^ 63 : ℤ) ≤ ⌊ratValue (.big n d)⌋ := Int.le_floor.2 (by exact_mod_cast hge)
    omega
  · have : ⌈ratValue (.big n d)⌉ ≤ (-2 ^ 63 - 1 : ℤ) := Int.ceil_le.2 (by exact_mod_cast hle)
    omega

end big

theorem roundsRight_iff {r : Rational} (hr : Reduced r) : RoundsRight r ↔ RoundingHolds r := by
  cases r with
  | small n d => exact roundsRight_small hr.den_pos
  | big n d => exact ⟨holds_of_roundsRight_big hr, roundsRight_of_holds_big⟩

/-- `5/2`. -/
theorem roundsRight_five_halves : RoundsRight (.small 5 2) :=
  (roundsRight_iff (r := .small 5 2) ⟨by decide, by decide, trivial⟩).2
    (by decide : (2 : ℤ) * |(5 : ℤ).tmod 2| < 2 ^ 63)

/-- The remainder of `2^62 / (2^62 + 1)` cannot be doubled. -/
theorem not_roundsRight : ¬ ∀ r, Reduced r → RoundsRight r := by
  intro h
  have hreduced : Reduced (.small 4611686018427387904 4611686018427387905) :=
    ⟨by decide, by decide, trivial⟩
  have hholds := (roundsRight_small hreduced.den_pos).1 (h _ hreduced)
  exact absurd hholds (by decide : ¬ (2 : ℤ) * |(4611686018427387904 : ℤ).tmod 4611686018427387905| < 2 ^ 63)

end Exact
