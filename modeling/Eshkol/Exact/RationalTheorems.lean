import Eshkol.Exact.RationalSpec
import Eshkol.Exact.RingTheorems
import Eshkol.Hash.Coherence
import Mathlib.Data.Sign.Basic

/-!
# Rational arithmetic

A value has one reduced form. So the computation in 128 bits returns what the one with bignums
returns, and equality can compare fields.
-/

namespace Exact

open Hash (Bignum Rational)

/-! ## The computations with bignums -/

/-- `rat_add_sub_big`. -/
def ratAddSubBig (a b : Rational) (subtract : Bool) : Rational :=
  let left := bignumMul (ratNumBn a) (ratDenBn b)
  let right := bignumMul (ratNumBn b) (ratDenBn a)
  rationalCreateBn (if subtract then bignumSub left right else bignumAdd left right)
    (bignumMul (ratDenBn a) (ratDenBn b))

/-- `rat_mul_big`. -/
def ratMulBig (a b : Rational) : Rational :=
  rationalCreateBn (bignumMul (ratNumBn a) (ratNumBn b)) (bignumMul (ratDenBn a) (ratDenBn b))

/-- `rat_div_big`. -/
def ratDivBig (a b : Rational) : Rational :=
  rationalCreateBn (bignumMul (ratNumBn a) (ratDenBn b)) (bignumMul (ratDenBn a) (ratNumBn b))

/-- `eshkol_rational_compare`. -/
def rationalCompare : Rational → Rational → Ordering
  | .small an ad, .small bn bd =>
    let lhs := int128 (an.toInt * bd.toInt)
    let rhs := int128 (bn.toInt * ad.toInt)
    if lhs < rhs then .lt else if lhs > rhs then .gt else .eq
  | a, b => (bignumMul (ratNumBn a) (ratDenBn b)).compare (bignumMul (ratNumBn b) (ratDenBn a))

/-- The results of 128-bit arithmetic that the operations form for two small rationals. -/
def intermediates : Rational → Rational → List ℤ
  | .small an ad, .small bn bd =>
    let left := an.toInt * bd.toInt
    let right := bn.toInt * ad.toInt
    [left, right, left + right, left - right, ad.toInt * bd.toInt, an.toInt * bn.toInt, ad.toInt * bn.toInt]
  | _, _ => []

/-! ## One reduced form -/

lemma Reduced.den_ne {r : Rational} (h : Reduced r) : (ratDen r : ℚ) ≠ 0 := by
  exact_mod_cast h.den_pos.ne'

lemma compare_eq_iff_toInt {a b : Bignum} (ha : Normalized a) (hb : Normalized b) :
    a.compare b = .eq ↔ toInt a = toInt b := by
  have hsign := compare_spec ha hb
  constructor
  · intro h
    rw [h] at hsign
    exact sub_eq_zero.1 (Int.sign_eq_zero_iff_zero.1 hsign.symm)
  · intro h
    rw [h, sub_self, Int.sign_zero] at hsign
    cases hcompare : a.compare b with
    | eq => rfl
    | lt => rw [hcompare] at hsign; cases hsign
    | gt => rw [hcompare] at hsign; cases hsign

lemma Normalized.eq_of_toInt {a b : Bignum} (ha : Normalized a) (hb : Normalized b)
    (h : toInt a = toInt b) : a = b := by
  apply Hash.Bignum.compare_eq ((compare_eq_iff_toInt ha hb).2 h)
  intro hza hzb
  rw [ha.zero (by simpa [Bignum.isZero] using hza), hb.zero (by simpa [Bignum.isZero] using hzb)]

lemma Reduced.parts_eq {r s : Rational} (hr : Reduced r) (hs : Reduced s) (h : ratValue r = ratValue s) :
    ratNum r = ratNum s ∧ ratDen r = ratDen s := by
  have hnum := Rat.num_div_eq_of_coprime hr.den_pos hr.coprime
  have hnum' := Rat.num_div_eq_of_coprime hs.den_pos hs.coprime
  have hden := Rat.den_div_eq_of_coprime hr.den_pos hr.coprime
  have hden' := Rat.den_div_eq_of_coprime hs.den_pos hs.coprime
  rw [ratValue, ratValue] at h
  rw [h] at hnum hden
  exact ⟨hnum.symm.trans hnum', hden.symm.trans hden'⟩

/-- What bignums hold fits no pair of 64-bit integers. -/
lemma Reduced.eq_of_value {r s : Rational} (hr : Reduced r) (hs : Reduced s)
    (h : ratValue r = ratValue s) : r = s := by
  obtain ⟨hnum, hden⟩ := hr.parts_eq hs h
  have hmixed : ∀ {n d : Int64} {n' d' : Bignum}, Represented (.big n' d') → n.toInt = toInt n' →
      d.toInt = toInt d' → False := by
    intro n d n' d' hbig hn hd
    exact hbig.2.2 ⟨hn ▸ inRange_toInt n, hd ▸ inRange_toInt d⟩
  cases r with
  | small n d =>
    cases s with
    | small n' d' => rw [Int64.toInt_inj.1 hnum, Int64.toInt_inj.1 hden]
    | big n' d' => exact (hmixed hs.represented hnum hden).elim
  | big n d =>
    cases s with
    | small n' d' => exact (hmixed hr.represented hnum.symm hden.symm).elim
    | big n' d' =>
      obtain ⟨hn, hd, -⟩ := hr.represented
      obtain ⟨hn', hd', -⟩ := hs.represented
      rw [hn.eq_of_toInt hn' hnum, hd.eq_of_toInt hd' hden]

lemma IsQuotient.unique {r s : Rational} {num denom : ℤ} (hr : IsQuotient r num denom)
    (hs : IsQuotient s num denom) (hne : denom ≠ 0) : r = s :=
  hr.reduced.eq_of_value hs.reduced (by rw [hr.value hne, hs.value hne])

/-! ## What the operations return -/

/-- The operations are exact, on either path, and tell rationals apart by their values. -/
structure RationalsExact (a b : Rational) : Prop where
  add : Reduced (rationalAdd a b) ∧ ratValue (rationalAdd a b) = ratValue a + ratValue b
  sub : Reduced (rationalSub a b) ∧ ratValue (rationalSub a b) = ratValue a - ratValue b
  mul : Reduced (rationalMul a b) ∧ ratValue (rationalMul a b) = ratValue a * ratValue b
  div : ratValue b ≠ 0 → ∃ r, rationalDiv a b = .ok r ∧ Reduced r ∧ ratValue r = ratValue a / ratValue b
  intermediate : ∀ x ∈ intermediates a b, -2 ^ 127 < x ∧ x < 2 ^ 127
  add_big : rationalAdd a b = ratAddSubBig a b false
  sub_big : rationalSub a b = ratAddSubBig a b true
  mul_big : rationalMul a b = ratMulBig a b
  div_big : ratValue b ≠ 0 → rationalDiv a b = .ok (ratDivBig a b)
  compare : sign (rationalCompare a b) = SignType.sign (ratValue a - ratValue b)
  equal : a.equal b = true ↔ ratValue a = ratValue b

section operations

variable {a b : Rational} (ha : Reduced a) (hb : Reduced b)
include ha hb

/-- The path through 128 bits and that through bignums end in one reduced form. -/
lemma rationalOp_eq_big {small : ℤ → ℤ → ℤ → ℤ → ℤ × ℤ}
    {big : Bignum → Bignum → Bignum → Bignum → Bignum × Bignum} (hop : OpAgrees small big)
    (hne : (small (ratNum a) (ratDen a) (ratNum b) (ratDen b)).2 ≠ 0) :
    rationalOp small big a b =
      rationalCreateBn (big (ratNumBn a) (ratDenBn a) (ratNumBn b) (ratDenBn b)).1
        (big (ratNumBn a) (ratDenBn a) (ratNumBn b) (ratDenBn b)).2 :=
  (rationalOp_spec hop ha hb hne).unique (viaBignums_spec hop ha hb hne) hne

lemma rationalDiv_eq_big (hne : ratValue b ≠ 0) : rationalDiv a b = .ok (ratDivBig a b) := by
  have hnum : ratNum b ≠ 0 := fun h => hne (by rw [ratValue, h]; simp)
  have hden : ratDen a * ratNum b ≠ 0 := mul_ne_zero ha.den_pos.ne' hnum
  rcases rationalDiv_spec ha hb with ⟨hzero, -⟩ | ⟨r, -, hr, -, -⟩
  · exact absurd hzero hne
  · have hnonzero : ratIsZero b = false := by
      by_contra hz
      rw [Bool.not_eq_false] at hz
      rw [rationalDiv, if_pos hz] at hr
      cases hr
    rw [rationalDiv, hnonzero, if_neg Bool.false_ne_true, rationalOp_eq_big ha hb opAgrees_div hden]
    rfl

/-- The products fit into 128 bits. -/
lemma intermediates_lt : ∀ x ∈ intermediates a b, -2 ^ 127 < x ∧ x < 2 ^ 127 := by
  intro x hx
  cases a with
  | big n d => cases hx
  | small an ad =>
    cases b with
    | big n d => cases hx
    | small bn bd =>
      have hl := (inRange_toInt an).mul_lt (inRange_toInt bd) hb.den_pos
      have hr := (inRange_toInt bn).mul_lt (inRange_toInt ad) ha.den_pos
      have hd := (inRange_toInt ad).mul_lt (inRange_toInt bd) hb.den_pos
      have hn := (inRange_toInt an).mul_le (inRange_toInt bn)
      have hm := (inRange_toInt ad).mul_le (inRange_toInt bn)
      simp only [intermediates, List.mem_cons, List.not_mem_nil, or_false] at hx
      rcases hx with rfl | rfl | rfl | rfl | rfl | rfl | rfl <;> omega

/-! ### Comparison -/

lemma sign_sub_eq :
    (SignType.sign (ratValue a - ratValue b) : ℤ) = (ratNum a * ratDen b - ratNum b * ratDen a).sign := by
  have hda : (0 : ℚ) < ratDen a := by exact_mod_cast ha.den_pos
  have hdb : (0 : ℚ) < ratDen b := by exact_mod_cast hb.den_pos
  rcases lt_trichotomy (ratValue a) (ratValue b) with h | h | h
  · have hlt : ratNum a * ratDen b < ratNum b * ratDen a := by
      rw [ratValue, ratValue, div_lt_div_iff₀ hda hdb] at h
      exact_mod_cast h
    rw [sign_neg (sub_neg.2 h), Int.sign_eq_neg_one_of_neg (by omega)]
    rfl
  · have heq : ratNum a * ratDen b = ratNum b * ratDen a := by
      rw [ratValue, ratValue, div_eq_div_iff ha.den_ne hb.den_ne] at h
      exact_mod_cast h
    rw [h, heq, sub_self, sub_self, sign_zero, Int.sign_zero]
    rfl
  · have hgt : ratNum b * ratDen a < ratNum a * ratDen b := by
      rw [ratValue, ratValue, div_lt_div_iff₀ hdb hda] at h
      exact_mod_cast h
    rw [sign_pos (sub_pos.2 h), Int.sign_eq_one_of_pos (by omega)]
    rfl

lemma compareBig_spec :
    sign ((bignumMul (ratNumBn a) (ratDenBn b)).compare (bignumMul (ratNumBn b) (ratDenBn a))) =
      (ratNum a * ratDen b - ratNum b * ratDen a).sign := by
  obtain ⟨han, hanv⟩ := ratNumBn_spec ha.represented
  obtain ⟨had, hadv⟩ := ratDenBn_spec ha.represented
  obtain ⟨hbn, hbnv⟩ := ratNumBn_spec hb.represented
  obtain ⟨hbd, hbdv⟩ := ratDenBn_spec hb.represented
  have hl := denotes_mul han hbd
  have hr := denotes_mul hbn had
  rw [compare_spec hl.normalized hr.normalized, hl.toInt_eq, hr.toInt_eq, hanv, hadv, hbnv, hbdv]

/-- Comparisons are exact. -/
lemma rationalCompare_spec :
    sign (rationalCompare a b) = SignType.sign (ratValue a - ratValue b) := by
  rw [sign_sub_eq ha hb]
  cases a with
  | big n d => exact compareBig_spec ha hb
  | small an ad =>
    cases b with
    | big n d => exact compareBig_spec ha hb
    | small bn bd =>
      have hl := (inRange_toInt an).mul_lt (inRange_toInt bd) hb.den_pos
      have hr := (inRange_toInt bn).mul_lt (inRange_toInt ad) ha.den_pos
      unfold rationalCompare
      simp only [int128_eq (x := an.toInt * bd.toInt) (by omega) (by omega),
        int128_eq (x := bn.toInt * ad.toInt) (by omega) (by omega), ratNum, ratDen]
      split_ifs with hlt hgt
      · rw [Int.sign_eq_neg_one_of_neg (by omega)]
        rfl
      · rw [Int.sign_eq_one_of_pos (by omega)]
        rfl
      · rw [show an.toInt * bd.toInt - bn.toInt * ad.toInt = 0 by omega]
        rfl

lemma rational_equal_iff : a.equal b = true ↔ ratValue a = ratValue b := by
  constructor
  · intro h
    suffices hparts : ratNum a = ratNum b ∧ ratDen a = ratDen b by
      rw [ratValue, ratValue, hparts.1, hparts.2]
    cases a with
    | small n d =>
      cases b with
      | small n' d' =>
        rw [Rational.equal, Bool.and_eq_true, beq_iff_eq, beq_iff_eq] at h
        rw [h.1, h.2]
        exact ⟨rfl, rfl⟩
      | big n' d' => cases h
    | big n d =>
      cases b with
      | small n' d' => cases h
      | big n' d' =>
        obtain ⟨hn, hd, -⟩ := ha.represented
        obtain ⟨hn', hd', -⟩ := hb.represented
        rw [Rational.equal, Bool.and_eq_true, beq_iff_eq, beq_iff_eq, compare_eq_iff_toInt hn hn',
          compare_eq_iff_toInt hd hd'] at h
        exact h
  · intro h
    obtain rfl := ha.eq_of_value hb h
    cases a with
    | small n d => simp [Rational.equal]
    | big n d =>
      obtain ⟨hn, hd, -⟩ := ha.represented
      rw [Rational.equal, (compare_eq_iff_toInt hn hn).2 rfl, (compare_eq_iff_toInt hd hd).2 rfl]
      rfl

end operations

theorem rationals_exact {a b : Rational} (ha : Reduced a) (hb : Reduced b) : RationalsExact a b where
  add := rationalAdd_spec ha hb
  sub := rationalSub_spec ha hb
  mul := rationalMul_spec ha hb
  div := by
    intro hne
    rcases rationalDiv_spec ha hb with ⟨hzero, -⟩ | ⟨r, -, hr⟩
    · exact absurd hzero hne
    · exact ⟨r, hr⟩
  intermediate := intermediates_lt ha hb
  add_big := rationalOp_eq_big ha hb opAgrees_add (ratDen_mul_ne ha hb)
  sub_big := rationalOp_eq_big ha hb opAgrees_sub (ratDen_mul_ne ha hb)
  mul_big := rationalOp_eq_big ha hb opAgrees_mul (ratDen_mul_ne ha hb)
  div_big := rationalDiv_eq_big ha hb
  compare := rationalCompare_spec ha hb
  equal := rational_equal_iff ha hb

/-- `-2^63/3` and `2^64 + 1`, small and big. -/
theorem rationals_exact_mixed :
    RationalsExact (.small Int64.minValue 3) (.big ⟨false, [1, 1]⟩ ⟨false, [1]⟩) :=
  rationals_exact (a := .small Int64.minValue 3) (b := .big ⟨false, [1, 1]⟩ ⟨false, [1]⟩)
    ⟨by decide, by decide, trivial⟩
    ⟨by decide, by decide, ⟨by decide, by decide, by decide⟩, ⟨by decide, by decide, by decide⟩, by decide⟩

end Exact
