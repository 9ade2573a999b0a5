import Eshkol.Base.LongDivisionRange
import Eshkol.Vm.BignumSpec

/-!
# Division and the greatest common divisor in the virtual machine

`mag_div_knuth` divides the magnitudes in 64-bit integers that hold every value it computes, and the loop
of `bignum_gcd` ends because the remainders shrink.
-/

namespace Vm.Bignum

open Radix (Digits)
open Nat (ofDigits)

/-! ## Shifts -/

/-- The carry has no bits above the shift. -/
lemma shifted_word {s x carry : ℕ} (hs : s ≤ 32) (hc : carry < 2 ^ s) :
    (x <<< s ||| carry) % limbRadix = ((x <<< s) % 2 ^ 32 ||| carry) ∧
      (x <<< s ||| carry) >>> 32 = x >>> (32 - s) := by
  have hsum : x <<< s ||| carry = 2 ^ s * x + carry := by
    rw [Nat.shiftLeft_eq, Nat.mul_comm, Nat.two_pow_add_eq_or_of_lt hc]
  have hsplit := Radix.two_pow_split hs
  constructor
  · rw [Radix.shifted_digit hs hc, hsum, limbRadix_eq, ← hsplit]
    have hdiv := Nat.mod_add_div x (2 ^ (32 - s))
    have hmod := Nat.mod_lt x (Nat.two_pow_pos (32 - s))
    generalize 2 ^ (32 - s) = K at *
    generalize 2 ^ s = S at *
    have hvalue : S * x + carry = S * (x % K) + carry + S * K * (x / K) := by
      rw [← hdiv, Nat.mul_add, Nat.add_mul_mod_self_left, Nat.mod_mod]
      ring_nf
      rw [Nat.mul_comm K, Nat.add_mul_div_right _ _ (by omega), Nat.div_eq_of_lt hmod]
      ring
    have hlt : S * (x % K) + carry < S * K := by
      have : S * (x % K + 1) ≤ S * K := Nat.mul_le_mul_left _ hmod
      rw [Nat.mul_add, Nat.mul_one] at this
      omega
    rw [hvalue, Nat.add_mul_mod_self_left, Nat.mod_eq_of_lt hlt]
  · rw [hsum, Nat.shiftRight_eq_div_pow, Nat.shiftRight_eq_div_pow, ← hsplit, ← Nat.div_div_eq_div_mul,
      Nat.mul_add_div (Nat.two_pow_pos s), Nat.div_eq_of_lt hc, Nat.add_zero]

lemma shiftLimbsLeft_eq {s carry : ℕ} {xs : List ℕ} (hs : s ≤ 32) (hc : carry < 2 ^ s)
    (hx : Digits limbRadix xs) : shiftLimbsLeft s carry xs = Radix.shiftLeft 32 s carry xs := by
  induction xs generalizing carry with
  | nil => rfl
  | cons x xs ih =>
    rw [Radix.digits_cons] at hx
    obtain ⟨hlow, hhigh⟩ := shifted_word (x := x) hs hc
    have hnext : x >>> (32 - s) < 2 ^ s := by
      rw [Nat.shiftRight_eq_div_pow, Nat.div_lt_iff_lt_mul (Nat.two_pow_pos _), Radix.two_pow_split hs]
      exact hx.1
    simp only [shiftLimbsLeft, Radix.shiftLeft]
    rw [hlow, hhigh, ih hnext hx.2]

lemma shiftLimbsRight_eq (s : ℕ) (xs : List ℕ) :
    (shiftLimbsRight s xs).1 = Radix.shiftRight 32 s xs := by
  induction xs with
  | nil => rfl
  | cons x xs ih =>
    cases xs with
    | nil => simp [shiftLimbsRight, Radix.shiftRight]
    | cons y ys =>
      rw [Radix.shiftRight, ← ih]
      rfl

/-- The shift moves the top bit of the limb to the top. -/
lemma normalizingShift_loop {fuel t : ℕ} (hlt : t < 2 ^ 32) (hfuel : 2 ^ 31 ≤ t * 2 ^ fuel) :
    normalizingShift (fuel + 1) t ≤ fuel ∧ 2 ^ 31 ≤ t * 2 ^ normalizingShift (fuel + 1) t ∧
      t * 2 ^ normalizingShift (fuel + 1) t < 2 ^ 32 := by
  induction fuel generalizing t with
  | zero =>
    rw [pow_zero, Nat.mul_one] at hfuel
    rw [normalizingShift, if_neg (by omega), pow_zero, Nat.mul_one]
    exact ⟨le_rfl, hfuel, hlt⟩
  | succ fuel ih =>
    have hstep : ∀ k, t * 2 ^ (k + 1) = 2 * t * 2 ^ k := by
      intro k
      rw [pow_succ]
      ring
    rw [normalizingShift]
    by_cases hsmall : t < 0x80000000
    · have hdouble : (t <<< 1) % limbRadix = 2 * t := by
        rw [Nat.shiftLeft_eq, limbRadix_eq, pow_one, Nat.mul_comm]
        exact Nat.mod_eq_of_lt (by omega)
      rw [hstep] at hfuel
      rw [if_pos hsmall, hdouble, hstep]
      obtain ⟨hle, htop, hfits⟩ := ih (by omega) hfuel
      exact ⟨by omega, htop, hfits⟩
    · rw [if_neg hsmall, pow_zero, Nat.mul_one]
      exact ⟨Nat.zero_le _, by omega, hlt⟩

lemma normalizingShift_spec {t : ℕ} (hpos : t ≠ 0) (hlt : t < 2 ^ 32) :
    normalizingShift 32 t ≤ 31 ∧ 2 ^ 31 ≤ t * 2 ^ normalizingShift 32 t ∧
      (t + 1) * 2 ^ normalizingShift 32 t ≤ 2 ^ 32 := by
  obtain ⟨hle, htop, hfits⟩ : normalizingShift 32 t ≤ 31 ∧ 2 ^ 31 ≤ t * 2 ^ normalizingShift 32 t ∧
      t * 2 ^ normalizingShift 32 t < 2 ^ 32 :=
    @normalizingShift_loop 31 t hlt (Nat.le_mul_of_pos_left _ (Nat.pos_of_ne_zero hpos))
  refine ⟨hle, htop, ?_⟩
  rw [← Radix.two_pow_split (show normalizingShift 32 t ≤ 32 by omega), Nat.mul_comm (2 ^ _)] at hfits ⊢
  exact Nat.mul_le_mul_right _ (Nat.lt_of_mul_lt_mul_right hfits)

/-! ## Division of the magnitudes -/

/-- The shift that `mag_div_knuth` takes from the divisor. -/
def divisorShift (b : VmBignum) : ℕ :=
  normalizingShift 32 ((words b.limbs).getD (b.limbs.length - 1) 0)

/-- The divisor as `mag_div_knuth` shifts it. -/
def shiftedDivisor (b : VmBignum) : List ℕ :=
  if 0 < divisorShift b then (shiftLimbsLeft (divisorShift b) 0 (words b.limbs)).take b.limbs.length
  else words b.limbs

/-- The dividend as `mag_div_knuth` shifts it. -/
def shiftedDividend (a b : VmBignum) : List ℕ :=
  if 0 < divisorShift b then shiftLimbsLeft (divisorShift b) 0 (words a.limbs) else words a.limbs ++ [0]

lemma scaled_operands {a b : VmBignum} (hb : Trimmed b.limbs) (hn : 2 ≤ b.limbs.length)
    (hlen : b.limbs.length ≤ a.limbs.length) :
    divisorShift b ≤ 31 ∧ Radix.Scaled limbRadix (2 ^ 31) (2 ^ divisorShift b) (words a.limbs)
      (words b.limbs) (shiftedDividend a b) (shiftedDivisor b) := by
  have htop : (words b.limbs).getD (b.limbs.length - 1) 0 ≠ 0 := by
    have hlast := words_getLast hb
    rw [List.getLast?_eq_getElem?, length_words] at hlast
    rw [List.getD_eq_getElem?_getD]
    cases hget : (words b.limbs)[b.limbs.length - 1]? with
    | none =>
      rw [List.getElem?_eq_none_iff, length_words] at hget
      omega
    | some d =>
      rintro rfl
      exact hlast hget
  obtain ⟨hs, hS, hfits⟩ := normalizingShift_spec htop ((digits_words b.limbs).getD (by decide) _)
  rw [← divisorShift] at hs hS hfits
  have hdivisor : shiftedDivisor b = Radix.shiftedDivisor 32 (divisorShift b) (words b.limbs) := by
    rw [shiftedDivisor, Radix.shiftedDivisor, length_words,
      shiftLimbsLeft_eq (Nat.le_succ_of_le hs) (Nat.two_pow_pos _) (digits_words _)]
  have hdividend : shiftedDividend a b = Radix.shiftedDividend 32 (divisorShift b) (words a.limbs) := by
    rw [shiftedDividend, Radix.shiftedDividend,
      shiftLimbsLeft_eq (Nat.le_succ_of_le hs) (Nat.two_pow_pos _) (digits_words _)]
  rw [hdivisor, hdividend]
  refine ⟨hs, Radix.scaled_of_shift (w := 32) (Nat.lt_succ_of_le hs) (digits_words _) (digits_words _)
    ?_ ?_ ?_ ?_⟩
  · rwa [length_words]
  · rwa [length_words, length_words]
  · rwa [length_words]
  · rwa [length_words]

/-- `mag_div_knuth` divides the magnitudes. -/
lemma magDivKnuth_spec {a b : VmBignum} (hb : Trimmed b.limbs) (hn : 2 ≤ b.limbs.length)
    (hlen : b.limbs.length ≤ a.limbs.length) :
    Denotes (magDivKnuth a b).1 (magnitude a.limbs / magnitude b.limbs : ℕ) ∧
      Denotes (magDivKnuth a b).2 (magnitude a.limbs % magnitude b.limbs : ℕ) := by
  obtain ⟨hs, hscaled⟩ := scaled_operands (a := a) hb hn hlen
  obtain ⟨hquot, hrem, hqdigits, -, hrdigits, -⟩ := hscaled.divLoop one_lt_limbRadix
  rw [length_words, length_words] at hquot hrem hqdigits hrdigits
  generalize hdivision : Radix.divLoop limbRadix (shiftedDivisor b)
    (a.limbs.length - b.limbs.length + 1) (shiftedDividend a b) = division at *
  generalize hrest : division.2.take b.limbs.length = rest at *
  have hknuth : magDivKnuth a b = (bignumNormalize ⟨1, limbsOf division.1⟩,
      bignumNormalize ⟨1, limbsOf (if 0 < divisorShift b then (shiftLimbsRight (divisorShift b) rest).1
        else rest)⟩) := by
    rw [← hrest, ← hdivision, magDivKnuth, if_neg (Nat.not_lt.2 hlen)]
    rfl
  obtain ⟨hback, hback_digits, -⟩ := Radix.shiftedRemainder_spec (w := 32) (Nat.le_succ_of_le hs)
    (hrest ▸ hrdigits.take b.limbs.length)
  rw [hknuth, shiftLimbsRight_eq]
  constructor
  · have h := @denotes_normalize 1 _ hqdigits (by decide)
    rwa [SignType.coe_one, one_mul, hquot] at h
  · have h := @denotes_normalize 1 _ hback_digits (by decide)
    rw [SignType.coe_one, one_mul] at h
    have hvalue : magnitude a.limbs % magnitude b.limbs = ofDigits limbRadix
        (Radix.shiftedRemainder 32 (divisorShift b) rest) := by
      rw [magnitude, magnitude, ← hrem]
      exact hback.symm
    rw [hvalue]
    exact h

lemma magDivSingle_spec (a : VmBignum) {d : UInt32} (hd : d ≠ 0) :
    Denotes (magDivSingle a d).1 (magnitude a.limbs / d.toNat : ℕ) ∧
      (magDivSingle a d).2.toNat = magnitude a.limbs % d.toNat := by
  have hpos : 0 < d.toNat := Nat.pos_of_ne_zero fun h => hd (UInt32.toNat_inj.1 h)
  obtain ⟨hval, hrem, hdigits, -⟩ := Radix.divDigit_spec hpos (digits_words a.limbs)
  rw [Nat.add_comm] at hval
  have hunique := (Nat.div_mod_unique hpos).2 ⟨hval.symm, hrem⟩
  constructor
  · have h := @denotes_normalize 1 _ hdigits (by decide)
    rwa [SignType.coe_one, one_mul, ← hunique.1] at h
  · show (UInt32.ofNat _).toNat = _
    rw [UInt32.toNat_ofNat_of_lt' (Nat.lt_trans hrem d.toNat_lt)]
    exact hunique.2.symm

/-! ## Signs -/

/-- A sign put on a number that is not negative. -/
lemma withSign_spec {r : VmBignum} {m : ℕ} {sign : SignType} (h : Denotes r (m : ℤ)) (hsign : sign ≠ 0) :
    Denotes (withSign r sign) (sign * m) := by
  rw [withSign]
  have hmag : magnitude r.limbs = m := by
    rw [← h.normalized.natAbs_toInt, h.toInt_eq, Int.natAbs_natCast]
  split
  · rename_i hzero
    rw [h.normalized.isZero_iff, h.toInt_eq] at hzero
    rw [hzero, mul_zero]
    exact ⟨h.normalized, h.toInt_eq.trans hzero⟩
  · rename_i hzero
    rw [h.normalized.isZero_iff, h.toInt_eq] at hzero
    refine denotes_with h.normalized.trimmed ?_ hsign (by rw [hmag])
    rw [hmag]
    exact_mod_cast hzero

/-- A copy of a dividend, its sign aside. -/
lemma withSign_self (a : VmBignum) : withSign a a.sign = a := by
  rw [withSign]
  split <;> rfl

/-- Quotient and remainder of truncated division. -/
lemma divmod_spec {a b : VmBignum} (ha : Normalized a) (hb : Normalized b) (hne : b.toInt ≠ 0) :
    Denotes (bignumDivmod a b).1 (a.toInt.tdiv b.toInt) ∧
      Denotes (bignumDivmod a b).2 (a.toInt.tmod b.toInt) := by
  have hzero_b : bignumIsZero b ≠ true := by rwa [Ne, hb.isZero_iff]
  rw [bignumDivmod, if_neg hzero_b]
  by_cases hzero : bignumIsZero a = true
  · rw [if_pos hzero, ha.isZero_iff.1 hzero, Int.zero_tdiv, Int.zero_tmod]
    exact ⟨fromInt64_spec 0, fromInt64_spec 0⟩
  rw [if_neg hzero]
  obtain ⟨hpos, hcases⟩ := ha.sign_cases hzero
  obtain ⟨hpos_b, hcases_b⟩ := hb.sign_cases hzero_b
  -- the quotient and the remainder of the magnitudes, whichever branch computes them
  have hunsigned : ∀ q r : VmBignum, Denotes q (magnitude a.limbs / magnitude b.limbs : ℕ) →
      Denotes r (magnitude a.limbs % magnitude b.limbs : ℕ) ∨ (r = a ∧ magnitude a.limbs < magnitude b.limbs) →
      Denotes (withSign q (if a.sign = b.sign then 1 else -1)) (a.toInt.tdiv b.toInt) ∧
        Denotes (withSign r a.sign) (a.toInt.tmod b.toInt) := by
    intro q r hq hr
    have hsign : a.sign ≠ 0 := (ha.toInt_eq_mul hzero).1
    have hr' : Denotes (withSign r a.sign) (a.sign * (magnitude a.limbs % magnitude b.limbs : ℕ)) := by
      obtain hr | ⟨rfl, hlt⟩ := hr
      · exact withSign_spec hr hsign
      · rw [withSign_self, Nat.mod_eq_of_lt hlt]
        exact ⟨ha, rfl⟩
    have hdiv : (magnitude a.limbs : ℤ).tdiv (magnitude b.limbs) = (magnitude a.limbs / magnitude b.limbs : ℕ) :=
      Int.ofNat_tdiv _ _
    have hmod : (magnitude a.limbs : ℤ).tmod (magnitude b.limbs) = (magnitude a.limbs % magnitude b.limbs : ℕ) :=
      (Int.ofNat_tmod _ _).symm
    have hq_pos := @withSign_spec q _ 1 hq (by decide)
    have hq_neg := @withSign_spec q _ (-1) hq (by decide)
    simp only [SignType.coe_one, SignType.coe_neg_one, one_mul, neg_one_mul] at hq_pos hq_neg
    obtain ⟨hs, hval⟩ | ⟨hs, hval⟩ := hcases <;> obtain ⟨hs_b, hval_b⟩ | ⟨hs_b, hval_b⟩ := hcases_b <;>
      rw [hs] at hr' <;> rw [hs, hs_b, hval, hval_b] <;>
      simp only [SignType.coe_one, SignType.coe_neg_one, one_mul, neg_one_mul] at hr' <;>
      simp only [Int.neg_tdiv, Int.tdiv_neg, Int.neg_tmod, Int.tmod_neg, hdiv, hmod, neg_neg]
    · exact ⟨hq_pos, hr'⟩
    · exact ⟨hq_neg, hr'⟩
    · exact ⟨hq_neg, hr'⟩
    · exact ⟨hq_pos, hr'⟩
  by_cases hone : b.limbs.length = 1
  · obtain ⟨d, hd⟩ := List.length_eq_one_iff.1 hone
    have hd_ne : d ≠ 0 := by
      rintro rfl
      rw [hd, magnitude_singleton] at hpos_b
      exact absurd hpos_b (by decide)
    obtain ⟨hq, hr⟩ := magDivSingle_spec a hd_ne
    have hmag : magnitude b.limbs = d.toNat := by rw [hd, magnitude_singleton]
    have hr' := fromUint64_spec (magDivSingle a d).2.toUInt64
    rw [UInt32.toNat_toUInt64, hr, ← hmag] at hr'
    rw [← hmag] at hq
    rw [if_pos hone, hd, List.headD_cons]
    exact hunsigned _ _ hq (.inl hr')
  · have hlen : 2 ≤ b.limbs.length := by
      have : b.limbs.length ≠ 0 := by
        intro hnil
        rw [List.length_eq_zero_iff] at hnil
        rw [hnil] at hpos_b
        exact absurd hpos_b (by decide)
      omega
    simp only [if_neg hone]
    rw [compareMagnitude_eq ha.trimmed hb.trimmed]
    by_cases hlt : magnitude a.limbs < magnitude b.limbs
    · have hcmp := Nat.compare_eq_lt.2 hlt
      rw [if_pos hcmp]
      refine hunsigned _ _ ?_ (.inr ⟨rfl, hlt⟩)
      rw [Nat.div_eq_of_lt hlt]
      exact fromInt64_spec 0
    by_cases heq : magnitude a.limbs = magnitude b.limbs
    · have hcmp := Nat.compare_eq_eq.2 heq
      rw [hcmp, if_neg (by decide), if_pos rfl]
      refine hunsigned _ _ ?_ (.inl ?_)
      · rw [heq, Nat.div_self hpos_b]
        exact fromInt64_spec 1
      · rw [heq, Nat.mod_self]
        exact fromInt64_spec 0
    · have hcmp : compare (magnitude a.limbs) (magnitude b.limbs) = .gt :=
        Nat.compare_eq_gt.2 (by omega)
      obtain ⟨hq, hr⟩ := magDivKnuth_spec (a := a) hb.trimmed hlen
        (length_le_of_magnitude_le hb.trimmed (by omega))
      rw [hcmp, if_neg (by decide), if_neg (by decide)]
      exact hunsigned _ _ hq (.inl hr)

/-! ## Intermediate values -/

/-- What the division computes fits into 64 bits: in `mag_div_single` for a divisor of one limb, in the
main loop of `mag_div_knuth` for a longer one that is below the dividend. -/
def DivmodInRange (a b : VmBignum) : Prop :=
  if b.limbs.length = 1 then Radix.DivDigitInRange limbRadix (b.limbs.headD 0).toNat (words a.limbs)
  else
    bignumCompareMagnitude a b = .gt →
      Radix.DivLoopInRange limbRadix (shiftedDivisor b) (a.limbs.length - b.limbs.length + 1)
        (shiftedDividend a b)

lemma divmod_inRange {a b : VmBignum} (ha : Normalized a) (hb : Normalized b) (hne : b.toInt ≠ 0) :
    DivmodInRange a b := by
  have hzero_b : bignumIsZero b ≠ true := by rwa [Ne, hb.isZero_iff]
  obtain ⟨hpos, -⟩ := hb.sign_cases hzero_b
  rw [DivmodInRange]
  by_cases hone : b.limbs.length = 1
  · obtain ⟨d, hd⟩ := List.length_eq_one_iff.1 hone
    rw [hd, magnitude_singleton] at hpos
    rw [if_pos hone, hd, List.headD_cons]
    exact Radix.divDigit_inRange hpos d.toNat_lt (digits_words _)
  · rw [if_neg hone]
    intro hcmp
    rw [compareMagnitude_eq ha.trimmed hb.trimmed, Nat.compare_eq_gt] at hcmp
    have hlen : 2 ≤ b.limbs.length := by
      have : b.limbs.length ≠ 0 := by
        intro hnil
        rw [List.length_eq_zero_iff] at hnil
        rw [hnil] at hpos
        exact absurd hpos (by decide)
      omega
    have hscaled := (scaled_operands (a := a) hb.trimmed hlen
      (length_le_of_magnitude_le hb.trimmed hcmp.le)).2
    have hrange := hscaled.inRange (by decide)
    rwa [length_words, length_words] at hrange

/-! ## The greatest common divisor -/

/-- A round replaces the pair by the smaller number and the remainder, so the rounds are bounded by the
second number. -/
lemma gcdLoop_spec {fuel m n : ℕ} {x y : VmBignum} (hx : Denotes x m) (hy : Denotes y n)
    (hfuel : n < fuel) : ∃ r, gcdLoop fuel x y = some r ∧ Denotes r (Nat.gcd m n : ℕ) := by
  induction fuel generalizing x y m n with
  | zero => exact absurd hfuel (Nat.not_lt_zero n)
  | succ fuel ih =>
    rw [gcdLoop]
    by_cases hzero : bignumIsZero y = true
    · rw [hy.normalized.isZero_iff, hy.toInt_eq, Nat.cast_eq_zero] at hzero
      subst hzero
      rw [if_pos (by rw [hy.normalized.isZero_iff, hy.toInt_eq, Nat.cast_zero]), Nat.gcd_zero_right]
      exact ⟨x, rfl, hx⟩
    · rw [if_neg hzero]
      rw [hy.normalized.isZero_iff] at hzero
      have hpos : n ≠ 0 := by
        rintro rfl
        exact hzero hy.toInt_eq
      obtain ⟨-, hmod⟩ := divmod_spec hx.normalized hy.normalized hzero
      rw [hx.toInt_eq, hy.toInt_eq, ← Int.ofNat_tmod] at hmod
      have hr := @withSign_spec _ _ 1 hmod (by decide)
      rw [SignType.coe_one, one_mul] at hr
      have hlt := Nat.mod_lt m (Nat.pos_of_ne_zero hpos)
      obtain ⟨r, hrun, hgcd⟩ := ih hy hr (by omega)
      rw [Nat.gcd_comm n, ← Nat.gcd_rec, Nat.gcd_comm] at hgcd
      exact ⟨r, hrun, hgcd⟩

/-- The loop of Euclid, with enough fuel. -/
lemma gcd_spec {a b : VmBignum} (ha : Normalized a) (hb : Normalized b) {fuel : ℕ}
    (hfuel : magnitude b.limbs < fuel) :
    ∃ r, bignumGcd fuel a b = some r ∧ Denotes r (Int.gcd a.toInt b.toInt : ℕ) := by
  have habs := absVal_spec ha
  have habs_b := absVal_spec hb
  rw [Int.abs_eq_natAbs] at habs habs_b
  rw [bignumGcd, Int.gcd_def]
  by_cases hzero : bignumIsZero a = true
  · rw [if_pos hzero, ha.isZero_iff.1 hzero, Int.natAbs_zero, Nat.gcd_zero_left]
    exact ⟨_, rfl, habs_b⟩
  by_cases hzero_b : bignumIsZero b = true
  · rw [if_neg hzero, if_pos hzero_b, hb.isZero_iff.1 hzero_b, Int.natAbs_zero, Nat.gcd_zero_right]
    exact ⟨_, rfl, habs⟩
  · rw [if_neg hzero, if_neg hzero_b]
    exact gcdLoop_spec habs habs_b (by rwa [hb.natAbs_toInt])

/-! ## Division and the greatest common divisor together -/

/-- What `bignum_divmod` returns for a divisor that is not zero. -/
structure DivmodExact (a b : VmBignum) : Prop where
  quotient : Normalized (bignumDivmod a b).1
  remainder : Normalized (bignumDivmod a b).2
  identity : a.toInt = (bignumDivmod a b).1.toInt * b.toInt + (bignumDivmod a b).2.toInt
  bounded : |(bignumDivmod a b).2.toInt| < |b.toInt|
  sign : (bignumDivmod a b).2.toInt = 0 ∨ (bignumDivmod a b).2.toInt.sign = a.toInt.sign
  inRange : DivmodInRange a b

lemma divmodExact_of_ne_zero {a b : VmBignum} (ha : Normalized a) (hb : Normalized b)
    (hne : b.toInt ≠ 0) : DivmodExact a b := by
  obtain ⟨hq, hr⟩ := divmod_spec ha hb hne
  refine ⟨hq.normalized, hr.normalized, ?_, ?_, ?_, divmod_inRange ha hb hne⟩
  · rw [hq.toInt_eq, hr.toInt_eq, Int.mul_comm]
    exact (Int.mul_tdiv_add_tmod _ _).symm
  · rw [hr.toInt_eq, Int.abs_eq_natAbs, Int.abs_eq_natAbs, Int.natAbs_tmod]
    exact_mod_cast Nat.mod_lt _ (by omega)
  · rw [hr.toInt_eq]
    exact Radix.sign_tmod _ _

/-- The division satisfies Euclid's identity, and the loop for the greatest common divisor ends with it
after as many rounds as it may need. -/
theorem divmod_gcd_exact {a b : VmBignum} (ha : Normalized a) (hb : Normalized b) :
    (b.toInt ≠ 0 → DivmodExact a b) ∧
      ∃ rounds, ∀ fuel, rounds ≤ fuel →
        ∃ r, bignumGcd fuel a b = some r ∧ Denotes r (Int.gcd a.toInt b.toInt : ℕ) := by
  refine ⟨divmodExact_of_ne_zero ha hb, magnitude b.limbs + 1, fun fuel hfuel => ?_⟩
  exact gcd_spec ha hb hfuel

/-- `-2^64` and `2^32 + 1`. -/
theorem divmod_gcd_exact_two_limbs :
    DivmodExact ⟨-1, [0, 0, 1]⟩ ⟨1, [1, 1]⟩ ∧ ∃ rounds, ∀ fuel, rounds ≤ fuel →
      ∃ r, bignumGcd fuel ⟨-1, [0, 0, 1]⟩ ⟨1, [1, 1]⟩ = some r ∧ Denotes r 1 := by
  have ha : Normalized ⟨-1, [0, 0, 1]⟩ := ⟨by decide, by decide⟩
  have hb : Normalized ⟨1, [1, 1]⟩ := ⟨by decide, by decide⟩
  obtain ⟨hdivmod, hgcd⟩ := divmod_gcd_exact ha hb
  exact ⟨hdivmod (by decide), hgcd⟩

end Vm.Bignum
