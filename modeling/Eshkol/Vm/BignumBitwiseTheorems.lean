import Eshkol.Vm.BignumDivision

/-!
# Bitwise operations and shifts agree with the integers

The results have the bits of the infinite two's complement representations, combined, and a shift is the
product with a power of two, rounded down.
-/

namespace Vm.Bignum

open Radix (Digits zipPad)
open Nat (ofDigits)

/-! ## Limbs -/

lemma words_zipPad {op : UInt32 → UInt32 → UInt32} {op' : ℕ → ℕ → ℕ}
    (h : ∀ x y, (op x y).toNat = op' x.toNat y.toNat) (n : ℕ) (xs ys : List UInt32) :
    words (zipPad op 0 n xs ys) = zipPad op' 0 n (words xs) (words ys) :=
  Radix.map_zipPad h 0 n xs ys

lemma testBit_not {x i : ℕ} (hx : x < 2 ^ 32) (hi : i < 32) :
    (2 ^ 32 - 1 - x).testBit i = !x.testBit i := by
  rw [show 2 ^ 32 - 1 - x = 2 ^ 32 - (x + 1) by omega, Nat.testBit_two_pow_sub_succ hx, decide_eq_true hi,
    Bool.true_and]

lemma bitwise_andNot : Radix.Bitwise 32 (fun x y => x &&& (2 ^ 32 - 1 - y)) (fun p q => p && !q) :=
  ⟨fun _ y _ _ => Nat.and_lt_two_pow _ (by omega),
    fun x y i _ hy hi => by rw [Nat.testBit_and, testBit_not hy hi]⟩

lemma bitwise_notAnd : Radix.Bitwise 32 (fun x y => (2 ^ 32 - 1 - x) &&& y) (fun p q => !p && q) :=
  ⟨fun _ _ _ hy => Nat.and_lt_two_pow _ hy,
    fun x y i hx _ hi => by rw [Nat.testBit_and, testBit_not hx hi]⟩

lemma testBit_magnitude {limbs : List UInt32} {n i : ℕ} (hn : limbs.length ≤ n) (hi : 32 * n ≤ i) :
    (magnitude limbs).testBit i = false :=
  @Radix.testBit_of_length_le 32 (words limbs) n i (digits_words limbs) (by rwa [length_words]) hi

/-- Limbs combined bit by bit, with enough of them for all bits that are set. -/
lemma zipPad_spec {op : UInt32 → UInt32 → UInt32} {op' : ℕ → ℕ → ℕ} {f : Bool → Bool → Bool}
    (h : ∀ x y, (op x y).toNat = op' x.toNat y.toNat) (hop : Radix.Bitwise 32 op' f) {n : ℕ}
    {xs ys : List UInt32} {r : ℕ}
    (hr : ∀ i, r.testBit i = f ((magnitude xs).testBit i) ((magnitude ys).testBit i))
    (hn : ∀ i, 32 * n ≤ i → f ((magnitude xs).testBit i) ((magnitude ys).testBit i) = false) :
    Denotes (bignumNormalize ⟨1, zipPad op 0 n xs ys⟩) r := by
  have hdigits := Radix.digits_zipPad hop n (digits_words xs) (digits_words ys)
  have hlimbs : zipPad op 0 n xs ys = limbsOf (zipPad op' 0 n (words xs) (words ys)) := by
    rw [← words_zipPad h, limbsOf, words, List.map_map]
    exact ((List.map_congr_left fun limb _ => UInt32.ofNat_toNat).trans (List.map_id _)).symm
  have hvalue : ofDigits limbRadix (zipPad op' 0 n (words xs) (words ys)) = r := by
    apply Nat.eq_of_testBit_eq
    intro i
    have hbit := Radix.testBit_zipPad hop n (digits_words xs) (digits_words ys) i
    refine hbit.trans ?_
    rw [hr]
    by_cases hi : i < 32 * n
    · rw [decide_eq_true hi, Bool.true_and]
      rfl
    · rw [decide_eq_false hi, Bool.false_and]
      exact (hn i (by omega)).symm
  have hnorm := @denotes_normalize 1 _ hdigits (by decide)
  rwa [SignType.coe_one, one_mul, hvalue, ← hlimbs] at hnorm

/-! ## Signs -/

/-- A number that is not zero, by the pattern of its bits. -/
lemma Normalized.bits_cases {a : VmBignum} (ha : Normalized a) (hne : bignumIsZero a ≠ true) :
    (a.sign = 1 ∧ a.toInt = (magnitude a.limbs : ℕ)) ∨
      (a.sign = -1 ∧ a.toInt = Int.negSucc (magnitude (magMinusOne a).limbs) ∧
        (magMinusOne a).limbs.length ≤ a.limbs.length) := by
  obtain ⟨hpos, ⟨hs, hval⟩ | ⟨hs, hval⟩⟩ := ha.sign_cases hne
  · exact .inl ⟨hs, hval⟩
  · have habs : bignumAbsVal a = ⟨1, a.limbs⟩ := by rw [bignumAbsVal, hs, if_pos (by decide)]
    have hone := fromInt64_spec 1
    have hone_mag : magnitude (bignumFromInt64 1).limbs = 1 := by decide
    obtain ⟨htrimmed, hmag⟩ := magSub_spec (a := bignumAbsVal a) hone.normalized.trimmed
      (by rw [habs, hone_mag]; exact hpos)
    have hmag : magnitude (magMinusOne a).limbs = magnitude a.limbs - 1 := by
      rw [magMinusOne, hmag, habs, hone_mag]
    refine .inr ⟨hs, ?_, ?_⟩
    · rw [hval, hmag, Int.negSucc_eq]
      push_cast [hpos]
      omega
    · rw [← magMinusOne] at htrimmed
      exact length_le_of_magnitude_le (a := a) (b := magMinusOne a) htrimmed (by omega)

/-! ## Complement -/

/-- The complement is -x - 1. -/
lemma bitwiseNot_spec {a : VmBignum} (ha : Normalized a) :
    Denotes (bignumBitwiseNot a) (Int.lnot a.toInt) := by
  have hone := fromInt64_spec 1
  have hone_val : (1 : Int64).toInt = 1 := rfl
  rw [TwosComplement.lnot_eq, bignumBitwiseNot]
  by_cases hneg : a.sign = -1
  · have habs := absVal_spec ha
    have hsub := sub_spec habs.normalized hone.normalized
    have hlt : a.toInt < 0 := by
      have hne : bignumIsZero a ≠ true := by
        intro hzero
        rw [ha.eq_zero hzero] at hneg
        exact absurd hneg (by decide)
      obtain ⟨hpos, ⟨hs, -⟩ | ⟨-, hval⟩⟩ := ha.sign_cases hne
      · rw [hneg] at hs
        exact absurd hs (by decide)
      · omega
    rw [hneg, if_neg (by decide)]
    rw [habs.toInt_eq, hone.toInt_eq, hone_val, abs_of_neg hlt] at hsub
    rwa [show -(a.toInt + 1) = -a.toInt - 1 by omega]
  · have hnonneg : 0 ≤ a.sign ∧ 0 ≤ a.toInt := by
      rw [VmBignum.toInt]
      cases hs : a.sign with
      | zero => exact ⟨by decide, by simp⟩
      | neg => exact absurd hs hneg
      | pos => exact ⟨by decide, by simp⟩
    have hadd := add_spec ha hone.normalized
    rw [hone.toInt_eq, hone_val] at hadd
    have hmag := hadd.normalized.natAbs_toInt
    rw [hadd.toInt_eq] at hmag
    rw [if_pos hnonneg.1]
    refine denotes_with hadd.normalized.trimmed (by omega) (by decide) ?_
    rw [SignType.coe_neg_one, ← hmag]
    omega

/-! ## Conjunction -/

lemma one_toInt : (1 : Int64).toInt = 1 := rfl

/-- One more than a disjunction, with the sign of a number below zero. -/
lemma negSucc_spec {r : VmBignum} {m : ℕ} (h : Denotes r m) :
    Denotes { bignumAdd r (bignumFromInt64 1) with sign := -1 } (Int.negSucc m) := by
  have hone := fromInt64_spec 1
  have hadd := add_spec h.normalized hone.normalized
  rw [h.toInt_eq, hone.toInt_eq, one_toInt] at hadd
  have hmag := hadd.normalized.natAbs_toInt
  rw [hadd.toInt_eq] at hmag
  refine denotes_with hadd.normalized.trimmed (by omega) (by decide) ?_
  rw [SignType.coe_neg_one, ← hmag, Int.negSucc_eq]
  omega

/-- Conjunction, by the signs of the operands. -/
lemma bitwiseAnd_spec {a b : VmBignum} (ha : Normalized a) (hb : Normalized b) :
    Denotes (bignumBitwiseAnd a b) (Int.land a.toInt b.toInt) := by
  have hland_zero : ∀ x : ℤ, Int.land 0 x = 0 ∧ Int.land x 0 = 0 := fun x =>
    ⟨TwosComplement.eq_of_testBit_eq fun i => by simp [Int.testBit_land],
      TwosComplement.eq_of_testBit_eq fun i => by simp [Int.testBit_land]⟩
  rw [bignumBitwiseAnd]
  by_cases hzero : bignumIsZero a = true
  · rw [hzero, Bool.true_or, if_pos rfl, ha.isZero_iff.1 hzero, (hland_zero _).1]
    exact fromInt64_spec 0
  by_cases hzero_b : bignumIsZero b = true
  · rw [hzero_b, Bool.or_true, if_pos rfl, hb.isZero_iff.1 hzero_b, (hland_zero _).2]
    exact fromInt64_spec 0
  rw [if_neg (by simp [hzero, hzero_b])]
  obtain ⟨hs, hval⟩ | ⟨hs, hval, hlen⟩ := ha.bits_cases hzero <;>
    obtain ⟨hs_b, hval_b⟩ | ⟨hs_b, hval_b, hlen_b⟩ := hb.bits_cases hzero_b <;>
    rw [hs, hs_b, hval, hval_b]
  · -- the bits past the shorter number are zeros of one of the two
    rw [if_pos (by decide)]
    refine zipPad_spec (fun x y => UInt32.toNat_and x y) Radix.bitwise_and (fun i => Nat.testBit_and ..)
      fun i hi => ?_
    rcases Nat.le_total a.limbs.length b.limbs.length with hle | hle
    · rw [testBit_magnitude (n := a.limbs.length) le_rfl (by rwa [Nat.min_eq_left hle] at hi),
        Bool.false_and]
    · rw [testBit_magnitude (n := b.limbs.length) le_rfl (by rwa [Nat.min_eq_right hle] at hi),
        Bool.and_false]
  · rw [if_neg (by decide), if_pos (by decide)]
    refine zipPad_spec (fun x y => ?_) bitwise_andNot (fun i => Nat.testBit_ldiff ..) fun i hi => ?_
    · rw [UInt32.toNat_and, UInt32.toNat_not]
      rfl
    · rw [testBit_magnitude le_rfl hi, Bool.false_and]
  · rw [if_neg (by decide), if_neg (by decide), if_pos (by decide)]
    refine zipPad_spec (fun x y => ?_) bitwise_notAnd (fun i => ?_) fun i hi => ?_
    · rw [UInt32.toNat_and, UInt32.toNat_not]
      rfl
    · rw [Nat.testBit_ldiff, Bool.and_comm]
    · rw [testBit_magnitude le_rfl hi, Bool.and_false]
  · rw [if_neg (by decide), if_neg (by decide), if_neg (by decide)]
    refine negSucc_spec (zipPad_spec (fun x y => UInt32.toNat_or x y) Radix.bitwise_or
      (fun i => Nat.testBit_or ..) fun i hi => ?_)
    rw [testBit_magnitude (hlen.trans (Nat.le_max_left _ _)) hi,
      testBit_magnitude (hlen_b.trans (Nat.le_max_right _ _)) hi]
    rfl

/-! ## Disjunction and exclusive disjunction -/

/-- Both numbers positive, by way of their sign. -/
lemma lor_eq (x y : ℤ) : Int.lor x y = Int.lnot (Int.land (Int.lnot x) (Int.lnot y)) :=
  TwosComplement.eq_of_testBit_eq fun i => by
    simp [Int.testBit_lor, Int.testBit_land, Int.testBit_lnot]

lemma xor_eq (x y : ℤ) :
    Int.xor x y = Int.land (Int.lor x y) (Int.lnot (Int.land x y)) :=
  TwosComplement.eq_of_testBit_eq fun i => by
    simp only [Int.testBit_lxor, Int.testBit_lor, Int.testBit_land, Int.testBit_lnot]
    cases x.testBit i <;> cases y.testBit i <;> rfl

/-- Positive numbers have no bits past the longer one. -/
lemma testBit_max {a b : VmBignum} {i : ℕ} (hi : 32 * max a.limbs.length b.limbs.length ≤ i) :
    (magnitude a.limbs).testBit i = false ∧ (magnitude b.limbs).testBit i = false :=
  ⟨testBit_magnitude (Nat.le_max_left _ _) hi, testBit_magnitude (Nat.le_max_right _ _) hi⟩

/-- A number that is not positive has the sign that the test looks for. -/
lemma Normalized.pos_iff {a : VmBignum} (ha : Normalized a) (hne : bignumIsZero a ≠ true) :
    0 < a.sign ↔ a.toInt = (magnitude a.limbs : ℕ) := by
  obtain ⟨hpos, ⟨hs, hval⟩ | ⟨hs, hval⟩⟩ := ha.sign_cases hne
  · rw [hs]
    exact ⟨fun _ => hval, fun _ => by decide⟩
  · rw [hs]
    exact ⟨fun h => absurd h (by decide), fun h => by omega⟩

lemma bitwiseOr_spec {a b : VmBignum} (ha : Normalized a) (hb : Normalized b) :
    Denotes (bignumBitwiseOr a b) (Int.lor a.toInt b.toInt) := by
  have hlor_zero : ∀ x : ℤ, Int.lor 0 x = x ∧ Int.lor x 0 = x := fun x =>
    ⟨TwosComplement.eq_of_testBit_eq fun i => by simp [Int.testBit_lor],
      TwosComplement.eq_of_testBit_eq fun i => by simp [Int.testBit_lor]⟩
  rw [bignumBitwiseOr]
  by_cases hzero : bignumIsZero a = true
  · rw [if_pos hzero, ha.isZero_iff.1 hzero, (hlor_zero _).1]
    exact ⟨hb, rfl⟩
  by_cases hzero_b : bignumIsZero b = true
  · rw [if_neg hzero, if_pos hzero_b, hb.isZero_iff.1 hzero_b, (hlor_zero _).2]
    exact ⟨ha, rfl⟩
  rw [if_neg hzero, if_neg hzero_b]
  split
  · rename_i hpos
    rw [Bool.and_eq_true, decide_eq_true_eq, decide_eq_true_eq, ha.pos_iff hzero, hb.pos_iff hzero_b] at hpos
    rw [hpos.1, hpos.2]
    refine zipPad_spec (fun x y => UInt32.toNat_or x y) Radix.bitwise_or (fun i => Nat.testBit_or ..)
      fun i hi => ?_
    rw [(testBit_max hi).1, (testBit_max hi).2]
    rfl
  · have hnot := bitwiseNot_spec ha
    have hnot_b := bitwiseNot_spec hb
    have hand := bitwiseAnd_spec hnot.normalized hnot_b.normalized
    have h := bitwiseNot_spec hand.normalized
    rwa [hand.toInt_eq, hnot.toInt_eq, hnot_b.toInt_eq, ← lor_eq] at h

lemma bitwiseXor_spec {a b : VmBignum} (ha : Normalized a) (hb : Normalized b) :
    Denotes (bignumBitwiseXor a b) (Int.xor a.toInt b.toInt) := by
  have hxor_zero : ∀ x : ℤ, Int.xor 0 x = x ∧ Int.xor x 0 = x := fun x =>
    ⟨TwosComplement.eq_of_testBit_eq fun i => by simp [Int.testBit_lxor],
      TwosComplement.eq_of_testBit_eq fun i => by simp [Int.testBit_lxor]⟩
  rw [bignumBitwiseXor]
  by_cases hzero : bignumIsZero a = true
  · rw [if_pos hzero, ha.isZero_iff.1 hzero, (hxor_zero _).1]
    exact ⟨hb, rfl⟩
  by_cases hzero_b : bignumIsZero b = true
  · rw [if_neg hzero, if_pos hzero_b, hb.isZero_iff.1 hzero_b, (hxor_zero _).2]
    exact ⟨ha, rfl⟩
  rw [if_neg hzero, if_neg hzero_b]
  split
  · rename_i hpos
    rw [Bool.and_eq_true, decide_eq_true_eq, decide_eq_true_eq, ha.pos_iff hzero, hb.pos_iff hzero_b] at hpos
    rw [hpos.1, hpos.2]
    refine zipPad_spec (fun x y => UInt32.toNat_xor x y) Radix.bitwise_xor (fun i => Nat.testBit_xor ..)
      fun i hi => ?_
    rw [(testBit_max hi).1, (testBit_max hi).2]
    rfl
  · have hor := bitwiseOr_spec ha hb
    have hand := bitwiseAnd_spec ha hb
    have hnot := bitwiseNot_spec hand.normalized
    have h := bitwiseAnd_spec hor.normalized hnot.normalized
    rwa [hor.toInt_eq, hnot.toInt_eq, hand.toInt_eq, ← xor_eq] at h

/-! ## Shifts -/

lemma pow_shift (shift : ℕ) : limbRadix ^ (shift / 32) * 2 ^ (shift % 32) = 2 ^ shift := by
  rw [limbRadix_eq, ← pow_mul, ← pow_add, Nat.div_add_mod]

lemma shiftLeftBy_spec {a : VmBignum} (ha : Normalized a) (hne : bignumIsZero a ≠ true) (shift : ℕ) :
    Denotes (shiftLeftBy a shift) (a.toInt * 2 ^ shift) := by
  have hbits : shift % 32 ≤ 32 := by omega
  obtain ⟨hval, hdigits, -⟩ := Radix.shiftedDividend_spec (w := 32) hbits (digits_words a.limbs)
  have hlimbs : (if shift % 32 = 0 then words a.limbs ++ [0] else shiftLimbsLeft (shift % 32) 0 (words a.limbs)) =
      Radix.shiftedDividend 32 (shift % 32) (words a.limbs) := by
    rw [Radix.shiftedDividend]
    by_cases hzero : shift % 32 = 0
    · rw [if_pos hzero, if_neg (by omega)]
    · rw [if_neg hzero, if_pos (by omega), shiftLimbsLeft_eq hbits (Nat.two_pow_pos _) (digits_words _)]
  obtain ⟨hs, -⟩ := ha.toInt_eq_mul hne
  have hall : Digits limbRadix (List.replicate (shift / 32) 0 ++
      Radix.shiftedDividend 32 (shift % 32) (words a.limbs)) := by
    rw [Radix.digits_append]
    exact ⟨fun d hd => by rw [List.eq_of_mem_replicate hd]; decide, hdigits⟩
  have h := denotes_normalize hall hs
  rw [Radix.ofDigits_replicate_append] at h
  have hvalue : limbRadix ^ (shift / 32) *
      ofDigits limbRadix (Radix.shiftedDividend 32 (shift % 32) (words a.limbs)) =
      magnitude a.limbs * 2 ^ shift := by
    rw [← pow_shift shift, Nat.mul_comm (magnitude a.limbs), Nat.mul_assoc]
    exact congrArg _ hval
  rw [hvalue, Nat.cast_mul, ← mul_assoc, Nat.cast_pow, Nat.cast_two] at h
  rw [shiftLeftBy, hlimbs]
  exact h

/-- The limbs that are left after the shift. -/
lemma shiftedDown_spec {a : VmBignum} {shift : ℕ} (hlen : shift / 32 ≤ a.limbs.length) :
    Digits limbRadix (shiftedDown a (shift / 32) (shift % 32)) ∧
      ofDigits limbRadix (shiftedDown a (shift / 32) (shift % 32)) = magnitude a.limbs / 2 ^ shift := by
  have hdigits := (digits_words a.limbs).drop (shift / 32)
  obtain ⟨hval, hshifted, -⟩ := Radix.shiftedRemainder_spec (w := 32) (s := shift % 32) (by omega) hdigits
  obtain ⟨-, hdrop⟩ := Radix.ofDigits_take_drop one_lt_limbRadix (digits_words a.limbs)
    (by rwa [length_words] : shift / 32 ≤ (words a.limbs).length)
  have hdown : shiftedDown a (shift / 32) (shift % 32) =
      Radix.shiftedRemainder 32 (shift % 32) ((words a.limbs).drop (shift / 32)) := by
    rw [shiftedDown, Radix.shiftedRemainder]
    by_cases hzero : shift % 32 = 0
    · rw [if_pos hzero, if_neg (by omega)]
    · rw [if_neg hzero, if_pos (by omega)]
  rw [hdown]
  refine ⟨hshifted, ?_⟩
  rw [← pow_shift shift, ← Nat.div_div_eq_div_mul, magnitude, ← hdrop]
  exact hval

lemma any_ne_zero (limbs : List UInt32) : limbs.any (· != 0) = true ↔ magnitude limbs ≠ 0 := by
  induction limbs with
  | nil => simp
  | cons limb limbs ih =>
    have hsplit : magnitude (limb :: limbs) = limb.toNat + limbRadix * magnitude limbs := by
      rw [magnitude, words, List.map_cons, Nat.ofDigits_cons]
      rfl
    have hlimb : limb = 0 ↔ limb.toNat = 0 := by
      rw [← UInt32.toNat_inj]
      rfl
    rw [List.any_cons, Bool.or_eq_true, ih, bne_iff_ne, Ne, hlimb, hsplit]
    have hradix : limbRadix ≠ 0 := by decide
    simp only [ne_eq, Nat.add_eq_zero_iff, Nat.mul_eq_zero]
    tauto

/-- A bit is set among those shifted out when the shift leaves a remainder. -/
lemma anyBitSet_iff {a : VmBignum} {shift : ℕ} (hlen : shift / 32 ≤ a.limbs.length) :
    anyBitSet a (shift / 32) (shift % 32) = true ↔ magnitude a.limbs % 2 ^ shift ≠ 0 := by
  obtain ⟨htake, hdrop⟩ := Radix.ofDigits_take_drop one_lt_limbRadix (digits_words a.limbs)
    (by rwa [length_words] : shift / 32 ≤ (words a.limbs).length)
  have hlow : magnitude (a.limbs.take (shift / 32)) = magnitude a.limbs % limbRadix ^ (shift / 32) := by
    rw [magnitude, magnitude, ← htake, words, words, List.map_take]
  -- the bits below the shift in the limb that is cut
  have hcut : (magnitude a.limbs / limbRadix ^ (shift / 32)) % 2 ^ (shift % 32) =
      (words a.limbs).getD (shift / 32) 0 % 2 ^ (shift % 32) := by
    have hhead : ((words a.limbs).drop (shift / 32)).headD 0 = (words a.limbs).getD (shift / 32) 0 := by
      rw [List.getD_eq_getElem?_getD, List.headD_eq_head?_getD, List.head?_drop]
    have hradix : limbRadix = 2 ^ (shift % 32) * 2 ^ (32 - shift % 32) := by
      rw [Radix.two_pow_split (by omega)]
      rfl
    rw [magnitude, ← hdrop, Radix.ofDigits_headD, hhead, hradix, Nat.mul_assoc, Nat.add_mul_mod_self_left]
  have hmask : (words a.limbs).getD (shift / 32) 0 &&& ((1 <<< (shift % 32)) - 1) =
      (words a.limbs).getD (shift / 32) 0 % 2 ^ (shift % 32) := by
    rw [Nat.one_shiftLeft, Nat.and_two_pow_sub_one_eq_mod]
  have hbits : shift % 32 = 0 → (words a.limbs).getD (shift / 32) 0 % 2 ^ (shift % 32) = 0 := by
    intro hzero
    rw [hzero, pow_zero, Nat.mod_one]
  rw [anyBitSet, Bool.or_eq_true, any_ne_zero, hlow, hmask, Bool.and_eq_true, decide_eq_true_eq,
    bne_iff_ne, ← pow_shift shift, Nat.mod_mul, hcut]
  have hpow : limbRadix ^ (shift / 32) ≠ 0 := Nat.ne_of_gt (Nat.pow_pos (by decide))
  generalize (words a.limbs).getD (shift / 32) 0 % 2 ^ (shift % 32) = cut at *
  rw [Ne, Ne, Ne, Nat.add_eq_zero_iff, Nat.mul_eq_zero]
  constructor
  · rintro (hset | ⟨-, hset⟩)
    · exact fun h => hset h.1
    · exact fun h => hset (h.2.resolve_left hpow)
  · intro h
    by_cases hset : magnitude a.limbs % limbRadix ^ (shift / 32) = 0
    · have hcut_ne : cut ≠ 0 := fun hzero => h ⟨hset, .inr hzero⟩
      exact .inr ⟨Nat.pos_of_ne_zero fun hzero => hcut_ne (hbits hzero), hcut_ne⟩
    · exact .inl hset

lemma shiftRightBy_spec {a : VmBignum} (ha : Normalized a) (hne : bignumIsZero a ≠ true) (shift : ℕ) :
    Denotes (shiftRightBy a shift) (a.toInt / (2 ^ shift : ℕ)) := by
  have hpow : 0 < 2 ^ shift := Nat.two_pow_pos shift
  obtain ⟨hpos, hcases⟩ := ha.sign_cases hne
  have hneg : a.sign = -1 → a.toInt / (2 ^ shift : ℕ) = if magnitude a.limbs % 2 ^ shift = 0
      then -((magnitude a.limbs / 2 ^ shift : ℕ) : ℤ) else Int.negSucc (magnitude a.limbs / 2 ^ shift) := by
    intro hs
    rw [VmBignum.toInt, hs, SignType.coe_neg_one, neg_one_mul]
    exact TwosComplement.neg_ediv hpow
  rw [shiftRightBy]
  simp only
  by_cases hlen : a.limbs.length ≤ shift / 32
  · -- the number is below the power of two
    have hlt : magnitude a.limbs < 2 ^ shift := by
      calc magnitude a.limbs < limbRadix ^ (words a.limbs).length :=
            Radix.ofDigits_lt one_lt_limbRadix (digits_words _)
        _ ≤ limbRadix ^ (shift / 32) := Nat.pow_le_pow_right (by decide) (by rwa [length_words])
        _ ≤ limbRadix ^ (shift / 32) * 2 ^ (shift % 32) := Nat.le_mul_of_pos_right _ (Nat.two_pow_pos _)
        _ = 2 ^ shift := pow_shift shift
    rw [if_pos hlen]
    obtain ⟨hs, hval⟩ | ⟨hs, -⟩ := hcases
    · rw [hs, if_neg (by decide), hval, ← Int.natCast_ediv, Nat.div_eq_of_lt hlt]
      exact fromInt64_spec 0
    · rw [hneg hs, hs, if_pos (by decide), Nat.mod_eq_of_lt hlt, if_neg (by omega), Nat.div_eq_of_lt hlt]
      exact fromInt64_spec (-1)
  · rw [if_neg hlen]
    obtain ⟨hdigits, hdown⟩ := shiftedDown_spec (by omega : shift / 32 ≤ a.limbs.length)
    have hset := anyBitSet_iff (by omega : shift / 32 ≤ a.limbs.length)
    obtain ⟨hsign, -⟩ := ha.toInt_eq_mul hne
    have hr := denotes_normalize hdigits hsign
    rw [hdown] at hr
    obtain ⟨hs, hval⟩ | ⟨hs, -⟩ := hcases
    · rw [hs] at hr ⊢
      rw [SignType.coe_one, one_mul] at hr
      rw [decide_eq_false (by decide), Bool.false_and, if_neg Bool.false_ne_true, hval, ← Int.natCast_ediv]
      exact hr
    · rw [hneg hs]
      rw [hs] at hr ⊢
      rw [SignType.coe_neg_one, neg_one_mul] at hr
      by_cases hrem : magnitude a.limbs % 2 ^ shift = 0
      · have hfalse : anyBitSet a (shift / 32) (shift % 32) = false := by
          rw [← Bool.not_eq_true, hset]
          exact not_not.2 hrem
        rw [hfalse, Bool.and_false, if_neg Bool.false_ne_true, if_pos hrem]
        exact hr
      · have habs := absVal_spec hr.normalized
        rw [hr.toInt_eq, abs_neg, abs_of_nonneg (by omega)] at habs
        rw [hset.2 hrem, if_pos (by decide), if_neg hrem]
        exact negSucc_spec habs

/-! ## The operations together -/

open TwosComplement (arithmeticShift)

/-- Whether the shifts can take the amount: `INT_MIN` has no opposite, but a zero is returned before its
sign would be changed. -/
def ShiftTaken (a : VmBignum) (shift : Int32) : Prop := a.toInt = 0 ∨ shift ≠ Int32.minValue

lemma int32_neg_iff (n : Int32) : n < 0 ↔ n.toInt < 0 := Int32.lt_iff_toInt_lt

/-- The cases of both shifts: `down` is for negative amounts and `up` for the others. -/
lemma shiftBy_iff {a down up : VmBignum} (ha : Normalized a) (shift : Int32) {amount : ℤ}
    (hdown : bignumIsZero a ≠ true → shift.toInt < 0 → Denotes down (arithmeticShift a.toInt amount))
    (hup : bignumIsZero a ≠ true → 0 < shift.toInt → Denotes up (arithmeticShift a.toInt amount))
    (hamount : shift = 0 → amount = 0) :
    (∃ r, (if bignumIsZero a || shift == 0 then some a
        else if shift < 0 then if shift = Int32.minValue then none else some down
        else some up) = some r ∧ Denotes r (arithmeticShift a.toInt amount)) ↔ ShiftTaken a shift := by
  rw [ShiftTaken]
  by_cases hzero : bignumIsZero a = true
  · have hval := ha.isZero_iff.1 hzero
    rw [hzero, Bool.true_or, if_pos rfl, hval, TwosComplement.arithmeticShift_zero_left]
    exact ⟨fun _ => .inl rfl, fun _ => ⟨a, rfl, ha, hval⟩⟩
  have hne : a.toInt ≠ 0 := by rwa [Ne, ← ha.isZero_iff]
  by_cases hshift : shift = 0
  · rw [hamount hshift, hshift, beq_self_eq_true, Bool.or_true, if_pos rfl]
    refine ⟨fun _ => .inr (by decide), fun _ => ⟨a, rfl, ha, ?_⟩⟩
    rw [TwosComplement.arithmeticShift_pos le_rfl, Int.natAbs_zero, pow_zero, mul_one]
  rw [if_neg (by simp [hzero, hshift])]
  by_cases hneg : shift < 0
  · rw [if_pos hneg]
    by_cases hmin : shift = Int32.minValue
    · rw [if_pos hmin]
      constructor
      · rintro ⟨r, hr, -⟩
        cases hr
      · rintro (hzero_a | hmin_ne)
        · exact absurd hzero_a hne
        · exact absurd hmin hmin_ne
    · rw [if_neg hmin]
      exact ⟨fun _ => .inr hmin, fun _ => ⟨_, rfl, hdown hzero ((int32_neg_iff shift).1 hneg)⟩⟩
  · have hamount_ne : shift.toInt ≠ 0 := fun h => hshift (Int32.toInt_inj.1 h)
    rw [if_neg hneg]
    rw [int32_neg_iff] at hneg
    refine ⟨fun _ => .inr ?_, fun _ => ⟨_, rfl, hup hzero (by omega)⟩⟩
    rintro rfl
    exact hneg (by decide)

lemma shiftLeft_iff {a : VmBignum} (ha : Normalized a) (shift : Int32) :
    (∃ r, bignumShiftLeft a shift = some r ∧ Denotes r (arithmeticShift a.toInt shift.toInt)) ↔
      ShiftTaken a shift := by
  refine shiftBy_iff ha shift (fun hzero hneg => ?_) (fun hzero hpos => ?_) (fun h => by rw [h]; rfl)
  · rw [TwosComplement.arithmeticShift_of_neg hneg]
    exact shiftRightBy_spec ha hzero _
  · rw [TwosComplement.arithmeticShift_pos hpos.le]
    exact shiftLeftBy_spec ha hzero _

lemma shiftRight_iff {a : VmBignum} (ha : Normalized a) (shift : Int32) :
    (∃ r, bignumShiftRight a shift = some r ∧ Denotes r (arithmeticShift a.toInt (-shift.toInt))) ↔
      ShiftTaken a shift := by
  refine shiftBy_iff ha shift (fun hzero hneg => ?_) (fun hzero hpos => ?_) (fun h => by rw [h]; rfl)
  · rw [TwosComplement.arithmeticShift_pos (by omega), Int.natAbs_neg]
    exact shiftLeftBy_spec ha hzero _
  · rw [TwosComplement.arithmeticShift_of_neg (by omega), Int.natAbs_neg]
    exact shiftRightBy_spec ha hzero _

/-- What the bitwise operations and the shifts return. -/
structure BitwiseExact (a b : VmBignum) (shift : Int32) : Prop where
  and : Denotes (bignumBitwiseAnd a b) (Int.land a.toInt b.toInt)
  or : Denotes (bignumBitwiseOr a b) (Int.lor a.toInt b.toInt)
  xor : Denotes (bignumBitwiseXor a b) (Int.xor a.toInt b.toInt)
  not : Denotes (bignumBitwiseNot a) (Int.lnot a.toInt)
  shiftLeft : ∃ r, bignumShiftLeft a shift = some r ∧ Denotes r (arithmeticShift a.toInt shift.toInt)
  shiftRight : ∃ r, bignumShiftRight a shift = some r ∧ Denotes r (arithmeticShift a.toInt (-shift.toInt))

theorem bitwiseExact_iff {a b : VmBignum} (ha : Normalized a) (hb : Normalized b) (shift : Int32) :
    BitwiseExact a b shift ↔ ShiftTaken a shift := by
  constructor
  · exact fun h => (shiftLeft_iff ha shift).1 h.shiftLeft
  · exact fun h => ⟨bitwiseAnd_spec ha hb, bitwiseOr_spec ha hb, bitwiseXor_spec ha hb, bitwiseNot_spec ha,
      (shiftLeft_iff ha shift).2 h, (shiftRight_iff ha shift).2 h⟩

/-- `-2^32 - 1` and `6`, shifted by 33. -/
theorem bitwiseExact_iff_two_limbs : BitwiseExact ⟨-1, [1, 1]⟩ ⟨1, [6]⟩ 33 :=
  (bitwiseExact_iff ⟨by decide, by decide⟩ ⟨by decide, by decide⟩ 33).2 (.inr (by decide))

/-- One cannot be shifted by `INT_MIN`. -/
theorem not_bitwiseExact_minValue : ¬ BitwiseExact ⟨1, [1]⟩ ⟨1, [1]⟩ Int32.minValue := by
  rintro ⟨-, -, -, -, ⟨r, hr, -⟩, -⟩
  have hnone : bignumShiftLeft ⟨1, [1]⟩ Int32.minValue = none := by decide
  rw [hnone] at hr
  cases hr

end Vm.Bignum
