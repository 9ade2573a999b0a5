import Eshkol.Exact.ShiftTheorems

/-!
# Bitwise operations on bignums agree with the integers where they fit

The two's complement limbs of a number are its residue, and the limbs of a result are read back as a signed
number of as many limbs. The buffer holds 127 of them: a result with more is cut.
-/

namespace Exact

open Hash (Bignum)
open Radix (Digits)
open Nat (ofDigits)

lemma limbsOf_words (limbs : List UInt64) : limbsOf (words limbs) = limbs := by
  rw [limbsOf, words, List.map_map]
  exact (List.map_congr_left fun limb _ => UInt64.ofNat_toNat).trans (List.map_id _)

lemma testBit_magnitude (limbs : List UInt64) (i : ℕ) :
    (magnitude limbs).testBit i = ((limbs.getD (i / 64) 0).toNat).testBit (i % 64) := by
  have h := @Radix.testBit_ofDigits 64 (words limbs) (by decide) (digits_words limbs) i
  have hget : (words limbs).getD (i / 64) 0 = (limbs.getD (i / 64) 0).toNat := by
    rw [words, List.getD_eq_getElem?_getD, List.getD_eq_getElem?_getD, List.getElem?_map]
    cases limbs[i / 64]? <;> rfl
  rw [← hget]
  exact h

/-! ## Negation -/

@[simp] lemma length_negateLimbs (carry : ℕ) (limbs : List UInt64) :
    (negateLimbs carry limbs).length = limbs.length := by
  induction limbs generalizing carry with
  | nil => rfl
  | cons limb limbs ih => simp [negateLimbs, ih]

lemma length_signExtended (a : Bignum) (n : ℕ) : (signExtended a n).length = n := by
  rw [signExtended, List.length_mapIdx, toTwosComplement]
  split <;> simp

/-- Flipping all bits and adding one negates modulo the power of the radix. -/
lemma magnitude_negateLimbs {carry : ℕ} (hc : carry ≤ 1) (limbs : List UInt64) :
    magnitude (negateLimbs carry limbs) =
      (radix ^ limbs.length - 1 - magnitude limbs + carry) % radix ^ limbs.length := by
  induction limbs generalizing carry with
  | nil => simp [negateLimbs, magnitude, words, Nat.mod_one]
  | cons limb limbs ih =>
    have hsplit : ∀ (x : UInt64) (xs : List UInt64), magnitude (x :: xs) = x.toNat + radix * magnitude xs :=
      fun x xs => Nat.ofDigits_cons
    have hlimb : limb.toNat < radix := limb.toNat_lt
    have hmag := magnitude_lt limbs
    have hnot : (~~~limb).toNat = radix - 1 - limb.toNat := UInt64.toNat_not limb
    have hcarry : (radix - 1 - limb.toNat + carry) / radix ≤ 1 := by
      rw [Nat.div_le_iff_le_mul_add_pred (by decide)]
      omega
    rw [negateLimbs]
    simp only [hnot]
    rw [hsplit, hsplit, ih hcarry, List.length_cons, pow_succ', UInt64.toNat_ofNat']
    have hsum := Nat.mod_add_div (radix - 1 - limb.toNat + carry) radix
    have hlow : (radix - 1 - limb.toNat + carry) % 2 ^ 64 = (radix - 1 - limb.toNat + carry) % radix := rfl
    rw [hlow]
    have hpow : 0 < radix ^ limbs.length := Nat.pow_pos (by decide)
    generalize hhigh : (radix - 1 - limb.toNat + carry) / radix = high at *
    generalize hrest : (radix - 1 - limb.toNat + carry) % radix = low at *
    generalize magnitude limbs = m at *
    generalize radix ^ limbs.length = P at *
    have hlow_lt : low < radix := hrest ▸ Nat.mod_lt _ (by decide)
    -- the whole as a number of the limb and the rest
    have hwhole : radix * P - 1 - (limb.toNat + radix * m) + carry = low + radix * (P - 1 - m + high) := by
      have h1 : radix * (m + 1) ≤ radix * P := Nat.mul_le_mul_left _ hmag
      have h2 : radix * (P - 1 - m + high) = radix * P - radix * (m + 1) + radix * high := by
        rw [Nat.mul_add, Nat.sub_sub, Nat.mul_sub, Nat.add_comm 1 m]
      rw [h2]
      rw [Nat.mul_add, Nat.mul_one] at h1 ⊢
      omega
    rw [hwhole, Nat.mod_mul, Nat.add_mul_mod_self_left, Nat.mod_eq_of_lt hlow_lt,
      Nat.add_mul_div_left _ _ (by decide), Nat.div_eq_of_lt hlow_lt, Nat.zero_add]

/-- Negating the limbs of a number that is not zero. -/
lemma magnitude_negate (limbs : List UInt64) :
    magnitude (negateLimbs 1 limbs) = (radix ^ limbs.length - magnitude limbs) % radix ^ limbs.length := by
  have hlt := magnitude_lt limbs
  rw [magnitude_negateLimbs le_rfl]
  congr 1
  omega

/-! ## The limbs of an operand -/

lemma pow_limbs (n : ℕ) : radix ^ n = 2 ^ (64 * n) := by rw [radix_eq, ← pow_mul]

lemma magnitude_range (limbs : List UInt64) (n : ℕ) :
    magnitude ((List.range n).map (limbs.getD · 0)) = magnitude limbs % 2 ^ (64 * n) := by
  apply Nat.eq_of_testBit_eq
  intro i
  rw [testBit_magnitude, Nat.testBit_mod_two_pow, testBit_magnitude]
  by_cases hi : i < 64 * n
  · have hlimb : i / 64 < n := by omega
    rw [decide_eq_true hi, Bool.true_and, List.getD_eq_getElem?_getD, List.getElem?_map,
      List.getElem?_range hlimb]
    rfl
  · rw [decide_eq_false hi, Bool.false_and, List.getD_eq_default _ _ (by simp; omega)]
    exact Nat.zero_testBit _

/-- The two's complement limbs are those of the residue. -/
lemma magnitude_toTwosComplement (a : Bignum) (n : ℕ) :
    magnitude (toTwosComplement a n) = (toInt a % (2 ^ (64 * n) : ℕ)).toNat := by
  rw [toTwosComplement, toInt]
  by_cases hneg : a.negative = true
  · rw [if_pos hneg, if_pos hneg, magnitude_negate, magnitude_range, List.length_map, List.length_range,
      pow_limbs, TwosComplement.toNat_neg_emod _ (Nat.two_pow_pos _)]
  · rw [if_neg hneg, if_neg hneg, magnitude_range, TwosComplement.toNat_emod_natCast]

lemma toInt_range (a : Bignum) :
    -(2 ^ (64 * a.limbs.length) : ℕ) ≤ toInt a ∧ toInt a < (2 ^ (64 * a.limbs.length) : ℕ) := by
  have hlt := magnitude_lt a.limbs
  rw [pow_limbs] at hlt
  have habs := natAbs_toInt a
  omega

/-- The limbs of a number that is extended by its sign have its bits. -/
lemma testBit_signExtended {a : Bignum} (ha : Normalized a) (n i : ℕ) :
    (magnitude (signExtended a n)).testBit i = (decide (i < 64 * n) && (toInt a).testBit i) := by
  rw [testBit_magnitude]
  by_cases hi : i < 64 * n
  · have hlimb : i / 64 < (toTwosComplement a n).length := by
      rw [toTwosComplement]
      split <;> simp <;> omega
    rw [decide_eq_true hi, Bool.true_and, signExtended, List.getD_eq_getElem?_getD, List.getElem?_mapIdx,
      List.getElem?_eq_getElem hlimb, Option.map_some, Option.getD_some]
    by_cases hown : i / 64 < a.limbs.length
    · -- a limb of the number
      have hbit := testBit_magnitude (toTwosComplement a n) i
      rw [magnitude_toTwosComplement, TwosComplement.testBit_emod, decide_eq_true hi, Bool.true_and,
        List.getD_eq_getElem _ _ hlimb] at hbit
      rw [if_pos hown, hbit]
    · rw [if_neg hown, TwosComplement.testBit_of_range (toInt_range a) (by omega : 64 * a.limbs.length ≤ i),
        ← decide_eq_decide.2 ha.negative_iff]
      by_cases hneg : a.negative = true
      · rw [if_pos hneg, decide_eq_true hneg]
        have hones : (0xFFFFFFFFFFFFFFFF : UInt64).toNat = 2 ^ 64 - 1 := rfl
        rw [hones, Nat.testBit_two_pow_sub_one]
        exact decide_eq_true (by omega)
      · rw [if_neg hneg, decide_eq_false hneg]
        exact Nat.zero_testBit _
  · rw [decide_eq_false hi, Bool.false_and, List.getD_eq_default _ _ (by rw [length_signExtended]; omega)]
    exact Nat.zero_testBit _

/-! ## The limbs of the result -/

/-- From place 8127 on, the top bit of 127 limbs, the combined bits all are the same. -/
def TopBitsAgree (f : Bool → Bool → Bool) (x y : ℤ) : Prop :=
  ∀ i, 8127 ≤ i → f (x.testBit i) (y.testBit i) = f (x.testBit 8127) (y.testBit 8127)

section
variable {op : UInt64 → UInt64 → UInt64} {op' : ℕ → ℕ → ℕ} {f : Bool → Bool → Bool} {g : ℤ → ℤ → ℤ}

/-- Limbs combined one by one are those of the residue of the combined integers. -/
lemma magnitude_zipWith (h : ∀ x y, (op x y).toNat = op' x.toNat y.toNat) (hop : Radix.Bitwise 64 op' f)
    (hg : ∀ x y i, (g x y).testBit i = f (x.testBit i) (y.testBit i)) {a b : Bignum} (ha : Normalized a)
    (hb : Normalized b) (n : ℕ) :
    magnitude (List.zipWith op (signExtended a n) (signExtended b n)) =
      (g (toInt a) (toInt b) % (2 ^ (64 * n) : ℕ)).toNat := by
  have hwords : words (List.zipWith op (signExtended a n) (signExtended b n)) =
      Radix.zipPad op' 0 n (words (signExtended a n)) (words (signExtended b n)) := by
    rw [Radix.zipWith_eq_zipPad op 0 (length_signExtended a n) (length_signExtended b n)]
    exact Radix.map_zipPad h 0 n _ _
  apply Nat.eq_of_testBit_eq
  intro i
  have hbit := Radix.testBit_zipPad hop n (digits_words (signExtended a n)) (digits_words (signExtended b n)) i
  rw [magnitude, hwords, TwosComplement.testBit_emod, hg]
  refine hbit.trans ?_
  by_cases hi : i < 64 * n
  · have ha_bit := testBit_signExtended ha n i
    have hb_bit := testBit_signExtended hb n i
    rw [decide_eq_true hi, Bool.true_and] at ha_bit hb_bit ⊢
    rw [← ha_bit, ← hb_bit]
    rfl
  · rw [decide_eq_false hi, Bool.false_and, Bool.false_and]

/-- The sign is read off the top bit. -/
lemma topBit (limb : UInt64) : (limb >>> 63 != 0) = limb.toNat.testBit 63 := by
  have hshift : (limb >>> 63).toNat = limb.toNat / 2 ^ 63 := by
    rw [UInt64.toNat_shiftRight, Nat.shiftRight_eq_div_pow]
    rfl
  have hlt : limb.toNat / 2 ^ 63 < 2 := Nat.div_lt_of_lt_mul limb.toNat_lt
  have hzero : limb >>> 63 = 0 ↔ limb.toNat / 2 ^ 63 = 0 := by
    rw [← hshift, ← UInt64.toNat_inj]
    rfl
  rw [Nat.testBit_eq_decide_div_mod_eq, Bool.eq_iff_iff, bne_iff_ne, Ne, hzero, decide_eq_true_eq]
  omega

lemma fromTwosComplement_spec {tc : List UInt64} {n : ℕ} {x : ℤ} (hlen : tc.length = n + 1)
    (hval : magnitude tc = (x % (2 ^ (64 * (n + 1)) : ℕ)).toNat) :
    Denotes (fromTwosComplement tc) (x.bmod (2 ^ (64 * (n + 1)))) := by
  have htop : (tc.getLastD 0 >>> 63 != 0) = x.testBit (64 * n + 63) := by
    have hbit := testBit_magnitude tc (64 * n + 63)
    rw [hval, TwosComplement.testBit_emod, decide_eq_true (by omega), Bool.true_and] at hbit
    have hlast : tc.getLastD 0 = tc.getD n 0 := by
      rw [List.getLastD_eq_getLast?, List.getLast?_eq_getElem?, List.getD_eq_getElem?_getD, hlen]
      rfl
    have hdiv : (64 * n + 63) / 64 = n := by omega
    have hmod : (64 * n + 63) % 64 = 63 := by omega
    rw [topBit, hlast, hbit, hdiv, hmod]
  have hlt := magnitude_lt tc
  rw [hlen, pow_limbs] at hlt
  have hbmod := TwosComplement.bmod_two_pow x (64 * n + 63)
  rw [show 64 * n + 63 + 1 = 64 * (n + 1) by omega, ← htop, ← hval] at hbmod
  have htrim : ∀ (negative : Bool) (limbs : List UInt64), limbs ≠ [] →
      (magnitude limbs = 0 → negative = false) →
      Denotes ⟨negative, trimLimbs limbs⟩ (if negative then -(magnitude limbs : ℤ) else magnitude limbs) := by
    intro negative limbs hne hzero
    have h := denotes_trim negative (digits_words limbs)
      (List.ne_nil_of_length_pos (by rw [length_words]; exact List.length_pos_iff.2 hne)) rfl hzero
    rwa [limbsOf_words] at h
  have hne : tc ≠ [] := List.ne_nil_of_length_pos (by omega)
  rw [hbmod, fromTwosComplement]
  by_cases hneg : (tc.getLastD 0 >>> 63 != 0) = true
  · have hmag : magnitude (negateLimbs 1 tc) = 2 ^ (64 * (n + 1)) - magnitude tc := by
      have hpos : 0 < magnitude tc := by
        refine Nat.pos_of_ne_zero fun hzero => ?_
        rw [hval] at hzero
        have hbit := TwosComplement.testBit_emod x (64 * (n + 1)) (64 * n + 63)
        rw [hzero, ← htop, hneg, decide_eq_true (by omega)] at hbit
        exact absurd hbit (by simp)
      rw [magnitude_negate, hlen, pow_limbs, Nat.mod_eq_of_lt (by omega)]
    have hnegate : negateLimbs 1 tc ≠ [] := by
      cases tc with
      | nil => exact absurd rfl hne
      | cons limb limbs => exact List.cons_ne_nil _ _
    have h := htrim true (negateLimbs 1 tc) hnegate (fun hzero => by omega)
    rw [hmag, if_pos rfl] at h
    simp only [hneg, if_true]
    exact h
  · have h := htrim false tc hne (fun _ => rfl)
    rw [if_neg Bool.false_ne_true] at h
    simp only [hneg, if_neg Bool.false_ne_true]
    exact h

/-- Operands of at most 126 limbs have nothing but their signs from there on. -/
lemma topBitsAgree_of_length {a b : Bignum} (f : Bool → Bool → Bool) (ha : a.limbs.length ≤ 126)
    (hb : b.limbs.length ≤ 126) : TopBitsAgree f (toInt a) (toInt b) := by
  have hsign : ∀ c : Bignum, c.limbs.length ≤ 126 → ∀ i, 8127 ≤ i →
      (toInt c).testBit i = decide (toInt c < 0) := fun c hc i hi =>
    TwosComplement.testBit_of_range (toInt_range c) (by omega)
  intro i hi
  rw [hsign a ha i hi, hsign b hb i hi, hsign a ha _ le_rfl, hsign b hb _ le_rfl]

/-- The result is the combination of the integers when that fits into the limbs of the buffer. -/
lemma bignumBitwise_iff (h : ∀ x y, (op x y).toNat = op' x.toNat y.toNat) (hop : Radix.Bitwise 64 op' f)
    (hg : ∀ x y i, (g x y).testBit i = f (x.testBit i) (y.testBit i)) {a b : Bignum} (ha : Normalized a)
    (hb : Normalized b) :
    Denotes (bignumBitwise op a b) (g (toInt a) (toInt b)) ↔ TopBitsAgree f (toInt a) (toInt b) := by
  have hspec : ∀ n, Denotes (fromTwosComplement (List.zipWith op (signExtended a (n + 1)) (signExtended b (n + 1))))
      ((g (toInt a) (toInt b)).bmod (2 ^ (64 * (n + 1)))) := fun n =>
    fromTwosComplement_spec (by rw [List.length_zipWith, length_signExtended, length_signExtended, Nat.min_self])
      (magnitude_zipWith h hop hg ha hb (n + 1))
  have hfits : ∀ n, (g (toInt a) (toInt b)).bmod (2 ^ (64 * (n + 1))) = g (toInt a) (toInt b) ↔
      ∀ i, 64 * n + 63 ≤ i → f ((toInt a).testBit i) ((toInt b).testBit i) =
        f ((toInt a).testBit (64 * n + 63)) ((toInt b).testBit (64 * n + 63)) := by
    intro n
    have hiff := TwosComplement.bmod_eq_self_iff (g (toInt a) (toInt b)) (64 * n + 63)
    simp only [hg] at hiff
    rw [← hiff, show 64 * n + 63 + 1 = 64 * (n + 1) by omega]
  rw [bignumBitwise]
  by_cases hclamped : 126 < max a.limbs.length b.limbs.length
  · have hn : min (max a.limbs.length b.limbs.length + 1) 127 = 126 + 1 := by omega
    simp only [hn]
    constructor
    · exact fun hdenotes => (hfits 126).1 ((hspec 126).toInt_eq.symm.trans hdenotes.toInt_eq)
    · intro hagree
      have hdenotes := hspec 126
      rwa [(hfits 126).2 hagree] at hdenotes
  · -- one limb more than the operands have takes the sign
    have hn : min (max a.limbs.length b.limbs.length + 1) 127 = max a.limbs.length b.limbs.length + 1 := by omega
    have hsign : ∀ c : Bignum, c.limbs.length ≤ max a.limbs.length b.limbs.length →
        ∀ i, 64 * max a.limbs.length b.limbs.length + 63 ≤ i → (toInt c).testBit i = decide (toInt c < 0) :=
      fun c hc i hi => TwosComplement.testBit_of_range (toInt_range c) (by omega)
    have hbmod := (hfits (max a.limbs.length b.limbs.length)).2 fun i hi => by
      rw [hsign a (Nat.le_max_left _ _) i hi, hsign b (Nat.le_max_right _ _) i hi,
        hsign a (Nat.le_max_left _ _) _ le_rfl, hsign b (Nat.le_max_right _ _) _ le_rfl]
    have hdenotes := hspec (max a.limbs.length b.limbs.length)
    rw [hbmod] at hdenotes
    simp only [hn]
    exact iff_of_true hdenotes (topBitsAgree_of_length f (by omega) (by omega))

end

/-! ## Complement -/

lemma bignumBitwiseNot_spec {a : Bignum} (ha : Normalized a) :
    Denotes (bignumBitwiseNot a) (Int.lnot (toInt a)) := by
  have hone := denotes_ofInt64 1
  have hone_val : (1 : Int64).toInt = 1 := rfl
  rw [TwosComplement.lnot_eq, bignumBitwiseNot]
  by_cases hneg : a.negative = true
  · have habs := denotes_neg ha
    have h := denotes_sub habs.normalized hone.normalized
    rw [habs.toInt_eq, hone.toInt_eq, hone_val] at h
    rw [if_pos hneg, show -(toInt a + 1) = -toInt a - 1 by omega]
    exact h
  · have hadd := denotes_add ha hone.normalized
    have h := denotes_neg hadd.normalized
    rw [hadd.toInt_eq, hone.toInt_eq, hone_val] at h
    rw [if_neg hneg]
    exact h

/-! ## The operations together -/

/-- The results are normalized, with the bits of the operands combined in their infinite representations. -/
structure BitwiseExact (a b : Bignum) : Prop where
  and : Denotes (bignumBitwiseAnd a b) (Int.land (toInt a) (toInt b))
  or : Denotes (bignumBitwiseOr a b) (Int.lor (toInt a) (toInt b))
  xor : Denotes (bignumBitwiseXor a b) (Int.xor (toInt a) (toInt b))
  not : Denotes (bignumBitwiseNot a) (Int.lnot (toInt a))

lemma bignumBitwiseAnd_iff {a b : Bignum} (ha : Normalized a) (hb : Normalized b) :
    Denotes (bignumBitwiseAnd a b) (Int.land (toInt a) (toInt b)) ↔ TopBitsAgree and (toInt a) (toInt b) :=
  bignumBitwise_iff (fun x y => UInt64.toNat_and x y) Radix.bitwise_and Int.testBit_land ha hb

lemma bignumBitwiseOr_iff {a b : Bignum} (ha : Normalized a) (hb : Normalized b) :
    Denotes (bignumBitwiseOr a b) (Int.lor (toInt a) (toInt b)) ↔ TopBitsAgree or (toInt a) (toInt b) :=
  bignumBitwise_iff (fun x y => UInt64.toNat_or x y) Radix.bitwise_or Int.testBit_lor ha hb

lemma bignumBitwiseXor_iff {a b : Bignum} (ha : Normalized a) (hb : Normalized b) :
    Denotes (bignumBitwiseXor a b) (Int.xor (toInt a) (toInt b)) ↔ TopBitsAgree xor (toInt a) (toInt b) :=
  bignumBitwise_iff (fun x y => UInt64.toNat_xor x y) Radix.bitwise_xor Int.testBit_lxor ha hb

theorem bitwise_fits_iff {a b : Bignum} (ha : Normalized a) (hb : Normalized b) :
    BitwiseExact a b ↔ TopBitsAgree and (toInt a) (toInt b) ∧ TopBitsAgree or (toInt a) (toInt b) ∧
      TopBitsAgree xor (toInt a) (toInt b) := by
  rw [← bignumBitwiseAnd_iff ha hb, ← bignumBitwiseOr_iff ha hb, ← bignumBitwiseXor_iff ha hb]
  exact ⟨fun h => ⟨h.and, h.or, h.xor⟩, fun ⟨hand, hor, hxor⟩ => ⟨hand, hor, hxor, bignumBitwiseNot_spec ha⟩⟩

/-- `-2^64 - 1` and `6`. -/
theorem bitwise_fits_iff_two_limbs : BitwiseExact ⟨true, [1, 1]⟩ ⟨false, [6]⟩ :=
  have hlen : ∀ f, TopBitsAgree f (toInt ⟨true, [1, 1]⟩) (toInt ⟨false, [6]⟩) := fun f =>
    topBitsAgree_of_length f (by decide) (by decide)
  (bitwise_fits_iff ⟨by decide, by decide, by decide⟩ ⟨by decide, by decide, by decide⟩).2
    ⟨hlen and, hlen or, hlen xor⟩

/-- The buffer of a nonnegative number that is too long for it holds its low limbs. -/
lemma signExtended_of_nonneg {limbs : List UInt64} {n : ℕ} (h : n ≤ limbs.length) :
    signExtended ⟨false, limbs⟩ n = limbs.take n := by
  apply List.ext_getElem?
  intro i
  by_cases hi : i < n
  · simp [signExtended, toTwosComplement, hi, show i < limbs.length by omega]
  · simp [signExtended, toTwosComplement, hi]

/-- The conjunction of `2^8128` with itself is zero. -/
theorem not_bitwiseExact_clamped :
    ¬ BitwiseExact ⟨false, List.replicate 127 0 ++ [1]⟩ ⟨false, List.replicate 127 0 ++ [1]⟩ := by
  intro h
  have hand := h.and.toInt_eq
  -- the top limb does not fit in the buffer
  have hbuffer : signExtended ⟨false, List.replicate 127 0 ++ [1]⟩ 127 = List.replicate 127 0 := by
    rw [signExtended_of_nonneg (by simp)]
    simp
  have hzero : bignumBitwiseAnd ⟨false, List.replicate 127 0 ++ [1]⟩ ⟨false, List.replicate 127 0 ++ [1]⟩ =
      ⟨false, [0]⟩ := by
    rw [bignumBitwiseAnd, bignumBitwise]
    simp only [List.length_append, List.length_replicate, List.length_cons, List.length_nil]
    show fromTwosComplement (List.zipWith _ (signExtended _ 127) (signExtended _ 127)) = _
    rw [hbuffer, List.zipWith_replicate']
    decide +kernel
  rw [hzero] at hand
  exact absurd hand (by decide +kernel)

end Exact
