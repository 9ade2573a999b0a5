import Eshkol.Vm.Bignum

/-!
# Bignums of the virtual machine are integers

A normalized bignum has no leading zero limb, and the sign 0 just when it has no limbs. The operations on
normalized bignums return normalized bignums of the right value.
-/

namespace Vm.Bignum

open Radix (Digits)
open Nat (ofDigits)

lemma limbRadix_eq : limbRadix = 2 ^ 32 := rfl

lemma one_lt_limbRadix : 1 < limbRadix := by decide

/-! ## Values -/

/-- The number that the limbs stand for. -/
def magnitude (limbs : List UInt32) : ℕ := ofDigits limbRadix (words limbs)

/-- The value of a bignum. -/
def VmBignum.toInt (b : VmBignum) : ℤ := b.sign * magnitude b.limbs

/-- No leading zero limb. -/
def Trimmed (limbs : List UInt32) : Prop := limbs.getLast? ≠ some 0

instance (limbs : List UInt32) : Decidable (Trimmed limbs) :=
  inferInstanceAs (Decidable (limbs.getLast? ≠ some 0))

structure Normalized (b : VmBignum) : Prop where
  trimmed : Trimmed b.limbs
  sign_iff : b.sign = 0 ↔ b.limbs = []

/-- A normalized bignum of value `x`. -/
structure Denotes (b : VmBignum) (x : ℤ) : Prop where
  normalized : Normalized b
  toInt_eq : b.toInt = x

lemma digits_words (limbs : List UInt32) : Digits limbRadix (words limbs) := by
  intro d hd
  obtain ⟨limb, -, rfl⟩ := List.mem_map.1 hd
  exact limb.toNat_lt

lemma words_limbsOf {l : List ℕ} (h : Digits limbRadix l) : words (limbsOf l) = l := by
  rw [words, limbsOf, List.map_map]
  refine Eq.trans (List.map_congr_left fun d hd => ?_) (List.map_id l)
  exact UInt32.toNat_ofNat_of_lt' (h d hd)

@[simp] lemma length_words (limbs : List UInt32) : (words limbs).length = limbs.length :=
  List.length_map _

@[simp] lemma magnitude_nil : magnitude [] = 0 := rfl

@[simp] lemma magnitude_singleton (limb : UInt32) : magnitude [limb] = limb.toNat := by
  simp [magnitude, words]

lemma words_getLast {limbs : List UInt32} (h : Trimmed limbs) : (words limbs).getLast? ≠ some 0 := by
  rw [words, List.getLast?_map]
  intro hzero
  obtain ⟨limb, hlimb, hval⟩ := Option.map_eq_some_iff.1 hzero
  have hlimb_zero : limb = 0 := UInt32.toNat_inj.1 hval
  exact h (by rw [hlimb, hlimb_zero])

/-- Limbs without a leading zero are determined by their number. -/
lemma Trimmed.eq_of_magnitude {limbs limbs' : List UInt32} (h : Trimmed limbs) (h' : Trimmed limbs')
    (heq : magnitude limbs = magnitude limbs') : limbs = limbs' := by
  have hlast : ∀ l : List UInt32, Trimmed l → ∀ hne : words l ≠ [], (words l).getLast hne ≠ 0 := by
    intro l hl hne hzero
    exact words_getLast hl (by rw [List.getLast?_eq_getLast_of_ne_nil hne, hzero])
  have hwords : words limbs = words limbs' := by
    rw [← Nat.digits_ofDigits limbRadix one_lt_limbRadix (words limbs) (digits_words limbs) (hlast limbs h),
      ← Nat.digits_ofDigits limbRadix one_lt_limbRadix (words limbs') (digits_words limbs')
        (hlast limbs' h')]
    exact congrArg _ heq
  exact List.map_injective_iff.2 (fun _ _ => UInt32.toNat_inj.1) hwords

lemma Trimmed.magnitude_eq_zero {limbs : List UInt32} (h : Trimmed limbs) :
    magnitude limbs = 0 ↔ limbs = [] :=
  ⟨fun hzero => @Trimmed.eq_of_magnitude limbs [] h (by simp [Trimmed]) hzero, fun hnil => by rw [hnil]; rfl⟩

lemma normalize_spec (sign : SignType) {l : List ℕ} (hl : Digits limbRadix l) :
    Trimmed (bignumNormalize ⟨sign, limbsOf l⟩).limbs ∧
      magnitude (bignumNormalize ⟨sign, limbsOf l⟩).limbs = ofDigits limbRadix l := by
  constructor
  · show ((limbsOf l).rdropWhile (· == 0)).getLast? ≠ some 0
    by_cases hempty : (limbsOf l).rdropWhile (· == 0) = []
    · simp [hempty]
    · have hlast := List.rdropWhile_last_not (· == 0) (limbsOf l) hempty
      rw [List.getLast?_eq_getLast_of_ne_nil hempty]
      simpa using hlast
  · show magnitude ((limbsOf l).rdropWhile (· == 0)) = _
    have hzero : (fun limb : UInt32 => limb == 0) = (fun d : ℕ => d == 0) ∘ UInt32.toNat := by
      funext limb
      rw [Bool.eq_iff_iff]
      simp [← UInt32.toNat_inj]
    rw [magnitude, words, hzero, ← Radix.map_rdropWhile, Radix.ofDigits_rdropWhile]
    exact congrArg _ (words_limbsOf hl)

/-- A number with a sign is normalized when its limbs are trimmed and not zero. -/
lemma denotes_of_trimmed {limbs : List UInt32} (h : Trimmed limbs) (sign : SignType) (hsign : sign ≠ 0)
    (hpos : magnitude limbs ≠ 0) : Denotes ⟨sign, limbs⟩ (sign * magnitude limbs) := by
  refine ⟨⟨h, ?_⟩, rfl⟩
  have hne : limbs ≠ [] := fun hnil => hpos (by rw [hnil]; rfl)
  exact ⟨fun hzero => absurd hzero hsign, fun hnil => absurd hnil hne⟩

lemma denotes_zero : Denotes ⟨0, []⟩ 0 := ⟨⟨by simp [Trimmed], by simp⟩, by simp [VmBignum.toInt]⟩

/-- Normalizing makes a number of digits with the sign normalized. -/
lemma denotes_normalize {sign : SignType} {l : List ℕ} (hl : Digits limbRadix l) (hsign : sign ≠ 0) :
    Denotes (bignumNormalize ⟨sign, limbsOf l⟩) (sign * ofDigits limbRadix l) := by
  obtain ⟨htrimmed, hmag⟩ := normalize_spec sign hl
  have hsign_eq : (bignumNormalize ⟨sign, limbsOf l⟩).sign =
      if (bignumNormalize ⟨sign, limbsOf l⟩).limbs.isEmpty then 0 else sign := rfl
  by_cases hzero : ofDigits limbRadix l = 0
  · have hnil := htrimmed.magnitude_eq_zero.1 (hmag.trans hzero)
    rw [hnil] at hsign_eq
    rw [hzero, Nat.cast_zero, mul_zero]
    have : bignumNormalize ⟨sign, limbsOf l⟩ = ⟨0, []⟩ := by
      rw [← hnil]
      exact congrArg (fun s => VmBignum.mk s _) hsign_eq
    rw [this]
    exact denotes_zero
  · have hne : (bignumNormalize ⟨sign, limbsOf l⟩).limbs ≠ [] := fun hnil => by
      rw [hnil] at hmag
      exact hzero hmag.symm
    rw [if_neg (by simpa using hne)] at hsign_eq
    rw [← hmag] at hzero ⊢
    have heta : bignumNormalize ⟨sign, limbsOf l⟩ = ⟨sign, (bignumNormalize ⟨sign, limbsOf l⟩).limbs⟩ :=
      congrArg (fun s => VmBignum.mk s _) hsign_eq
    rw [heta]
    exact denotes_of_trimmed htrimmed sign hsign hzero

/-! ## Signs -/

namespace Normalized

variable {a : VmBignum}

lemma isZero_iff (h : Normalized a) : bignumIsZero a = true ↔ a.toInt = 0 := by
  rw [bignumIsZero, Bool.or_eq_true, List.isEmpty_iff, beq_iff_eq, h.sign_iff, or_self, VmBignum.toInt,
    mul_eq_zero, Nat.cast_eq_zero, h.trimmed.magnitude_eq_zero]
  constructor
  · exact fun hnil => .inr hnil
  · rintro (hsign | hnil)
    · rw [← h.sign_iff]
      cases hs : a.sign <;> simp [hs] at hsign ⊢
    · exact hnil

/-- A number that is not zero is its magnitude or the negative of it. -/
lemma sign_cases (h : Normalized a) (hne : bignumIsZero a ≠ true) :
    0 < magnitude a.limbs ∧ (a.sign = 1 ∧ a.toInt = magnitude a.limbs ∨
      a.sign = -1 ∧ a.toInt = -(magnitude a.limbs : ℤ)) := by
  rw [Ne, h.isZero_iff] at hne
  rw [VmBignum.toInt] at hne ⊢
  have hmag : magnitude a.limbs ≠ 0 := fun hzero => hne (by rw [hzero]; simp)
  refine ⟨Nat.pos_of_ne_zero hmag, ?_⟩
  cases hs : a.sign with
  | zero => simp [hs] at hne
  | neg => exact .inr ⟨rfl, by simp⟩
  | pos => exact .inl ⟨rfl, by simp⟩

lemma natAbs_toInt (h : Normalized a) : a.toInt.natAbs = magnitude a.limbs := by
  by_cases hzero : bignumIsZero a = true
  · have hval := h.isZero_iff.1 hzero
    rw [hval]
    have hnil : a.limbs = [] := by
      rw [bignumIsZero, Bool.or_eq_true, List.isEmpty_iff, beq_iff_eq, h.sign_iff, or_self] at hzero
      exact hzero
    rw [hnil]
    rfl
  · obtain ⟨hpos, ⟨-, hval⟩ | ⟨-, hval⟩⟩ := h.sign_cases hzero <;> omega

/-- A number that is zero is written in one way. -/
lemma eq_zero (h : Normalized a) (hzero : bignumIsZero a = true) : a = ⟨0, []⟩ := by
  rw [bignumIsZero, Bool.or_eq_true, List.isEmpty_iff, beq_iff_eq, h.sign_iff, or_self] at hzero
  have hsign := h.sign_iff.2 hzero
  obtain ⟨sign, limbs⟩ := a
  simp_all

/-- Normalized bignums of one value are the same. -/
lemma eq_of_toInt {b : VmBignum} (h : Normalized a) (hb : Normalized b) (heq : a.toInt = b.toInt) :
    a = b := by
  have hmag : magnitude a.limbs = magnitude b.limbs := by
    rw [← h.natAbs_toInt, ← hb.natAbs_toInt, heq]
  have hlimbs := h.trimmed.eq_of_magnitude hb.trimmed hmag
  by_cases hzero : bignumIsZero a = true
  · have hzero_b : bignumIsZero b = true := by rw [hb.isZero_iff, ← heq, ← h.isZero_iff, hzero]
    rw [h.eq_zero hzero, hb.eq_zero hzero_b]
  · have hzero_b : bignumIsZero b ≠ true := by rwa [Ne, hb.isZero_iff, ← heq, ← h.isZero_iff]
    have hsign : a.sign = b.sign := by
      obtain ⟨hpos, ⟨hs, hval⟩ | ⟨hs, hval⟩⟩ := h.sign_cases hzero <;>
        obtain ⟨hpos_b, ⟨hs_b, hval_b⟩ | ⟨hs_b, hval_b⟩⟩ := hb.sign_cases hzero_b <;>
        first | (exfalso; omega) | rw [hs, hs_b]
    obtain ⟨sign, limbs⟩ := a
    obtain ⟨sign', limbs'⟩ := b
    simp_all

end Normalized

/-! ## Construction -/

lemma limbsOfUint64_spec {mag : ℕ} (hpos : mag ≠ 0) (hlt : mag < 2 ^ 64) :
    Trimmed (limbsOfUint64 mag) ∧ magnitude (limbsOfUint64 mag) = mag := by
  have hhigh : mag >>> 32 < 2 ^ 32 := by
    rw [Nat.shiftRight_eq_div_pow]
    omega
  have hlow : mag % limbRadix < 2 ^ 32 := Nat.mod_lt _ (by decide)
  have hsplit : mag % limbRadix + limbRadix * (mag >>> 32) = mag := by
    rw [Nat.shiftRight_eq_div_pow]
    exact Nat.mod_add_div mag (2 ^ 32)
  have hlow_eq : (UInt32.ofNat (mag % limbRadix)).toNat = mag % limbRadix := UInt32.toNat_ofNat_of_lt' hlow
  have hhigh_eq : (UInt32.ofNat (mag >>> 32)).toNat = mag >>> 32 := UInt32.toNat_ofNat_of_lt' hhigh
  have hzero_iff : UInt32.ofNat (mag >>> 32) = 0 ↔ mag >>> 32 = 0 := by
    rw [← UInt32.toNat_inj, hhigh_eq]
    rfl
  rw [limbsOfUint64]
  simp only [ne_eq, hzero_iff]
  by_cases hzero : mag >>> 32 = 0
  · rw [if_neg (not_not.2 hzero)]
    rw [hzero, Nat.mul_zero, Nat.add_zero] at hsplit
    refine ⟨?_, by rw [magnitude_singleton, hlow_eq, hsplit]⟩
    rw [Trimmed, List.getLast?_singleton, Ne, Option.some.injEq, ← UInt32.toNat_inj, hlow_eq, hsplit]
    exact hpos
  · rw [if_pos hzero]
    refine ⟨?_, ?_⟩
    · simp only [Trimmed, List.getLast?_cons_cons, List.getLast?_singleton, ne_eq, Option.some.injEq]
      rwa [hzero_iff]
    · simp only [magnitude, words, List.map_cons, List.map_nil, Nat.ofDigits_cons, Nat.ofDigits_nil,
        hlow_eq, hhigh_eq, Nat.mul_zero, Nat.add_zero]
      exact hsplit

lemma fromInt64_spec (v : Int64) : Denotes (bignumFromInt64 v) v.toInt := by
  rw [bignumFromInt64]
  by_cases hzero : v = 0
  · rw [if_pos hzero, hzero]
    exact denotes_zero
  · have hne : v.toInt ≠ 0 := fun h => hzero (Int64.toInt_inj.1 h)
    have hlo := v.le_toInt
    have hhi := v.toInt_lt
    obtain ⟨htrimmed, hmag⟩ := @limbsOfUint64_spec v.toInt.natAbs (by omega) (by omega)
    have hneg : v < 0 ↔ v.toInt < 0 := Int64.lt_iff_toInt_lt
    rw [if_neg hzero]
    split
    · rename_i hlt
      rw [hneg] at hlt
      have h := denotes_of_trimmed htrimmed (-1) (by decide) (by omega)
      rwa [hmag, show ((-1 : SignType) : ℤ) * (v.toInt.natAbs : ℤ) = v.toInt by
        rw [SignType.coe_neg_one]; omega] at h
    · rename_i hlt
      rw [hneg] at hlt
      have h := denotes_of_trimmed htrimmed 1 (by decide) (by omega)
      rwa [hmag, show ((1 : SignType) : ℤ) * (v.toInt.natAbs : ℤ) = v.toInt by
        rw [SignType.coe_one]; omega] at h

lemma fromUint64_spec (v : UInt64) : Denotes (bignumFromUint64 v) v.toNat := by
  rw [bignumFromUint64]
  split
  · rename_i hzero
    rw [hzero]
    exact denotes_zero
  · rename_i hzero
    have hne : v.toNat ≠ 0 := fun h => hzero (UInt64.toNat_inj.1 h)
    obtain ⟨htrimmed, hmag⟩ := limbsOfUint64_spec hne v.toNat_lt
    have h := denotes_of_trimmed htrimmed 1 (by decide) (by omega)
    rwa [hmag, SignType.coe_one, one_mul] at h

/-! ## Addition and subtraction -/

lemma compareLimbs_words (as bs : List UInt32) :
    compareLimbs as bs = Radix.compareDigits (words as) (words bs) := by
  induction as generalizing bs with
  | nil => rfl
  | cons a as ih =>
    cases bs with
    | nil => rfl
    | cons c bs =>
      rw [compareLimbs, ih]
      simp [words, Radix.compareDigits, UInt32.toNat_inj, UInt32.lt_iff_toNat_lt]

/-- `bignum_compare_magnitude` compares the magnitudes. -/
lemma compareMagnitude_eq {a b : VmBignum} (ha : Trimmed a.limbs) (hb : Trimmed b.limbs) :
    bignumCompareMagnitude a b = compare (magnitude a.limbs) (magnitude b.limbs) := by
  rw [bignumCompareMagnitude]
  by_cases hlen : a.limbs.length = b.limbs.length
  · rw [if_neg (not_not.2 hlen), compareLimbs_words, words, words, List.map_reverse, List.map_reverse]
    exact Radix.compareDigits_eq one_lt_limbRadix (digits_words _) (digits_words _) (by simpa using hlen)
  · -- the longer one is the greater one
    have hlonger : ∀ {x y : List UInt32}, Trimmed y → x.length < y.length → magnitude x < magnitude y :=
      fun {x y} hy hxy => Radix.ofDigits_lt_of_length_lt one_lt_limbRadix (digits_words x)
        (words_getLast hy) (by simpa using hxy)
    rw [if_pos hlen, Nat.compare_eq_ite_lt]
    by_cases hlt : b.limbs.length < a.limbs.length
    · have := hlonger ha hlt
      rw [if_pos hlt, if_neg (by omega), if_pos this]
    · rw [if_neg hlt, if_pos (hlonger hb (by omega))]

lemma magAdd_spec (a b : VmBignum) :
    Trimmed (magAdd a b).limbs ∧
      magnitude (magAdd a b).limbs = magnitude a.limbs + magnitude b.limbs := by
  have ha := digits_words a.limbs
  have hb := digits_words b.limbs
  rw [magAdd]
  generalize hn : max a.limbs.length b.limbs.length = n
  have hla : (words a.limbs).length ≤ n := by rw [length_words]; omega
  have hlb : (words b.limbs).length ≤ n := by rw [length_words]; omega
  have hdigits := Radix.digits_add (n := n + 1) one_lt_limbRadix (Nat.zero_le 1) ha hb
  have hsum := Radix.ofDigits_add (b := limbRadix) (n := n + 1) 0 (Nat.le_succ_of_le hla)
    (Nat.le_succ_of_le hlb)
  obtain ⟨htrimmed, hmag⟩ := normalize_spec 0 (hdigits.take (n + 1))
  refine ⟨htrimmed, hmag.trans ?_⟩
  -- nothing is carried out of the last limb
  have hsplit := Radix.ofDigits_eq_take (b := limbRadix) (k := n + 1)
    (Radix.length_add (b := limbRadix) (n + 1) 0 (words a.limbs) (words b.limbs))
  have hpow : limbRadix ^ n * 2 ≤ limbRadix ^ (n + 1) := by
    rw [pow_succ]
    exact Nat.mul_le_mul_left _ (by decide)
  have hlt : ∀ l : List ℕ, Radix.Digits limbRadix l → l.length ≤ n →
      Nat.ofDigits limbRadix l < limbRadix ^ n := fun l hl hle =>
    Nat.lt_of_lt_of_le (Radix.ofDigits_lt one_lt_limbRadix hl) (Nat.pow_le_pow_right (by decide) hle)
  have hlt_a := hlt _ ha hla
  have hlt_b := hlt _ hb hlb
  have hcarry : (Radix.add limbRadix (n + 1) 0 (words a.limbs) (words b.limbs)).getD (n + 1) 0 = 0 := by
    by_contra hne
    have : limbRadix ^ (n + 1) * 1 ≤ limbRadix ^ (n + 1) *
        (Radix.add limbRadix (n + 1) 0 (words a.limbs) (words b.limbs)).getD (n + 1) 0 :=
      Nat.mul_le_mul_left _ (Nat.pos_of_ne_zero hne)
    omega
  rw [hcarry, hsum, Nat.mul_zero] at hsplit
  exact hsplit.symm

/-- The loop of `mag_sub` subtracts digit by digit. -/
lemma magSubLimbs_eq {borrow : ℕ} {as bs : List ℕ} (hw : borrow ≤ 1) (ha : Digits limbRadix as)
    (hb : Digits limbRadix bs) : magSubLimbs borrow as bs = Radix.sub limbRadix borrow as bs := by
  induction as generalizing borrow bs with
  | nil => rfl
  | cons x as ih =>
    rw [Radix.digits_cons] at ha
    have hx := ha.1
    have hy := hb.headD (by decide)
    have hdigit := Radix.sub_digit hx hy hw
    have hlt := Nat.mod_lt (x + (limbRadix - bs.headD 0) + (limbRadix - borrow)) (by decide : 0 < limbRadix)
    rw [magSubLimbs, Radix.sub]
    generalize bs.headD 0 = y at *
    generalize (x + (limbRadix - y) + (limbRadix - borrow)) % limbRadix = out at *
    by_cases hcond : x < (y + borrow) % limbRadix ∨ (borrow ≠ 0 ∧ y = limbRadix - 1)
    · rw [if_pos hcond] at hdigit ⊢
      rw [if_pos (by omega), ih le_rfl ha.2 hb.tail]
      congr 1
      omega
    · rw [if_neg hcond] at hdigit ⊢
      rw [if_neg (by omega), ih (Nat.zero_le 1) ha.2 hb.tail]
      congr 1
      omega

lemma length_le_of_magnitude_le {a b : VmBignum} (hb : Trimmed b.limbs)
    (hle : magnitude b.limbs ≤ magnitude a.limbs) : b.limbs.length ≤ a.limbs.length := by
  by_contra hlt
  have := Radix.ofDigits_lt_of_length_lt one_lt_limbRadix (digits_words a.limbs) (words_getLast hb)
    (by simpa using hlt)
  exact absurd hle (Nat.not_le.2 this)

lemma magSub_spec {a b : VmBignum} (hb : Trimmed b.limbs)
    (hle : magnitude b.limbs ≤ magnitude a.limbs) :
    Trimmed (magSub a b).limbs ∧
      magnitude (magSub a b).limbs = magnitude a.limbs - magnitude b.limbs := by
  have hlen := length_le_of_magnitude_le hb hle
  rw [magSub, magSubLimbs_eq (Nat.zero_le 1) (digits_words _) (digits_words _)]
  obtain ⟨htrimmed, hmag⟩ := normalize_spec 0 (Radix.digits_sub (by decide : 0 < limbRadix) 0
    (words a.limbs) (words b.limbs))
  refine ⟨htrimmed, hmag.trans ?_⟩
  exact Radix.ofDigits_sub one_lt_limbRadix (digits_words _) (digits_words _) (by simpa using hlen) hle

lemma neg_spec {a : VmBignum} (ha : Normalized a) : Denotes (bignumNeg a) (-a.toInt) := by
  rw [bignumNeg]
  by_cases hzero : bignumIsZero a = true
  · have hval := ha.isZero_iff.1 hzero
    rw [hzero, if_neg (by decide), hval]
    exact ⟨ha, hval.trans neg_zero.symm⟩
  · have hfalse : bignumIsZero a = false := by simpa using hzero
    rw [hfalse, if_pos (by decide)]
    refine ⟨⟨ha.trimmed, ?_⟩, ?_⟩
    · rw [← ha.sign_iff]
      show -a.sign = 0 ↔ a.sign = 0
      cases a.sign <;> decide
    · rw [VmBignum.toInt, VmBignum.toInt]
      cases a.sign <;> simp

lemma absVal_spec {a : VmBignum} (ha : Normalized a) : Denotes (bignumAbsVal a) |a.toInt| := by
  rw [bignumAbsVal]
  by_cases hzero : bignumIsZero a = true
  · obtain rfl := ha.eq_zero hzero
    exact denotes_zero
  · obtain ⟨hpos, ⟨hs, hval⟩ | ⟨hs, hval⟩⟩ := ha.sign_cases hzero
    · rw [hs, if_neg (by decide), hval, abs_of_nonneg (by omega)]
      exact ⟨ha, hval⟩
    · rw [hs, if_pos (by decide), hval, abs_neg, abs_of_nonneg (by omega)]
      have h := denotes_of_trimmed ha.trimmed 1 (by decide) (by omega)
      rwa [SignType.coe_one, one_mul] at h

/-- A magnitude that is not zero, with the sign put on it. -/
lemma denotes_with {r : VmBignum} {sign : SignType} {x : ℤ} (hr : Trimmed r.limbs)
    (hpos : magnitude r.limbs ≠ 0) (hsign : sign ≠ 0) (hx : x = sign * magnitude r.limbs) :
    Denotes { r with sign := sign } x := by
  rw [hx]
  exact denotes_of_trimmed hr sign hsign hpos

/-- The sign of a number that is not zero, as a factor. -/
lemma Normalized.toInt_eq_mul {a : VmBignum} (ha : Normalized a) (hne : bignumIsZero a ≠ true) :
    a.sign ≠ 0 ∧ magnitude a.limbs ≠ 0 := by
  obtain ⟨hpos, ⟨hs, -⟩ | ⟨hs, -⟩⟩ := ha.sign_cases hne <;> exact ⟨by rw [hs]; decide, by omega⟩

/-- Different signs of numbers that are not zero are opposite. -/
lemma opposite_sign {a b : VmBignum} (ha : Normalized a) (hb : Normalized b)
    (hne : bignumIsZero a ≠ true) (hne_b : bignumIsZero b ≠ true) (hsign : a.sign ≠ b.sign) :
    b.sign = -a.sign := by
  obtain ⟨-, ⟨hs, -⟩ | ⟨hs, -⟩⟩ := ha.sign_cases hne <;>
    obtain ⟨-, ⟨hs_b, -⟩ | ⟨hs_b, -⟩⟩ := hb.sign_cases hne_b <;>
    first | exact absurd (hs.trans hs_b.symm) hsign | rw [hs, hs_b] <;> rfl

/-- The smaller magnitude is taken from the greater one. -/
lemma subtract_spec {a b : VmBignum} (ha : Normalized a) (hb : Normalized b)
    (hne : bignumIsZero a ≠ true) :
    let cmp := bignumCompareMagnitude a b
    Denotes (if cmp = .eq then bignumFromInt64 0
      else if cmp = .gt then { magSub a b with sign := a.sign }
      else { magSub b a with sign := -a.sign })
      (a.sign * (magnitude a.limbs - magnitude b.limbs : ℤ)) := by
  intro cmp
  obtain ⟨hsign, -⟩ := ha.toInt_eq_mul hne
  have hsign_neg : -a.sign ≠ 0 := by
    cases hs : a.sign with
    | zero => exact absurd hs hsign
    | neg => decide
    | pos => decide
  have hcmp : cmp = compare (magnitude a.limbs) (magnitude b.limbs) :=
    compareMagnitude_eq ha.trimmed hb.trimmed
  by_cases heq : cmp = .eq
  · rw [if_pos heq, Nat.compare_eq_eq.1 (hcmp.symm.trans heq), sub_self, mul_zero]
    exact fromInt64_spec 0
  rw [if_neg heq]
  by_cases hgt : cmp = .gt
  · have hlt := Nat.compare_eq_gt.1 (hcmp.symm.trans hgt)
    obtain ⟨htrimmed, hmag⟩ := magSub_spec hb.trimmed hlt.le
    rw [if_pos hgt]
    refine denotes_with htrimmed (by omega) hsign ?_
    rw [hmag, Nat.cast_sub hlt.le]
  · have hlt : magnitude a.limbs < magnitude b.limbs := by
      rw [hcmp, Nat.compare_eq_eq] at heq
      rw [hcmp, Nat.compare_eq_gt] at hgt
      omega
    obtain ⟨htrimmed, hmag⟩ := magSub_spec ha.trimmed hlt.le
    rw [if_neg hgt]
    refine denotes_with htrimmed (by omega) hsign_neg ?_
    rw [hmag, Nat.cast_sub hlt.le]
    cases a.sign <;> simp

lemma add_spec {a b : VmBignum} (ha : Normalized a) (hb : Normalized b) :
    Denotes (bignumAdd a b) (a.toInt + b.toInt) := by
  rw [bignumAdd]
  by_cases hzero : bignumIsZero a = true
  · rw [if_pos hzero, ha.isZero_iff.1 hzero, zero_add]
    exact ⟨hb, rfl⟩
  by_cases hzero_b : bignumIsZero b = true
  · rw [if_neg hzero, if_pos hzero_b, hb.isZero_iff.1 hzero_b, add_zero]
    exact ⟨ha, rfl⟩
  rw [if_neg hzero, if_neg hzero_b]
  by_cases hsign : a.sign = b.sign
  · obtain ⟨htrimmed, hmag⟩ := magAdd_spec a b
    obtain ⟨hs, hpos⟩ := ha.toInt_eq_mul hzero
    rw [if_pos hsign]
    refine denotes_with htrimmed (by omega) hs ?_
    rw [VmBignum.toInt, VmBignum.toInt, ← hsign, hmag, Nat.cast_add, mul_add]
  · have hopposite := opposite_sign ha hb hzero hzero_b hsign
    have h := subtract_spec ha hb hzero
    rw [if_neg hsign, hopposite, VmBignum.toInt, VmBignum.toInt, hopposite]
    have hvalue : (a.sign : ℤ) * magnitude a.limbs + ((-a.sign : SignType) : ℤ) * magnitude b.limbs =
        a.sign * (magnitude a.limbs - magnitude b.limbs : ℤ) := by
      cases a.sign <;> simp <;> omega
    rw [hvalue]
    exact h

lemma sub_spec {a b : VmBignum} (ha : Normalized a) (hb : Normalized b) :
    Denotes (bignumSub a b) (a.toInt - b.toInt) := by
  rw [bignumSub]
  by_cases hzero_b : bignumIsZero b = true
  · rw [if_pos hzero_b, hb.isZero_iff.1 hzero_b, sub_zero]
    exact ⟨ha, rfl⟩
  by_cases hzero : bignumIsZero a = true
  · rw [if_neg hzero_b, if_pos hzero, ha.isZero_iff.1 hzero, zero_sub]
    exact neg_spec hb
  rw [if_neg hzero_b, if_neg hzero]
  by_cases hsign : a.sign = b.sign
  · have h := subtract_spec ha hb hzero
    rw [if_neg (not_not.2 hsign), VmBignum.toInt, VmBignum.toInt, ← hsign, ← mul_sub]
    exact h
  · have hopposite := opposite_sign ha hb hzero hzero_b hsign
    obtain ⟨htrimmed, hmag⟩ := magAdd_spec a b
    obtain ⟨hs, hpos⟩ := ha.toInt_eq_mul hzero
    rw [if_pos hsign]
    refine denotes_with htrimmed (by omega) hs ?_
    rw [VmBignum.toInt, VmBignum.toInt, hopposite, hmag, Nat.cast_add]
    cases a.sign with
    | zero => simp
    | neg =>
      simp only [SignType.neg_eq_neg_one, SignType.coe_neg_one, neg_neg, SignType.coe_one]
      omega
    | pos => simp

end Vm.Bignum
