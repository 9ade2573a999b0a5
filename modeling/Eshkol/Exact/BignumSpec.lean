import Eshkol.Base.DigitShift
import Eshkol.Exact.Bignum

/-!
# Bignum arithmetic is exact

A bignum is normalized when it has no leading zero limb and zero is not negative. The operations keep
normalized bignums normalized and compute sums, differences, products and the truncated quotient and
remainder of their values.
-/

namespace Exact

open Hash (Bignum)
open Radix (Digits)
open Nat (ofDigits)

lemma radix_eq : radix = 2 ^ 64 := rfl

lemma one_lt_radix : 1 < radix := by decide

/-! ## Values -/

/-- The number that the limbs stand for. -/
def magnitude (limbs : List UInt64) : ℕ := ofDigits radix (words limbs)

/-- The value of a bignum. -/
def toInt (a : Bignum) : ℤ := if a.negative then -(magnitude a.limbs : ℤ) else magnitude a.limbs

/-- No leading zero limb, and no negative zero. -/
structure Normalized (a : Bignum) : Prop where
  nonempty : a.limbs ≠ []
  top : a.limbs.length = 1 ∨ a.limbs.getLast? ≠ some 0
  zero : a.limbs = [0] → a.negative = false

lemma digits_words (limbs : List UInt64) : Digits radix (words limbs) := by
  intro d hd
  obtain ⟨limb, -, rfl⟩ := List.mem_map.1 hd
  exact limb.toNat_lt

lemma words_limbsOf {l : List ℕ} (h : Digits radix l) : words (limbsOf l) = l := by
  rw [words, limbsOf, List.map_map]
  refine Eq.trans (List.map_congr_left fun d hd => ?_) (List.map_id l)
  exact UInt64.toNat_ofNat_of_lt' (h d hd)

@[simp] lemma length_words (limbs : List UInt64) : (words limbs).length = limbs.length :=
  List.length_map _

@[simp] lemma length_limbsOf (l : List ℕ) : (limbsOf l).length = l.length := List.length_map _

lemma magnitude_limbsOf {l : List ℕ} (h : Digits radix l) : magnitude (limbsOf l) = ofDigits radix l := by
  rw [magnitude, words_limbsOf h]

lemma magnitude_lt (limbs : List UInt64) : magnitude limbs < radix ^ limbs.length := by
  have := Radix.ofDigits_lt one_lt_radix (digits_words limbs)
  rwa [length_words] at this

@[simp] lemma magnitude_singleton (limb : UInt64) : magnitude [limb] = limb.toNat := by
  simp [magnitude, words]

lemma words_getLast {limbs : List UInt64} (h : limbs.getLast? ≠ some 0) :
    (words limbs).getLast? ≠ some 0 := by
  rw [words, List.getLast?_map]
  intro hzero
  obtain ⟨limb, hlimb, hval⟩ := Option.map_eq_some_iff.1 hzero
  have hlimb_zero : limb = 0 := UInt64.toNat_inj.1 hval
  exact h (by rw [hlimb, hlimb_zero])

/-- Without a leading zero limb the top limb carries the number. -/
lemma magnitude_ge {limbs : List UInt64} (hne : limbs ≠ []) (h : limbs.getLast? ≠ some 0) :
    radix ^ (limbs.length - 1) ≤ magnitude limbs := by
  rw [← length_words limbs]
  exact Radix.pow_le_ofDigits (by simpa [words] using hne) (words_getLast h)

lemma Normalized.magnitude_ge {a : Bignum} (h : Normalized a) (hlen : 1 < a.limbs.length) :
    radix ^ (a.limbs.length - 1) ≤ magnitude a.limbs :=
  Exact.magnitude_ge h.nonempty (h.top.resolve_left (by omega))

/-! ## Normalization -/

lemma magnitude_rdropWhile (limbs : List UInt64) :
    magnitude (limbs.rdropWhile (· == 0)) = magnitude limbs := by
  have hzero : (fun limb : UInt64 => limb == 0) = (fun d : ℕ => d == 0) ∘ UInt64.toNat := by
    funext limb
    rw [Bool.eq_iff_iff]
    simp [← UInt64.toNat_inj]
  rw [magnitude, magnitude, words, words, hzero, ← Radix.map_rdropWhile, Radix.ofDigits_rdropWhile]

lemma normalize_spec (bn : Bignum) (hne : bn.limbs ≠ []) :
    Normalized (bignumNormalize bn) ∧ magnitude (bignumNormalize bn).limbs = magnitude bn.limbs := by
  have hmag := magnitude_rdropWhile bn.limbs
  by_cases hempty : bn.limbs.rdropWhile (· == 0) = []
  · have hall := List.rdropWhile_eq_nil_iff.1 hempty
    obtain ⟨limb, rest, hlimbs⟩ := List.exists_cons_of_ne_nil hne
    have hlimb : limb = 0 := by simpa using hall limb (by simp [hlimbs])
    have hnorm : bignumNormalize bn = ⟨false, [0]⟩ := by
      rw [bignumNormalize, hempty, hlimbs, hlimb]
      simp
    rw [hempty] at hmag
    rw [hnorm, ← hmag]
    exact ⟨⟨by simp, by simp, by simp⟩, by simp [magnitude, words]⟩
  · have hlast := List.rdropWhile_last_not (· == 0) bn.limbs hempty
    have hnorm : bignumNormalize bn = ⟨bn.negative && bn.limbs.rdropWhile (· == 0) != [0],
        bn.limbs.rdropWhile (· == 0)⟩ := by
      simp [bignumNormalize, hempty]
    rw [hnorm]
    refine ⟨⟨hempty, .inr ?_, fun hzero => ?_⟩, hmag⟩
    swap
    · have hlimbs : bn.limbs.rdropWhile (· == 0) = [0] := hzero
      simp [hlimbs]
    rw [List.getLast?_eq_getLast_of_ne_nil hempty]
    simpa using hlast

lemma toInt_normalize {bn : Bignum} (hne : bn.limbs ≠ []) : toInt (bignumNormalize bn) = toInt bn := by
  obtain ⟨-, hmag⟩ := normalize_spec bn hne
  by_cases hzero : (bignumNormalize bn).limbs = [0]
  · have : magnitude bn.limbs = 0 := by rw [← hmag, hzero]; simp
    rw [toInt, toInt, hmag, this]
    simp
  · have hneg : (bignumNormalize bn).negative = bn.negative := by
      have : (bignumNormalize bn).negative = (bn.negative && (bignumNormalize bn).limbs != [0]) := rfl
      simp [this, hzero]
    rw [toInt, toInt, hmag, hneg]

/-! ## Comparison -/

lemma compareLimbs_words (as bs : List UInt64) :
    Bignum.compareLimbs as bs = Radix.compareDigits (words as) (words bs) := by
  induction as generalizing bs with
  | nil => rfl
  | cons a as ih =>
    cases bs with
    | nil => rfl
    | cons c bs =>
      rw [Bignum.compareLimbs, ih]
      simp [words, Radix.compareDigits, UInt64.toNat_inj, UInt64.lt_iff_toNat_lt]

/-- `bignum_compare_abs` compares the magnitudes. -/
lemma compareAbs_eq {a b : Bignum} (ha : Normalized a) (hb : Normalized b) :
    a.compareAbs b = compare (magnitude a.limbs) (magnitude b.limbs) := by
  rw [Bignum.compareAbs]
  by_cases hlen : a.limbs.length = b.limbs.length
  · rw [if_neg (not_not.2 hlen), compareLimbs_words, words, words, List.map_reverse, List.map_reverse]
    exact Radix.compareDigits_eq one_lt_radix (digits_words _) (digits_words _) (by simpa using hlen)
  · -- the longer one is the greater one
    have hlonger : ∀ {x y : Bignum}, Normalized x → Normalized y → x.limbs.length < y.limbs.length →
        magnitude x.limbs < magnitude y.limbs := by
      intro x y hx hy hxy
      have hpos : 0 < x.limbs.length := List.length_pos_iff.2 hx.nonempty
      exact Radix.ofDigits_lt_of_length_lt one_lt_radix (digits_words _)
        (words_getLast (hy.top.resolve_left (by omega))) (by simpa using hxy)
    rw [if_pos hlen, Nat.compare_eq_ite_lt]
    by_cases hlt : b.limbs.length < a.limbs.length
    · have := hlonger hb ha hlt
      rw [if_pos hlt, if_neg (by omega), if_pos this]
    · rw [if_neg hlt, if_pos (hlonger ha hb (by omega))]

/-! ## Signs -/

lemma normalize_limbsOf {l : List ℕ} (negative : Bool) (hl : Digits radix l) (hne : l ≠ []) :
    Normalized (bignumNormalize ⟨negative, limbsOf l⟩) ∧
      magnitude (bignumNormalize ⟨negative, limbsOf l⟩).limbs = ofDigits radix l := by
  obtain ⟨hnorm, hmag⟩ := normalize_spec ⟨negative, limbsOf l⟩ (by simpa [limbsOf] using hne)
  exact ⟨hnorm, by rw [hmag, magnitude_limbsOf hl]⟩

/-- A sign for a number that is not zero. -/
lemma Normalized.withSign {a : Bignum} (h : Normalized a) {negative : Bool}
    (hzero : magnitude a.limbs = 0 → negative = false) : Normalized { a with negative := negative } where
  nonempty := h.nonempty
  top := h.top
  zero hlimbs := hzero (by rw [show a.limbs = [0] from hlimbs]; simp)

lemma Normalized.isZero_iff {a : Bignum} (h : Normalized a) :
    a.isZero = true ↔ magnitude a.limbs = 0 := by
  rw [Bignum.isZero, beq_iff_eq]
  constructor
  · intro hlimbs
    rw [hlimbs]
    simp
  · intro hmag
    have hlen : a.limbs.length = 1 := by
      refine h.top.resolve_right fun hlast => ?_
      have := Exact.magnitude_ge h.nonempty hlast
      have hpos : 0 < radix ^ (a.limbs.length - 1) := Nat.pow_pos (by decide)
      omega
    obtain ⟨limb, hlimbs⟩ := List.length_eq_one_iff.1 hlen
    rw [hlimbs, magnitude_singleton] at hmag
    rw [hlimbs, List.cons.injEq, ← UInt64.toNat_inj]
    exact ⟨hmag, rfl⟩

lemma Normalized.zero_nonneg {a : Bignum} (h : Normalized a) (hmag : magnitude a.limbs = 0) :
    a.negative = false :=
  h.zero (by simpa [Bignum.isZero] using h.isZero_iff.2 hmag)

lemma normalized_zero : Normalized (bignumAlloc 1) := ⟨by simp [bignumAlloc], by simp [bignumAlloc], fun _ => rfl⟩

lemma toInt_zero : toInt (bignumAlloc 1) = 0 := by simp [toInt, bignumAlloc]

lemma natAbs_toInt (a : Bignum) : (toInt a).natAbs = magnitude a.limbs := by
  rw [toInt]
  split <;> omega

/-! ## Addition and subtraction -/

lemma addAbs_spec (a b : Bignum) :
    Normalized (bignumAddAbs a b) ∧
      magnitude (bignumAddAbs a b).limbs = magnitude a.limbs + magnitude b.limbs := by
  have hdigits : Digits radix (Radix.add radix (max a.limbs.length b.limbs.length) 0 (words a.limbs)
      (words b.limbs)) :=
    Radix.digits_add one_lt_radix (Nat.zero_le 1) (digits_words _) (digits_words _)
  obtain ⟨hnorm, hmag⟩ := normalize_limbsOf false hdigits (by simp [← List.length_pos_iff])
  refine ⟨hnorm, ?_⟩
  rw [bignumAddAbs, hmag, Radix.ofDigits_add 0 (by simp) (by simp)]
  rfl

lemma length_le_of_magnitude_le {a b : Bignum} (ha : Normalized a) (hb : Normalized b)
    (hle : magnitude b.limbs ≤ magnitude a.limbs) : b.limbs.length ≤ a.limbs.length := by
  by_contra hlt
  have hpos : 0 < a.limbs.length := List.length_pos_iff.2 ha.nonempty
  have hge := hb.magnitude_ge (by omega)
  have hlt' := magnitude_lt a.limbs
  have : radix ^ a.limbs.length ≤ radix ^ (b.limbs.length - 1) :=
    Nat.pow_le_pow_right (by decide) (by omega)
  omega

lemma subAbs_spec {a b : Bignum} (ha : Normalized a) (hb : Normalized b)
    (hle : magnitude b.limbs ≤ magnitude a.limbs) :
    Normalized (bignumSubAbs a b) ∧
      magnitude (bignumSubAbs a b).limbs = magnitude a.limbs - magnitude b.limbs := by
  have hlen := length_le_of_magnitude_le ha hb hle
  have hdigits : Digits radix (Radix.sub radix 0 (words a.limbs) (words b.limbs)) :=
    Radix.digits_sub (by decide) _ _ _
  have hne : Radix.sub radix 0 (words a.limbs) (words b.limbs) ≠ [] := by
    rw [← List.length_pos_iff, Radix.length_sub, length_words]
    exact List.length_pos_iff.2 ha.nonempty
  obtain ⟨hnorm, hmag⟩ := normalize_limbsOf false hdigits hne
  refine ⟨hnorm, ?_⟩
  rw [bignumSubAbs, hmag, Radix.ofDigits_sub one_lt_radix (digits_words _) (digits_words _) (by simpa) hle]
  rfl

/-- Subtracting the smaller magnitude leaves what the signs say. -/
lemma subAbs_signed {a b : Bignum} (ha : Normalized a) (hb : Normalized b)
    (hlt : magnitude b.limbs < magnitude a.limbs) (negative : Bool) :
    Normalized { bignumSubAbs a b with negative := negative } ∧
      toInt { bignumSubAbs a b with negative := negative } =
        if negative then (magnitude b.limbs : ℤ) - magnitude a.limbs
        else (magnitude a.limbs : ℤ) - magnitude b.limbs := by
  obtain ⟨hnorm, hmag⟩ := subAbs_spec ha hb (by omega)
  refine ⟨hnorm.withSign fun hzero => by omega, ?_⟩
  rw [toInt, hmag]
  split <;> omega

lemma add_spec {a b : Bignum} (ha : Normalized a) (hb : Normalized b) :
    Normalized (bignumAdd a b) ∧ toInt (bignumAdd a b) = toInt a + toInt b := by
  rw [bignumAdd]
  by_cases hsign : a.negative = b.negative
  · rw [if_pos hsign]
    obtain ⟨hnorm, hmag⟩ := addAbs_spec a b
    refine ⟨hnorm.withSign fun hzero => ha.zero_nonneg (by omega), ?_⟩
    rw [toInt, toInt, toInt, ← hsign, hmag]
    split <;> omega
  · rw [if_neg hsign, compareAbs_eq ha hb]
    have hopposite : b.negative = !a.negative := by
      cases ha : a.negative <;> cases hb : b.negative <;> simp_all
    rcases hcmp : compare (magnitude a.limbs) (magnitude b.limbs) with _ | _ | _
    · obtain ⟨hnorm, hval⟩ := subAbs_signed hb ha (Nat.compare_eq_lt.1 hcmp) b.negative
      refine ⟨hnorm, hval.trans ?_⟩
      rw [toInt, toInt, hopposite]
      cases a.negative <;> simp <;> omega
    · refine ⟨normalized_zero, ?_⟩
      have := Nat.compare_eq_eq.1 hcmp
      rw [toInt_zero, toInt, toInt, hopposite, this]
      cases a.negative <;> simp
    · obtain ⟨hnorm, hval⟩ := subAbs_signed ha hb (Nat.compare_eq_gt.1 hcmp) a.negative
      refine ⟨hnorm, hval.trans ?_⟩
      rw [toInt, toInt, hopposite]
      cases a.negative <;> simp <;> omega

lemma sub_spec {a b : Bignum} (ha : Normalized a) (hb : Normalized b) :
    Normalized (bignumSub a b) ∧ toInt (bignumSub a b) = toInt a - toInt b := by
  rw [bignumSub]
  by_cases hsign : a.negative = b.negative
  · rw [if_neg (not_not.2 hsign), compareAbs_eq ha hb]
    rcases hcmp : compare (magnitude a.limbs) (magnitude b.limbs) with _ | _ | _
    · obtain ⟨hnorm, hval⟩ := subAbs_signed hb ha (Nat.compare_eq_lt.1 hcmp) (!a.negative)
      refine ⟨hnorm, hval.trans ?_⟩
      rw [toInt, toInt, ← hsign]
      cases a.negative
      · simp
      · simp
        omega
    · refine ⟨normalized_zero, ?_⟩
      have := Nat.compare_eq_eq.1 hcmp
      rw [toInt_zero, toInt, toInt, ← hsign, this]
      omega
    · obtain ⟨hnorm, hval⟩ := subAbs_signed ha hb (Nat.compare_eq_gt.1 hcmp) a.negative
      refine ⟨hnorm, hval.trans ?_⟩
      rw [toInt, toInt, ← hsign]
      cases a.negative
      · simp
      · simp
        omega
  · rw [if_pos hsign]
    have hopposite : b.negative = !a.negative := by
      cases ha : a.negative <;> cases hb : b.negative <;> simp_all
    obtain ⟨hnorm, hmag⟩ := addAbs_spec a b
    refine ⟨hnorm.withSign fun hzero => ha.zero_nonneg (by omega), ?_⟩
    rw [toInt, toInt, toInt, hopposite, hmag]
    cases a.negative
    · simp
    · simp
      omega

lemma neg_spec {a : Bignum} (ha : Normalized a) :
    Normalized (bignumNeg a) ∧ toInt (bignumNeg a) = -toInt a := by
  by_cases hzero : a.isZero = true
  · have hmag := ha.isZero_iff.1 hzero
    refine ⟨ha.withSign fun _ => by simp [hzero], ?_⟩
    simp [toInt, bignumNeg, hmag]
  · have hmag : magnitude a.limbs ≠ 0 := fun h => hzero (ha.isZero_iff.2 h)
    refine ⟨ha.withSign fun h => absurd h hmag, ?_⟩
    rw [toInt, toInt, bignumNeg]
    cases a.negative <;> simp [hzero]

/-! ## Multiplication -/

lemma mul_spec {a b : Bignum} (ha : Normalized a) (hb : Normalized b) :
    Normalized (bignumMul a b) ∧ toInt (bignumMul a b) = toInt a * toInt b := by
  have hlena : 0 < a.limbs.length := List.length_pos_iff.2 ha.nonempty
  have hlenb : 0 < b.limbs.length := List.length_pos_iff.2 hb.nonempty
  have hzeros : words (List.replicate (a.limbs.length + b.limbs.length) 0) =
      List.replicate (a.limbs.length + b.limbs.length) 0 := by
    simp [words]
  have hdigits : Digits radix (Radix.mulRows radix (words a.limbs)
      (List.replicate (a.limbs.length + b.limbs.length) 0) (words b.limbs)) := by
    refine Radix.digits_mulRows (by decide) fun d hd => ?_
    rw [(List.mem_replicate.1 hd).2]
    decide
  have hval : ofDigits radix (Radix.mulRows radix (words a.limbs)
      (List.replicate (a.limbs.length + b.limbs.length) 0) (words b.limbs)) =
      magnitude a.limbs * magnitude b.limbs := by
    rw [Radix.ofDigits_mulRows (by decide) (digits_words _) (digits_words _) ?_ (by simp) ?_,
      Nat.ofDigits_replicate_zero, Nat.zero_add]
    · rfl
    · intro d hd
      rw [(List.mem_replicate.1 hd).2]
      decide
    · intro d hd
      rw [List.drop_replicate] at hd
      exact (List.mem_replicate.1 hd).2
  have hlen : (Radix.mulRows radix (words a.limbs)
      (List.replicate (a.limbs.length + b.limbs.length) 0) (words b.limbs)).length =
      a.limbs.length + b.limbs.length := by
    rw [Radix.length_mulRows (by simp), List.length_replicate]
  rw [bignumMul, bignumAlloc, hzeros]
  generalize Radix.mulRows radix (words a.limbs) (List.replicate (a.limbs.length + b.limbs.length) 0)
    (words b.limbs) = product at *
  have hne : product ≠ [] := by
    rw [← List.length_pos_iff]
    omega
  have htwo : limbsOf product ≠ [0] := by
    intro heq
    have := congrArg List.length heq
    rw [length_limbsOf, List.length_singleton] at this
    omega
  refine ⟨(normalize_limbsOf _ hdigits hne).1, ?_⟩
  rw [toInt_normalize (by simpa [limbsOf] using hne), toInt, toInt, toInt, magnitude_limbsOf hdigits, hval]
  cases a.negative <;> cases b.negative <;> simp [htwo]

/-! ## Shifts -/

lemma shiftLimbsLeft_eq (shift carry : ℕ) (xs : List ℕ) :
    shiftLimbsLeft shift carry xs = Radix.shiftLeft 64 shift carry xs := by
  induction xs generalizing carry with
  | nil => rfl
  | cons x xs ih =>
    rw [shiftLimbsLeft, Radix.shiftLeft, ih]
    rfl

lemma shiftLimbsRight_eq (shift : ℕ) (xs : List ℕ) :
    shiftLimbsRight shift xs = Radix.shiftRight 64 shift xs := by
  induction xs with
  | nil => rfl
  | cons x xs ih =>
    cases xs with
    | nil => rfl
    | cons y ys =>
      rw [shiftLimbsRight, Radix.shiftRight, ih]
      rfl

lemma shiftLimbsLeft_spec {shift carry : ℕ} {xs : List ℕ} (hs : shift ≤ 64) (hc : carry < 2 ^ shift)
    (hx : Digits radix xs) :
    ofDigits radix (shiftLimbsLeft shift carry xs) = 2 ^ shift * ofDigits radix xs + carry ∧
      Digits radix (shiftLimbsLeft shift carry xs) ∧
      (shiftLimbsLeft shift carry xs).length = xs.length + 1 := by
  rw [shiftLimbsLeft_eq]
  exact Radix.shiftLeft_spec hs hc hx

lemma shiftLimbsRight_spec {shift : ℕ} {xs : List ℕ} (hs : shift ≤ 64) (hx : Digits radix xs) :
    ofDigits radix (shiftLimbsRight shift xs) = ofDigits radix xs / 2 ^ shift ∧
      Digits radix (shiftLimbsRight shift xs) ∧ (shiftLimbsRight shift xs).length = xs.length := by
  rw [shiftLimbsRight_eq]
  exact Radix.shiftRight_spec hs hx

/-! ## Division -/

/-- The shift moves the top bit of the limb to the top. -/
lemma countLeadingZeros_spec {limb : ℕ} (hne : limb ≠ 0) (hlt : limb < radix) :
    countLeadingZeros limb ≤ 63 ∧ 2 ^ 63 ≤ limb * 2 ^ countLeadingZeros limb ∧
      (limb + 1) * 2 ^ countLeadingZeros limb ≤ radix := by
  have hlog : limb.log2 < 64 := (Nat.log2_lt hne).2 hlt
  have hle : 2 ^ limb.log2 ≤ limb := Nat.log2_self_le hne
  have hge : limb < 2 ^ (limb.log2 + 1) := Nat.lt_log2_self
  have hsplit : 2 ^ limb.log2 * 2 ^ countLeadingZeros limb = 2 ^ 63 := by
    rw [countLeadingZeros, ← pow_add]
    congr 1
    omega
  refine ⟨by rw [countLeadingZeros]; omega, ?_, ?_⟩
  · calc 2 ^ 63 = 2 ^ limb.log2 * 2 ^ countLeadingZeros limb := hsplit.symm
      _ ≤ limb * 2 ^ countLeadingZeros limb := Nat.mul_le_mul_right _ hle
  · calc (limb + 1) * 2 ^ countLeadingZeros limb
        ≤ 2 ^ (limb.log2 + 1) * 2 ^ countLeadingZeros limb := Nat.mul_le_mul_right _ hge
      _ = 2 * (2 ^ limb.log2 * 2 ^ countLeadingZeros limb) := by rw [pow_succ]; ring
      _ = radix := by rw [hsplit]; rfl

lemma normalized_of_one {negative : Bool} {limb : UInt64} (h : limb = 0 → negative = false) :
    Normalized ⟨negative, [limb]⟩ :=
  ⟨by simp, .inl rfl, fun hlimbs => h (by simpa using hlimbs)⟩

lemma Normalized.topWord {a : Bignum} (h : Normalized a) (hlen : 1 < a.limbs.length) :
    (words a.limbs).getD (a.limbs.length - 1) 0 ≠ 0 := by
  intro hzero
  have hge := h.magnitude_ge hlen
  have hsplit : magnitude a.limbs = ofDigits radix ((words a.limbs).take (a.limbs.length - 1)) +
      radix ^ (a.limbs.length - 1) * (words a.limbs).getD (a.limbs.length - 1) 0 :=
    Radix.ofDigits_eq_take (by rw [length_words]; omega)
  have hlt := Radix.take_lt (k := a.limbs.length - 1) one_lt_radix (digits_words a.limbs)
    (by rw [length_words]; omega)
  rw [hzero] at hsplit
  omega

/-- The shift that `bignum_divmod_abs` takes from the divisor. -/
def normalizingShift (b : Bignum) : ℕ :=
  let top := (words b.limbs).getD (b.limbs.length - 1) 0
  if top ≠ 0 then countLeadingZeros top else 0

/-- The divisor as `bignum_divmod_abs` shifts it. -/
def shiftedDivisor (b : Bignum) : List ℕ :=
  if 0 < normalizingShift b then (shiftLimbsLeft (normalizingShift b) 0 (words b.limbs)).take b.limbs.length
  else words b.limbs

/-- The dividend as `bignum_divmod_abs` shifts it. -/
def shiftedDividend (a b : Bignum) : List ℕ :=
  if 0 < normalizingShift b then shiftLimbsLeft (normalizingShift b) 0 (words a.limbs)
  else words a.limbs ++ [0]

lemma scaled_operands {a b : Bignum} (ha : Normalized a) (hb : Normalized b) (hn : 1 < b.limbs.length)
    (hlt : magnitude b.limbs < magnitude a.limbs) :
    normalizingShift b ≤ 63 ∧ Radix.Scaled radix (2 ^ 63) (2 ^ normalizingShift b) (words a.limbs)
      (words b.limbs) (shiftedDividend a b) (shiftedDivisor b) := by
  have htop := hb.topWord hn
  have hshift : normalizingShift b = countLeadingZeros ((words b.limbs).getD (b.limbs.length - 1) 0) :=
    if_pos htop
  obtain ⟨hs, hS, hfits⟩ := countLeadingZeros_spec htop ((digits_words b.limbs).getD (by decide) _)
  rw [← hshift] at hs hS hfits
  have hdivisor : shiftedDivisor b = Radix.shiftedDivisor 64 (normalizingShift b) (words b.limbs) := by
    rw [shiftedDivisor, Radix.shiftedDivisor, shiftLimbsLeft_eq, length_words]
  have hdividend : shiftedDividend a b = Radix.shiftedDividend 64 (normalizingShift b) (words a.limbs) := by
    rw [shiftedDividend, Radix.shiftedDividend, shiftLimbsLeft_eq]
  have hlen : (words b.limbs).length ≤ (words a.limbs).length := by
    rw [length_words, length_words]
    exact length_le_of_magnitude_le ha hb (by omega)
  rw [hdivisor, hdividend]
  refine ⟨hs, Radix.scaled_of_shift (w := 64) (by omega) (digits_words _) (digits_words _) ?_ hlen ?_ ?_⟩
  · rw [length_words]
    omega
  · rwa [length_words]
  · rwa [length_words]

/-- The branch with several limbs on both sides. -/
lemma divmodAbs_long {a b : Bignum} (ha : Normalized a) (hb : Normalized b) (hn : 1 < b.limbs.length)
    (hlt : magnitude b.limbs < magnitude a.limbs) :
    let division := Radix.divLoop radix (shiftedDivisor b) (a.limbs.length - b.limbs.length + 1)
      (shiftedDividend a b)
    let rest := division.2.take b.limbs.length
    let q := bignumNormalize ⟨false, limbsOf division.1⟩
    let r := bignumNormalize ⟨false, limbsOf
      (if 0 < normalizingShift b then shiftLimbsRight (normalizingShift b) rest else rest)⟩
    Normalized q ∧ Normalized r ∧ magnitude q.limbs = magnitude a.limbs / magnitude b.limbs ∧
      magnitude r.limbs = magnitude a.limbs % magnitude b.limbs := by
  intro division rest q r
  obtain ⟨hs, hscaled⟩ := scaled_operands ha hb hn hlt
  have hun_len := hscaled.dividend_length
  have hlen := hscaled.length_le
  obtain ⟨hquot, hrem, hqdigits, hqlen, hrdigits, hrlen⟩ := hscaled.divLoop one_lt_radix
  simp only [length_words] at hquot hrem hqdigits hqlen hrdigits hrlen hun_len hlen
  have hrest : (if 0 < normalizingShift b then shiftLimbsRight (normalizingShift b) rest else rest) =
      Radix.shiftedRemainder 64 (normalizingShift b) rest := by
    rw [Radix.shiftedRemainder, shiftLimbsRight_eq]
  obtain ⟨hrs, hrs_digits, hrs_len⟩ := Radix.shiftedRemainder_spec (w := 64) (s := normalizingShift b)
    (by omega) (hrdigits.take b.limbs.length)
  have hqne : division.1 ≠ [] := by
    rw [← List.length_pos_iff]
    exact hqlen ▸ Nat.succ_pos _
  have hrne : Radix.shiftedRemainder 64 (normalizingShift b) rest ≠ [] := by
    rw [← List.length_pos_iff, hrs_len, List.length_take_of_le (by omega)]
    omega
  obtain ⟨hqnorm, hqmag⟩ := normalize_limbsOf false hqdigits hqne
  obtain ⟨hrnorm, hrmag⟩ := normalize_limbsOf false hrs_digits hrne
  simp only [q, r]
  rw [hrest]
  exact ⟨hqnorm, hrnorm, hqmag.trans hquot, hrmag.trans (hrs.trans hrem)⟩

/-- `bignum_div_limb` divides by one limb. -/
lemma divLimb_spec {a : Bignum} {d : UInt64} (ha : Normalized a) (hd : d.toNat ≠ 0) :
    Normalized (bignumDivLimb a d).1 ∧
      magnitude (bignumDivLimb a d).1.limbs = magnitude a.limbs / d.toNat ∧
      (bignumDivLimb a d).2.toNat = magnitude a.limbs % d.toNat := by
  have hpos := Nat.pos_of_ne_zero hd
  obtain ⟨hval, hrem, hdigits, hlen⟩ := Radix.divDigit_spec hpos (digits_words a.limbs)
  have hne : (Radix.divDigit radix d.toNat (words a.limbs)).1 ≠ [] := by
    rw [← List.length_pos_iff, hlen, length_words]
    exact List.length_pos_iff.2 ha.nonempty
  obtain ⟨hnorm, hmag⟩ := normalize_limbsOf false hdigits hne
  rw [Nat.add_comm] at hval
  have hunique := (Nat.div_mod_unique hpos).2 ⟨hval.symm, hrem⟩
  refine ⟨hnorm, hmag.trans hunique.1.symm, ?_⟩
  show (UInt64.ofNat _).toNat = _
  rw [UInt64.toNat_ofNat_of_lt' (Nat.lt_trans hrem d.toNat_lt)]
  exact hunique.2.symm

/-- `bignum_divmod_abs` divides the magnitudes. -/
lemma divmodAbs_spec {a b : Bignum} (ha : Normalized a) (hb : Normalized b)
    (hpos : magnitude b.limbs ≠ 0) :
    Normalized (bignumDivmodAbs a b).1 ∧ Normalized (bignumDivmodAbs a b).2 ∧
      magnitude (bignumDivmodAbs a b).1.limbs = magnitude a.limbs / magnitude b.limbs ∧
      magnitude (bignumDivmodAbs a b).2.limbs = magnitude a.limbs % magnitude b.limbs := by
  obtain ⟨bneg, blimbs⟩ := b
  simp only at hpos
  rcases blimbs with _ | ⟨d, _ | ⟨d', rest⟩⟩
  · exact absurd rfl hb.nonempty
  · -- one limb
    rw [magnitude_singleton] at hpos ⊢
    obtain ⟨hnorm, hquot, hrem⟩ := divLimb_spec ha hpos
    refine ⟨hnorm, normalized_of_one fun _ => rfl, hquot, ?_⟩
    rw [← hrem]
    exact magnitude_singleton _
  · have hcmp := compareAbs_eq ha hb
    simp only [bignumDivmodAbs]
    rcases hord : compare (magnitude a.limbs) (magnitude (d :: d' :: rest)) with _ | _ | _
    · have hlt := Nat.compare_eq_lt.1 hord
      rw [hcmp, hord]
      refine ⟨normalized_zero, ha.withSign fun _ => rfl, ?_, ?_⟩
      · rw [Nat.div_eq_of_lt hlt]
        simp [bignumAlloc]
      · rw [Nat.mod_eq_of_lt hlt]
    · have heq := Nat.compare_eq_eq.1 hord
      rw [hcmp, hord]
      refine ⟨normalized_of_one fun _ => rfl, normalized_zero, ?_, ?_⟩
      · rw [heq, Nat.div_self (Nat.pos_of_ne_zero hpos), magnitude_singleton]
        rfl
      · rw [heq, Nat.mod_self]
        simp [bignumAlloc]
    · have hlong := divmodAbs_long ha hb (by simp) (Nat.compare_eq_gt.1 hord)
      rw [hcmp, hord]
      dsimp only at hlong ⊢
      exact hlong

lemma div_spec {a b : Bignum} (ha : Normalized a) (hb : Normalized b) (hpos : toInt b ≠ 0) :
    Normalized (bignumDiv a b) ∧ toInt (bignumDiv a b) = (toInt a).tdiv (toInt b) := by
  have hmag : magnitude b.limbs ≠ 0 := by
    rw [← natAbs_toInt]
    omega
  obtain ⟨hqnorm, -, hq, -⟩ := divmodAbs_spec ha hb hmag
  rw [bignumDiv]
  generalize (bignumDivmodAbs a b).1 = q at *
  refine ⟨hqnorm.withSign fun hzero => by simp [hqnorm.isZero_iff.2 hzero], ?_⟩
  have hval : toInt { q with negative := a.negative != b.negative && !q.isZero } =
      if a.negative != b.negative then -(magnitude q.limbs : ℤ) else magnitude q.limbs := by
    by_cases hzero : q.isZero = true
    · simp [toInt, hqnorm.isZero_iff.1 hzero]
    · simp [toInt, hzero]
  rw [hval, hq, toInt, toInt]
  cases a.negative <;> cases b.negative <;> simp [Int.neg_tdiv, Int.tdiv_neg, Int.natCast_ediv]

lemma mod_spec {a b : Bignum} (ha : Normalized a) (hb : Normalized b) (hpos : toInt b ≠ 0) :
    Normalized (bignumMod a b) ∧ toInt (bignumMod a b) = (toInt a).tmod (toInt b) := by
  have hmag : magnitude b.limbs ≠ 0 := by
    rw [← natAbs_toInt]
    omega
  obtain ⟨-, hrnorm, -, hr⟩ := divmodAbs_spec ha hb hmag
  rw [bignumMod]
  generalize (bignumDivmodAbs a b).2 = r at *
  refine ⟨hrnorm.withSign fun hzero => by simp [hrnorm.isZero_iff.2 hzero], ?_⟩
  have hval : toInt { r with negative := a.negative && !r.isZero } =
      if a.negative then -(magnitude r.limbs : ℤ) else magnitude r.limbs := by
    by_cases hzero : r.isZero = true
    · simp [toInt, hrnorm.isZero_iff.1 hzero]
    · simp [toInt, hzero]
  rw [hval, hr, toInt, toInt, Int.ofNat_tmod]
  cases a.negative <;> cases b.negative <;> simp [Int.neg_tmod, Int.tmod_neg]

/-! ## Conversions -/

lemma ofInt64_spec (n : Int64) :
    Normalized (Bignum.ofInt64 n) ∧ toInt (Bignum.ofInt64 n) = n.toInt := by
  have hlo := n.le_toInt
  have hhi := n.toInt_lt
  rw [Bignum.ofInt64]
  split
  · have htoNat : ((-n.toInt).toNat.toUInt64).toNat = (-n.toInt).toNat := by
      rw [Nat.toUInt64, UInt64.toNat_ofNat']
      omega
    refine ⟨normalized_of_one fun hzero => ?_, ?_⟩
    · rw [← UInt64.toNat_inj, htoNat] at hzero
      have : (0 : UInt64).toNat = 0 := rfl
      omega
    · rw [toInt]
      simp only [magnitude_singleton, htoNat, if_true]
      omega
  · have htoNat : (n.toInt.toNat.toUInt64).toNat = n.toInt.toNat := by
      rw [Nat.toUInt64, UInt64.toNat_ofNat']
      omega
    refine ⟨normalized_of_one fun _ => rfl, ?_⟩
    rw [toInt]
    simp only [magnitude_singleton, htoNat, Bool.false_eq_true, if_false]
    omega

lemma toInt_toInt64 {val : UInt64} (h : val.toNat < 2 ^ 63) : val.toInt64.toInt = val.toNat := by
  show val.toBitVec.toInt = _
  rw [BitVec.toInt_eq_toNat_cond]
  have : val.toBitVec.toNat = val.toNat := rfl
  rw [if_pos (by omega), this]

/-- `eshkol_bignum_fits_int64` answers with the value just when it is in the range. -/
lemma fitsInt64_spec {a : Bignum} (ha : Normalized a) :
    (∃ n, bignumFitsInt64 a = some n ∧ n.toInt = toInt a) ∨
      (bignumFitsInt64 a = none ∧ (toInt a < -2 ^ 63 ∨ 2 ^ 63 ≤ toInt a)) := by
  obtain ⟨negative, limbs⟩ := a
  rcases limbs with _ | ⟨val, _ | ⟨val', rest⟩⟩
  · exact absurd rfl ha.nonempty
  · have hlt := val.toNat_lt
    have hmin : val = 0x8000000000000000 ↔ val.toNat = 2 ^ 63 := by
      rw [← UInt64.toNat_inj]
      rfl
    have hmax : val ≤ 0x7FFFFFFFFFFFFFFF ↔ val.toNat < 2 ^ 63 := by
      rw [UInt64.le_iff_toNat_le]
      exact Nat.lt_succ_iff.symm
    simp only [bignumFitsInt64, toInt, magnitude_singleton, hmin, hmax]
    cases negative with
    | true =>
      simp only [if_true]
      split
      · rename_i hval
        exact .inl ⟨_, rfl, by rw [hval]; decide⟩
      · split
        · rename_i hval
          refine .inl ⟨_, rfl, ?_⟩
          rw [Int64.toInt_neg, toInt_toInt64 hval, Int.bmod_eq_of_le (by omega) (by omega)]
        · exact .inr ⟨rfl, by omega⟩
    | false =>
      simp only [Bool.false_eq_true, if_false]
      split
      · rename_i hval
        exact .inl ⟨_, rfl, toInt_toInt64 hval⟩
      · exact .inr ⟨rfl, by omega⟩
  · have hge := ha.magnitude_ge (by simp)
    have hbound : radix ^ 1 ≤ radix ^ ((val :: val' :: rest).length - 1) :=
      Nat.pow_le_pow_right (by decide) (by simp)
    rw [pow_one] at hbound
    have hbig : radix ≤ magnitude (val :: val' :: rest) := Nat.le_trans hbound hge
    rw [radix_eq] at hbig
    refine .inr ⟨rfl, ?_⟩
    rw [toInt]
    simp only
    split <;> omega

/-! ## Powers -/

lemma powLoop_spec {fuel : ℕ} {result b : Bignum} {e : ℕ} (hresult : Normalized result)
    (hb : Normalized b) (he : e < 2 ^ fuel) :
    Normalized (bignumPowLoop fuel result b e) ∧
      toInt (bignumPowLoop fuel result b e) = toInt result * toInt b ^ e := by
  induction fuel generalizing result b e with
  | zero =>
    obtain rfl : e = 0 := by simpa using he
    exact ⟨hresult, by simp [bignumPowLoop]⟩
  | succ fuel ih =>
    rw [bignumPowLoop]
    by_cases hpos : 0 < e
    · rw [if_pos hpos]
      have hhalf : e >>> 1 = e / 2 := Nat.shiftRight_eq_div_pow e 1
      -- the result and the base of the next round
      have hresult' : Normalized (if e % 2 = 1 then bignumMul result b else result) ∧
          toInt (if e % 2 = 1 then bignumMul result b else result) = toInt result * toInt b ^ (e % 2) := by
        split
        · rename_i hodd
          rw [hodd, pow_one]
          exact mul_spec hresult hb
        · rename_i heven
          rw [show e % 2 = 0 by omega, pow_zero, mul_one]
          exact ⟨hresult, rfl⟩
      have hb' : Normalized (if 0 < e >>> 1 then bignumMul b b else b) ∧
          toInt (if 0 < e >>> 1 then bignumMul b b else b) ^ (e >>> 1) = (toInt b * toInt b) ^ (e >>> 1) := by
        split
        · obtain ⟨hnorm, hval⟩ := mul_spec hb hb
          exact ⟨hnorm, by rw [hval]⟩
        · rename_i hzero
          rw [show e >>> 1 = 0 by omega, pow_zero, pow_zero]
          exact ⟨hb, rfl⟩
      obtain ⟨hnorm, hval⟩ := ih hresult'.1 hb'.1 (e := e >>> 1) (by rw [hhalf]; omega)
      refine ⟨hnorm, ?_⟩
      simp only
      rw [hval, hresult'.2, hb'.2, hhalf, ← pow_two, ← pow_mul, mul_assoc, ← pow_add]
      congr 2
      omega
    · rw [if_neg hpos, show e = 0 by omega, pow_zero, mul_one]
      exact ⟨hresult, rfl⟩

lemma pow_spec {base : Bignum} (hbase : Normalized base) (exp : UInt64) :
    Normalized (bignumPow base exp) ∧ toInt (bignumPow base exp) = toInt base ^ exp.toNat := by
  obtain ⟨hone, hone_val⟩ := ofInt64_spec 1
  obtain ⟨hcopy, hcopy_val⟩ := mul_spec hbase hone
  have hval : toInt (bignumMul base (Bignum.ofInt64 1)) = toInt base := by
    rw [hcopy_val, hone_val]
    exact mul_one _
  rw [bignumPow]
  split
  · rename_i hexp
    rw [hexp]
    exact ⟨hone, by rw [hone_val]; exact (pow_zero _).symm⟩
  · split
    · rename_i hexp
      rw [hexp]
      exact ⟨hcopy, by rw [hval]; exact (pow_one _).symm⟩
    · have hexp : exp.toNat < 2 ^ 64 := exp.toNat_lt
      obtain ⟨hnorm, hloop⟩ := powLoop_spec hone hcopy hexp
      refine ⟨hnorm, ?_⟩
      rw [hloop, hone_val, hval]
      exact one_mul _

end Exact
