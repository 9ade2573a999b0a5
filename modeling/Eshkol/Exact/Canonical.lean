import Eshkol.Exact.TowerSpec
import Eshkol.Exact.NumberTextSpec
import Eshkol.Exact.BitwiseTheorems

/-!
# Results in canonical form

The entry points of the numeric tower, as calls. Each gives back canonical numbers, with three
exceptions where a result is not demoted: negation of integers, powers of `1` and `-1` with a negative
exponent, and fractions in a text.
-/

namespace Exact

open Hash (Bignum Rational)

variable {D : Type}

/-- An exact result is canonical. -/
def StaysCanonical (outcome : Outcome (Tagged D)) : Prop :=
  ∀ z, outcome = .ok z → (value z).isSome → Canonical z

lemma staysCanonical_ok {z : Tagged D} : StaysCanonical (.ok z) ↔ ((value z).isSome → Canonical z) := by
  constructor
  · exact fun h => h z rfl
  · rintro h z' ⟨⟩
    exact h

lemma staysCanonical_error (fault : Fault) : StaysCanonical (D := D) (.error fault) :=
  fun _ h => by cases h

lemma Canonical.stays {z : Tagged D} (h : Canonical z) : StaysCanonical (.ok z) :=
  staysCanonical_ok.2 fun _ => h

lemma staysCanonical_double (d : D) : StaysCanonical (.ok (.double d)) :=
  staysCanonical_ok.2 fun h => absurd h (by simp [value])

lemma staysCanonical_yields {outcome : Outcome (Tagged D)} {x : ℚ}
    (h : ∃ z, outcome = .ok z ∧ Represents z x) : StaysCanonical outcome := by
  obtain ⟨z, rfl, hz⟩ := h
  exact hz.canonical.stays

/-- A rational that is made is canonical unless it is an integer. -/
lemma staysCanonical_create {num denom : Int64} (hne : denom ≠ 0) :
    StaysCanonical (D := D) (.ok (.rational (rationalCreate num denom))) ↔ ¬ denom.toInt ∣ num.toInt := by
  have hne' : denom.toInt ≠ 0 := fun h => hne (Int64.toInt_inj.1 h)
  have hquot := create_spec num hne
  have hpos := hquot.reduced.den_pos
  rw [staysCanonical_ok, ← hquot.den_eq_one_iff hne']
  constructor
  · intro h
    have := (h rfl).2
    omega
  · intro h _
    exact ⟨hquot.reduced, by omega⟩

/-! ## Arithmetic -/

section arithmetic

variable [Doubles D] {x y : Tagged D} (hx : Canonical x) (hy : Canonical y)
include hx hy

/-- Results with a rational are canonical. -/
lemma rationalBinary_canonical (op : BinaryOp) : StaysCanonical (rationalBinaryTagged x y op) := by
  obtain ⟨p, hp⟩ := hx.represents
  obtain ⟨q, hq⟩ := hy.represents
  cases op with
  | add => exact staysCanonical_yields (rationalBinary_add hp hq)
  | sub => exact staysCanonical_yields (rationalBinary_sub hp hq)
  | mul => exact staysCanonical_yields (rationalBinary_mul hp hq)
  | div =>
    obtain ⟨-, fault, hfault⟩ | ⟨-, hdiv⟩ := rationalBinary_div hp hq
    · rw [hfault]
      exact staysCanonical_error fault
    · exact staysCanonical_yields hdiv
  | mod => exact staysCanonical_yields ⟨_, rationalBinary_other hp hq (by simp), represents_int64 0⟩
  | quotient => exact staysCanonical_yields ⟨_, rationalBinary_other hp hq (by simp), represents_int64 0⟩
  | remainder => exact staysCanonical_yields ⟨_, rationalBinary_other hp hq (by simp), represents_int64 0⟩
  | neg => exact staysCanonical_yields ⟨_, rationalBinary_other hp hq (by simp), represents_int64 0⟩

omit hx hy in
lemma bignumBinary_route (hr : (x.isRational || y.isRational) = true) (op : BinaryOp) :
    bignumBinaryTagged x y op = match op with
      | .add => rationalBinaryTagged x y .add
      | .sub => rationalBinaryTagged x y .sub
      | .mul => rationalBinaryTagged x y .mul
      | .div => rationalBinaryTagged x y .div
      | .neg => rationalBinaryTagged (.int64 0) x .sub
      | .mod => .ok (.int64 0)
      | .quotient => .ok (.int64 0)
      | .remainder => .ok (.int64 0) := by
  unfold bignumBinaryTagged
  rw [if_pos hr]
  cases op <;> rfl

/-- The negation of `x` fits 64 bits. -/
def NegationFits (x : Tagged D) : Prop := ∃ m : ℤ, value x = some (m : ℚ) ∧ InRange (-m)

/-- Only a negation that fits into int64 leaves a bignum too small. -/
lemma bignumBinary_canonical_iff (op : BinaryOp) :
    StaysCanonical (bignumBinaryTagged x y op) ↔
      (op = .neg → x.isRational = true ∨ y.isRational = true ∨ ¬ NegationFits x) := by
  by_cases hr : (x.isRational || y.isRational) = true
  · have hcond : op = .neg → x.isRational = true ∨ y.isRational = true ∨ ¬ NegationFits x := fun _ => by
      rw [Bool.or_eq_true] at hr
      tauto
    refine iff_of_true ?_ hcond
    have hrational := rationalBinary_canonical hx hy
    have hzero : StaysCanonical (D := D) (.ok (.int64 0)) := (represents_int64 0).canonical.stays
    rw [bignumBinary_route hr]
    cases op with
    | add => exact hrational .add
    | sub => exact hrational .sub
    | mul => exact hrational .mul
    | div => exact hrational .div
    | neg => exact rationalBinary_canonical (x := .int64 0) trivial hx .sub
    | mod => exact hzero
    | quotient => exact hzero
    | remainder => exact hzero
  · rw [Bool.or_eq_true, not_or, Bool.not_eq_true, Bool.not_eq_true] at hr
    obtain ⟨p, hp⟩ := hx.represents
    obtain ⟨q, hq⟩ := hy.represents
    obtain ⟨a, b, ⟨ha, rfl⟩, ⟨hb, rfl⟩, heq⟩ := bignumBinary_eq hp hq hr.1 hr.2
    have hdemote : ∀ {r : Bignum}, Normalized r → StaysCanonical (D := D) (.ok (demote r)) :=
      fun hr => (demote_spec hr).canonical.stays
    have hzero := isZero_iff_toInt hb
    have hnonzero : toInt b ≠ 0 → b.isZero = false := fun h => Bool.eq_false_iff.2 fun h' => h (hzero.1 h')
    rw [heq]
    cases op with
    | add => exact iff_of_true (hdemote (add_spec ha hb).1) (fun h => by cases h)
    | sub => exact iff_of_true (hdemote (sub_spec ha hb).1) (fun h => by cases h)
    | mul => exact iff_of_true (hdemote (mul_spec ha hb).1) (fun h => by cases h)
    | div =>
      refine iff_of_true ?_ (fun h => by cases h)
      by_cases hb0 : toInt b = 0
      · simp only [hzero.2 hb0, if_true]
        exact staysCanonical_error _
      · simp only [hnonzero hb0, Bool.false_eq_true, if_false]
        exact (resultToTagged_spec (createBn_spec ha hb hb0).reduced).canonical.stays
    | mod =>
      refine iff_of_true ?_ (fun h => by cases h)
      by_cases hb0 : toInt b = 0
      · simp only [bignumModulo, bignumModOrRaise, hzero.2 hb0, if_true]
        exact staysCanonical_error _
      · obtain ⟨m, hm, hnorm, -⟩ := bignumModulo_spec ha hb hb0
        simp only [hm]
        exact hdemote hnorm
    | quotient =>
      refine iff_of_true ?_ (fun h => by cases h)
      by_cases hb0 : toInt b = 0
      · simp only [hzero.2 hb0, if_true]
        exact staysCanonical_error _
      · simp only [hnonzero hb0, Bool.false_eq_true, if_false]
        exact hdemote (div_spec ha hb hb0).1
    | remainder =>
      refine iff_of_true ?_ (fun h => by cases h)
      by_cases hb0 : toInt b = 0
      · simp only [bignumModOrRaise, hzero.2 hb0, if_true]
        exact staysCanonical_error _
      · simp only [bignumModOrRaise, hnonzero hb0, Bool.false_eq_true, if_false]
        exact hdemote (mod_spec ha hb hb0).1
    | neg =>
      obtain ⟨hneg, hnegval⟩ := neg_spec ha
      have hfits : NegationFits x ↔ InRange (-toInt a) := by
        rw [NegationFits, hp.value]
        constructor
        · rintro ⟨m, hm, hrange⟩
          have : toInt a = m := by exact_mod_cast Option.some.inj hm
          rwa [this]
        · exact fun h => ⟨toInt a, rfl, h⟩
      simp only [hr.1, hr.2, hfits, Bool.false_eq_true, false_or, forall_const]
      rw [staysCanonical_ok, ← hnegval]
      exact ⟨fun h => (h rfl).2, fun h _ => ⟨hneg, h⟩⟩

end arithmetic

/-! ## Integers -/

section integers

variable {x y : Tagged D} (hx : Canonical x) (hy : Canonical y)
include hx

/-- An operand is a bignum, or what is no exact integer. -/
lemma toBignum_cases : (∃ a, toBignum x = some a ∧ taggedToBignum x = some (.ok a) ∧ Normalized a ∧
      value x = some (toInt a : ℚ)) ∨
    (toBignum x = none ∧ taggedToBignum x = some (.error .undefined) ∧ x.isRational = true) := by
  obtain ⟨p, hp⟩ := hx.represents
  by_cases hr : x.isRational = true
  · cases x with
    | rational q => exact .inr ⟨rfl, rfl, rfl⟩
    | int64 n => cases hr
    | bignum n => cases hr
    | double d => cases hr
    | false => cases hr
  · obtain ⟨a, ha, ha', hnorm, rfl⟩ := toBignum_spec hp (Bool.eq_false_iff.2 hr)
    exact .inl ⟨a, ha, ha', hnorm, hp.value⟩

include hy in
lemma gcd_canonical : StaysCanonical (gcdTagged x y) := by
  rw [gcdTagged]
  obtain ⟨a, -, ha, hna, -⟩ | ⟨-, ha, -⟩ := toBignum_cases hx
  · obtain ⟨b, -, hb, hnb, -⟩ | ⟨-, hb, -⟩ := toBignum_cases hy
    · rw [ha, hb]
      exact (demote_spec (bnGcd_spec hna hnb).1).canonical.stays
    · rw [ha, hb]
      exact staysCanonical_error _
  · obtain ⟨b, -, hb, -⟩ | ⟨-, hb, -⟩ := toBignum_cases hy
    · rw [ha, hb]
      exact staysCanonical_error _
    · rw [ha, hb]
      exact staysCanonical_error _

end integers

/-! ## Powers -/

lemma toNat_toUInt64 (e : Int64) :
    (e.toUInt64.toNat : ℤ) = if e.toInt < 0 then e.toInt + 2 ^ 64 else e.toInt := by
  have hlt := e.toUInt64.toNat_lt
  have heq : e.toInt = e.toBitVec.toInt := rfl
  rw [heq, BitVec.toInt_eq_toNat_cond, Int64.toNat_toBitVec]
  split <;> split <;> omega

/-- The exponent of `1 / base ^ |exp|`, which is right for the smallest integer too. -/
lemma toNat_negate {e : Int64} (h : e.toInt < 0) : (0 - e.toUInt64).toNat = e.toInt.natAbs := by
  have hval := toNat_toUInt64 e
  have hlo := e.le_toInt
  rw [if_pos h] at hval
  rw [UInt64.toNat_sub]
  simp only [UInt64.toNat_zero]
  omega

section powers

variable [Doubles D] {x : Tagged D} {a : Bignum} (hx : toBignum x = some a) (ha : Normalized a)
include hx ha

lemma pow_nonneg {e : Int64} (he : 0 ≤ e.toInt) :
    ∃ z, bignumPowTagged x (.int64 e) = .ok z ∧ Represents z ((toInt a : ℚ) ^ e.toInt.toNat) := by
  obtain ⟨hnorm, hval⟩ := Exact.pow_spec ha e.toUInt64
  have hexp : e.toUInt64.toNat = e.toInt.toNat := by
    have := toNat_toUInt64 e
    rw [if_neg (by omega)] at this
    omega
  rw [bignumPowTagged.eq_def, hx]
  simp only [Int64.le_iff_toInt_le, Int64.toInt_zero, he, if_true]
  refine ⟨_, rfl, ?_⟩
  rw [hexp] at hval
  have hrep := demote_spec (D := D) hnorm
  rw [hval] at hrep
  exact_mod_cast hrep

/-- A negative exponent: the power in the denominator if it fits, floating point if not. -/
lemma pow_neg_eq {e : Int64} (he : e.toInt < 0) :
    (toInt a = 0 ∧ bignumPowTagged x (.int64 e) = .error (.raised "expt: 0 raised to a negative power")) ∨
      (∃ denom : Int64, toInt a ≠ 0 ∧ denom.toInt = toInt a ^ e.toInt.natAbs ∧ denom ≠ 0 ∧
        bignumPowTagged x (.int64 e) = .ok (.rational (rationalCreate 1 denom))) ∨
      (¬ InRange (toInt a ^ e.toInt.natAbs) ∧ bignumPowTagged x (.int64 e) =
        .ok (.double (Doubles.pow (taggedToDouble x) (Doubles.ofInt64 e)))) := by
  obtain ⟨hnorm, hval⟩ := Exact.pow_spec ha (0 - e.toUInt64)
  rw [toNat_negate he] at hval
  have hexp : e.toInt.natAbs ≠ 0 := by omega
  rw [bignumPowTagged.eq_def, hx]
  simp only [Int64.le_iff_toInt_le, Int64.toInt_zero, show ¬ 0 ≤ e.toInt by omega, if_false]
  cases hfits : bignumFitsInt64 (bignumPow a (0 - e.toUInt64)) with
  | none => exact .inr (.inr ⟨hval ▸ (fitsInt64_eq_none hnorm).1 hfits, rfl⟩)
  | some denom =>
    have hdenom : denom.toInt = toInt a ^ e.toInt.natAbs := by
      rw [← hval, (fitsInt64_eq_some hnorm).1 hfits]
    have hzero : denom = 0 ↔ toInt a = 0 := by
      rw [← Int64.toInt_inj, hdenom, Int64.toInt_zero, pow_eq_zero_iff hexp]
    by_cases ha0 : toInt a = 0
    · exact .inl ⟨ha0, if_pos (hzero.2 ha0)⟩
    · have hne : denom ≠ 0 := fun h => ha0 (hzero.1 h)
      exact .inr (.inl ⟨denom, ha0, hdenom, hne, if_neg hne⟩)

end powers

/-- The reciprocal of `1` or `-1`. -/
def UnitReciprocal (base exponent : Tagged D) : Prop :=
  (value base = some 1 ∨ value base = some (-1)) ∧ ∃ e : Int64, exponent = .int64 e ∧ e.toInt < 0

/-- Only reciprocals of ±1 are not canonical. -/
lemma pow_canonical_iff [Doubles D] {x y : Tagged D} (hx : Canonical x) :
    StaysCanonical (bignumPowTagged x y) ↔ ¬ UnitReciprocal x y := by
  have hother : (∀ e, y ≠ .int64 e) → bignumPowTagged x y =
      .ok (.double (Doubles.pow (taggedToDouble x) (exponentToDouble y))) := by
    intro hy
    rw [bignumPowTagged.eq_def]
    cases y with
    | int64 e => exact absurd rfl (hy e)
    | _ => cases toBignum x <;> rfl
  by_cases hy : ∀ e, y ≠ .int64 e
  · rw [hother hy]
    exact iff_of_true (staysCanonical_double _) fun ⟨_, e, he, _⟩ => hy e he
  · simp only [not_forall, not_not] at hy
    obtain ⟨e, rfl⟩ := hy
    obtain ⟨a, ha, -, hnorm, hval⟩ | ⟨hnone, -, hr⟩ := toBignum_cases hx
    · have hunit : UnitReciprocal x (.int64 e) ↔ toInt a ∣ 1 ∧ e.toInt < 0 := by
        rw [UnitReciprocal, hval, Option.some.injEq, Option.some.injEq, ← isUnit_iff_dvd_one, Int.isUnit_iff]
        norm_cast
        simp
      rw [hunit]
      by_cases he : 0 ≤ e.toInt
      · exact iff_of_true (staysCanonical_yields (pow_nonneg ha hnorm he)) fun h => by omega
      · obtain ⟨hzero, heq⟩ | ⟨denom, -, hdenom, hne, heq⟩ | ⟨hrange, heq⟩ :=
          pow_neg_eq ha hnorm (by omega : e.toInt < 0)
        · rw [heq, hzero]
          exact iff_of_true (staysCanonical_error _) fun h => by simp at h
        · rw [heq, staysCanonical_create hne, hdenom, show Int64.toInt 1 = 1 from rfl,
            ← isUnit_iff_dvd_one, ← isUnit_iff_dvd_one, isUnit_pow_iff (by omega)]
          simp [show e.toInt < 0 by omega]
        · rw [heq]
          refine iff_of_true (staysCanonical_double _) fun h => hrange ?_
          rcases Int.isUnit_iff.1 (isUnit_iff_dvd_one.2 h.1) with hone | hone
          · rw [hone, one_pow]
            decide
          · rcases neg_one_pow_eq_or ℤ e.toInt.natAbs with hpow | hpow <;>
            · rw [hone, hpow]
              decide
    · rw [bignumPowTagged.eq_def, hnone]
      refine iff_of_true (staysCanonical_double _) fun h => ?_
      have hint : ∃ m : ℤ, value x = some (m : ℚ) := by
        rcases h.1 with hval | hval
        · exact ⟨1, by rw [hval]; rfl⟩
        · exact ⟨-1, by rw [hval]; rfl⟩
      obtain ⟨m, hm⟩ := hint
      have := isRational_of_int ⟨hx, hm⟩
      simp [hr] at this

/-! ## Bits -/

lemma bitwise_canonical (op : UInt64 → UInt64 → UInt64) (a b : Bignum) :
    Canonical (D := D) (demote (bignumBitwise op a b)) := by
  rw [bignumBitwise, fromTwosComplement]
  refine demote_trim (List.ne_nil_of_length_pos ?_)
  split <;> simp [length_signExtended]

lemma bitwiseNot_canonical {a : Bignum} (ha : Normalized a) :
    Canonical (D := D) (demote (bignumBitwiseNot a)) := by
  obtain ⟨hone, -⟩ := ofInt64_spec 1
  rw [bignumBitwiseNot]
  split
  · exact (demote_spec (sub_spec (neg_spec ha).1 hone).1).canonical
  · exact (demote_spec (neg_spec (add_spec ha hone).1).1).canonical

lemma shift_canonical {a r : Bignum} {count : Int64} (h : bignumShift a count = some r) :
    Canonical (D := D) (demote r) := by
  have hint : ∀ n, Canonical (D := D) (demote (Bignum.ofInt64 n)) := fun n =>
    (demote_spec (ofInt64_spec n).1).canonical
  have hbits : ∀ n : ℕ, n % 64 ≤ 64 := fun n => by omega
  rw [bignumShift] at h
  split at h
  · cases h
    exact hint 0
  · split at h
    · simp only at h
      split at h
      · cases h
      · cases h
        refine demote_trim (List.ne_nil_of_length_pos ?_)
        obtain ⟨-, -, hlen⟩ := shiftLimbsLeft_spec (hbits count.toInt.toNat)
          (by positivity : 0 < 2 ^ (count.toInt.toNat % 64)) (digits_words a.limbs)
        split
        · simp
        · rw [length_limbsOf, List.length_append, hlen]
          omega
    · split at h
      · cases h
      · simp only at h
        split at h
        · cases h
          split
          · exact hint _
          · exact hint _
        · rename_i hlen
          have hne : (if count.toInt.natAbs % 64 = 0
              then (words a.limbs).drop (toUInt32 (count.toInt.natAbs / 64))
              else shiftLimbsRight (count.toInt.natAbs % 64)
                ((words a.limbs).drop (toUInt32 (count.toInt.natAbs / 64)))) ≠ [] := by
            refine List.ne_nil_of_length_pos ?_
            obtain ⟨-, -, hlen⟩ := shiftLimbsRight_spec (hbits count.toInt.natAbs)
              ((digits_words a.limbs).drop (toUInt32 (count.toInt.natAbs / 64)))
            split <;> simp [hlen] <;> omega
          cases h
          by_cases hminus : (a.negative && Bignum.isZero ⟨a.negative, trimLimbs (limbsOf
              (if count.toInt.natAbs % 64 = 0
                then (words a.limbs).drop (toUInt32 (count.toInt.natAbs / 64))
                else shiftLimbsRight (count.toInt.natAbs % 64)
                  ((words a.limbs).drop (toUInt32 (count.toInt.natAbs / 64)))))⟩) = true
          · rw [if_pos hminus]
            exact hint _
          · rw [if_neg hminus]
            exact demote_trim (by simpa [limbsOf] using hne)

/-- Bitwise results are canonical. -/
lemma bitwiseTagged_canonical {x y : Tagged D} (hx : Canonical x) (op : BitwiseOp) :
    StaysCanonical (bignumBitwiseTagged x y op) := by
  have hzero : StaysCanonical (D := D) (.ok (.int64 0)) := (represents_int64 0).canonical.stays
  cases op with
  | and | or | xor =>
    rw [bignumBitwiseTagged.eq_def]
    simp only
    split
    · exact (bitwise_canonical _ _ _).stays
    · exact hzero
  | not =>
    rw [bignumBitwiseTagged]
    obtain ⟨a, ha, -, hnorm, -⟩ | ⟨hnone, -⟩ := toBignum_cases hx
    · simp only [ha]
      exact (bitwiseNot_canonical hnorm).stays
    · simp only [hnone]
      exact hzero
  | shift =>
    rw [bignumBitwiseTagged.eq_def]
    simp only
    split
    · split
      · rename_i r hr
        exact (shift_canonical hr).stays
      · exact staysCanonical_error _
    · exact hzero

/-! ## Texts -/

lemma isDigit_iff (c : UInt8) : isDigit c = true ↔ ∃ d, digitOf 10 c = some d := by
  have htable : ∀ n < 256, isDigit (UInt8.ofNat n) = (digitOf 10 (UInt8.ofNat n)).isSome := by
    decide +kernel
  have hc := htable c.toNat c.toNat_lt
  rw [UInt8.ofNat_toNat] at hc
  rw [hc, Option.isSome_iff_exists]

/-- No syntax marker is a digit. -/
lemma scanDecimal_digit {c : UInt8} (h : isDigit c = true) (p : List UInt8) :
    scanDecimal (c :: p) = scanDecimal p := by
  have hne : ∀ m : UInt8, isDigit m = false → (c == m) = false := by
    intro m hm
    rw [beq_eq_false_iff_ne]
    rintro rfl
    simp [h] at hm
  rw [scanDecimal, hne _ (by decide), hne _ (by decide), hne _ (by decide), hne _ (by decide), h]
  rfl

/-- The scan stops at a slash after digits, or has seen only digits. -/
lemma scanDecimal_split (p : List UInt8) :
    scanDecimal p = .float ∨ scanDecimal p = .other ∨
      (scanDecimal p = .integer ∧ ∃ digits, p.mapM (digitOf 10) = some digits) ∨
      ∃ front rest digits, p = front ++ '/'.toUInt8 :: rest ∧ front.mapM (digitOf 10) = some digits ∧
        scanDecimal p = .fraction ('/'.toUInt8 :: rest) := by
  induction p with
  | nil => exact .inr (.inr (.inl ⟨rfl, [], rfl⟩))
  | cons c p ih =>
    rw [scanDecimal]
    split
    · rename_i hc
      obtain rfl := beq_iff_eq.1 hc
      exact .inr (.inr (.inr ⟨[], p, [], rfl, rfl, rfl⟩))
    · split
      · exact .inl rfl
      · split
        · exact .inr (.inl rfl)
        · rename_i hdigit
          obtain ⟨d, hd⟩ := (isDigit_iff c).1 (by simpa using hdigit)
          obtain hscan | hscan | ⟨hscan, ds, hds⟩ | ⟨front, rest, ds, rfl, hds, hscan⟩ := ih
          · exact .inl hscan
          · exact .inr (.inl hscan)
          · exact .inr (.inr (.inl ⟨hscan, d :: ds, by rw [List.mapM_cons, hd, hds]; rfl⟩))
          · exact .inr (.inr (.inr
              ⟨c :: front, rest, d :: ds, rfl, by rw [List.mapM_cons, hd, hds]; rfl, hscan⟩))

/-- Only digits come before the slash. -/
lemma scanDecimal_fraction {front rest : List UInt8} {digits : List ℕ}
    (h : front.mapM (digitOf 10) = some digits) :
    scanDecimal (front ++ '/'.toUInt8 :: rest) = .fraction ('/'.toUInt8 :: rest) := by
  induction front generalizing digits with
  | nil => rfl
  | cons c front ih =>
    obtain ⟨d, ds, hc, hfront, -⟩ := mapM_cons_eq_some h
    rw [List.cons_append, scanDecimal_digit ((isDigit_iff c).2 ⟨d, hc⟩), ih hfront]

/-- A decimal number starts with a digit or a point, after a sign. -/
def StartsDecimal (start : List UInt8) : Prop :=
  ∃ c rest, (readSign start).2 = c :: rest ∧ (isDigit c || c == '.'.toUInt8) = true

lemma StartsDecimal.dropSpaces {start : List UInt8} (h : StartsDecimal start) :
    start.dropWhile isSpace = start := by
  obtain ⟨c, rest, hsign, hc⟩ := h
  have htable : ∀ n < 256, isSpace (UInt8.ofNat n) = true →
      (isDigit (UInt8.ofNat n) || UInt8.ofNat n == '.'.toUInt8 || UInt8.ofNat n == '-'.toUInt8 ||
        UInt8.ofNat n == '+'.toUInt8) = false := by decide +kernel
  cases start with
  | nil => rfl
  | cons c' start =>
    refine List.dropWhile_cons_of_neg fun hspace => ?_
    have hc' := htable c'.toNat c'.toNat_lt (by rwa [UInt8.ofNat_toNat])
    rw [UInt8.ofNat_toNat] at hc'
    simp only [Bool.or_eq_false_iff] at hc'
    rw [readSign, hc'.1.2, hc'.2] at hsign
    obtain ⟨rfl, -⟩ := List.cons.inj hsign
    simp [hc'.1.1] at hc

lemma s2nDecimal_eq [Doubles D] {start : List UInt8} (h : StartsDecimal start) :
    s2nDecimal (D := D) start = s2nLiteral start (scanDecimal (readSign start).2) := by
  obtain ⟨c, rest, hsign, hc⟩ := h
  rw [s2nDecimal, hsign]
  simp only
  rw [if_neg]
  rw [Bool.or_eq_true] at hc
  rcases hc with hc | hc
  · simp [hc]
  · simp [beq_iff_eq.1 hc]

lemma s2nDecimal_of_not [Doubles D] {start : List UInt8} (h : ¬ StartsDecimal start) :
    s2nDecimal (D := D) start = .false := by
  rw [s2nDecimal]
  split
  · rfl
  · rename_i c p hsign
    rw [if_pos]
    by_contra hc
    refine h ⟨c, p, hsign, ?_⟩
    simpa [Bool.or_eq_true, or_iff_not_imp_left] using hc

/-- The text is `num / denom`, as `strtoll` reads the parts. A decimal fraction has no blanks around
it. -/
def IsFraction (start : List UInt8) (radix : ℕ) (num denom : Int64) : Prop :=
  ∃ rest endptr, start ≠ '/'.toUInt8 :: rest ∧ denom ≠ 0 ∧
    strtoll start radix = ⟨num, '/'.toUInt8 :: rest, false⟩ ∧ strtoll rest radix = ⟨denom, endptr, false⟩ ∧
    if radix = 10 then endptr = [] ∧ start.dropWhile isSpace = start else endptr.dropWhile isBlank = []

section texts

variable [Doubles D] {start : List UInt8}

lemma s2nDecimal_fraction {num denom : Int64} (h : IsFraction start 10 num denom) :
    s2nDecimal (D := D) start = .rational (rationalCreate num denom) := by
  obtain ⟨rest, endptr, hne, hdenom, hnum, hden, hend⟩ := h
  rw [if_pos rfl] at hend
  obtain ⟨front, digits, hsign, hdigits, hdne⟩ :=
    strtoll_moved hend.2 (by rw [hnum]; exact hne.symm)
  rw [hnum] at hsign
  have hstarts : StartsDecimal start := by
    cases front with
    | nil =>
      cases hdigits
      exact absurd rfl hdne
    | cons c front =>
      obtain ⟨d, -, hc, -⟩ := mapM_cons_eq_some hdigits
      exact ⟨c, _, hsign, by rw [(isDigit_iff c).2 ⟨d, hc⟩]; rfl⟩
  rw [s2nDecimal_eq hstarts, hsign, scanDecimal_fraction hdigits, s2nLiteral]
  simp only [List.tail_cons, hnum, hden, hend.1]
  simp [hdenom]

lemma s2nDecimal_cases (start : List UInt8) :
    value (s2nDecimal (D := D) start) = none ∨ Canonical (s2nDecimal (D := D) start) ∨
      ∃ num denom, IsFraction start 10 num denom ∧
        s2nDecimal (D := D) start = .rational (rationalCreate num denom) := by
  by_cases hstarts : StartsDecimal start
  swap
  · rw [s2nDecimal_of_not hstarts]
    exact .inl rfl
  have hspace := hstarts.dropSpaces
  generalize hz : s2nDecimal (D := D) start = z
  rw [s2nDecimal_eq hstarts] at hz
  obtain hscan | hscan | ⟨hscan, digits, hdigits⟩ | ⟨front, rest, digits, hsign, hdigits, hscan⟩ :=
    scanDecimal_split (readSign start).2
  · rw [hscan, s2nLiteral] at hz
    simp only at hz
    split at hz <;> exact .inl (hz ▸ rfl)
  · rw [hscan, s2nLiteral] at hz
    exact .inl (hz ▸ rfl)
  · -- all digits: a bignum is read only when 64 bits are exceeded
    obtain ⟨c, tail, hsign, -⟩ := hstarts
    have hne : digits ≠ [] := by
      rintro rfl
      rw [hsign] at hdigits
      obtain ⟨_, _, _, _, hnil⟩ := mapM_cons_eq_some hdigits
      cases hnil
    obtain ⟨-, herange⟩ := strtoll_digits hspace (List.append_nil _).symm hdigits hne (by simp)
    obtain ⟨bn, hbn, hnorm, hval⟩ := bignumFromString_spec hdigits (by simp [hsign])
    rw [hscan, s2nLiteral] at hz
    split at hz
    · exact .inr (.inl (hz ▸ trivial))
    · split at hz
      · rename_i hover
        rw [hbn] at hz
        subst hz
        refine .inr (.inl ⟨hnorm, fun hrange => ?_⟩)
        rw [hval] at hrange
        have := herange.1 hover
        rw [InRange] at hrange
        omega
      · exact .inl (hz ▸ rfl)
  · rw [hscan, s2nLiteral] at hz
    by_cases hcond : ((strtoll start 10).endptr == '/'.toUInt8 :: rest && !(strtoll start 10).erange &&
        (strtoll ('/'.toUInt8 :: rest).tail 10).endptr.isEmpty &&
        !(strtoll ('/'.toUInt8 :: rest).tail 10).erange &&
        (strtoll ('/'.toUInt8 :: rest).tail 10).value != 0) = true
    · rw [if_pos hcond] at hz
      simp only [List.tail_cons, Bool.and_eq_true, beq_iff_eq, Bool.not_eq_true', List.isEmpty_iff, bne_iff_ne] at hcond
      obtain ⟨⟨⟨⟨hnend, hnrange⟩, hdend⟩, hdrange⟩, hdne⟩ := hcond
      refine .inr (.inr ⟨_, _, ⟨rest, [], ?_, hdne, ?_, ?_, ?_⟩, hz.symm⟩)
      · rintro rfl
        obtain ⟨c, tail, hsign', hc⟩ := hstarts
        have hslash : (readSign ('/'.toUInt8 :: rest)).2 = '/'.toUInt8 :: rest := rfl
        obtain ⟨rfl, -⟩ := List.cons.inj (hslash.symm.trans hsign')
        revert hc
        decide
      · rw [← hnend, ← hnrange]
      · rw [← hdend, ← hdrange]
      · rw [if_pos rfl]
        exact ⟨rfl, hspace⟩
    · rw [if_neg hcond] at hz
      exact .inl (hz ▸ rfl)

end texts

lemma dropWhile_slash {front rest : List UInt8} (h : '/'.toUInt8 ∉ front) :
    (front ++ '/'.toUInt8 :: rest).dropWhile (· != '/'.toUInt8) = '/'.toUInt8 :: rest := by
  have hfront : ∀ c ∈ front, (c != '/'.toUInt8) = true := by
    intro c hc
    rw [bne_iff_ne]
    rintro rfl
    exact h hc
  rw [List.dropWhile_append_of_pos hfront]
  exact List.dropWhile_cons_of_neg (by simp)

lemma s2nRadixInt_fraction {start : List UInt8} {radix : ℕ} {num denom : Int64} (hradix : radix ≠ 10)
    (h : IsFraction start radix num denom) :
    s2nRadixInt (D := D) start radix = .rational (rationalCreate num denom) := by
  obtain ⟨rest, endptr, hne, hdenom, hnum, hden, hend⟩ := h
  rw [if_neg hradix] at hend
  obtain ⟨front, hstart, hslash⟩ := strtoll_split start radix
  rw [hnum] at hstart
  have hdrop : start.dropWhile (· != '/'.toUInt8) = '/'.toUInt8 :: rest := by
    rw [hstart]
    exact dropWhile_slash hslash
  have hrest : rest ≠ [] := by
    rintro rfl
    have : strtoll [] radix = ⟨0, [], false⟩ := rfl
    rw [this] at hden
    exact hdenom (Strtoll.mk.inj hden).1.symm
  rw [s2nRadixInt]
  simp only [hdrop, hnum, hden, hend, List.tail_cons]
  simp [hdenom, hne.symm, hrest]

lemma s2nRadixInt_cases (start : List UInt8) {radix : ℕ} (hradix : radix ≠ 10) :
    value (s2nRadixInt (D := D) start radix) = none ∨ Canonical (s2nRadixInt (D := D) start radix) ∨
      ∃ num denom, IsFraction start radix num denom ∧
        s2nRadixInt (D := D) start radix = .rational (rationalCreate num denom) := by
  generalize hz : s2nRadixInt (D := D) start radix = z
  rw [s2nRadixInt] at hz
  simp only at hz
  split at hz
  · rename_i hslash
    split at hz
    · exact .inl (hz ▸ rfl)
    · rename_i hnum
      split at hz
      · exact .inl (hz ▸ rfl)
      · rename_i hden
        rw [Bool.not_eq_true'] at hslash
        simp only [Bool.or_eq_true, not_or, bne_iff_ne, ne_eq, not_not, beq_iff_eq, Bool.not_eq_true,
          Bool.not_eq_true', Bool.not_eq_false, List.isEmpty_iff] at hnum hden
        obtain ⟨⟨hnend, hnmoved⟩, hnrange⟩ := hnum
        obtain ⟨⟨⟨-, hdend⟩, hdrange⟩, hdne⟩ := hden
        obtain ⟨c, rest, hcons⟩ : ∃ c rest, start.dropWhile (· != '/'.toUInt8) = c :: rest :=
          List.exists_cons_of_ne_nil fun h => by simp [h] at hslash
        obtain rfl : c = '/'.toUInt8 := by
          have := List.head?_dropWhile_not (· != '/'.toUInt8) start
          rw [hcons] at this
          simpa using this
        rw [hcons] at hnend hz hdend hdrange hdne
        refine .inr (.inr ⟨_, _, ⟨rest, (strtoll rest radix).endptr, ?_, hdne, ?_, ?_, ?_⟩, hz.symm⟩)
        · rw [← hnend]
          exact fun h => hnmoved h.symm
        · rw [← hnend, ← hnrange]
        · rw [List.tail_cons, ← hdrange]
          rfl
        · rw [if_neg hradix]
          exact hdend
  · split at hz
    · exact .inl (hz ▸ rfl)
    · exact .inr (.inl (hz ▸ trivial))

/-- A parser that makes fractions rationals, and is canonical otherwise. -/
lemma parser_canonical_iff {start : List UInt8} {radix : ℕ} {z : Tagged D}
    (hcases : value z = none ∨ Canonical z ∨
      ∃ num denom, IsFraction start radix num denom ∧ z = .rational (rationalCreate num denom))
    (hfraction : ∀ num denom, IsFraction start radix num denom → z = .rational (rationalCreate num denom)) :
    StaysCanonical (.ok z) ↔
      ¬ ∃ num denom, IsFraction start radix num denom ∧ denom.toInt ∣ num.toInt := by
  have hcreate : ∀ num denom, IsFraction start radix num denom →
      (StaysCanonical (.ok z) ↔ ¬ denom.toInt ∣ num.toInt) := by
    intro num denom h
    obtain ⟨-, -, -, hne, -⟩ := id h
    rw [hfraction num denom h, staysCanonical_create hne]
  constructor
  · rintro hstays ⟨num, denom, h, hdvd⟩
    exact (hcreate num denom h).1 hstays hdvd
  · intro hnone
    obtain hval | hcanonical | ⟨num, denom, h, -⟩ := hcases
    · exact staysCanonical_ok.2 fun hsome => by simp [hval] at hsome
    · exact hcanonical.stays
    · exact (hcreate num denom h).2 fun hdvd => hnone ⟨num, denom, h, hdvd⟩

/-- The text is a fraction, and an integer. -/
def IntegralFraction (str : List UInt8) (radix : Int64) : Prop :=
  ∃ start r num denom, numberAndRadix str radix = some (start, r) ∧ 2 ≤ r.toInt ∧ r.toInt ≤ 36 ∧
    IsFraction start r.toInt.toNat num denom ∧ denom.toInt ∣ num.toInt

lemma stringToNumber_canonical_iff [Doubles D] (str : List UInt8) (radix : Int64) :
    StaysCanonical (D := D) (.ok (stringToNumberRadixTagged str radix)) ↔ ¬ IntegralFraction str radix := by
  have hfalse : StaysCanonical (D := D) (.ok .false) := staysCanonical_ok.2 fun h => by cases h
  rw [stringToNumberRadixTagged]
  cases hnumber : numberAndRadix str radix with
  | none =>
    refine iff_of_true hfalse ?_
    rintro ⟨start, r, -, -, hsome, -⟩
    rw [hnumber] at hsome
    cases hsome
  | some number =>
    obtain ⟨start, r⟩ := number
    have hintegral : IntegralFraction str radix ↔ (2 ≤ r.toInt ∧ r.toInt ≤ 36) ∧
        ∃ num denom, IsFraction start r.toInt.toNat num denom ∧ denom.toInt ∣ num.toInt := by
      constructor
      · rintro ⟨start', r', num, denom, hsome, hlo, hhi, hfraction, hdvd⟩
        rw [hnumber] at hsome
        cases hsome
        exact ⟨⟨hlo, hhi⟩, num, denom, hfraction, hdvd⟩
      · rintro ⟨⟨hlo, hhi⟩, num, denom, hfraction, hdvd⟩
        exact ⟨start, r, num, denom, hnumber, hlo, hhi, hfraction, hdvd⟩
    have hrange : (decide (r < 2) || decide (36 < r)) = true ↔ ¬ (2 ≤ r.toInt ∧ r.toInt ≤ 36) := by
      rw [Bool.or_eq_true, decide_eq_true_eq, decide_eq_true_eq, Int64.lt_iff_toInt_lt,
        Int64.lt_iff_toInt_lt, show Int64.toInt 2 = 2 from rfl, show Int64.toInt 36 = 36 from rfl]
      omega
    have hten : r = 10 ↔ r.toInt.toNat = 10 := by
      rw [← Int64.toInt_inj, show Int64.toInt 10 = 10 from rfl]
      omega
    simp only
    split
    · rename_i hout
      refine iff_of_true hfalse fun h => hrange.1 hout (hintegral.1 h).1
    · rename_i hin
      have hin' : 2 ≤ r.toInt ∧ r.toInt ≤ 36 := by
        by_contra h
        exact hin (hrange.2 h)
      rw [hintegral, and_iff_right hin']
      split
      · rename_i h10
        rw [hten.1 h10]
        exact parser_canonical_iff (s2nDecimal_cases start) fun _ _ => s2nDecimal_fraction
      · rename_i h10
        have hradix : r.toInt.toNat ≠ 10 := fun h => h10 (hten.2 h)
        exact parser_canonical_iff (s2nRadixInt_cases start hradix) fun _ _ => s2nRadixInt_fraction hradix

/-! ## All entry points -/

/-- A call of an entry point of the tower. -/
inductive Call (D : Type) where
  | binary (left right : Tagged D) (op : BinaryOp)
  | gcd (left right : Tagged D)
  | pow (base exponent : Tagged D)
  | bitwise (left right : Tagged D) (op : BitwiseOp)
  | rational (a b : Tagged D) (op : BinaryOp)
  | parse (str : List UInt8) (radix : Int64)

def Call.run [Doubles D] : Call D → Outcome (Tagged D)
  | .binary left right op => bignumBinaryTagged left right op
  | .gcd left right => gcdTagged left right
  | .pow base exponent => bignumPowTagged base exponent
  | .bitwise left right op => bignumBitwiseTagged left right op
  | .rational a b op => rationalBinaryTagged a b op
  | .parse str radix => .ok (stringToNumberRadixTagged str radix)

def Call.operands : Call D → List (Tagged D)
  | .binary left right _ => [left, right]
  | .gcd left right => [left, right]
  | .pow base exponent => [base, exponent]
  | .bitwise left right _ => [left, right]
  | .rational a b _ => [a, b]
  | .parse _ _ => []

/-- The calls whose result is an integer that is not demoted. -/
def Call.LeavesInteger : Call D → Prop
  | .binary left right op =>
    op = .neg ∧ left.isRational = false ∧ right.isRational = false ∧ NegationFits left
  | .pow base exponent => UnitReciprocal base exponent
  | .parse str radix => IntegralFraction str radix
  | _ => False

/-- Exact results are canonical, but for the integers that are not demoted. -/
theorem call_canonical_iff [Doubles D] (call : Call D) (h : ∀ x ∈ call.operands, Canonical x) :
    (∀ z, call.run = .ok z → (value z).isSome → Canonical z) ↔ ¬ call.LeavesInteger := by
  cases call with
  | binary left right op =>
    have hleft := h left (by simp [Call.operands])
    have hright := h right (by simp [Call.operands])
    refine (bignumBinary_canonical_iff hleft hright op).trans ?_
    simp only [Call.LeavesInteger, not_and, ← Bool.not_eq_true]
    tauto
  | gcd left right =>
    have hleft := h left (by simp [Call.operands])
    have hright := h right (by simp [Call.operands])
    exact iff_of_true (gcd_canonical hleft hright) id
  | pow base exponent => exact pow_canonical_iff (h base (by simp [Call.operands]))
  | bitwise left right op =>
    exact iff_of_true (bitwiseTagged_canonical (h left (by simp [Call.operands])) op) id
  | rational a b op =>
    have ha := h a (by simp [Call.operands])
    have hb := h b (by simp [Call.operands])
    exact iff_of_true (rationalBinary_canonical ha hb op) id
  | parse str radix => exact stringToNumber_canonical_iff str radix

/-- Binary64. No text is taken for a float, and what a misread object gives is left at zero. -/
instance : Doubles Float where
  ofInt64 n := n.toFloat
  ofBignum n := Float.ofInt (toInt n)
  ofRational q := Float.ofInt (ratNum q) / Float.ofInt (ratDen q)
  misread _ := 0
  pointer _ := 0
  add := Float.add
  sub := Float.sub
  mul := Float.mul
  div := Float.div
  pow := Float.pow
  isZero d := d == 0
  strtod str := (0, str)

theorem call_canonical_iff_half :
    (∀ x ∈ (Call.rational (.int64 1) (.int64 2) .div : Call Float).operands, Canonical x) ∧
      ((∀ z, (Call.rational (.int64 1) (.int64 2) .div : Call Float).run = .ok z → (value z).isSome →
        Canonical z) ↔ ¬ (Call.rational (.int64 1) (.int64 2) .div : Call Float).LeavesInteger) := by
  have hoperands : ∀ x ∈ (Call.rational (.int64 1) (.int64 2) .div : Call Float).operands, Canonical x := by
    intro x hx
    rcases List.mem_pair.1 hx with rfl | rfl <;> exact trivial
  exact ⟨hoperands, call_canonical_iff _ hoperands⟩

/-- The negation of `2^63` stays a bignum, though it is the smallest 64-bit integer. -/
theorem neg_two_pow_63_not_canonical :
    (∀ x ∈ (Call.binary (.bignum ⟨false, [0x8000000000000000]⟩) (.int64 0) .neg : Call Float).operands,
        Canonical x) ∧
      ¬ ∀ z, (Call.binary (.bignum ⟨false, [0x8000000000000000]⟩) (.int64 0) .neg : Call Float).run = .ok z →
        (value z).isSome → Canonical z := by
  have hval : ∀ negative, toInt ⟨negative, [0x8000000000000000]⟩ = if negative then -2 ^ 63 else 2 ^ 63 := by
    intro negative
    cases negative <;> simp [toInt]
  constructor
  · intro x hx
    rcases List.mem_pair.1 hx with rfl | rfl
    · refine ⟨⟨by simp, by simp, fun _ => rfl⟩, ?_⟩
      rw [hval]
      decide
    · exact trivial
  · intro h
    have hrange := (h (.bignum ⟨true, [0x8000000000000000]⟩) rfl rfl).2
    rw [hval] at hrange
    exact hrange (by decide)

end Exact
