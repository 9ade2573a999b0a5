import Eshkol.Exact.RationalSpec
import Eshkol.Exact.Tower

/-!
# Canonical numbers

An exact number is canonical when it has the least representation: 64 bits if it fits, a bignum if it
is another integer, a rational if it is no integer. Each operation on canonical operands is shown to
give the exact result, and to which representation.
-/

namespace Exact

open Hash (Bignum Rational)

variable {D : Type}

/-- The least representation of an exact number. -/
def Canonical : Tagged D → Prop
  | .int64 _ => True
  | .bignum n => Normalized n ∧ ¬ InRange (toInt n)
  | .rational q => Reduced q ∧ 1 < ratDen q
  | .double _ => False
  | .false => False

/-- The value of an exact number. -/
def value : Tagged D → Option ℚ
  | .int64 n => some n.toInt
  | .bignum n => some (toInt n)
  | .rational q => some (ratValue q)
  | .double _ => none
  | .false => none

/-- The canonical representation of `x`. -/
structure Represents (v : Tagged D) (x : ℚ) : Prop where
  canonical : Canonical v
  value : value v = some x

lemma Canonical.represents {v : Tagged D} (h : Canonical v) : ∃ x, Represents v x := by
  cases v with
  | int64 n => exact ⟨_, h, rfl⟩
  | bignum n => exact ⟨_, h, rfl⟩
  | rational q => exact ⟨_, h, rfl⟩
  | double d => exact h.elim
  | false => exact h.elim

lemma Canonical.isDouble {v : Tagged D} (h : Canonical v) : v.isDouble = false := by
  cases v with
  | double d => exact h.elim
  | int64 n => rfl
  | bignum n => rfl
  | rational q => rfl
  | false => rfl

lemma represents_int64 (n : Int64) : Represents (D := D) (.int64 n) n.toInt := ⟨trivial, rfl⟩

/-! ## Conversions -/

lemma demote_spec {r : Bignum} (hr : Normalized r) : Represents (D := D) (demote r) (toInt r) := by
  rw [demote]
  cases hfits : bignumFitsInt64 r with
  | some n =>
    rw [(fitsInt64_eq_some hr).1 hfits]
    exact represents_int64 n
  | none => exact ⟨⟨hr, (fitsInt64_eq_none hr).1 hfits⟩, rfl⟩

/-- Limbs that are only trimmed may hold a negative zero, which fits. -/
lemma demote_trim {negative : Bool} {limbs : List UInt64} (hne : limbs ≠ []) :
    Canonical (D := D) (demote ⟨negative, trimLimbs limbs⟩) := by
  have hnorm := (normalize_spec ⟨negative, limbs⟩ hne).1
  have heq : bignumNormalize ⟨negative, limbs⟩ =
      ⟨negative && trimLimbs limbs != [0], trimLimbs limbs⟩ := rfl
  by_cases hzero : trimLimbs limbs = [0]
  · rw [hzero]
    cases negative <;> exact trivial
  · rw [show (trimLimbs limbs != [0]) = true by simpa using hzero, Bool.and_true] at heq
    rw [← heq]
    exact (demote_spec hnorm).canonical

lemma ratDen_small_one {n d : Int64} : ratDen (.small n d) = 1 ↔ d = 1 := by
  rw [ratDen, ← Int64.toInt_inj]
  rfl

lemma resultToTagged_spec {r : Rational} (hr : Reduced r) :
    Represents (D := D) (rationalResultToTagged r) (ratValue r) := by
  have hpos := hr.den_pos
  -- of an integer the denominator goes
  have hone : ratDen r = 1 → ratValue r = ratNum r := fun h => by
    rw [ratValue, h]
    simp
  have hproper : ratDen r ≠ 1 → Represents (D := D) (.rational r) (ratValue r) := fun h =>
    ⟨⟨hr, by omega⟩, rfl⟩
  cases r with
  | small n d =>
    rw [rationalResultToTagged]
    split
    · rename_i hd
      rw [hone (ratDen_small_one.2 hd)]
      exact represents_int64 n
    · rename_i hd
      exact hproper fun h => hd (ratDen_small_one.1 h)
  | big n d =>
    obtain ⟨hn, hd, hrange⟩ := hr.represented
    have hequal := bnEqualsI64_iff hd 1
    rw [rationalResultToTagged]
    split
    · rename_i h
      have hden : toInt d = 1 := hequal.1 h
      have hd1 : InRange (toInt d) := by rw [hden]; decide
      rw [hone hden]
      exact ⟨⟨hn, fun h => hrange ⟨h, hd1⟩⟩, rfl⟩
    · rename_i h
      exact hproper fun hden => h (hequal.2 hden)

lemma exactToRational_spec {v : Tagged D} {x : ℚ} (h : Represents v x) :
    ∃ r, taggedExactToRational v = some r ∧ Reduced r ∧ ratValue r = x := by
  obtain ⟨hcanonical, hvalue⟩ := h
  cases v with
  | int64 n =>
    cases hvalue
    have hquot := create_spec n (by decide : (1 : Int64) ≠ 0)
    exact ⟨_, rfl, hquot.reduced, (hquot.value (by decide)).trans (by simp)⟩
  | bignum n =>
    cases hvalue
    obtain ⟨hone, hone_val⟩ := ofInt64_spec 1
    have hne : toInt (Bignum.ofInt64 1) ≠ 0 := by rw [hone_val]; decide
    have hquot := createBn_spec hcanonical.1 hone hne
    exact ⟨_, rfl, hquot.reduced, (hquot.value hne).trans (by rw [hone_val]; simp)⟩
  | rational q =>
    cases hvalue
    exact ⟨q, rfl, hcanonical.1, rfl⟩
  | double d => exact hcanonical.elim
  | false => exact hcanonical.elim

/-- What is not a rational is an integer. -/
lemma toBignum_spec {v : Tagged D} {x : ℚ} (h : Represents v x) (hr : v.isRational = false) :
    ∃ a, toBignum v = some a ∧ taggedToBignum v = some (.ok a) ∧ Normalized a ∧ x = toInt a := by
  obtain ⟨hcanonical, hvalue⟩ := h
  cases v with
  | int64 n =>
    cases hvalue
    obtain ⟨hn, hval⟩ := ofInt64_spec n
    exact ⟨_, rfl, rfl, hn, by rw [hval]⟩
  | bignum n =>
    cases hvalue
    exact ⟨n, rfl, rfl, hcanonical.1, rfl⟩
  | rational q => exact absurd hr (by simp [Tagged.isRational])
  | double d => exact hcanonical.elim
  | false => exact hcanonical.elim

/-- A canonical rational is no integer. -/
lemma isRational_of_int {v : Tagged D} {m : ℤ} (h : Represents v (m : ℚ)) : v.isRational = false := by
  obtain ⟨hcanonical, hvalue⟩ := h
  cases v with
  | rational q =>
    obtain ⟨hreduced, hden⟩ := hcanonical
    have hne : (ratDen q : ℚ) ≠ 0 := by exact_mod_cast hreduced.den_pos.ne'
    have hval : ratValue q = m := Option.some.inj hvalue
    rw [ratValue, div_eq_iff hne] at hval
    have hnum : ratNum q = m * ratDen q := by exact_mod_cast hval
    have hcoprime := hreduced.coprime
    rw [hnum, Int.gcd_mul_left_left] at hcoprime
    omega
  | int64 n => rfl
  | bignum n => rfl
  | double d => rfl
  | false => rfl

/-! ## Arithmetic -/

section arithmetic

variable [Doubles D] {x y : Tagged D} {p q : ℚ} (hx : Represents x p) (hy : Represents y q)
include hx hy

/-- Without doubles both operands become rationals. -/
lemma rationalBinary_eq : ∃ ra rb, (Reduced ra ∧ ratValue ra = p) ∧ (Reduced rb ∧ ratValue rb = q) ∧
    ∀ op, rationalBinaryTagged x y op = match op with
      | .add => .ok (rationalResultToTagged (rationalAdd ra rb))
      | .sub => .ok (rationalResultToTagged (rationalSub ra rb))
      | .mul => .ok (rationalResultToTagged (rationalMul ra rb))
      | .div => ((rationalDiv ra rb).mapError .raised).map rationalResultToTagged
      | _ => .ok (rationalResultToTagged (rationalCreate 0 1)) := by
  obtain ⟨ra, hra, hra_red, hra_val⟩ := exactToRational_spec hx
  obtain ⟨rb, hrb, hrb_red, hrb_val⟩ := exactToRational_spec hy
  refine ⟨ra, rb, ⟨hra_red, hra_val⟩, ⟨hrb_red, hrb_val⟩, fun op => ?_⟩
  rw [rationalBinaryTagged, hx.canonical.isDouble, hy.canonical.isDouble, hra, hrb]
  cases op <;> rfl

lemma rationalBinary_add : ∃ z, rationalBinaryTagged x y .add = .ok z ∧ Represents z (p + q) := by
  obtain ⟨ra, rb, ⟨hra, rfl⟩, ⟨hrb, rfl⟩, heq⟩ := rationalBinary_eq hx hy
  obtain ⟨hred, hval⟩ := rationalAdd_spec hra hrb
  exact ⟨_, heq .add, hval ▸ resultToTagged_spec hred⟩

lemma rationalBinary_sub : ∃ z, rationalBinaryTagged x y .sub = .ok z ∧ Represents z (p - q) := by
  obtain ⟨ra, rb, ⟨hra, rfl⟩, ⟨hrb, rfl⟩, heq⟩ := rationalBinary_eq hx hy
  obtain ⟨hred, hval⟩ := rationalSub_spec hra hrb
  exact ⟨_, heq .sub, hval ▸ resultToTagged_spec hred⟩

lemma rationalBinary_mul : ∃ z, rationalBinaryTagged x y .mul = .ok z ∧ Represents z (p * q) := by
  obtain ⟨ra, rb, ⟨hra, rfl⟩, ⟨hrb, rfl⟩, heq⟩ := rationalBinary_eq hx hy
  obtain ⟨hred, hval⟩ := rationalMul_spec hra hrb
  exact ⟨_, heq .mul, hval ▸ resultToTagged_spec hred⟩

lemma rationalBinary_div :
    (q = 0 ∧ ∃ fault, rationalBinaryTagged x y .div = .error fault) ∨
      (q ≠ 0 ∧ ∃ z, rationalBinaryTagged x y .div = .ok z ∧ Represents z (p / q)) := by
  obtain ⟨ra, rb, ⟨hra, rfl⟩, ⟨hrb, rfl⟩, heq⟩ := rationalBinary_eq hx hy
  obtain ⟨hzero, hdiv⟩ | ⟨r, hne, hdiv, hred, hval⟩ := rationalDiv_spec hra hrb
  · refine .inl ⟨hzero, .raised "rational division by zero", ?_⟩
    rw [heq .div, hdiv]
    rfl
  · refine .inr ⟨hne, _, ?_, hval ▸ resultToTagged_spec hred⟩
    rw [heq .div, hdiv]
    rfl

/-- Any other operation gives zero. -/
lemma rationalBinary_other {op : BinaryOp} (hop : op ∉ [.add, .sub, .mul, .div]) :
    rationalBinaryTagged x y op = .ok (.int64 0) := by
  obtain ⟨ra, rb, -, -, heq⟩ := rationalBinary_eq hx hy
  have hzero : rationalResultToTagged (D := D) (rationalCreate 0 1) = .int64 0 := rfl
  rw [heq]
  cases op <;> simp_all

/-! ## Integers -/

/-- Without doubles and rationals both operands become bignums. -/
lemma bignumBinary_eq (hxr : x.isRational = false) (hyr : y.isRational = false) :
    ∃ a b, (Normalized a ∧ p = toInt a) ∧ (Normalized b ∧ q = toInt b) ∧
      ∀ op, bignumBinaryTagged x y op = match op with
        | .add => .ok (demote (bignumAdd a b))
        | .sub => .ok (demote (bignumSub a b))
        | .mul => .ok (demote (bignumMul a b))
        | .div =>
          if b.isZero then .error (.raised "bignum division by zero")
          else .ok (rationalResultToTagged (rationalCreateBn a b))
        | .mod => (bignumModulo a b).map demote
        | .quotient =>
          if b.isZero then .error (.raised "bignum division by zero") else .ok (demote (bignumDiv a b))
        | .remainder => (bignumModOrRaise a b).map demote
        | .neg => .ok (.bignum (bignumNeg a)) := by
  obtain ⟨a, -, ha, hna, hva⟩ := toBignum_spec hx hxr
  obtain ⟨b, -, hb, hnb, hvb⟩ := toBignum_spec hy hyr
  refine ⟨a, b, ⟨hna, hva⟩, ⟨hnb, hvb⟩, fun op => ?_⟩
  unfold bignumBinaryTagged
  rw [hxr, hyr, hx.canonical.isDouble, hy.canonical.isDouble, ha, hb]
  cases op <;> rfl

end arithmetic

/-- The remainder, with the divisor's sign. -/
lemma bignumModulo_spec {a b : Bignum} (ha : Normalized a) (hb : Normalized b) (hne : toInt b ≠ 0) :
    ∃ m, bignumModulo a b = .ok m ∧ Normalized m ∧ toInt m = (toInt a).fmod (toInt b) := by
  have hzero : b.isZero = false := Bool.eq_false_iff.2 fun h => hne ((isZero_iff_toInt hb).1 h)
  obtain ⟨hr, hrv⟩ := mod_spec ha hb hne
  obtain ⟨hs, hsv⟩ := add_spec hr hb
  refine ⟨_, by rw [bignumModulo, bignumModOrRaise, hzero]; rfl, ?_⟩
  -- the remainder has the sign of the dividend
  have hsign : ¬ toInt b ∣ toInt a → (0 < (toInt a).tmod (toInt b) ↔ 0 ≤ toInt a) := by
    intro hdvd
    have hne0 : (toInt a).tmod (toInt b) ≠ 0 := fun h => hdvd (Int.dvd_of_tmod_eq_zero h)
    constructor
    · intro hpos
      by_contra hlt
      have := Int.tmod_nonneg (toInt b) (by omega : 0 ≤ -toInt a)
      rw [Int.neg_tmod] at this
      omega
    · intro hge
      have := Int.tmod_nonneg (toInt b) hge
      omega
  have hadd : (!(bignumMod a b).isZero && (bignumMod a b).negative != b.negative) = true ↔
      (toInt a).tmod (toInt b) ≠ 0 ∧ ((toInt a).tmod (toInt b) < 0 ↔ ¬ toInt b < 0) := by
    have hrneg := negative_iff hr
    have hbneg := negative_iff hb
    have hrzero := isZero_iff_toInt hr
    rw [hrv] at hrneg hrzero
    rw [← hrneg, ← hbneg, Ne, ← hrzero]
    cases (bignumMod a b).isZero <;> cases (bignumMod a b).negative <;> cases b.negative <;> simp
  rw [hrv] at hsv
  simp only [hadd]
  rw [Int.fmod_eq_tmod]
  by_cases hdvd : toInt b ∣ toInt a
  · have hzero := Int.tmod_eq_zero_of_dvd hdvd
    rw [if_neg fun h => h.1 hzero, if_pos hdvd]
    exact ⟨hr, by rw [hrv, add_zero]⟩
  · have hne0 : (toInt a).tmod (toInt b) ≠ 0 := fun h => hdvd (Int.dvd_of_tmod_eq_zero h)
    have hpos := hsign hdvd
    rw [if_neg hdvd]
    split
    · rename_i hcond
      refine ⟨hs, hsv.trans ?_⟩
      split <;> split <;> omega
    · rename_i hcond
      refine ⟨hr, hrv.trans ?_⟩
      split <;> split <;> omega

end Exact
