import Eshkol.Vm.Numbers

/-!
# What exact numbers mean

The rational number an exact number stands for, the values the VM builds, and what the helpers of
the handlers compute in these terms.
-/

namespace Vm.Numbers

open Rounding

/-! ## Values -/

def VmRational.value (r : VmRational) : ℚ := r.num / r.denom

def Number.value : Number → ℚ
  | .int i => i
  | .bignum n => n
  | .rational r => r.value

/-- In lowest terms, with a denominator that is not 1. -/
def VmRational.Normalized (r : VmRational) : Prop :=
  fitsInt64 r.num ∧ 1 < r.denom ∧ fitsInt64 r.denom ∧ Int.gcd r.num r.denom = 1

instance (r : VmRational) : Decidable r.Normalized := by
  unfold VmRational.Normalized
  infer_instance

/-- A `VAL_INT` is an `int64_t`, a `VAL_BIGNUM` is outside that range. -/
def Number.WellFormed : Number → Prop
  | .int i => fitsInt64 i
  | .bignum n => ¬ fitsInt64 n
  | .rational r => r.Normalized

instance : DecidablePred Number.WellFormed := fun v => by
  cases v <;> unfold Number.WellFormed <;> infer_instance

/-- An exact value of the VM. -/
structure ExactNumber where
  number : Number
  wellFormed : number.WellFormed

def ExactNumber.value (a : ExactNumber) : ℚ := a.number.value

/-- The outcome is an error, or an exact value with the property. -/
def Outcome.Gives (o : Outcome) (result : ℚ → Prop) : Prop :=
  match o with
  | .push v => v.WellFormed ∧ result v.value
  | .error => True
  | .float => False
  | .undefined => False

@[simp]
lemma gives_push {v : Number} {result : ℚ → Prop} :
    (Outcome.push v).Gives result ↔ v.WellFormed ∧ result v.value := Iff.rfl

@[simp]
lemma gives_error {result : ℚ → Prop} : Outcome.error.Gives result := trivial

@[simp]
lemma not_gives_float {result : ℚ → Prop} : ¬ Outcome.float.Gives result := id

@[simp]
lemma not_gives_undefined {result : ℚ → Prop} : ¬ Outcome.undefined.Gives result := id

lemma fitsInt64_iff {n : ℤ} : fitsInt64 n ↔ -2 ^ 63 ≤ n ∧ n ≤ 2 ^ 63 - 1 := by
  simp only [fitsInt64, Bool.and_eq_true, decide_eq_true_eq]
  omega

lemma VmRational.Normalized.value_ne_intCast {r : VmRational} (h : r.Normalized) (i : ℤ) :
    r.value ≠ i := by
  obtain ⟨_, hdenom, _, hgcd⟩ := h
  intro hvalue
  have hpos : (r.denom : ℚ) ≠ 0 := by
    exact_mod_cast (by omega : r.denom ≠ 0)
  have hnum : r.num = i * r.denom := by
    rw [VmRational.value, div_eq_iff hpos] at hvalue
    exact_mod_cast hvalue
  have hdvd : (Int.gcd r.num r.denom : ℤ) = r.denom.natAbs := by
    rw [hnum, Int.gcd_mul_left_left]
  omega

lemma VmRational.Normalized.value_ne_zero {r : VmRational} (h : r.Normalized) :
    r.value ≠ 0 := by
  have hne := h.value_ne_intCast 0
  rwa [Int.cast_zero] at hne

/-- A rational is smaller than any bignum: its denominator is at least 2. -/
lemma VmRational.Normalized.abs_value_lt {r : VmRational} (h : r.Normalized) :
    |r.value| < 2 ^ 63 := by
  obtain ⟨hnum, hdenom, _, _⟩ := h
  rw [fitsInt64_iff] at hnum
  have hone : (1 : ℚ) < r.denom := by exact_mod_cast hdenom
  have habs : |(r.num : ℚ)| ≤ 2 ^ 63 := by
    rw [abs_le]
    constructor
    · exact_mod_cast hnum.1
    · exact_mod_cast (by omega : r.num ≤ 2 ^ 63)
  rw [VmRational.value, abs_div, abs_of_pos (by linarith : (0 : ℚ) < r.denom),
    div_lt_iff₀ (by linarith)]
  linarith

/-! ## Doubles -/

@[simp]
lemma roundDouble_zero : roundDouble 0 = 0 := roundToBits_zero 52

lemma roundDouble_mono : Monotone roundDouble := roundToBits_mono 52

lemma roundDouble_neg (q : ℚ) : roundDouble (-q) = -roundDouble q := roundToBits_neg 52 q

lemma roundDouble_intCast {i : ℤ} (h : |i| < 2 ^ 53) : roundDouble i = i := roundToBits_intCast h

lemma roundDouble_two_pow (n : ℕ) : roundDouble (2 ^ n) = 2 ^ n := by
  rw [← zpow_natCast]
  exact roundToBits_two_zpow 52 n

lemma roundDouble_bounds {i : ℤ} (h : fitsInt64 i) :
    -2 ^ 63 ≤ roundDouble i ∧ roundDouble i ≤ 2 ^ 63 := by
  rw [fitsInt64_iff] at h
  constructor
  · have hle : (-(2 ^ 63 : ℚ)) ≤ i := by exact_mod_cast h.1
    have hround := roundDouble_mono hle
    rwa [roundDouble_neg, roundDouble_two_pow] at hround
  · have hle : (i : ℚ) ≤ 2 ^ 63 := by exact_mod_cast (by omega : i ≤ 2 ^ 63)
    have hround := roundDouble_mono hle
    rwa [roundDouble_two_pow] at hround

/-- A nonzero integer does not become zero. -/
lemma roundDouble_eq_zero {i : ℤ} : roundDouble i = 0 ↔ i = 0 := by
  constructor
  · intro h
    by_contra hi
    rcases lt_or_gt_of_ne hi with hneg | hpos
    · have hpos : (0 : ℚ) < -i := by exact_mod_cast neg_pos.2 hneg
      have hround := roundToBits_pos 52 hpos
      rw [roundToBits_neg] at hround
      rw [roundDouble] at h
      linarith
    · have hround := roundToBits_pos 52 (by exact_mod_cast hpos : (0 : ℚ) < i)
      rw [roundDouble] at h
      linarith
  · rintro rfl
    simp

@[simp]
lemma truncate_intCast (i : ℤ) : truncate i = i := by
  simp [truncate]

lemma abs_truncate_le (q : ℚ) : |(truncate q : ℚ)| ≤ |q| := by
  unfold truncate
  split_ifs with h
  · have hfloor : (0 : ℚ) ≤ ⌊q⌋ := by exact_mod_cast Int.floor_nonneg.2 h
    rw [abs_of_nonneg hfloor, abs_of_nonneg h]
    exact Int.floor_le q
  · push Not at h
    have hceil : (⌈q⌉ : ℚ) ≤ 0 := by exact_mod_cast Int.ceil_le.2 (by simpa using h.le)
    rw [abs_of_nonpos hceil, abs_of_neg h]
    linarith [Int.le_ceil q]

lemma castInt64_intCast {i : ℤ} : castInt64 i = if fitsInt64 i then some i else none := by
  rw [castInt64, truncate_intCast]

/-- What `number_val` pushes as an exact number. -/
lemma numberVal_gives_iff {d : ℚ} {result : ℚ → Prop} :
    (numberVal d).Gives result ↔ ∃ i : ℤ, d = i ∧ |i| < 10 ^ 15 ∧ result i := by
  have hsmall {i : ℤ} (hi : |i| < 10 ^ 15) : fitsInt64 i ∧ roundDouble i = i := by
    refine ⟨?_, roundDouble_intCast (by omega)⟩
    rw [abs_lt] at hi
    rw [fitsInt64_iff]
    omega
  constructor
  · intro h
    unfold numberVal castInt64 at h
    split at h
    · exact absurd h not_gives_undefined
    · rename_i i hi
      split at h
      · rename_i hd
        have htrunc : truncate d = i := by
          split at hi
          · exact Option.some.inj hi
          · cases hi
        have habs : |i| < 10 ^ 15 := by
          have hle := abs_truncate_le d
          rw [htrunc] at hle
          exact_mod_cast lt_of_le_of_lt hle hd.2
        refine ⟨i, ?_, habs, h.2⟩
        rw [hd.1, (hsmall habs).2]
      · exact absurd h not_gives_float
  · rintro ⟨i, rfl, hi, hresult⟩
    obtain ⟨hfits, hround⟩ := hsmall hi
    have habs : |(i : ℚ)| < 10 ^ 15 := by exact_mod_cast hi
    unfold numberVal
    rw [castInt64_intCast, if_pos hfits]
    dsimp only
    rw [if_pos ⟨hround.symm, habs⟩]
    exact ⟨hfits, hresult⟩

/-! ## Integer division -/

/-- The three divisions of R7RS, on rational numbers. -/
def quotient (a b : ℚ) : ℚ := truncate (a / b)
def remainder (a b : ℚ) : ℚ := a - b * truncate (a / b)
def modulo (a b : ℚ) : ℚ := a - b * ⌊a / b⌋

lemma floor_div_of_eq {x y k r : ℤ} (h : x = y * k + r) (hr : 0 ≤ r ∧ r < y ∨ y < r ∧ r ≤ 0) :
    ⌊(x : ℚ) / y⌋ = k := by
  have hy : (y : ℚ) ≠ 0 := by
    exact_mod_cast (by omega : y ≠ 0)
  have hdiv : (x : ℚ) / y = k + r / y := by
    rw [h]
    push_cast
    field_simp
  rw [hdiv, Int.floor_eq_iff]
  rcases hr with ⟨hr0, hry⟩ | ⟨hyr, hr0⟩
  · have hr0' : (0 : ℚ) ≤ r := by exact_mod_cast hr0
    have hry' : (r : ℚ) < y := by exact_mod_cast hry
    have hlow : 0 ≤ (r : ℚ) / y := div_nonneg hr0' (hr0'.trans hry'.le)
    have hhigh : (r : ℚ) / y < 1 := (div_lt_one (hr0'.trans_lt hry')).2 hry'
    constructor <;> linarith
  · have hr0' : (r : ℚ) ≤ 0 := by exact_mod_cast hr0
    have hry' : (y : ℚ) < r := by exact_mod_cast hyr
    have hlow : 0 ≤ (r : ℚ) / y := div_nonneg_of_nonpos hr0' (hry'.le.trans hr0')
    have hhigh : (r : ℚ) / y < 1 := (div_lt_one_of_neg (hry'.trans_le hr0')).2 hry'
    constructor <;> linarith

lemma natAbs_tmod_lt (x : ℤ) {y : ℤ} (hy : y ≠ 0) : (x.tmod y).natAbs < y.natAbs := by
  rw [Int.natAbs_tmod]
  exact Nat.mod_lt _ (Int.natAbs_pos.2 hy)

lemma tmod_nonpos {x : ℤ} (y : ℤ) (hx : x ≤ 0) : x.tmod y ≤ 0 := by
  have h := Int.tmod_nonneg y (neg_nonneg.2 hx)
  rw [Int.neg_tmod] at h
  omega

/-- Where the quotient is not negative, C's division rounds it down. -/
lemma floor_div_eq_tdiv {x y : ℤ} (h : 0 ≤ x ∧ 0 < y ∨ x ≤ 0 ∧ y < 0) :
    ⌊(x : ℚ) / y⌋ = x.tdiv y := by
  have hlt := natAbs_tmod_lt x (by omega : y ≠ 0)
  apply floor_div_of_eq (Int.mul_tdiv_add_tmod x y).symm
  rcases h with ⟨hx, hy⟩ | ⟨hx, hy⟩
  · have hr := Int.tmod_nonneg y hx
    omega
  · have hr := tmod_nonpos y hx
    omega

/-- C's division is the quotient cut off on the side of zero. -/
lemma truncate_div (x y : ℤ) : truncate ((x : ℚ) / y) = x.tdiv y := by
  rcases eq_or_ne y 0 with rfl | hy
  · simp [truncate]
  unfold truncate
  split_ifs with h
  · apply floor_div_eq_tdiv
    rcases div_nonneg_iff.1 h with ⟨hx, hy'⟩ | ⟨hx, hy'⟩
    · left
      exact ⟨by exact_mod_cast hx, lt_of_le_of_ne (by exact_mod_cast hy') hy.symm⟩
    · right
      exact ⟨by exact_mod_cast hx, lt_of_le_of_ne (by exact_mod_cast hy') hy⟩
  · -- the opposite quotient is positive, and is rounded down
    have hneg : (⌈(x : ℚ) / y⌉) = -⌊((-x : ℤ) : ℚ) / y⌋ := by
      push_cast
      rw [neg_div, Int.floor_neg, neg_neg]
    rw [hneg, floor_div_eq_tdiv, Int.neg_tdiv, neg_neg]
    push Not at h
    rcases div_neg_iff.1 h with ⟨hx, hy'⟩ | ⟨hx, hy'⟩
    · right
      have hx' : 0 < x := by exact_mod_cast hx
      have hy'' : y < 0 := by exact_mod_cast hy'
      omega
    · left
      have hx' : x < 0 := by exact_mod_cast hx
      have hy'' : 0 < y := by exact_mod_cast hy'
      omega

lemma quotient_intCast (x y : ℤ) : quotient x y = x.tdiv y := by
  rw [quotient, truncate_div]

lemma remainder_intCast (x y : ℤ) : remainder x y = x.tmod y := by
  have h : ((y * x.tdiv y + x.tmod y : ℤ) : ℚ) = x := by rw [Int.mul_tdiv_add_tmod]
  push_cast at h
  rw [remainder, truncate_div]
  linarith

/-- C's remainder, moved to the sign of the divisor. -/
def adjustedRemainder (x y : ℤ) : ℤ :=
  if x.tmod y ≠ 0 ∧ (x.tmod y).sign ≠ y.sign then x.tmod y + y else x.tmod y

lemma sign_ne_sign_iff {r y : ℤ} (hr : r ≠ 0) (hy : y ≠ 0) :
    r.sign ≠ y.sign ↔ (r < 0) ≠ (y < 0) := by
  rcases lt_or_gt_of_ne hr with hr | hr <;> rcases lt_or_gt_of_ne hy with hy | hy <;>
    simp [Int.sign_eq_one_of_pos, Int.sign_eq_neg_one_of_neg, hr, hy, not_lt.2 hr.le,
      not_lt.2 hy.le]

lemma adjustedRemainder_eq_of_lt (x : ℤ) {y : ℤ} (hy : y ≠ 0) :
    (if x.tmod y ≠ 0 ∧ (x.tmod y < 0) ≠ (y < 0) then x.tmod y + y else x.tmod y) =
      adjustedRemainder x y := by
  have hiff : (x.tmod y ≠ 0 ∧ (x.tmod y < 0) ≠ (y < 0)) ↔
      (x.tmod y ≠ 0 ∧ (x.tmod y).sign ≠ y.sign) :=
    and_congr_right fun hr => (sign_ne_sign_iff hr hy).symm
  simp only [adjustedRemainder, hiff]

lemma adjustedRemainder_bounds (x : ℤ) {y : ℤ} (hy : y ≠ 0) :
    0 ≤ adjustedRemainder x y ∧ adjustedRemainder x y < y ∨
      y < adjustedRemainder x y ∧ adjustedRemainder x y ≤ 0 := by
  have hlt := natAbs_tmod_lt x hy
  rw [← adjustedRemainder_eq_of_lt x hy]
  split_ifs with h
  · obtain ⟨hr, hsign⟩ := h
    rw [ne_eq, eq_iff_iff] at hsign
    omega
  · rcases eq_or_ne (x.tmod y) 0 with hr | hr
    · omega
    · have hsign : (x.tmod y < 0) = (y < 0) := by
        by_contra hne
        exact h ⟨hr, hne⟩
      rw [eq_iff_iff] at hsign
      omega

lemma modulo_intCast (x : ℤ) {y : ℤ} (hy : y ≠ 0) : modulo x y = adjustedRemainder x y := by
  have hbounds := adjustedRemainder_bounds x hy
  have hdiv : ∃ k, x = y * k + adjustedRemainder x y := by
    have htdiv := Int.mul_tdiv_add_tmod x y
    unfold adjustedRemainder
    split_ifs
    · refine ⟨x.tdiv y - 1, ?_⟩
      rw [mul_sub]
      omega
    · exact ⟨x.tdiv y, htdiv.symm⟩
  obtain ⟨k, hk⟩ := hdiv
  rw [modulo, floor_div_of_eq hk hbounds]
  have hcast : (x : ℚ) = y * k + adjustedRemainder x y := by exact_mod_cast hk
  linarith

/-! ## Casts of the operands -/

/-- The cast of a converted integer fails only where rounding takes it to `2^63`. -/
lemma castInt64_asNumber {v : Number} (hv : v.WellFormed) (hlt : asNumber v < 2 ^ 63) :
    ∃ k : ℤ, castInt64 (asNumber v) = some k ∧ (k : ℚ) = asNumber v ∧ fitsInt64 k := by
  have hcast {k : ℤ} (hk : (k : ℚ) = asNumber v) (hfits : fitsInt64 k) :
      ∃ k : ℤ, castInt64 (asNumber v) = some k ∧ (k : ℚ) = asNumber v ∧ fitsInt64 k := by
    refine ⟨k, ?_, hk, hfits⟩
    rw [← hk, castInt64_intCast, if_pos hfits]
  cases v with
  | int i =>
    obtain ⟨k, hk⟩ := exists_roundToBits_intCast 52 i
    have hbounds := roundDouble_bounds hv
    have hk' : roundDouble i = k := hk
    refine hcast hk'.symm ?_
    rw [asNumber] at hlt
    rw [hk'] at hbounds hlt
    rw [fitsInt64_iff]
    constructor
    · exact_mod_cast hbounds.1
    · have hlt' : k < 2 ^ 63 := by exact_mod_cast hlt
      omega
  | bignum n => exact hcast (k := 0) (by simp [asNumber]) (by decide)
  | rational r => exact hcast (k := 0) (by simp [asNumber]) (by decide)

lemma castInt64_asNumber_eq_none {v : Number} (h : ¬ asNumber v < 2 ^ 63) :
    castInt64 (asNumber v) = none := by
  push Not at h
  have hle : 2 ^ 63 ≤ truncate (asNumber v) := by
    rw [truncate, if_pos (by linarith)]
    exact Int.le_floor.2 (by exact_mod_cast h)
  rw [castInt64, if_neg]
  rw [fitsInt64_iff]
  omega

/-! ## Rationals -/

/-- The parts of the reduced fraction are `int64_t`s. -/
def Fits (q : ℚ) : Prop := fitsInt64 q.num ∧ fitsInt64 q.den

instance : DecidablePred Fits := fun q => by
  unfold Fits
  infer_instance

/-- The exact number for a fraction that fits. -/
def ofRat (q : ℚ) : Number := if q.den = 1 then .int q.num else .rational ⟨q.num, q.den⟩

lemma value_ofRat (q : ℚ) : (ofRat q).value = q := by
  unfold ofRat
  split_ifs with h
  · exact (Rat.den_eq_one_iff q).1 h
  · exact Rat.num_div_den q

lemma wellFormed_ofRat {q : ℚ} (h : Fits q) : (ofRat q).WellFormed := by
  unfold ofRat
  split_ifs with hden
  · exact h.1
  · refine ⟨h.1, ?_, h.2, q.reduced⟩
    have hpos := q.den_pos
    dsimp only
    omega

/-- Dividing by the greatest common divisor gives the parts of the reduced fraction. -/
lemma tdiv_gcd_eq {n d : ℤ} (hd : 0 < d) :
    n.tdiv (Int.gcd n d) = (n / d : ℚ).num ∧ d.tdiv (Int.gcd n d) = (n / d : ℚ).den := by
  have hdvdn : (Int.gcd n d : ℤ) ∣ n := Int.gcd_dvd_left n d
  have hdvdd : (Int.gcd n d : ℤ) ∣ d := Int.gcd_dvd_right n d
  rw [← Rat.divInt_eq_div, Rat.num_divInt, Rat.den_divInt, if_neg hd.ne', Int.gcd_comm d n,
    Int.sign_eq_one_of_pos hd, one_mul, Int.tdiv_eq_ediv_of_dvd hdvdn, Int.tdiv_eq_ediv_of_dvd hdvdd]
  refine ⟨rfl, ?_⟩
  push_cast
  rw [abs_of_pos hd]

lemma vmRationalAlloc_reduced (q : ℚ) : vmRationalAlloc q.num q.den = some ⟨q.num, q.den⟩ := by
  have hpos := q.den_pos
  have hgcd : vmRationalGcd q.num q.den = 1 := by
    rw [vmRationalGcd, Int.gcd, Int.natAbs_natCast]
    exact_mod_cast q.reduced
  have hzero : (q.den : ℤ) ≠ 0 := by omega
  have hneg : ¬ (q.den : ℤ) < 0 := by omega
  simp only [vmRationalAlloc, vmRationalNormalize, hzero, hneg, false_and, if_false, hgcd,
    gt_iff_lt, lt_irrefl]
  split_ifs with h
  · have hq : q = 0 := Rat.num_eq_zero.1 h
    simp [hq]
  · rfl

lemma ite_tdiv_eq {g : ℤ} (hg : 0 < g) (n : ℤ) : (if g > 1 then n.tdiv g else n) = n.tdiv g := by
  split_ifs with h
  · rfl
  · have hone : g = 1 := by omega
    rw [hone, Int.tdiv_one]

lemma vmRationalPack128_eq {n d : ℤ} (hd : 0 < d) :
    vmRationalPack128 n d =
      if Fits (n / d : ℚ) then some ⟨(n / d : ℚ).num, (n / d : ℚ).den⟩ else none := by
  have hd0 : d ≠ 0 := hd.ne'
  have hdneg : ¬ d < 0 := by omega
  have hg : (0 : ℤ) < Int.gcd n d := by
    exact_mod_cast Int.gcd_pos_of_ne_zero_right n hd0
  obtain ⟨hnum, hden⟩ := tdiv_gcd_eq (n := n) hd
  simp only [vmRationalPack128, hd0, hdneg, if_false, ite_tdiv_eq hg]
  simp only [hnum, hden, vmRationalAlloc_reduced]
  have hfits : Fits (n / d : ℚ) ↔ ¬ ((n / d : ℚ).num > 2 ^ 63 - 1 ∨ (n / d : ℚ).num < int64Min ∨
      ((n / d : ℚ).den : ℤ) > 2 ^ 63 - 1) := by
    rw [Fits, fitsInt64_iff, fitsInt64_iff, int64Min]
    omega
  by_cases hn : n = 0
  · subst hn
    have hzero : ((0 : ℤ) : ℚ) / d = 0 := by simp
    rw [hzero, if_pos rfl, if_pos (by decide)]
    exact vmRationalAlloc_reduced 0
  · rw [if_neg hn]
    simp only [hfits, ite_not]

lemma pushRational_some (q : ℚ) : pushRational (some ⟨q.num, q.den⟩) = .push (ofRat q) := by
  by_cases h : q.den = 1 <;> simp [pushRational, ofRat, h]

/-- What the natives 331-334 push for a quotient. -/
lemma pushRational_pack128 {n d : ℤ} (hd : 0 < d) {q : ℚ} (hq : (n / d : ℚ) = q) :
    pushRational (vmRationalPack128 n d) = if Fits q then .push (ofRat q) else .float := by
  rw [vmRationalPack128_eq hd, hq]
  split_ifs
  · exact pushRational_some q
  · rfl

lemma pushRational_pack128_gives {n d : ℤ} (hd : 0 < d) {q : ℚ} (hq : (n / d : ℚ) = q)
    {result : ℚ → Prop} :
    (pushRational (vmRationalPack128 n d)).Gives result ↔ Fits q ∧ result q := by
  rw [pushRational_pack128 hd hq]
  split_ifs with hfits
  · rw [gives_push, value_ofRat]
    exact and_congr_left fun _ => iff_of_true (wellFormed_ofRat hfits) hfits
  · simp [hfits]

/-! ### Operands -/

/-- The number the natives 331-334 read from an operand: an integer goes through a double, and a
bignum counts as zero. -/
def rounded : Number → ℚ
  | .rational r => r.value
  | v => asNumber v

/-- A fraction in lowest terms, the denominator 1 included. -/
def VmRational.Reduced (r : VmRational) : Prop := 0 < r.denom ∧ Int.gcd r.num r.denom = 1

lemma VmRational.Reduced.num_eq {r : VmRational} (h : r.Reduced) : r.value.num = r.num := by
  exact Rat.num_div_eq_of_coprime h.1 h.2

lemma rationalOperand_eq_some {v : Number} (hv : v.WellFormed) (hlt : asNumber v < 2 ^ 63) :
    ∃ x, rationalOperand v = some x ∧ x.Reduced ∧ x.value = rounded v := by
  have hcast (hrational : rationalOperand v = (castInt64 (asNumber v)).map fun i => ⟨i, 1⟩)
      (hrounded : rounded v = asNumber v) :
      ∃ x, rationalOperand v = some x ∧ x.Reduced ∧ x.value = rounded v := by
    obtain ⟨k, hk, hvalue, _⟩ := castInt64_asNumber hv hlt
    refine ⟨⟨k, 1⟩, ?_, ⟨Int.one_pos, Int.gcd_one_right k⟩, ?_⟩
    · rw [hrational, hk]
      rfl
    · rw [hrounded, ← hvalue]
      simp [VmRational.value]
  cases v with
  | int i => exact hcast rfl rfl
  | bignum n => exact hcast rfl rfl
  | rational r =>
    obtain ⟨_, hdenom, _, hgcd⟩ := hv
    exact ⟨r, rfl, ⟨by omega, hgcd⟩, rfl⟩

lemma rationalOperand_eq_none {v : Number} (h : ¬ asNumber v < 2 ^ 63) :
    rationalOperand v = none := by
  have hnone := castInt64_asNumber_eq_none h
  cases v with
  | int i => simp [rationalOperand, hnone]
  | bignum n => simp [rationalOperand, hnone]
  | rational r => simp [asNumber] at h

lemma nativeRational_gives_iff {a b : Number} (ha : a.WellFormed) (hb : b.WellFormed)
    {f : VmRational → VmRational → Option (Option VmRational)} {result : ℚ → Prop}
    {P : ℚ → ℚ → Prop}
    (hf : ∀ x y : VmRational, x.Reduced → y.Reduced →
      ((pushResult (f x y)).Gives result ↔ P x.value y.value)) :
    (nativeRational f a b).Gives result ↔
      asNumber a < 2 ^ 63 ∧ asNumber b < 2 ^ 63 ∧ P (rounded a) (rounded b) := by
  by_cases hlta : asNumber a < 2 ^ 63
  · by_cases hltb : asNumber b < 2 ^ 63
    · obtain ⟨x, hx, hxr, hxv⟩ := rationalOperand_eq_some ha hlta
      obtain ⟨y, hy, hyr, hyv⟩ := rationalOperand_eq_some hb hltb
      simp only [nativeRational, hx, hy, hlta, hltb, true_and]
      rw [hf x y hxr hyr, hxv, hyv]
    · cases hx : rationalOperand a <;>
        simp [nativeRational, hx, rationalOperand_eq_none hltb, hltb]
  · simp [nativeRational, rationalOperand_eq_none hlta, hlta]

lemma native331_gives_iff {a b : Number} (ha : a.WellFormed) (hb : b.WellFormed)
    {result : ℚ → Prop} :
    (native331 a b).Gives result ↔ asNumber a < 2 ^ 63 ∧ asNumber b < 2 ^ 63 ∧
      Fits (rounded a + rounded b) ∧ result (rounded a + rounded b) := by
  refine nativeRational_gives_iff ha hb (P := fun x y => Fits (x + y) ∧ result (x + y)) ?_
  intro x y hx hy
  refine pushRational_pack128_gives (mul_pos hx.1 hy.1) ?_
  have hxd : (x.denom : ℚ) ≠ 0 := by exact_mod_cast hx.1.ne'
  have hyd : (y.denom : ℚ) ≠ 0 := by exact_mod_cast hy.1.ne'
  rw [VmRational.value, VmRational.value, div_add_div _ _ hxd hyd]
  push_cast
  ring

lemma native332_gives_iff {a b : Number} (ha : a.WellFormed) (hb : b.WellFormed)
    {result : ℚ → Prop} :
    (native332 a b).Gives result ↔ asNumber a < 2 ^ 63 ∧ asNumber b < 2 ^ 63 ∧
      Fits (rounded a - rounded b) ∧ result (rounded a - rounded b) := by
  refine nativeRational_gives_iff ha hb (P := fun x y => Fits (x - y) ∧ result (x - y)) ?_
  intro x y hx hy
  refine pushRational_pack128_gives (mul_pos hx.1 hy.1) ?_
  have hxd : (x.denom : ℚ) ≠ 0 := by exact_mod_cast hx.1.ne'
  have hyd : (y.denom : ℚ) ≠ 0 := by exact_mod_cast hy.1.ne'
  rw [VmRational.value, VmRational.value, div_sub_div _ _ hxd hyd]
  push_cast
  ring

/-- Common factors may be taken out before the multiplication. -/
lemma cross_reduced (an bn : ℤ) {ad bd : ℤ} (had : 0 < ad) (hbd : 0 < bd) :
    0 < ad.tdiv (vmRationalGcd bn ad) * bd.tdiv (vmRationalGcd an bd) ∧
      ((an.tdiv (vmRationalGcd an bd) * bn.tdiv (vmRationalGcd bn ad) : ℤ) : ℚ) /
        (ad.tdiv (vmRationalGcd bn ad) * bd.tdiv (vmRationalGcd an bd) : ℤ) =
      (an / ad : ℚ) * (bn / bd) := by
  obtain ⟨hnum1, hden1⟩ := tdiv_gcd_eq (n := an) hbd
  obtain ⟨hnum2, hden2⟩ := tdiv_gcd_eq (n := bn) had
  rw [vmRationalGcd, vmRationalGcd, hnum1, hden1, hnum2, hden2]
  constructor
  · exact mul_pos (by exact_mod_cast Rat.den_pos _) (by exact_mod_cast Rat.den_pos _)
  · push_cast
    rw [mul_comm ((bn / ad : ℚ).den : ℚ), mul_div_mul_comm, Rat.num_div_den, Rat.num_div_den]
    ring

lemma native333_gives_iff {a b : Number} (ha : a.WellFormed) (hb : b.WellFormed)
    {result : ℚ → Prop} :
    (native333 a b).Gives result ↔ asNumber a < 2 ^ 63 ∧ asNumber b < 2 ^ 63 ∧
      Fits (rounded a * rounded b) ∧ result (rounded a * rounded b) := by
  refine nativeRational_gives_iff ha hb (P := fun x y => Fits (x * y) ∧ result (x * y)) ?_
  intro x y hx hy
  obtain ⟨hpos, hvalue⟩ := cross_reduced x.num y.num hx.1 hy.1
  exact pushRational_pack128_gives hpos hvalue

lemma native334_gives_iff {a b : Number} (ha : a.WellFormed) (hb : b.WellFormed)
    {result : ℚ → Prop} :
    (native334 a b).Gives result ↔ asNumber a < 2 ^ 63 ∧ asNumber b < 2 ^ 63 ∧
      rounded b ≠ 0 ∧ (rounded b).num ≠ int64Min ∧
      Fits (rounded a / rounded b) ∧ result (rounded a / rounded b) := by
  refine nativeRational_gives_iff ha hb
    (P := fun x y => y ≠ 0 ∧ y.num ≠ int64Min ∧ Fits (x / y) ∧ result (x / y)) ?_
  intro x y hx hy
  have hyd : (y.denom : ℚ) ≠ 0 := by exact_mod_cast hy.1.ne'
  rw [hy.num_eq]
  by_cases hzero : y.num = 0
  · have hvalue : y.value = 0 := by rw [VmRational.value, hzero]; simp
    simp [vmRationalDiv, hzero, pushResult, pushRational, hvalue]
  by_cases hmin : y.num = int64Min
  · simp [vmRationalDiv, hmin, show int64Min ≠ 0 by decide, pushResult]
  have hvalue : y.value ≠ 0 := div_ne_zero (by exact_mod_cast hzero) hyd
  -- the reciprocal, with its sign on top
  have hinverse : ∃ n d : ℤ, 0 < d ∧ (n / d : ℚ) = y.value⁻¹ ∧
      n = (if y.num < 0 then -y.denom else y.denom) ∧
      d = (if y.num < 0 then -y.num else y.num) := by
    refine ⟨_, _, ?_, ?_, rfl, rfl⟩
    · split_ifs <;> omega
    · rw [VmRational.value, inv_div]
      split_ifs
      · push_cast
        rw [neg_div_neg_eq]
      · rfl
  obtain ⟨n, d, hd, hinv, hn, hd'⟩ := hinverse
  obtain ⟨hpos, hcross⟩ := cross_reduced x.num n hx.1 hd
  simp only [vmRationalDiv, hzero, hmin, if_false, ← hn, ← hd', ne_eq, hvalue, not_false_eq_true,
    true_and]
  refine pushRational_pack128_gives hpos ?_
  rw [hcross, hinv, ← div_eq_mul_inv]
  rfl

end Vm.Numbers
