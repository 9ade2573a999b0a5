import Eshkol.Exact.Rational
import Mathlib.Tactic.FieldSimp

/-!
# Rationals are exact and reduced

Every rational that is built is reduced, with a positive denominator, and is held by bignums only if
one of its parts is out of the range of 64 bits. The operations compute the quotient of the numbers
they are given.
-/

namespace Exact

open Hash (Bignum Rational)

/-! ## Reduced rationals -/

/-- The range of 64-bit integers. -/
def InRange (x : ℤ) : Prop := -2 ^ 63 ≤ x ∧ x < 2 ^ 63

instance (x : ℤ) : Decidable (InRange x) := inferInstanceAs (Decidable (_ ∧ _))

/-- The numerator. -/
def ratNum : Rational → ℤ
  | .small n _ => n.toInt
  | .big n _ => toInt n

/-- The denominator. -/
def ratDen : Rational → ℤ
  | .small _ d => d.toInt
  | .big _ d => toInt d

/-- Bignums are normalized, and needed. -/
def Represented : Rational → Prop
  | .small _ _ => True
  | .big n d => Normalized n ∧ Normalized d ∧ ¬ (InRange (toInt n) ∧ InRange (toInt d))

structure Reduced (r : Rational) : Prop where
  den_pos : 0 < ratDen r
  coprime : Int.gcd (ratNum r) (ratDen r) = 1
  represented : Represented r

/-- The rational is reduced and is `num / denom`. -/
structure IsQuotient (r : Rational) (num denom : ℤ) : Prop where
  reduced : Reduced r
  cross : ratNum r * denom = num * ratDen r

lemma IsQuotient.neg {r : Rational} {num denom : ℤ} (h : IsQuotient r (-num) (-denom)) :
    IsQuotient r num denom :=
  ⟨h.reduced, by linarith [h.cross]⟩

/-- The quotient is an integer just when the division is even. -/
lemma IsQuotient.den_eq_one_iff {r : Rational} {num denom : ℤ} (h : IsQuotient r num denom)
    (hne : denom ≠ 0) : ratDen r = 1 ↔ denom ∣ num := by
  have hcross := h.cross
  constructor
  · intro hone
    rw [hone, mul_one] at hcross
    exact ⟨ratNum r, by rw [← hcross, mul_comm]⟩
  · rintro ⟨k, rfl⟩
    have hnum : ratNum r = k * ratDen r := mul_right_cancel₀ hne (by rw [hcross]; ring)
    have hcoprime := h.reduced.coprime
    have hpos := h.reduced.den_pos
    rw [hnum, Int.gcd_mul_left_left] at hcoprime
    omega

lemma fitsInt64_eq_some {a : Bignum} (ha : Normalized a) {n : Int64} :
    bignumFitsInt64 a = some n ↔ toInt a = n.toInt := by
  have hlo := n.le_toInt
  have hhi := n.toInt_lt
  obtain ⟨m, hm, hval⟩ | ⟨hnone, hrange⟩ := fitsInt64_spec ha
  · rw [hm, Option.some.injEq, ← hval, ← Int64.toInt_inj]
  · rw [hnone]
    simp only [reduceCtorEq, false_iff]
    omega

lemma fitsInt64_eq_none {a : Bignum} (ha : Normalized a) :
    bignumFitsInt64 a = none ↔ ¬ InRange (toInt a) := by
  rw [InRange]
  obtain ⟨m, hm, hval⟩ | ⟨hnone, hrange⟩ := fitsInt64_spec ha
  · have hlo := m.le_toInt
    have hhi := m.toInt_lt
    rw [hm]
    simp only [reduceCtorEq, false_iff, not_not]
    omega
  · rw [hnone]
    simp only [true_iff]
    omega

lemma bnEqualsI64_iff {a : Bignum} (ha : Normalized a) (k : Int64) :
    bnEqualsI64 a k = true ↔ toInt a = k.toInt := by
  rw [bnEqualsI64, beq_iff_eq, fitsInt64_eq_some ha]

lemma isZero_iff_toInt {a : Bignum} (ha : Normalized a) : a.isZero = true ↔ toInt a = 0 := by
  rw [ha.isZero_iff, ← natAbs_toInt]
  omega

lemma negative_iff {a : Bignum} (ha : Normalized a) : a.negative = true ↔ toInt a < 0 := by
  have hzero := ha.zero_nonneg
  rw [toInt]
  cases h : a.negative with
  | false => simp
  | true =>
    have : magnitude a.limbs ≠ 0 := fun hmag => by simp [hzero hmag] at h
    simp
    omega

/-! ## Greatest common divisors -/

lemma bnAbs_spec {a : Bignum} (ha : Normalized a) :
    Normalized (bnAbs a) ∧ toInt (bnAbs a) = (toInt a).natAbs := by
  rw [bnAbs]
  by_cases hneg : a.negative = true
  · obtain ⟨hnorm, hval⟩ := neg_spec ha
    have := (negative_iff ha).1 hneg
    rw [if_pos hneg]
    exact ⟨hnorm, by omega⟩
  · have : ¬ toInt a < 0 := fun h => hneg ((negative_iff ha).2 h)
    rw [if_neg hneg]
    exact ⟨ha, by omega⟩

lemma abs_withSign {a : Bignum} (ha : Normalized a) (hnonneg : 0 ≤ toInt a) :
    { a with negative := false } = a := by
  have hneg : a.negative = false := by
    by_contra h
    have := (negative_iff ha).1 (by simpa using h)
    omega
  rw [← hneg]

lemma gcdLoop_spec {fuel : ℕ} {x y : Bignum} (hx : Normalized x) (hy : Normalized y)
    (hx0 : 0 ≤ toInt x) (hy0 : 0 ≤ toInt y) (hfuel : toInt y < fuel) :
    Normalized (bnGcdLoop fuel x y) ∧ toInt (bnGcdLoop fuel x y) = Int.gcd (toInt x) (toInt y) := by
  induction fuel generalizing x y with
  | zero => omega
  | succ fuel ih =>
    rw [bnGcdLoop]
    by_cases hzero : toInt y = 0
    · rw [if_pos ((isZero_iff_toInt hy).2 hzero), hzero, Int.gcd_zero_right]
      exact ⟨hx, by omega⟩
    · rw [if_neg fun h => hzero ((isZero_iff_toInt hy).1 h)]
      obtain ⟨hmod, hval⟩ := mod_spec hx hy hzero
      have hnonneg : 0 ≤ toInt (bignumMod x y) := hval ▸ Int.tmod_nonneg _ hx0
      rw [abs_withSign hmod hnonneg]
      have hlt : toInt (bignumMod x y) < toInt y := by
        rw [hval]
        exact Int.tmod_lt_of_pos _ (by omega)
      obtain ⟨hnorm, hgcd⟩ := ih hy hmod hy0 hnonneg (by omega)
      refine ⟨hnorm, ?_⟩
      obtain ⟨m, hm⟩ := Int.eq_ofNat_of_zero_le hx0
      obtain ⟨n, hn⟩ := Int.eq_ofNat_of_zero_le hy0
      rw [hgcd, hval, hm, hn, ← Int.ofNat_tmod, Int.gcd_natCast_natCast, Int.gcd_natCast_natCast,
        Nat.gcd_comm n, ← Nat.gcd_rec, Nat.gcd_comm]

lemma bnGcd_spec {a b : Bignum} (ha : Normalized a) (hb : Normalized b) :
    Normalized (bnGcd a b) ∧ toInt (bnGcd a b) = Int.gcd (toInt a) (toInt b) := by
  obtain ⟨hna, hva⟩ := bnAbs_spec ha
  obtain ⟨hnb, hvb⟩ := bnAbs_spec hb
  have hmag := natAbs_toInt b
  have hfuel : toInt (bnAbs b) < (magnitude b.limbs + 1 : ℕ) := by omega
  obtain ⟨hnorm, hval⟩ := gcdLoop_spec hna hnb (by omega) (by omega) hfuel
  rw [bnGcd, abs_withSign hnorm (by omega)]
  refine ⟨hnorm, ?_⟩
  rw [hval, hva, hvb, Int.gcd_natCast_natCast]
  rfl

/-! ## Creating rationals -/

/-- A reduced pair, demoted if it fits. -/
lemma isQuotient_demote {n d : Bignum} (hn : Normalized n) (hd : Normalized d) {num denom : ℤ}
    (hpos : 0 < toInt d) (hcoprime : Int.gcd (toInt n) (toInt d) = 1)
    (hcross : toInt n * denom = num * toInt d) :
    IsQuotient (match bignumFitsInt64 n, bignumFitsInt64 d with
      | some ni, some di => .small ni di
      | _, _ => .big n d) num denom := by
  have hbig : ¬ (InRange (toInt n) ∧ InRange (toInt d)) → IsQuotient (.big n d) num denom :=
    fun h => ⟨⟨hpos, hcoprime, hn, hd, h⟩, hcross⟩
  cases hfn : bignumFitsInt64 n with
  | none => exact hbig fun h => (fitsInt64_eq_none hn).1 hfn h.1
  | some ni =>
    cases hfd : bignumFitsInt64 d with
    | none => exact hbig fun h => (fitsInt64_eq_none hd).1 hfd h.2
    | some di =>
      rw [(fitsInt64_eq_some hn).1 hfn, (fitsInt64_eq_some hd).1 hfd] at hcoprime hcross
      rw [(fitsInt64_eq_some hd).1 hfd] at hpos
      exact ⟨⟨hpos, hcoprime, trivial⟩, hcross⟩

/-- Dividing by the greatest common divisor leaves the parts coprime. -/
lemma div_gcd {n d : ℤ} (hd : 0 < d) :
    0 < d.tdiv (Int.gcd n d) ∧ Int.gcd (n.tdiv (Int.gcd n d)) (d.tdiv (Int.gcd n d)) = 1 ∧
      n.tdiv (Int.gcd n d) * d = n * d.tdiv (Int.gcd n d) := by
  have hg : 0 < Int.gcd n d := Int.gcd_pos_of_ne_zero_right _ (by omega)
  have hn := Int.gcd_dvd_left n d
  have hd' := Int.gcd_dvd_right n d
  rw [Int.tdiv_eq_ediv_of_dvd hn, Int.tdiv_eq_ediv_of_dvd hd']
  refine ⟨Int.ediv_pos_of_pos_of_dvd hd (by omega) hd', Int.gcd_div_gcd_div_gcd hg, ?_⟩
  calc n / (Int.gcd n d : ℤ) * d = n / (Int.gcd n d : ℤ) * (d / (Int.gcd n d : ℤ) * Int.gcd n d) := by
        rw [Int.ediv_mul_cancel hd']
    _ = n / (Int.gcd n d : ℤ) * Int.gcd n d * (d / (Int.gcd n d : ℤ)) := by ring
    _ = n * (d / (Int.gcd n d : ℤ)) := by rw [Int.ediv_mul_cancel hn]

/-- The reduction of a pair with a positive denominator. -/
lemma createBn_reduce {n d : Bignum} (hn : Normalized n) (hd : Normalized d) (hpos : 0 < toInt d) :
    let g := bnGcd n d
    let reduce := !bnEqualsI64 g 1 && !g.isZero
    IsQuotient (match bignumFitsInt64 (if reduce then bignumDiv n g else n),
        bignumFitsInt64 (if reduce then bignumDiv d g else d) with
      | some ni, some di => .small ni di
      | _, _ => .big (if reduce then bignumDiv n g else n) (if reduce then bignumDiv d g else d))
      (toInt n) (toInt d) := by
  intro g reduce
  obtain ⟨hg, hgval⟩ := bnGcd_spec hn hd
  have hgpos : 0 < Int.gcd (toInt n) (toInt d) := Int.gcd_pos_of_ne_zero_right _ (by omega)
  by_cases hone : Int.gcd (toInt n) (toInt d) = 1
  · have hreduce : reduce = false := by
      have : bnEqualsI64 g 1 = true := (bnEqualsI64_iff hg 1).2 (by rw [hgval, hone]; rfl)
      simp [reduce, this]
    simp only [hreduce, Bool.false_eq_true, if_false]
    exact isQuotient_demote hn hd hpos hone rfl
  · have hreduce : reduce = true := by
      have hne : bnEqualsI64 g 1 = false := by
        rw [Bool.eq_false_iff]
        intro h
        have hval := (bnEqualsI64_iff hg 1).1 h
        rw [hgval, show Int64.toInt 1 = 1 from rfl] at hval
        omega
      have hnz : g.isZero = false := by
        rw [Bool.eq_false_iff]
        intro h
        have := (isZero_iff_toInt hg).1 h
        omega
      simp [reduce, hne, hnz]
    simp only [hreduce, if_true]
    have hgne : toInt (bnGcd n d) ≠ 0 := by omega
    obtain ⟨hnn, hvn⟩ := div_spec hn hg hgne
    obtain ⟨hnd, hvd⟩ := div_spec hd hg hgne
    obtain ⟨hdpos, hcoprime, hcross⟩ := div_gcd (n := toInt n) hpos
    rw [hgval] at hvn hvd
    exact isQuotient_demote hnn hnd (hvd ▸ hdpos) (by rw [hvn, hvd]; exact hcoprime)
      (by rw [hvn, hvd]; exact hcross)

lemma createBn_spec {num denom : Bignum} (hn : Normalized num) (hd : Normalized denom)
    (hne : toInt denom ≠ 0) : IsQuotient (rationalCreateBn num denom) (toInt num) (toInt denom) := by
  rw [rationalCreateBn, if_neg fun h => hne ((isZero_iff_toInt hd).1 h)]
  by_cases hneg : denom.negative = true
  · obtain ⟨hnn, hvn⟩ := neg_spec hn
    obtain ⟨hnd, hvd⟩ := neg_spec hd
    have hlt := (negative_iff hd).1 hneg
    have hquot := createBn_reduce hnn hnd (by omega)
    rw [hvn, hvd] at hquot
    simp only [hneg, if_true]
    exact hquot.neg
  · have hge : ¬ toInt denom < 0 := fun h => hneg ((negative_iff hd).2 h)
    have hquot := createBn_reduce hn hd (by omega)
    simp only [Bool.not_eq_true] at hneg
    simp only [hneg, Bool.false_eq_true, if_false]
    exact hquot

/-- A pair of 64-bit integers, reduced. -/
lemma isQuotient_small {n d : ℤ} (hd : 0 < d) (hn : InRange (n.tdiv (gcd128 n d)))
    (hd' : InRange (d.tdiv (gcd128 n d))) :
    IsQuotient (.small (.ofInt (n.tdiv (gcd128 n d))) (.ofInt (d.tdiv (gcd128 n d)))) n d := by
  obtain ⟨hpos, hcoprime, hcross⟩ := div_gcd (n := n) hd
  have hn' := Int64.toInt_ofInt_of_le hn.1 hn.2
  have hd'' := Int64.toInt_ofInt_of_le hd'.1 hd'.2
  refine ⟨⟨?_, ?_, trivial⟩, ?_⟩
  · rw [ratDen, hd'']
    exact hpos
  · rw [ratNum, ratDen, hn', hd'']
    exact hcoprime
  · rw [ratNum, ratDen, hn', hd'']
    exact hcross

lemma gcd128_pos {n d : ℤ} (hd : d ≠ 0) : 0 < gcd128 n d := by
  have hpos : 0 < Int.gcd n d := Int.gcd_pos_of_ne_zero_right _ hd
  rw [gcd128]
  exact Int.natCast_pos.2 hpos

/-- Without a common divisor there is nothing to divide by. -/
lemma ite_gcd128 {n d : ℤ} (hd : d ≠ 0) (x : ℤ) :
    (if 1 < gcd128 n d then x.tdiv (gcd128 n d) else x) = x.tdiv (gcd128 n d) := by
  split
  · rfl
  · rename_i h
    have := gcd128_pos (n := n) hd
    rw [show gcd128 n d = 1 by omega, Int.tdiv_one]

lemma int128_eq {x : ℤ} (hlo : -2 ^ 127 ≤ x) (hhi : x < 2 ^ 127) : int128 x = x :=
  Int.bmod_eq_of_le (by simpa using hlo) (by simpa using hhi)

lemma fitsInt64_iff (v : ℤ) : fitsInt64 v = true ↔ InRange v := by
  rw [fitsInt64, Bool.and_eq_true, decide_eq_true_eq, decide_eq_true_eq, InRange,
    show Int64.minValue.toInt = -2 ^ 63 from rfl, show Int64.maxValue.toInt = 2 ^ 63 - 1 from rfl]
  omega

lemma createSafe_spec {num denom : ℤ} {r : Rational} (hne : denom ≠ 0) (hnum : -2 ^ 127 < num ∧ num < 2 ^ 127)
    (hdenom : -2 ^ 127 < denom ∧ denom < 2 ^ 127) (hr : rationalCreateSafe num denom = some r) :
    IsQuotient r num denom := by
  -- a positive denominator is reduced and checked
  have hreduce : ∀ {n d : ℤ}, 0 < d → (if !fitsInt64 (if 1 < gcd128 n d then n.tdiv (gcd128 n d) else n) ||
      !fitsInt64 (if 1 < gcd128 n d then d.tdiv (gcd128 n d) else d) then none
      else some (Rational.small (.ofInt (if 1 < gcd128 n d then n.tdiv (gcd128 n d) else n))
        (.ofInt (if 1 < gcd128 n d then d.tdiv (gcd128 n d) else d)))) = some r → IsQuotient r n d := by
    intro n d hd hr
    rw [ite_gcd128 (by omega), ite_gcd128 (by omega)] at hr
    by_cases hfits : fitsInt64 (n.tdiv (gcd128 n d)) = true ∧ fitsInt64 (d.tdiv (gcd128 n d)) = true
    · rw [hfits.1, hfits.2] at hr
      cases hr
      exact isQuotient_small hd ((fitsInt64_iff _).1 hfits.1) ((fitsInt64_iff _).1 hfits.2)
    · rw [if_pos] at hr
      · cases hr
      · rw [not_and_or] at hfits
        simpa using hfits
  rw [rationalCreateSafe] at hr
  simp only [hne, if_false] at hr
  by_cases hneg : denom < 0
  · simp only [hneg, if_true] at hr
    rw [int128_eq (x := -num) (by omega) (by omega), int128_eq (x := -denom) (by omega) (by omega)] at hr
    exact (hreduce (by omega) hr).neg
  · simp only [hneg, if_false] at hr
    exact hreduce (by omega) hr

lemma toInt_neg_eq {x : Int64} (h : x ≠ Int64.minValue) : (-x).toInt = -x.toInt := by
  have hlo := x.le_toInt
  have hhi := x.toInt_lt
  have hne : x.toInt ≠ -2 ^ 63 := by
    rw [← Int64.toInt_minValue]
    exact fun heq => h (Int64.toInt_inj.1 heq)
  rw [Int64.toInt_neg, Int.bmod_eq_of_le (by omega) (by omega)]

/-- A quotient is no larger than what is divided. -/
lemma InRange.tdiv {x g : ℤ} (hx : InRange x) (hg : 0 ≤ g) : InRange (x.tdiv g) := by
  have hle : (x.tdiv g).natAbs ≤ x.natAbs := by
    rw [Int.natAbs_tdiv]
    exact Nat.div_le_self _ _
  rw [InRange] at hx ⊢
  by_cases hneg : 0 ≤ x
  · have := Int.tdiv_nonneg hneg hg
    omega
  · have := Int.tdiv_nonneg (by omega : 0 ≤ -x) hg
    rw [Int.neg_tdiv] at this
    omega

lemma inRange_toInt (x : Int64) : InRange x.toInt := ⟨x.le_toInt, x.toInt_lt⟩

lemma create_spec (num : Int64) {denom : Int64} (hne : denom ≠ 0) :
    IsQuotient (rationalCreate num denom) num.toInt denom.toInt := by
  have hne' : denom.toInt ≠ 0 := fun h => hne (Int64.toInt_inj.1 h)
  rw [rationalCreate]
  simp only [hne, if_false]
  by_cases hmin : denom = Int64.minValue ∨ num = Int64.minValue
  · rw [if_pos hmin]
    obtain ⟨hn, hnval⟩ := ofInt64_spec num
    obtain ⟨hd, hdval⟩ := ofInt64_spec denom
    have hquot := createBn_spec hn hd (by rw [hdval]; exact hne')
    rwa [hnval, hdval] at hquot
  · rw [if_neg hmin]
    rw [not_or] at hmin
    -- with a positive denominator nothing overflows
    have hreduce : ∀ {n d : Int64}, 0 < d.toInt →
        IsQuotient (if 1 < gcd128 n.toInt d.toInt then
          .small (.ofInt (n.toInt.tdiv (gcd128 n.toInt d.toInt)))
            (.ofInt (d.toInt.tdiv (gcd128 n.toInt d.toInt)))
          else .small n d) n.toInt d.toInt := by
      intro n d hd
      have hquot := isQuotient_small (n := n.toInt) hd ((inRange_toInt n).tdiv (gcd128_pos (by omega)).le)
        ((inRange_toInt d).tdiv (gcd128_pos (by omega)).le)
      split
      · exact hquot
      · rename_i hle
        have hpos := gcd128_pos (n := n.toInt) (by omega : d.toInt ≠ 0)
        rw [show gcd128 n.toInt d.toInt = 1 by omega, Int.tdiv_one, Int.tdiv_one, Int64.ofInt_toInt,
          Int64.ofInt_toInt] at hquot
        exact hquot
    by_cases hneg : denom < 0
    · have hlt : denom.toInt < 0 := Int64.lt_iff_toInt_lt.1 hneg
      simp only [hneg, if_true]
      have hquot := hreduce (n := -num) (d := -denom) (by rw [toInt_neg_eq hmin.1]; omega)
      refine IsQuotient.neg ?_
      rw [← toInt_neg_eq hmin.1, ← toInt_neg_eq hmin.2]
      exact hquot
    · have hge : ¬ denom.toInt < 0 := fun h => hneg (Int64.lt_iff_toInt_lt.2 h)
      simp only [hneg, if_false]
      exact hreduce (by omega)

/-! ## Arithmetic -/

lemma ratNumBn_spec {r : Rational} (h : Represented r) :
    Normalized (ratNumBn r) ∧ toInt (ratNumBn r) = ratNum r := by
  cases r with
  | small n d => exact ofInt64_spec n
  | big n d => exact ⟨h.1, rfl⟩

lemma ratDenBn_spec {r : Rational} (h : Represented r) :
    Normalized (ratDenBn r) ∧ toInt (ratDenBn r) = ratDen r := by
  cases r with
  | small n d => exact ofInt64_spec d
  | big n d => exact ⟨h.2.1, rfl⟩

/-- The small and the big computation of one operation. -/
structure OpAgrees (small : ℤ → ℤ → ℤ → ℤ → ℤ × ℤ)
    (big : Bignum → Bignum → Bignum → Bignum → Bignum × Bignum) : Prop where
  big_eq : ∀ {an ad bn bd : Bignum}, Normalized an → Normalized ad → Normalized bn → Normalized bd →
    Normalized (big an ad bn bd).1 ∧ Normalized (big an ad bn bd).2 ∧
      (toInt (big an ad bn bd).1, toInt (big an ad bn bd).2) =
        small (toInt an) (toInt ad) (toInt bn) (toInt bd)
  small_lt : ∀ {an ad bn bd : ℤ}, InRange an → InRange ad → InRange bn → InRange bd → 0 < ad → 0 < bd →
    (-2 ^ 127 < (small an ad bn bd).1 ∧ (small an ad bn bd).1 < 2 ^ 127) ∧
      (-2 ^ 127 < (small an ad bn bd).2 ∧ (small an ad bn bd).2 < 2 ^ 127)

section op

variable {small : ℤ → ℤ → ℤ → ℤ → ℤ × ℤ} {big : Bignum → Bignum → Bignum → Bignum → Bignum × Bignum}
  (hop : OpAgrees small big) {a b : Rational} (hra : Reduced a) (hrb : Reduced b)
  (hne : (small (ratNum a) (ratDen a) (ratNum b) (ratDen b)).2 ≠ 0)
include hop hra hrb hne

/-- The computation with bignums. -/
lemma viaBignums_spec :
    IsQuotient (rationalCreateBn (big (ratNumBn a) (ratDenBn a) (ratNumBn b) (ratDenBn b)).1
      (big (ratNumBn a) (ratDenBn a) (ratNumBn b) (ratDenBn b)).2)
      (small (ratNum a) (ratDen a) (ratNum b) (ratDen b)).1
      (small (ratNum a) (ratDen a) (ratNum b) (ratDen b)).2 := by
  obtain ⟨han, hanv⟩ := ratNumBn_spec hra.represented
  obtain ⟨had, hadv⟩ := ratDenBn_spec hra.represented
  obtain ⟨hbn, hbnv⟩ := ratNumBn_spec hrb.represented
  obtain ⟨hbd, hbdv⟩ := ratDenBn_spec hrb.represented
  obtain ⟨hn, hd, hval⟩ := hop.big_eq han had hbn hbd
  rw [hanv, hadv, hbnv, hbdv] at hval
  rw [← hval] at hne ⊢
  exact createBn_spec hn hd hne

lemma rationalOp_spec :
    IsQuotient (rationalOp small big a b) (small (ratNum a) (ratDen a) (ratNum b) (ratDen b)).1
      (small (ratNum a) (ratDen a) (ratNum b) (ratDen b)).2 := by
  have hbig := viaBignums_spec hop hra hrb hne
  cases a with
  | big n d => exact hbig
  | small an ad =>
    cases b with
    | big n d => exact hbig
    | small bn bd =>
      obtain ⟨hlt1, hlt2⟩ := hop.small_lt (inRange_toInt an) (inRange_toInt ad) (inRange_toInt bn)
        (inRange_toInt bd) hra.den_pos hrb.den_pos
      rw [rationalOp]
      simp only
      rw [int128_eq (by omega) (by omega), int128_eq (by omega) (by omega)]
      cases hsafe : rationalCreateSafe (small an.toInt ad.toInt bn.toInt bd.toInt).1
          (small an.toInt ad.toInt bn.toInt bd.toInt).2 with
      | none => exact hbig
      | some r => exact createSafe_spec hne hlt1 hlt2 hsafe

end op

/-- A product of two 64-bit integers leaves room for a sum of two of them. -/
lemma InRange.mul_lt {x y : ℤ} (hx : InRange x) (hy : InRange y) (hpos : 0 < y) :
    -2 ^ 126 < x * y ∧ x * y < 2 ^ 126 := by
  obtain ⟨hxlo, hxhi⟩ := hx
  have hylt := hy.2
  constructor <;> nlinarith

lemma InRange.mul_le {x y : ℤ} (hx : InRange x) (hy : InRange y) :
    -2 ^ 126 ≤ x * y ∧ x * y ≤ 2 ^ 126 := by
  obtain ⟨hxlo, hxhi⟩ := hx
  obtain ⟨hylo, hyhi⟩ := hy
  constructor <;> nlinarith

lemma opAgrees_add : OpAgrees (fun an ad bn bd => (an * bd + bn * ad, ad * bd))
    (fun an ad bn bd => (bignumAdd (bignumMul an bd) (bignumMul bn ad), bignumMul ad bd)) where
  big_eq := by
    intro an ad bn bd han had hbn hbd
    obtain ⟨hl, hlv⟩ := mul_spec han hbd
    obtain ⟨hr, hrv⟩ := mul_spec hbn had
    obtain ⟨hd, hdv⟩ := mul_spec had hbd
    obtain ⟨hs, hsv⟩ := add_spec hl hr
    exact ⟨hs, hd, by simp only [hsv, hlv, hrv, hdv]⟩
  small_lt := by
    intro an ad bn bd han had hbn hbd hadpos hbdpos
    have hl := han.mul_lt hbd hbdpos
    have hr := hbn.mul_lt had hadpos
    have hd := had.mul_lt hbd hbdpos
    simp only
    omega

lemma opAgrees_sub : OpAgrees (fun an ad bn bd => (an * bd - bn * ad, ad * bd))
    (fun an ad bn bd => (bignumSub (bignumMul an bd) (bignumMul bn ad), bignumMul ad bd)) where
  big_eq := by
    intro an ad bn bd han had hbn hbd
    obtain ⟨hl, hlv⟩ := mul_spec han hbd
    obtain ⟨hr, hrv⟩ := mul_spec hbn had
    obtain ⟨hd, hdv⟩ := mul_spec had hbd
    obtain ⟨hs, hsv⟩ := sub_spec hl hr
    exact ⟨hs, hd, by simp only [hsv, hlv, hrv, hdv]⟩
  small_lt := by
    intro an ad bn bd han had hbn hbd hadpos hbdpos
    have hl := han.mul_lt hbd hbdpos
    have hr := hbn.mul_lt had hadpos
    have hd := had.mul_lt hbd hbdpos
    simp only
    omega

lemma opAgrees_mul : OpAgrees (fun an ad bn bd => (an * bn, ad * bd))
    (fun an ad bn bd => (bignumMul an bn, bignumMul ad bd)) where
  big_eq := by
    intro an ad bn bd han had hbn hbd
    obtain ⟨hn, hnv⟩ := mul_spec han hbn
    obtain ⟨hd, hdv⟩ := mul_spec had hbd
    exact ⟨hn, hd, by simp only [hnv, hdv]⟩
  small_lt := by
    intro an ad bn bd han had hbn hbd _ hbdpos
    have hn := han.mul_le hbn
    have hd := had.mul_lt hbd hbdpos
    simp only
    omega

lemma opAgrees_div : OpAgrees (fun an ad bn bd => (an * bd, ad * bn))
    (fun an ad bn bd => (bignumMul an bd, bignumMul ad bn)) where
  big_eq := by
    intro an ad bn bd han had hbn hbd
    obtain ⟨hn, hnv⟩ := mul_spec han hbd
    obtain ⟨hd, hdv⟩ := mul_spec had hbn
    exact ⟨hn, hd, by simp only [hnv, hdv]⟩
  small_lt := by
    intro an ad bn bd han had hbn hbd _ hbdpos
    have hn := han.mul_lt hbd hbdpos
    have hd := had.mul_le hbn
    simp only
    omega

/-! ## Values -/

/-- The number a rational stands for. -/
def ratValue (r : Rational) : ℚ := (ratNum r : ℚ) / (ratDen r : ℚ)

lemma IsQuotient.value {r : Rational} {num denom : ℤ} (h : IsQuotient r num denom) (hne : denom ≠ 0) :
    ratValue r = (num : ℚ) / denom := by
  have hden : (ratDen r : ℚ) ≠ 0 := by exact_mod_cast h.reduced.den_pos.ne'
  have hdenom : (denom : ℚ) ≠ 0 := by exact_mod_cast hne
  rw [ratValue, div_eq_div_iff hden hdenom]
  exact_mod_cast h.cross

section ops

variable {a b : Rational} (ha : Reduced a) (hb : Reduced b)
include ha hb

lemma ratDen_mul_ne : ratDen a * ratDen b ≠ 0 := (mul_pos ha.den_pos hb.den_pos).ne'

lemma rationalAdd_spec : Reduced (rationalAdd a b) ∧ ratValue (rationalAdd a b) = ratValue a + ratValue b := by
  have hne := ratDen_mul_ne ha hb
  have hquot := rationalOp_spec opAgrees_add ha hb hne
  refine ⟨hquot.reduced, (hquot.value hne).trans ?_⟩
  have hda : (ratDen a : ℚ) ≠ 0 := by exact_mod_cast ha.den_pos.ne'
  have hdb : (ratDen b : ℚ) ≠ 0 := by exact_mod_cast hb.den_pos.ne'
  simp only [ratValue]
  push_cast
  field_simp

lemma rationalSub_spec : Reduced (rationalSub a b) ∧ ratValue (rationalSub a b) = ratValue a - ratValue b := by
  have hne := ratDen_mul_ne ha hb
  have hquot := rationalOp_spec opAgrees_sub ha hb hne
  refine ⟨hquot.reduced, (hquot.value hne).trans ?_⟩
  have hda : (ratDen a : ℚ) ≠ 0 := by exact_mod_cast ha.den_pos.ne'
  have hdb : (ratDen b : ℚ) ≠ 0 := by exact_mod_cast hb.den_pos.ne'
  simp only [ratValue]
  push_cast
  field_simp

lemma rationalMul_spec : Reduced (rationalMul a b) ∧ ratValue (rationalMul a b) = ratValue a * ratValue b := by
  have hne := ratDen_mul_ne ha hb
  have hquot := rationalOp_spec opAgrees_mul ha hb hne
  refine ⟨hquot.reduced, (hquot.value hne).trans ?_⟩
  simp only [ratValue]
  push_cast
  rw [div_mul_div_comm]

/-- Division raises for a divisor of zero, and is exact otherwise. -/
lemma rationalDiv_spec :
    (ratValue b = 0 ∧ rationalDiv a b = .error "rational division by zero") ∨
      ∃ r, ratValue b ≠ 0 ∧ rationalDiv a b = .ok r ∧ Reduced r ∧ ratValue r = ratValue a / ratValue b := by
  have hdb : (ratDen b : ℚ) ≠ 0 := by exact_mod_cast hb.den_pos.ne'
  have hzero : ratIsZero b = true ↔ ratValue b = 0 := by
    rw [ratValue, div_eq_zero_iff, or_iff_left hdb, Int.cast_eq_zero]
    cases b with
    | small n d => rw [ratIsZero, beq_iff_eq, ratNum, ← Int64.toInt_inj, Int64.toInt_zero]
    | big n d => exact isZero_iff_toInt hb.represented.1
  rw [rationalDiv]
  by_cases hb0 : ratValue b = 0
  · exact .inl ⟨hb0, if_pos (hzero.2 hb0)⟩
  · have hnum : ratNum b ≠ 0 := fun h => hb0 (by rw [ratValue, h]; simp)
    have hne : ratDen a * ratNum b ≠ 0 := mul_ne_zero ha.den_pos.ne' hnum
    have hquot := rationalOp_spec opAgrees_div ha hb hne
    refine .inr ⟨_, hb0, if_neg fun h => hb0 (hzero.1 h), hquot.reduced, (hquot.value hne).trans ?_⟩
    simp only [ratValue]
    push_cast
    rw [div_div_div_eq]

end ops

end Exact
