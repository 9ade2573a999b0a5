import Eshkol.Vm.NumbersSpec
import Mathlib.Data.Sign.Basic

/-!
# Rationals in machine arithmetic

The functions of `vm_rational.c` on all numerators an `int64_t` can hold, the smallest one included,
with the conversions to `int64_t` and `__int128` in two's complement.
-/

namespace Vm.Numbers

/-- A result of `int64_t` arithmetic. -/
def int64 (x : ℤ) : ℤ := x.bmod (1 <<< 64)

/-- A result of `__int128` arithmetic. -/
def int128 (x : ℤ) : ℤ := x.bmod (1 <<< 128)

/-! ## Arithmetic -/

/-- `vm_rational_gcd_i64`, with its cast. -/
def gcdInt64 (a b : ℤ) : ℤ := int64 (vmRationalGcd a b)

/-- `vm_rational_add`. -/
def rationalAdd (a b : VmRational) : Option VmRational :=
  vmRationalPack128 (int128 (int128 (a.num * b.denom) + int128 (b.num * a.denom)))
    (int128 (a.denom * b.denom))

/-- `vm_rational_sub`. -/
def rationalSub (a b : VmRational) : Option VmRational :=
  vmRationalPack128 (int128 (int128 (a.num * b.denom) - int128 (b.num * a.denom)))
    (int128 (a.denom * b.denom))

/-- The product of `a` and `n / d`, as `vm_rational_mul` and `vm_rational_div` form it. -/
def crossMul (a : VmRational) (n d : ℤ) : Option VmRational :=
  let g1 := gcdInt64 a.num d
  let g2 := gcdInt64 n a.denom
  vmRationalPack128 (int128 (a.num.tdiv g1 * n.tdiv g2)) (int128 (a.denom.tdiv g2 * d.tdiv g1))

/-- `vm_rational_mul`. -/
def rationalMul (a b : VmRational) : Option VmRational := crossMul a b.num b.denom

/-- `vm_rational_div`. -/
def rationalDiv (a b : VmRational) : Option VmRational :=
  if b.num = 0 then none
  else if b.num < 0 then crossMul a (int64 (-b.denom)) (int64 (-b.num))
  else crossMul a b.denom b.num

/-- `vm_rational_neg`. -/
def rationalNeg (a : VmRational) : Option VmRational :=
  if fitsInt64 (-a.num) then vmRationalAlloc (-a.num) a.denom else none

/-- `vm_rational_abs`. -/
def rationalAbs (a : VmRational) : Option VmRational :=
  if a.num < 0 then
    if -a.num > 2 ^ 63 - 1 then none else vmRationalAlloc (-a.num) a.denom
  else vmRationalAlloc a.num a.denom

/-- `vm_rational_inv`. -/
def rationalInv (a : VmRational) : Option VmRational :=
  if a.num = 0 then none else vmRationalAlloc a.denom a.num

/-- `vm_rational_compare`. -/
def rationalCompare (a b : VmRational) : ℤ :=
  let lhs := int128 (a.num * b.denom)
  let rhs := int128 (b.num * a.denom)
  if lhs < rhs then -1 else if lhs > rhs then 1 else 0

/-! ## Normalized rationals -/

/-- A normalized rational; an integer has the denominator 1. -/
structure Normal (r : VmRational) : Prop where
  num_fits : fitsInt64 r.num
  denom_fits : fitsInt64 r.denom
  denom_pos : 0 < r.denom
  coprime : Int.gcd r.num r.denom = 1

/-- A rational, if there is one, is normalized and has the value. -/
def Represents (result : Option VmRational) (q : ℚ) : Prop := ∀ r ∈ result, Normal r ∧ r.value = q

/-- All that the operations return for two rationals. -/
def results (a b : VmRational) : List (Option VmRational) :=
  [some a, some b, rationalAdd a b, rationalSub a b, rationalMul a b, rationalDiv a b, rationalNeg a,
    rationalAbs a, rationalInv a]

/-- Results are exact, and are compared by their values. -/
structure ArithmeticRight (a b : VmRational) : Prop where
  add : Represents (rationalAdd a b) (a.value + b.value)
  sub : Represents (rationalSub a b) (a.value - b.value)
  mul : Represents (rationalMul a b) (a.value * b.value)
  div : b.num ≠ 0 → Represents (rationalDiv a b) (a.value / b.value)
  neg : Represents (rationalNeg a) (-a.value)
  abs : Represents (rationalAbs a) |a.value|
  inv : a.num ≠ 0 → Represents (rationalInv a) a.value⁻¹
  compare : ∀ x y, some x ∈ results a b → some y ∈ results a b →
    rationalCompare x y = SignType.sign (x.value - y.value)

/-- The smallest numerator is not inverted; nor is it divided by, unless nothing comes of it. -/
def ReciprocalFits (a b : VmRational) : Prop :=
  a.num ≠ int64Min ∧ (b.num = int64Min → a.num = 0 ∨ ¬ Fits (-(a.value / b.value)))

lemma int64_eq {x : ℤ} (h : fitsInt64 x) : int64 x = x := by
  rw [fitsInt64_iff] at h
  exact Int.bmod_eq_of_le (by simpa using h.1) (by simp; omega)

lemma int128_eq {x : ℤ} (hlo : -2 ^ 127 ≤ x) (hhi : x < 2 ^ 127) : int128 x = x :=
  Int.bmod_eq_of_le (by simpa using hlo) (by simpa using hhi)

namespace Normal

variable {r s : VmRational}

lemma denom_ne (h : Normal r) : (r.denom : ℚ) ≠ 0 := by exact_mod_cast h.denom_pos.ne'

lemma bounds (h : Normal r) :
    -2 ^ 63 ≤ r.num ∧ r.num ≤ 2 ^ 63 - 1 ∧ 0 < r.denom ∧ r.denom ≤ 2 ^ 63 - 1 :=
  ⟨(fitsInt64_iff.1 h.num_fits).1, (fitsInt64_iff.1 h.num_fits).2, h.denom_pos,
    (fitsInt64_iff.1 h.denom_fits).2⟩

lemma of_bounds {n d : ℤ} (hn : -2 ^ 63 ≤ n ∧ n ≤ 2 ^ 63 - 1) (hd : 0 < d ∧ d ≤ 2 ^ 63 - 1)
    (h : Int.gcd n d = 1) : Normal ⟨n, d⟩ :=
  ⟨fitsInt64_iff.2 hn, fitsInt64_iff.2 ⟨by dsimp only; omega, hd.2⟩, hd.1, h⟩

lemma ofRat {q : ℚ} (h : Fits q) : Normal ⟨q.num, q.den⟩ :=
  ⟨h.1, h.2, Int.natCast_pos.2 q.den_pos, q.reduced⟩

lemma value_eq_zero (h : Normal r) : r.value = 0 ↔ r.num = 0 := by
  rw [VmRational.value, div_eq_zero_iff, or_iff_left h.denom_ne, Int.cast_eq_zero]

/-- A product of two parts leaves room for the sum of two. -/
lemma mul_denom_bounds (hr : Normal r) (hs : Normal s) :
    -2 ^ 126 < r.num * s.denom ∧ r.num * s.denom < 2 ^ 126 := by
  obtain ⟨hnlow, hnhigh, -, -⟩ := hr.bounds
  obtain ⟨-, -, hdpos, hdhigh⟩ := hs.bounds
  constructor <;> nlinarith

lemma denom_mul_bounds (hr : Normal r) (hs : Normal s) :
    0 < r.denom * s.denom ∧ r.denom * s.denom < 2 ^ 126 := by
  obtain ⟨-, -, hrpos, hrhigh⟩ := hr.bounds
  obtain ⟨-, -, hspos, hshigh⟩ := hs.bounds
  constructor <;> nlinarith

end Normal

/-! ### Packing -/

lemma represents_none (q : ℚ) : Represents none q := fun r h => by cases h

lemma represents_some {r : VmRational} {q : ℚ} : Represents (some r) q ↔ Normal r ∧ r.value = q := by
  constructor
  · intro h
    exact h r rfl
  · intro h x hx
    cases hx
    exact h

lemma represents_ofRat {q p : ℚ} :
    Represents (if Fits q then some ⟨q.num, q.den⟩ else none) p ↔ ¬ Fits q ∨ q = p := by
  by_cases h : Fits q
  · rw [if_pos h, represents_some, or_iff_right (not_not.2 h)]
    have hvalue : VmRational.value ⟨q.num, q.den⟩ = q := Rat.num_div_den q
    rw [hvalue]
    exact and_iff_right (Normal.ofRat h)
  · rw [if_neg h]
    exact iff_of_true (represents_none p) (.inl h)

/-- A negative denominator is turned around. -/
lemma pack128_of_ne {n d : ℤ} (hd : d ≠ 0) : vmRationalPack128 n d =
    if Fits (n / d : ℚ) then some ⟨(n / d : ℚ).num, (n / d : ℚ).den⟩ else none := by
  rcases lt_or_gt_of_ne hd with hneg | hpos
  · have hflip : vmRationalPack128 n d = vmRationalPack128 (-n) (-d) := by
      have hpos : ¬ -d < 0 := by omega
      simp only [vmRationalPack128, hd, hneg, hpos, neg_eq_zero, if_true, if_false]
    have hquotient : ((-n : ℤ) / (-d : ℤ) : ℚ) = n / d := by
      push_cast
      exact neg_div_neg_eq _ _
    rw [hflip, vmRationalPack128_eq (by omega), hquotient]
  · exact vmRationalPack128_eq hpos

lemma represents_pack128 {n d : ℤ} (hd : d ≠ 0) {q : ℚ} (hq : (n / d : ℚ) = q) :
    Represents (vmRationalPack128 n d) q := by
  rw [pack128_of_ne hd, represents_ofRat]
  exact .inr hq

lemma alloc_of_coprime {n d : ℤ} (hd : 0 < d) (h : Int.gcd n d = 1) :
    vmRationalAlloc n d = some ⟨n, d⟩ := by
  have hnum := Rat.num_div_eq_of_coprime hd h
  have hden := Rat.den_div_eq_of_coprime hd h
  have halloc := vmRationalAlloc_reduced (n / d : ℚ)
  rwa [hnum, hden] at halloc

/-! ### The operations -/

section operations

variable {a b : VmRational} (ha : Normal a) (hb : Normal b)
include ha hb

lemma represents_add : Represents (rationalAdd a b) (a.value + b.value) := by
  have hl := ha.mul_denom_bounds hb
  have hr := hb.mul_denom_bounds ha
  have hd := ha.denom_mul_bounds hb
  unfold rationalAdd
  rw [int128_eq (x := a.num * b.denom) (by omega) (by omega),
    int128_eq (x := b.num * a.denom) (by omega) (by omega),
    int128_eq (x := a.denom * b.denom) (by omega) (by omega), int128_eq (by omega) (by omega)]
  apply represents_pack128 hd.1.ne'
  rw [VmRational.value, VmRational.value, div_add_div _ _ ha.denom_ne hb.denom_ne]
  push_cast
  ring

lemma represents_sub : Represents (rationalSub a b) (a.value - b.value) := by
  have hl := ha.mul_denom_bounds hb
  have hr := hb.mul_denom_bounds ha
  have hd := ha.denom_mul_bounds hb
  unfold rationalSub
  rw [int128_eq (x := a.num * b.denom) (by omega) (by omega),
    int128_eq (x := b.num * a.denom) (by omega) (by omega),
    int128_eq (x := a.denom * b.denom) (by omega) (by omega), int128_eq (by omega) (by omega)]
  apply represents_pack128 hd.1.ne'
  rw [VmRational.value, VmRational.value, div_sub_div _ _ ha.denom_ne hb.denom_ne]
  push_cast
  ring

end operations

/-- A divisor that is one of a number's is no larger. -/
lemma gcdInt64_eq {a b : ℤ} (ha : a ≠ 0) (h : a.natAbs < 2 ^ 63) : gcdInt64 a b = vmRationalGcd a b := by
  have hle : Int.gcd a b ≤ a.natAbs := Nat.gcd_le_left _ (by omega)
  apply int64_eq
  rw [fitsInt64_iff, vmRationalGcd]
  omega

lemma gcdInt64_comm (a b : ℤ) : gcdInt64 a b = gcdInt64 b a := by
  rw [gcdInt64, gcdInt64, vmRationalGcd, vmRationalGcd, Int.gcd_comm]

/-- The quotient by a positive divisor is no larger. -/
lemma natAbs_tdiv_le (x g : ℤ) : (x.tdiv g).natAbs ≤ x.natAbs := by
  rw [Int.natAbs_tdiv]
  exact Nat.div_le_self _ _

lemma int128_mul {x y : ℤ} (hx : x.natAbs ≤ 2 ^ 63) (hy : y.natAbs ≤ 2 ^ 63) : int128 (x * y) = x * y := by
  have hprod : (x * y).natAbs ≤ 2 ^ 63 * 2 ^ 63 := by
    rw [Int.natAbs_mul]
    exact Nat.mul_le_mul hx hy
  apply int128_eq <;> omega

lemma crossMul_eq {a : VmRational} (ha : Normal a) {n d : ℤ} (hn : n.natAbs ≤ 2 ^ 63) (hd : d.natAbs ≤ 2 ^ 63) :
    crossMul a n d = vmRationalPack128 (a.num.tdiv (gcdInt64 a.num d) * n.tdiv (vmRationalGcd n a.denom))
      (a.denom.tdiv (vmRationalGcd n a.denom) * d.tdiv (gcdInt64 a.num d)) := by
  obtain ⟨hlow, hhigh, hpos, hdhigh⟩ := ha.bounds
  have hg : gcdInt64 n a.denom = vmRationalGcd n a.denom := by
    rw [gcdInt64_comm, gcdInt64_eq (by omega) (by omega), vmRationalGcd, vmRationalGcd, Int.gcd_comm]
  unfold crossMul
  rw [hg]
  simp only
  rw [int128_mul ((natAbs_tdiv_le _ _).trans (by omega)) ((natAbs_tdiv_le _ _).trans hn),
    int128_mul ((natAbs_tdiv_le _ _).trans (by omega)) ((natAbs_tdiv_le _ _).trans hd)]

lemma represents_crossMul {a : VmRational} (ha : Normal a) {n d : ℤ} (hn : n.natAbs ≤ 2 ^ 63)
    (hd : 0 < d) (hd' : d < 2 ^ 63) : Represents (crossMul a n d) (a.value * (n / d)) := by
  obtain ⟨hpos, hvalue⟩ := cross_reduced a.num n ha.denom_pos hd
  have hg : gcdInt64 a.num d = vmRationalGcd a.num d := by
    rw [gcdInt64_comm, gcdInt64_eq (by omega) (by omega), vmRationalGcd, vmRationalGcd, Int.gcd_comm]
  rw [crossMul_eq ha hn (by omega), hg]
  exact represents_pack128 hpos.ne' hvalue

/-- The divisor of the smallest integer may have no `int64_t`; its negation is read then, in both
quotients. -/
lemma gcdInt64_min (n : ℤ) : gcdInt64 n int64Min = vmRationalGcd n (2 ^ 63) ∨
    gcdInt64 n int64Min = -vmRationalGcd n (2 ^ 63) := by
  have hgcd : vmRationalGcd n int64Min = vmRationalGcd n (2 ^ 63) := by
    rw [vmRationalGcd, vmRationalGcd, int64Min, Int.gcd_neg]
  have hle : Int.gcd n (2 ^ 63) ≤ 2 ^ 63 := Nat.gcd_le_right _ (by decide)
  rw [gcdInt64, hgcd]
  by_cases hmax : Int.gcd n (2 ^ 63) = 2 ^ 63
  · right
    rw [vmRationalGcd, hmax]
    rfl
  · left
    apply int64_eq
    rw [fitsInt64_iff, vmRationalGcd]
    omega

lemma crossMul_min {a : VmRational} (ha : Normal a) {m : ℤ} (hm : 0 < m) (hm' : m < 2 ^ 63) :
    ∃ n d : ℤ, d ≠ 0 ∧ (n / d : ℚ) = a.value * (m / 2 ^ 63) ∧
      crossMul a (-m) int64Min = vmRationalPack128 n d := by
  have hmax : (0 : ℤ) < 2 ^ 63 := by norm_num
  obtain ⟨hpos, hvalue⟩ := cross_reduced a.num (-m) ha.denom_pos hmax
  have hvalue' : a.value * (m / 2 ^ 63) = -((a.num / a.denom : ℚ) * (((-m : ℤ) : ℚ) / (2 ^ 63 : ℤ))) := by
    rw [VmRational.value]
    push_cast
    ring
  have hmin : int64Min.tdiv (vmRationalGcd a.num (2 ^ 63)) = -(2 ^ 63 : ℤ).tdiv (vmRationalGcd a.num (2 ^ 63)) :=
    Int.neg_tdiv _ _
  refine ⟨_, _, ?_, ?_, crossMul_eq ha (by omega) (by decide)⟩
  · rcases gcdInt64_min a.num with hg | hg
    · rw [hg, hmin, mul_neg]
      exact neg_ne_zero.2 hpos.ne'
    · rw [hg, Int.tdiv_neg, hmin, neg_neg]
      exact hpos.ne'
  · rw [hvalue', ← hvalue]
    rcases gcdInt64_min a.num with hg | hg
    · rw [hg, hmin, mul_neg, Int.cast_neg, div_neg]
    · rw [hg, Int.tdiv_neg, Int.tdiv_neg, hmin, neg_neg, neg_mul, Int.cast_neg, neg_div]

section operations

variable {a b : VmRational} (ha : Normal a) (hb : Normal b)

include ha hb in
lemma represents_mul : Represents (rationalMul a b) (a.value * b.value) := by
  obtain ⟨hlow, hhigh, hpos, hdhigh⟩ := hb.bounds
  exact represents_crossMul ha (by omega) hpos (by omega)

include ha hb in
lemma represents_div (hmin : b.num ≠ int64Min) : Represents (rationalDiv a b) (a.value / b.value) := by
  obtain ⟨hlow, hhigh, hpos, hdhigh⟩ := hb.bounds
  rw [int64Min] at hmin
  unfold rationalDiv
  rw [VmRational.value.eq_1 b, div_eq_mul_inv a.value, inv_div]
  by_cases hzero : b.num = 0
  · rw [if_pos hzero]
    exact represents_none _
  rw [if_neg hzero]
  by_cases hneg : b.num < 0
  · have hquotient : (b.denom / b.num : ℚ) = ((-b.denom : ℤ) / (-b.num : ℤ) : ℚ) := by
      push_cast
      exact (neg_div_neg_eq _ _).symm
    rw [if_pos hneg, int64_eq (fitsInt64_iff.2 (by omega)), int64_eq (fitsInt64_iff.2 (by omega)),
      hquotient]
    exact represents_crossMul ha (by omega) (by omega) (by omega)
  · rw [if_neg hneg]
    exact represents_crossMul ha (by omega) (by omega) (by omega)

include ha hb in
/-- Of a division by the smallest numerator the code has the opposite. -/
lemma represents_div_min (hmin : b.num = int64Min) :
    Represents (rationalDiv a b) (a.value / b.value) ↔ a.num = 0 ∨ ¬ Fits (-(a.value / b.value)) := by
  obtain ⟨-, -, hpos, hdhigh⟩ := hb.bounds
  obtain ⟨n, d, hd, hvalue, hcross⟩ := crossMul_min ha hpos (by omega)
  have hdiv : rationalDiv a b = vmRationalPack128 n d := by
    unfold rationalDiv
    rw [hmin, if_neg (by decide), if_pos (by decide), int64_eq (fitsInt64_iff.2 (by omega)),
      show int64 (-int64Min) = int64Min from rfl]
    exact hcross
  have hopposite : (n / d : ℚ) = -(a.value / b.value) := by
    rw [hvalue, VmRational.value.eq_1 b, hmin, int64Min]
    push_cast
    rw [div_div_eq_mul_div, div_neg, neg_neg, mul_div_assoc]
    norm_num
  have hself : -(a.value / b.value) = a.value / b.value ↔ a.num = 0 := by
    have hb0 : b.value ≠ 0 := by
      rw [Ne, hb.value_eq_zero, hmin]
      decide
    rw [neg_eq_self, div_eq_zero_iff, or_iff_left hb0, ha.value_eq_zero]
  rw [hdiv, pack128_of_ne hd, hopposite, represents_ofRat, hself, or_comm]

include ha in
lemma represents_neg : Represents (rationalNeg a) (-a.value) := by
  unfold rationalNeg
  split_ifs with hfits
  · rw [alloc_of_coprime ha.denom_pos (by rw [Int.neg_gcd, ha.coprime]), represents_some]
    refine ⟨⟨hfits, ha.denom_fits, ha.denom_pos, by rw [Int.neg_gcd, ha.coprime]⟩, ?_⟩
    rw [VmRational.value, VmRational.value, Int.cast_neg, neg_div]
  · exact represents_none _

include ha in
lemma represents_abs : Represents (rationalAbs a) |a.value| := by
  have hpos : (0 : ℚ) < a.denom := by exact_mod_cast ha.denom_pos
  obtain ⟨hlow, hhigh, hpos', hdhigh⟩ := ha.bounds
  rw [VmRational.value, abs_div, abs_of_pos hpos]
  unfold rationalAbs
  by_cases hneg : a.num < 0
  · rw [if_pos hneg]
    split_ifs with hmax
    · exact represents_none _
    · rw [alloc_of_coprime ha.denom_pos (by rw [Int.neg_gcd, ha.coprime]), represents_some]
      refine ⟨Normal.of_bounds (by omega) ⟨hpos', hdhigh⟩ (by rw [Int.neg_gcd, ha.coprime]), ?_⟩
      rw [VmRational.value, Int.cast_neg, abs_of_neg (by exact_mod_cast hneg)]
  · rw [if_neg hneg, alloc_of_coprime ha.denom_pos ha.coprime, represents_some,
      abs_of_nonneg (by exact_mod_cast not_lt.1 hneg)]
    exact ⟨ha, rfl⟩

include ha in
lemma represents_inv (hmin : a.num ≠ int64Min) : Represents (rationalInv a) a.value⁻¹ := by
  obtain ⟨hlow, hhigh, hpos, hdhigh⟩ := ha.bounds
  rw [int64Min] at hmin
  have hcoprime : Int.gcd a.denom a.num = 1 := by rw [Int.gcd_comm, ha.coprime]
  unfold rationalInv
  rw [VmRational.value, inv_div]
  by_cases hzero : a.num = 0
  · rw [if_pos hzero]
    exact represents_none _
  rw [if_neg hzero]
  by_cases hneg : a.num < 0
  · have hflip : vmRationalAlloc a.denom a.num = vmRationalAlloc (-a.denom) (-a.num) := by
      have hpos' : ¬ -a.num < 0 := by omega
      have hnomin : ¬ (a.denom = -2 ^ 63 ∨ a.num = -2 ^ 63) := by omega
      simp only [vmRationalAlloc, vmRationalNormalize, int64Min, hzero, hneg, hpos', hnomin, neg_eq_zero,
        true_and, false_and, if_true, if_false]
    rw [hflip, alloc_of_coprime (by omega) (by rw [Int.gcd_neg, Int.neg_gcd, hcoprime]), represents_some]
    refine ⟨Normal.of_bounds (by omega) (by omega) (by rw [Int.gcd_neg, Int.neg_gcd, hcoprime]), ?_⟩
    rw [VmRational.value, Int.cast_neg, Int.cast_neg, neg_div_neg_eq]
  · rw [alloc_of_coprime (by omega) hcoprime, represents_some]
    exact ⟨Normal.of_bounds (by omega) (by omega) hcoprime, rfl⟩

/-- The smallest numerator stays under the line, with its sign. -/
lemma not_represents_inv (hmin : a.num = int64Min) : ¬ Represents (rationalInv a) a.value⁻¹ := by
  have hresult : rationalInv a = some ⟨a.denom, int64Min⟩ := by
    unfold rationalInv
    rw [hmin, if_neg (by decide)]
    simp [vmRationalAlloc, vmRationalNormalize, int64Min]
  intro h
  rw [hresult, represents_some] at h
  exact absurd h.1.denom_pos (by decide : ¬ 0 < int64Min)

include ha hb in
/-- Comparisons are exact. -/
lemma rationalCompare_eq : rationalCompare a b = SignType.sign (a.value - b.value) := by
  have hl := ha.mul_denom_bounds hb
  have hr := hb.mul_denom_bounds ha
  have hda : (0 : ℚ) < a.denom := by exact_mod_cast ha.denom_pos
  have hdb : (0 : ℚ) < b.denom := by exact_mod_cast hb.denom_pos
  have hlt : a.value < b.value ↔ a.num * b.denom < b.num * a.denom := by
    rw [VmRational.value, VmRational.value, div_lt_div_iff₀ hda hdb]
    exact_mod_cast Iff.rfl
  have hgt : b.value < a.value ↔ b.num * a.denom < a.num * b.denom := by
    rw [VmRational.value, VmRational.value, div_lt_div_iff₀ hdb hda]
    exact_mod_cast Iff.rfl
  unfold rationalCompare
  rw [int128_eq (by omega) (by omega), int128_eq (by omega) (by omega)]
  rcases lt_trichotomy a.value b.value with h | h | h
  · rw [sign_neg (sub_neg.2 h)]
    simp only [if_pos (hlt.1 h)]
    rfl
  · have hnlt : ¬ a.num * b.denom < b.num * a.denom := fun hc => (hlt.2 hc).ne h
    have hngt : ¬ a.num * b.denom > b.num * a.denom := fun hc => (hgt.2 hc).ne h.symm
    rw [h, sub_self, sign_zero]
    simp only [if_neg hnlt, if_neg hngt]
    rfl
  · have hnlt : ¬ a.num * b.denom < b.num * a.denom := fun hc => (hlt.2 hc).not_gt h
    rw [sign_pos (sub_pos.2 h)]
    simp only [if_neg hnlt, if_pos (hgt.1 h)]
    rfl

end operations

/-! ### All of them -/

theorem arithmeticRight_iff {a b : VmRational} (ha : Normal a) (hb : Normal b) :
    ArithmeticRight a b ↔ ReciprocalFits a b := by
  have hnonzero : int64Min ≠ 0 := by decide
  constructor
  · intro h
    constructor
    · intro hmin
      exact not_represents_inv hmin (h.inv (by rw [hmin]; exact hnonzero))
    · intro hmin
      exact (represents_div_min ha hb hmin).1 (h.div (by rw [hmin]; exact hnonzero))
  · intro ⟨hinv, hdiv⟩
    have hdivided : Represents (rationalDiv a b) (a.value / b.value) := by
      by_cases hmin : b.num = int64Min
      · exact (represents_div_min ha hb hmin).2 (hdiv hmin)
      · exact represents_div ha hb hmin
    have hadd := represents_add ha hb
    have hsub := represents_sub ha hb
    have hmul := represents_mul ha hb
    have hneg := represents_neg ha
    have habs := represents_abs ha
    have hinverse := represents_inv ha hinv
    -- so all results are normalized
    have hnormal : ∀ x, some x ∈ results a b → Normal x := by
      intro x hx
      simp only [results, List.mem_cons, Option.some.injEq, List.not_mem_nil, or_false] at hx
      rcases hx with rfl | rfl | hx | hx | hx | hx | hx | hx | hx
      · exact ha
      · exact hb
      · exact (hadd x hx.symm).1
      · exact (hsub x hx.symm).1
      · exact (hmul x hx.symm).1
      · exact (hdivided x hx.symm).1
      · exact (hneg x hx.symm).1
      · exact (habs x hx.symm).1
      · exact (hinverse x hx.symm).1
    exact ⟨hadd, hsub, hmul, fun _ => hdivided, hneg, habs, fun _ => hinverse,
      fun x y hx hy => rationalCompare_eq (hnormal x hx) (hnormal y hy)⟩

/-- Next to the smallest numerator. -/
theorem arithmeticRight_quarters : ArithmeticRight ⟨1 - 2 ^ 63, 4⟩ ⟨-3, 4⟩ :=
  (arithmeticRight_iff (a := ⟨1 - 2 ^ 63, 4⟩) (b := ⟨-3, 4⟩) ⟨by decide, by decide, by decide, by decide⟩
    ⟨by decide, by decide, by decide, by decide⟩).2 ⟨by decide, by decide⟩

/-- The reciprocal of `-2^63`. -/
theorem not_arithmeticRight : ¬ ∀ a b, Normal a → Normal b → ArithmeticRight a b := by
  intro h
  have hnormal : Normal ⟨int64Min, 1⟩ := ⟨by decide, by decide, by decide, by decide⟩
  exact not_represents_inv rfl ((h _ _ hnormal hnormal).inv (by decide))

end Vm.Numbers
