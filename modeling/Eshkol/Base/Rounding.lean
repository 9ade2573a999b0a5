import Mathlib.Data.Rat.Floor
import Mathlib.Data.Int.ConditionallyCompleteOrder
import Mathlib.Data.Int.Log
import Mathlib.Tactic.Positivity

/-!
# Rounding to a fixed precision

Rational numbers rounded to the nearest integer, and to the nearest number with a leading bit and
`p` bits after it; a tie goes to the even neighbour. There is no bound on the exponent.
-/

namespace Rounding

/-! ## To an integer -/

def roundHalfEven (q : ℚ) : ℤ :=
  if q - ⌊q⌋ < 1 / 2 then ⌊q⌋
  else if 1 / 2 < q - ⌊q⌋ then ⌊q⌋ + 1
  else if ⌊q⌋ % 2 = 0 then ⌊q⌋
  else ⌊q⌋ + 1

@[simp]
lemma roundHalfEven_intCast (i : ℤ) : roundHalfEven i = i := by
  simp [roundHalfEven]

lemma floor_le_roundHalfEven (q : ℚ) : ⌊q⌋ ≤ roundHalfEven q := by
  unfold roundHalfEven
  split_ifs <;> omega

lemma roundHalfEven_le_floor_add_one (q : ℚ) : roundHalfEven q ≤ ⌊q⌋ + 1 := by
  unfold roundHalfEven
  split_ifs <;> omega

lemma roundHalfEven_mono : Monotone roundHalfEven := by
  intro q r h
  rcases (Int.floor_mono h).eq_or_lt with hfloor | hfloor
  · -- the same neighbours: the larger one is nearer to the upper one
    unfold roundHalfEven
    rw [hfloor]
    split_ifs <;> first | omega | linarith
  · calc roundHalfEven q ≤ ⌊q⌋ + 1 := roundHalfEven_le_floor_add_one q
      _ ≤ ⌊r⌋ := hfloor
      _ ≤ roundHalfEven r := floor_le_roundHalfEven r

lemma roundHalfEven_neg (q : ℚ) : roundHalfEven (-q) = -roundHalfEven q := by
  rcases eq_or_ne q ⌊q⌋ with hq | hq
  · rw [hq, ← Int.cast_neg]
    simp only [roundHalfEven_intCast]
  · have hfloor : ⌊-q⌋ = -⌊q⌋ - 1 := by
      have hle := Int.floor_le q
      have hlt := Int.lt_floor_add_one q
      have hstrict := lt_of_le_of_ne hle (Ne.symm hq)
      rw [Int.floor_eq_iff]
      push_cast
      constructor <;> linarith
    unfold roundHalfEven
    rw [hfloor]
    push_cast
    split_ifs <;> first | omega | linarith

/-! ## To `p` bits after the leading one -/

/-- The exponent of the last bit kept of `q`. -/
def lastBit (p : ℕ) (q : ℚ) : ℤ := Int.log 2 |q| - p

def roundToBits (p : ℕ) (q : ℚ) : ℚ :=
  roundHalfEven (q / 2 ^ lastBit p q) * 2 ^ lastBit p q

@[simp]
lemma roundToBits_zero (p : ℕ) : roundToBits p 0 = 0 := by
  have h := roundHalfEven_intCast 0
  rw [Int.cast_zero] at h
  simp [roundToBits, h]

lemma roundToBits_neg (p : ℕ) (q : ℚ) : roundToBits p (-q) = -roundToBits p q := by
  simp [roundToBits, lastBit, neg_div, roundHalfEven_neg]

lemma lastBit_pos (p : ℕ) (q : ℚ) : (0 : ℚ) < 2 ^ lastBit p q := zpow_pos (by norm_num) _

/-- A whole number of last bits is kept. -/
theorem roundToBits_of_eq {p : ℕ} {q : ℚ} {i : ℤ} (h : q = i * 2 ^ lastBit p q) :
    roundToBits p q = q := by
  have hdiv : q / 2 ^ lastBit p q = i := by
    rw [div_eq_iff (lastBit_pos p q).ne']
    exact h
  rw [roundToBits, hdiv, roundHalfEven_intCast]
  exact h.symm

/-! ### Integers -/

lemma roundToBits_of_lastBit_le {p : ℕ} {i : ℤ} (h : lastBit p (i : ℚ) ≤ 0) :
    roundToBits p (i : ℚ) = i := by
  obtain ⟨n, hn⟩ := Int.eq_ofNat_of_zero_le (neg_nonneg.2 h)
  have hpow : (2 : ℚ) ^ n * 2 ^ lastBit p (i : ℚ) = 1 := by
    rw [← zpow_natCast, ← zpow_add₀ (by norm_num : (2 : ℚ) ≠ 0), ← hn]
    simp
  apply roundToBits_of_eq (i := i * 2 ^ n)
  push_cast
  rw [mul_assoc, hpow, mul_one]

/-- An integer of at most `p + 1` bits is kept. -/
theorem roundToBits_intCast {p : ℕ} {i : ℤ} (h : |i| < 2 ^ (p + 1)) :
    roundToBits p (i : ℚ) = i := by
  apply roundToBits_of_lastBit_le
  rcases eq_or_ne i 0 with rfl | hi
  · simp [lastBit]
  · have hpos : (0 : ℚ) < |(i : ℚ)| := by
      rw [abs_pos]
      exact_mod_cast hi
    have hlog : Int.log 2 |(i : ℚ)| < (p + 1 : ℕ) := by
      rw [← Int.lt_zpow_iff_log_lt (by norm_num) hpos, zpow_natCast]
      exact_mod_cast h
    unfold lastBit
    omega

lemma roundToBits_two_zpow (p : ℕ) (n : ℤ) : roundToBits p (2 ^ n) = 2 ^ n := by
  apply roundToBits_of_eq (i := 2 ^ p)
  have habs : |(2 : ℚ) ^ n| = 2 ^ n := abs_of_pos (zpow_pos (by norm_num) n)
  have hlog : Int.log 2 ((2 : ℚ) ^ n) = n := by exact_mod_cast Int.log_zpow (R := ℚ) (by norm_num : 1 < 2) n
  push_cast
  rw [lastBit, habs, hlog, ← zpow_natCast, ← zpow_add₀ (by norm_num : (2 : ℚ) ≠ 0)]
  congr 1
  omega

/-- An integer stays one. -/
theorem exists_roundToBits_intCast (p : ℕ) (i : ℤ) : ∃ k : ℤ, roundToBits p (i : ℚ) = k := by
  rcases le_total (lastBit p (i : ℚ)) 0 with he | he
  · exact ⟨i, roundToBits_of_lastBit_le he⟩
  · obtain ⟨n, hn⟩ := Int.eq_ofNat_of_zero_le he
    refine ⟨roundHalfEven ((i : ℚ) / 2 ^ lastBit p (i : ℚ)) * 2 ^ n, ?_⟩
    rw [roundToBits, hn]
    push_cast
    rfl

/-! ### Order -/

/-- The result lies between the powers of two around the number. -/
theorem roundToBits_bounds (p : ℕ) {q : ℚ} (hq : 0 < q) :
    2 ^ Int.log 2 q ≤ roundToBits p q ∧ roundToBits p q ≤ 2 ^ (Int.log 2 q + 1) := by
  have habs : |q| = q := abs_of_pos hq
  have hpos := lastBit_pos p q
  have htwo : (2 : ℚ) ≠ 0 := by norm_num
  have hlow : (2 : ℚ) ^ p * 2 ^ lastBit p q = 2 ^ Int.log 2 q := by
    rw [← zpow_natCast, ← zpow_add₀ htwo, lastBit, habs]
    congr 1
    omega
  have hhigh : (2 : ℚ) ^ (p + 1) * 2 ^ lastBit p q = 2 ^ (Int.log 2 q + 1) := by
    rw [← zpow_natCast, ← zpow_add₀ htwo, lastBit, habs]
    congr 1
    push_cast
    omega
  constructor
  · have hle : (((2 ^ p : ℤ)) : ℚ) ≤ q / 2 ^ lastBit p q := by
      rw [le_div_iff₀ hpos]
      push_cast
      rw [hlow]
      exact Int.zpow_log_le_self (by norm_num) hq
    have hround := roundHalfEven_mono hle
    rw [roundHalfEven_intCast] at hround
    rw [← hlow, roundToBits]
    exact mul_le_mul_of_nonneg_right (by exact_mod_cast hround) hpos.le
  · have hle : q / 2 ^ lastBit p q ≤ (((2 ^ (p + 1) : ℤ)) : ℚ) := by
      rw [div_le_iff₀ hpos]
      push_cast
      rw [hhigh]
      exact (Int.lt_zpow_succ_log_self (by norm_num) q).le
    have hround := roundHalfEven_mono hle
    rw [roundHalfEven_intCast] at hround
    rw [← hhigh, roundToBits]
    exact mul_le_mul_of_nonneg_right (by exact_mod_cast hround) hpos.le

lemma roundToBits_pos (p : ℕ) {q : ℚ} (hq : 0 < q) : 0 < roundToBits p q :=
  lt_of_lt_of_le (zpow_pos (by norm_num) _) (roundToBits_bounds p hq).1

lemma roundToBits_nonneg (p : ℕ) {q : ℚ} (hq : 0 ≤ q) : 0 ≤ roundToBits p q := by
  rcases hq.eq_or_lt with rfl | hq
  · simp
  · exact (roundToBits_pos p hq).le

lemma roundToBits_le_of_pos (p : ℕ) {q r : ℚ} (hq : 0 < q) (h : q ≤ r) :
    roundToBits p q ≤ roundToBits p r := by
  have hr : 0 < r := hq.trans_le h
  have hlog : Int.log 2 q ≤ Int.log 2 r := Int.log_mono_right hq h
  rcases hlog.eq_or_lt with hlog | hlog
  · -- one last bit for both
    have hbit : lastBit p q = lastBit p r := by
      rw [lastBit, lastBit, abs_of_pos hq, abs_of_pos hr, hlog]
    have hpos := lastBit_pos p r
    have hround : roundHalfEven (q / 2 ^ lastBit p r) ≤ roundHalfEven (r / 2 ^ lastBit p r) :=
      roundHalfEven_mono (div_le_div_of_nonneg_right h hpos.le)
    rw [roundToBits, roundToBits, hbit]
    exact mul_le_mul_of_nonneg_right (by exact_mod_cast hround) hpos.le
  · calc roundToBits p q ≤ 2 ^ (Int.log 2 q + 1) := (roundToBits_bounds p hq).2
      _ ≤ 2 ^ Int.log 2 r := zpow_le_zpow_right₀ (by norm_num) hlog
      _ ≤ roundToBits p r := (roundToBits_bounds p hr).1

lemma roundToBits_mono (p : ℕ) : Monotone (roundToBits p) := by
  intro q r h
  rcases lt_or_ge 0 q with hq | hq
  · exact roundToBits_le_of_pos p hq h
  rcases lt_or_ge r 0 with hr | hr
  · -- both negative: the reflected pair is in the opposite order
    have hneg := roundToBits_le_of_pos p (neg_pos.2 hr) (neg_le_neg h)
    rw [roundToBits_neg, roundToBits_neg] at hneg
    linarith
  · have hq' := roundToBits_nonneg p (neg_nonneg.2 hq)
    rw [roundToBits_neg] at hq'
    have hr' := roundToBits_nonneg p hr
    linarith

/-! ## Quotients of integers -/

section quotients

variable {d : ℤ}

lemma floor_intCast_div (hd : 0 < d) (n : ℤ) : ⌊(n : ℚ) / d⌋ = n / d := by
  lift d to ℕ using hd.le
  exact_mod_cast Rat.floor_intCast_div_natCast n d

lemma ceil_intCast_div (hd : 0 < d) (n : ℤ) : ⌈(n : ℚ) / d⌉ = -(-n / d) := by
  rw [← floor_intCast_div hd, ← neg_inj, neg_neg, ← Int.floor_neg]
  push_cast
  rw [neg_div]

/-- The integer next to `q` on the side of zero. -/
def towardZero (q : ℚ) : ℤ := if 0 ≤ q then ⌊q⌋ else ⌈q⌉

lemma towardZero_intCast_div (hd : 0 < d) (n : ℤ) : towardZero ((n : ℚ) / d) = n.tdiv d := by
  have hd' : (0 : ℚ) < d := by exact_mod_cast hd
  unfold towardZero
  rw [floor_intCast_div hd, ceil_intCast_div hd]
  by_cases hn : 0 ≤ n
  · have hq : (0 : ℚ) ≤ n / d := div_nonneg (by exact_mod_cast hn) hd'.le
    rw [if_pos hq, Int.tdiv_eq_ediv_of_nonneg hn]
  · have hq : ¬ (0 : ℚ) ≤ n / d := by
      rw [not_le]
      exact div_neg_of_neg_of_pos (by exact_mod_cast not_le.1 hn) hd'
    rw [if_neg hq, ← Int.tdiv_eq_ediv_of_nonneg (by omega : 0 ≤ -n), Int.neg_tdiv, neg_neg]

/-- The floor, from the quotient that is rounded toward zero. -/
theorem ediv_eq_tdiv (hd : 0 < d) (n : ℤ) :
    n / d = if 0 ≤ n ∨ n.tmod d = 0 then n.tdiv d else n.tdiv d - 1 := by
  have hsum := Int.mul_tdiv_add_tmod n d
  have hlow := Int.lt_tmod_of_pos n hd
  have hhigh := Int.tmod_lt_of_pos n hd
  split_ifs with h
  · have hnonneg : 0 ≤ n.tmod d := h.elim (Int.tmod_nonneg d) fun hzero => hzero.ge
    exact ((Int.ediv_emod_unique hd).2 ⟨by linarith, hnonneg, hhigh⟩).1
  · have hneg : n.tmod d < 0 := by
      have hle := Int.tmod_nonneg d (by omega : 0 ≤ -n)
      rw [Int.neg_tmod] at hle
      omega
    have hrem : n.tmod d + d + d * (n.tdiv d - 1) = n := by linarith
    exact ((Int.ediv_emod_unique hd).2 ⟨hrem, by omega, by omega⟩).1

/-- The ceiling, from the quotient that is rounded toward zero. -/
theorem neg_ediv_eq_tdiv (hd : 0 < d) (n : ℤ) :
    -(-n / d) = if n ≤ 0 ∨ n.tmod d = 0 then n.tdiv d else n.tdiv d + 1 := by
  rw [ediv_eq_tdiv hd (-n), Int.neg_tdiv, Int.neg_tmod]
  simp only [neg_nonneg, neg_eq_zero]
  split_ifs <;> omega

/-- The fractional part of a quotient is compared with one half in integers. -/
theorem roundHalfEven_intCast_div (hd : 0 < d) (n : ℤ) :
    roundHalfEven ((n : ℚ) / d) =
      if 2 * (n % d) < d then n / d
      else if d < 2 * (n % d) then n / d + 1
      else if n / d % 2 = 0 then n / d
      else n / d + 1 := by
  have hd' : (0 : ℚ) < d := by exact_mod_cast hd
  have hfraction : (n : ℚ) / d - (n / d : ℤ) = (n % d : ℤ) / d := by
    rw [eq_div_iff hd'.ne', sub_mul, div_mul_cancel₀ _ hd'.ne', Int.emod_def]
    push_cast
    ring
  have hlow : (n : ℚ) / d - (n / d : ℤ) < 1 / 2 ↔ 2 * (n % d) < d := by
    rw [hfraction, div_lt_div_iff₀ hd' two_pos, one_mul, mul_comm]
    exact_mod_cast Iff.rfl
  have hhigh : (1 : ℚ) / 2 < (n : ℚ) / d - (n / d : ℤ) ↔ d < 2 * (n % d) := by
    rw [hfraction, div_lt_div_iff₀ two_pos hd', one_mul, mul_comm]
    exact_mod_cast Iff.rfl
  unfold roundHalfEven
  rw [floor_intCast_div hd]
  simp only [hlow, hhigh]

/-- A remainder of more than half of `d` rounds away from zero. -/
theorem roundHalfEven_eq_tdiv (hd : 0 < d) (n : ℤ) :
    roundHalfEven ((n : ℚ) / d) =
      if d < 2 * |n.tmod d| ∨ 2 * |n.tmod d| = d ∧ n.tdiv d % 2 ≠ 0 then
        if 0 ≤ n then n.tdiv d + 1 else n.tdiv d - 1
      else n.tdiv d := by
  -- for a negative number, that of the opposite
  have hnonneg : ∀ {m : ℤ}, 0 ≤ m → roundHalfEven ((m : ℚ) / d) =
      if d < 2 * m.tmod d ∨ 2 * m.tmod d = d ∧ m.tdiv d % 2 ≠ 0 then m.tdiv d + 1 else m.tdiv d := by
    intro m hm
    rw [roundHalfEven_intCast_div hd, Int.tdiv_eq_ediv_of_nonneg hm, Int.tmod_eq_emod_of_nonneg hm]
    split_ifs <;> omega
  by_cases hn : 0 ≤ n
  · rw [hnonneg hn, abs_of_nonneg (Int.tmod_nonneg d hn)]
    simp only [if_pos hn]
  · have hopposite := hnonneg (by omega : 0 ≤ -n)
    have hrem := Int.tmod_nonneg d (by omega : 0 ≤ -n)
    rw [Int.neg_tmod] at hrem
    rw [Int.cast_neg, neg_div, roundHalfEven_neg, Int.neg_tmod, Int.neg_tdiv] at hopposite
    rw [abs_of_nonpos (by omega)]
    simp only [if_neg hn]
    split_ifs at hopposite ⊢ <;> omega

end quotients

end Rounding
