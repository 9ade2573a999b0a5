import Eshkol.Base.Radix
import Mathlib.Data.Int.Bitwise
import Mathlib.Data.Rat.Floor

/-!
# Bits of digit lists and of integers

A digit list in radix `2 ^ w` has the bits of its digits, one digit after the other. The bits of an integer
are those of its infinite two's complement representation: from some place on they all are its sign.
-/

namespace Radix

open Nat (ofDigits)

variable {w : ℕ}

lemma testBit_ofDigits_cons {d : ℕ} {l : List ℕ} (hd : d < 2 ^ w) (i : ℕ) :
    (ofDigits (2 ^ w) (d :: l)).testBit i =
      if i < w then d.testBit i else (ofDigits (2 ^ w) l).testBit (i - w) := by
  rw [Nat.ofDigits_cons, Nat.add_comm]
  exact Nat.testBit_two_pow_mul_add _ hd i

/-- A bit of the number is a bit of the digit at its place. -/
theorem testBit_ofDigits {l : List ℕ} (hw : 0 < w) (hl : Digits (2 ^ w) l) (i : ℕ) :
    (ofDigits (2 ^ w) l).testBit i = (l.getD (i / w) 0).testBit (i % w) := by
  induction l generalizing i with
  | nil => simp
  | cons d l ih =>
    rw [digits_cons] at hl
    rw [testBit_ofDigits_cons hl.1]
    by_cases hi : i < w
    · rw [if_pos hi, Nat.div_eq_of_lt hi, Nat.mod_eq_of_lt hi]
      rfl
    · have hdiv : i / w = (i - w) / w + 1 := by
        rw [Nat.div_eq_sub_div hw (Nat.le_of_not_lt hi)]
      have hmod : i % w = (i - w) % w := Nat.mod_eq_sub_mod (Nat.le_of_not_lt hi)
      rw [if_neg hi, ih hl.2, hdiv, hmod]
      rfl

/-- `n` entries combined one by one, the shorter list filled up with `zero`. -/
def zipPad {α : Type*} (op : α → α → α) (zero : α) : ℕ → List α → List α → List α
  | 0, _, _ => []
  | n + 1, xs, ys => op (xs.headD zero) (ys.headD zero) :: zipPad op zero n xs.tail ys.tail

lemma map_zipPad {α β : Type*} {op : α → α → α} {op' : β → β → β} {φ : α → β}
    (h : ∀ x y, φ (op x y) = op' (φ x) (φ y)) (zero : α) (n : ℕ) (xs ys : List α) :
    (zipPad op zero n xs ys).map φ = zipPad op' (φ zero) n (xs.map φ) (ys.map φ) := by
  induction n generalizing xs ys with
  | zero => rfl
  | succ n ih =>
    have hhead : ∀ l : List α, (l.map φ).headD (φ zero) = φ (l.headD zero) := by
      intro l
      cases l <;> rfl
    rw [zipPad, zipPad, List.map_cons, h, ih, hhead, hhead, List.map_tail, List.map_tail]

lemma zipWith_eq_zipPad {α : Type*} (op : α → α → α) (zero : α) {n : ℕ} {xs ys : List α}
    (hx : xs.length = n) (hy : ys.length = n) : List.zipWith op xs ys = zipPad op zero n xs ys := by
  induction n generalizing xs ys with
  | zero =>
    rw [List.length_eq_zero_iff.1 hx]
    rfl
  | succ n ih =>
    obtain ⟨x, xs, rfl⟩ := List.exists_cons_of_length_eq_add_one hx
    obtain ⟨y, ys, rfl⟩ := List.exists_cons_of_length_eq_add_one hy
    rw [List.zipWith_cons_cons, ih (by simpa using hx) (by simpa using hy)]
    rfl

/-- An operation on digits that works bit by bit. -/
structure Bitwise (w : ℕ) (op : ℕ → ℕ → ℕ) (f : Bool → Bool → Bool) : Prop where
  lt : ∀ x y, x < 2 ^ w → y < 2 ^ w → op x y < 2 ^ w
  testBit : ∀ x y i, x < 2 ^ w → y < 2 ^ w → i < w →
    (op x y).testBit i = f (x.testBit i) (y.testBit i)

lemma bitwise_and : Bitwise w (· &&& ·) and :=
  ⟨fun _ _ _ hy => Nat.and_lt_two_pow _ hy, fun _ _ _ _ _ _ => Nat.testBit_and ..⟩

lemma bitwise_or : Bitwise w (· ||| ·) or :=
  ⟨fun _ _ hx hy => Nat.or_lt_two_pow hx hy, fun _ _ _ _ _ _ => Nat.testBit_or ..⟩

lemma bitwise_xor : Bitwise w (· ^^^ ·) xor :=
  ⟨fun _ _ hx hy => Nat.xor_lt_two_pow hx hy, fun _ _ _ _ _ _ => Nat.testBit_xor ..⟩

section
variable {op : ℕ → ℕ → ℕ} {f : Bool → Bool → Bool}

lemma digits_zipPad (h : Bitwise w op f) (n : ℕ) {xs ys : List ℕ} (hx : Digits (2 ^ w) xs)
    (hy : Digits (2 ^ w) ys) : Digits (2 ^ w) (zipPad op 0 n xs ys) := by
  induction n generalizing xs ys with
  | zero => exact digits_nil
  | succ n ih =>
    rw [zipPad, digits_cons]
    exact ⟨h.lt _ _ (hx.headD (Nat.two_pow_pos w)) (hy.headD (Nat.two_pow_pos w)), ih hx.tail hy.tail⟩

/-- The combination of the digits combines the bits below their length. -/
theorem testBit_zipPad (h : Bitwise w op f) (n : ℕ) {xs ys : List ℕ} (hx : Digits (2 ^ w) xs)
    (hy : Digits (2 ^ w) ys) (i : ℕ) :
    (ofDigits (2 ^ w) (zipPad op 0 n xs ys)).testBit i =
      (decide (i < w * n) &&
        f ((ofDigits (2 ^ w) xs).testBit i) ((ofDigits (2 ^ w) ys).testBit i)) := by
  induction n generalizing xs ys i with
  | zero => simp [zipPad]
  | succ n ih =>
    have hx0 := hx.headD (Nat.two_pow_pos w)
    have hy0 := hy.headD (Nat.two_pow_pos w)
    have hsplit : ∀ l : List ℕ, Digits (2 ^ w) l → (ofDigits (2 ^ w) l).testBit i =
        if i < w then (l.headD 0).testBit i else (ofDigits (2 ^ w) l.tail).testBit (i - w) := by
      intro l hl
      rw [ofDigits_headD, Nat.add_comm]
      exact Nat.testBit_two_pow_mul_add _ (hl.headD (Nat.two_pow_pos w)) i
    rw [zipPad, testBit_ofDigits_cons (h.lt _ _ hx0 hy0), hsplit xs hx, hsplit ys hy]
    by_cases hi : i < w
    · have : i < w * (n + 1) := Nat.lt_of_lt_of_le hi (Nat.le_mul_of_pos_right _ (Nat.succ_pos n))
      rw [if_pos hi, if_pos hi, if_pos hi, h.testBit _ _ _ hx0 hy0 hi, decide_eq_true this, Bool.true_and]
    · have hiff : i - w < w * n ↔ i < w * (n + 1) := by
        rw [Nat.mul_succ]
        omega
      simp [hi, ih hx.tail hy.tail, hiff]

end

lemma testBit_of_length_le {l : List ℕ} {n i : ℕ} (hl : Digits (2 ^ w) l) (hn : l.length ≤ n)
    (hi : w * n ≤ i) : (ofDigits (2 ^ w) l).testBit i = false := by
  induction l generalizing n i with
  | nil => simp
  | cons d l ih =>
    obtain ⟨n, rfl⟩ : ∃ m, n = m + 1 := ⟨n - 1, by rw [List.length_cons] at hn; omega⟩
    rw [digits_cons] at hl
    rw [Nat.mul_succ] at hi
    rw [testBit_ofDigits_cons hl.1, if_neg (by omega)]
    exact ih hl.2 (by simpa using hn) (by omega)

end Radix

/-! ## Two's complement -/

namespace TwosComplement

lemma testBit_natCast (n i : ℕ) : (n : ℤ).testBit i = n.testBit i := rfl

lemma testBit_negSucc (n i : ℕ) : (Int.negSucc n).testBit i = !n.testBit i := rfl

@[simp] lemma testBit_zero (i : ℕ) : (0 : ℤ).testBit i = false := Nat.zero_testBit i

/-- Far enough up a bit of an integer is its sign. -/
theorem exists_testBit_sign (x : ℤ) : ∃ k, ∀ i, k ≤ i → x.testBit i = decide (x < 0) := by
  cases x with
  | ofNat n =>
    refine ⟨n, fun i hi => ?_⟩
    have hlt : n < 2 ^ i := Nat.lt_of_le_of_lt hi Nat.lt_two_pow_self
    rw [Int.ofNat_eq_natCast, testBit_natCast, Nat.testBit_lt_two_pow hlt]
    simp
  | negSucc n =>
    refine ⟨n, fun i hi => ?_⟩
    have hlt : n < 2 ^ i := Nat.lt_of_le_of_lt hi Nat.lt_two_pow_self
    rw [testBit_negSucc, Nat.testBit_lt_two_pow hlt]
    simp [Int.negSucc_lt_zero]

/-- The bits determine the integer. -/
theorem eq_of_testBit_eq {x y : ℤ} (h : ∀ i, x.testBit i = y.testBit i) : x = y := by
  obtain ⟨k, hk⟩ := exists_testBit_sign x
  obtain ⟨l, hl⟩ := exists_testBit_sign y
  have hsign : x < 0 ↔ y < 0 := by
    have := h (max k l)
    rw [hk _ (le_max_left k l), hl _ (le_max_right k l)] at this
    simpa using this
  cases x with
  | ofNat m =>
    cases y with
    | ofNat n => exact congrArg Int.ofNat (Nat.eq_of_testBit_eq h)
    | negSucc n =>
      exact absurd (hsign.2 (Int.negSucc_lt_zero n)) (by simp)
  | negSucc m =>
    cases y with
    | ofNat n => exact absurd (hsign.1 (Int.negSucc_lt_zero m)) (by simp)
    | negSucc n =>
      refine congrArg Int.negSucc (Nat.eq_of_testBit_eq fun i => ?_)
      have := h i
      rw [testBit_negSucc, testBit_negSucc] at this
      exact Bool.not_inj this

/-- The bits of the residue are the bits below `k`. -/
theorem testBit_emod (x : ℤ) (k i : ℕ) :
    (x % (2 ^ k : ℕ)).toNat.testBit i = (decide (i < k) && x.testBit i) := by
  cases x with
  | ofNat n =>
    have : ((Int.ofNat n) % (2 ^ k : ℕ)).toNat = n % 2 ^ k := by
      rw [Int.ofNat_eq_natCast, ← Int.natCast_emod, Int.toNat_natCast]
    rw [this, Nat.testBit_mod_two_pow]
    rfl
  | negSucc n =>
    have hlt : n % 2 ^ k < 2 ^ k := Nat.mod_lt _ (Nat.two_pow_pos k)
    have : ((Int.negSucc n) % (2 ^ k : ℕ)).toNat = 2 ^ k - (n % 2 ^ k + 1) := by
      rw [Int.negSucc_emod _ (by exact_mod_cast Nat.two_pow_pos k)]
      omega
    rw [this, Nat.testBit_two_pow_sub_succ hlt, Nat.testBit_mod_two_pow, testBit_negSucc]
    by_cases hi : i < k <;> simp [hi]

/-- The integers of `k` bits and a sign are those whose bits from `k` on agree. -/
theorem range_iff_testBit (x : ℤ) (k : ℕ) :
    (-(2 ^ k : ℕ) ≤ x ∧ x < (2 ^ k : ℕ)) ↔ ∀ i, k ≤ i → x.testBit i = x.testBit k := by
  have hnat : ∀ n : ℕ, n < 2 ^ k ↔ ∀ i, k ≤ i → n.testBit i = n.testBit k := by
    intro n
    constructor
    · intro hlt i hi
      rw [Nat.testBit_lt_two_pow hlt,
        Nat.testBit_lt_two_pow (Nat.lt_of_lt_of_le hlt (Nat.pow_le_pow_right (by decide) hi))]
    · intro h
      refine Nat.lt_pow_two_of_testBit n fun i hi => ?_
      obtain ⟨l, hl⟩ := exists_testBit_sign (n : ℤ)
      have hfalse : n.testBit (max k l) = false := by
        rw [← testBit_natCast, hl _ (le_max_right k l)]
        simp
      rw [h i hi, ← h (max k l) (le_max_left k l), hfalse]
  cases x with
  | ofNat n =>
    rw [Int.ofNat_eq_natCast]
    have : (-(2 ^ k : ℕ) ≤ (n : ℤ) ∧ (n : ℤ) < (2 ^ k : ℕ)) ↔ n < 2 ^ k := by omega
    rw [this]
    exact hnat n
  | negSucc n =>
    have : (-(2 ^ k : ℕ) ≤ Int.negSucc n ∧ Int.negSucc n < (2 ^ k : ℕ)) ↔ n < 2 ^ k := by
      rw [Int.negSucc_eq]
      omega
    rw [this, hnat]
    simp only [testBit_negSucc, Bool.not_inj_iff]

/-- Past the range of an integer its bits are its sign. -/
theorem testBit_of_range {x : ℤ} {k i : ℕ} (hx : -(2 ^ k : ℕ) ≤ x ∧ x < (2 ^ k : ℕ)) (hi : k ≤ i) :
    x.testBit i = decide (x < 0) := by
  have hagree := (range_iff_testBit x k).1 hx
  obtain ⟨l, hl⟩ := exists_testBit_sign x
  calc x.testBit i = x.testBit k := hagree i hi
    _ = x.testBit (max i l) := (hagree _ (hi.trans (le_max_left i l))).symm
    _ = decide (x < 0) := hl _ (le_max_right i l)

lemma toNat_emod_natCast (m p : ℕ) : ((m : ℤ) % p).toNat = m % p := by
  rw [← Int.natCast_emod, Int.toNat_natCast]

/-- The residue of an opposite. -/
theorem toNat_neg_emod (m : ℕ) {p : ℕ} (hp : 0 < p) : (-(m : ℤ) % p).toNat = (p - m % p) % p := by
  have hdiv := Nat.mod_add_div m p
  have hlt := Nat.mod_lt m hp
  have hsplit : -(m : ℤ) = ((p - m % p : ℕ) : ℤ) + p * (-(m / p : ℕ) - 1) := by
    rw [Nat.cast_sub hlt.le]
    have : (m : ℤ) = (m % p : ℕ) + p * (m / p : ℕ) := by exact_mod_cast hdiv.symm
    rw [this, Int.mul_sub, Int.mul_neg, Int.mul_one]
    omega
  rw [hsplit, Int.add_mul_emod_self_left, toNat_emod_natCast]

/-- The signed reading of a residue of `k + 1` bits: its top bit is the sign. -/
theorem bmod_two_pow (x : ℤ) (k : ℕ) :
    x.bmod (2 ^ (k + 1)) =
      if x.testBit k then -((2 ^ (k + 1) - (x % (2 ^ (k + 1) : ℕ)).toNat : ℕ) : ℤ)
      else (x % (2 ^ (k + 1) : ℕ)).toNat := by
  have hpow : 2 ^ (k + 1) = 2 * 2 ^ k := pow_succ' 2 k
  have hpos : 0 < 2 ^ (k + 1) := Nat.two_pow_pos _
  have hnonneg := Int.emod_nonneg x (by exact_mod_cast hpos.ne' : ((2 ^ (k + 1) : ℕ) : ℤ) ≠ 0)
  have hlt := Int.emod_lt_of_pos x (by exact_mod_cast hpos : (0 : ℤ) < (2 ^ (k + 1) : ℕ))
  have hbit := testBit_emod x (k + 1) k
  rw [decide_eq_true (Nat.lt_succ_self k), Bool.true_and] at hbit
  rw [← hbit, Int.bmod_def]
  generalize x % (2 ^ (k + 1) : ℕ) = r at *
  have htop : r.toNat.testBit k = decide (2 ^ k ≤ r.toNat) := by
    by_cases hle : 2 ^ k ≤ r.toNat
    · have hdiv : r.toNat / 2 ^ k = 1 := Nat.div_eq_of_lt_le (by omega) (by omega)
      rw [decide_eq_true hle, Nat.testBit_eq_decide_div_mod_eq, hdiv]
      rfl
    · rw [decide_eq_false hle, Nat.testBit_lt_two_pow (by omega)]
  simp only [htop, decide_eq_true_eq]
  split <;> split <;> omega

/-- An integer is its own signed reading when its bits from the top one on agree. -/
theorem bmod_eq_self_iff (x : ℤ) (k : ℕ) :
    x.bmod (2 ^ (k + 1)) = x ↔ ∀ i, k ≤ i → x.testBit i = x.testBit k := by
  have hpow : 2 ^ (k + 1) = 2 * 2 ^ k := pow_succ' 2 k
  have hpos : 0 < 2 ^ (k + 1) := Nat.two_pow_pos _
  rw [← range_iff_testBit]
  constructor
  · intro h
    have hle := @Int.le_bmod x _ hpos
    have hlt := @Int.bmod_lt x _ hpos
    rw [h] at hle hlt
    omega
  · rintro ⟨hle, hlt⟩
    exact Int.bmod_eq_of_le (by omega) (by omega)

lemma lnot_eq (x : ℤ) : Int.lnot x = -(x + 1) := by
  cases x with
  | ofNat n => rw [Int.lnot, Int.negSucc_eq]; rfl
  | negSucc n => rw [Int.lnot, Int.negSucc_eq]; omega

/-! ## Shifts -/

/-- `x * 2 ^ count`, rounded down. -/
def arithmeticShift (x count : ℤ) : ℤ := ⌊(x : ℚ) * 2 ^ count⌋

@[simp] lemma arithmeticShift_zero_left (count : ℤ) : arithmeticShift 0 count = 0 := by
  simp [arithmeticShift]

lemma arithmeticShift_natCast (x : ℤ) (n : ℕ) : arithmeticShift x n = x * 2 ^ n := by
  rw [arithmeticShift, zpow_natCast]
  have : (x : ℚ) * 2 ^ n = ((x * 2 ^ n : ℤ) : ℚ) := by push_cast; rfl
  rw [this, Int.floor_intCast]

lemma arithmeticShift_neg (x : ℤ) (n : ℕ) : arithmeticShift x (-n) = x / (2 ^ n : ℕ) := by
  rw [arithmeticShift, zpow_neg, zpow_natCast, ← div_eq_mul_inv]
  have : (x : ℚ) / 2 ^ n = (x : ℚ) / ((2 ^ n : ℕ) : ℚ) := by push_cast; rfl
  rw [this, Rat.floor_intCast_div_natCast]

lemma arithmeticShift_pos {x count : ℤ} (h : 0 ≤ count) :
    arithmeticShift x count = x * 2 ^ count.natAbs := by
  have hcount : count = (count.natAbs : ℕ) := by omega
  conv_lhs => rw [hcount]
  exact arithmeticShift_natCast _ _

lemma arithmeticShift_of_neg {x count : ℤ} (h : count < 0) :
    arithmeticShift x count = x / (2 ^ count.natAbs : ℕ) := by
  have hcount : count = -(count.natAbs : ℕ) := by omega
  conv_lhs => rw [hcount]
  exact arithmeticShift_neg _ _

/-- The quotient of a number below zero, rounded down. -/
theorem neg_ediv {m d : ℕ} (hd : 0 < d) :
    -(m : ℤ) / d = if m % d = 0 then -((m / d : ℕ) : ℤ) else Int.negSucc (m / d) := by
  have hdiv := Nat.mod_add_div m d
  have hlt := Nat.mod_lt m hd
  generalize m / d = q at *
  generalize m % d = r at *
  have hm : (m : ℤ) = r + (d * q : ℕ) := by exact_mod_cast hdiv.symm
  rw [Int.ediv_eq_iff_of_pos (by exact_mod_cast hd)]
  split
  · rename_i hzero
    have hprod : -((q : ℕ) : ℤ) * d = -(d * q : ℕ) := by push_cast; ring
    rw [hprod]
    omega
  · rename_i hzero
    have hprod : Int.negSucc q * d = -(d * q : ℕ) - d := by
      rw [Int.negSucc_eq]
      push_cast
      ring
    rw [hprod]
    omega

end TwosComplement
