import Eshkol.Base.LongDivision
import Mathlib.Data.Nat.Bitwise

/-!
# Shifts of digit lists

Digits of `w` bits, least significant first, shifted by fewer bits than a digit has; the bits that leave
a digit enter its neighbour.
-/

namespace Radix

open Nat (ofDigits)

/-- The shift to the left by `s` bits, one digit longer. -/
def shiftLeft (w s : ℕ) : ℕ → List ℕ → List ℕ
  | carry, [] => [carry]
  | carry, x :: xs => ((x <<< s) % 2 ^ w ||| carry) :: shiftLeft w s (x >>> (w - s)) xs

/-- The shift to the right by `s` bits. -/
def shiftRight (w s : ℕ) : List ℕ → List ℕ
  | [] => []
  | [x] => [x >>> s]
  | x :: y :: ys => (x >>> s ||| (y <<< (w - s)) % 2 ^ w) :: shiftRight w s (y :: ys)

variable {w s : ℕ}

lemma two_pow_split (hs : s ≤ w) : 2 ^ s * 2 ^ (w - s) = 2 ^ w := by
  rw [← pow_add, Nat.add_sub_cancel' hs]

/-- The bits that stay in a digit, with the bits from the digit below. -/
theorem shifted_digit {x carry : ℕ} (hs : s ≤ w) (hc : carry < 2 ^ s) :
    ((x <<< s) % 2 ^ w ||| carry) = 2 ^ s * (x % 2 ^ (w - s)) + carry := by
  rw [Nat.shiftLeft_eq, Nat.mul_comm, ← two_pow_split hs, Nat.mul_mod_mul_left,
    Nat.two_pow_add_eq_or_of_lt hc]

lemma shiftLeft_spec {carry : ℕ} {xs : List ℕ} (hs : s ≤ w) (hc : carry < 2 ^ s)
    (hx : Digits (2 ^ w) xs) :
    ofDigits (2 ^ w) (shiftLeft w s carry xs) = 2 ^ s * ofDigits (2 ^ w) xs + carry ∧
      Digits (2 ^ w) (shiftLeft w s carry xs) ∧ (shiftLeft w s carry xs).length = xs.length + 1 := by
  have hsplit := two_pow_split hs
  have hpos : 0 < 2 ^ (w - s) := Nat.two_pow_pos _
  induction xs generalizing carry with
  | nil =>
    refine ⟨by simp [shiftLeft], ?_, rfl⟩
    have : carry < 2 ^ w := by
      rw [← hsplit]
      exact Nat.lt_of_lt_of_le hc (Nat.le_mul_of_pos_right _ hpos)
    simpa [shiftLeft, Digits] using this
  | cons x xs ih =>
    rw [digits_cons] at hx
    have hnext : x >>> (w - s) < 2 ^ s := by
      rw [Nat.shiftRight_eq_div_pow, Nat.div_lt_iff_lt_mul hpos, hsplit]
      exact hx.1
    obtain ⟨hval, hdigits, hlen⟩ := ih hnext hx.2
    rw [shiftLeft, shifted_digit hs hc]
    refine ⟨?_, ?_, by simp [hlen]⟩
    · have hmod := Nat.mod_add_div x (2 ^ (w - s))
      rw [Nat.ofDigits_cons, Nat.ofDigits_cons, hval, Nat.shiftRight_eq_div_pow, ← hsplit]
      generalize 2 ^ (w - s) = K at *
      generalize 2 ^ s = S at *
      calc S * (x % K) + carry + S * K * (S * ofDigits (S * K) xs + x / K)
          = S * (x % K + K * (x / K)) + carry + S * K * (S * ofDigits (S * K) xs) := by ring
        _ = S * (x + S * K * ofDigits (S * K) xs) + carry := by rw [hmod]; ring
    · rw [digits_cons]
      refine ⟨?_, hdigits⟩
      have hmod := Nat.mod_lt x hpos
      have : 2 ^ s * (x % 2 ^ (w - s) + 1) ≤ 2 ^ s * 2 ^ (w - s) := Nat.mul_le_mul_left _ hmod
      rw [hsplit, Nat.mul_add, Nat.mul_one] at this
      omega

lemma shiftRight_spec {xs : List ℕ} (hs : s ≤ w) (hx : Digits (2 ^ w) xs) :
    ofDigits (2 ^ w) (shiftRight w s xs) = ofDigits (2 ^ w) xs / 2 ^ s ∧
      Digits (2 ^ w) (shiftRight w s xs) ∧ (shiftRight w s xs).length = xs.length := by
  have hsplit := two_pow_split hs
  have hS : 0 < 2 ^ s := Nat.two_pow_pos _
  have hK : 0 < 2 ^ (w - s) := Nat.two_pow_pos _
  induction xs with
  | nil => exact ⟨by simp [shiftRight], digits_nil, rfl⟩
  | cons x xs ih =>
    rw [digits_cons] at hx
    cases xs with
    | nil =>
      refine ⟨by simp [shiftRight, Nat.shiftRight_eq_div_pow], ?_, rfl⟩
      have : x >>> s < 2 ^ w := Nat.lt_of_le_of_lt (Nat.shiftRight_le x s) hx.1
      simpa [shiftRight, Digits] using this
    | cons y ys =>
      obtain ⟨hval, hdigits, hlen⟩ := ih hx.2
      have hlow : x >>> s < 2 ^ (w - s) := by
        rw [Nat.shiftRight_eq_div_pow, Nat.div_lt_iff_lt_mul hS, Nat.mul_comm, hsplit]
        exact hx.1
      have hdigit : (x >>> s ||| (y <<< (w - s)) % 2 ^ w) = 2 ^ (w - s) * (y % 2 ^ s) + x / 2 ^ s := by
        rw [Nat.or_comm, shifted_digit (by omega) hlow, Nat.shiftRight_eq_div_pow,
          show w - (w - s) = s by omega]
      rw [shiftRight, hdigit]
      refine ⟨?_, ?_, by simp [hlen]⟩
      · have hxs : ofDigits (2 ^ w) (x :: y :: ys) = x + 2 ^ w * ofDigits (2 ^ w) (y :: ys) :=
          Nat.ofDigits_cons
        have hy : ofDigits (2 ^ w) (y :: ys) % 2 ^ s = y % 2 ^ s := by
          rw [Nat.ofDigits_cons]
          nth_rewrite 1 [← hsplit]
          rw [Nat.mul_assoc, Nat.add_mul_mod_self_left]
        have hquot : (x + 2 ^ w * ofDigits (2 ^ w) (y :: ys)) / 2 ^ s =
            x / 2 ^ s + 2 ^ (w - s) * ofDigits (2 ^ w) (y :: ys) := by
          nth_rewrite 1 [← hsplit]
          rw [Nat.mul_assoc, Nat.add_mul_div_left _ _ hS]
        have hdiv := Nat.mod_add_div (ofDigits (2 ^ w) (y :: ys)) (2 ^ s)
        rw [hy] at hdiv
        rw [Nat.ofDigits_cons, hval, hxs, hquot]
        have hscaled := congrArg (2 ^ (w - s) * ·) hdiv
        simp only [Nat.mul_add, ← Nat.mul_assoc, Nat.mul_comm (2 ^ (w - s)) (2 ^ s), hsplit] at hscaled
        omega
      · rw [digits_cons]
        refine ⟨?_, hdigits⟩
        have hmod := Nat.mod_lt y hS
        have : 2 ^ (w - s) * (y % 2 ^ s + 1) ≤ 2 ^ (w - s) * 2 ^ s := Nat.mul_le_mul_left _ hmod
        rw [Nat.mul_comm (2 ^ (w - s)) (2 ^ s), hsplit, Nat.mul_add, Nat.mul_one] at this
        rw [Nat.shiftRight_eq_div_pow] at hlow
        omega

/-! ## The operands of a long division -/

/-- The divisor shifted by `s` bits, within its own number of digits. -/
def shiftedDivisor (w s : ℕ) (xs : List ℕ) : List ℕ :=
  if 0 < s then (shiftLeft w s 0 xs).take xs.length else xs

/-- The dividend shifted by `s` bits, with one digit more. -/
def shiftedDividend (w s : ℕ) (xs : List ℕ) : List ℕ :=
  if 0 < s then shiftLeft w s 0 xs else xs ++ [0]

/-- The remainder shifted back. -/
def shiftedRemainder (w s : ℕ) (xs : List ℕ) : List ℕ := if 0 < s then shiftRight w s xs else xs

lemma shiftedDivisor_spec {xs : List ℕ} (hs : s ≤ w) (hx : Digits (2 ^ w) xs)
    (hfit : 2 ^ s * ofDigits (2 ^ w) xs < (2 ^ w) ^ xs.length) :
    ofDigits (2 ^ w) (shiftedDivisor w s xs) = 2 ^ s * ofDigits (2 ^ w) xs ∧
      Digits (2 ^ w) (shiftedDivisor w s xs) ∧ (shiftedDivisor w s xs).length = xs.length := by
  rw [shiftedDivisor]
  by_cases hpos : 0 < s
  · rw [if_pos hpos]
    obtain ⟨hval, hdigits, hlen⟩ := shiftLeft_spec hs (Nat.two_pow_pos s) hx
    refine ⟨?_, hdigits.take _, List.length_take_of_le (by omega)⟩
    have hsplit := ofDigits_eq_take (b := 2 ^ w) hlen
    have hzero : (shiftLeft w s 0 xs).getD xs.length 0 = 0 := by
      by_contra hne
      have : (2 ^ w) ^ xs.length * 1 ≤ (2 ^ w) ^ xs.length * (shiftLeft w s 0 xs).getD xs.length 0 :=
        Nat.mul_le_mul_left _ (Nat.pos_of_ne_zero hne)
      omega
    rw [hzero] at hsplit
    omega
  · obtain rfl : s = 0 := by omega
    simpa using hx

lemma shiftedDividend_spec {xs : List ℕ} (hs : s ≤ w) (hx : Digits (2 ^ w) xs) :
    ofDigits (2 ^ w) (shiftedDividend w s xs) = 2 ^ s * ofDigits (2 ^ w) xs ∧
      Digits (2 ^ w) (shiftedDividend w s xs) ∧ (shiftedDividend w s xs).length = xs.length + 1 := by
  rw [shiftedDividend]
  by_cases hpos : 0 < s
  · rw [if_pos hpos]
    exact shiftLeft_spec hs (Nat.two_pow_pos s) hx
  · obtain rfl : s = 0 := by omega
    refine ⟨by simp [Nat.ofDigits_append], ?_, by simp⟩
    simpa [Digits, or_imp, forall_and] using hx

lemma shiftedRemainder_spec {xs : List ℕ} (hs : s ≤ w) (hx : Digits (2 ^ w) xs) :
    ofDigits (2 ^ w) (shiftedRemainder w s xs) = ofDigits (2 ^ w) xs / 2 ^ s ∧
      Digits (2 ^ w) (shiftedRemainder w s xs) ∧ (shiftedRemainder w s xs).length = xs.length := by
  rw [shiftedRemainder]
  by_cases hpos : 0 < s
  · rw [if_pos hpos]
    exact shiftRight_spec hs hx
  · obtain rfl : s = 0 := by omega
    simpa using hx

/-- The shift that moves the top bit of the divisor to the top scales both operands. -/
theorem scaled_of_shift {as bs : List ℕ} (hs : s < w) (has : Digits (2 ^ w) as)
    (hbs : Digits (2 ^ w) bs) (hn : 2 ≤ bs.length) (hlen : bs.length ≤ as.length)
    (htop : 2 ^ (w - 1) ≤ bs.getD (bs.length - 1) 0 * 2 ^ s)
    (hfits : (bs.getD (bs.length - 1) 0 + 1) * 2 ^ s ≤ 2 ^ w) :
    Scaled (2 ^ w) (2 ^ (w - 1)) (2 ^ s) as bs (shiftedDividend w s as) (shiftedDivisor w s bs) := by
  have hw : 1 < 2 ^ w := Nat.one_lt_two_pow (by omega)
  have hfit : 2 ^ s * ofDigits (2 ^ w) bs < (2 ^ w) ^ bs.length := by
    obtain ⟨k, hk⟩ : ∃ k, bs.length = k + 1 := ⟨bs.length - 1, by omega⟩
    have hsplit := ofDigits_eq_take (b := 2 ^ w) hk
    have hlow := take_lt (k := k) hw hbs (by omega)
    rw [hk, Nat.add_sub_cancel] at hfits
    rw [hk, pow_succ]
    generalize bs.getD k 0 = top at *
    calc 2 ^ s * ofDigits (2 ^ w) bs < 2 ^ s * ((2 ^ w) ^ k * (top + 1)) :=
          Nat.mul_lt_mul_of_pos_left (by rw [Nat.mul_add, Nat.mul_one]; omega) (Nat.two_pow_pos _)
      _ = (2 ^ w) ^ k * ((top + 1) * 2 ^ s) := by ring
      _ ≤ (2 ^ w) ^ k * 2 ^ w := Nat.mul_le_mul_left _ hfits
  obtain ⟨hvn, hvn_digits, hvn_len⟩ := shiftedDivisor_spec hs.le hbs hfit
  obtain ⟨hun, hun_digits, hun_len⟩ := shiftedDividend_spec hs.le has
  exact ⟨has, hn, hlen, Nat.two_pow_pos _, Nat.pow_le_pow_right (by decide) (by omega), htop, hvn,
    hvn_digits, hvn_len, hun, hun_digits, hun_len⟩

end Radix
