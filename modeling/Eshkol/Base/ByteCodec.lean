import Mathlib.Data.Nat.Bitwise
import Mathlib.Tactic.Ring
import Mathlib.Tactic.NormNum

/-!
# Numbers as bytes

Fixed-width little-endian words, and the seven-bit groups of a variable-length number.
-/

namespace ByteCodec

/-! ## Little-endian words -/

/-- The `k` low bytes of `n`, lowest first. -/
def toLE : ℕ → ℕ → List UInt8
  | 0, _ => []
  | k + 1, n => UInt8.ofNat (n % 256) :: toLE k (n / 256)

/-- The number a byte list denotes, lowest byte first. -/
def ofLE : List UInt8 → ℕ
  | [] => 0
  | b :: bs => b.toNat + 256 * ofLE bs

@[simp] lemma length_toLE (k n : ℕ) : (toLE k n).length = k := by
  induction k generalizing n with
  | zero => rfl
  | succ k ih => simp [toLE, ih]

lemma toNat_ofNat_of_lt {n : ℕ} (h : n < 256) : (UInt8.ofNat n).toNat = n := by
  simp [Nat.mod_eq_of_lt h]

/-- Reading back a word gives the number modulo the word size. -/
theorem ofLE_toLE (k n : ℕ) : ofLE (toLE k n) = n % 256 ^ k := by
  induction k generalizing n with
  | zero => simp [toLE, ofLE, Nat.mod_one]
  | succ k ih =>
    rw [toLE, ofLE, ih, toNat_ofNat_of_lt (Nat.mod_lt _ (by norm_num)), pow_succ',
      Nat.mod_mul]

lemma ofLE_toLE_of_lt {k n : ℕ} (h : n < 256 ^ k) : ofLE (toLE k n) = n := by
  rw [ofLE_toLE, Nat.mod_eq_of_lt h]

/-! ## Seven-bit groups -/

/-- Or-ing a group in above the bits already read is adding it. -/
theorem or_shiftLeft_eq_add {x d k : ℕ} (h : x < 2 ^ k) : x ||| (d <<< k) = x + d * 2 ^ k := by
  rw [Nat.lor_comm, Nat.shiftLeft_eq, Nat.mul_comm d, ← Nat.two_pow_add_eq_or_of_lt h d]
  ring

/-- The low group of a number. -/
theorem and_low7 (n : ℕ) : n &&& 0x7F = n % 128 := by
  simpa using Nat.and_two_pow_sub_one_eq_mod n 7

/-- Setting the continuation bit of a group. -/
theorem or_high_bit {n : ℕ} (h : n < 128) : n ||| 0x80 = n + 128 := by
  have := or_shiftLeft_eq_add (x := n) (d := 1) (k := 7) h
  simpa using this

lemma group_and_high_bit {n : ℕ} (h : n < 128) : n &&& 0x80 = 0 := by
  have h128 : (0x80 : ℕ) = 2 ^ 7 := by norm_num
  have hb : n.testBit 7 = false := Nat.testBit_lt_two_pow (by omega)
  rw [h128, Nat.and_two_pow, hb]
  rfl

lemma cont_and_high_bit {n : ℕ} (h : n < 128) : (n + 128) &&& 0x80 ≠ 0 := by
  have h128 : (0x80 : ℕ) = 2 ^ 7 := by norm_num
  have hb : (n + 128).testBit 7 = true := by
    have := Nat.testBit_two_pow_mul_add (i := 7) 1 h 7
    simpa [Nat.add_comm] using this
  rw [h128, Nat.and_two_pow, show 2 ^ 7 = 128 from rfl, hb]
  simp

lemma cont_and_low7 {n : ℕ} (h : n < 128) : (n + 128) &&& 0x7F = n := by
  rw [and_low7]
  omega

end ByteCodec
