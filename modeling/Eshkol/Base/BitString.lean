import Mathlib.Data.List.Basic
import Mathlib.Tactic.Ring

/-!
# Bit strings

Numbers as the strings of their bits, highest first, and the cutting of a bit string into groups of
six, the last one filled up with zeros.
-/

namespace BitString

/-- The number that bits stand for. -/
def value (bits : List Bool) : ℕ := bits.foldl (fun v bit => 2 * v + bit.toNat) 0

/-- The lowest `width` bits of a number. -/
def ofNat : ℕ → ℕ → List Bool
  | 0, _ => []
  | width + 1, n => ofNat width (n / 2) ++ [n % 2 == 1]

lemma value_append (s t : List Bool) : value (s ++ t) = value s * 2 ^ t.length + value t := by
  have hfold (t : List Bool) (v : ℕ) :
      t.foldl (fun v bit => 2 * v + bit.toNat) v = v * 2 ^ t.length + value t := by
    induction t generalizing v with
    | nil => simp [value]
    | cons bit t ih =>
      have hvalue : value (bit :: t) = bit.toNat * 2 ^ t.length + value t := by
        rw [value, List.foldl_cons, ih, Nat.mul_zero, Nat.zero_add]
      rw [List.foldl_cons, ih, hvalue, List.length_cons, pow_succ]
      ring
  rw [value, List.foldl_append, hfold, ← value]

lemma length_ofNat (width n : ℕ) : (ofNat width n).length = width := by
  induction width generalizing n with
  | zero => rfl
  | succ width ih => rw [ofNat, List.length_append, ih, List.length_singleton]

lemma value_ofNat (width n : ℕ) : value (ofNat width n) = n % 2 ^ width := by
  induction width generalizing n with
  | zero => rw [pow_zero, Nat.mod_one]; rfl
  | succ width ih =>
    have hbit : value [n % 2 == 1] = n % 2 := by
      obtain h | h := Nat.mod_two_eq_zero_or_one n
      · simp [value, h]
      · simp [value, h]
    rw [ofNat, value_append, ih, hbit, List.length_singleton, pow_one, pow_succ']
    rw [Nat.mod_mul, Nat.add_comm, Nat.mul_comm]

/-- The high bits, then the low ones. -/
theorem ofNat_add (high low n : ℕ) :
    ofNat (high + low) n = ofNat high (n / 2 ^ low) ++ ofNat low n := by
  induction low generalizing n with
  | zero => simp [ofNat]
  | succ low ih =>
    rw [← Nat.add_assoc, ofNat, ih, ofNat, List.append_assoc, Nat.div_div_eq_div_mul, pow_succ']

/-- The values of groups of six bits. -/
def sextets : List Bool → List ℕ
  | b₀ :: b₁ :: b₂ :: b₃ :: b₄ :: b₅ :: rest => value [b₀, b₁, b₂, b₃, b₄, b₅] :: sextets rest
  | [] => []
  | rest => [value (rest ++ List.replicate (6 - rest.length) false)]

lemma sextets_append {group : List Bool} (h : group.length = 6) (rest : List Bool) :
    sextets (group ++ rest) = value group :: sextets rest := by
  obtain ⟨b₀, b₁, b₂, b₃, b₄, b₅, rfl⟩ : ∃ b₀ b₁ b₂ b₃ b₄ b₅, group = [b₀, b₁, b₂, b₃, b₄, b₅] := by
    match group, h with
    | [b₀, b₁, b₂, b₃, b₄, b₅], _ => exact ⟨b₀, b₁, b₂, b₃, b₄, b₅, rfl⟩
  rfl

lemma sextets_last {group : List Bool} (hne : group ≠ []) (h : group.length < 6) :
    sextets group = [value group * 2 ^ (6 - group.length)] := by
  have hzeros (n : ℕ) : value (List.replicate n false) = 0 := by
    induction n with
    | zero => rfl
    | succ n ih => rw [List.replicate_succ', value_append, ih]; rfl
  have hvalue : sextets group = [value (group ++ List.replicate (6 - group.length) false)] := by
    match group, hne, h with
    | [_], _, _ => rfl
    | [_, _], _, _ => rfl
    | [_, _, _], _, _ => rfl
    | [_, _, _, _], _, _ => rfl
    | [_, _, _, _, _], _, _ => rfl
  rw [hvalue, value_append, hzeros, Nat.add_zero, List.length_replicate]

end BitString
