import Mathlib.Data.List.DropRight
import Mathlib.Data.Nat.Digits.Lemmas

/-!
# Arithmetic on digit lists

Numbers in radix `b` as lists of digits, least significant first, of the value `Nat.ofDigits`:
addition, subtraction, multiplication row by row and division by one digit, digit by digit with the
carries that a machine keeps.
-/

namespace Radix

open Nat (ofDigits)

variable {b : ℕ}

/-- Every entry is a digit. -/
def Digits (b : ℕ) (l : List ℕ) : Prop := ∀ d ∈ l, d < b

lemma digits_nil : Digits b [] := by simp [Digits]

@[simp] lemma digits_cons {d : ℕ} {l : List ℕ} : Digits b (d :: l) ↔ d < b ∧ Digits b l := by
  simp [Digits]

@[simp] lemma digits_append {l l' : List ℕ} : Digits b (l ++ l') ↔ Digits b l ∧ Digits b l' := by
  simp [Digits, or_imp, forall_and]

lemma Digits.tail {l : List ℕ} (h : Digits b l) : Digits b l.tail :=
  fun d hd => h d (List.mem_of_mem_tail hd)

lemma Digits.take {l : List ℕ} (h : Digits b l) (n : ℕ) : Digits b (l.take n) :=
  fun d hd => h d (List.mem_of_mem_take hd)

lemma Digits.drop {l : List ℕ} (h : Digits b l) (n : ℕ) : Digits b (l.drop n) :=
  fun d hd => h d (List.mem_of_mem_drop hd)

lemma Digits.headD {l : List ℕ} (h : Digits b l) (hb : 0 < b) : l.headD 0 < b := by
  cases l with
  | nil => exact hb
  | cons d l => exact h d List.mem_cons_self

lemma ofDigits_lt {l : List ℕ} (hb : 1 < b) (h : Digits b l) : ofDigits b l < b ^ l.length :=
  Nat.ofDigits_lt_base_pow_length hb h

lemma ofDigits_headD (l : List ℕ) : ofDigits b l = l.headD 0 + b * ofDigits b l.tail := by
  cases l with
  | nil => simp [ofDigits]
  | cons d l => simp [Nat.ofDigits_cons]

lemma ofDigits_concat (l : List ℕ) (d : ℕ) :
    ofDigits b (l ++ [d]) = ofDigits b l + b ^ l.length * d := by
  rw [Nat.ofDigits_append, Nat.ofDigits_singleton]

/-- The digits below a place are the remainder, those from it on the quotient. -/
theorem ofDigits_take_drop {l : List ℕ} {n : ℕ} (hb : 1 < b) (hl : Digits b l) (hn : n ≤ l.length) :
    ofDigits b (l.take n) = ofDigits b l % b ^ n ∧ ofDigits b (l.drop n) = ofDigits b l / b ^ n := by
  have hsplit : ofDigits b (l.take n) + b ^ n * ofDigits b (l.drop n) = ofDigits b l := by
    conv_rhs => rw [← List.take_append_drop n l]
    rw [Nat.ofDigits_append, List.length_take_of_le hn]
  have hlt := ofDigits_lt hb (hl.take n)
  rw [List.length_take_of_le hn] at hlt
  have hunique := (Nat.div_mod_unique (Nat.lt_of_le_of_lt (Nat.zero_le _) hlt)).2 ⟨hsplit, hlt⟩
  exact ⟨hunique.2.symm, hunique.1.symm⟩

lemma ofDigits_replicate_append (n : ℕ) (l : List ℕ) :
    ofDigits b (List.replicate n 0 ++ l) = b ^ n * ofDigits b l := by
  rw [Nat.ofDigits_append, List.length_replicate, Nat.ofDigits_replicate_zero, Nat.zero_add]

/-! ## Leading zeros -/

lemma ofDigits_rdropWhile (l : List ℕ) : ofDigits b (l.rdropWhile (· == 0)) = ofDigits b l := by
  induction l using List.reverseRecOn with
  | nil => rfl
  | append_singleton l d ih =>
    rw [List.rdropWhile_concat]
    split
    · rename_i hzero
      rw [ih, ofDigits_concat, beq_iff_eq.1 hzero, Nat.mul_zero, Nat.add_zero]
    · rfl

lemma map_rdropWhile {α β : Type*} (f : α → β) (p : β → Bool) (l : List α) :
    (l.map f).rdropWhile p = (l.rdropWhile (p ∘ f)).map f := by
  rw [List.rdropWhile, List.rdropWhile, ← List.map_reverse, List.dropWhile_map, List.map_reverse]

/-- Without a leading zero the top digit carries the number. -/
theorem pow_le_ofDigits {l : List ℕ} (hne : l ≠ []) (h : l.getLast? ≠ some 0) :
    b ^ (l.length - 1) ≤ ofDigits b l := by
  obtain rfl | ⟨init, last, rfl⟩ := l.eq_nil_or_concat
  · exact absurd rfl hne
  · have hlast : 0 < last := by
      rw [Nat.pos_iff_ne_zero]
      rintro rfl
      simp at h
    rw [List.concat_eq_append, ofDigits_concat, List.length_append, List.length_singleton,
      Nat.add_sub_cancel]
    have : b ^ init.length * 1 ≤ b ^ init.length * last := Nat.mul_le_mul_left _ hlast
    omega

/-- A longer list without leading zeros is the greater number. -/
theorem ofDigits_lt_of_length_lt {l l' : List ℕ} (hb : 1 < b) (hl : Digits b l)
    (h' : l'.getLast? ≠ some 0) (hlen : l.length < l'.length) : ofDigits b l < ofDigits b l' := by
  calc ofDigits b l < b ^ l.length := ofDigits_lt hb hl
    _ ≤ b ^ (l'.length - 1) := Nat.pow_le_pow_right (by omega) (by omega)
    _ ≤ ofDigits b l' := pow_le_ofDigits (List.ne_nil_of_length_pos (by omega)) h'

/-- The comparison of two lists of one length, from the most significant digit down. -/
def compareDigits : List ℕ → List ℕ → Ordering
  | a :: as, b :: bs => if a ≠ b then (if b < a then .gt else .lt) else compareDigits as bs
  | _, _ => .eq

lemma compareDigits_eq {as bs : List ℕ} (hb : 1 < b) (ha : Digits b as) (hbs : Digits b bs)
    (hlen : as.length = bs.length) :
    compareDigits as.reverse bs.reverse = compare (ofDigits b as) (ofDigits b bs) := by
  induction as using List.reverseRecOn generalizing bs with
  | nil =>
    rw [List.length_nil] at hlen
    rw [List.length_eq_zero_iff.1 hlen.symm]
    rfl
  | append_singleton as a ih =>
    obtain rfl | ⟨bs, c, rfl⟩ := bs.eq_nil_or_concat
    · simp at hlen
    · rw [List.concat_eq_append] at hlen hbs ⊢
      rw [digits_append] at ha hbs
      have hlen' : as.length = bs.length := by simpa using hlen
      have hlt := ofDigits_lt hb ha.1
      have hlt' := ofDigits_lt hb hbs.1
      rw [List.reverse_append, List.reverse_append, ofDigits_concat, ofDigits_concat]
      simp only [List.reverse_singleton, List.singleton_append, compareDigits]
      rw [← hlen'] at hlt' ⊢
      by_cases hac : a = c
      · subst hac
        rw [if_neg (not_not.2 rfl), ih ha.1 hbs.1 hlen']
        simp only [Nat.compare_eq_ite_lt, Nat.add_lt_add_iff_right]
      · rw [if_pos hac, Nat.compare_eq_ite_lt]
        -- a greater top digit outweighs all that is below it
        have hstep : ∀ {x y m : ℕ} (k : ℕ), x < y → m < b ^ as.length →
            m + b ^ as.length * x < k + b ^ as.length * y := by
          intro x y m k hxy hm
          have : b ^ as.length * (x + 1) ≤ b ^ as.length * y := Nat.mul_le_mul_left _ hxy
          rw [Nat.mul_add, Nat.mul_one] at this
          omega
        by_cases hlt_ca : c < a
        · have := hstep (ofDigits b as) hlt_ca hlt'
          rw [if_pos hlt_ca, if_neg (by omega), if_pos this]
        · have := hstep (ofDigits b bs) (by omega : a < c) hlt
          rw [if_neg hlt_ca, if_pos this]

/-! ## Addition -/

/-- `n` digits of the sum, the carry after them. -/
@[grind =]
def add (b : ℕ) : ℕ → ℕ → List ℕ → List ℕ → List ℕ
  | 0, carry, _, _ => [carry]
  | n + 1, carry, xs, ys =>
    let sum := xs.headD 0 + ys.headD 0 + carry
    sum % b :: add b n (sum / b) xs.tail ys.tail

@[simp] lemma length_add (n carry : ℕ) (xs ys : List ℕ) : (add b n carry xs ys).length = n + 1 := by
  induction n generalizing carry xs ys with
  | zero => rfl
  | succ n ih => simp [add, ih]

lemma ofDigits_add {n : ℕ} (carry : ℕ) {xs ys : List ℕ} (hx : xs.length ≤ n) (hy : ys.length ≤ n) :
    ofDigits b (add b n carry xs ys) = ofDigits b xs + ofDigits b ys + carry := by
  induction n generalizing carry xs ys with
  | zero =>
    rw [List.length_eq_zero_iff.1 (Nat.le_zero.1 hx), List.length_eq_zero_iff.1 (Nat.le_zero.1 hy)]
    simp [add]
  | succ n ih =>
    have hsum := Nat.mod_add_div (xs.headD 0 + ys.headD 0 + carry) b
    rw [add, Nat.ofDigits_cons, ih _ (by simpa using hx) (by simpa using hy), ofDigits_headD xs,
      ofDigits_headD ys]
    linarith

lemma digits_add {n carry : ℕ} {xs ys : List ℕ} (hb : 1 < b) (hc : carry ≤ 1) (hx : Digits b xs)
    (hy : Digits b ys) : Digits b (add b n carry xs ys) := by
  induction n generalizing carry xs ys with
  | zero => simpa [add, Digits] using (by omega : carry < b)
  | succ n ih =>
    have hxd := hx.headD (by omega)
    have hyd := hy.headD (by omega)
    have hcarry : (xs.headD 0 + ys.headD 0 + carry) / b ≤ 1 := by
      rw [Nat.div_le_iff_le_mul_add_pred (by omega)]
      omega
    rw [add, digits_cons]
    exact ⟨Nat.mod_lt _ (by omega), ih hcarry hx.tail hy.tail⟩

/-! ## Subtraction -/

/-- The digits of the difference, subtracting with wraparound; a borrow added to the greatest digit
wraps too. -/
@[grind =]
def sub (b : ℕ) : ℕ → List ℕ → List ℕ → List ℕ
  | _, [], _ => []
  | borrow, x :: xs, ys =>
    let y := ys.headD 0
    let out := if x < (y + borrow) % b ∨ (borrow ≠ 0 ∧ y = b - 1) then 1 else 0
    (x + (b - y) + (b - borrow)) % b :: sub b out xs ys.tail

@[simp] lemma length_sub (borrow : ℕ) (xs ys : List ℕ) : (sub b borrow xs ys).length = xs.length := by
  induction xs generalizing borrow ys with
  | nil => rfl
  | cons x xs ih => simp [sub, ih]

lemma digits_sub (hb : 0 < b) (borrow : ℕ) (xs ys : List ℕ) : Digits b (sub b borrow xs ys) := by
  induction xs generalizing borrow ys with
  | nil => exact digits_nil
  | cons x xs ih =>
    rw [sub, digits_cons]
    exact ⟨Nat.mod_lt _ hb, ih _ _⟩

/-- One digit of the difference. -/
theorem sub_digit {x y borrow : ℕ} (hx : x < b) (hy : y < b) (hw : borrow ≤ 1) :
    (x + (b - y) + (b - borrow)) % b + y + borrow =
      x + b * (if x < (y + borrow) % b ∨ (borrow ≠ 0 ∧ y = b - 1) then 1 else 0) := by
  have hout : (x < (y + borrow) % b ∨ (borrow ≠ 0 ∧ y = b - 1)) ↔ x < y + borrow := by
    by_cases hwrap : y + borrow = b
    · simp only [hwrap, Nat.mod_self, Nat.not_lt_zero, false_or]
      omega
    · rw [Nat.mod_eq_of_lt (by omega)]
      omega
  simp only [hout]
  by_cases hlt : x < y + borrow
  · rw [if_pos hlt]
    have hmod : (x + (b - y) + (b - borrow)) % b = x + b - y - borrow := by
      rw [show x + (b - y) + (b - borrow) = (x + b - y - borrow) + b by omega, Nat.add_mod_right]
      exact Nat.mod_eq_of_lt (by omega)
    omega
  · rw [if_neg hlt]
    have hmod : (x + (b - y) + (b - borrow)) % b = x - y - borrow := by
      rw [show x + (b - y) + (b - borrow) = (x - y - borrow) + b + b by omega, Nat.add_mod_right,
        Nat.add_mod_right]
      exact Nat.mod_eq_of_lt (by omega)
    omega

lemma ofDigits_sub_borrow {borrow : ℕ} {xs ys : List ℕ} (hb : 1 < b) (hw : borrow ≤ 1)
    (hx : Digits b xs) (hy : Digits b ys) (hlen : ys.length ≤ xs.length) :
    ∃ out, ofDigits b (sub b borrow xs ys) + ofDigits b ys + borrow =
      ofDigits b xs + b ^ xs.length * out := by
  induction xs generalizing borrow ys with
  | nil =>
    rw [List.length_eq_zero_iff.1 (Nat.le_zero.1 hlen)]
    exact ⟨borrow, by simp [sub]⟩
  | cons x xs ih =>
    rw [digits_cons] at hx
    have hdigit := sub_digit hx.1 (hy.headD (by omega)) hw
    have hnext : (if x < (ys.headD 0 + borrow) % b ∨ (borrow ≠ 0 ∧ ys.headD 0 = b - 1) then 1 else 0) ≤
        1 := by split <;> omega
    obtain ⟨out, hout⟩ := ih hnext hx.2 hy.tail (by simpa using hlen)
    refine ⟨out, ?_⟩
    rw [sub, Nat.ofDigits_cons, Nat.ofDigits_cons, ofDigits_headD ys, List.length_cons, pow_succ]
    have hscaled := congrArg (b * ·) hout
    simp only [Nat.mul_add] at hscaled
    linarith

lemma ofDigits_sub {xs ys : List ℕ} (hb : 1 < b) (hx : Digits b xs) (hy : Digits b ys)
    (hlen : ys.length ≤ xs.length) (hle : ofDigits b ys ≤ ofDigits b xs) :
    ofDigits b (sub b 0 xs ys) = ofDigits b xs - ofDigits b ys := by
  obtain ⟨out, hout⟩ := ofDigits_sub_borrow hb (Nat.zero_le 1) hx hy hlen
  have hlt := ofDigits_lt hb (digits_sub (by omega) 0 xs ys)
  have hxlt := ofDigits_lt hb hx
  rw [length_sub] at hlt
  have hzero : out = 0 := by
    by_contra hne
    have : b ^ xs.length ≤ b ^ xs.length * out := Nat.le_mul_of_pos_right _ (by omega)
    omega
  rw [hzero] at hout
  omega

/-! ## Multiplication -/

/-- Adds the multiple `y * xs` to the accumulator, the last carry to the digit after it. -/
@[grind =]
def addMul (b y : ℕ) : ℕ → List ℕ → List ℕ → List ℕ
  | carry, r :: rs, x :: xs =>
    let prod := x * y + r + carry
    prod % b :: addMul b y (prod / b) rs xs
  | carry, r :: rs, [] => (r + carry) % b :: rs
  | _, [], _ => []

@[simp] lemma length_addMul (y carry : ℕ) (rs xs : List ℕ) :
    (addMul b y carry rs xs).length = rs.length := by
  induction rs generalizing carry xs with
  | nil => rfl
  | cons r rs ih =>
    cases xs with
    | nil => rfl
    | cons x xs => simp [addMul, ih]

lemma drop_addMul (y carry : ℕ) (rs xs : List ℕ) :
    (addMul b y carry rs xs).drop (xs.length + 1) = rs.drop (xs.length + 1) := by
  induction rs generalizing carry xs with
  | nil => rfl
  | cons r rs ih =>
    cases xs with
    | nil => rfl
    | cons x xs => exact ih _ xs

lemma carry_lt {x y r carry : ℕ} (hx : x < b) (hy : y < b) (hr : r < b) (hc : carry < b) :
    (x * y + r + carry) / b < b := by
  rw [Nat.div_lt_iff_lt_mul (by omega)]
  have : x * y ≤ (b - 1) * (b - 1) := Nat.mul_le_mul (by omega) (by omega)
  obtain ⟨k, rfl⟩ : ∃ k, b = k + 1 := ⟨b - 1, by omega⟩
  simp only [Nat.add_sub_cancel] at this
  nlinarith

lemma digits_addMul {y carry : ℕ} {rs xs : List ℕ} (hb : 0 < b) (hr : Digits b rs) :
    Digits b (addMul b y carry rs xs) := by
  induction rs generalizing carry xs with
  | nil => exact digits_nil
  | cons r rs ih =>
    rw [digits_cons] at hr
    cases xs with
    | nil =>
      rw [addMul, digits_cons]
      exact ⟨Nat.mod_lt _ hb, hr.2⟩
    | cons x xs =>
      rw [addMul, digits_cons]
      exact ⟨Nat.mod_lt _ hb, ih hr.2⟩

/-- With a zero digit to take the last carry nothing is lost. -/
theorem ofDigits_addMul {y carry : ℕ} {rs xs : List ℕ} (hy : y < b) (hc : carry < b)
    (hr : Digits b rs) (hx : Digits b xs) (hroom : (rs.drop xs.length).head? = some 0) :
    ofDigits b (addMul b y carry rs xs) = ofDigits b rs + ofDigits b xs * y + carry := by
  induction xs generalizing carry rs with
  | nil =>
    cases rs with
    | nil => simp at hroom
    | cons r rs =>
      simp only [List.length_nil, List.drop_zero, List.head?_cons, Option.some.injEq] at hroom
      subst hroom
      rw [addMul, Nat.ofDigits_cons, Nat.ofDigits_cons, Nat.zero_add, Nat.mod_eq_of_lt hc]
      simp
      omega
  | cons x xs ih =>
    cases rs with
    | nil => simp at hroom
    | cons r rs =>
      rw [digits_cons] at hr hx
      have hprod := Nat.mod_add_div (x * y + r + carry) b
      rw [addMul, Nat.ofDigits_cons, ih (carry_lt hx.1 hy hr.1 hc) hr.2 hx.2 (by simpa using hroom),
        Nat.ofDigits_cons, Nat.ofDigits_cons]
      linarith

/-- The multiple `xs * y` with a carry coming in, longer by a digit if one goes out. -/
@[grind =]
def mulAdd (b y : ℕ) : ℕ → List ℕ → List ℕ
  | carry, [] => if 0 < carry then [carry] else []
  | carry, x :: xs =>
    let prod := x * y + carry
    prod % b :: mulAdd b y (prod / b) xs

lemma digits_mulAdd {y carry : ℕ} {xs : List ℕ} (hy : y < b) (hc : carry < b) (hx : Digits b xs) :
    Digits b (mulAdd b y carry xs) := by
  induction xs generalizing carry with
  | nil =>
    rw [mulAdd]
    split
    · exact digits_cons.2 ⟨hc, digits_nil⟩
    · exact digits_nil
  | cons x xs ih =>
    rw [digits_cons] at hx
    have hcarry := carry_lt hx.1 hy (by omega : 0 < b) hc
    rw [mulAdd, digits_cons]
    exact ⟨Nat.mod_lt _ (by omega), ih hcarry hx.2⟩

lemma ofDigits_mulAdd (y carry : ℕ) (xs : List ℕ) :
    ofDigits b (mulAdd b y carry xs) = ofDigits b xs * y + carry := by
  induction xs generalizing carry with
  | nil =>
    rw [mulAdd]
    split
    · simp
    · simp
      omega
  | cons x xs ih =>
    have hprod := Nat.mod_add_div (x * y + carry) b
    rw [mulAdd, Nat.ofDigits_cons, ih, Nat.ofDigits_cons]
    linarith

lemma mulAdd_ne_nil {y carry : ℕ} {xs : List ℕ} (hx : xs ≠ []) : mulAdd b y carry xs ≠ [] := by
  cases xs with
  | nil => exact absurd rfl hx
  | cons x xs => simp [mulAdd]

/-- The rows of `xs * ys` added up, each one digit further on; a zero digit has no row. -/
@[grind =]
def mulRows (b : ℕ) (xs : List ℕ) : List ℕ → List ℕ → List ℕ
  | acc, [] => acc
  | acc, y :: ys =>
    let row := if y ≠ 0 then addMul b y 0 acc xs else acc
    row.headD 0 :: mulRows b xs row.tail ys

lemma digits_mulRows {xs ys acc : List ℕ} (hb : 0 < b) (hacc : Digits b acc) :
    Digits b (mulRows b xs acc ys) := by
  induction ys generalizing acc with
  | nil => exact hacc
  | cons y ys ih =>
    have hrow : Digits b (if y ≠ 0 then addMul b y 0 acc xs else acc) := by
      split
      · exact digits_addMul hb hacc
      · exact hacc
    rw [mulRows, digits_cons]
    exact ⟨hrow.headD hb, ih hrow.tail⟩

lemma length_mulRows {xs ys acc : List ℕ} (hlen : ys.length ≤ acc.length) :
    (mulRows b xs acc ys).length = acc.length := by
  induction ys generalizing acc with
  | nil => rfl
  | cons y ys ih =>
    have hrow : (if y ≠ 0 then addMul b y 0 acc xs else acc).length = acc.length := by
      split <;> simp
    rw [List.length_cons] at hlen
    rw [mulRows, List.length_cons, ih (by rw [List.length_tail, hrow]; omega), List.length_tail, hrow]
    omega

lemma ofDigits_mulRows {xs ys acc : List ℕ} (hb : 0 < b) (hx : Digits b xs) (hy : Digits b ys)
    (hacc : Digits b acc) (hlen : acc.length = xs.length + ys.length)
    (hzero : ∀ d ∈ acc.drop xs.length, d = 0) :
    ofDigits b (mulRows b xs acc ys) = ofDigits b acc + ofDigits b xs * ofDigits b ys := by
  induction ys generalizing acc with
  | nil => simp [mulRows]
  | cons y ys ih =>
    rw [digits_cons] at hy
    rw [List.length_cons] at hlen
    -- the row has room for its carry, and the digits after it are still zero
    have hroom : (acc.drop xs.length).head? = some 0 := by
      cases hdrop : acc.drop xs.length with
      | nil =>
        have := congrArg List.length hdrop
        rw [List.length_drop, List.length_nil] at this
        omega
      | cons d rest => rw [hzero d (by rw [hdrop]; exact List.mem_cons_self), List.head?_cons]
    have hrow : ∃ row, row = (if y ≠ 0 then addMul b y 0 acc xs else acc) ∧ Digits b row ∧
        row.length = acc.length ∧ row.drop (xs.length + 1) = acc.drop (xs.length + 1) ∧
        ofDigits b row = ofDigits b acc + ofDigits b xs * y := by
      by_cases hy0 : y = 0
      · exact ⟨acc, by simp [hy0], hacc, rfl, rfl, by simp [hy0]⟩
      · refine ⟨addMul b y 0 acc xs, by simp [hy0], digits_addMul hb hacc, length_addMul .., drop_addMul ..,
          ?_⟩
        rw [ofDigits_addMul hy.1 hb hacc hx hroom, Nat.add_zero]
    obtain ⟨row, hrow_eq, hrow_digits, hrow_len, hrow_drop, hrow_val⟩ := hrow
    have htail : ∀ d ∈ row.tail.drop xs.length, d = 0 := by
      intro d hd
      rw [List.drop_tail, hrow_drop] at hd
      refine hzero d ?_
      rw [← List.drop_drop] at hd
      exact List.mem_of_mem_drop hd
    rw [mulRows, ← hrow_eq, Nat.ofDigits_cons, ih hy.2 hrow_digits.tail
      (by rw [List.length_tail]; omega) htail, Nat.ofDigits_cons, Nat.mul_add, ← Nat.add_assoc]
    have hsplit := ofDigits_headD (b := b) row
    rw [← hsplit, hrow_val]
    ring

/-! ## Division by one digit -/

/-- The digits of the quotient and the remainder, from the most significant digit down. -/
def divDigit (b d : ℕ) : List ℕ → List ℕ × ℕ
  | [] => ([], 0)
  | x :: xs =>
    let cur := (divDigit b d xs).2 * b + x
    (cur / d :: (divDigit b d xs).1, cur % d)

lemma divDigit_spec {d : ℕ} {xs : List ℕ} (hd : 0 < d) (hx : Digits b xs) :
    ofDigits b xs = d * ofDigits b (divDigit b d xs).1 + (divDigit b d xs).2 ∧
      (divDigit b d xs).2 < d ∧ Digits b (divDigit b d xs).1 ∧
      (divDigit b d xs).1.length = xs.length := by
  induction xs with
  | nil => exact ⟨by simp [divDigit], hd, digits_nil, rfl⟩
  | cons x xs ih =>
    rw [digits_cons] at hx
    obtain ⟨hval, hrem, hdigits, hlen⟩ := ih hx.2
    have hcur := Nat.div_add_mod ((divDigit b d xs).2 * b + x) d
    refine ⟨?_, Nat.mod_lt _ hd, ?_, by simp [divDigit, hlen]⟩
    · rw [divDigit, Nat.ofDigits_cons, Nat.ofDigits_cons, hval]
      linarith
    · rw [divDigit, digits_cons]
      refine ⟨?_, hdigits⟩
      rw [Nat.div_lt_iff_lt_mul hd]
      nlinarith

end Radix
