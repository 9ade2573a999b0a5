import Eshkol.Base.Radix

/-!
# Long division of digit lists

Division by several digits, one digit of the quotient at a time. The digit is estimated from the
leading digits and corrected until the estimate with two digits of the divisor is right; it is then
at most one too large, which shows when its multiple has been subtracted.
-/

namespace Radix

open Nat (ofDigits)

variable {b : ℕ}

/-! ## The estimated digit -/

/-- The estimate, lowered until it passes the test with the second digit or its remainder leaves the
range of the test. -/
def refineQuotient (b vTop vNext uNext : ℕ) : ℕ → ℕ → ℕ
  | 0, _ => 0
  | q + 1, r =>
    if b ≤ q + 1 ∨ r * b + uNext < (q + 1) * vNext then
      if b ≤ r + vTop then q else refineQuotient b vTop vNext uNext q (r + vTop)
    else q + 1

/-- The result is the greatest digit that passes the test. -/
theorem refineQuotient_spec {vTop vNext uNext u q r : ℕ} (hvn : vNext < b) (hun : uNext < b)
    (hinv : q * vTop + r = u) (hu : u < vTop * b + b) :
    refineQuotient b vTop vNext uNext q r < b ∧
      refineQuotient b vTop vNext uNext q r * (vTop * b + vNext) ≤ u * b + uNext ∧
      ∀ d, d < b → d * (vTop * b + vNext) ≤ u * b + uNext → d ≤ q →
        d ≤ refineQuotient b vTop vNext uNext q r := by
  induction q generalizing r with
  | zero => exact ⟨by rw [refineQuotient]; omega, by simp [refineQuotient], fun d _ _ hd => hd⟩
  | succ q ih =>
    rw [refineQuotient]
    by_cases htest : b ≤ q + 1 ∨ r * b + uNext < (q + 1) * vNext
    · rw [if_pos htest]
      have hle : ∀ d, d < b → d * (vTop * b + vNext) ≤ u * b + uNext → d ≤ q + 1 → d ≤ q := by
        intro d hdb hd hdq
        by_contra hne
        obtain rfl : d = q + 1 := by omega
        obtain htest | htest := htest
        · omega
        · have : (q + 1) * vTop * b + r * b = u * b := by rw [← hinv]; ring
          nlinarith
      by_cases hstop : b ≤ r + vTop
      · rw [if_pos hstop]
        have hq : q * vTop + (r + vTop) = u := by rw [← hinv]; ring
        have hqb : q < b := by
          by_contra hge
          have : b * vTop ≤ q * vTop := Nat.mul_le_mul_right _ (by omega)
          nlinarith
        refine ⟨hqb, ?_, fun d hdb hd hdq => hle d hdb hd hdq⟩
        have hsq : q * vNext ≤ b * b := Nat.mul_le_mul (by omega) (by omega)
        have hub : (q * vTop + b) * b ≤ u * b := Nat.mul_le_mul_right _ (by omega)
        nlinarith
      · rw [if_neg hstop]
        obtain ⟨hlt, hpass, hmax⟩ := ih (r := r + vTop) (by rw [← hinv]; ring)
        exact ⟨hlt, hpass, fun d hdb hd hdq => hmax d hdb hd (hle d hdb hd hdq)⟩
    · rw [if_neg htest]
      rw [not_or, Nat.not_le, Nat.not_lt] at htest
      refine ⟨htest.1, ?_, fun d _ _ hdq => hdq⟩
      have : (q + 1) * vTop * b + r * b = u * b := by rw [← hinv]; ring
      nlinarith

/-- The greatest digit that passes the test on the leading digits is the digit of the quotient or one
more. -/
theorem estimate_bounds {P v2 w3 vl wl d : ℕ} (hvl : vl < P) (hwl : wl < P) (hb : b ≤ v2)
    (hw : wl + P * w3 < b * (vl + P * v2)) (hdb : d < b) (hpass : d * v2 ≤ w3)
    (hmax : ∀ e, e < b → e * v2 ≤ w3 → e ≤ d) :
    (wl + P * w3) / (vl + P * v2) ≤ d ∧ d ≤ (wl + P * w3) / (vl + P * v2) + 1 := by
  have hP : 0 < P := by omega
  have hpos : 0 < vl + P * v2 := by
    have : 0 < P * v2 := Nat.mul_pos hP (by omega)
    omega
  constructor
  · refine hmax _ ((Nat.div_lt_iff_lt_mul hpos).2 hw) ?_
    have hmul := Nat.div_mul_le_self (wl + P * w3) (vl + P * v2)
    generalize (wl + P * w3) / (vl + P * v2) = e at hmul ⊢
    have hsplit : e * (vl + P * v2) = e * vl + P * (e * v2) := by ring
    have hlt : P * (e * v2) < P * (w3 + 1) := by linarith [Nat.zero_le (e * vl)]
    exact Nat.lt_succ_iff.1 (Nat.lt_of_mul_lt_mul_left hlt)
  · obtain rfl | hd := Nat.eq_zero_or_pos d
    · exact Nat.zero_le _
    obtain ⟨k, rfl⟩ : ∃ k, d = k + 1 := ⟨d - 1, by omega⟩
    refine Nat.succ_le_succ ((Nat.le_div_iff_mul_le hpos).2 ?_)
    have h1 : (k + 1) * vl ≤ b * P := Nat.mul_le_mul (by omega) (by omega)
    have h2 : P * ((k + 1) * v2) ≤ P * w3 := Nat.mul_le_mul_left _ hpass
    have h3 : b * P ≤ v2 * P := Nat.mul_le_mul_right _ hb
    nlinarith

/-! ## Subtracting a multiple -/

/-- `us - q * vs`, digit by digit, the borrow kept as an integer. -/
def mulSub (b q : ℕ) : ℤ → List ℕ → List ℕ → List ℕ × ℤ
  | borrow, u :: us, v :: vs =>
    let prod := q * v
    let diff : ℤ := u - (prod % b : ℕ) + borrow
    let rest := mulSub b q (diff / b - (prod / b : ℕ)) us vs
    ((diff % b).toNat :: rest.1, rest.2)
  | borrow, _, _ => ([], borrow)

lemma mulSub_spec {q : ℕ} (borrow : ℤ) {us vs : List ℕ} (hb : 0 < b) (hlen : us.length = vs.length) :
    ((ofDigits b (mulSub b q borrow us vs).1 : ℕ) : ℤ) +
        ((b ^ us.length : ℕ) : ℤ) * (mulSub b q borrow us vs).2 =
      ((ofDigits b us : ℕ) : ℤ) - ((q * ofDigits b vs : ℕ) : ℤ) + borrow ∧
      Digits b (mulSub b q borrow us vs).1 ∧ (mulSub b q borrow us vs).1.length = us.length := by
  induction us generalizing borrow vs with
  | nil =>
    rw [List.length_nil] at hlen
    rw [List.length_eq_zero_iff.1 hlen.symm]
    exact ⟨by simp [mulSub, Nat.ofDigits_nil], digits_nil, rfl⟩
  | cons u us ih =>
    cases vs with
    | nil => cases hlen
    | cons v vs =>
      have hb' : (b : ℤ) ≠ 0 := by omega
      rw [mulSub]
      have hprod := Nat.mod_add_div (q * v) b
      generalize q * v % b = low at *
      generalize q * v / b = high at *
      generalize hdiff : (u : ℤ) - (low : ℕ) + borrow = diff
      obtain ⟨hval, hdigits, hlength⟩ := ih (diff / b - (high : ℕ)) (by simpa using hlen)
      have hnonneg := Int.emod_nonneg diff hb'
      have hlt := Int.emod_lt_of_pos diff (by omega : (0 : ℤ) < b)
      have hsplit := Int.emod_add_mul_ediv diff b
      refine ⟨?_, ?_, by simpa using hlength⟩
      · simp only [Nat.ofDigits_cons, List.length_cons, pow_succ, Nat.cast_add, Nat.cast_mul,
          Int.toNat_of_nonneg hnonneg] at hval ⊢
        have hcast : (low : ℤ) + b * high = q * v := by exact_mod_cast hprod
        have hscaled := congrArg ((b : ℤ) * ·) hval
        simp only [mul_add, mul_sub] at hscaled
        linarith
      · rw [digits_cons]
        exact ⟨by omega, hdigits⟩

/-- Adds the divisor back, with the carry out of it. -/
def addBack (b : ℕ) : ℕ → List ℕ → List ℕ → List ℕ × ℕ
  | carry, u :: us, v :: vs =>
    let sum := u + v + carry
    let rest := addBack b (sum / b) us vs
    (sum % b :: rest.1, rest.2)
  | carry, _, _ => ([], carry)

lemma addBack_spec (carry : ℕ) {us vs : List ℕ} (hb : 0 < b) (hlen : us.length = vs.length) :
    ofDigits b (addBack b carry us vs).1 + b ^ us.length * (addBack b carry us vs).2 =
        ofDigits b us + ofDigits b vs + carry ∧
      Digits b (addBack b carry us vs).1 ∧ (addBack b carry us vs).1.length = us.length := by
  induction us generalizing carry vs with
  | nil =>
    rw [List.length_nil] at hlen
    rw [List.length_eq_zero_iff.1 hlen.symm]
    exact ⟨by simp [addBack], digits_nil, rfl⟩
  | cons u us ih =>
    cases vs with
    | nil => cases hlen
    | cons v vs =>
      rw [addBack]
      obtain ⟨hval, hdigits, hlength⟩ := ih ((u + v + carry) / b) (by simpa using hlen)
      have hsum := Nat.mod_add_div (u + v + carry) b
      refine ⟨?_, ?_, by simpa using hlength⟩
      · simp only [Nat.ofDigits_cons, List.length_cons, pow_succ]
        have hscaled := congrArg (b * ·) hval
        simp only [Nat.mul_add] at hscaled
        linarith
      · rw [digits_cons]
        exact ⟨Nat.mod_lt _ hb, hdigits⟩

/-! ## One digit of the quotient -/

/-- The estimate from the leading digits of the divisor `vs` and of the window `w`, which has one digit
more. -/
def estimate (b : ℕ) (vs w : List ℕ) : ℕ :=
  let n := vs.length
  let vTop := vs.getD (n - 1) 0
  let uhat := w.getD n 0 * b + w.getD (n - 1) 0
  refineQuotient b vTop (vs.getD (n - 2) 0) (w.getD (n - 2) 0) (uhat / vTop) (uhat % vTop)

/-- The multiple of the divisor is subtracted from the window, and the divisor added back if that was
too much. -/
def subtractMultiple (b : ℕ) (vs w : List ℕ) (q : ℕ) : ℕ × List ℕ :=
  let n := vs.length
  let low := mulSub b q 0 (w.take n) vs
  let top : ℤ := w.getD n 0 + low.2
  let topDigit := (top % b).toNat
  if top < 0 then
    let back := addBack b 0 low.1 vs
    ((q + (b - 1)) % b, back.1 ++ [(topDigit + back.2) % b])
  else (q, low.1 ++ [topDigit])

/-- A digit of the quotient, and the window with its multiple taken off. -/
def divStep (b : ℕ) (vs w : List ℕ) : ℕ × List ℕ := subtractMultiple b vs w (estimate b vs w % b)

lemma ofDigits_take_succ {l : List ℕ} {k : ℕ} (h : k < l.length) :
    ofDigits b (l.take (k + 1)) = ofDigits b (l.take k) + b ^ k * l.getD k 0 := by
  rw [List.take_add_one, Nat.ofDigits_append, List.length_take_of_le (by omega)]
  simp [List.getElem?_eq_getElem h, List.getD_eq_getElem?_getD]

lemma ofDigits_eq_take {l : List ℕ} {k : ℕ} (h : l.length = k + 1) :
    ofDigits b l = ofDigits b (l.take k) + b ^ k * l.getD k 0 := by
  rw [← ofDigits_take_succ (by omega), ← h, List.take_length]

lemma Digits.getD {l : List ℕ} (h : Digits b l) (hb : 0 < b) (k : ℕ) : l.getD k 0 < b := by
  rw [List.getD_eq_getElem?_getD]
  cases hk : l[k]? with
  | none => exact hb
  | some d => exact h d (List.mem_of_getElem? hk)

lemma take_lt {l : List ℕ} {k : ℕ} (hb : 1 < b) (h : Digits b l) (hk : k ≤ l.length) :
    ofDigits b (l.take k) < b ^ k := by
  have := ofDigits_lt hb (h.take k)
  rwa [List.length_take_of_le hk] at this

/-- A number below `B` has no part above it. -/
theorem eq_of_add_mul_eq {B L R : ℕ} {T : ℤ} (hL : L < B) (hR : R < B) (h : (L : ℤ) + (B : ℤ) * T = R) :
    T = 0 ∧ L = R := by
  have hT : T = 0 := by
    by_contra hne
    obtain hneg | hpos := Int.lt_or_gt_of_ne hne
    · have : (B : ℤ) * T ≤ B * (-1) := Int.mul_le_mul_of_nonneg_left (by omega) (by omega)
      omega
    · have : (B : ℤ) * 1 ≤ B * T := Int.mul_le_mul_of_nonneg_left (by omega) (by omega)
      omega
  rw [hT] at h
  exact ⟨hT, by omega⟩

section step
variable {vs w : List ℕ}

/-- The estimate is the digit of the quotient or one more. -/
theorem estimate_spec (hb : 1 < b) (hv : Digits b vs) (hn : 2 ≤ vs.length)
    (htop : vs.getD (vs.length - 1) 0 ≠ 0) (hw : Digits b w) (hlen : w.length = vs.length + 1)
    (hlt : ofDigits b w < b * ofDigits b vs) :
    estimate b vs w < b ∧ ofDigits b w / ofDigits b vs ≤ estimate b vs w ∧
      estimate b vs w ≤ ofDigits b w / ofDigits b vs + 1 := by
  obtain ⟨m, hm⟩ : ∃ m, vs.length = m + 2 := ⟨vs.length - 2, by omega⟩
  have hvs : ofDigits b vs = ofDigits b (vs.take m) +
      b ^ m * (vs.getD (m + 1) 0 * b + vs.getD m 0) := by
    rw [ofDigits_eq_take hm, ofDigits_take_succ (by omega), pow_succ]
    ring
  have hws : ofDigits b w = ofDigits b (w.take m) +
      b ^ m * ((w.getD (m + 2) 0 * b + w.getD (m + 1) 0) * b + w.getD m 0) := by
    rw [ofDigits_eq_take (k := m + 2) (by omega), ofDigits_take_succ (by omega),
      ofDigits_take_succ (by omega), pow_succ, pow_succ]
    ring
  have hvl : ofDigits b (vs.take m) < b ^ m := take_lt hb hv (by omega)
  have hwl : ofDigits b (w.take m) < b ^ m := take_lt hb hw (by omega)
  have hvn : vs.getD m 0 < b := hv.getD (by omega) m
  have hun : w.getD m 0 < b := hw.getD (by omega) m
  rw [hm] at htop
  rw [estimate, hm]
  simp only [show m + 2 - 1 = m + 1 by omega, show m + 2 - 2 = m by omega] at htop ⊢
  rw [hvs, hws] at hlt ⊢
  generalize vs.getD (m + 1) 0 = vTop at *
  generalize vs.getD m 0 = vNext at *
  generalize w.getD (m + 2) 0 * b + w.getD (m + 1) 0 = uhat at *
  generalize w.getD m 0 = uNext at *
  generalize ofDigits b (vs.take m) = vl at *
  generalize ofDigits b (w.take m) = wl at *
  generalize b ^ m = P at *
  have hP : 0 < P := by omega
  have huhat : uhat < vTop * b + b := by
    by_contra hge
    rw [Nat.not_lt] at hge
    have h1 : P * ((vTop * b + b) * b) ≤ P * (uhat * b) :=
      Nat.mul_le_mul_left _ (Nat.mul_le_mul_right _ hge)
    have h2 : b * (vl + P * (vTop * b + vNext)) < b * (P * (vTop * b + b)) := by
      refine Nat.mul_lt_mul_of_pos_left ?_ (by omega)
      have : P * (vNext + 1) ≤ P * b := Nat.mul_le_mul_left _ (by omega)
      nlinarith
    nlinarith
  obtain ⟨hqb, hpass, hmax⟩ := refineQuotient_spec (q := uhat / vTop) (r := uhat % vTop) hvn hun
    (Nat.div_add_mod' uhat vTop) huhat
  have hb2 : b ≤ vTop * b + vNext := by
    have : 1 * b ≤ vTop * b := Nat.mul_le_mul_right _ (by omega)
    omega
  refine ⟨hqb, estimate_bounds hvl hwl hb2 hlt hqb hpass fun e heb he => hmax e heb he ?_⟩
  rw [Nat.le_div_iff_mul_le (by omega)]
  have hlt' : e * vTop * b < (uhat + 1) * b := by nlinarith
  exact Nat.lt_succ_iff.1 (Nat.lt_of_mul_lt_mul_right hlt')

/-- The top digit after the subtraction is zero when the digit is right, and minus one when it is one
too large. -/
theorem mulSub_top {q : ℕ} (hb : 1 < b) (hv : Digits b vs) (hlen : w.length = vs.length + 1)
    (hlt : ofDigits b w < b * ofDigits b vs) :
    (q = ofDigits b w / ofDigits b vs →
      w.getD vs.length 0 + (mulSub b q 0 (w.take vs.length) vs).2 = (0 : ℤ) ∧
        ofDigits b (mulSub b q 0 (w.take vs.length) vs).1 = ofDigits b w % ofDigits b vs) ∧
    (q = ofDigits b w / ofDigits b vs + 1 →
      w.getD vs.length 0 + (mulSub b q 0 (w.take vs.length) vs).2 = (-1 : ℤ) ∧
        ofDigits b (mulSub b q 0 (w.take vs.length) vs).1 + ofDigits b vs =
          ofDigits b w % ofDigits b vs + b ^ vs.length) := by
  have hvpos : 0 < ofDigits b vs := by
    by_contra hzero
    rw [Nat.eq_zero_of_not_pos hzero, Nat.mul_zero] at hlt
    omega
  have hvlt : ofDigits b vs < b ^ vs.length := ofDigits_lt hb hv
  have hwsplit : ofDigits b w = ofDigits b (w.take vs.length) + b ^ vs.length * w.getD vs.length 0 :=
    ofDigits_eq_take hlen
  have hdiv := Nat.div_add_mod' (ofDigits b w) (ofDigits b vs)
  have hmod := Nat.mod_lt (ofDigits b w) hvpos
  have htake : (w.take vs.length).length = vs.length := List.length_take_of_le (by omega)
  obtain ⟨hval, hdigits, hlength⟩ := mulSub_spec (q := q) 0 (by omega : 0 < b) htake
  have hlowlt := ofDigits_lt hb hdigits
  rw [htake] at hval hlength
  rw [hlength] at hlowlt
  generalize mulSub b q 0 (w.take vs.length) vs = low at *
  -- the window less the multiple, its digits and the signed top
  have htotal : ((ofDigits b low.1 : ℕ) : ℤ) + ((b ^ vs.length : ℕ) : ℤ) * (w.getD vs.length 0 + low.2) =
      (ofDigits b w : ℕ) - (q * ofDigits b vs : ℕ) := by
    rw [hwsplit]
    push_cast at hval ⊢
    linarith
  generalize (w.getD vs.length 0 : ℤ) + low.2 = top at *
  constructor
  · rintro rfl
    have hrem : ((ofDigits b low.1 : ℕ) : ℤ) + ((b ^ vs.length : ℕ) : ℤ) * top =
        (ofDigits b w % ofDigits b vs : ℕ) := by omega
    exact eq_of_add_mul_eq hlowlt (by omega) hrem
  · rintro rfl
    have hborrow : ((ofDigits b low.1 : ℕ) : ℤ) + ((b ^ vs.length : ℕ) : ℤ) * (top + 1) =
        (ofDigits b w % ofDigits b vs + b ^ vs.length - ofDigits b vs : ℕ) := by
      rw [Nat.add_mul, Nat.one_mul] at htotal
      rw [mul_add, mul_one]
      omega
    obtain ⟨htop, hlow_eq⟩ := eq_of_add_mul_eq hlowlt (by omega) hborrow
    exact ⟨by omega, by omega⟩

/-- A digit that is right or one too large is put right. -/
theorem subtractMultiple_spec {q : ℕ} (hb : 1 < b) (hv : Digits b vs) (hlen : w.length = vs.length + 1)
    (hlt : ofDigits b w < b * ofDigits b vs) (hqb : q < b)
    (hle : ofDigits b w / ofDigits b vs ≤ q) (hge : q ≤ ofDigits b w / ofDigits b vs + 1) :
    (subtractMultiple b vs w q).1 = ofDigits b w / ofDigits b vs ∧
      ofDigits b ((subtractMultiple b vs w q).2.take vs.length) = ofDigits b w % ofDigits b vs ∧
      Digits b (subtractMultiple b vs w q).2 ∧
      (subtractMultiple b vs w q).2.length = vs.length + 1 := by
  have hvlt : ofDigits b vs < b ^ vs.length := ofDigits_lt hb hv
  have hvpos : 0 < ofDigits b vs := by
    by_contra hzero
    rw [Nat.eq_zero_of_not_pos hzero, Nat.mul_zero] at hlt
    omega
  have hmod := Nat.mod_lt (ofDigits b w) hvpos
  have htake : (w.take vs.length).length = vs.length := List.length_take_of_le (by omega)
  obtain ⟨-, hdigits, hlength⟩ := mulSub_spec (q := q) 0 (by omega : 0 < b) htake
  rw [htake] at hlength
  obtain ⟨hright, htoo⟩ := mulSub_top (q := q) hb hv hlen hlt
  rw [subtractMultiple]
  generalize hlow : mulSub b q 0 (w.take vs.length) vs = low at *
  generalize (w.getD vs.length 0 : ℤ) + low.2 = top at *
  obtain hq | hq : q = ofDigits b w / ofDigits b vs ∨ q = ofDigits b w / ofDigits b vs + 1 := by omega
  · obtain ⟨rfl, hlow_eq⟩ := hright hq
    rw [if_neg (by omega)]
    refine ⟨hq, ?_, ?_, by simp [hlength]⟩
    · rw [List.take_append_of_le_length (by omega), ← hlength, List.take_length, hlow_eq]
    · simpa using ⟨hdigits, by simpa [Digits] using (by omega : 0 < b)⟩
  · obtain ⟨rfl, hlow_eq⟩ := htoo hq
    rw [if_pos (by omega)]
    obtain ⟨hback, hback_digits, hback_len⟩ := addBack_spec 0 (by omega : 0 < b) hlength
    have hback_lt := ofDigits_lt hb hback_digits
    rw [hback_len, hlength] at hback_lt
    rw [hlength] at hback
    have hcarry : ((ofDigits b (addBack b 0 low.1 vs).1 : ℕ) : ℤ) +
        ((b ^ vs.length : ℕ) : ℤ) * ((addBack b 0 low.1 vs).2 - 1) = (ofDigits b w % ofDigits b vs : ℕ) := by
      rw [mul_sub, mul_one]
      have : ((b ^ vs.length * (addBack b 0 low.1 vs).2 : ℕ) : ℤ) =
        ((b ^ vs.length : ℕ) : ℤ) * ((addBack b 0 low.1 vs).2 : ℤ) := Nat.cast_mul _ _
      omega
    obtain ⟨-, hrem⟩ := eq_of_add_mul_eq hback_lt (by omega) hcarry
    refine ⟨?_, ?_, ?_, by simp [hback_len, hlength]⟩
    · rw [hq, show ofDigits b w / ofDigits b vs + 1 + (b - 1) = ofDigits b w / ofDigits b vs + b by omega,
        Nat.add_mod_right]
      exact Nat.mod_eq_of_lt (by omega)
    · rw [List.take_append_of_le_length (by omega), ← hlength, ← hback_len, List.take_length, hrem]
    · rw [digits_append]
      exact ⟨hback_digits, by simpa [Digits] using Nat.mod_lt _ (by omega)⟩

lemma divStep_spec (hb : 1 < b) (hv : Digits b vs) (hn : 2 ≤ vs.length)
    (htop : vs.getD (vs.length - 1) 0 ≠ 0) (hw : Digits b w) (hlen : w.length = vs.length + 1)
    (hlt : ofDigits b w < b * ofDigits b vs) :
    (divStep b vs w).1 = ofDigits b w / ofDigits b vs ∧
      ofDigits b ((divStep b vs w).2.take vs.length) = ofDigits b w % ofDigits b vs ∧
      Digits b (divStep b vs w).2 ∧ (divStep b vs w).2.length = vs.length + 1 := by
  obtain ⟨hqb, hle, hge⟩ := estimate_spec hb hv hn htop hw hlen hlt
  rw [divStep, Nat.mod_eq_of_lt hqb]
  exact subtractMultiple_spec hb hv hlen hlt hqb hle hge

end step

/-! ## All digits -/

/-- `j` digits of the quotient, from the most significant down, and what is left of the dividend. -/
def divLoop (b : ℕ) (vs : List ℕ) : ℕ → List ℕ → List ℕ × List ℕ
  | 0, us => ([], us)
  | j + 1, us =>
    let step := divStep b vs ((us.drop j).take (vs.length + 1))
    let rest := divLoop b vs j (us.take j ++ step.2 ++ us.drop (j + vs.length + 1))
    (rest.1 ++ [step.1], rest.2)

/-- The digits from `j` on that the step `j` works on. -/
def window (vs us : List ℕ) (j : ℕ) : List ℕ := (us.drop j).take (vs.length + 1)

/-- The dividend after the step `j`. -/
def nextDividend (b : ℕ) (vs us : List ℕ) (j : ℕ) : List ℕ :=
  us.take j ++ (divStep b vs (window vs us j)).2 ++ us.drop (j + vs.length + 1)

lemma divLoop_succ (vs us : List ℕ) (j : ℕ) :
    divLoop b vs (j + 1) us = ((divLoop b vs j (nextDividend b vs us j)).1 ++
      [(divStep b vs (window vs us j)).1], (divLoop b vs j (nextDividend b vs us j)).2) := rfl

/-- Before the digit `j` the `vs.length` digits from `j` on are below the divisor. -/
structure BelowDivisor (b : ℕ) (vs us : List ℕ) (j : ℕ) : Prop where
  digits : Digits b us
  length_le : j + vs.length ≤ us.length
  lt : ofDigits b ((us.drop j).take vs.length) < ofDigits b vs

namespace BelowDivisor

variable {vs us : List ℕ} {j : ℕ}

lemma window_digits (h : BelowDivisor b vs us (j + 1)) : Digits b (window vs us j) :=
  (h.digits.drop j).take _

lemma window_length (h : BelowDivisor b vs us (j + 1)) : (window vs us j).length = vs.length + 1 := by
  have := h.length_le
  rw [window, List.length_take, List.length_drop]
  omega

lemma window_lt (h : BelowDivisor b vs us (j + 1)) (hb : 1 < b) :
    ofDigits b (window vs us j) < b * ofDigits b vs := by
  have hhead := (h.digits.drop j).headD (by omega)
  have htail : (window vs us j).tail = (us.drop (j + 1)).take vs.length := by
    rw [window, ← List.drop_one, List.drop_take, List.drop_drop, Nat.add_sub_cancel]
  have hhead_eq : (window vs us j).headD 0 = (us.drop j).headD 0 := by
    rw [window]
    cases us.drop j <;> rfl
  have : b * (ofDigits b ((us.drop (j + 1)).take vs.length) + 1) ≤ b * ofDigits b vs :=
    Nat.mul_le_mul_left _ h.lt
  rw [ofDigits_headD, htail, hhead_eq]
  linarith

variable (h : BelowDivisor b vs us (j + 1)) (hb : 1 < b) (hv : Digits b vs) (hn : 2 ≤ vs.length)
  (htop : vs.getD (vs.length - 1) 0 ≠ 0)

include h hb hv hn htop

lemma step_spec : (divStep b vs (window vs us j)).1 = ofDigits b (window vs us j) / ofDigits b vs ∧
    ofDigits b ((divStep b vs (window vs us j)).2.take vs.length) =
      ofDigits b (window vs us j) % ofDigits b vs ∧
    Digits b (divStep b vs (window vs us j)).2 ∧
    (divStep b vs (window vs us j)).2.length = vs.length + 1 :=
  divStep_spec hb hv hn htop h.window_digits h.window_length (h.window_lt hb)

lemma next_length : (nextDividend b vs us j).length = us.length := by
  have hlen := h.length_le
  obtain ⟨-, -, -, hslen⟩ := h.step_spec hb hv hn htop
  rw [nextDividend, List.length_append, List.length_append, List.length_take_of_le (by omega), hslen,
    List.length_drop]
  omega

lemma next_take : (nextDividend b vs us j).take (j + vs.length) =
    us.take j ++ (divStep b vs (window vs us j)).2.take vs.length := by
  have hlen := h.length_le
  obtain ⟨-, -, -, hslen⟩ := h.step_spec hb hv hn htop
  have htakelen : (us.take j).length = j := List.length_take_of_le (by omega)
  rw [nextDividend, List.append_assoc, List.take_append, htakelen, Nat.add_sub_cancel_left,
    List.take_of_length_le (by omega), List.take_append_of_le_length (by omega)]

/-- What a step leaves is below the divisor again. -/
theorem next : BelowDivisor b vs (nextDividend b vs us j) j := by
  have hlen := h.length_le
  have hnext := h.next_length hb hv hn htop
  obtain ⟨-, hr, hsdigits, hslen⟩ := h.step_spec hb hv hn htop
  have htakelen : (us.take j).length = j := List.length_take_of_le (by omega)
  refine ⟨?_, by omega, ?_⟩
  · rw [nextDividend, digits_append, digits_append]
    exact ⟨⟨h.digits.take j, hsdigits⟩, h.digits.drop _⟩
  · rw [nextDividend, List.append_assoc, List.drop_append_of_le_length (by omega),
      List.drop_eq_nil_of_le (by omega), List.nil_append, List.take_append_of_le_length (by omega), hr]
    exact Nat.mod_lt _ (Nat.lt_of_le_of_lt (Nat.zero_le _) h.lt)

end BelowDivisor

/-- The loop divides the digits below `j + vs.length`, of which those from `j` on are below the
divisor. -/
theorem divLoop_spec {vs us : List ℕ} {j : ℕ} (hb : 1 < b) (hv : Digits b vs) (hn : 2 ≤ vs.length)
    (htop : vs.getD (vs.length - 1) 0 ≠ 0) (h : BelowDivisor b vs us j) :
    ofDigits b (us.take (j + vs.length)) =
        ofDigits b (divLoop b vs j us).1 * ofDigits b vs +
          ofDigits b ((divLoop b vs j us).2.take vs.length) ∧
      ofDigits b ((divLoop b vs j us).2.take vs.length) < ofDigits b vs ∧
      Digits b (divLoop b vs j us).1 ∧ (divLoop b vs j us).1.length = j ∧
      Digits b (divLoop b vs j us).2 ∧ (divLoop b vs j us).2.length = us.length := by
  induction j generalizing us with
  | zero => exact ⟨by simp [divLoop], by simpa [divLoop] using h.lt, digits_nil, rfl, h.digits, rfl⟩
  | succ j ih =>
    have hlen := h.length_le
    have hvpos : 0 < ofDigits b vs := Nat.lt_of_le_of_lt (Nat.zero_le _) h.lt
    obtain ⟨hq, hr, -, -⟩ := h.step_spec hb hv hn htop
    have htake := h.next_take hb hv hn htop
    have htakelen : (us.take j).length = j := List.length_take_of_le (by omega)
    obtain ⟨hval, hrem, hqdigits, hqlen, hfdigits, hflen⟩ := ih (h.next hb hv hn htop)
    rw [divLoop_succ]
    refine ⟨?_, hrem, ?_, by simp [hqlen], hfdigits, hflen.trans (h.next_length hb hv hn htop)⟩
    · have hsplit : us.take (j + 1 + vs.length) = us.take j ++ window vs us j := by
        rw [window, ← List.take_add]
        congr 1
        omega
      have hdiv := Nat.div_add_mod' (ofDigits b (window vs us j)) (ofDigits b vs)
      rw [← hq, ← hr] at hdiv
      rw [htake, Nat.ofDigits_append, htakelen] at hval
      rw [hsplit, Nat.ofDigits_append, Nat.ofDigits_append, htakelen, hqlen, Nat.ofDigits_singleton,
        ← hdiv]
      linarith
    · rw [digits_append]
      refine ⟨hqdigits, ?_⟩
      have : (divStep b vs (window vs us j)).1 < b := by
        rw [hq]
        exact (Nat.div_lt_iff_lt_mul hvpos).2 (h.window_lt hb)
      simpa [Digits] using this

/-! ## Scaled operands -/

/-- A truncated remainder has the sign of the dividend. -/
theorem sign_tmod (m n : ℤ) : m.tmod n = 0 ∨ (m.tmod n).sign = m.sign := by
  by_cases hzero : m.tmod n = 0
  · exact .inl hzero
  · refine .inr ?_
    obtain hm | rfl | hm := lt_trichotomy m 0
    · have : m.tmod n ≤ 0 := by
        have := Int.tmod_nonneg (a := -m) n (by omega)
        rw [Int.neg_tmod] at this
        omega
      rw [Int.sign_eq_neg_one_of_neg hm, Int.sign_eq_neg_one_of_neg (by omega)]
    · simp at hzero
    · have := Int.tmod_nonneg n hm.le
      rw [Int.sign_eq_one_of_pos hm, Int.sign_eq_one_of_pos (by omega)]

/-- A division of both scaled by `S`. -/
theorem unscale {A V Q M S : ℕ} (hS : 0 < S) (h : S * A = Q * (S * V) + M) (hM : M < S * V) :
    Q = A / V ∧ M / S = A % V := by
  obtain ⟨r, rfl⟩ : S ∣ M := by
    have hmultiple : S ∣ Q * (S * V) := ⟨Q * V, by ring⟩
    exact (Nat.dvd_add_right hmultiple).1 ⟨A, h.symm⟩
  have hr : r < V := Nat.lt_of_mul_lt_mul_left hM
  have hA : A = Q * V + r := Nat.eq_of_mul_eq_mul_left hS (by rw [h]; ring)
  have hunique := (Nat.div_mod_unique (by omega : 0 < V)).2 ⟨(by rw [hA]; ring : r + V * Q = A), hr⟩
  rw [Nat.mul_div_cancel_left _ hS]
  exact ⟨hunique.1.symm, hunique.2.symm⟩

/-- The divisor `bs` and the dividend `as`, scaled by `S` until the top digit of the divisor reaches
`half`. -/
structure Scaled (b half S : ℕ) (as bs un vn : List ℕ) : Prop where
  digits : Digits b as
  two_le : 2 ≤ bs.length
  length_le : bs.length ≤ as.length
  half_pos : 0 < half
  scale_le : S ≤ half
  top : half ≤ bs.getD (bs.length - 1) 0 * S
  divisor : ofDigits b vn = S * ofDigits b bs
  divisor_digits : Digits b vn
  divisor_length : vn.length = bs.length
  dividend : ofDigits b un = S * ofDigits b as
  dividend_digits : Digits b un
  dividend_length : un.length = as.length + 1

namespace Scaled

variable {half S : ℕ} {as bs un vn : List ℕ}

lemma scale_pos (h : Scaled b half S as bs un vn) : 0 < S := by
  by_contra hzero
  have htop := h.top
  rw [Nat.eq_zero_of_not_pos hzero, Nat.mul_zero] at htop
  have := h.half_pos
  omega

/-- The scaled divisor fills its digits. -/
theorem divisor_ge (h : Scaled b half S as bs un vn) :
    half * b ^ (bs.length - 1) ≤ S * ofDigits b bs := by
  obtain ⟨k, hk⟩ : ∃ k, bs.length = k + 1 := ⟨bs.length - 1, by have := h.two_le; omega⟩
  have hsplit := ofDigits_eq_take (b := b) hk
  have htop := h.top
  rw [hk, Nat.add_sub_cancel] at htop ⊢
  calc half * b ^ k ≤ bs.getD k 0 * S * b ^ k := Nat.mul_le_mul_right _ htop
    _ = S * (b ^ k * bs.getD k 0) := by ring
    _ ≤ S * ofDigits b bs := Nat.mul_le_mul_left _ (by omega)

lemma top_ne_zero (h : Scaled b half S as bs un vn) (hb : 1 < b) :
    vn.getD (vn.length - 1) 0 ≠ 0 := by
  intro hzero
  obtain ⟨k, hk⟩ : ∃ k, bs.length = k + 1 := ⟨bs.length - 1, by have := h.two_le; omega⟩
  have hlen := h.divisor_length
  have hge := h.divisor_ge
  have hsplit := ofDigits_eq_take (b := b) (hlen.trans hk)
  have hlt := take_lt (k := k) hb h.divisor_digits (by omega)
  rw [hlen, hk, Nat.add_sub_cancel] at hzero
  rw [hzero, h.divisor] at hsplit
  rw [hk, Nat.add_sub_cancel] at hge
  have : b ^ k ≤ half * b ^ k := Nat.le_mul_of_pos_left _ h.half_pos
  omega

/-- The leading digits of the dividend are below the divisor. -/
theorem belowDivisor (h : Scaled b half S as bs un vn) (hb : 1 < b) :
    BelowDivisor b vn un (as.length - bs.length + 1) := by
  obtain ⟨k, hk⟩ : ∃ k, bs.length = k + 1 := ⟨bs.length - 1, by have := h.two_le; omega⟩
  have hlen := h.length_le
  have hvn_len := h.divisor_length
  have hun_len := h.dividend_length
  have hge := h.divisor_ge
  rw [hk, Nat.add_sub_cancel] at hge
  have hdroplen : (un.drop (as.length - bs.length + 1)).length = vn.length := by
    rw [List.length_drop]
    omega
  refine ⟨h.dividend_digits, by omega, ?_⟩
  rw [← hdroplen, List.take_length, h.divisor]
  refine Nat.lt_of_lt_of_le ?_ hge
  have hsplit : ofDigits b un = ofDigits b (un.take (as.length - bs.length + 1)) +
      b ^ (as.length - bs.length + 1) * ofDigits b (un.drop (as.length - bs.length + 1)) := by
    conv_lhs => rw [← List.take_append_drop (as.length - bs.length + 1) un]
    rw [Nat.ofDigits_append, List.length_take_of_le (by omega)]
  have hlt : S * ofDigits b as < half * b ^ as.length := by
    calc S * ofDigits b as < S * b ^ as.length :=
          Nat.mul_lt_mul_of_pos_left (ofDigits_lt hb h.digits) h.scale_pos
      _ ≤ half * b ^ as.length := Nat.mul_le_mul_right _ h.scale_le
  have hexp : b ^ as.length = b ^ (as.length - bs.length + 1) * b ^ k := by
    rw [← pow_add]
    congr 1
    omega
  rw [h.dividend] at hsplit
  rw [hexp] at hlt
  refine Nat.lt_of_mul_lt_mul_left (a := b ^ (as.length - bs.length + 1)) ?_
  calc b ^ (as.length - bs.length + 1) * ofDigits b (un.drop (as.length - bs.length + 1))
      ≤ S * ofDigits b as := by omega
    _ < half * (b ^ (as.length - bs.length + 1) * b ^ k) := hlt
    _ = b ^ (as.length - bs.length + 1) * (half * b ^ k) := by ring

/-- Long division of the scaled operands divides the operands; the remainder is scaled. -/
theorem divLoop (h : Scaled b half S as bs un vn) (hb : 1 < b) :
    let division := Radix.divLoop b vn (as.length - bs.length + 1) un
    ofDigits b division.1 = ofDigits b as / ofDigits b bs ∧
      ofDigits b (division.2.take bs.length) / S = ofDigits b as % ofDigits b bs ∧
      Digits b division.1 ∧ division.1.length = as.length - bs.length + 1 ∧
      Digits b division.2 ∧ division.2.length = un.length := by
  have hn := h.two_le
  have hlen := h.length_le
  have hvn_len := h.divisor_length
  have hun_len := h.dividend_length
  obtain ⟨hval, hrem, hqdigits, hqlen, hrdigits, hrlen⟩ := divLoop_spec hb h.divisor_digits (by omega)
    (h.top_ne_zero hb) (h.belowDivisor hb)
  simp only
  rw [hvn_len] at hval hrem
  rw [List.take_of_length_le (by omega), h.dividend, h.divisor] at hval
  rw [h.divisor] at hrem
  obtain ⟨hquot, hmod⟩ := unscale h.scale_pos hval hrem
  exact ⟨hquot, hmod, hqdigits, hqlen, hrdigits, hrlen⟩

end Scaled

end Radix
