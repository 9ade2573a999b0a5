import Eshkol.Base.LongDivision

/-!
# The intermediate values of long division

Digits below `b` are worked on in integers of two digits. Each condition below names the values that one
loop of the division computes and says that they fit; the exact arithmetic of `LongDivision` is then that
of the machine.
-/

namespace Radix

open Nat (ofDigits)

variable {b : ℕ}

/-- A value of the unsigned integers of two digits. -/
def Unsigned (b x : ℕ) : Prop := x < b * b

/-- A value of the signed integers of two digits. -/
def Signed (b : ℕ) (x : ℤ) : Prop := -(b * b : ℤ) ≤ 2 * x ∧ 2 * x < b * b

lemma unsigned_of_lt {x : ℕ} (hb : 2 ≤ b) (h : x < 2 * b) : Unsigned b x :=
  Nat.lt_of_lt_of_le h (Nat.mul_le_mul_right _ hb)

lemma unsigned_mul {x y : ℕ} (hx : x < b) (hy : y < b) : Unsigned b (x * y) :=
  Nat.mul_lt_mul'' hx hy

/-- Two digits put together. -/
theorem unsigned_mul_add {x y : ℕ} (hx : x < b) (hy : y < b) : Unsigned b (x * b + y) := by
  have : (x + 1) * b ≤ b * b := Nat.mul_le_mul_right _ hx
  rw [Nat.add_mul, Nat.one_mul] at this
  show x * b + y < b * b
  omega

lemma signed_of_bounds {x : ℤ} (hb : 4 ≤ b) (hlo : -(2 * b : ℤ) ≤ x) (hhi : x < 2 * b) : Signed b x := by
  have : ((4 * b : ℕ) : ℤ) ≤ (b * b : ℕ) := by exact_mod_cast Nat.mul_le_mul_right b hb
  push_cast at this
  exact ⟨by omega, by omega⟩

/-! ## The estimate -/

/-- What the test of the estimate `q` with remainder `r` computes; the products only when `q` is a
digit. -/
def TestInRange (b vNext uNext q r : ℕ) : Prop :=
  Unsigned b q ∧ Unsigned b r ∧ (q < b → Unsigned b (q * vNext) ∧ Unsigned b (r * b + uNext))

/-- What `refineQuotient` computes. -/
def RefineInRange (b vTop vNext uNext : ℕ) : ℕ → ℕ → Prop
  | 0, r => TestInRange b vNext uNext 0 r
  | q + 1, r =>
    TestInRange b vNext uNext (q + 1) r ∧
      (b ≤ q + 1 ∨ r * b + uNext < (q + 1) * vNext →
        Unsigned b (r + vTop) ∧ (r + vTop < b → RefineInRange b vTop vNext uNext q (r + vTop)))

/-- The remainder stays a digit for as long as the loop goes on. -/
theorem refine_inRange {vTop vNext uNext q r : ℕ} (hb : 2 ≤ b) (hvt : vTop < b) (hvn : vNext < b)
    (hun : uNext < b) (hq : Unsigned b q) (hr : r < b) : RefineInRange b vTop vNext uNext q r := by
  induction q generalizing r with
  | zero =>
    exact ⟨hq, unsigned_of_lt hb (by omega), fun hqb => ⟨unsigned_mul hqb hvn, unsigned_mul_add hr hun⟩⟩
  | succ q ih =>
    refine ⟨⟨hq, unsigned_of_lt hb (by omega),
      fun hqb => ⟨unsigned_mul hqb hvn, unsigned_mul_add hr hun⟩⟩, fun _ => ?_⟩
    exact ⟨unsigned_of_lt hb (by omega), fun hlt => ih (Nat.lt_of_succ_lt hq) hlt⟩

/-! ## The subtraction and the addition -/

/-- What `mulSub` computes. -/
def MulSubInRange (b q : ℕ) : ℤ → List ℕ → List ℕ → Prop
  | borrow, u :: us, v :: vs =>
    let prod := q * v
    let diff : ℤ := u - (prod % b : ℕ) + borrow
    Unsigned b prod ∧ Signed b (u - (prod % b : ℕ)) ∧ Signed b diff ∧ Signed b (diff / b) ∧
      Signed b (diff / b - (prod / b : ℕ)) ∧ MulSubInRange b q (diff / b - (prod / b : ℕ)) us vs
  | borrow, _, _ => Signed b borrow

/-- The high digit of a product of two digits. -/
theorem mul_div_add_two_le {q v : ℕ} (hb : 2 ≤ b) (hq : q < b) (hv : v < b) : q * v / b + 2 ≤ b := by
  have hlt : q * v / b < b - 1 := by
    rw [Nat.div_lt_iff_lt_mul (by omega)]
    calc q * v ≤ (b - 1) * (b - 1) := Nat.mul_le_mul (by omega) (by omega)
      _ < (b - 1) * b := Nat.mul_lt_mul_of_pos_left (by omega) (by omega)
  omega

/-- The borrow stays between `-b` and zero. -/
theorem borrow_step {q u v : ℕ} {borrow diff : ℤ} (hb : 2 ≤ b) (hq : q < b) (hu : u < b) (hv : v < b)
    (hlo : -(b : ℤ) ≤ borrow) (hhi : borrow ≤ 0) (hdiff : diff = u - (q * v % b : ℕ) + borrow) :
    -(2 * b : ℤ) < diff ∧ diff < b ∧ -2 ≤ diff / b ∧ diff / b ≤ 0 ∧
      -(b : ℤ) ≤ diff / b - (q * v / b : ℕ) ∧ diff / b - (q * v / b : ℕ) ≤ 0 := by
  have hpos : (0 : ℤ) < b := by omega
  have hlow : q * v % b < b := Nat.mod_lt _ (by omega)
  have hhigh := mul_div_add_two_le hb hq hv
  generalize q * v / b = high at hhigh ⊢
  have hdiff_lo : -(2 * b : ℤ) < diff := by omega
  have hdiff_hi : diff < b := by omega
  have hdiv_lo : -2 ≤ diff / b := (Int.le_ediv_iff_mul_le hpos).2 (by omega)
  have hdiv_hi : diff / b < 1 := (Int.ediv_lt_iff_lt_mul hpos).2 (by omega)
  exact ⟨hdiff_lo, hdiff_hi, hdiv_lo, by omega, by omega, by omega⟩

lemma mulSub_inRange {q : ℕ} {borrow : ℤ} {us vs : List ℕ} (hb : 4 ≤ b) (hq : q < b)
    (hu : Digits b us) (hv : Digits b vs) (hlo : -(b : ℤ) ≤ borrow) (hhi : borrow ≤ 0) :
    MulSubInRange b q borrow us vs ∧ -(b : ℤ) ≤ (mulSub b q borrow us vs).2 ∧
      (mulSub b q borrow us vs).2 ≤ 0 := by
  have hborrow : Signed b borrow := signed_of_bounds hb (by omega) (by omega)
  induction us generalizing borrow vs with
  | nil => exact ⟨by simpa only [MulSubInRange] using hborrow, hlo, hhi⟩
  | cons u us ih =>
    cases vs with
    | nil => exact ⟨by simpa only [MulSubInRange] using hborrow, hlo, hhi⟩
    | cons v vs =>
      rw [digits_cons] at hu hv
      have hlow : q * v % b < b := Nat.mod_lt _ (by omega)
      have hdigit := hu.1
      generalize hdiff : (u : ℤ) - (q * v % b : ℕ) + borrow = diff
      obtain ⟨hdlo, hdhi, hqlo, hqhi, hnlo, hnhi⟩ :=
        borrow_step (by omega) hq hu.1 hv.1 hlo hhi hdiff.symm
      have hnext : Signed b (diff / b - (q * v / b : ℕ)) := signed_of_bounds hb (by omega) (by omega)
      obtain ⟨hrest, hrlo, hrhi⟩ := ih hu.2 hv.2 hnlo hnhi hnext
      rw [MulSubInRange, mulSub]
      simp only [hdiff]
      exact ⟨⟨unsigned_mul hq hv.1, signed_of_bounds hb (by omega) (by omega),
        signed_of_bounds hb (by omega) (by omega), signed_of_bounds hb (by omega) (by omega), hnext, hrest⟩,
        hrlo, hrhi⟩

/-- What `addBack` computes. -/
def AddBackInRange (b : ℕ) : ℕ → List ℕ → List ℕ → Prop
  | carry, u :: us, v :: vs =>
    Unsigned b (u + v + carry) ∧ AddBackInRange b ((u + v + carry) / b) us vs
  | carry, _, _ => Unsigned b carry

lemma addBack_inRange {carry : ℕ} {us vs : List ℕ} (hb : 2 ≤ b) (hu : Digits b us) (hv : Digits b vs)
    (hcarry : carry ≤ 1) : AddBackInRange b carry us vs := by
  have hfits : Unsigned b carry := unsigned_of_lt hb (by omega)
  induction us generalizing carry vs with
  | nil => simpa only [AddBackInRange] using hfits
  | cons u us ih =>
    cases vs with
    | nil => simpa only [AddBackInRange] using hfits
    | cons v vs =>
      rw [digits_cons] at hu hv
      have hu_lt := hu.1
      have hv_lt := hv.1
      have hnext : (u + v + carry) / b < 2 := (Nat.div_lt_iff_lt_mul (by omega)).2 (by omega)
      exact ⟨unsigned_of_lt hb (by omega),
        ih hu.2 hv.2 (by omega) (unsigned_of_lt hb (by omega))⟩

/-! ## One digit of the quotient -/

/-- What a step of the division computes from the divisor `vs` and the window `w`, and when it adds the
divisor back: just when the trial digit is one too large. -/
structure StepInRange (b : ℕ) (vs w : List ℕ) : Prop where
  leading : Unsigned b (w.getD vs.length 0 * b + w.getD (vs.length - 1) 0)
  refinement :
    let vTop := vs.getD (vs.length - 1) 0
    let uhat := w.getD vs.length 0 * b + w.getD (vs.length - 1) 0
    RefineInRange b vTop (vs.getD (vs.length - 2) 0) (w.getD (vs.length - 2) 0) (uhat / vTop) (uhat % vTop)
  digit : estimate b vs w < b
  subtraction : MulSubInRange b (estimate b vs w) 0 (w.take vs.length) vs
  top : Signed b (w.getD vs.length 0 + (mulSub b (estimate b vs w) 0 (w.take vs.length) vs).2)
  addition : AddBackInRange b 0 (mulSub b (estimate b vs w) 0 (w.take vs.length) vs).1 vs
  addBack_iff : w.getD vs.length 0 + (mulSub b (estimate b vs w) 0 (w.take vs.length) vs).2 < 0 ↔
    estimate b vs w = ofDigits b w / ofDigits b vs + 1

lemma step_inRange {vs w : List ℕ} (hb : 4 ≤ b) (hv : Digits b vs) (hn : 2 ≤ vs.length)
    (htop : vs.getD (vs.length - 1) 0 ≠ 0) (hw : Digits b w) (hlen : w.length = vs.length + 1)
    (hlt : ofDigits b w < b * ofDigits b vs) : StepInRange b vs w := by
  obtain ⟨hqb, hle, hge⟩ := estimate_spec (by omega) hv hn htop hw hlen hlt
  have hb0 : 0 < b := by omega
  have hleading : Unsigned b (w.getD vs.length 0 * b + w.getD (vs.length - 1) 0) :=
    unsigned_mul_add (hw.getD hb0 _) (hw.getD hb0 _)
  have hwtop := hw.getD hb0 vs.length
  have hvtop := hv.getD hb0 (vs.length - 1)
  obtain ⟨hsub, hlo, hhi⟩ :=
    @mulSub_inRange b (estimate b vs w) 0 _ _ hb hqb (hw.take vs.length) hv (by omega) le_rfl
  have htake : (w.take vs.length).length = vs.length := List.length_take_of_le (by omega)
  obtain ⟨-, hdigits, -⟩ := mulSub_spec (q := estimate b vs w) 0 hb0 htake
  obtain ⟨hright, htoo⟩ := mulSub_top (q := estimate b vs w) (by omega) hv hlen hlt
  refine ⟨hleading, ?_, hqb, hsub, signed_of_bounds hb (by omega) (by omega),
    addBack_inRange (by omega) hdigits hv (by omega), ?_⟩
  · apply refine_inRange (by omega) hvtop (hv.getD hb0 _) (hw.getD hb0 _)
    · exact Nat.lt_of_le_of_lt (Nat.div_le_self _ _) hleading
    · exact Nat.lt_trans (Nat.mod_lt _ (Nat.pos_of_ne_zero htop)) hvtop
  · constructor
    · intro hneg
      by_contra hne
      have := (hright (by omega)).1
      omega
    · intro hlarge
      have := (htoo hlarge).1
      omega

/-! ## All digits -/

/-- The condition for every step of `divLoop`. -/
def DivLoopInRange (b : ℕ) (vs : List ℕ) : ℕ → List ℕ → Prop
  | 0, _ => True
  | j + 1, us =>
    StepInRange b vs (window vs us j) ∧ DivLoopInRange b vs j (nextDividend b vs us j)

lemma divLoop_inRange {vs us : List ℕ} {j : ℕ} (hb : 4 ≤ b) (hv : Digits b vs) (hn : 2 ≤ vs.length)
    (htop : vs.getD (vs.length - 1) 0 ≠ 0) (h : BelowDivisor b vs us j) : DivLoopInRange b vs j us := by
  induction j generalizing us with
  | zero => trivial
  | succ j ih =>
    exact ⟨step_inRange hb hv hn htop h.window_digits h.window_length (h.window_lt (by omega)),
      ih (h.next (by omega) hv hn htop)⟩

/-- Scaled operands are divided within range. -/
theorem Scaled.inRange {half S : ℕ} {as bs un vn : List ℕ} (h : Scaled b half S as bs un vn)
    (hb : 4 ≤ b) : DivLoopInRange b vn (as.length - bs.length + 1) un := by
  have hn := h.two_le
  have hlen := h.divisor_length
  exact divLoop_inRange hb h.divisor_digits (by omega) (h.top_ne_zero (by omega))
    (h.belowDivisor (by omega))

/-! ## Division by one digit -/

/-- What `divDigit` computes. -/
def DivDigitInRange (b d : ℕ) : List ℕ → Prop
  | [] => True
  | x :: xs => Unsigned b ((divDigit b d xs).2 * b + x) ∧ DivDigitInRange b d xs

lemma divDigit_inRange {d : ℕ} {xs : List ℕ} (hd : 0 < d) (hdb : d < b) (hx : Digits b xs) :
    DivDigitInRange b d xs := by
  induction xs with
  | nil => trivial
  | cons x xs ih =>
    rw [digits_cons] at hx
    obtain ⟨-, hrem, -, -⟩ := divDigit_spec hd hx.2
    exact ⟨unsigned_mul_add (by omega) hx.1, ih hx.2⟩

end Radix
