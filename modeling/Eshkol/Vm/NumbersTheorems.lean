import Eshkol.Vm.NumbersSpec

/-!
# When exact arithmetic is exact

For each operator, the operands on which it leaves the mathematical result, or an error.
-/

namespace Vm.Numbers

/-! ## The operators -/

inductive UnaryOp where
  | neg | abs
deriving DecidableEq, Repr

/-- Opcodes, and the natives 36-38 and 32-34 under the names of their closures. -/
inductive BinaryOp where
  | add | sub | mul | div | mod
  | modulo | remainder | quotient | min | max | expt
deriving DecidableEq, Repr

def UnaryOp.run : UnaryOp → Number → Outcome
  | .neg => opNeg
  | .abs => opAbs

def BinaryOp.run : BinaryOp → Number → Number → Outcome
  | .add => opAdd
  | .sub => opSub
  | .mul => opMul
  | .div => opDiv
  | .mod => opMod
  | .modulo => native36
  | .remainder => native37
  | .quotient => native38
  | .min => native33
  | .max => native34
  | .expt => native32

/-! ### What they are for -/

def UnaryOp.result : UnaryOp → ℚ → ℚ
  | .neg, a => -a
  | .abs, a => |a|

/-- The mathematical result. A power is told by its equation, since its exponent may be a fraction:
a root of a number that is not negative is not negative. -/
def BinaryOp.IsResult : BinaryOp → ℚ → ℚ → ℚ → Prop
  | .add, a, b, r => r = a + b
  | .sub, a, b, r => r = a - b
  | .mul, a, b, r => r = a * b
  | .div, a, b, r => r = a / b
  | .mod, a, b, r => r = Numbers.modulo a b
  | .modulo, a, b, r => r = Numbers.modulo a b
  | .remainder, a, b, r => r = Numbers.remainder a b
  | .quotient, a, b, r => r = Numbers.quotient a b
  | .min, a, b, r => r = Min.min a b
  | .max, a, b, r => r = Max.max a b
  | .expt, a, b, r => r ^ b.den = a ^ b.num.toNat ∧ (0 ≤ a → 0 ≤ r)

/-- A quotient is asked for a divisor that is not zero, a power for an exponent that is not
negative. -/
def BinaryOp.Asked : BinaryOp → ℚ → ℚ → Prop
  | .div, _, b => b ≠ 0
  | .expt, _, b => 0 ≤ b
  | _, _, _ => True

def UnaryOp.Right (op : UnaryOp) (a : ExactNumber) : Prop :=
  (op.run a.number).Gives (· = op.result a.value)

def BinaryOp.Right (op : BinaryOp) (a b : ExactNumber) : Prop :=
  op.Asked a.value b.value → (op.run a.number b.number).Gives (op.IsResult a.value b.value)

/-- The five comparisons decide the order. -/
def ComparesRight (a b : ExactNumber) : Prop :=
  ∀ c : CompareOp, compare c a.number b.number = c.on a.value b.value

/-! ### When they do it -/

/-- The operand reaches the natives 331-334 as it is: a rational does, an integer that is a double
does, a bignum does not. -/
def Kept (v : Number) : Prop := rounded v = v.value

def UnaryOp.HoldsWhen (a : Number) : Prop := ¬ a.isRational

/-- With a rational, the other operand has to be kept and the reduced result to fit. -/
def ArithHoldsWhen (f : ℚ → ℚ → ℚ) (a b : Number) : Prop :=
  ¬ a.isRational ∧ ¬ b.isRational ∨ Kept a ∧ Kept b ∧ Fits (f a.value b.value)

/-- An integer divided by a bignum is reported as a division by zero. -/
def DivHoldsWhen (a b : Number) : Prop :=
  b.value = 0 ∨ b.isBignum ∧ ¬ a.isRational ∨
    asNumber a < 2 ^ 63 ∧ asNumber b < 2 ^ 63 ∧ (rounded b).num ≠ int64Min ∧
      rounded a / rounded b = a.value / b.value ∧ Fits (a.value / b.value)

/-- A rational divisor counts as zero, and is reported. -/
def ModHoldsWhen (a b : Number) : Prop :=
  b.isRational ∨ b.value = 0 ∨ ¬ a.isRational ∧ ¬ (a = .int int64Min ∧ b = .int (-1))

/-- Without a bignum, both operands go through doubles. -/
def NativeDivisionHoldsWhen (spec : ℚ → ℚ → ℚ) (a b : Number) : Prop :=
  if eitherBignum a b then b.isRational ∨ spec (coerceBignum a) b.value = spec a.value b.value
  else asNumber a < 2 ^ 63 ∧ asNumber b < 2 ^ 63 ∧
    (asNumber b = 0 ∨ ¬ (asNumber a = int64Min ∧ asNumber b = -1) ∧
      spec (asNumber a) (asNumber b) = spec a.value b.value)

/-- Without a bignum, the result is an integer below `10 ^ 15`, which the doubles do not pass. -/
def ExtremumHoldsWhen (le : ℚ → ℚ → Prop) (a b : Number) : Prop :=
  eitherBignum a b ∨ ∃ i : ℤ, (a = .int i ∨ b = .int i) ∧ |i| < 10 ^ 15 ∧
    le i a.value ∧ le i b.value ∧ le i (asNumberVm a) ∧ le i (asNumberVm b)

def ExptHoldsWhen (a b : Number) : Prop :=
  b.value < 0 ∨ ¬ a.isRational ∧ ∃ e, b = .int e

def BinaryOp.HoldsWhen : BinaryOp → Number → Number → Prop
  | .add => ArithHoldsWhen (· + ·)
  | .sub => ArithHoldsWhen (· - ·)
  | .mul => ArithHoldsWhen (· * ·)
  | .div => DivHoldsWhen
  | .mod => ModHoldsWhen
  | .modulo => NativeDivisionHoldsWhen Numbers.modulo
  | .remainder => NativeDivisionHoldsWhen Numbers.remainder
  | .quotient => NativeDivisionHoldsWhen Numbers.quotient
  | .min => ExtremumHoldsWhen (· ≤ ·)
  | .max => ExtremumHoldsWhen (· ≥ ·)
  | .expt => ExptHoldsWhen

/-- Two integers are compared as they are; otherwise the doubles of the operands have to be ordered
as the operands. -/
def ComparesWhen (a b : Number) : Prop :=
  eitherBignum a b ∨ ((∃ i, a = .int i) ∧ ∃ i, b = .int i) ∨
    cmp (asNumberVm a) (asNumberVm b) = cmp a.value b.value

/-! ## Addition, subtraction, multiplication -/

lemma pushBignumNorm_gives {n : ℤ} {result : ℚ → Prop} :
    (pushBignumNorm n).Gives result ↔ result n := by
  unfold pushBignumNorm
  split_ifs with h
  · exact ⟨fun hr => hr.2, fun hr => ⟨h, hr⟩⟩
  · exact ⟨fun hr => hr.2, fun hr => ⟨h, hr⟩⟩

lemma coerceBignum_eq {v : Number} (h : ¬ v.isRational) : (coerceBignum v : ℚ) = v.value := by
  cases v with
  | int i => rfl
  | bignum n => rfl
  | rational r => simp [Number.isRational] at h

/-- On integers the result is right whatever its size. -/
lemma arith_gives_of_integers {a b : Number} (ha : ¬ a.isRational) (hb : ¬ b.isRational)
    {onInts : ℤ → ℤ → ℤ} {f : ℚ → ℚ → ℚ} {op : BignumOp} {native : Number → Number → Outcome}
    (hop : bignumArith a b op = pushBignumNorm (onInts (coerceBignum a) (coerceBignum b)))
    (hf : ∀ x y : ℤ, (onInts x y : ℚ) = f x y) :
    (arith onInts f op native a b).Gives (· = f a.value b.value) := by
  have hbig : (bignumArith a b op).Gives (· = f a.value b.value) := by
    rw [hop, pushBignumNorm_gives, hf, coerceBignum_eq ha, coerceBignum_eq hb]
  have hrational : ¬ (a.isRational || b.isRational) := by simp [ha, hb]
  unfold arith
  rw [if_neg hrational]
  by_cases h : eitherBignum a b
  · rw [if_pos h]
    exact hbig
  rw [if_neg h]
  cases a with
  | bignum n => simp [eitherBignum, Number.isBignum] at h
  | rational r => simp [Number.isRational] at ha
  | int x =>
    cases b with
    | bignum n => simp [eitherBignum, Number.isBignum] at h
    | rational r => simp [Number.isRational] at hb
    | int y =>
      dsimp only
      split_ifs with hfits
      · exact ⟨hfits, hf x y⟩
      · exact hbig

lemma asNumber_lt_of_kept {v : Number} (hv : v.WellFormed) (h : Kept v) :
    asNumber v < 2 ^ 63 := by
  cases v with
  | int i =>
    have hle := (fitsInt64_iff.1 hv).2
    have hvalue : asNumber (.int i) = i := h
    rw [hvalue]
    exact_mod_cast (by omega : i < 2 ^ 63)
  | bignum n => norm_num [asNumber]
  | rational r => norm_num [asNumber]

lemma kept_of_isRational {v : Number} (h : v.isRational) : Kept v := by
  cases v with
  | rational r => rfl
  | int i => simp [Number.isRational] at h
  | bignum n => simp [Number.isRational] at h

section arith

variable {a b : ExactNumber} {f : ℚ → ℚ → ℚ} {native : Number → Number → Outcome}
  {onInts : ℤ → ℤ → ℤ} {op : BignumOp}
  (hnative : (native a.number b.number).Gives (· = f a.value b.value) ↔
    asNumber a.number < 2 ^ 63 ∧ asNumber b.number < 2 ^ 63 ∧
      Fits (f (rounded a.number) (rounded b.number)) ∧
      f (rounded a.number) (rounded b.number) = f a.value b.value)
  (hleft : a.number.isRational → ∀ y, f a.value y = f a.value b.value → y = b.value)
  (hright : b.number.isRational → ∀ x, f x b.value = f a.value b.value → x = a.value)
include hnative hleft hright

/-- With a rational, whose operation can be undone, the result is right exactly when nothing was
lost before it. -/
lemma arith_gives_of_rational (h : a.number.isRational ∨ b.number.isRational) :
    (arith onInts f op native a.number b.number).Gives (· = f a.value b.value) ↔
      Kept a.number ∧ Kept b.number ∧ Fits (f a.value b.value) := by
  have hrational : (a.number.isRational || b.number.isRational) = true := by simpa using h
  unfold arith
  rw [if_pos hrational, hnative]
  constructor
  · rintro ⟨_, _, hfits, heq⟩
    have hkept : Kept a.number ∧ Kept b.number := by
      rcases h with h | h
      · have ha : rounded a.number = a.value := kept_of_isRational h
        rw [ha] at heq
        exact ⟨ha, hleft h _ heq⟩
      · have hb : rounded b.number = b.value := kept_of_isRational h
        rw [hb] at heq
        exact ⟨hright h _ heq, hb⟩
    rw [heq] at hfits
    exact ⟨hkept.1, hkept.2, hfits⟩
  · rintro ⟨ha, hb, hfits⟩
    have ha' : rounded a.number = a.value := ha
    have hb' : rounded b.number = b.value := hb
    rw [ha', hb']
    exact ⟨asNumber_lt_of_kept a.wellFormed ha, asNumber_lt_of_kept b.wellFormed hb, hfits, rfl⟩

lemma arith_gives_iff
    (hop : ∀ a b, bignumArith a b op = pushBignumNorm (onInts (coerceBignum a) (coerceBignum b)))
    (hf : ∀ x y : ℤ, (onInts x y : ℚ) = f x y) :
    (arith onInts f op native a.number b.number).Gives (· = f a.value b.value) ↔
      ArithHoldsWhen f a.number b.number := by
  by_cases h : a.number.isRational ∨ b.number.isRational
  · rw [arith_gives_of_rational hnative hleft hright h, ArithHoldsWhen]
    have hnot : ¬ (¬ a.number.isRational ∧ ¬ b.number.isRational) := by tauto
    simp only [hnot, false_or]
    rfl
  · push Not at h
    exact iff_of_true (arith_gives_of_integers h.1 h.2 (hop _ _) hf) (Or.inl h)

end arith

lemma value_ne_zero_of_isRational {a : ExactNumber} (h : a.number.isRational) : a.value ≠ 0 := by
  obtain ⟨v, hv⟩ := a
  cases v with
  | rational r => exact VmRational.Normalized.value_ne_zero hv
  | int i => simp [Number.isRational] at h
  | bignum n => simp [Number.isRational] at h

lemma opAdd_gives_iff (a b : ExactNumber) :
    (opAdd a.number b.number).Gives (· = a.value + b.value) ↔
      ArithHoldsWhen (· + ·) a.number b.number :=
  arith_gives_iff (native331_gives_iff a.wellFormed b.wellFormed)
    (fun _ _ h => add_left_cancel h) (fun _ _ h => add_right_cancel h)
    (fun _ _ => rfl) (fun x y => Int.cast_add x y)

lemma opSub_gives_iff (a b : ExactNumber) :
    (opSub a.number b.number).Gives (· = a.value - b.value) ↔
      ArithHoldsWhen (· - ·) a.number b.number :=
  arith_gives_iff (native332_gives_iff a.wellFormed b.wellFormed)
    (fun _ _ h => sub_right_injective h) (fun _ _ h => sub_left_injective h)
    (fun _ _ => rfl) (fun x y => Int.cast_sub x y)

lemma opMul_gives_iff (a b : ExactNumber) :
    (opMul a.number b.number).Gives (· = a.value * b.value) ↔
      ArithHoldsWhen (· * ·) a.number b.number :=
  arith_gives_iff (native333_gives_iff a.wellFormed b.wellFormed)
    (fun ha _ h => mul_left_cancel₀ (value_ne_zero_of_isRational ha) h)
    (fun hb _ h => mul_right_cancel₀ (value_ne_zero_of_isRational hb) h)
    (fun _ _ => rfl) (fun x y => Int.cast_mul x y)

/-! ## Division -/

lemma bignum_ne_zero {n : ℤ} (h : (Number.bignum n).WellFormed) : n ≠ 0 := by
  rintro rfl
  exact h (by decide)

lemma native334_gives_iff_of_ne {a b : ExactNumber} (hb0 : b.value ≠ 0)
    (hbig : ¬ (b.number.isBignum ∧ ¬ a.number.isRational))
    (hzero : rounded b.number = 0 → a.value ≠ 0) :
    (native334 a.number b.number).Gives (· = a.value / b.value) ↔
      DivHoldsWhen a.number b.number := by
  have hne (h : rounded a.number / rounded b.number = a.value / b.value) :
      rounded b.number ≠ 0 := by
    intro hb
    rw [hb, div_zero] at h
    exact div_ne_zero (hzero hb) hb0 h.symm
  rw [native334_gives_iff a.wellFormed b.wellFormed, DivHoldsWhen]
  have hb0' : b.number.value ≠ 0 := hb0
  simp only [hb0', hbig, false_or]
  constructor
  · rintro ⟨hlta, hltb, _, hmin, hfits, heq⟩
    rw [heq] at hfits
    exact ⟨hlta, hltb, hmin, heq, hfits⟩
  · rintro ⟨hlta, hltb, hmin, heq, hfits⟩
    rw [show rounded a.number / rounded b.number = a.value / b.value from heq]
    exact ⟨hlta, hltb, hne heq, hmin, hfits, rfl⟩

lemma opDiv_gives_iff (a b : ExactNumber) (hb0 : b.value ≠ 0) :
    (opDiv a.number b.number).Gives (· = a.value / b.value) ↔ DivHoldsWhen a.number b.number := by
  by_cases h : a.number.isRational ∨ b.number.isRational
  · have hdiv : opDiv a.number b.number = native334 a.number b.number := by
      have hrational : (a.number.isRational || b.number.isRational) = true := by simpa using h
      unfold opDiv
      rw [if_pos hrational]
    rw [hdiv]
    apply native334_gives_iff_of_ne hb0
    · rintro ⟨hbig, ha⟩
      have hb := h.resolve_left ha
      cases hv : b.number <;> simp [hv, Number.isBignum, Number.isRational] at hbig hb
    · intro hzero
      rcases h with ha | hb
      · exact value_ne_zero_of_isRational ha
      · exact absurd ((kept_of_isRational hb).symm.trans hzero) hb0
  · push Not at h
    obtain ⟨x, hx⟩ := a
    obtain ⟨y, hy⟩ := b
    cases y with
    | rational r => simp [Number.isRational] at h
    | bignum n =>
      have hdiv : opDiv x (.bignum n) = .error := by
        cases x with
        | rational r => simp [Number.isRational] at h
        | int i => simp [opDiv, Number.isRational, asNumber]
        | bignum m => simp [opDiv, Number.isRational, asNumber]
      refine iff_of_true ?_ (Or.inr (Or.inl ⟨rfl, h.1⟩))
      dsimp only
      rw [hdiv]
      exact gives_error
    | int j =>
      have hj : j ≠ 0 := by
        rintro rfl
        simp [ExactNumber.value, Number.value] at hb0
      cases x with
      | rational r => simp [Number.isRational] at h
      | int i =>
        have hdiv : opDiv (.int i) (.int j) = native334 (.int i) (.int j) := by
          simp [opDiv, Number.isRational, hj]
        rw [hdiv]
        apply native334_gives_iff_of_ne (a := ⟨.int i, hx⟩) hb0
        · simp [Number.isBignum]
        · intro hzero
          exact absurd (roundDouble_eq_zero.1 hzero) hj
      | bignum m =>
        have hm := bignum_ne_zero hx
        have hquotient : (m : ℚ) / j ≠ 0 :=
          div_ne_zero (by exact_mod_cast hm) (by exact_mod_cast hj)
        refine iff_of_false ?_ ?_
        · -- the bignum counts as zero
          have hround : roundDouble j ≠ 0 := fun h => hj (roundDouble_eq_zero.1 h)
          have hdiv : opDiv (.bignum m) (.int j) = numberVal 0 := by
            simp [opDiv, Number.isRational, asNumber, hround]
          rw [hdiv, numberVal_gives_iff]
          rintro ⟨i, hi, _, hresult⟩
          exact hquotient (hresult.symm.trans hi.symm)
        · rintro (h | ⟨h, _⟩ | ⟨_, _, _, h, _⟩)
          · exact hb0 h
          · simp [Number.isBignum] at h
          · rw [show rounded (.bignum m) = 0 from rfl, zero_div] at h
            exact hquotient h.symm

/-! ## Remainders -/

lemma modulo_rational_ne_zero {r : VmRational} (hr : r.Normalized) (n : ℤ) :
    modulo r.value n ≠ 0 := by
  intro h
  apply hr.value_ne_intCast (n * ⌊r.value / n⌋)
  rw [modulo] at h
  push_cast
  linarith

lemma bignumArith_modulo_gives {a b : Number} {result : ℚ → Prop} (hb : coerceBignum b ≠ 0) :
    (bignumArith a b .modulo).Gives result ↔ result (modulo (coerceBignum a) (coerceBignum b)) := by
  rw [modulo_intCast _ hb, bignumArith, if_neg hb, adjustedRemainder]
  dsimp only
  split_ifs
  · exact pushBignumNorm_gives
  · exact pushBignumNorm_gives

lemma bignumArith_eq_error {a b : Number} (hb : coerceBignum b = 0) {op : BignumOp}
    (hop : op = .modulo ∨ op = .remainder ∨ op = .quotient) : bignumArith a b op = .error := by
  rcases hop with rfl | rfl | rfl <;> simp [bignumArith, hb]

lemma fitsInt64_adjustedRemainder (x : ℤ) {y : ℤ} (hy : y ≠ 0) (hfits : fitsInt64 y) :
    fitsInt64 (adjustedRemainder x y) := by
  have hbounds := adjustedRemainder_bounds x hy
  rw [fitsInt64_iff] at hfits ⊢
  omega

/-- On two machine integers. -/
lemma opMod_int {i j : ℤ} (hj : j ≠ 0) :
    opMod (.int i) (.int j) =
      if i = int64Min ∧ j = -1 then .undefined else .push (.int (adjustedRemainder i j)) := by
  rw [← adjustedRemainder_eq_of_lt i hj]
  simp [opMod, eitherBignum, Number.isBignum, hj]

/-- A rational dividend counts as zero. -/
lemma opMod_rational {r : VmRational} {v : Number} (hv : asNumber v ≠ 0 ∨ coerceBignum v ≠ 0)
    (hrational : ¬ v.isRational) : opMod (.rational r) v = .push (.int 0) := by
  cases v with
  | rational r' => simp [Number.isRational] at hrational
  | bignum n =>
    have hn : n ≠ 0 := by simpa [asNumber, coerceBignum] using hv
    simp [opMod, eitherBignum, Number.isBignum, bignumArith, coerceBignum, hn, pushBignumNorm,
      show fitsInt64 0 by decide]
  | int j =>
    have hj : roundDouble j ≠ 0 := by
      rw [ne_eq, roundDouble_eq_zero]
      simpa [asNumber, coerceBignum, roundDouble_eq_zero] using hv
    have hzero : numberVal 0 = .push (.int 0) := by
      simp [numberVal, castInt64, truncate, show fitsInt64 0 by decide]
    simp [opMod, eitherBignum, Number.isBignum, asNumber, hj, fmod, truncate, hzero]

lemma opMod_gives_iff (a b : ExactNumber) :
    (opMod a.number b.number).Gives (· = modulo a.value b.value) ↔
      ModHoldsWhen a.number b.number := by
  obtain ⟨x, hx⟩ := a
  obtain ⟨y, hy⟩ := b
  rcases eq_or_ne (coerceBignum y) 0 with hzero | hzero
  · -- zero or a rational, which counts as zero
    have hside : y.isRational ∨ y.value = 0 := by
      cases y with
      | rational r => exact Or.inl rfl
      | int j =>
        have hj : j = 0 := hzero
        exact Or.inr (by simp [Number.value, hj])
      | bignum n => exact absurd hzero (bignum_ne_zero hy)
    have hmod : opMod x y = .error := by
      by_cases h : eitherBignum x y
      · unfold opMod
        rw [if_pos h, bignumArith_eq_error hzero (Or.inl rfl)]
      · cases x <;> cases y <;>
          simp_all [opMod, eitherBignum, Number.isBignum, asNumber, coerceBignum]
    refine iff_of_true ?_ (hside.imp_right Or.inl)
    dsimp only
    rw [hmod]
    exact gives_error
  · have hrational : ¬ y.isRational := by
      intro h
      cases y <;> simp_all [Number.isRational, coerceBignum]
    have hvalue : y.value ≠ 0 := by
      rw [← coerceBignum_eq hrational]
      exact_mod_cast hzero
    have hiff : ModHoldsWhen x y ↔
        ¬ x.isRational ∧ ¬ (x = .int int64Min ∧ y = .int (-1)) := by
      simp [ModHoldsWhen, hrational, hvalue]
    have hy' : y.value = coerceBignum y := (coerceBignum_eq hrational).symm
    have hbignum (hx' : ¬ x.isRational) (hbig : eitherBignum x y) :
        (opMod x y).Gives (· = modulo x.value y.value) := by
      unfold opMod
      rw [if_pos hbig, bignumArith_modulo_gives hzero, coerceBignum_eq hx', hy']
    dsimp only [ExactNumber.value]
    rw [hiff]
    cases x with
    | rational r =>
      refine iff_of_false ?_ (by simp [Number.isRational])
      rw [opMod_rational (Or.inr hzero) hrational, gives_push, hy']
      rintro ⟨_, h⟩
      exact modulo_rational_ne_zero hx (coerceBignum y) (by simpa [Number.value] using h.symm)
    | bignum m =>
      refine iff_of_true (hbignum ?_ ?_) ?_ <;>
        simp [Number.isRational, eitherBignum, Number.isBignum]
    | int i =>
      cases y with
      | rational r => exact absurd rfl hrational
      | bignum n =>
        refine iff_of_true (hbignum ?_ ?_) ?_ <;>
          simp [Number.isRational, eitherBignum, Number.isBignum]
      | int j =>
        have hj : j ≠ 0 := hzero
        have hfits := fitsInt64_adjustedRemainder i hj hy
        rw [opMod_int hj]
        split_ifs with h
        · simp [h]
        · refine iff_of_true ⟨hfits, (modulo_intCast i hj).symm⟩ ?_
          simpa [Number.isRational] using h

/-! ### The natives -/

/-- A C operation on two `int64_t`s and the division it stands for. -/
structure DivisionOp (op : BignumOp) (onInts : ℤ → ℤ → ℤ) (spec : ℚ → ℚ → ℚ) : Prop where
  isDivision : op = .modulo ∨ op = .remainder ∨ op = .quotient
  onBignums {a b : Number} {result : ℚ → Prop} (hb : coerceBignum b ≠ 0) :
    (bignumArith a b op).Gives result ↔ result (spec (coerceBignum a) (coerceBignum b))
  onInts_eq (x : ℤ) {y : ℤ} (hy : y ≠ 0) : (onInts x y : ℚ) = spec x y
  fits {x y : ℤ} (hx : fitsInt64 x) (hy : fitsInt64 y) (hy0 : y ≠ 0)
    (hoverflow : ¬ (x = int64Min ∧ y = -1)) : fitsInt64 (onInts x y)

lemma nativeDivision_gives_iff {op : BignumOp} {onInts : ℤ → ℤ → ℤ} {spec : ℚ → ℚ → ℚ}
    (hop : DivisionOp op onInts spec) (a b : ExactNumber) :
    (nativeDivision op onInts a.number b.number).Gives (· = spec a.value b.value) ↔
      NativeDivisionHoldsWhen spec a.number b.number := by
  obtain ⟨x, hx⟩ := a
  obtain ⟨y, hy⟩ := b
  dsimp only [ExactNumber.value]
  unfold nativeDivision NativeDivisionHoldsWhen
  split_ifs with hbig
  · rcases eq_or_ne (coerceBignum y) 0 with hzero | hzero
    · rw [bignumArith_eq_error hzero hop.isDivision]
      refine iff_of_true gives_error ?_
      by_cases hrational : y.isRational
      · exact Or.inl hrational
      · -- the bignum is the dividend
        have hx' : ¬ x.isRational := by
          cases x <;> cases y <;>
            simp_all [eitherBignum, Number.isBignum, Number.isRational, Number.WellFormed,
              coerceBignum]
          exact absurd hy (by decide)
        exact Or.inr (by rw [coerceBignum_eq hx'])
    · have hrational : ¬ y.isRational := by
        intro h
        cases y <;> simp_all [Number.isRational, coerceBignum]
      rw [hop.onBignums hzero, coerceBignum_eq hrational]
      exact (or_iff_right hrational).symm
  · by_cases hltx : asNumber x < 2 ^ 63
    · by_cases hlty : asNumber y < 2 ^ 63
      · obtain ⟨i, hi, hvi, hfi⟩ := castInt64_asNumber hx hltx
        obtain ⟨j, hj, hvj, hfj⟩ := castInt64_asNumber hy hlty
        simp only [hi, hj, hltx, hlty, true_and]
        rw [← hvi, ← hvj]
        norm_cast
        split_ifs with hzero hmin
        · simp [hzero]
        · simp [hmin]
        · rw [gives_push]
          simp only [hzero, hmin, not_false_eq_true, true_and, false_or]
          rw [← hop.onInts_eq i hzero]
          exact and_iff_right (hop.fits hfi hfj hzero hmin)
      · simp [castInt64_asNumber_eq_none hlty, hlty]
    · simp [castInt64_asNumber_eq_none hltx, hltx]

lemma divisionOp_modulo : DivisionOp .modulo
    (fun ia ib => if ia.tmod ib ≠ 0 ∧ (ia.tmod ib < 0) ≠ (ib < 0) then ia.tmod ib + ib
      else ia.tmod ib) modulo where
  isDivision := Or.inl rfl
  onBignums := bignumArith_modulo_gives
  onInts_eq x y hy := by rw [adjustedRemainder_eq_of_lt x hy, modulo_intCast x hy]
  fits {x} _ _ hy hy0 _ := by
    rw [adjustedRemainder_eq_of_lt x hy0]
    exact fitsInt64_adjustedRemainder x hy0 hy

lemma divisionOp_remainder : DivisionOp .remainder Int.tmod remainder where
  isDivision := Or.inr (Or.inl rfl)
  onBignums hb := by
    rw [remainder_intCast, bignumArith, if_neg hb]
    exact pushBignumNorm_gives
  onInts_eq x y _ := (remainder_intCast x y).symm
  fits {x y} _ hy hy0 _ := by
    have hlt := natAbs_tmod_lt x hy0
    rw [fitsInt64_iff] at hy ⊢
    omega

lemma divisionOp_quotient : DivisionOp .quotient Int.tdiv quotient where
  isDivision := Or.inr (Or.inr rfl)
  onBignums hb := by
    rw [quotient_intCast, bignumArith, if_neg hb]
    exact pushBignumNorm_gives
  onInts_eq x y _ := (quotient_intCast x y).symm
  fits {x y} hx hy hy0 hoverflow := by
    have habs : (x.tdiv y).natAbs = x.natAbs / y.natAbs := Int.natAbs_tdiv x y
    rw [fitsInt64_iff] at hx ⊢
    rcases eq_or_ne y (-1) with rfl | hy1
    · rw [Int.tdiv_neg, Int.tdiv_one]
      unfold int64Min at hoverflow
      omega
    rcases eq_or_ne y 1 with rfl | hy2
    · rw [Int.tdiv_one]
      omega
    · have hhalf : x.natAbs / y.natAbs ≤ x.natAbs / 2 := Nat.div_le_div_left (by omega) (by omega)
      omega

/-! ## Comparison -/

lemma cmp_eq_of_lt_iff {α β : Type} [LinearOrder α] [LinearOrder β] {x y : α} {z w : β}
    (hlt : x < y ↔ z < w) (hgt : y < x ↔ w < z) : cmp x y = cmp z w := by
  rcases lt_trichotomy x y with h | h | h
  · rw [cmp_eq_lt_iff _ _ |>.mpr h, cmp_eq_lt_iff _ _ |>.mpr (hlt.1 h)]
  · have hzw : z = w := by
      rcases lt_trichotomy z w with hz | hz | hz
      · exact absurd (hlt.2 hz) (by simp [h])
      · exact hz
      · exact absurd (hgt.2 hz) (by simp [h])
    rw [cmp_eq_eq_iff _ _ |>.mpr h, cmp_eq_eq_iff _ _ |>.mpr hzw]
  · rw [cmp_eq_gt_iff _ _ |>.mpr h, cmp_eq_gt_iff _ _ |>.mpr (hgt.1 h)]

/-- The five comparisons see no more than the order. -/
lemma on_eq_iff {α β : Type} [LinearOrder α] [LinearOrder β] {x y : α} {z w : β} :
    (∀ c : CompareOp, c.on x y = c.on z w) ↔ cmp x y = cmp z w := by
  constructor
  · intro h
    have hlt := h .lt
    have hgt := h .gt
    simp only [CompareOp.on, decide_eq_decide] at hlt hgt
    exact cmp_eq_of_lt_iff hlt hgt
  · intro h c
    have hlt := lt_iff_lt_of_cmp_eq_cmp h
    have hle := le_iff_le_of_cmp_eq_cmp h
    have heq := eq_iff_eq_of_cmp_eq_cmp h
    have hswap := (cmp_eq_cmp_symm).1 h
    have hgt := lt_iff_lt_of_cmp_eq_cmp hswap
    have hge := le_iff_le_of_cmp_eq_cmp hswap
    cases c <;> simp [CompareOp.on, *]

lemma cmp_intCast (x y : ℤ) : cmp (x : ℚ) y = cmp x y :=
  cmp_eq_of_lt_iff Int.cast_lt Int.cast_lt

/-- A rational compares with a bignum as zero does: it is smaller than any bignum. -/
lemma cmp_rational_bignum {r : VmRational} (hr : r.Normalized) {n : ℤ} (hn : ¬ fitsInt64 n) :
    cmp r.value n = cmp 0 n := by
  have habs := abs_lt.1 hr.abs_value_lt
  rw [fitsInt64_iff] at hn
  rcases lt_or_ge n 0 with hneg | hpos
  · have hn' : (n : ℚ) ≤ -2 ^ 63 := by exact_mod_cast (by omega : n ≤ -2 ^ 63)
    rw [(cmp_eq_gt_iff _ _).2 (by linarith), (cmp_eq_gt_iff _ _).2 hneg]
  · have hn' : (2 : ℚ) ^ 63 ≤ n := by exact_mod_cast (by omega : 2 ^ 63 ≤ n)
    rw [(cmp_eq_lt_iff _ _).2 (by linarith), (cmp_eq_lt_iff _ _).2 (by omega)]

lemma cmp_coerceBignum (a b : ExactNumber) (h : eitherBignum a.number b.number) :
    cmp (coerceBignum a.number) (coerceBignum b.number) = cmp a.value b.value := by
  obtain ⟨x, hx⟩ := a
  obtain ⟨y, hy⟩ := b
  dsimp only [ExactNumber.value] at h ⊢
  by_cases hxr : x.isRational
  · cases x with
    | int i => simp [Number.isRational] at hxr
    | bignum n => simp [Number.isRational] at hxr
    | rational r =>
      cases y with
      | int i => simp [eitherBignum, Number.isBignum] at h
      | rational r => simp [eitherBignum, Number.isBignum] at h
      | bignum n => exact (cmp_rational_bignum hx hy).symm
  by_cases hyr : y.isRational
  · cases y with
    | int i => simp [Number.isRational] at hyr
    | bignum n => simp [Number.isRational] at hyr
    | rational r =>
      cases x with
      | int i => simp [eitherBignum, Number.isBignum] at h
      | rational r => simp [eitherBignum, Number.isBignum] at h
      | bignum n => exact cmp_eq_cmp_symm.1 (cmp_rational_bignum hy hx).symm
  · rw [← coerceBignum_eq hxr, ← coerceBignum_eq hyr, cmp_intCast]

lemma cmp_bignumCompareVals (a b : ExactNumber) (h : eitherBignum a.number b.number) :
    cmp (bignumCompareVals a.number b.number) 0 = cmp a.value b.value := by
  rw [← cmp_coerceBignum a b h]
  unfold bignumCompareVals
  dsimp only
  apply cmp_eq_of_lt_iff <;> split_ifs <;> omega

/-- Comparisons, handler by handler. -/
lemma comparesRight_iff (a b : ExactNumber) :
    ComparesRight a b ↔ ComparesWhen a.number b.number := by
  unfold ComparesRight ComparesWhen
  by_cases h : eitherBignum a.number b.number
  · refine iff_of_true (fun c => ?_) (Or.inl h)
    unfold compare
    rw [if_pos h]
    exact on_eq_iff.2 (cmp_bignumCompareVals a b h) c
  · rw [or_iff_right h]
    obtain ⟨x, hx⟩ := a
    obtain ⟨y, hy⟩ := b
    cases x with
    | bignum n => simp [eitherBignum, Number.isBignum] at h
    | rational r =>
      rw [or_iff_right (by simp)]
      cases y with
      | bignum n => simp [eitherBignum, Number.isBignum] at h
      | rational r' => exact on_eq_iff
      | int j => exact on_eq_iff
    | int i =>
      cases y with
      | bignum n => simp [eitherBignum, Number.isBignum] at h
      | rational r =>
        rw [or_iff_right (by simp)]
        exact on_eq_iff
      | int j =>
        refine iff_of_true ?_ (Or.inl ⟨⟨i, rfl⟩, ⟨j, rfl⟩⟩)
        exact on_eq_iff.2 (cmp_intCast i j).symm

/-! ## Minimum and maximum -/

lemma number_eq_int {a : ExactNumber} (hbig : ¬ a.number.isBignum) {i : ℤ} (h : a.value = i) :
    a.number = .int i := by
  obtain ⟨x, hx⟩ := a
  cases x with
  | int j =>
    have hj : j = i := by exact_mod_cast (show (j : ℚ) = i from h)
    exact congrArg Number.int hj
  | bignum n => simp [Number.isBignum] at hbig
  | rational r => exact absurd h (hx.value_ne_intCast i)

/-- Through doubles, the extremum comes out exactly when it is a small integer and both doubles
are on the right side of it. -/
lemma extremum_gives_iff {a b : ExactNumber} (h : ¬ eitherBignum a.number b.number)
    {m : ℚ → ℚ → ℚ} {le : ℚ → ℚ → Prop}
    (hm : ∀ i x y : ℚ, m x y = i ↔ (x = i ∨ y = i) ∧ le i x ∧ le i y) :
    (numberVal (m (asNumberVm a.number) (asNumberVm b.number))).Gives (· = m a.value b.value) ↔
      ExtremumHoldsWhen le a.number b.number := by
  have hbig : ¬ a.number.isBignum ∧ ¬ b.number.isBignum := by
    simpa [eitherBignum] using h
  have hdouble {v : Number} {i : ℤ} (hi : |i| < 10 ^ 15) (hv : v = .int i) :
      asNumberVm v = i ∧ v.value = i := by
    subst hv
    exact ⟨roundDouble_intCast (by omega), rfl⟩
  rw [numberVal_gives_iff, ExtremumHoldsWhen]
  simp only [h, Bool.false_eq_true, false_or]
  refine exists_congr fun i => ?_
  rw [hm, @eq_comm _ (i : ℚ), hm]
  constructor
  · rintro ⟨⟨_, hda, hdb⟩, hi, hor, hla, hlb⟩
    exact ⟨hor.imp (number_eq_int hbig.1) (number_eq_int hbig.2), hi, hla, hlb, hda, hdb⟩
  · rintro ⟨hor, hi, hla, hlb, hda, hdb⟩
    refine ⟨⟨?_, hda, hdb⟩, hi, ?_, hla, hlb⟩
    · exact hor.imp (fun hv => (hdouble hi hv).1) (fun hv => (hdouble hi hv).1)
    · exact hor.imp (fun hv => (hdouble hi hv).2) (fun hv => (hdouble hi hv).2)

lemma native33_gives_iff (a b : ExactNumber) :
    (native33 a.number b.number).Gives (· = min a.value b.value) ↔
      ExtremumHoldsWhen (· ≤ ·) a.number b.number := by
  unfold native33
  by_cases h : eitherBignum a.number b.number
  · rw [if_pos h]
    refine iff_of_true ?_ (Or.inl h)
    have hle := le_iff_le_of_cmp_eq_cmp (cmp_bignumCompareVals a b h)
    split_ifs with hcmp
    · exact ⟨a.wellFormed, (min_eq_left (hle.1 hcmp)).symm⟩
    · exact ⟨b.wellFormed, (min_eq_right (le_of_not_ge fun hab => hcmp (hle.2 hab))).symm⟩
  · rw [if_neg h]
    have hmin (x y : ℚ) : (if x < y then x else y) = min x y := by
      rcases lt_or_ge x y with hxy | hxy
      · rw [if_pos hxy, min_eq_left hxy.le]
      · rw [if_neg (not_lt.2 hxy), min_eq_right hxy]
    rw [hmin]
    refine extremum_gives_iff h fun i x y => ?_
    rw [min_eq_iff]
    constructor
    · rintro (⟨rfl, hle⟩ | ⟨rfl, hle⟩)
      · exact ⟨Or.inl rfl, le_rfl, hle⟩
      · exact ⟨Or.inr rfl, hle, le_rfl⟩
    · rintro ⟨rfl | rfl, hx, hy⟩
      · exact Or.inl ⟨rfl, hy⟩
      · exact Or.inr ⟨rfl, hx⟩

lemma native34_gives_iff (a b : ExactNumber) :
    (native34 a.number b.number).Gives (· = max a.value b.value) ↔
      ExtremumHoldsWhen (· ≥ ·) a.number b.number := by
  unfold native34
  by_cases h : eitherBignum a.number b.number
  · rw [if_pos h]
    refine iff_of_true ?_ (Or.inl h)
    have hge := le_iff_le_of_cmp_eq_cmp (cmp_eq_cmp_symm.1 (cmp_bignumCompareVals a b h))
    split_ifs with hcmp
    · exact ⟨a.wellFormed, (max_eq_left (hge.1 hcmp)).symm⟩
    · exact ⟨b.wellFormed, (max_eq_right (le_of_not_ge fun hab => hcmp (hge.2 hab))).symm⟩
  · rw [if_neg h]
    have hmax (x y : ℚ) : (if x > y then x else y) = max x y := by
      rcases lt_or_ge y x with hxy | hxy
      · rw [if_pos hxy, max_eq_left hxy.le]
      · rw [if_neg (not_lt.2 hxy), max_eq_right hxy]
    rw [hmax]
    refine extremum_gives_iff h fun i x y => ?_
    rw [max_eq_iff]
    constructor
    · rintro (⟨rfl, hle⟩ | ⟨rfl, hle⟩)
      · exact ⟨Or.inl rfl, le_rfl, hle⟩
      · exact ⟨Or.inr rfl, hle, le_rfl⟩
    · rintro ⟨rfl | rfl, hx, hy⟩
      · exact Or.inl ⟨rfl, hy⟩
      · exact Or.inr ⟨rfl, hx⟩

/-! ## Powers -/

lemma native32_gives_iff (a b : ExactNumber) (hb : 0 ≤ b.value) :
    (native32 a.number b.number).Gives (BinaryOp.expt.IsResult a.value b.value) ↔
      ExptHoldsWhen a.number b.number := by
  obtain ⟨x, hx⟩ := a
  obtain ⟨y, hy⟩ := b
  have hb' : ¬ y.value < 0 := not_lt.2 hb
  simp only [ExptHoldsWhen, hb', false_or]
  have hpower (n e : ℤ) (he : 0 ≤ e) :
      (pushBignumNorm (n ^ e.toNat)).Gives (BinaryOp.expt.IsResult n e) := by
    rw [pushBignumNorm_gives]
    refine ⟨by simp, fun hn => ?_⟩
    exact_mod_cast pow_nonneg (by exact_mod_cast hn : 0 ≤ n) e.toNat
  cases y with
  | bignum n => cases x <;> simp [native32]
  | rational r => cases x <;> simp [native32]
  | int e =>
    have he : 0 ≤ e := by exact_mod_cast (show (0 : ℚ) ≤ e from hb)
    cases x with
    | rational r => simp [native32, Number.isRational]
    | int i =>
      have hnative : native32 (.int i) (.int e) = pushBignumNorm (i ^ e.toNat) := if_pos he
      refine iff_of_true ?_ ⟨by simp [Number.isRational], e, rfl⟩
      rw [hnative]
      exact hpower i e he
    | bignum n =>
      have hnative : native32 (.bignum n) (.int e) = pushBignumNorm (n ^ e.toNat) := if_pos he
      refine iff_of_true ?_ ⟨by simp [Number.isRational], e, rfl⟩
      rw [hnative]
      exact hpower n e he

/-! ## Sign changes -/

lemma numberVal_zero : numberVal 0 = .push (.int 0) := by
  simp [numberVal, castInt64, truncate, show fitsInt64 0 by decide]

/-- Below the smallest integer the general path is taken, elsewhere it makes no difference. -/
lemma opNeg_int {i : ℤ} (h : fitsInt64 i) : opNeg (.int i) = pushBignumNorm (-i) := by
  rw [fitsInt64_iff] at h
  simp only [opNeg]
  split_ifs with hmin
  · rfl
  · unfold int64Min at hmin
    rw [pushBignumNorm, if_pos]
    rw [fitsInt64_iff]
    omega

lemma opAbs_int {i : ℤ} (h : fitsInt64 i) : opAbs (.int i) = pushBignumNorm |i| := by
  have hrun : opAbs (.int i) =
      if i = int64Min then pushBignumNorm |i| else .push (.int (if i < 0 then -i else i)) := rfl
  rw [fitsInt64_iff] at h
  rw [hrun]
  split_ifs with hmin hneg
  · rfl
  · unfold int64Min at hmin
    rw [abs_of_neg hneg, pushBignumNorm, if_pos]
    rw [fitsInt64_iff]
    omega
  · rw [abs_of_nonneg (not_lt.1 hneg), pushBignumNorm, if_pos]
    rw [fitsInt64_iff]
    omega

lemma opNeg_gives_iff (a : ExactNumber) :
    (opNeg a.number).Gives (· = -a.value) ↔ UnaryOp.HoldsWhen a.number := by
  obtain ⟨x, hx⟩ := a
  unfold UnaryOp.HoldsWhen
  cases x with
  | bignum n =>
    refine iff_of_true ?_ (by simp [Number.isRational])
    rw [opNeg, pushBignumNorm_gives]
    exact Int.cast_neg n
  | int i =>
    refine iff_of_true ?_ (by simp [Number.isRational])
    rw [opNeg_int hx, pushBignumNorm_gives]
    exact Int.cast_neg i
  | rational r =>
    have hrun : opNeg (.rational r) = .push (.int 0) := by simp [opNeg, asNumber, numberVal_zero]
    refine iff_of_false ?_ (by simp [Number.isRational])
    rw [hrun, gives_push]
    rintro ⟨_, h⟩
    apply hx.value_ne_zero
    simpa [Number.value, ExactNumber.value] using h

lemma opAbs_gives_iff (a : ExactNumber) :
    (opAbs a.number).Gives (· = |a.value|) ↔ UnaryOp.HoldsWhen a.number := by
  obtain ⟨x, hx⟩ := a
  unfold UnaryOp.HoldsWhen
  cases x with
  | bignum n =>
    refine iff_of_true ?_ (by simp [Number.isRational])
    have hrun : opAbs (.bignum n) = pushBignumNorm |n| := rfl
    rw [hrun, pushBignumNorm_gives]
    exact Int.cast_abs
  | int i =>
    refine iff_of_true ?_ (by simp [Number.isRational])
    rw [opAbs_int hx, pushBignumNorm_gives]
    exact Int.cast_abs
  | rational r =>
    have hrun : opAbs (.rational r) = .push (.int 0) := by
      have habs : opAbs (.rational r) = numberVal |(0 : ℚ)| := rfl
      rw [habs, abs_zero, numberVal_zero]
    refine iff_of_false ?_ (by simp [Number.isRational])
    rw [hrun, gives_push]
    rintro ⟨_, h⟩
    apply hx.value_ne_zero
    exact abs_eq_zero.1 (by simpa [Number.value, ExactNumber.value] using h.symm)

lemma unaryRight_iff (op : UnaryOp) (a : ExactNumber) :
    op.Right a ↔ UnaryOp.HoldsWhen a.number := by
  cases op with
  | neg => exact opNeg_gives_iff a
  | abs => exact opAbs_gives_iff a

/-! ## Every operator -/

/-- Binary operators, one by one. -/
lemma binaryRight_iff (op : BinaryOp) (a b : ExactNumber) :
    op.Right a b ↔ op.HoldsWhen a.number b.number := by
  cases op with
  | add => exact (forall_prop_of_true trivial).trans (opAdd_gives_iff a b)
  | sub => exact (forall_prop_of_true trivial).trans (opSub_gives_iff a b)
  | mul => exact (forall_prop_of_true trivial).trans (opMul_gives_iff a b)
  | mod => exact (forall_prop_of_true trivial).trans (opMod_gives_iff a b)
  | modulo => exact (forall_prop_of_true trivial).trans (nativeDivision_gives_iff divisionOp_modulo a b)
  | remainder => exact (forall_prop_of_true trivial).trans (nativeDivision_gives_iff divisionOp_remainder a b)
  | quotient => exact (forall_prop_of_true trivial).trans (nativeDivision_gives_iff divisionOp_quotient a b)
  | min => exact (forall_prop_of_true trivial).trans (native33_gives_iff a b)
  | max => exact (forall_prop_of_true trivial).trans (native34_gives_iff a b)
  | div =>
    by_cases hb : b.value = 0
    · exact iff_of_true (fun h => absurd hb h) (Or.inl hb)
    · exact (forall_prop_of_true hb).trans (opDiv_gives_iff a b hb)
  | expt =>
    by_cases hb : 0 ≤ b.value
    · exact (forall_prop_of_true hb).trans (native32_gives_iff a b hb)
    · exact iff_of_true (fun h => absurd h hb) (Or.inl (not_le.1 hb))

/-- The operators are exact, and compare exactly, on these operands and on no others. -/
theorem exactTower_iff (unary : UnaryOp) (binary : BinaryOp) (a b : ExactNumber) :
    (unary.Right a ↔ UnaryOp.HoldsWhen a.number) ∧
      (binary.Right a b ↔ binary.HoldsWhen a.number b.number) ∧
      (ComparesRight a b ↔ ComparesWhen a.number b.number) :=
  ⟨unaryRight_iff unary a, binaryRight_iff binary a b, comparesRight_iff a b⟩

/-- The negated half comes out as zero. -/
theorem opNeg_half : ¬ ((∀ (op : UnaryOp) (a : ExactNumber), op.Right a) ∧
    (∀ (op : BinaryOp) (a b : ExactNumber), op.Right a b) ∧
    ∀ a b : ExactNumber, ComparesRight a b) := by
  rintro ⟨hunary, _, _⟩
  have h := hunary .neg ⟨.rational ⟨1, 2⟩, by decide⟩
  have hrun : UnaryOp.run .neg (.rational ⟨1, 2⟩) = .push (.int 0) := by
    simp [UnaryOp.run, opNeg, asNumber, numberVal_zero]
  unfold UnaryOp.Right at h
  dsimp only at h
  rw [hrun] at h
  have hvalue := h.2
  norm_num [UnaryOp.result, Number.value, ExactNumber.value, VmRational.value] at hvalue

end Vm.Numbers
