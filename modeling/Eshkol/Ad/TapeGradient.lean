import Eshkol.Ad.Tape
import Eshkol.Base.Rounding
import Mathlib.Data.Nat.Prime.Basic

/-!
# Gradients of exact computations

A computation on exact rational numbers has exact values. But the seed of `tape-gradient` is the flonum
`1.0`, and an operation on a flonum and an exact number makes a flonum, so that the gradients are flonums.
They are the derivatives where no number on the way is rounded.
-/

namespace Ad

open Rounding (roundToBits roundHalfEven lastBit)

/-! ## Doubles -/

/-- What doubles hold, but for the least ones, whose exact denominators are no doubles. -/
def IsDouble (q : ℚ) : Prop := ∃ m e : ℤ, |m| < 2 ^ 53 ∧ -1023 ≤ e ∧ e ≤ 971 ∧ q = m * 2 ^ e

/-- Doubles: a conversion or an operation whose exact result is a double gives that one. -/
class Doubles (δ : Type) where
  /-- The number that a double stands for, unless it is infinite or a NaN. -/
  value : δ → Option ℚ
  ofExact : ℚ → δ
  add : δ → δ → δ
  sub : δ → δ → δ
  mul : δ → δ → δ
  div : δ → δ → δ
  neg : δ → δ
  isZero : δ → Bool
  value_ofExact : ∀ q, IsDouble q → value (ofExact q) = some q
  value_add : ∀ x y a b, value x = some a → value y = some b → IsDouble (a + b) → value (add x y) = some (a + b)
  value_mul : ∀ x y a b, value x = some a → value y = some b → IsDouble (a * b) → value (mul x y) = some (a * b)
  value_div : ∀ x y a b, value x = some a → value y = some b → b ≠ 0 → IsDouble (a / b) →
    value (div x y) = some (a / b)
  value_neg : ∀ x a, value x = some a → value (neg x) = some (-a)
  isZero_eq : ∀ x a, value x = some a → isZero x = decide (a = 0)

lemma isDouble_of_lt {m : ℤ} {k : ℕ} (hm : |m| < 2 ^ 53) (hk : k ≤ 1023) : IsDouble (m / 2 ^ k) := by
  refine ⟨m, -k, hm, by omega, by omega, ?_⟩
  rw [zpow_neg, zpow_natCast, div_eq_mul_inv]

lemma isDouble_of_dvd {q : ℚ} (h : |q.num| < 2 ^ 53 ∧ q.den ∣ 2 ^ 1023) : IsDouble q := by
  obtain ⟨k, hk, hden⟩ := (Nat.dvd_prime_pow Nat.prime_two).1 h.2
  have hdouble := isDouble_of_lt h.1 hk
  rwa [← Nat.cast_ofNat, ← Nat.cast_pow, ← hden, Rat.num_div_den] at hdouble

lemma isDouble_intCast {m : ℤ} (hm : |m| < 2 ^ 53) : IsDouble m := by
  have h := isDouble_of_lt hm (Nat.zero_le 1023)
  rwa [pow_zero, div_one] at h

/-- A double is not rounded. -/
lemma IsDouble.round {q : ℚ} (h : IsDouble q) : roundToBits 52 q = q := by
  obtain ⟨m, e, hm, -, -, rfl⟩ := h
  have htwo : (2 : ℚ) ≠ 0 := by norm_num
  rcases eq_or_ne m 0 with rfl | hm0
  · simp
  · have hpos : (0 : ℚ) < 2 ^ e := zpow_pos (by norm_num) e
    have habs : |(m : ℚ) * 2 ^ e| = |(m : ℚ)| * 2 ^ e := by rw [abs_mul, abs_of_pos hpos]
    have hne : (0 : ℚ) < |(m : ℚ)| := abs_pos.2 (by exact_mod_cast hm0)
    have hlog : Int.log 2 |(m : ℚ) * 2 ^ e| < 53 + e := by
      rw [← Int.lt_zpow_iff_log_lt (by norm_num) (by rw [habs]; exact mul_pos hne hpos), habs]
      push_cast
      rw [zpow_add₀ htwo]
      refine mul_lt_mul_of_pos_right ?_ hpos
      exact_mod_cast hm
    have hbit : lastBit 52 ((m : ℚ) * 2 ^ e) ≤ e := by
      unfold lastBit
      push_cast
      omega
    obtain ⟨n, hn⟩ := Int.eq_ofNat_of_zero_le (sub_nonneg.2 hbit)
    apply Rounding.roundToBits_of_eq (i := m * 2 ^ n)
    push_cast
    rw [mul_assoc, ← zpow_natCast, ← zpow_add₀ htwo]
    congr 2
    omega

/-- Numbers of 53 bits, for computations that keep far from the ends of the range. -/
instance : Doubles ℚ where
  value := some
  ofExact := roundToBits 52
  add x y := roundToBits 52 (x + y)
  sub x y := roundToBits 52 (x - y)
  mul x y := roundToBits 52 (x * y)
  div x y := roundToBits 52 (x / y)
  neg x := -x
  isZero x := x = 0
  value_ofExact q h := congrArg some h.round
  value_add x y a b hx hy h := by
    obtain rfl := Option.some.inj hx
    obtain rfl := Option.some.inj hy
    exact congrArg some h.round
  value_mul x y a b hx hy h := by
    obtain rfl := Option.some.inj hx
    obtain rfl := Option.some.inj hy
    exact congrArg some h.round
  value_div x y a b hx hy _ h := by
    obtain rfl := Option.some.inj hx
    obtain rfl := Option.some.inj hy
    exact congrArg some h.round
  value_neg x a h := by rw [Option.some.inj h]
  isZero_eq x a h := by rw [Option.some.inj h]

/-! ## Exact numbers and flonums -/

/-- A number of the language. -/
inductive Number (δ : Type) where
  | exact (q : ℚ)
  | inexact (x : δ)

namespace Number

variable {δ : Type} [Doubles δ]

/-- The flonum of a number. -/
def toDouble : Number δ → δ
  | exact q => Doubles.ofExact q
  | inexact x => x

/-- An operation, exact on exact numbers only. -/
def binary (f : ℚ → ℚ → ℚ) (d : δ → δ → δ) : Number δ → Number δ → Number δ
  | exact a, exact b => exact (f a b)
  | a, b => inexact (d a.toDouble b.toDouble)

instance : Add (Number δ) := ⟨binary (· + ·) Doubles.add⟩

instance : Sub (Number δ) := ⟨binary (· - ·) Doubles.sub⟩

instance : Mul (Number δ) := ⟨binary (· * ·) Doubles.mul⟩

instance : Div (Number δ) := ⟨binary (· / ·) Doubles.div⟩

instance : Neg (Number δ) where
  neg
    | exact a => exact (-a)
    | inexact x => inexact (Doubles.neg x)

instance : Flonums (Number δ) :=
  ⟨inexact (Doubles.ofExact 0), inexact (Doubles.ofExact 1), inexact (Doubles.ofExact 2)⟩

instance : ZeroTest (Number δ) where
  isZero
    | exact a => a = 0
    | inexact x => Doubles.isZero x

/-- What a number stands for. -/
def value : Number δ → Option ℚ
  | exact q => some q
  | inexact x => Doubles.value x

/-- The value of an exact number. -/
def exactValue : Number δ → ℚ
  | exact q => q
  | inexact _ => 0

/-- Whether a number is a flonum. -/
def isInexact : Number δ → Bool
  | exact _ => false
  | inexact _ => true

/-- A flonum that stands for a number. -/
def Holds (n : Number δ) (q : ℚ) : Prop := n.isInexact = true ∧ n.value = some q

variable {g h : Number δ} {a b : ℚ}

lemma Holds.exists_inexact (hg : g.Holds a) : ∃ x, g = inexact x ∧ Doubles.value x = some a := by
  obtain ⟨hinexact, hvalue⟩ := hg
  cases g with
  | exact q => cases hinexact
  | inexact x => exact ⟨x, rfl, hvalue⟩

lemma Holds.add (hg : g.Holds a) (hh : h.Holds b) (hsum : IsDouble (a + b)) : (g + h).Holds (a + b) := by
  obtain ⟨x, rfl, hx⟩ := hg.exists_inexact
  obtain ⟨y, rfl, hy⟩ := hh.exists_inexact
  exact ⟨rfl, Doubles.value_add x y a b hx hy hsum⟩

lemma Holds.mul_exact (hg : g.Holds a) (hb : IsDouble b) (hprod : IsDouble (a * b)) :
    (g * exact b).Holds (a * b) := by
  obtain ⟨x, rfl, hx⟩ := hg.exists_inexact
  exact ⟨rfl, Doubles.value_mul x _ a b hx (Doubles.value_ofExact b hb) hprod⟩

lemma Holds.div_exact (hg : g.Holds a) (hne : b ≠ 0) (hb : IsDouble b) (hquot : IsDouble (a / b)) :
    (g / exact b).Holds (a / b) := by
  obtain ⟨x, rfl, hx⟩ := hg.exists_inexact
  exact ⟨rfl, Doubles.value_div x _ a b hx (Doubles.value_ofExact b hb) hne hquot⟩

lemma isInexact_add (hg : g.isInexact = true) : (g + h).isInexact = true := by
  cases g with
  | exact q => cases hg
  | inexact x => rfl

lemma Holds.neg (hg : g.Holds a) : (-g).Holds (-a) := by
  obtain ⟨x, rfl, hx⟩ := hg.exists_inexact
  exact ⟨rfl, Doubles.value_neg x a hx⟩

lemma Holds.isZero (hg : g.Holds a) : ZeroTest.isZero g = decide (a = 0) := by
  obtain ⟨x, rfl, hx⟩ := hg.exists_inexact
  exact Doubles.isZero_eq x a hx

lemma holds_flonum {m : ℤ} (hm : |m| < 2 ^ 53) : (inexact (Doubles.ofExact (m : ℚ)) : Number δ).Holds m :=
  ⟨rfl, Doubles.value_ofExact _ (isDouble_intCast hm)⟩

lemma holds_zero : (Flonums.zero : Number δ).Holds 0 := by exact_mod_cast @holds_flonum δ _ 0 (by norm_num)

lemma holds_one : (Flonums.one : Number δ).Holds 1 := by exact_mod_cast @holds_flonum δ _ 1 (by norm_num)

lemma Holds.mul_two (hg : g.Holds a) (hprod : IsDouble (a * 2)) : (g * Flonums.two).Holds (a * 2) := by
  obtain ⟨x, rfl, hx⟩ := hg.exists_inexact
  obtain ⟨-, htwo⟩ := @holds_flonum δ _ 2 (by norm_num)
  exact ⟨rfl, Doubles.value_mul x _ a 2 hx (by exact_mod_cast htwo) hprod⟩

end Number

/-! ## Numbers of the reverse pass -/

namespace Instr

/-- The call on numbers of another kind. -/
def map {K L : Type} (f : K → L) : Instr K → Instr L
  | input v => input (f v)
  | const v => const (f v)
  | add a b => add a b
  | sub a b => sub a b
  | mul a b => mul a b
  | div a b => div a b
  | neg a => neg a
  | square a => square a

/-- The numbers that a closure makes, or converts to flonums. -/
def made (value : ℕ → ℚ) (g : ℚ) : Instr ℚ → List ℚ
  | mul a b => [value b, g * value b, value a, g * value a]
  | div a b =>
    [value b, g / value b, value a, g * value a, value b * value b, g * value a / (value b * value b)]
  | square a => [g * 2, value a, g * 2 * value a]
  | _ => []

end Instr

/-- The sums that `tape-distribute!` makes. -/
def sums {K : Type} [Add K] : List ℕ → List K → (ℕ → K) → List K
  | i :: ins, g :: grads, grad => (grad i + g) :: sums ins grads (Function.update grad i (grad i + g))
  | _, _, _ => []

/-- The numbers that the walk makes at the record of call `k`, which it skips if the adjoint is zero. -/
def stepNumbers (p : List (Instr ℚ)) (value : ℕ → ℚ) (k : ℕ) (grad : ℕ → ℚ) : List ℚ :=
  match p[k]? with
  | some i =>
    if grad k = 0 then [] else i.made value (grad k) ++ sums i.operands (i.backward value (grad k)) grad
  | none => []

/-- The numbers that the walk makes, if none of them is rounded. -/
def passNumbers (p : List (Instr ℚ)) (value : ℕ → ℚ) : ℕ → (ℕ → ℚ) → List ℚ
  | 0, _ => []
  | n + 1, grad => stepNumbers p value n grad ++ passNumbers p value n (passStep p value n grad)

section recorded

variable {δ : Type} [Doubles δ] {p : List (Instr ℚ)} {s : State (Number δ)} {value : ℕ → ℚ}
  {values grads : ℕ → Number δ} {grad : ℕ → ℚ} {i : Instr ℚ} {N n k : ℕ}

lemma Instr.operands_map {K L : Type} (f : K → L) (i : Instr K) : (i.map f).operands = i.operands := by
  cases i <;> rfl

omit [Doubles δ] in
lemma getElem?_map_exact (hi : p[k]? = some i) :
    (p.map (Instr.map (Number.exact (δ := δ))))[k]? = some (i.map .exact) := by
  rw [List.getElem?_map, hi]
  rfl

/-- A call on exact numbers is exact. -/
lemma Instr.eval_exact (h : ∀ o ∈ i.operands, values o = .exact (value o)) :
    (i.map .exact).eval values = .exact (i.eval value) := by
  cases i with
  | input v => rfl
  | const v => rfl
  | neg a =>
    rw [map, eval, h a (by simp [operands])]
    rfl
  | square a =>
    rw [map, eval, h a (by simp [operands])]
    rfl
  | _ a b =>
    rw [map, eval, h a (by simp [operands]), h b (by simp [operands])]
    rfl

lemma Instr.defined_exact (h : ∀ o ∈ i.operands, values o = .exact (value o)) :
    (i.map .exact).Defined values ↔ i.Defined value := by
  cases i with
  | div a b =>
    rw [map, Defined, h b (by simp [operands])]
    rfl
  | _ => exact Iff.rfl

/-- The values of exact computations are exact. -/
lemma Recorded.value_exact (h : Recorded (p.map (.map .exact)) s) (hk : k < s.count) :
    s.value k = .exact (s.value k).exactValue := by
  induction k using Nat.strong_induction_on with
  | h k ih =>
    have hlt : k < p.length := by simpa [h.count] using hk
    have hi := List.getElem?_eq_getElem hlt
    have hoperands := h.operands k _ (getElem?_map_exact hi)
    rw [Instr.operands_map] at hoperands
    have hvalues : ∀ o ∈ p[k].operands, s.value o = .exact (s.value o).exactValue := fun o ho =>
      ih o (hoperands o ho) ((hoperands o ho).trans hk)
    rw [h.value k _ (getElem?_map_exact hi), Instr.eval_exact hvalues]
    rfl

/-- A tape with exact numbers records a computation on rational numbers. -/
lemma Recorded.computes (h : Recorded (p.map (.map .exact)) s) :
    Computes p fun k => (s.value k).exactValue := by
  have hoperands : ∀ (k : ℕ) (i : Instr ℚ), p[k]? = some i → ∀ o ∈ i.operands, o < k := by
    intro k i hi
    have hlt := h.operands k _ (getElem?_map_exact hi)
    rwa [Instr.operands_map] at hlt
  have hexact : ∀ (k : ℕ) (i : Instr ℚ), p[k]? = some i →
      ∀ o ∈ i.operands, s.value o = .exact (s.value o).exactValue := by
    intro k i hi o ho
    have hk : k < s.count := by simpa [h.count] using (List.getElem?_eq_some_iff.1 hi).1
    exact h.value_exact ((hoperands k i hi o ho).trans hk)
  constructor
  · exact hoperands
  · intro k i hi
    exact (Instr.defined_exact (hexact k i hi)).1 (h.defined k _ (getElem?_map_exact hi))
  · intro k i hi
    rw [h.value k _ (getElem?_map_exact hi), Instr.eval_exact (hexact k i hi)]
    rfl

/-! ## The reverse pass in flonums -/

/-- A closure makes what it makes in exact arithmetic, if all of it are doubles. -/
lemma Instr.backward_holds {g : Number δ} {a : ℚ} (hg : g.Holds a)
    (hvalues : ∀ o ∈ i.operands, values o = .exact (value o)) (hdefined : i.Defined value)
    (hmade : ∀ q ∈ i.made value a, IsDouble q) :
    List.Forall₂ Number.Holds ((i.map .exact).backward values g) (i.backward value a) := by
  cases i with
  | input v => exact .nil
  | const v => exact .nil
  | add b c => exact .cons hg (.cons hg .nil)
  | sub b c => exact .cons hg (.cons hg.neg .nil)
  | neg b => exact .cons hg.neg .nil
  | mul b c =>
    rw [map, backward, backward, hvalues b (by simp [operands]), hvalues c (by simp [operands])]
    simp only [made, List.forall_mem_cons] at hmade
    obtain ⟨hc, hgc, hb, hgb, -⟩ := hmade
    exact .cons (hg.mul_exact hc hgc) (.cons (hg.mul_exact hb hgb) .nil)
  | div b c =>
    rw [map, backward, backward, hvalues b (by simp [operands]), hvalues c (by simp [operands])]
    simp only [made, List.forall_mem_cons] at hmade
    obtain ⟨hc, hgc, hb, hgb, hcc, hquot, -⟩ := hmade
    have hne : value c ≠ 0 := of_decide_eq_false hdefined
    exact .cons (hg.div_exact hne hc hgc)
      (.cons ((hg.mul_exact hb hgb).div_exact (mul_ne_zero hne hne) hcc hquot).neg .nil)
  | square b =>
    rw [map, backward, backward, hvalues b (by simp [operands])]
    simp only [made, List.forall_mem_cons] at hmade
    obtain ⟨htwo, hb, hprod, -⟩ := hmade
    exact .cons ((hg.mul_two htwo).mul_exact hb hprod) .nil

/-- What `tape-distribute!` keeps between two runs, if the sums that it makes are as `S` says. -/
lemma tapeDistribute_rel {K L : Type} [Add K] [Add L] {R T : K → L → Prop} {S : L → Prop}
    (hadd : ∀ {g h a b}, R g a → T h b → S (a + b) → R (g + h) (a + b)) {ins : List ℕ} {gs : List K}
    {as : List L} {grads : ℕ → K} {grad : ℕ → L} (has : List.Forall₂ T gs as)
    (hgrads : ∀ k < N, R (grads k) (grad k)) (hsums : ∀ q ∈ sums ins as grad, S q) :
    ∀ k < N, R (tapeDistribute ins gs grads k) (tapeDistribute ins as grad k) := by
  induction ins generalizing gs as grads grad with
  | nil => simpa only [tapeDistribute] using hgrads
  | cons o ins ih =>
    cases has with
    | nil => simpa only [tapeDistribute] using hgrads
    | cons hg has =>
      rw [sums, List.forall_mem_cons] at hsums
      rw [tapeDistribute, tapeDistribute]
      refine ih has (fun k hk => ?_) hsums.2
      rcases eq_or_ne k o with rfl | hne
      · rw [Function.update_self, Function.update_self]
        exact hadd (hgrads k hk) hg hsums.1
      · rw [Function.update_of_ne hne, Function.update_of_ne hne]
        exact hgrads k hk

lemma passStep_holds (hp : Computes p value) (hvalues : ∀ k < p.length, values k = .exact (value k))
    (hn : n < p.length) (hgrads : ∀ k < p.length, (grads k).Holds (grad k))
    (hnumbers : ∀ q ∈ stepNumbers p value n grad, IsDouble q) :
    ∀ k < p.length, (passStep (p.map (.map .exact)) values n grads k).Holds (passStep p value n grad k) := by
  have hi := List.getElem?_eq_getElem hn
  have hlt : ∀ o ∈ p[n].operands, o < p.length := fun o ho => (hp.operands n _ hi o ho).trans hn
  rw [stepNumbers, hi] at hnumbers
  rw [passStep, passStep, getElem?_map_exact hi, hi]
  simp only [backwardStep, (hgrads n hn).isZero, Instr.operands_map]
  by_cases hzero : grad n = 0
  · simpa [hzero, ZeroTest.isZero] using hgrads
  · simp only [if_neg hzero, List.forall_mem_append] at hnumbers
    simp only [ZeroTest.isZero, hzero, decide_false, Bool.not_false, if_true]
    refine tapeDistribute_rel Number.Holds.add ?_ hgrads hnumbers.2
    exact Instr.backward_holds (hgrads n hn) (fun o ho => hvalues o (hlt o ho)) (hp.defined n _ hi) hnumbers.1

/-- The walk makes what it makes in exact arithmetic, if all of it are doubles. -/
lemma passDown_holds (hp : Computes p value) (hvalues : ∀ k < p.length, values k = .exact (value k))
    (hn : n ≤ p.length) (hgrads : ∀ k < p.length, (grads k).Holds (grad k))
    (hnumbers : ∀ q ∈ passNumbers p value n grad, IsDouble q) :
    ∀ k < p.length, (passDown (p.map (.map .exact)) values n grads k).Holds (passDown p value n grad k) := by
  induction n generalizing grads grad with
  | zero => exact hgrads
  | succ n ih =>
    rw [passNumbers, List.forall_mem_append] at hnumbers
    exact ih (Nat.le_of_succ_le hn) (passStep_holds hp hvalues hn hgrads hnumbers.1) hnumbers.2

/-- Adjoints are flonums, and depend on the adjoints of the nodes made so far only. -/
lemma passDown_agrees {p : List (Instr (Number δ))} {grads' : ℕ → Number δ}
    (hgrads : ∀ k < N, grads k = grads' k ∧ (grads k).isInexact = true) (hn : n ≤ N) :
    ∀ k < N, passDown p values n grads k = passDown p values n grads' k ∧
      (passDown p values n grads k).isInexact = true := by
  induction n generalizing grads grads' with
  | zero => exact hgrads
  | succ n ih =>
    refine ih ?_ (Nat.le_of_succ_le hn)
    rw [passStep, passStep]
    cases p[n]? with
    | none => exact hgrads
    | some i =>
      simp only [backwardStep, (hgrads n hn).1]
      split_ifs
      · refine tapeDistribute_rel (R := fun (g a : Number δ) => g = a ∧ g.isInexact = true) (T := Eq)
          (S := fun _ => True) ?_ (List.forall₂_same.2 fun g _ => rfl) hgrads fun q _ => trivial
        rintro g h a b ⟨rfl, hg⟩ rfl -
        exact ⟨rfl, Number.isInexact_add hg⟩
      · exact hgrads

/-- The adjoints before the walk. -/
lemma Recorded.seed_holds {p : List (Instr (Number δ))} (h : Recorded p s) (output : ℕ) :
    ∀ k < s.count, (Function.update (tapeZeroGrads s).grad output Flonums.one k).Holds
      (Function.update (fun _ => (0 : ℚ)) output 1 k) := by
  intro k hk
  rcases eq_or_ne k output with rfl | hne
  · rw [Function.update_self, Function.update_self]
    exact Number.holds_one
  · rw [Function.update_of_ne hne, Function.update_of_ne hne, h.zeroGrads hk]
    exact Number.holds_zero

lemma Records.recordExact (h : Records (p.map (.map .exact)) s) (i : Instr ℚ)
    (hoperands : ∀ o ∈ i.operands, o < s.count) (hdefined : (i.map .exact).Defined s.value) :
    Records ((p ++ [i]).map (.map .exact)) ((i.map .exact).run s).1 := by
  rw [List.map_append]
  exact h.record _ (by rwa [Instr.operands_map]) hdefined

/-- The gradients of an exact computation are flonums. They are the exact derivatives if every number that
the reverse pass makes or converts is a double. -/
theorem tape_gradient {output : ℕ} {targets : List ℕ} (hrecords : Records (p.map (.map .exact)) s)
    (houtput : output < s.count) (htargets : ∀ t ∈ targets, t < s.count) :
    (∀ t, ∀ k < s.count, s.value k = .exact (replay p t (s.value t).exactValue k)) ∧
    (∀ g ∈ (tapeGradient s output targets).1, g.isInexact = true) ∧
    ((∀ q ∈ passNumbers p (fun k => (s.value k).exactValue) p.length (Function.update (fun _ => 0) output 1),
        IsDouble q) →
      List.Forall₂ (fun t g => ∃ d, g.value = some d ∧
          HasDerivAt (fun x => replay p t x output) d (s.value t).exactValue)
        targets (tapeGradient s output targets).1) ∧
    ∀ output' targets', (tapeGradient (tapeGradient s output' targets').2 output targets).1 =
      (tapeGradient s output targets).1 := by
  have h := hrecords.recorded
  have hcount : s.count = p.length := by rw [h.count, List.length_map]
  have hseed := h.seed_holds output
  refine ⟨fun t k hk => ?_, ?_, fun hnumbers => ?_, fun output' targets' => ?_⟩
  · rw [h.computes.replay_value t (hcount ▸ hk)]
    exact h.value_exact hk
  · rw [h.tapeGradient_eq, List.forall_mem_map]
    exact fun t ht => (passDown_agrees (fun k hk => ⟨rfl, (hseed k hk).1⟩) le_rfl t (htargets t ht)).2
  · rw [h.tapeGradient_eq, List.forall₂_map_right_iff, List.forall₂_same]
    intro t ht
    have hlt := htargets t ht
    rw [hcount] at houtput hseed hlt ⊢
    refine ⟨_, ?_, h.computes.hasDerivAt houtput hlt⟩
    have hvalues : ∀ k < p.length, s.value k = .exact (s.value k).exactValue := fun k hk =>
      h.value_exact (hcount ▸ hk)
    exact (passDown_holds h.computes hvalues le_rfl hseed hnumbers t hlt).2
  · -- a call leaves the values, and the next one starts from the same adjoints
    have hagain := h.gradient output' targets'
    rw [hagain.tapeGradient_eq, h.tapeGradient_eq]
    refine List.map_congr_left fun t ht => ?_
    refine (passDown_agrees (fun k hk => ?_) le_rfl t (htargets t ht)).1
    refine ⟨?_, (hagain.seed_holds output k hk).1⟩
    rcases eq_or_ne k output with rfl | hne
    · rw [Function.update_self, Function.update_self]
    · rw [Function.update_of_ne hne, Function.update_of_ne hne, hagain.zeroGrads hk, h.zeroGrads hk]

end recorded

/-- The derivative of the square at a third is two thirds, and no flonum. -/
theorem tape_gradient_third : ∃ s : State (Number ℚ),
    Records ([.input (1 / 3), .mul 0 0].map (.map .exact)) s ∧
      ¬ List.Forall₂ (fun t g => ∃ d, g.value = some d ∧
          HasDerivAt (fun x => replay [.input (1 / 3), .mul 0 0] t x 1) d (s.value t).exactValue)
        [0] (tapeGradient s 1 [0]).1 := by
  have h₀ : Records (([] : List (Instr ℚ)).map (.map .exact)) (makeTape (K := Number ℚ)) := .make
  have h₁ := h₀.recordExact (.input (1 / 3)) (by simp [Instr.operands]) trivial
  have h₂ := h₁.recordExact (.mul 0 0) (by decide) trivial
  refine ⟨_, h₂, fun h => ?_⟩
  obtain ⟨⟨d, hd, hderiv⟩, -⟩ := List.forall₂_cons.1 h
  have hvalue : some (6004799503160661 / 9007199254740992) = some d := by
    rw [← hd]
    decide +kernel
  have hreplay : (fun x : ℚ => replay [.input (1 / 3), .mul 0 0] 0 x 1) = fun x => x * x := by
    funext x
    simp [replay, Instr.eval]
  change HasDerivAt _ d (1 / 3) at hderiv
  rw [hreplay] at hderiv
  have hunique := hderiv.unique ((hasDerivAt_id _).mul (hasDerivAt_id _))
  rw [← Option.some.inj hvalue] at hunique
  norm_num at hunique

/-- A square of a sum, with an output before the last node. -/
theorem tape_gradient_square : ∃ s : State (Number ℚ),
    Records ([.input 3, .input (1 / 2), .mul 0 1, .add 2 0, .square 3, .div 3 1].map (.map .exact)) s ∧
      List.Forall₂ (fun t g => ∃ d, g.value = some d ∧
          HasDerivAt (fun x => replay [.input 3, .input (1 / 2), .mul 0 1, .add 2 0, .square 3, .div 3 1] t x 4) d
            (s.value t).exactValue)
        [0, 1] (tapeGradient s 4 [0, 1]).1 := by
  have h₀ : Records (([] : List (Instr ℚ)).map (.map .exact)) (makeTape (K := Number ℚ)) := .make
  have h₁ := h₀.recordExact (.input 3) (by simp [Instr.operands]) trivial
  have h₂ := h₁.recordExact (.input (1 / 2)) (by simp [Instr.operands]) trivial
  have h₃ := h₂.recordExact (.mul 0 1) (by decide) trivial
  have h₄ := h₃.recordExact (.add 2 0) (by decide) trivial
  have h₅ := h₄.recordExact (.square 3) (by decide) trivial
  have h₆ := h₅.recordExact (.div 3 1) (by decide) (show ZeroTest.isZero (_ : Number ℚ) = false by decide +kernel)
  refine ⟨_, h₆, (tape_gradient h₆ (by simp [Instr.run_count]) (by simp [Instr.run_count])).2.2.1 fun q hq => ?_⟩
  exact isDouble_of_dvd ((show ∀ r : ℚ, r ∈ _ → |r.num| < 2 ^ 53 ∧ r.den ∣ 2 ^ 1023 by decide +kernel) q hq)

end Ad
