import Eshkol.Scheme.Primitives
import Mathlib.Analysis.SpecialFunctions.Log.Basic
import Mathlib.Tactic.Positivity

/-!
# Interval arithmetic with outward padding

Endpoints are computed with rounded arithmetic and then moved outward by a pad that is relative to
their magnitude. A value is enclosed when an approximation of it lies between the computed
endpoints, as long as the error of the approximation is below that of the pad.
-/

namespace Ad

open Scheme

/-- A pair `(lo . hi)`. -/
abbrev Interval (K : Type) := K × K

variable {K : Type} [LinearOrder K]

/-- `iv-max2`. -/
def ivMax2 (a b : K) : K := if a ≥ b then a else b

/-- `iv-max4`. -/
def ivMax4 (a b c d : K) : K := ivMax2 (ivMax2 a b) (ivMax2 c d)

/-- `iv-min2`. -/
def ivMin2 (a b : K) : K := if a ≤ b then a else b

/-- `iv-min4`. -/
def ivMin4 (a b c d : K) : K := ivMin2 (ivMin2 a b) (ivMin2 c d)

/-- The set that an interval denotes. -/
def Mem (x : K) (a : Interval K) : Prop := a.1 ≤ x ∧ x ≤ a.2

lemma ivMax2_eq (a b : K) : ivMax2 a b = max a b := by
  unfold ivMax2
  split
  · rw [max_eq_left ‹_›]
  · rw [max_eq_right (le_of_not_ge ‹_›)]

lemma ivMin2_eq (a b : K) : ivMin2 a b = min a b := by
  unfold ivMin2
  split
  · rw [min_eq_left ‹_›]
  · rw [min_eq_right (le_of_not_ge ‹_›)]

lemma Mem.uIcc {x : K} {a : Interval K} (hx : Mem x a) : x ∈ Set.uIcc a.1 a.2 := Set.mem_uIcc.2 (.inl hx)

variable [Field K]

/-- `iv-eps`. -/
def ivEps : K := 1 / (2 ^ 52 : ℕ)

/-- `iv-rel-pad`. -/
def ivRelPad : K := 8 * ivEps

/-- `iv-trans-pad`. -/
def ivTransPad : K := 32 * ivEps

/-- `iv-abs-pad`. -/
def ivAbsPad : K := 1 / 10 ^ 300

/-- `iv-abs`. -/
def ivAbs (x : K) : K := if x < 0 then -x else x

section operations

variable (rnd : K → K)

/-- The loop of `iv-int-pow`. -/
def ivIntPowLoop (base : K) : ℕ → K → K
  | 0, acc => acc
  | e + 1, acc => ivIntPowLoop base e (rnd (acc * base))

/-- `iv-int-pow`. -/
def ivIntPow (base : K) (e : ℕ) : K := ivIntPowLoop rnd base e 1

/-- `iv-widen-by`. -/
def ivWidenBy (lo hi rel : K) : Interval K :=
  let mag := ivMax2 (ivAbs lo) (ivAbs hi)
  let pad := ivMax2 (rnd (rel * mag)) ivAbsPad
  (rnd (lo - pad), rnd (hi + pad))

/-- `iv-make`. -/
def ivMake (lo hi : K) : Interval K := ivWidenBy rnd lo hi ivRelPad

/-- `iv-make-trans`. -/
def ivMakeTrans (lo hi : K) : Interval K := ivWidenBy rnd lo hi ivTransPad

/-- `interval-add`. -/
def intervalAdd (a b : Interval K) : Interval K :=
  ivMake rnd (rnd (a.1 + b.1)) (rnd (a.2 + b.2))

/-- `interval-sub`. -/
def intervalSub (a b : Interval K) : Interval K :=
  ivMake rnd (rnd (a.1 - b.2)) (rnd (a.2 - b.1))

/-- `interval-neg`, which is exact. -/
def intervalNeg (a : Interval K) : Interval K := (-a.2, -a.1)

/-- `interval-mul`. -/
def intervalMul (a b : Interval K) : Interval K :=
  let al := a.1
  let ah := a.2
  let bl := b.1
  let bh := b.2
  ivMake rnd (ivMin4 (rnd (al * bl)) (rnd (al * bh)) (rnd (ah * bl)) (rnd (ah * bh)))
    (ivMax4 (rnd (al * bl)) (rnd (al * bh)) (rnd (ah * bl)) (rnd (ah * bh)))

/-- `interval-div`. -/
def intervalDiv (a b : Interval K) : Except SchemeError (Interval K) :=
  let bl := b.1
  let bh := b.2
  if bl ≤ 0 ∧ bh ≥ 0 then raise "interval-div: denominator interval contains zero" []
  else
    let al := a.1
    let ah := a.2
    .ok <| ivMake rnd (ivMin4 (rnd (al / bl)) (rnd (al / bh)) (rnd (ah / bl)) (rnd (ah / bh)))
      (ivMax4 (rnd (al / bl)) (rnd (al / bh)) (rnd (ah / bl)) (rnd (ah / bh)))

/-- `interval-pow`. -/
def intervalPow (a : Interval K) (n : ℕ) : Interval K :=
  let lo := a.1
  let hi := a.2
  if n ≤ 0 then (1, 1)
  else if n % 2 = 1 then ivMake rnd (ivIntPow rnd lo n) (ivIntPow rnd hi n)
  else if lo ≤ 0 ∧ hi ≥ 0 then
    ivMake rnd 0 (ivMax2 (ivIntPow rnd (ivAbs lo) n) (ivIntPow rnd (ivAbs hi) n))
  else
    let pa := ivIntPow rnd (ivAbs lo) n
    let pb := ivIntPow rnd (ivAbs hi) n
    ivMake rnd (ivMin2 pa pb) (ivMax2 pa pb)

/-- `interval-exp`, where `exp` is that of the C library. -/
def intervalExp (exp : K → K) (a : Interval K) : Interval K :=
  ivMakeTrans rnd (exp a.1) (exp a.2)

/-- `interval-log`, where `log` is that of the C library. -/
def intervalLog (log : K → K) (a : Interval K) : Except SchemeError (Interval K) :=
  if a.1 ≤ 0 then raise "interval-log: argument interval reaches <= 0 (outside domain)" []
  else .ok (ivMakeTrans rnd (log a.1) (log a.2))

end operations

/-! ## What the operations enclose -/

/-- Rounding with a relative error of half a unit in the last place. -/
structure Rounds (rnd : K → K) : Prop where
  abs_sub_le : ∀ z, |rnd z - z| ≤ 1 / 2 ^ 53 * |z|

/-- The computed `r` is the exact `s` up to a factor between `l` and `h`. -/
def Within (l h r s : K) : Prop := ∃ θ, l ≤ θ ∧ θ ≤ h ∧ r = θ * s

/-- The factors after `m` roundings. -/
structure WithinRoundings (m : ℕ) (r s : K) : Prop where
  within : Within ((1 - 1 / 2 ^ 53) ^ m) ((1 + 1 / 2 ^ 53) ^ m) r s

/-- A relative pad that makes up for the factors `l` and `h`, also when it is rounded itself. -/
structure Covers (rel l h : K) : Prop where
  rel_nonneg : 0 ≤ rel
  rel_le : (1 - 1 / 2 ^ 53) * rel ≤ 1
  factor_nonneg : 0 ≤ l
  above : (1 + 1 / 2 ^ 53) * (1 - (1 - 1 / 2 ^ 53) * rel) * h ≤ 1
  below : 1 ≤ (1 - 1 / 2 ^ 53) * (1 + (1 - 1 / 2 ^ 53) * rel) * l

/-- Each algebraic operation on intervals encloses what it does to their members. -/
def Encloses (rnd : K → K) (n : ℕ) : Prop :=
  ∀ (a b : Interval K) (x y : K), Mem x a → Mem y b →
    Mem (x + y) (intervalAdd rnd a b) ∧ Mem (x - y) (intervalSub rnd a b) ∧
      Mem (-x) (intervalNeg a) ∧ Mem (x * y) (intervalMul rnd a b) ∧
      (¬Mem 0 b → ∃ c, intervalDiv rnd a b = .ok c ∧ Mem (x / y) c) ∧
      Mem (x ^ n) (intervalPow rnd a n)

variable {rnd : K → K} {a b : Interval K} {x y lo hi r s l h rel z : K}

lemma withinRoundings_zero (s : K) : WithinRoundings 0 s s :=
  ⟨1, by simp, by simp, (one_mul s).symm⟩

lemma WithinRoundings.mul {m : ℕ} (hw : WithinRoundings m r s) (y : K) :
    WithinRoundings m (r * y) (s * y) := by
  obtain ⟨θ, hl, hh, rfl⟩ := hw
  exact ⟨θ, hl, hh, by ring⟩

lemma corner_bounds (f : K → K) {p q p' q' c d : K} (hc : c = p ∨ c = q) (hd : d = p' ∨ d = q') :
    ivMin4 (f (p * p')) (f (p * q')) (f (q * p')) (f (q * q')) ≤ f (c * d) ∧
      f (c * d) ≤ ivMax4 (f (p * p')) (f (p * q')) (f (q * p')) (f (q * q')) := by
  simp only [ivMin4, ivMax4, ivMin2_eq, ivMax2_eq]
  rcases hc with rfl | rfl <;> rcases hd with rfl | rfl <;> simp

variable [IsStrictOrderedRing K]

lemma ivAbs_eq (x : K) : ivAbs x = |x| := by
  unfold ivAbs
  split
  · rw [abs_of_neg ‹_›]
  · rw [abs_of_nonneg (not_lt.1 ‹_›)]

/-! ## Rounding -/

lemma Rounds.le (hr : Rounds rnd) (z : K) : rnd z ≤ z + 1 / 2 ^ 53 * |z| := by
  have := (abs_le.1 (hr.abs_sub_le z)).2
  linarith

lemma Rounds.ge (hr : Rounds rnd) (z : K) : z - 1 / 2 ^ 53 * |z| ≤ rnd z := by
  have := (abs_le.1 (hr.abs_sub_le z)).1
  linarith

/-- A rounding multiplies by a factor next to one. -/
lemma Rounds.exists_factor (hr : Rounds rnd) (z : K) :
    ∃ θ, 1 - 1 / 2 ^ 53 ≤ θ ∧ θ ≤ 1 + 1 / 2 ^ 53 ∧ rnd z = θ * z := by
  rcases eq_or_ne z 0 with rfl | hz
  · have h0 := hr.abs_sub_le 0
    rw [abs_zero, mul_zero, sub_zero, abs_nonpos_iff] at h0
    exact ⟨1, by norm_num, by norm_num, by rw [h0, mul_zero]⟩
  · have habs : |rnd z / z - 1| ≤ 1 / 2 ^ 53 := by
      rw [div_sub_one hz, abs_div, div_le_iff₀ (abs_pos.2 hz)]
      exact hr.abs_sub_le z
    have hle := abs_le.1 habs
    exact ⟨rnd z / z, by linarith, by linarith, (div_mul_cancel₀ _ hz).symm⟩

lemma WithinRoundings.round {m : ℕ} (hw : WithinRoundings m r s) (hr : Rounds rnd) :
    WithinRoundings (m + 1) (rnd r) s := by
  obtain ⟨θ, hl, hh, rfl⟩ := hw
  obtain ⟨η, hl', hh', heq⟩ := hr.exists_factor (θ * s)
  have hθ : 0 ≤ θ := (pow_nonneg (by norm_num) m).trans hl
  have hη : 0 ≤ η := le_trans (by norm_num) hl'
  refine ⟨η * θ, ?_, ?_, by rw [heq, mul_assoc]⟩
  · rw [pow_succ']
    exact mul_le_mul hl' hl (pow_nonneg (by norm_num) m) hη
  · rw [pow_succ']
    exact mul_le_mul hh' hh hθ (by positivity)

lemma WithinRoundings.nonneg {m : ℕ} (hw : WithinRoundings m r s) (hs : 0 ≤ s) : 0 ≤ r := by
  obtain ⟨θ, hl, -, rfl⟩ := hw
  exact mul_nonneg ((pow_nonneg (by norm_num) m).trans hl) hs

lemma WithinRoundings.mono {m k : ℕ} (hw : WithinRoundings m r s) (hmk : m ≤ k) :
    WithinRoundings k r s := by
  obtain ⟨θ, hl, hh, rfl⟩ := hw
  exact ⟨θ, le_trans (pow_le_pow_of_le_one (by norm_num) (by norm_num) hmk) hl,
    hh.trans (pow_le_pow_right₀ (by norm_num) hmk), rfl⟩

lemma Rounds.once (hr : Rounds rnd) (s : K) : WithinRoundings 14 (rnd s) s :=
  ((withinRoundings_zero s).round hr).mono (by norm_num)

lemma withinRoundings_ivIntPowLoop (hr : Rounds rnd) (base : K) (e : ℕ) :
    ∀ {m : ℕ} {acc s : K}, WithinRoundings m acc s →
      WithinRoundings (m + e) (ivIntPowLoop rnd base e acc) (s * base ^ e) := by
  induction e with
  | zero => intro m acc s hw; simpa [ivIntPowLoop] using hw
  | succ e ih =>
    intro m acc s hw
    have hstep := ih ((hw.mul base).round hr)
    rw [ivIntPowLoop, pow_succ', ← mul_assoc, show m + (e + 1) = m + 1 + e by omega]
    exact hstep

/-- The loop rounds once for each factor. -/
lemma withinRoundings_ivIntPow (hr : Rounds rnd) (base : K) (e : ℕ) :
    WithinRoundings e (ivIntPow rnd base e) (base ^ e) := by
  have hloop := withinRoundings_ivIntPowLoop hr base e (withinRoundings_zero 1)
  rwa [Nat.zero_add, one_mul] at hloop

/-! ## The pad -/

/-- The pad is at least the relative pad of anything no larger than the endpoints. -/
lemma Rounds.le_pad (hr : Rounds rnd) (hrel : 0 ≤ rel) (habs : |r| ≤ max |lo| |hi|) :
    (1 - 1 / 2 ^ 53) * rel * |r| ≤ ivMax2 (rnd (rel * ivMax2 (ivAbs lo) (ivAbs hi))) ivAbsPad := by
  rw [ivMax2_eq, ivMax2_eq, ivAbs_eq, ivAbs_eq]
  refine le_max_of_le_left (le_trans ?_ (hr.ge _))
  rw [abs_of_nonneg (mul_nonneg hrel (le_max_of_le_left (abs_nonneg lo)))]
  have hmul : rel * |r| ≤ rel * max |lo| |hi| := mul_le_mul_of_nonneg_left habs hrel
  linarith [mul_le_mul_of_nonneg_left hmul (show (0 : K) ≤ 1 - 1 / 2 ^ 53 by norm_num)]

/-- A value that is padded downward and then rounded stays below what it approximates. -/
lemma Covers.round_le (hc : Covers rel l h) (hr : Rounds rnd) (hw : Within l h r s)
    (hz : z ≤ r - (1 - 1 / 2 ^ 53) * rel * |r|) : rnd z ≤ s := by
  obtain ⟨θ, hl, hh, rfl⟩ := hw
  have hround := hr.le z
  have hθ : 0 ≤ θ := hc.factor_nonneg.trans hl
  rcases le_total 0 s with hs | hs
  · rw [abs_of_nonneg (mul_nonneg hθ hs)] at hz
    rcases le_total z 0 with hneg | hpos
    · rw [abs_of_nonpos hneg] at hround
      linarith
    · -- a positive value grows by its last place, which the pad makes up for
      rw [abs_of_nonneg hpos] at hround
      have hshrink : 0 ≤ (1 + 1 / 2 ^ 53) * (1 - (1 - 1 / 2 ^ 53) * rel) :=
        mul_nonneg (by norm_num) (by linarith [hc.rel_le])
      calc rnd z ≤ (1 + 1 / 2 ^ 53) * z := by linarith
        _ ≤ (1 + 1 / 2 ^ 53) * (θ * s - (1 - 1 / 2 ^ 53) * rel * (θ * s)) :=
          mul_le_mul_of_nonneg_left hz (by norm_num)
        _ = (1 + 1 / 2 ^ 53) * (1 - (1 - 1 / 2 ^ 53) * rel) * θ * s := by ring
        _ ≤ (1 + 1 / 2 ^ 53) * (1 - (1 - 1 / 2 ^ 53) * rel) * h * s :=
          mul_le_mul_of_nonneg_right (mul_le_mul_of_nonneg_left hh hshrink) hs
        _ ≤ 1 * s := mul_le_mul_of_nonneg_right hc.above hs
        _ = s := one_mul s
  · -- a negative value moves away from zero by the pad and back by its last place
    have hgrow : 0 ≤ (1 - 1 / 2 ^ 53) * (1 + (1 - 1 / 2 ^ 53) * rel) :=
      mul_nonneg (by norm_num) (by nlinarith [hc.rel_nonneg])
    have hθs : θ * s ≤ 0 := mul_nonpos_of_nonneg_of_nonpos hθ hs
    rw [abs_of_nonpos hθs] at hz
    have hcrel : 0 ≤ (1 - 1 / 2 ^ 53) * rel := mul_nonneg (by norm_num) hc.rel_nonneg
    have hneg : z ≤ 0 := by linarith [mul_nonpos_of_nonneg_of_nonpos hcrel hθs]
    rw [abs_of_nonpos hneg] at hround
    calc rnd z ≤ (1 - 1 / 2 ^ 53) * z := by linarith
      _ ≤ (1 - 1 / 2 ^ 53) * (θ * s - (1 - 1 / 2 ^ 53) * rel * -(θ * s)) :=
        mul_le_mul_of_nonneg_left hz (by norm_num)
      _ = (1 - 1 / 2 ^ 53) * (1 + (1 - 1 / 2 ^ 53) * rel) * θ * s := by ring
      _ ≤ (1 - 1 / 2 ^ 53) * (1 + (1 - 1 / 2 ^ 53) * rel) * l * s :=
        mul_le_mul_of_nonpos_right (mul_le_mul_of_nonneg_left hl hgrow) hs
      _ ≤ 1 * s := mul_le_mul_of_nonpos_right hc.below hs
      _ = s := one_mul s

/-- Padding upward is padding downward of the negated value under the mirrored rounding. -/
lemma Covers.le_round (hc : Covers rel l h) (hr : Rounds rnd) (hw : Within l h r s)
    (hz : r + (1 - 1 / 2 ^ 53) * rel * |r| ≤ z) : s ≤ rnd z := by
  have hmirror : Rounds fun w => -rnd (-w) := by
    refine ⟨fun w => ?_⟩
    calc |-rnd (-w) - w| = |rnd (-w) - -w| := by rw [← abs_neg]; congr 1; ring
      _ ≤ 1 / 2 ^ 53 * |-w| := hr.abs_sub_le (-w)
      _ = 1 / 2 ^ 53 * |w| := by rw [abs_neg]
  have hwneg : Within l h (-r) (-s) := by
    obtain ⟨θ, hl, hh, rfl⟩ := hw
    exact ⟨θ, hl, hh, by ring⟩
  have hle := hc.round_le hmirror hwneg (z := -z) (by rw [abs_neg]; linarith)
  rw [neg_neg] at hle
  linarith

/-- The widened lower endpoint is below what the endpoint approximates. -/
lemma Covers.fst_le (hc : Covers rel l h) (hr : Rounds rnd) (hw : Within l h r s)
    (hlo : lo ≤ r) (habs : |r| ≤ max |lo| |hi|) : (ivWidenBy rnd lo hi rel).1 ≤ s := by
  have hpad := hr.le_pad hc.rel_nonneg habs
  exact hc.round_le hr hw (by linarith)

/-- The widened upper endpoint is above what the endpoint approximates. -/
lemma Covers.le_snd (hc : Covers rel l h) (hr : Rounds rnd) (hw : Within l h r s)
    (hhi : r ≤ hi) (habs : |r| ≤ max |lo| |hi|) : s ≤ (ivWidenBy rnd lo hi rel).2 := by
  have hpad := hr.le_pad hc.rel_nonneg habs
  exact hc.le_round hr hw (by linarith)

/-- The algebraic pad makes up for fourteen roundings. -/
lemma covers_ivRelPad : Covers (ivRelPad : K) ((1 - 1 / 2 ^ 53) ^ 14) ((1 + 1 / 2 ^ 53) ^ 14) := by
  constructor <;> norm_num [ivRelPad, ivEps]

lemma Covers.mem {r₁ r₂ s₁ s₂ : K} (hc : Covers rel l h) (hr : Rounds rnd)
    (hw₁ : Within l h r₁ s₁) (hw₂ : Within l h r₂ s₂) (hlo : lo ≤ r₁) (hhi : r₂ ≤ hi)
    (habs₁ : |r₁| ≤ max |lo| |hi|) (habs₂ : |r₂| ≤ max |lo| |hi|) (hs₁ : s₁ ≤ x) (hs₂ : x ≤ s₂) :
    Mem x (ivWidenBy rnd lo hi rel) :=
  ⟨(hc.fst_le hr hw₁ hlo habs₁).trans hs₁, hs₂.trans (hc.le_snd hr hw₂ hhi habs₂)⟩

/-- Rounded endpoints enclose what lies between the exact ones. -/
lemma Rounds.mem_ivMake (hr : Rounds rnd) {s₁ s₂ : K} (hw₁ : WithinRoundings 14 lo s₁)
    (hw₂ : WithinRoundings 14 hi s₂) (hs₁ : s₁ ≤ x) (hs₂ : x ≤ s₂) : Mem x (ivMake rnd lo hi) :=
  covers_ivRelPad.mem hr hw₁.within hw₂.within le_rfl le_rfl (le_max_left _ _) (le_max_right _ _) hs₁ hs₂

/-! ## Products and quotients -/

lemma exists_mul_le {p q : K} (hx : x ∈ Set.uIcc p q) (y : K) :
    ∃ c, (c = p ∨ c = q) ∧ c * y ≤ x * y := by
  rcases Set.mem_uIcc.1 hx with ⟨h₁, h₂⟩ | ⟨h₁, h₂⟩ <;> rcases le_total 0 y with hy | hy
  · exact ⟨p, .inl rfl, mul_le_mul_of_nonneg_right h₁ hy⟩
  · exact ⟨q, .inr rfl, mul_le_mul_of_nonpos_right h₂ hy⟩
  · exact ⟨q, .inr rfl, mul_le_mul_of_nonneg_right h₁ hy⟩
  · exact ⟨p, .inl rfl, mul_le_mul_of_nonpos_right h₂ hy⟩

/-- A product of members is at least a product of endpoints. -/
lemma exists_corner_le {p q p' q' : K} (hx : x ∈ Set.uIcc p q) (hy : y ∈ Set.uIcc p' q') :
    ∃ c d, (c = p ∨ c = q) ∧ (d = p' ∨ d = q') ∧ c * d ≤ x * y := by
  obtain ⟨c, hc, hle⟩ := exists_mul_le hx y
  obtain ⟨d, hd, hle'⟩ := exists_mul_le hy c
  exact ⟨c, d, hc, hd, by linarith [mul_comm c d, mul_comm c y]⟩

lemma exists_le_corner {p q p' q' : K} (hx : x ∈ Set.uIcc p q) (hy : y ∈ Set.uIcc p' q') :
    ∃ c d, (c = p ∨ c = q) ∧ (d = p' ∨ d = q') ∧ x * y ≤ c * d := by
  have hneg : -x ∈ Set.uIcc (-p) (-q) := by
    rw [Set.mem_uIcc] at hx ⊢
    rcases hx with hx | hx
    · exact .inr ⟨neg_le_neg hx.2, neg_le_neg hx.1⟩
    · exact .inl ⟨neg_le_neg hx.2, neg_le_neg hx.1⟩
  obtain ⟨c, d, hc, hd, hle⟩ := exists_corner_le hneg hy
  refine ⟨-c, d, ?_, hd, by linarith⟩
  rcases hc with rfl | rfl
  · exact .inl (neg_neg p)
  · exact .inr (neg_neg q)

/-- The rounded products of the endpoints enclose every product of members. -/
lemma Rounds.mem_corners (hr : Rounds rnd) {p q p' q' : K} (hx : x ∈ Set.uIcc p q)
    (hy : y ∈ Set.uIcc p' q') :
    Mem (x * y) (ivMake rnd
      (ivMin4 (rnd (p * p')) (rnd (p * q')) (rnd (q * p')) (rnd (q * q')))
      (ivMax4 (rnd (p * p')) (rnd (p * q')) (rnd (q * p')) (rnd (q * q')))) := by
  obtain ⟨c, d, hc, hd, hle⟩ := exists_corner_le hx hy
  obtain ⟨c', d', hc', hd', hle'⟩ := exists_le_corner hx hy
  have hlow := corner_bounds rnd hc hd
  have hhigh := corner_bounds rnd hc' hd'
  exact covers_ivRelPad.mem hr (hr.once _).within (hr.once _).within hlow.1 hhigh.2
    (abs_le_max_abs_abs hlow.1 hlow.2) (abs_le_max_abs_abs hhigh.1 hhigh.2) hle hle'

/-- The inverse of a member lies between the inverses of the endpoints. -/
lemma inv_mem_uIcc (hy : Mem y b) (h0 : ¬Mem 0 b) : y⁻¹ ∈ Set.uIcc b.1⁻¹ b.2⁻¹ := by
  rw [Set.mem_uIcc]
  rcases lt_or_ge 0 b.1 with hpos | hneg
  · exact .inr ⟨inv_anti₀ (hpos.trans_le hy.1) hy.2, inv_anti₀ hpos hy.1⟩
  · have hb : b.2 < 0 := not_le.1 fun h => h0 ⟨hneg, h⟩
    have hy0 : y < 0 := hy.2.trans_lt hb
    exact .inr ⟨(inv_le_inv_of_neg hb hy0).2 hy.2, (inv_le_inv_of_neg hy0 (hy.1.trans_lt hy0)).2 hy.1⟩

lemma Rounds.mem_intervalAdd (hr : Rounds rnd) (hx : Mem x a) (hy : Mem y b) :
    Mem (x + y) (intervalAdd rnd a b) :=
  hr.mem_ivMake (hr.once _) (hr.once _) (add_le_add hx.1 hy.1) (add_le_add hx.2 hy.2)

lemma Rounds.mem_intervalSub (hr : Rounds rnd) (hx : Mem x a) (hy : Mem y b) :
    Mem (x - y) (intervalSub rnd a b) :=
  hr.mem_ivMake (hr.once _) (hr.once _) (sub_le_sub hx.1 hy.2) (sub_le_sub hx.2 hy.1)

lemma mem_intervalNeg (hx : Mem x a) : Mem (-x) (intervalNeg a) :=
  ⟨neg_le_neg hx.2, neg_le_neg hx.1⟩

lemma Rounds.mem_intervalMul (hr : Rounds rnd) (hx : Mem x a) (hy : Mem y b) :
    Mem (x * y) (intervalMul rnd a b) := hr.mem_corners hx.uIcc hy.uIcc

lemma Rounds.mem_intervalDiv (hr : Rounds rnd) (hx : Mem x a) (hy : Mem y b) (h0 : ¬Mem 0 b) :
    ∃ c, intervalDiv rnd a b = .ok c ∧ Mem (x / y) c := by
  refine ⟨_, if_neg h0, ?_⟩
  have hmem := hr.mem_corners hx.uIcc (inv_mem_uIcc hy h0)
  simpa only [← div_eq_mul_inv] using hmem

/-! ## Powers -/

/-- Two powers, one below and one above, enclose what lies between them in either order. -/
lemma Rounds.mem_ivMake_minMax (hr : Rounds rnd) {r₁ r₂ s₁ s₂ : K}
    (hw₁ : WithinRoundings 14 r₁ s₁) (hw₂ : WithinRoundings 14 r₂ s₂)
    (hx : s₁ ≤ x ∧ x ≤ s₂ ∨ s₂ ≤ x ∧ x ≤ s₁) : Mem x (ivMake rnd (ivMin2 r₁ r₂) (ivMax2 r₁ r₂)) := by
  rw [ivMin2_eq, ivMax2_eq]
  have habs₁ := abs_le_max_abs_abs (min_le_left r₁ r₂) (le_max_left r₁ r₂)
  have habs₂ := abs_le_max_abs_abs (min_le_right r₁ r₂) (le_max_right r₁ r₂)
  rcases hx with ⟨h₁, h₂⟩ | ⟨h₂, h₁⟩
  · exact covers_ivRelPad.mem hr hw₁.within hw₂.within (min_le_left _ _) (le_max_right _ _) habs₁ habs₂ h₁ h₂
  · exact covers_ivRelPad.mem hr hw₂.within hw₁.within (min_le_right _ _) (le_max_left _ _) habs₂ habs₁ h₂ h₁

lemma Rounds.mem_intervalPow (hr : Rounds rnd) {n : ℕ}
    (hpow : ∀ base, WithinRoundings 14 (ivIntPow rnd base n) (base ^ n)) (hx : Mem x a) :
    Mem (x ^ n) (intervalPow rnd a n) := by
  unfold intervalPow
  simp only [ivAbs_eq]
  split_ifs with h0 hodd hcross
  · obtain rfl : n = 0 := by omega
    rw [pow_zero]
    exact ⟨le_rfl, le_rfl⟩
  · have hmono := (Nat.odd_iff.2 hodd).strictMono_pow (R := K).monotone
    exact hr.mem_ivMake (hpow _) (hpow _) (hmono hx.1) (hmono hx.2)
  · -- the interval crosses zero: the end that is larger in absolute value bounds the power
    have heven : Even n := Nat.even_iff.2 (by omega)
    have hend : ∃ c, ivIntPow rnd |c| n ≤ max (ivIntPow rnd |a.1| n) (ivIntPow rnd |a.2| n) ∧
        |x| ≤ |c| := by
      rcases le_max_iff.1 (abs_le_max_abs_abs hx.1 hx.2) with hle | hle
      · exact ⟨a.1, le_max_left _ _, hle⟩
      · exact ⟨a.2, le_max_right _ _, hle⟩
    obtain ⟨c, hmax, hle⟩ := hend
    have hnonneg := (hpow |c|).nonneg (pow_nonneg (abs_nonneg c) n)
    rw [ivMax2_eq]
    have hzero : WithinRoundings 14 (0 : K) 0 := (withinRoundings_zero 0).mono (Nat.zero_le 14)
    refine covers_ivRelPad.mem hr hzero.within (hpow |c|).within le_rfl
      hmax (abs_le_max_abs_abs le_rfl (hnonneg.trans hmax)) (abs_le_max_abs_abs hnonneg hmax)
      (heven.pow_nonneg x) ?_
    rw [← heven.pow_abs x]
    exact pow_le_pow_left₀ (abs_nonneg x) hle n
  · have heven : Even n := Nat.even_iff.2 (by omega)
    refine hr.mem_ivMake_minMax (hpow |a.1|) (hpow |a.2|) ?_
    rw [heven.pow_abs, heven.pow_abs, ← heven.pow_abs x, ← heven.pow_abs a.1, ← heven.pow_abs a.2]
    rcases lt_or_ge 0 a.1 with hpos | hneg
    · refine .inl ⟨pow_le_pow_left₀ (abs_nonneg _) (abs_le_abs_of_nonneg hpos.le hx.1) n, ?_⟩
      exact pow_le_pow_left₀ (abs_nonneg _) (abs_le_abs_of_nonneg (hpos.le.trans hx.1) hx.2) n
    · have hhi : a.2 < 0 := not_le.1 fun h => hcross ⟨hneg, h⟩
      refine .inr ⟨pow_le_pow_left₀ (abs_nonneg _) (abs_le_abs_of_nonpos hhi.le hx.2) n, ?_⟩
      exact pow_le_pow_left₀ (abs_nonneg _) (abs_le_abs_of_nonpos (hx.2.trans hhi.le) hx.1) n

/-- Every operation encloses, once powers do. -/
lemma Rounds.encloses (hr : Rounds rnd) {n : ℕ}
    (hpow : ∀ base, WithinRoundings 14 (ivIntPow rnd base n) (base ^ n)) : Encloses rnd n :=
  fun _ _ _ _ hx hy => ⟨hr.mem_intervalAdd hx hy, hr.mem_intervalSub hx hy, mem_intervalNeg hx,
    hr.mem_intervalMul hx hy, hr.mem_intervalDiv hx hy, hr.mem_intervalPow hpow hx⟩

/-! ## Fifteen factors -/

/-- Rounding always toward zero by half a unit in the last place. -/
def roundDown (z : K) : K := (1 - 1 / (2 ^ 53 : ℕ)) * z

lemma abs_roundDown_sub (z : K) : |roundDown z - z| = 1 / 2 ^ 53 * |z| := by
  rw [roundDown, Nat.cast_pow, Nat.cast_ofNat, show (1 - 1 / 2 ^ 53) * z - z = -(1 / 2 ^ 53 * z) by ring,
    abs_neg, abs_mul, abs_of_nonneg (by norm_num)]

lemma rounds_roundDown : Rounds (roundDown : K → K) := ⟨fun z => (abs_roundDown_sub z).le⟩

lemma ivIntPowLoop_roundDown (e : ℕ) :
    ∀ acc, ivIntPowLoop (roundDown : ℚ → ℚ) 1 e acc = (1 - 1 / 2 ^ 53) ^ e * acc := by
  induction e with
  | zero => simp [ivIntPowLoop]
  | succ e ih =>
    intro acc
    rw [ivIntPowLoop, ih, roundDown, Nat.cast_pow, Nat.cast_ofNat, mul_one, ← mul_assoc, ← pow_succ]

lemma intervalPow_roundDown {n : ℕ} (hn : 0 < n) :
    intervalPow (roundDown : ℚ → ℚ) (1, 1) n =
      ivMake roundDown ((1 - 1 / 2 ^ 53) ^ n) ((1 - 1 / 2 ^ 53) ^ n) := by
  have hpow : ivIntPow (roundDown : ℚ → ℚ) 1 n = (1 - 1 / 2 ^ 53) ^ n := by
    rw [ivIntPow, ivIntPowLoop_roundDown, mul_one]
  have habs : ivAbs (1 : ℚ) = 1 := by rw [ivAbs_eq, abs_one]
  have hcross : ¬((1 : ℚ) ≤ 0 ∧ (1 : ℚ) ≥ 0) := by norm_num
  simp only [intervalPow, habs, hpow, ivMin2_eq, ivMax2_eq, min_self, max_self, if_neg hcross, ite_self,
    if_neg (show ¬n ≤ 0 by omega)]

/-- From fifteen factors on, the pad no longer reaches the exact power. -/
lemma snd_intervalPow_roundDown {n : ℕ} (hn : 15 ≤ n) :
    (intervalPow (roundDown : ℚ → ℚ) (1, 1) n).2 < 1 := by
  have hle : (1 - 1 / 2 ^ 53 : ℚ) ^ n ≤ (1 - 1 / 2 ^ 53) ^ 15 :=
    pow_le_pow_of_le_one (by norm_num) (by norm_num) hn
  have hpos : (0 : ℚ) < (1 - 1 / 2 ^ 53) ^ n := pow_pos (by norm_num) n
  rw [intervalPow_roundDown (by omega), ivMake, ivWidenBy]
  simp only [ivAbs_eq, ivMax2_eq, max_self, abs_of_pos hpos, roundDown, ivRelPad, ivEps, ivAbsPad,
    Nat.cast_pow, Nat.cast_ofNat]
  generalize (1 - 1 / 2 ^ 53 : ℚ) ^ n = q at hle
  rcases max_choice ((1 - 1 / 2 ^ 53) * (8 * (1 / 2 ^ 52) * q)) (1 / 10 ^ 300) with hmax | hmax
  · rw [hmax]
    calc (1 - 1 / 2 ^ 53) * (q + (1 - 1 / 2 ^ 53) * (8 * (1 / 2 ^ 52) * q))
        = (1 - 1 / 2 ^ 53) * (1 + (1 - 1 / 2 ^ 53) * (8 * (1 / 2 ^ 52))) * q := by ring
      _ ≤ (1 - 1 / 2 ^ 53) * (1 + (1 - 1 / 2 ^ 53) * (8 * (1 / 2 ^ 52))) * (1 - 1 / 2 ^ 53) ^ 15 :=
        mul_le_mul_of_nonneg_left hle (by norm_num)
      _ < 1 := by norm_num
  · have hpad : (1 / 10 ^ 300 : ℚ) ≤ 1 / 10 ^ 20 :=
      one_div_le_one_div_of_le (by positivity) (pow_le_pow_right₀ (by norm_num) (Nat.le_add_left 20 280))
    rw [hmax]
    calc (1 - 1 / 2 ^ 53) * (q + 1 / 10 ^ 300)
        ≤ (1 - 1 / 2 ^ 53) * ((1 - 1 / 2 ^ 53) ^ 15 + 1 / 10 ^ 20) :=
          mul_le_mul_of_nonneg_left (add_le_add hle hpad) (by norm_num)
      _ < 1 := by norm_num

/-- Under every rounding to nearest the operations enclose their results, powers up to the
fourteenth included; a power with more factors can lie outside. -/
theorem intervals_enclose_iff (n : ℕ) :
    (∀ rnd : ℚ → ℚ, Rounds rnd → Encloses rnd n) ↔ n ≤ 14 := by
  constructor
  · intro h
    by_contra hn
    have hmem : Mem (1 : ℚ) (1, 1) := ⟨le_rfl, le_rfl⟩
    have hpow := (h roundDown rounds_roundDown (1, 1) (1, 1) 1 1 hmem hmem).2.2.2.2.2
    have hlt := snd_intervalPow_roundDown (show 15 ≤ n by omega)
    rw [one_pow] at hpow
    exact absurd hpow.2 (not_le.2 hlt)
  · intro hn rnd hr
    exact hr.encloses fun base => (withinRoundings_ivIntPow hr base n).mono hn

/-! ## Exponential and logarithm -/

/-- The error of a library function: within sixteen units in the last place. -/
def WithinUlps (r s : ℝ) : Prop := |r - s| ≤ 16 * ivEps * |s|

lemma WithinUlps.within {r s : ℝ} (h : WithinUlps r s) :
    Within (1 - 16 * ivEps) (1 + 16 * ivEps) r s := by
  rcases eq_or_ne s 0 with rfl | hs
  · rw [WithinUlps, abs_zero, mul_zero, sub_zero, abs_nonpos_iff] at h
    exact ⟨1, by norm_num [ivEps], by norm_num [ivEps], by rw [h, mul_zero]⟩
  · have habs : |r / s - 1| ≤ 16 * ivEps := by
      rw [div_sub_one hs, abs_div, div_le_iff₀ (abs_pos.2 hs)]
      exact h
    have hle := abs_le.1 habs
    exact ⟨r / s, by linarith, by linarith, (div_mul_cancel₀ _ hs).symm⟩

lemma covers_ivTransPad : Covers (ivTransPad : ℝ) (1 - 16 * ivEps) (1 + 16 * ivEps) := by
  constructor <;> norm_num [ivTransPad, ivEps]

/-- The larger pad covers every library function that is right within sixteen units, and the
logarithm is refused exactly for intervals that leave its domain. -/
theorem transcendentals_enclose {rnd exp log : ℝ → ℝ} (hr : Rounds rnd)
    (hexp : ∀ x, WithinUlps (exp x) (Real.exp x))
    (hlog : ∀ x, 0 < x → WithinUlps (log x) (Real.log x)) (a : Interval ℝ) (x : ℝ)
    (hx : Mem x a) :
    Mem (Real.exp x) (intervalExp rnd exp a) ∧
      (0 < a.1 → ∃ c, intervalLog rnd log a = .ok c ∧ Mem (Real.log x) c) ∧
      (a.1 ≤ 0 → ∃ e, intervalLog rnd log a = .error e) := by
  refine ⟨?_, fun hpos => ⟨_, if_neg (not_le.2 hpos), ?_⟩, fun hle => ⟨_, if_pos hle⟩⟩
  · exact covers_ivTransPad.mem hr (hexp a.1).within (hexp a.2).within le_rfl le_rfl
      (le_max_left _ _) (le_max_right _ _) (Real.exp_le_exp.2 hx.1) (Real.exp_le_exp.2 hx.2)
  · have hx0 : 0 < x := hpos.trans_le hx.1
    exact covers_ivTransPad.mem hr (hlog _ hpos).within (hlog _ (hx0.trans_le hx.2)).within le_rfl
      le_rfl (le_max_left _ _) (le_max_right _ _) (Real.log_le_log hpos hx.1)
      (Real.log_le_log hx0 hx.2)

lemma withinUlps_roundDown (s : ℝ) : WithinUlps (roundDown s) s :=
  (abs_roundDown_sub s).trans_le (mul_le_mul_of_nonneg_right (by norm_num [ivEps]) (abs_nonneg s))

theorem transcendentals_enclose_roundDown :
    Mem (Real.exp 1) (intervalExp roundDown (fun x => roundDown (Real.exp x)) (1, 2)) ∧
      ∃ c, intervalLog roundDown (fun x => roundDown (Real.log x)) (1, 2) = .ok c ∧ Mem (Real.log 1) c := by
  obtain ⟨hexp, hlog, -⟩ := transcendentals_enclose rounds_roundDown (fun x => withinUlps_roundDown (Real.exp x))
    (fun x _ => withinUlps_roundDown (Real.log x)) (1, 2) 1 ⟨le_rfl, one_le_two⟩
  exact ⟨hexp, hlog one_pos⟩

end Ad
