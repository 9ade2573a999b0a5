import Eshkol.Exact.Canonical
import Eshkol.Exact.NumberFormat

/-!
# Numbers read back from their texts

The text of an integer of any size is read as the integer. The parts of a fraction are read by `strtoll`
alone, so that a fraction is read back when its parts have 64 bits.
-/

namespace Exact

open Hash (Bignum Rational)
open Logic (bignumToString)

variable {D : Type}

/-! ## Digits -/

lemma digitOf_asciiDigit {d : ℕ} (hd : d < 10) : digitOf 10 (asciiDigit d) = some d := by
  have htable : ∀ d < 10, digitOf 10 (asciiDigit d) = some d := by decide
  exact htable d hd

lemma mapM_asciiDigit {digits : List ℕ} (h : ∀ d ∈ digits, d < 10) :
    (digits.map asciiDigit).mapM (digitOf 10) = some digits := by
  induction digits with
  | nil => rfl
  | cons d digits ih =>
    rw [List.forall_mem_cons] at h
    rw [List.map_cons, List.mapM_cons, digitOf_asciiDigit h.1, ih h.2]
    rfl

/-- The digits of a number are read as the number. -/
lemma decimalText_digits (m : ℕ) :
    ∃ digits, (decimalText m).mapM (digitOf 10) = some digits ∧ digits ≠ [] ∧ digitsValue 10 digits = m := by
  rw [decimalText]
  by_cases hm : m = 0
  · rw [if_pos hm, hm]
    exact ⟨[0], rfl, List.cons_ne_nil _ _, rfl⟩
  · rw [if_neg hm]
    refine ⟨(Nat.digits 10 m).reverse, mapM_asciiDigit fun d hd => ?_, ?_, ?_⟩
    · exact Nat.digits_lt_base (by decide) (List.mem_reverse.1 hd)
    · rwa [Ne, List.reverse_eq_nil_iff, Nat.digits_eq_nil_iff_eq_zero]
    · rw [digitsValue, List.reverse_reverse, Nat.ofDigits_digits]

lemma decimalText_ne_nil (m : ℕ) : decimalText m ≠ [] := by
  obtain ⟨digits, hdigits, hne, -⟩ := decimalText_digits m
  intro hnil
  rw [hnil] at hdigits
  exact hne (Option.some.inj hdigits).symm

/-! ## Integers -/

/-- The sign is read off the text of an integer. -/
lemma readSign_integerText (x : ℤ) (rest : List UInt8) :
    readSign (integerText x ++ rest) = (decide (x < 0), decimalText x.natAbs ++ rest) := by
  rw [integerText]
  by_cases hx : x < 0
  · rw [if_pos hx, decide_eq_true hx]
    rfl
  · rw [if_neg hx, decide_eq_false hx]
    obtain ⟨digits, hdigits, -⟩ := decimalText_digits x.natAbs
    cases htext : decimalText x.natAbs with
    | nil => exact absurd htext (decimalText_ne_nil _)
    | cons c text =>
      rw [htext] at hdigits
      obtain ⟨d, -, hc, -⟩ := mapM_cons_eq_some hdigits
      have hsign : ∀ m : UInt8, digitOf 10 m = none → (c == m) = false := by
        intro m hm
        rw [beq_eq_false_iff_ne]
        rintro rfl
        simp [hm] at hc
      rw [List.cons_append, readSign, hsign _ (by decide), hsign _ (by decide)]
      rfl

lemma signedValue_natAbs (x : ℤ) : signedValue (decide (x < 0)) x.natAbs = x := by
  rw [signedValue]
  by_cases hx : x < 0
  · rw [if_pos (decide_eq_true hx)]
    omega
  · rw [if_neg (by simpa using hx)]
    omega

/-- The text of an integer starts a decimal number. -/
lemma startsDecimal_integerText (x : ℤ) (rest : List UInt8) : StartsDecimal (integerText x ++ rest) := by
  obtain ⟨digits, hdigits, -⟩ := decimalText_digits x.natAbs
  cases htext : decimalText x.natAbs with
  | nil => exact absurd htext (decimalText_ne_nil _)
  | cons c text =>
    rw [htext] at hdigits
    obtain ⟨d, -, hc, -⟩ := mapM_cons_eq_some hdigits
    refine ⟨c, text ++ rest, ?_, ?_⟩
    · rw [readSign_integerText, htext]
      rfl
    · rw [(isDigit_iff c).2 ⟨d, hc⟩]
      rfl

/-- `strtoll` reads the text of an integer, up to the range. -/
lemma strtoll_integerText (x : ℤ) {rest : List UInt8} (hrest : ∀ c ∈ rest.head?, digitOf 10 c = none) :
    strtoll (integerText x ++ rest) 10 =
      if x < Int64.minValue.toInt then ⟨Int64.minValue, rest, true⟩
      else if Int64.maxValue.toInt < x then ⟨Int64.maxValue, rest, true⟩
      else ⟨.ofInt x, rest, false⟩ := by
  obtain ⟨digits, hdigits, hne, hvalue⟩ := decimalText_digits x.natAbs
  rw [strtoll]
  simp only [(startsDecimal_integerText x rest).dropSpaces, readSign_integerText, dropHexMark_ten,
    readDigits_append hdigits hrest, hvalue, signedValue_natAbs]
  rw [if_neg (by simpa using hne)]

lemma bignumFromString_integerText (x : ℤ) :
    ∃ bn, bignumFromString (integerText x) = some bn ∧ Normalized bn ∧ toInt bn = x := by
  obtain ⟨digits, hdigits, -, hvalue⟩ := decimalText_digits x.natAbs
  have hsign := readSign_integerText x []
  rw [List.append_nil, List.append_nil] at hsign
  have hsecond : (readSign (integerText x)).2 = decimalText x.natAbs := by rw [hsign]
  obtain ⟨bn, hbn, hnorm, hval⟩ := @bignumFromString_spec (integerText x) digits
    (by rw [hsecond]; exact hdigits) (by rw [hsecond]; exact decimalText_ne_nil _)
  refine ⟨bn, hbn, hnorm, ?_⟩
  rw [hval, hsign, hvalue, signedValue_natAbs]

/-! ## Bignums -/

/-- Twenty digits are enough for a limb. -/
lemma magnitude_lt_pow_ten (limbs : List UInt64) : magnitude limbs < 10 ^ (limbs.length * 20) := by
  calc magnitude limbs < radix ^ limbs.length := magnitude_lt limbs
    _ ≤ (10 ^ 20) ^ limbs.length := Nat.pow_le_pow_left (by decide) _
    _ = 10 ^ (limbs.length * 20) := by rw [← pow_mul, Nat.mul_comm]

/-- The loop produces the digits, as long as there is room for them. -/
lemma decimalDigits_eq {room : ℕ} {temp : Bignum} (h : Normalized temp) (hroom : magnitude temp.limbs < 10 ^ room) :
    bignumToString.decimalDigits room temp = (Nat.digits 10 (magnitude temp.limbs)).map asciiDigit := by
  induction room generalizing temp with
  | zero =>
    rw [show magnitude temp.limbs = 0 by omega, Nat.digits_zero]
    rfl
  | succ room ih =>
    rw [bignumToString.decimalDigits]
    by_cases hzero : temp.isZero = true
    · rw [if_pos hzero, h.isZero_iff.1 hzero, Nat.digits_zero]
      rfl
    · have hten : (10 : UInt64).toNat = 10 := rfl
      have hpos : 0 < magnitude temp.limbs := Nat.pos_of_ne_zero (mt h.isZero_iff.2 hzero)
      obtain ⟨hnorm, hquot, hrem⟩ := divLimb_spec h (by rw [hten]; decide : (10 : UInt64).toNat ≠ 0)
      rw [hten] at hquot hrem
      have hrest := ih hnorm (by rw [hquot, Nat.div_lt_iff_lt_mul (by decide), ← pow_succ]; exact hroom)
      have hdigit : '0'.toUInt8 + (bignumDivLimb temp 10).2.toUInt8 = asciiDigit (magnitude temp.limbs % 10) := by
        rw [asciiDigit, ← hrem]
        rfl
      rw [if_neg hzero, Nat.digits_def' (by decide) hpos, List.map_cons]
      simp only [hrest, hdigit, hquot]

/-- A bignum is written as an integer of its value. -/
lemma bignumToString_eq {a : Bignum} (ha : Normalized a) : bignumToString true a = some (integerText (toInt a)) := by
  have habs := natAbs_toInt a
  have hneg := ha.negative_iff
  rw [bignumToString, if_neg (by decide)]
  by_cases hzero : a.isZero = true
  · rw [if_pos hzero, isZero_iff_toInt ha |>.mp hzero]
    rfl
  · have hpos : magnitude a.limbs ≠ 0 := mt ha.isZero_iff.2 hzero
    have hroom : magnitude a.limbs < 10 ^ (a.limbs.length * 20 + 1) :=
      (magnitude_lt_pow_ten a.limbs).trans (Nat.pow_lt_pow_right (by decide) (Nat.lt_succ_self _))
    have hdigits := @decimalDigits_eq _ ⟨false, a.limbs⟩ (ha.withSign fun _ => rfl) hroom
    rw [if_neg hzero]
    simp only [hdigits, List.reverse_append, ← List.map_reverse]
    rw [integerText, habs, decimalText, if_neg hpos]
    by_cases hsign : a.negative = true
    · rw [if_pos hsign, if_pos (hneg.1 hsign)]
      rfl
    · rw [if_neg hsign, if_neg (mt hneg.2 hsign)]
      rfl

/-! ## Reading back -/

section
variable [Doubles D]

/-- The text is read as a number of the same value. -/
def RoundTrips (x : Tagged D) : Prop :=
  ∃ text q, exactToString x = some text ∧ value (stringToNumberRadixTagged (D := D) text 10) = some q ∧
    value x = some q

/-- A rational whose parts are bignums. -/
def Tagged.HoldsBignums : Tagged D → Prop
  | .rational (.big _ _) => True
  | _ => False

/-- The text of an exact number has no blanks and no prefix. -/
lemma stringToNumber_integerText (x : ℤ) (rest : List UInt8) :
    stringToNumberRadixTagged (D := D) (integerText x ++ rest) 10 = s2nDecimal (integerText x ++ rest) := by
  have hhead : ∃ c tail, integerText x ++ rest = c :: tail ∧ (isDigit c = true ∨ c = '-'.toUInt8) := by
    rw [integerText]
    by_cases hx : x < 0
    · rw [if_pos hx]
      exact ⟨_, _, rfl, .inr rfl⟩
    · obtain ⟨digits, hdigits, -⟩ := decimalText_digits x.natAbs
      rw [if_neg hx]
      cases htext : decimalText x.natAbs with
      | nil => exact absurd htext (decimalText_ne_nil _)
      | cons c text =>
        rw [htext] at hdigits
        obtain ⟨d, -, hc, -⟩ := mapM_cons_eq_some hdigits
        exact ⟨c, _, rfl, .inl ((isDigit_iff c).2 ⟨d, hc⟩)⟩
  obtain ⟨c, tail, htext, hc⟩ := hhead
  have htable : ∀ m : UInt8, isDigit m = false → m ≠ '-'.toUInt8 → c ≠ m := by
    rintro m hm hne rfl
    rcases hc with hc | hc
    · simp [hm] at hc
    · exact hne hc
  have hblank : ¬ isBlank c = true := by
    rw [isBlank, Bool.or_eq_true, beq_iff_eq, beq_iff_eq]
    rintro (h | h)
    · exact htable _ (by decide) (by decide) h
    · exact htable _ (by decide) (by decide) h
  have hnumber : numberAndRadix (c :: tail) 10 = some (c :: tail, 10) := by
    rw [numberAndRadix, List.dropWhile_cons_of_neg hblank]
    cases tail with
    | nil => rfl
    | cons mark start =>
      have hmark : (c == '#'.toUInt8) = false := beq_eq_false_iff_ne.2 (htable _ (by decide) (by decide))
      simp only [hmark]
      rfl
  rw [htext, stringToNumberRadixTagged, hnumber]
  rfl

lemma scanDecimal_digits {text : List UInt8} {digits : List ℕ} (h : text.mapM (digitOf 10) = some digits) :
    scanDecimal text = .integer := by
  induction text generalizing digits with
  | nil => rfl
  | cons c text ih =>
    obtain ⟨d, ds, hc, htext, -⟩ := mapM_cons_eq_some h
    rw [scanDecimal_digit ((isDigit_iff c).2 ⟨d, hc⟩), ih htext]

/-- An integer of any size is read back. -/
lemma read_integer (x : ℤ) : value (stringToNumberRadixTagged (D := D) (integerText x) 10) = some (x : ℚ) := by
  obtain ⟨digits, hdigits, -⟩ := decimalText_digits x.natAbs
  have hsign := readSign_integerText x []
  have hread := @strtoll_integerText x [] (by simp)
  have htext := stringToNumber_integerText (D := D) x []
  have hstarts := startsDecimal_integerText x []
  rw [List.append_nil] at hsign hread htext hstarts
  rw [List.append_nil] at hsign
  have hne : ([] : List UInt8) ≠ integerText x := by
    intro hnil
    rw [← hnil] at hsign
    exact decimalText_ne_nil x.natAbs (Prod.mk.inj hsign).2.symm
  rw [htext, s2nDecimal_eq hstarts, hsign, scanDecimal_digits hdigits, s2nLiteral, hread]
  by_cases hlo : x < Int64.minValue.toInt
  · obtain ⟨bn, hbn, -, hval⟩ := bignumFromString_integerText x
    rw [if_pos hlo]
    simp only [hbn, Bool.not_true, Bool.false_and, Bool.false_eq_true, if_false, if_true, value, hval]
  · rw [if_neg hlo]
    by_cases hhi : Int64.maxValue.toInt < x
    · obtain ⟨bn, hbn, -, hval⟩ := bignumFromString_integerText x
      rw [if_pos hhi]
      simp only [hbn, Bool.not_true, Bool.false_and, Bool.false_eq_true, if_false, if_true, value, hval]
    · rw [if_neg hhi]
      have hend : (([] : List UInt8) != integerText x) = true := by simpa using hne
      simp only [Bool.not_false, hend, List.dropWhile_nil, List.isEmpty_nil, Bool.and_self, if_true, value]
      rw [Int64.toInt_ofInt_of_le (by rw [Int64.toInt_minValue] at hlo; omega)
        (by rw [Int64.toInt_maxValue] at hhi; omega)]

/-- `strtoll` reports the range. -/
lemma strtoll_range (x : ℤ) {rest : List UInt8} (hrest : ∀ c ∈ rest.head?, digitOf 10 c = none) :
    (InRange x ∧ strtoll (integerText x ++ rest) 10 = ⟨.ofInt x, rest, false⟩) ∨
      (¬ InRange x ∧ (strtoll (integerText x ++ rest) 10).erange = true) := by
  rw [strtoll_integerText x hrest, Int64.toInt_minValue, Int64.toInt_maxValue, InRange]
  split
  · exact .inr ⟨by omega, rfl⟩
  · split
    · exact .inr ⟨by omega, rfl⟩
    · exact .inl ⟨by omega, rfl⟩

lemma toInt_ofInt {x : ℤ} (h : InRange x) : (Int64.ofInt x).toInt = x := Int64.toInt_ofInt_of_le h.1 h.2

/-- A fraction is read when its parts have 64 bits. -/
lemma read_fraction (n : ℤ) {d : ℤ} (hd : d ≠ 0) :
    stringToNumberRadixTagged (D := D) (integerText n ++ '/'.toUInt8 :: integerText d) 10 =
      if InRange n ∧ InRange d then .rational (rationalCreate (.ofInt n) (.ofInt d)) else .false := by
  obtain ⟨digits, hdigits, -⟩ := decimalText_digits n.natAbs
  rw [stringToNumber_integerText, s2nDecimal_eq (startsDecimal_integerText n _), readSign_integerText,
    scanDecimal_fraction hdigits, s2nLiteral, List.tail_cons]
  have hden := @strtoll_range d [] (by simp)
  rw [List.append_nil] at hden
  rcases @strtoll_range n ('/'.toUInt8 :: integerText d) (by simp [digitOf_slash]) with
    ⟨hn, hnum⟩ | ⟨hn, hnum⟩
  · rcases hden with ⟨hd_range, hden⟩ | ⟨hd_range, hden⟩
    · have hvalue : (Int64.ofInt d != 0) = true := by
        rw [bne_iff_ne, Ne, ← Int64.toInt_inj, toInt_ofInt hd_range]
        exact hd
      have hboth : InRange n ∧ InRange d := ⟨hn, hd_range⟩
      simp [hnum, hden, hvalue, hboth]
    · have hboth : ¬ (InRange n ∧ InRange d) := fun h => hd_range h.2
      simp only [if_neg hboth, hden, Bool.not_true, Bool.and_false, Bool.false_and, Bool.false_eq_true, if_false]
  · have hboth : ¬ (InRange n ∧ InRange d) := fun h => hn h.1
    simp only [if_neg hboth, hnum, Bool.not_true, Bool.and_false, Bool.false_and, Bool.false_eq_true, if_false]

/-- A canonical number is read back, but for a rational of bignums. -/
lemma roundTrips_canonical {x : Tagged D} (hx : Canonical x) : RoundTrips x ↔ ¬ x.HoldsBignums := by
  cases x with
  | int64 n => exact iff_of_true ⟨_, _, rfl, read_integer n.toInt, rfl⟩ id
  | bignum n => exact iff_of_true ⟨_, _, bignumToString_eq hx.1, read_integer (toInt n), rfl⟩ id
  | double d => exact hx.elim
  | false => exact hx.elim
  | rational q =>
    obtain ⟨hreduced, hproper⟩ := hx
    cases q with
    | small n d =>
      refine iff_of_true ?_ id
      have hd_ne : d ≠ 1 := fun h => by
        rw [ratDen, h] at hproper
        exact absurd hproper (by decide)
      have hd : d.toInt ≠ 0 := hreduced.den_pos.ne'
      have hd_zero : d ≠ 0 := fun h => hd (by rw [h]; rfl)
      have hread := read_fraction (D := D) n.toInt hd
      rw [if_pos ⟨inRange_toInt n, inRange_toInt d⟩, Int64.ofInt_toInt, Int64.ofInt_toInt] at hread
      refine ⟨_, ratValue (.small n d), rfl, ?_, rfl⟩
      rw [rationalToString, if_neg hd_ne, formatInt64, formatInt64, hread, value,
        (create_spec n hd_zero).value hd]
      rfl
    | big n d =>
      obtain ⟨hn, hd, hrange⟩ := hreduced.represented
      refine iff_of_false ?_ (fun h => h trivial)
      have hd_ne : ¬ bnEqualsI64 d 1 = true := fun h => by
        have hone : toInt d = 1 := (bnEqualsI64_iff hd 1).1 h
        rw [ratDen, hone] at hproper
        exact absurd hproper (by decide)
      rintro ⟨text, q, htext, hread, -⟩
      rw [exactToString, rationalToString, if_neg hd_ne, bignumToString_eq hn, bignumToString_eq hd] at htext
      have hden : toInt d ≠ 0 := hreduced.den_pos.ne'
      rw [← Option.some.inj htext, Option.getD_some, Option.getD_some, read_fraction _ hden, if_neg hrange] at hread
      cases hread

end

/-! ## The reader of bignums -/

/-- An optional sign and at least one digit. -/
def SignedDigits (str : List UInt8) : Prop :=
  ∃ sign digits, (sign = [] ∨ sign = ['+'.toUInt8] ∨ sign = ['-'.toUInt8]) ∧ digits ≠ [] ∧
    (∀ c ∈ digits, isDigit c = true) ∧ str = sign ++ digits

lemma mapM_isSome_iff (text : List UInt8) :
    (text.mapM (digitOf 10)).isSome = true ↔ ∀ c ∈ text, isDigit c = true := by
  induction text with
  | nil => simp
  | cons c text ih =>
    rw [List.forall_mem_cons, ← ih, isDigit_iff, List.mapM_cons]
    cases digitOf 10 c with
    | none => simp
    | some d => cases text.mapM (digitOf 10) <;> simp

lemma signedDigits_iff (str : List UInt8) :
    SignedDigits str ↔ (readSign str).2 ≠ [] ∧ ∀ c ∈ (readSign str).2, isDigit c = true := by
  constructor
  · rintro ⟨sign, digits, hsign, hne, hdigits, rfl⟩
    have hread : (readSign (sign ++ digits)).2 = digits := by
      rcases hsign with rfl | rfl | rfl
      · cases digits with
        | nil => exact absurd rfl hne
        | cons c rest =>
          have hc := hdigits c List.mem_cons_self
          have hmark : ∀ m : UInt8, isDigit m = false → (c == m) = false := by
            intro m hm
            rw [beq_eq_false_iff_ne]
            rintro rfl
            simp [hm] at hc
          rw [List.nil_append, readSign, hmark _ (by decide), hmark _ (by decide)]
          rfl
      · rfl
      · rfl
    rw [hread]
    exact ⟨hne, hdigits⟩
  · rintro ⟨hne, hdigits⟩
    cases str with
    | nil => exact absurd rfl hne
    | cons c rest =>
      rw [readSign] at hne hdigits
      by_cases hminus : (c == '-'.toUInt8) = true
      · rw [if_pos hminus] at hne hdigits
        exact ⟨_, rest, .inr (.inr rfl), hne, hdigits, by rw [beq_iff_eq.1 hminus]; rfl⟩
      · rw [if_neg hminus] at hne hdigits
        by_cases hplus : (c == '+'.toUInt8) = true
        · rw [if_pos hplus] at hne hdigits
          exact ⟨_, rest, .inr (.inl rfl), hne, hdigits, by rw [beq_iff_eq.1 hplus]; rfl⟩
        · rw [if_neg hplus] at hne hdigits
          exact ⟨[], c :: rest, .inl rfl, hne, hdigits, rfl⟩

/-- Signed digits are read, and nothing else. -/
lemma bignumFromString_accepts (str : List UInt8) : (bignumFromString str).isSome = true ↔ SignedDigits str := by
  rw [signedDigits_iff, ← mapM_isSome_iff, bignumFromString]
  by_cases hempty : (readSign str).2 = [] <;> simp [hempty]

/-- The texts of canonical numbers are read back but for rationals of bignums, and the reader of bignums
takes a sign and digits. -/
theorem number_text_round_trip [Doubles D] {x : Tagged D} (hx : Canonical x) (str : List UInt8) :
    (RoundTrips x ↔ ¬ x.HoldsBignums) ∧ ((bignumFromString str).isSome = true ↔ SignedDigits str) :=
  ⟨roundTrips_canonical hx, bignumFromString_accepts str⟩

/-- `-2^64` and the text `+12`. -/
theorem number_text_round_trip_bignum :
    RoundTrips (.bignum ⟨true, [0, 1]⟩ : Tagged Float) ∧ SignedDigits ['+'.toUInt8, '1'.toUInt8, '2'.toUInt8] := by
  have hx : Canonical (.bignum ⟨true, [0, 1]⟩ : Tagged Float) :=
    ⟨⟨by decide, by decide, by decide⟩, by decide⟩
  obtain ⟨hround, haccepts⟩ := number_text_round_trip hx ['+'.toUInt8, '1'.toUInt8, '2'.toUInt8]
  exact ⟨hround.2 id, haccepts.1 (by decide)⟩

/-- The text of `1 / 2^64` is read as `#f`. -/
theorem not_roundTrips_big :
    Canonical (.rational (.big ⟨false, [1]⟩ ⟨false, [0, 1]⟩) : Tagged Float) ∧
      ¬ RoundTrips (.rational (.big ⟨false, [1]⟩ ⟨false, [0, 1]⟩) : Tagged Float) := by
  have hx : Canonical (.rational (.big ⟨false, [1]⟩ ⟨false, [0, 1]⟩) : Tagged Float) := by
    refine ⟨⟨by decide, by decide, ⟨by decide, by decide, by decide⟩, ⟨by decide, by decide, by decide⟩, ?_⟩, by decide⟩
    decide
  exact ⟨hx, fun h => (roundTrips_canonical hx).1 h trivial⟩

end Exact
