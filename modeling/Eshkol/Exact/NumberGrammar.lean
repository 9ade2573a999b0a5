import Eshkol.Exact.NumberTextSpec
import Eshkol.Exact.RationalSpec

/-!
# The integers that `strtoll` takes

White space, a sign, in radix 16 a mark, and digits: the pieces of what `strtoll` consumes. A text
before a byte that is neither letter nor digit is in pieces in one way.
-/

namespace Exact

/-! ## Pieces -/

/-- An integer in a text, in its pieces. -/
structure Part where
  spaces : List UInt8
  sign : List UInt8
  mark : List UInt8
  digits : List UInt8
deriving DecidableEq

namespace Part

def text (p : Part) : List UInt8 := p.spaces ++ (p.sign ++ (p.mark ++ p.digits))

/-- The pieces are what `strtoll` takes them for. -/
structure Valid (base : ℕ) (p : Part) : Prop where
  spaces : ∀ c ∈ p.spaces, isSpace c = true
  sign : p.sign = [] ∨ p.sign = ['-'.toUInt8] ∨ p.sign = ['+'.toUInt8]
  mark : p.mark = [] ∨ base = 16 ∧ (p.mark = ['0'.toUInt8, 'x'.toUInt8] ∨ p.mark = ['0'.toUInt8, 'X'.toUInt8])
  nonempty : p.digits ≠ []
  digits : ∀ c ∈ p.digits, (digitOf base c).isSome = true

/-- The integer in the radix `base`. -/
def value (base : ℕ) (p : Part) : ℤ :=
  signedValue (p.sign == ['-'.toUInt8]) (digitsValue base (p.digits.filterMap (digitOf base)))

end Part

/-- No letter and no digit comes first. -/
def Delimits (rest : List UInt8) : Prop := ∀ c ∈ rest.head?, digitOf 36 c = none

lemma delimits_nil : Delimits [] := by
  intro c hc
  cases hc

/-! ## Bytes -/

lemma isSome_digitOf {base : ℕ} {c : UInt8} (h : (digitOf base c).isSome = true) :
    (digitOf 36 c).isSome = true := by
  have htable : ∀ n < 256, (digitOf 256 (UInt8.ofNat n)).isSome = (digitOf 36 (UInt8.ofNat n)).isSome := by
    decide +kernel
  have hc := htable c.toNat c.toNat_lt
  rw [UInt8.ofNat_toNat] at hc
  rw [← hc]
  -- the radix only limits the digits
  obtain ⟨d, hd⟩ := Option.isSome_iff_exists.1 h
  rw [digitOf, Option.filter_eq_some_iff] at hd
  rw [digitOf, hd.1]
  have hle : d < 256 := by
    have hdigit := hd.1
    have hlt := c.toNat_lt
    split_ifs at hdigit <;> · rw [Option.some.injEq] at hdigit; simp at hdigit; omega
  simp [hle]

lemma not_special {base : ℕ} {c : UInt8} (h : (digitOf base c).isSome = true) :
    isSpace c = false ∧ c ≠ '-'.toUInt8 ∧ c ≠ '+'.toUInt8 ∧ c ≠ '/'.toUInt8 ∧ c ≠ '#'.toUInt8 := by
  have htable : ∀ n < 256, (digitOf 36 (UInt8.ofNat n)).isSome = true → isSpace (UInt8.ofNat n) = false ∧
      UInt8.ofNat n ≠ '-'.toUInt8 ∧ UInt8.ofNat n ≠ '+'.toUInt8 ∧ UInt8.ofNat n ≠ '/'.toUInt8 ∧
      UInt8.ofNat n ≠ '#'.toUInt8 := by
    decide +kernel
  have hc := htable c.toNat c.toNat_lt
  rw [UInt8.ofNat_toNat] at hc
  exact hc (isSome_digitOf h)

lemma Delimits.isNone {rest : List UInt8} (h : Delimits rest) (base : ℕ) :
    ∀ c ∈ rest.head?, digitOf base c = none := by
  intro c hc
  rw [← Option.not_isSome_iff_eq_none]
  intro hsome
  have hdigit := isSome_digitOf hsome
  rw [h c hc] at hdigit
  cases hdigit

/-- A run ends before the first byte that is not of its kind. -/
lemma takeWhile_boundary {kind : UInt8 → Bool} {front rest : List UInt8} (hfront : ∀ c ∈ front, kind c = true)
    (hrest : ∀ c ∈ rest.head?, kind c = false) :
    (front ++ rest).takeWhile kind = front ∧ (front ++ rest).dropWhile kind = rest := by
  rw [List.takeWhile_append_of_pos hfront, List.dropWhile_append_of_pos hfront]
  cases rest with
  | nil => exact ⟨List.append_nil front, rfl⟩
  | cons c rest =>
    have hc : ¬ kind c = true := by simp [hrest c rfl]
    rw [List.takeWhile_cons_of_neg hc, List.dropWhile_cons_of_neg hc, List.append_nil]
    exact ⟨rfl, rfl⟩

/-! ## `strtoll` in pieces -/

/-- The byte that `readSign` drops. -/
def signText : List UInt8 → List UInt8
  | [] => []
  | c :: _ => if c == '-'.toUInt8 || c == '+'.toUInt8 then [c] else []

/-- The two bytes that `dropHexMark` drops. -/
def markText (base : ℕ) (text : List UInt8) : List UInt8 :=
  if dropHexMark base text = text then [] else text.take 2

def isDigitIn (base : ℕ) (c : UInt8) : Bool := (digitOf base c).isSome

/-- The pieces at the front of a text, and the rest. -/
def scanPart (base : ℕ) (start : List UInt8) : Part × List UInt8 :=
  let text := start.dropWhile isSpace
  let unsigned := (readSign text).2
  let digits := dropHexMark base unsigned
  (⟨start.takeWhile isSpace, signText text, markText base unsigned, digits.takeWhile (isDigitIn base)⟩,
    digits.dropWhile (isDigitIn base))

lemma readSign_eq (text : List UInt8) :
    signText text ++ (readSign text).2 = text ∧ (readSign text).1 = (signText text == ['-'.toUInt8]) := by
  cases text with
  | nil => exact ⟨rfl, rfl⟩
  | cons c rest =>
    unfold signText readSign
    by_cases hminus : c = '-'.toUInt8
    · subst hminus
      exact ⟨rfl, rfl⟩
    · by_cases hplus : c = '+'.toUInt8
      · subst hplus
        exact ⟨rfl, rfl⟩
      · simp [hminus, hplus]

lemma dropHexMark_cases (base : ℕ) (text : List UInt8) :
    dropHexMark base text = text ∨ base = 16 ∧ (text = '0'.toUInt8 :: 'x'.toUInt8 :: dropHexMark base text ∨
      text = '0'.toUInt8 :: 'X'.toUInt8 :: dropHexMark base text) := by
  rw [dropHexMark.eq_def]
  split
  · rename_i zero x digit rest
    split
    · rename_i hmark
      simp only [Bool.and_eq_true, Bool.or_eq_true, beq_iff_eq, decide_eq_true_eq] at hmark
      obtain ⟨⟨⟨hbase, rfl⟩, rfl | rfl⟩, -⟩ := hmark
      · exact .inr ⟨hbase, .inl rfl⟩
      · exact .inr ⟨hbase, .inr rfl⟩
    · exact .inl rfl
  · exact .inl rfl

lemma signText_cases (text : List UInt8) :
    signText text = [] ∨ signText text = ['-'.toUInt8] ∨ signText text = ['+'.toUInt8] := by
  cases text with
  | nil => exact .inl rfl
  | cons c rest =>
    show (if c == '-'.toUInt8 || c == '+'.toUInt8 then [c] else []) = [] ∨ _
    unfold signText
    split_ifs with hc
    · rw [Bool.or_eq_true, beq_iff_eq, beq_iff_eq] at hc
      rcases hc with rfl | rfl
      · exact .inr (.inl rfl)
      · exact .inr (.inr rfl)
    · exact .inl rfl

lemma markText_append (base : ℕ) (text : List UInt8) : markText base text ++ dropHexMark base text = text ∧
    (markText base text = [] ∨ base = 16 ∧ (markText base text = ['0'.toUInt8, 'x'.toUInt8] ∨
      markText base text = ['0'.toUInt8, 'X'.toUInt8])) := by
  unfold markText
  by_cases hsame : dropHexMark base text = text
  · rw [if_pos hsame]
    exact ⟨hsame, .inl rfl⟩
  · rw [if_neg hsame]
    rcases dropHexMark_cases base text with h | ⟨hbase, h | h⟩
    · exact absurd h hsame
    · generalize dropHexMark base text = rest at h
      subst h
      exact ⟨rfl, .inr ⟨hbase, .inl rfl⟩⟩
    · generalize dropHexMark base text = rest at h
      subst h
      exact ⟨rfl, .inr ⟨hbase, .inr rfl⟩⟩

lemma readDigits_eq (base : ℕ) (text : List UInt8) : readDigits base text =
    ((text.takeWhile (isDigitIn base)).filterMap (digitOf base), text.dropWhile (isDigitIn base)) := by
  induction text with
  | nil => rfl
  | cons c rest ih =>
    unfold readDigits
    cases hc : digitOf base c with
    | none =>
      have hno : isDigitIn base c = false := by rw [isDigitIn, hc]; rfl
      simp [hno]
    | some d =>
      have hyes : isDigitIn base c = true := by rw [isDigitIn, hc]; rfl
      simp [hyes, ih, hc]

lemma scanPart_append (base : ℕ) (start : List UInt8) :
    (scanPart base start).1.text ++ (scanPart base start).2 = start := by
  simp only [scanPart, Part.text, List.append_assoc, List.takeWhile_append_dropWhile]
  rw [(markText_append _ _).1, (readSign_eq _).1, List.takeWhile_append_dropWhile]

lemma scanPart_valid {base : ℕ} {start : List UInt8} (h : (scanPart base start).1.digits ≠ []) :
    (scanPart base start).1.Valid base where
  spaces := fun _ hc => List.mem_takeWhile_imp hc
  sign := signText_cases _
  mark := (markText_append base _).2
  nonempty := h
  digits := fun _ hc => List.mem_takeWhile_imp (p := isDigitIn base) hc

/-- After a mark there are digits, and in digits there is no mark. -/
lemma dropHexMark_text {base : ℕ} {mark digits rest : List UInt8}
    (hmark : mark = [] ∨ base = 16 ∧ (mark = ['0'.toUInt8, 'x'.toUInt8] ∨ mark = ['0'.toUInt8, 'X'.toUInt8]))
    (hne : digits ≠ []) (hdigits : ∀ c ∈ digits, (digitOf base c).isSome = true) (hrest : Delimits rest) :
    dropHexMark base (mark ++ (digits ++ rest)) = digits ++ rest ∧
      markText base (mark ++ (digits ++ rest)) = mark := by
  obtain ⟨d, ds, rfl⟩ := List.exists_cons_of_ne_nil hne
  have hd : (digitOf base d).isSome = true := hdigits d (by simp)
  have hdrop : dropHexMark base (mark ++ (d :: ds ++ rest)) = d :: ds ++ rest := by
    rcases hmark with rfl | ⟨rfl, rfl | rfl⟩
    · rcases dropHexMark_cases base (d :: ds ++ rest) with h | ⟨rfl, h⟩
      · exact h
      · -- the second byte would be a letter that is no digit of radix 16
        exfalso
        obtain ⟨x, hx, hsecond⟩ : ∃ x, digitOf 16 x = none ∧ digitOf 36 x ≠ none ∧ (ds ++ rest).head? = some x := by
          rcases h with h | h
          · exact ⟨'x'.toUInt8, rfl, by decide, by rw [show ds ++ rest = _ from (List.cons.inj h).2]; rfl⟩
          · exact ⟨'X'.toUInt8, rfl, by decide, by rw [show ds ++ rest = _ from (List.cons.inj h).2]; rfl⟩
        cases ds with
        | nil => exact hsecond.1 (hrest x hsecond.2)
        | cons e ds =>
          obtain rfl : e = x := Option.some.inj hsecond.2
          have he := hdigits e (by simp)
          rw [hx] at he
          cases he
    · show (if decide (16 = 16) && _ && _ && (digitOf 16 d).isSome then _ else _) = _
      rw [hd]
      rfl
    · show (if decide (16 = 16) && _ && _ && (digitOf 16 d).isSome then _ else _) = _
      rw [hd]
      rfl
  have hparts := (markText_append base (mark ++ (d :: ds ++ rest))).1
  rw [hdrop] at hparts
  exact ⟨hdrop, List.append_cancel_right hparts⟩

/-- The pieces of a text are found again. -/
lemma scanPart_text {base : ℕ} {p : Part} (hp : p.Valid base) {rest : List UInt8} (hrest : Delimits rest) :
    scanPart base (p.text ++ rest) = (p, rest) := by
  obtain ⟨spaces, sign, mark, digits⟩ := p
  obtain ⟨hspaces, hsign, hmark, hne, hdigits⟩ := hp
  simp only at hspaces hsign hmark hne hdigits
  have htext : Part.text ⟨spaces, sign, mark, digits⟩ ++ rest = spaces ++ (sign ++ (mark ++ (digits ++ rest))) := by
    simp only [Part.text, List.append_assoc]
  -- where the mark or the digits start there is no sign and no space
  obtain ⟨c, tail, hhead, hc⟩ : ∃ c tail, mark ++ (digits ++ rest) = c :: tail ∧ isSpace c = false ∧
      c ≠ '-'.toUInt8 ∧ c ≠ '+'.toUInt8 := by
    obtain ⟨d, ds, rfl⟩ := List.exists_cons_of_ne_nil hne
    have hd := not_special (hdigits d (by simp))
    rcases hmark with rfl | ⟨-, rfl | rfl⟩
    · exact ⟨d, ds ++ rest, rfl, hd.1, hd.2.1, hd.2.2.1⟩
    · exact ⟨_, _, rfl, by decide, by decide, by decide⟩
    · exact ⟨_, _, rfl, by decide, by decide, by decide⟩
  have hunspaced : ∀ c ∈ (sign ++ (mark ++ (digits ++ rest))).head?, isSpace c = false := by
    rcases hsign with rfl | rfl | rfl
    · rw [List.nil_append, hhead]
      simpa using hc.1
    · simp
      decide
    · simp
      decide
  have hread : (readSign (sign ++ (mark ++ (digits ++ rest)))).2 = mark ++ (digits ++ rest) ∧
      signText (sign ++ (mark ++ (digits ++ rest))) = sign := by
    rcases hsign with rfl | rfl | rfl
    · rw [List.nil_append, hhead]
      simp [readSign, signText, hc.2.1, hc.2.2]
    · exact ⟨rfl, rfl⟩
    · exact ⟨rfl, rfl⟩
  obtain ⟨htake, hdrop⟩ := takeWhile_boundary hspaces hunspaced
  obtain ⟨hunmarked, hmarked⟩ := dropHexMark_text hmark hne hdigits hrest
  have hall : ∀ c ∈ digits, isDigitIn base c = true := hdigits
  obtain ⟨hfront, hend⟩ := takeWhile_boundary hall fun c hc => by
    rw [isDigitIn, hrest.isNone base c hc]
    rfl
  rw [htext]
  simp only [scanPart, hdrop, htake, hread.1, hread.2, hunmarked, hmarked, hfront, hend]

/-- What `strtoll` returns, by the pieces of the text. -/
lemma strtoll_eq (start : List UInt8) (base : ℕ) : strtoll start base =
    if (scanPart base start).1.digits = [] then ⟨0, start, false⟩
    else if (scanPart base start).1.value base < Int64.minValue.toInt then
      ⟨Int64.minValue, (scanPart base start).2, true⟩
    else if Int64.maxValue.toInt < (scanPart base start).1.value base then
      ⟨Int64.maxValue, (scanPart base start).2, true⟩
    else ⟨.ofInt ((scanPart base start).1.value base), (scanPart base start).2, false⟩ := by
  have hvalue : (scanPart base start).1.value base = signedValue (readSign (start.dropWhile isSpace)).1
      (digitsValue base (readDigits base (dropHexMark base (readSign (start.dropWhile isSpace)).2)).1) := by
    rw [readDigits_eq, (readSign_eq _).2]
    rfl
  have hempty : (readDigits base (dropHexMark base (readSign (start.dropWhile isSpace)).2)).1.isEmpty = true ↔
      (scanPart base start).1.digits = [] := by
    rw [readDigits_eq, List.isEmpty_iff, List.filterMap_eq_nil_iff]
    constructor
    · intro h
      apply List.eq_nil_iff_forall_not_mem.2
      intro c hc
      have hdigit := List.mem_takeWhile_imp (p := isDigitIn base) hc
      rw [isDigitIn, h c hc] at hdigit
      cases hdigit
    · intro h c hc
      exact absurd (h ▸ hc : c ∈ []) List.not_mem_nil
  unfold strtoll
  rw [hvalue]
  simp only [hempty]
  rw [readDigits_eq]
  rfl

/-- `strtoll` has found the integer `x`; out of range it only says so. -/
structure Strtoll.Reads (r : Strtoll) (x : ℤ) (rest : List UInt8) : Prop where
  endptr : r.endptr = rest
  erange : r.erange = false ↔ InRange x
  value : InRange x → r.value.toInt = x

lemma reads_scanPart {base : ℕ} {start : List UInt8} (h : (scanPart base start).1.digits ≠ []) :
    (strtoll start base).Reads ((scanPart base start).1.value base) (scanPart base start).2 := by
  rw [strtoll_eq, if_neg h, Int64.toInt_minValue, Int64.toInt_maxValue]
  generalize (scanPart base start).1.value base = x
  split_ifs with hlow hhigh
  · exact ⟨rfl, by simp [InRange]; omega, fun hin => by rw [InRange] at hin; omega⟩
  · exact ⟨rfl, by simp [InRange]; omega, fun hin => by rw [InRange] at hin; omega⟩
  · exact ⟨rfl, by simp [InRange]; omega, fun hin => Int64.toInt_ofInt_of_le hin.1 hin.2⟩

/-- Before a delimiter an integer is read whole. -/
lemma strtoll_part {base : ℕ} {p : Part} (hp : p.Valid base) {rest : List UInt8} (hrest : Delimits rest) :
    (strtoll (p.text ++ rest) base).Reads (p.value base) rest := by
  have hscan := scanPart_text hp hrest
  have hne : (scanPart base (p.text ++ rest)).1.digits ≠ [] := by
    rw [hscan]
    exact hp.nonempty
  have hreads := reads_scanPart hne
  rwa [hscan] at hreads

/-- `strtoll` reads an integer, or does not move. -/
lemma strtoll_cases (start : List UInt8) (base : ℕ) :
    strtoll start base = ⟨0, start, false⟩ ∨ ∃ (p : Part) (rest : List UInt8), p.Valid base ∧
      start = p.text ++ rest ∧ (strtoll start base).Reads (p.value base) rest := by
  by_cases h : (scanPart base start).1.digits = []
  · left
    rw [strtoll_eq, if_pos h]
  · exact .inr ⟨_, _, scanPart_valid h, (scanPart_append base start).symm, reads_scanPart h⟩

lemma Part.Valid.text_ne_nil {base : ℕ} {p : Part} (hp : p.Valid base) : p.text ≠ [] := by
  intro h
  simp only [Part.text, List.append_eq_nil_iff] at h
  exact hp.nonempty h.2.2.2

/-- An integer holds no slash. -/
lemma Part.Valid.not_slash {base : ℕ} {p : Part} (hp : p.Valid base) : '/'.toUInt8 ∉ p.text := by
  simp only [Part.text, List.mem_append, not_or]
  refine ⟨?_, ?_, ?_, ?_⟩
  · intro hmem
    exact absurd (hp.spaces _ hmem) (by decide)
  · rcases hp.sign with h | h | h <;> · rw [h]; decide
  · rcases hp.mark with h | ⟨-, h | h⟩ <;> · rw [h]; decide
  · intro hmem
    exact (not_special (hp.digits _ hmem)).2.2.2.1 rfl

end Exact
