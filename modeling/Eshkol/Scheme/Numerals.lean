import Eshkol.Scheme.Datum
import Mathlib.Data.List.TakeWhile

/-!
# Reading numbers

`string->number` in base ten, on texts without blanks, radix marks and the slash of a ratio.
-/

namespace Scheme

/-- A number that was read: an exact integer, or the text of an inexact number. -/
inductive Numeral where
  | exact (i : ℤ)
  | inexact (text : Text)
  deriving DecidableEq, Repr

/-- A text without the sign at its front. -/
def dropSign : Text → Text
  | [] => []
  | c :: t => if c = '-' ∨ c = '+' then t else c :: t

/-- What `strtoll`, and where that overflows the reader of bignums, makes of digits that a sign may
precede. -/
def readInteger (t : Text) : ℤ :=
  if t.head? = some '-' then -(Nat.ofDigitChars 10 (dropSign t) 0 : ℤ)
  else Nat.ofDigitChars 10 (dropSign t) 0

/-- A text without the exponent at its front. -/
def dropExponent : Text → Text
  | [] => []
  | c :: t =>
    if (c = 'e' ∨ c = 'E') ∧ (dropSign t).head?.any Char.isDigit then
      (dropSign t).dropWhile Char.isDigit
    else c :: t

/-- Where `strtod` stops, if it converts anything. -/
def strtodEnd (t : Text) : Option Text :=
  let body := dropSign t
  let rest := body.dropWhile Char.isDigit
  let fraction := if rest.head? = some '.' then rest.tail.takeWhile Char.isDigit else []
  let rest := if rest.head? = some '.' then rest.tail.dropWhile Char.isDigit else rest
  if body.takeWhile Char.isDigit = [] ∧ fraction = [] then none else some (dropExponent rest)

/-- `eshkol_s2n_decimal`. -/
def readNumeral (t : Text) : Option Numeral :=
  let body := dropSign t
  if ¬ body.head?.any fun c => c.isDigit ∨ c = '.' then none
  else
    match body.dropWhile Char.isDigit with
    | [] => some (.exact (readInteger t))
    | c :: _ =>
      if (c = '.' ∨ c = 'e' ∨ c = 'E') ∧ strtodEnd t = some [] then some (.inexact t) else none

/-- `string->number`. -/
def stringToNumber {δ : Type} [DoubleText δ] (t : Text) : Datum δ :=
  match readNumeral t with
  | some (.exact i) => .integer i
  | some (.inexact text) => .real (DoubleText.read text)
  | none => .boolean false

/-! ## The text of an integer -/

lemma isDigit_of_mem_toDigits {c : Char} {n : ℕ} (h : c ∈ Nat.toDigits 10 n) :
    c.isDigit = true :=
  Nat.isDigit_of_mem_toDigits (by omega) (by omega) h

lemma dropSign_of_isDigit {c : Char} {t : Text} (h : c.isDigit = true) :
    dropSign (c :: t) = c :: t := by
  rw [dropSign, if_neg]
  rintro (rfl | rfl)
  · cases h
  · cases h

/-- The digits of a number, the first apart. -/
lemma exists_toDigits_cons (n : ℕ) :
    ∃ c t, Nat.toDigits 10 n = c :: t ∧ c.isDigit = true := by
  obtain ⟨c, t, h⟩ := List.exists_cons_of_ne_nil (Nat.toDigits_ne_nil (n := n) (b := 10))
  exact ⟨c, t, h, isDigit_of_mem_toDigits (h ▸ List.mem_cons_self)⟩

lemma dropSign_toDigits (n : ℕ) : dropSign (Nat.toDigits 10 n) = Nat.toDigits 10 n := by
  obtain ⟨c, t, h, hc⟩ := exists_toDigits_cons n
  rw [h, dropSign_of_isDigit hc]

lemma dropSign_integerText (i : ℤ) : dropSign (integerText i) = Nat.toDigits 10 i.natAbs := by
  rw [integerText]
  split
  · rfl
  · exact dropSign_toDigits i.natAbs

lemma readInteger_integerText (i : ℤ) : readInteger (integerText i) = i := by
  rw [readInteger, dropSign_integerText, Nat.ofDigitChars_ten_toDigits]
  rw [integerText]
  by_cases hneg : i < 0
  · rw [if_pos hneg]
    simp only [List.head?_cons, if_true]
    omega
  · obtain ⟨c, t, h, hc⟩ := exists_toDigits_cons i.natAbs
    have hsign : c ≠ '-' := by
      rintro rfl
      cases hc
    rw [if_neg hneg, h, List.head?_cons, if_neg (by simpa using hsign)]
    omega

/-- An integer is read back from its text. -/
lemma readNumeral_integerText (i : ℤ) : readNumeral (integerText i) = some (.exact i) := by
  obtain ⟨c, t, h, hc⟩ := exists_toDigits_cons i.natAbs
  have hdigits : (Nat.toDigits 10 i.natAbs).dropWhile Char.isDigit = [] :=
    List.dropWhile_eq_nil_iff.2 fun _ => isDigit_of_mem_toDigits
  rw [readNumeral, dropSign_integerText, hdigits, readInteger_integerText, h]
  simp [hc]

lemma stringToNumber_integerText {δ : Type} [DoubleText δ] (i : ℤ) :
    stringToNumber (integerText i) = (.integer i : Datum δ) := by
  rw [stringToNumber, readNumeral_integerText]

end Scheme
