import Eshkol.Scheme.StringLibrary
import Eshkol.Scheme.StringRef

/-!
# Comma-separated values

Texts of rows of fields, and back. Writing quotes a field that has a comma, a quote or a line break
in it; reading cuts the text into lines first, and then each line into fields.
-/

namespace Csv

open Scheme

variable {δ : Type}

/-! ## Reading -/

/-- What is read for a field: the bytes of a string, or nothing for the empty list. -/
abbrev Value := Option (List ℕ)

/-- `csv-field-value`: a string that is empty up to its first zero byte is the empty list. -/
def csvFieldValue (str : List ℕ) : Value := if str.head?.getD 0 = 0 then none else some str

/-- `csv-split-fields-helper`, on what `string-ref` gives from the position on. -/
@[grind =]
def csvSplitFieldsHelper : Text → List ℕ → List Value → Bool → List Value
  | [], current, fields, _ => (csvFieldValue current :: fields).reverse
  | ch :: rest, current, fields, inQuotes =>
    if ch = '"' then
      if inQuotes then
        match rest with
        -- an escaped quote
        | '"' :: rest' => csvSplitFieldsHelper rest' (current ++ utf8 ['"']) fields true
        | rest => csvSplitFieldsHelper rest current fields false
      else csvSplitFieldsHelper rest current fields true
    else if ch = ',' && !inQuotes then
      csvSplitFieldsHelper rest [] (csvFieldValue current :: fields) false
    else csvSplitFieldsHelper rest (current ++ makeString1 ch.toNat) fields inQuotes

section

variable {rest : Text} {current : List ℕ} {fields : List Value}

lemma helper_open : csvSplitFieldsHelper ('"' :: rest) current fields false =
    csvSplitFieldsHelper rest current fields true := by
  rw [csvSplitFieldsHelper.eq_def]
  simp

lemma helper_escaped : csvSplitFieldsHelper ('"' :: '"' :: rest) current fields true =
    csvSplitFieldsHelper rest (current ++ utf8 ['"']) fields true := by
  simp [csvSplitFieldsHelper]

lemma helper_close (hrest : rest.head? ≠ some '"') :
    csvSplitFieldsHelper ('"' :: rest) current fields true =
      csvSplitFieldsHelper rest current fields false := by
  rw [csvSplitFieldsHelper, if_pos rfl, if_pos rfl]
  intro rest' h
  rw [h] at hrest
  exact hrest rfl

lemma helper_comma : csvSplitFieldsHelper (',' :: rest) current fields false =
    csvSplitFieldsHelper rest [] (csvFieldValue current :: fields) false := by
  rw [csvSplitFieldsHelper.eq_def]
  simp

lemma helper_char {ch : Char} {inQuotes : Bool} (hquote : ch ≠ '"')
    (hcomma : ch ≠ ',' ∨ inQuotes = true) :
    csvSplitFieldsHelper (ch :: rest) current fields inQuotes =
      csvSplitFieldsHelper rest (current ++ makeString1 ch.toNat) fields inQuotes := by
  have hseparator : (decide (ch = ',') && !inQuotes) = false := by
    obtain h | h := hcomma
    · simp [h]
    · simp [h]
  rw [csvSplitFieldsHelper.eq_def]
  simp only [hquote, hseparator, if_false, Bool.false_eq_true]

/-- The next field goes on from what was read of it. -/
lemma helper_fields (text : Text) (current : List ℕ) (fields : List Value) (inQuotes : Bool) :
    ∃ more values, csvSplitFieldsHelper text current fields inQuotes =
      fields.reverse ++ csvFieldValue (current ++ more) :: values := by
  fun_induction csvSplitFieldsHelper text current fields inQuotes with
  | case1 current fields => exact ⟨[], [], by simp⟩
  | case2 current fields rest ih =>
    obtain ⟨more, values, h⟩ := ih
    exact ⟨_, values, by rw [h, List.append_assoc]⟩
  | case3 _ _ _ _ ih => exact ih
  | case4 _ _ _ _ _ ih => exact ih
  | case5 ch rest current fields inQuotes _ _ ih =>
    obtain ⟨more, values, h⟩ := ih
    exact ⟨[], _, by rw [h, List.reverse_cons, List.append_assoc, List.append_nil]; rfl⟩
  | case6 ch rest current fields inQuotes _ _ ih =>
    obtain ⟨more, values, h⟩ := ih
    exact ⟨_, values, by rw [h, List.append_assoc]⟩

end

/-- `csv-split-fields`; `string=?` compares up to a zero byte. -/
def csvSplitFields (line : Text) : List Value :=
  if cString line = [] then [] else csvSplitFieldsHelper (seen line) [] [] false

/-- `csv-parse-line`. -/
def csvParseLine (line : Text) : List Value := csvSplitFields line

/-- `csv-parse-lines`. -/
def csvParseLines : List Text → List (List Value)
  | [] => []
  | line :: lines =>
    if cString line = [] then csvParseLines lines else csvParseLine line :: csvParseLines lines

/-- `csv-parse`. -/
def csvParse (str : Text) : List (List Value) := csvParseLines (stringSplit str ['\n'])

/-! ## Writing -/

/-- `csv-needs-quoting?`. -/
def csvNeedsQuoting (str : Text) : Bool :=
  stringContains str [','] || stringContains str ['"'] || stringContains str ['\n']

/-- `csv-escape-quotes`. -/
def csvEscapeQuotes (str : Text) : Text := stringReplace str ['"'] ['"', '"']

section

variable [DoubleText δ]

/-- The text of a field, where `number->string` gives one. -/
def fieldText : Datum δ → Option Text
  | .null => some []
  | .string s => some s
  | .integer i => some (integerText i)
  | .real x => some (DoubleText.format x)
  | _ => none

/-- `csv-escape-field`. -/
def csvEscapeField (field : Datum δ) : Option Text :=
  (fieldText field).map fun str =>
    if csvNeedsQuoting str then ['"'] ++ csvEscapeQuotes str ++ ['"'] else str

/-- `csv-stringify-row-helper`. -/
def csvStringifyRowHelper : List (Datum δ) → Bool → Option Text
  | [], _ => some []
  | value :: row, first => do
    let field ← csvEscapeField value
    let rest ← csvStringifyRowHelper row false
    return if first then field ++ rest else [','] ++ field ++ rest

/-- `csv-stringify-row`. -/
def csvStringifyRow (row : List (Datum δ)) : Option Text := csvStringifyRowHelper row true

/-- `csv-stringify-helper`. -/
def csvStringifyHelper : List (List (Datum δ)) → Bool → Option Text
  | [], _ => some []
  | row :: rows, first => do
    let rowStr ← csvStringifyRow row
    let rest ← csvStringifyHelper rows false
    return if first then rowStr ++ rest else ['\n'] ++ rowStr ++ rest

/-- `csv-stringify`. -/
def csvStringify (rows : List (List (Datum δ))) : Option Text := csvStringifyHelper rows true

end

end Csv
