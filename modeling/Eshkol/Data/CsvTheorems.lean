import Eshkol.Data.Csv

/-!
# Rows that come back

A field comes back from a line if its characters are of one byte, but the text is cut into lines without
regard to quotes, and at the first zero byte: rows come back exactly when no field has another character,
a line break or a zero byte in it.
-/

namespace Csv

open Scheme

variable {δ : Type}

/-! ## Texts of strings -/

/-- The text of a string as a field. -/
def quoted (str : Text) : Text :=
  if csvNeedsQuoting str then ['"'] ++ csvEscapeQuotes str ++ ['"'] else str

/-- The text of a row of strings. -/
def rowText (row : List Text) : Text := [','].intercalate (row.map quoted)

lemma csvNeedsQuoting_iff (str : Text) :
    csvNeedsQuoting str = true ↔ ',' ∈ str ∨ '"' ∈ str ∨ '\n' ∈ str := by
  simp only [csvNeedsQuoting, Bool.or_eq_true, stringContains_char, or_assoc]

lemma intercalate_cons (sep s : Text) (rest : List Text) :
    sep.intercalate (s :: rest) = s ++ rest.flatMap (sep ++ ·) := by
  induction rest generalizing s with
  | nil => simp
  | cons t rest ih => simp [List.intercalate_cons_cons, ih]

section

variable [DoubleText δ]

lemma csvEscapeField_string (str : Text) :
    csvEscapeField (.string str : Datum δ) = some (quoted str) := rfl

lemma csvStringifyRowHelper_rest (row : List Text) :
    csvStringifyRowHelper (row.map fun s => (.string s : Datum δ)) false =
      some ((row.map quoted).flatMap ([','] ++ ·)) := by
  induction row with
  | nil => rfl
  | cons str row ih =>
    rw [List.map_cons, csvStringifyRowHelper, ih, csvEscapeField_string]
    simp

lemma csvStringifyRow_strings (row : List Text) :
    csvStringifyRow (row.map fun s => (.string s : Datum δ)) = some (rowText row) := by
  cases row with
  | nil => rfl
  | cons str row =>
    rw [csvStringifyRow, List.map_cons, csvStringifyRowHelper, csvStringifyRowHelper_rest,
      csvEscapeField_string, rowText, List.map_cons, intercalate_cons]
    rfl

lemma csvStringifyHelper_rest (rows : List (List Text)) :
    csvStringifyHelper (rows.map fun row => row.map fun s => (.string s : Datum δ)) false =
      some ((rows.map rowText).flatMap (['\n'] ++ ·)) := by
  induction rows with
  | nil => rfl
  | cons row rows ih =>
    rw [List.map_cons, csvStringifyHelper, ih, csvStringifyRow_strings]
    simp

lemma csvStringify_strings (rows : List (List Text)) :
    csvStringify (rows.map fun row => row.map fun s => (.string s : Datum δ)) =
      some (['\n'].intercalate (rows.map rowText)) := by
  cases rows with
  | nil => rfl
  | cons row rows =>
    rw [csvStringify, List.map_cons, csvStringifyHelper, csvStringifyHelper_rest,
      csvStringifyRow_strings, List.map_cons, intercalate_cons]
    rfl

end

/-! ## A field is read -/

/-- Characters that come back: of one byte, not zero and no line break. -/
abbrev Plain (c : Char) : Prop := 0 < c.toNat ∧ c.toNat < 128 ∧ c ≠ '\n'

/-- Characters at which a text is not cut. -/
def stays (c : Char) : Bool := c ≠ '\x00' ∧ c ≠ '\n'

lemma Plain.isWide {c : Char} (h : Plain c) : isWide c = false := by simp [Scheme.isWide, h.2.1]

lemma Plain.stays {c : Char} (h : Plain c) : stays c = true := by
  refine decide_eq_true ⟨?_, h.2.2⟩
  rintro rfl
  exact absurd h.1 (by decide)

lemma cString_plain {str : Text} (h : ∀ c ∈ str, Plain c) : cString str = str :=
  cString_eq_self fun hmem => absurd (h _ hmem).1 (by decide)

/-- What `make-string` writes for the characters of a text. -/
def lowBytes (s : Text) : List ℕ := s.flatMap fun c => makeString1 c.toNat

lemma lowBytes_eq {s : Text} (h : ∀ c ∈ s, Plain c) : lowBytes s = utf8 s := by
  refine List.flatMap_congr fun c hc => ?_
  obtain ⟨-, hcode, -⟩ := h c hc
  rw [utf8Char, (h c hc).isWide, makeString1, Nat.mod_eq_of_lt (by omega)]
  rfl

/-- The quotes of a text doubled. -/
def doubled (str : Text) : Text := str.flatMap fun c => if c = '"' then ['"', '"'] else [c]

lemma csvEscapeQuotes_eq (str : Text) : csvEscapeQuotes str = doubled (cString str) :=
  stringReplace_char str (by decide) ['"', '"']

lemma plain_doubled {str : Text} (h : ∀ c ∈ str, Plain c) : ∀ c ∈ doubled str, Plain c := by
  intro c hc
  obtain ⟨d, hd, hc⟩ := List.mem_flatMap.1 hc
  split at hc
  · simp only [List.mem_cons, List.not_mem_nil, or_false, or_self] at hc
    rw [hc]
    decide
  · rw [List.mem_singleton.1 hc]
    exact h d hd

/-- Characters that are not special are added to the field. -/
lemma helper_plain {str : Text} (hcomma : ',' ∉ str) (hquote : '"' ∉ str) (rest : Text)
    (current : List ℕ) (fields : List Value) :
    csvSplitFieldsHelper (str ++ rest) current fields false =
      csvSplitFieldsHelper rest (current ++ lowBytes str) fields false := by
  induction str generalizing current with
  | nil => simp [lowBytes]
  | cons c str ih =>
    have hc : c ≠ '"' := fun h => hquote (h ▸ List.mem_cons_self)
    have hc' : c ≠ ',' := fun h => hcomma (h ▸ List.mem_cons_self)
    rw [List.cons_append, helper_char hc (.inl hc'),
      ih (fun h => hcomma (List.mem_cons_of_mem _ h)) (fun h => hquote (List.mem_cons_of_mem _ h)),
      List.append_assoc]
    rfl

/-- Between quotes everything is added to the field. -/
lemma helper_doubled (str rest : Text) (current : List ℕ) (fields : List Value) :
    csvSplitFieldsHelper (doubled str ++ rest) current fields true =
      csvSplitFieldsHelper rest (current ++ lowBytes str) fields true := by
  induction str generalizing current with
  | nil => simp [lowBytes, doubled]
  | cons c str ih =>
    rw [doubled, List.flatMap_cons, ← doubled]
    by_cases hc : c = '"'
    · subst hc
      rw [if_pos rfl, List.append_assoc, List.cons_append, List.cons_append, List.nil_append,
        helper_escaped, ih, List.append_assoc]
      rfl
    · rw [if_neg hc, List.append_assoc, List.singleton_append, helper_char hc (.inr rfl), ih,
        List.append_assoc]
      rfl

/-- The front of a text as it stands in a field, after a quote or not. -/
def opened (needs : Bool) (front : Text) : Text := if needs then '"' :: doubled front else front

lemma plain_opened {needs : Bool} {front : Text} (h : ∀ c ∈ front, Plain c) :
    ∀ c ∈ opened needs front, Plain c := by
  cases needs with
  | true => exact List.forall_mem_cons.2 ⟨by decide, plain_doubled h⟩
  | false => exact h

/-- What is read of a line until it breaks off from a front of a field. -/
lemma helper_opened {str front : Text} (hfront : front <+: str) (h : ∀ c ∈ front, Plain c) (rest : Text)
    (fields : List Value) :
    csvSplitFieldsHelper (seen ((opened (csvNeedsQuoting str) front ++ rest).takeWhile stays)) [] fields
        false =
      csvSplitFieldsHelper (seen (rest.takeWhile stays)) (utf8 front) fields (csvNeedsQuoting str) := by
  rw [List.takeWhile_append_of_pos fun c hc => (plain_opened h c hc).stays,
    seen_append fun c hc => (plain_opened h c hc).isWide, ← lowBytes_eq h]
  cases hneeds : csvNeedsQuoting str with
  | true => rw [opened, if_pos rfl, List.cons_append, helper_open, helper_doubled, List.nil_append]
  | false =>
    have hplain := csvNeedsQuoting_iff str
    rw [hneeds] at hplain
    simp only [Bool.false_eq_true, false_iff, not_or] at hplain
    rw [opened, if_neg (by decide), helper_plain (fun h => hplain.1 (hfront.subset h))
      (fun h => hplain.2.1 (hfront.subset h)), List.nil_append]

/-- What may come after a field: a comma, a line break or nothing. -/
def Ends (rest : Text) : Prop := ∀ c, rest.head? = some c → c = ',' ∨ c = '\n'

/-- A quote is closed before the end of a field. -/
lemma helper_closed {rest : Text} (hrest : Ends rest) (current : List ℕ) (fields : List Value) :
    csvSplitFieldsHelper (seen (('"' :: rest).takeWhile stays)) current fields true =
      csvSplitFieldsHelper (seen (rest.takeWhile stays)) current fields false := by
  rw [List.takeWhile_cons_of_pos (by decide), ← List.singleton_append, seen_append (by decide),
    List.singleton_append]
  refine helper_close ?_
  cases rest with
  | nil => simp [seen, seenFrom]
  | cons c rest => obtain rfl | rfl := hrest c rfl <;> simp [seen, seenFrom, stays]

/-- A field ends with what was read of it. -/
lemma helper_end {rest : Text} (hrest : Ends rest) (current : List ℕ) (fields : List Value) :
    ∃ values, csvSplitFieldsHelper (seen (rest.takeWhile stays)) current fields false =
      fields.reverse ++ csvFieldValue current :: values := by
  cases rest with
  | nil => exact ⟨[], by simp [seen, seenFrom, csvSplitFieldsHelper]⟩
  | cons c rest =>
    obtain rfl | rfl := hrest c rfl
    · rw [List.takeWhile_cons_of_pos (by decide), ← List.singleton_append, seen_append (by decide),
        List.singleton_append, helper_comma]
      obtain ⟨more, values, h⟩ :=
        helper_fields (seen (rest.takeWhile stays)) [] (csvFieldValue current :: fields) false
      exact ⟨_, by rw [h, List.reverse_cons, List.append_assoc, List.singleton_append]⟩
    · rw [List.takeWhile_cons_of_neg (by decide)]
      exact ⟨[], by simp [seen, seenFrom, csvSplitFieldsHelper]⟩

/-! ## A field that comes back -/

/-- The value of a field of a row. -/
def fieldValue (str : Text) : Value := if str = [] then none else some (utf8 str)

lemma csvFieldValue_utf8 {str : Text} (h : ∀ c ∈ str, Plain c) :
    csvFieldValue (utf8 str) = fieldValue str := by
  cases str with
  | nil => rfl
  | cons c str =>
    have hc := h c List.mem_cons_self
    rw [fieldValue, if_neg (List.cons_ne_nil c str), csvFieldValue, utf8, List.flatMap_cons, utf8Char,
      hc.isWide]
    exact if_neg hc.1.ne'

lemma quoted_eq {str : Text} (h : ∀ c ∈ str, Plain c) :
    quoted str = opened (csvNeedsQuoting str) str ++ if csvNeedsQuoting str then ['"'] else [] := by
  rw [quoted, opened, csvEscapeQuotes_eq, cString_plain h]
  split <;> simp

lemma plain_quoted {str : Text} (h : ∀ c ∈ str, Plain c) : ∀ c ∈ quoted str, Plain c := by
  have hclose : ∀ c ∈ (if csvNeedsQuoting str then ['"'] else [] : Text), Plain c := by
    split <;> decide
  rw [quoted_eq h]
  intro c hc
  exact (List.mem_append.1 hc).elim (plain_opened h c) (hclose c)

lemma helper_quoted {str : Text} (h : ∀ c ∈ str, Plain c) {rest : Text} (hrest : Ends rest)
    (fields : List Value) :
    csvSplitFieldsHelper (seen ((quoted str ++ rest).takeWhile stays)) [] fields false =
      csvSplitFieldsHelper (seen (rest.takeWhile stays)) (utf8 str) fields false := by
  rw [quoted_eq h, List.append_assoc, helper_opened (List.prefix_refl str) h]
  cases csvNeedsQuoting str with
  | true => exact helper_closed hrest _ _
  | false => rfl

/-! ## A field with another character -/

lemma exists_first {α : Type} {p : α → Prop} {l : List α} (h : ¬ ∀ x ∈ l, p x) :
    ∃ l₁ x l₂, l = l₁ ++ x :: l₂ ∧ (∀ y ∈ l₁, p y) ∧ ¬ p x := by
  induction l with
  | nil => simp at h
  | cons a l ih =>
    by_cases ha : p a
    · obtain ⟨l₁, x, l₂, rfl, hl₁, hx⟩ := ih fun hall => h (List.forall_mem_cons.2 ⟨ha, hall⟩)
      exact ⟨a :: l₁, x, l₂, rfl, List.forall_mem_cons.2 ⟨ha, hl₁⟩, hx⟩
    · exact ⟨[], a, l, rfl, by simp, ha⟩

/-- A text with a zero byte in quotes ends there; otherwise the character itself comes next. -/
lemma quoted_of_front {front : Text} {c : Char} (hfront : ∀ d ∈ front, Plain d) (hc : ¬ Plain c)
    (more rest : Text) : ∃ next, quoted (front ++ c :: more) ++ rest =
      opened (csvNeedsQuoting (front ++ c :: more)) front ++ next ∧
        (next = '"' :: rest ∧ csvNeedsQuoting (front ++ c :: more) = true ∨ ∃ t, next = c :: t) := by
  have hquote : c ≠ '"' := by
    rintro rfl
    exact hc (by decide)
  have hcut : cString (front ++ c :: more) = front ++ if c = '\x00' then [] else c :: cString more := by
    rw [cString, List.takeWhile_append_of_pos fun d hd => by simpa using (of_decide_eq_true (hfront d hd).stays).1,
      List.takeWhile_cons, ← cString]
    by_cases hzero : c = '\x00' <;> simp [hzero]
  cases hneeds : csvNeedsQuoting (front ++ c :: more) with
  | true =>
    rw [quoted, if_pos hneeds, csvEscapeQuotes_eq, hcut]
    split
    · exact ⟨'"' :: rest, by simp [opened], .inl ⟨rfl, rfl⟩⟩
    · exact ⟨c :: (doubled (cString more) ++ '"' :: rest), by simp [opened, doubled, hquote], .inr ⟨_, rfl⟩⟩
  | false =>
    rw [quoted, if_neg (by simp [hneeds])]
    exact ⟨c :: (more ++ rest), by simp [opened], .inr ⟨_, rfl⟩⟩

/-- The value of a front is not the one of the text. -/
lemma csvFieldValue_front_ne (front more : Text) (c : Char) :
    csvFieldValue (utf8 front) ≠ some (utf8 (front ++ c :: more)) := by
  have hlength := (@length_utf8_eq_iff (c :: more)).1
  rw [csvFieldValue]
  split
  · simp
  · intro h
    have hbytes := congrArg List.length (Option.some.inj h)
    rw [utf8, utf8, List.flatMap_append, List.length_append, ← utf8, ← utf8] at hbytes
    rw [List.length_cons] at hlength
    omega

/-- A character of several bytes does not come back: it is cut to a byte, and the next one is read as
U+FFFD. -/
lemma helper_wide_ne {front more after : Text} {c : Char} (hwide : isWide c = true)
    (fields : List Value) (inQuotes : Bool) : ∃ value values,
      csvSplitFieldsHelper (c :: seenFrom true after) (utf8 front) fields inQuotes =
        fields.reverse ++ value :: values ∧ value ≠ some (utf8 (front ++ c :: more)) := by
  have hspecial : c ≠ '"' ∧ c ≠ ',' := by
    constructor
    · rintro rfl
      exact absurd hwide (by decide)
    · rintro rfl
      exact absurd hwide (by decide)
  obtain ⟨b, b₂, others, hbytes, -, -, hothers, -⟩ :=
    wideBytes_eq_cons (of_decide_eq_true hwide) (toNat_lt c)
  have hexpected : utf8 (front ++ c :: more) = utf8 front ++ b :: b₂ :: (others ++ utf8 more) := by
    simp [utf8, utf8Char, hwide, hbytes]
  have hb₂ := hothers b₂ List.mem_cons_self
  have hfd : '\uFFFD'.toNat % 256 = 253 := by decide
  -- one byte where two are expected, or 253 in the place of the second
  have hne {tail : List ℕ} (htail : tail = [] ∨ ∃ t, tail = 253 :: t) :
      csvFieldValue (utf8 front ++ makeString1 c.toNat ++ tail) ≠
        some (utf8 front ++ b :: b₂ :: (others ++ utf8 more)) := by
    rw [csvFieldValue]
    split
    · simp
    · intro h
      have hvalue := Option.some.inj h
      rw [List.append_assoc, List.append_cancel_left_eq] at hvalue
      have hrest := (List.cons.inj hvalue).2
      obtain rfl | ⟨t, rfl⟩ := htail
      · cases hrest
      · have := (List.cons.inj hrest).1
        omega
  rw [helper_char hspecial.1 (.inl hspecial.2), hexpected]
  cases after with
  | nil =>
    refine ⟨_, [], by simp [seenFrom, csvSplitFieldsHelper]; rfl, ?_⟩
    simpa using hne (.inl rfl)
  | cons d after =>
    rw [seenFrom, if_pos rfl, helper_char (by decide) (.inl (by decide))]
    obtain ⟨x, values, h⟩ := helper_fields (seenFrom (isWide d) after)
      (utf8 front ++ makeString1 c.toNat ++ makeString1 '\uFFFD'.toNat) fields inQuotes
    refine ⟨_, values, h, ?_⟩
    rw [makeString1, makeString1, hfd, List.append_assoc]
    exact hne (.inr ⟨x, rfl⟩)

/-- A field with another character is read as another value. -/
lemma helper_lost {str : Text} (hstr : ¬ ∀ c ∈ str, Plain c) {rest : Text} (hrest : Ends rest)
    (fields : List Value) : ∃ value values,
      csvSplitFieldsHelper (seen ((quoted str ++ rest).takeWhile stays)) [] fields false =
        fields.reverse ++ value :: values ∧ value ≠ fieldValue str := by
  obtain ⟨front, c, more, rfl, hfront, hc⟩ := exists_first hstr
  have hvalue : fieldValue (front ++ c :: more) = some (utf8 (front ++ c :: more)) := if_neg (by simp)
  have hfront_ne := csvFieldValue_front_ne front more c
  obtain ⟨next, hnext, hcase⟩ := quoted_of_front hfront hc more rest
  rw [hnext, helper_opened ⟨c :: more, rfl⟩ hfront, hvalue]
  obtain ⟨rfl, hneeds⟩ | ⟨t, rfl⟩ := hcase
  · rw [hneeds, helper_closed hrest]
    obtain ⟨values, h⟩ := helper_end hrest (utf8 front) fields
    exact ⟨_, values, h, hfront_ne⟩
  · cases hstays : stays c with
    | false =>
      rw [List.takeWhile_cons_of_neg (by simp [hstays])]
      exact ⟨_, [], by simp [seen, seenFrom, csvSplitFieldsHelper], hfront_ne⟩
    | true =>
      have hwide : isWide c = true := by
        have hkept : c ≠ '\x00' ∧ c ≠ '\n' := of_decide_eq_true hstays
        have hpos : 0 < c.toNat := Nat.pos_of_ne_zero fun h => hkept.1 (Char.toNat_inj.1 h)
        by_contra hnarrow
        exact hc ⟨hpos, by simpa [Scheme.isWide] using hnarrow, hkept.2⟩
      rw [List.takeWhile_cons_of_pos hstays, seen, seenFrom, hwide]
      exact helper_wide_ne hwide fields _

/-! ## Rows -/

/-- A row that ends a line comes back exactly when its fields have no other characters. -/
lemma helper_row_iff {row : List Text} (hrow : row ≠ []) {rest : Text}
    (hrest : rest.head? = none ∨ rest.head? = some '\n') (fields : List Value) :
    csvSplitFieldsHelper (seen ((rowText row ++ rest).takeWhile stays)) [] fields false =
        fields.reverse ++ row.map fieldValue ↔ ∀ str ∈ row, ∀ c ∈ str, Plain c := by
  induction row generalizing fields with
  | nil => exact absurd rfl hrow
  | cons str row ih =>
    have hnext : ∃ next, rowText (str :: row) ++ rest = quoted str ++ next ∧ Ends next ∧
        (row = [] ∧ next.takeWhile stays = [] ∨ row ≠ [] ∧ next = ',' :: (rowText row ++ rest)) := by
      cases row with
      | nil =>
        refine ⟨rest, by simp [rowText], fun c hc => ?_, .inl ⟨rfl, ?_⟩⟩
        · obtain h | h := hrest
          · rw [h] at hc
            cases hc
          · exact .inr (Option.some.inj (hc.symm.trans h))
        · obtain h | h := hrest
          · rw [List.head?_eq_none_iff.1 h, List.takeWhile_nil]
          · obtain ⟨t, rfl⟩ := List.head?_eq_some_iff.1 h
            rw [List.takeWhile_cons_of_neg (by decide)]
      | cons other row =>
        refine ⟨',' :: (rowText (other :: row) ++ rest), ?_, fun c hc => .inl (Option.some.inj hc).symm,
          .inr ⟨List.cons_ne_nil _ _, rfl⟩⟩
        simp [rowText, List.intercalate_cons_cons]
    obtain ⟨next, heq, hends, hcase⟩ := hnext
    rw [heq, List.forall_mem_cons]
    by_cases hstr : ∀ c ∈ str, Plain c
    · rw [helper_quoted hstr hends, List.map_cons, ← csvFieldValue_utf8 hstr]
      obtain ⟨rfl, hnil⟩ | ⟨hne, rfl⟩ := hcase
      · rw [hnil]
        simpa [seen, seenFrom, csvSplitFieldsHelper] using hstr
      · rw [List.takeWhile_cons_of_pos (by decide), ← List.singleton_append, seen_append (by decide),
          List.singleton_append, helper_comma, and_iff_right hstr, ← ih hne (csvFieldValue (utf8 str) :: fields),
          List.reverse_cons, List.append_assoc, List.singleton_append]
    · obtain ⟨value, values, h, hne⟩ := helper_lost hstr hends fields
      rw [h, List.map_cons, List.append_cancel_left_eq, List.cons.injEq]
      exact iff_of_false (fun heq => hne heq.1) fun hall => hstr hall.1

/-- The text of a row is empty only where the row has nothing to show. -/
lemma rowText_ne_nil {row : List Text} (hrow : row ≠ []) (hempty : row ≠ [[]]) :
    rowText row ≠ [] := by
  intro h
  cases row with
  | nil => exact hrow rfl
  | cons str row =>
    cases row with
    | nil =>
      rw [rowText, List.map_singleton, List.intercalate_singleton, quoted] at h
      split at h
      · simp at h
      · exact hempty (by rw [h])
    | cons next row =>
      rw [rowText, List.map_cons, List.map_cons, List.intercalate_cons_cons] at h
      simp at h

lemma plain_rowText {row : List Text} (h : ∀ str ∈ row, ∀ c ∈ str, Plain c) :
    ∀ c ∈ rowText row, Plain c := by
  cases row with
  | nil => simp [rowText]
  | cons str row =>
    rw [rowText, List.map_cons, intercalate_cons]
    intro c hc
    obtain hc | hc := List.mem_append.1 hc
    · exact plain_quoted (h str List.mem_cons_self) c hc
    · obtain ⟨text, htext, hc⟩ := List.mem_flatMap.1 hc
      obtain ⟨other, hother, rfl⟩ := List.mem_map.1 htext
      obtain hc | hc := List.mem_append.1 hc
      · rw [List.mem_singleton.1 hc]
        decide
      · exact plain_quoted (h other (List.mem_cons_of_mem _ hother)) c hc

/-- The first line of a text that is split. -/
lemma splitOn_eq_cons (d : Char) (s : Text) : ∃ rest, s.splitOn d = s.takeWhile (· ≠ d) :: rest := by
  induction s with
  | nil => exact ⟨[], by simp⟩
  | cons c s ih =>
    obtain ⟨rest, h⟩ := ih
    rw [List.splitOn_cons_eq_if_modifyHead, h]
    by_cases hc : c = d
    · exact ⟨_, by rw [if_pos (by simpa using hc), List.takeWhile_cons_of_neg (by simpa using hc)]⟩
    · exact ⟨rest, by
        rw [if_neg (by simpa using hc), List.takeWhile_cons_of_pos (by simpa using hc),
          List.modifyHead_cons]⟩

lemma csvParse_eq (text : Text) :
    csvParse text = csvParseLines ((cString text).splitOn '\n') := by
  rw [csvParse, stringSplit_char text (by decide)]

lemma csvParse_first (text : Text) :
    ∃ lines, csvParse text = csvParseLines (text.takeWhile stays :: lines) := by
  obtain ⟨rest, h⟩ := splitOn_eq_cons '\n' (cString text)
  refine ⟨rest, ?_⟩
  rw [csvParse_eq, h, cString, List.takeWhile_takeWhile]
  congr 3
  funext c
  simp [stays, and_comm]

lemma csvParse_line {line : Text} (h : ∀ c ∈ line, Plain c) (rest : Text) :
    csvParse (line ++ '\n' :: rest) = csvParseLines [line] ++ csvParse rest := by
  have hnot : '\n' ∉ line := fun hmem => (h _ hmem).2.2 rfl
  have hcut : cString (line ++ '\n' :: rest) = line ++ '\n' :: cString rest := by
    rw [cString, List.takeWhile_append_of_pos fun c hc => by simpa using (of_decide_eq_true (h c hc).stays).1,
      List.takeWhile_cons_of_pos (by decide), ← cString]
  rw [csvParse_eq, csvParse_eq, hcut, List.splitOn_append_cons_self_of_not_mem hnot, csvParseLines,
    csvParseLines, csvParseLines]
  split <;> rfl

/-- No row begins with a line break: a field that does is quoted. -/
lemma head_rowText_ne {row : List Text} (hrow : row ≠ []) (hempty : row ≠ [[]]) (rest : Text) :
    (rowText row ++ rest).head? ≠ some '\n' := by
  cases row with
  | nil => exact absurd rfl hrow
  | cons str row =>
    rw [rowText, List.map_cons, intercalate_cons, quoted]
    cases hneeds : csvNeedsQuoting str with
    | true => simp
    | false =>
      have hplain := csvNeedsQuoting_iff str
      rw [hneeds] at hplain
      simp only [Bool.false_eq_true, false_iff, not_or] at hplain
      cases str with
      | nil =>
        cases row with
        | nil => exact absurd rfl hempty
        | cons other row => simp
      | cons c str =>
        have hc : c ≠ '\n' := fun h => hplain.2.2 (h ▸ List.mem_cons_self)
        simpa using hc

/-- The rows of a text come back exactly when their fields have no other characters. -/
lemma csvParse_rows_iff {rows : List (List Text)} (hrows : ∀ row ∈ rows, row ≠ [] ∧ row ≠ [[]]) :
    csvParse (['\n'].intercalate (rows.map rowText)) = rows.map (fun row => row.map fieldValue) ↔
      ∀ row ∈ rows, ∀ str ∈ row, ∀ c ∈ str, Plain c := by
  induction rows with
  | nil => simp [csvParse, stringSplit, stringSplitLoop, csvParseLines, cString]
  | cons row rows ih =>
    obtain ⟨⟨hrow, hempty⟩, hrest⟩ := List.forall_mem_cons.1 hrows
    have hnext : ∃ next, ['\n'].intercalate ((row :: rows).map rowText) = rowText row ++ next ∧
        (rows = [] ∧ next = [] ∨ rows ≠ [] ∧ next = '\n' :: ['\n'].intercalate (rows.map rowText)) := by
      cases rows with
      | nil => exact ⟨[], by simp, .inl ⟨rfl, rfl⟩⟩
      | cons other rows =>
        exact ⟨_, by simp [List.intercalate_cons_cons], .inr ⟨List.cons_ne_nil _ _, rfl⟩⟩
    obtain ⟨next, heq, hcase⟩ := hnext
    have hhead : next.head? = none ∨ next.head? = some '\n' := by
      obtain ⟨-, rfl⟩ | ⟨-, rfl⟩ := hcase
      · exact .inl rfl
      · exact .inr rfl
    have hiff := helper_row_iff hrow hhead []
    rw [heq, List.forall_mem_cons, List.map_cons]
    by_cases hgood : ∀ str ∈ row, ∀ c ∈ str, Plain c
    · have hplain := plain_rowText hgood
      have hline : csvParseLines [rowText row] = [row.map fieldValue] := by
        have htake : (rowText row ++ next).takeWhile stays = rowText row := by
          rw [List.takeWhile_append_of_pos fun c hc => (hplain c hc).stays]
          obtain ⟨-, rfl⟩ | ⟨-, rfl⟩ := hcase
          · simp
          · rw [List.takeWhile_cons_of_neg (by decide), List.append_nil]
        rw [htake, iff_true_right hgood] at hiff
        rw [csvParseLines, csvParseLine, csvSplitFields, cString_plain hplain,
          if_neg (rowText_ne_nil hrow hempty), if_neg (rowText_ne_nil hrow hempty), hiff, csvParseLines]
        rfl
      obtain ⟨rfl, rfl⟩ | ⟨-, rfl⟩ := hcase
      · have hnot : '\n' ∉ rowText row := fun hmem => (hplain _ hmem).2.2 rfl
        rw [List.append_nil, csvParse_eq, cString_plain hplain, List.splitOn_eq_singleton hnot, hline]
        simpa using hgood
      · rw [csvParse_line hplain, hline, List.singleton_append, List.cons.injEq, eq_self, true_and, ih hrest,
          and_iff_right hgood]
    · refine iff_of_false (fun hback => ?_) fun hall => hgood hall.1
      have hne : rowText row ++ next ≠ [] := by simp [rowText_ne_nil hrow hempty]
      obtain ⟨c, t, htext⟩ := List.exists_cons_of_ne_nil hne
      by_cases hzero : c = '\x00'
      · -- the text ends before it begins
        rw [csvParse_eq, htext, hzero, cString, List.takeWhile_cons_of_neg (by decide)] at hback
        simp [csvParseLines, cString] at hback
      · have hbreak := head_rowText_ne hrow hempty next
        rw [htext, List.head?_cons] at hbreak
        have hstays : stays c = true := decide_eq_true ⟨hzero, fun h => hbreak (by rw [h])⟩
        have hline : cString ((rowText row ++ next).takeWhile stays) ≠ [] := by
          rw [htext, List.takeWhile_cons_of_pos hstays, cString,
            List.takeWhile_cons_of_pos (by simpa using hzero)]
          exact List.cons_ne_nil _ _
        obtain ⟨lines, hlines⟩ := csvParse_first (rowText row ++ next)
        rw [hlines, csvParseLines, if_neg hline, List.cons.injEq, csvParseLine, csvSplitFields,
          if_neg hline] at hback
        exact hgood (hiff.1 hback.1)

/-- Rows of strings come back exactly when their characters are of one byte, not zero and no line
break. -/
theorem csv_round_trip [DoubleText δ] (rows : List (List Text))
    (hrows : ∀ row ∈ rows, row ≠ [] ∧ row ≠ [[]]) :
    (csvStringify (rows.map fun row => row.map fun s => (.string s : Datum δ))).map csvParse =
        some (rows.map fun row => row.map fieldValue) ↔
      ∀ row ∈ rows, ∀ str ∈ row, ∀ c ∈ str, 0 < c.toNat ∧ c.toNat < 128 ∧ c ≠ '\n' := by
  rw [csvStringify_strings, Option.map_some, Option.some_inj]
  exact csvParse_rows_iff hrows

theorem csv_round_trip_quotes :
    (csvStringify [[(.string ['"', ',', 'a'] : Datum WrittenDouble), .string []]]).map csvParse =
      some [[some (utf8 ['"', ',', 'a']), none]] :=
  (csv_round_trip [[['"', ',', 'a'], []]] (by simp)).2 (by decide)

/-- A quoted line break ends the row: one row of one field comes back as two rows. An accented letter
comes back as a byte, and takes the comma after it along. -/
theorem line_break_splits_row :
    (csvStringify [[(.string ['a', '\n', 'b'] : Datum WrittenDouble)]]).map csvParse =
        some [[some (utf8 ['a'])], [some (utf8 ['b'])]] ∧
      (csvStringify [[(.string ['a', '\n', 'b'] : Datum WrittenDouble)]]).map csvParse ≠
        some [[some (utf8 ['a', '\n', 'b'])]] ∧
      (csvStringify [[(.string ['é'] : Datum WrittenDouble), .string ['b']]]).map csvParse =
        some [[some [0xE9, 0xFD, 0x62]]] := by
  decide

end Csv
