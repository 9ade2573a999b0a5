import Eshkol.Exact.NumberReader
import Eshkol.Exact.NumberRoundTrip

/-!
# `string->number` and its grammar

The decimal reader, and with it every text that is read as an exact number, for each radix. The
texts that are read are compared with the texts of the grammar.
-/

namespace Exact

variable {D : Type} [Doubles D]

/-! ## Decimal numbers -/

section decimal

variable {p : Part} (hp : p.Valid 10) (hspaces : p.spaces = [])
include hp

lemma mark_ten : p.mark = [] := by
  rcases hp.mark with h | ⟨h, -⟩
  · exact h
  · omega

include hspaces

lemma readSign_part (rest : List UInt8) :
    readSign (p.text ++ rest) = (p.sign == ['-'.toUInt8], p.digits ++ rest) := by
  obtain ⟨c, cs, hdigits⟩ := List.exists_cons_of_ne_nil hp.nonempty
  have htext : p.text ++ rest = p.sign ++ (p.digits ++ rest) := by
    simp only [Part.text, hspaces, mark_ten hp, List.nil_append, List.append_assoc]
  have hc := not_special (hp.digits c (by rw [hdigits]; simp))
  rw [htext]
  rcases hp.sign with h | h | h
  · rw [h, List.nil_append, hdigits, List.cons_append]
    simp [readSign, hc.2.1, hc.2.2]
  · rw [h]
    rfl
  · rw [h]
    rfl

lemma startsDecimal_part (rest : List UInt8) : StartsDecimal (p.text ++ rest) := by
  obtain ⟨c, cs, hdigits⟩ := List.exists_cons_of_ne_nil hp.nonempty
  have hc := hp.digits c (by rw [hdigits]; simp)
  refine ⟨c, cs ++ rest, ?_, ?_⟩
  · rw [readSign_part hp hspaces, hdigits]
    rfl
  · rw [(isDigit_iff c).2 (Option.isSome_iff_exists.1 hc)]
    rfl

/-- An integer of any size is read. -/
lemma value_decimalInteger : value (s2nDecimal (D := D) p.text) = some (p.value 10 : ℚ) := by
  have hsign := readSign_part hp hspaces []
  have hreads := strtoll_part hp delimits_nil
  have hstarts := startsDecimal_part hp hspaces []
  have hmapM : p.digits.mapM (digitOf 10) = some (p.digits.filterMap (digitOf 10)) :=
    mapM_digitOf.2 ⟨hp.digits, rfl⟩
  rw [List.append_nil] at hsign hreads hstarts
  rw [List.append_nil] at hsign
  rw [s2nDecimal_eq hstarts, hsign, scanDecimal_digits hmapM]
  have hmoved : (([] : List UInt8) != p.text) = true := by
    rw [bne_iff_ne]
    exact hp.text_ne_nil.symm
  unfold s2nLiteral
  simp only [hreads.endptr, List.dropWhile_nil, hmoved, List.isEmpty_nil, Bool.and_true]
  cases herange : (strtoll p.text 10).erange with
  | false =>
    simp only [Bool.not_false, if_true]
    show some (((strtoll p.text 10).value.toInt : ℤ) : ℚ) = _
    rw [hreads.value (hreads.erange.1 herange)]
  | true =>
    have hdigits : (readSign p.text).2.mapM (digitOf 10) = some (p.digits.filterMap (digitOf 10)) := by
      rw [hsign]
      exact hmapM
    have hne : (readSign p.text).2 ≠ [] := by
      rw [hsign]
      exact hp.nonempty
    obtain ⟨bn, hbn, -, hvalue⟩ := bignumFromString_spec hdigits hne
    simp only [Bool.not_true, Bool.false_eq_true, if_false, if_true, hbn]
    show some ((toInt bn : ℤ) : ℚ) = _
    rw [hvalue, hsign]
    rfl

lemma s2nDecimal_with_slash (rest : List UInt8) : s2nDecimal (D := D) (p.text ++ '/'.toUInt8 :: rest) =
    if (strtoll (p.text ++ '/'.toUInt8 :: rest) 10).endptr == '/'.toUInt8 :: rest &&
        !(strtoll (p.text ++ '/'.toUInt8 :: rest) 10).erange && (strtoll rest 10).endptr.isEmpty &&
        !(strtoll rest 10).erange && (strtoll rest 10).value != 0 then
      .rational (rationalCreate (strtoll (p.text ++ '/'.toUInt8 :: rest) 10).value (strtoll rest 10).value)
    else .false := by
  have hmapM : p.digits.mapM (digitOf 10) = some (p.digits.filterMap (digitOf 10)) :=
    mapM_digitOf.2 ⟨hp.digits, rfl⟩
  rw [s2nDecimal_eq (startsDecimal_part hp hspaces _), readSign_part hp hspaces, scanDecimal_fraction hmapM]
  rfl

/-- After a slash a second integer is read to the end. -/
lemma value_decimalFraction (rest : List UInt8) (x : ℚ) :
    value (s2nDecimal (D := D) (p.text ++ '/'.toUInt8 :: rest)) = some x ↔
      InRange (p.value 10) ∧ ∃ q : Part, rest = q.text ∧ q.Valid 10 ∧ InRange (q.value 10) ∧
        q.value 10 ≠ 0 ∧ Written.value 10 ⟨p, some q⟩ = x := by
  have hreads := strtoll_part hp (delimits_slash rest)
  rw [s2nDecimal_with_slash hp hspaces, hreads.endptr]
  constructor
  · intro h
    split_ifs at h with hgood
    · simp only [beq_self_eq_true, Bool.true_and, Bool.and_eq_true, Bool.not_eq_true', List.isEmpty_iff,
        bne_iff_ne] at hgood
      obtain ⟨⟨⟨herange, hend⟩, herange'⟩, hne⟩ := hgood
      rcases strtoll_cases rest 10 with hstay | ⟨q, rest', hq, hrest, hreads'⟩
      · rw [hstay] at hne
        exact absurd rfl hne
      · obtain rfl : rest' = [] := hreads'.endptr.symm.trans hend
        rw [List.append_nil] at hrest
        have hrange := hreads.erange.1 herange
        have hrange' := hreads'.erange.1 herange'
        have hzero : q.value 10 ≠ 0 := by
          rw [← hreads'.value hrange']
          exact toInt_ne_zero.1 hne
        rw [value_fraction hreads hreads' hrange hrange' hzero] at h
        exact ⟨hrange, q, hrest, hq, hrange', hzero, Option.some.inj h⟩
    · cases h
  · rintro ⟨hrange, q, rfl, hq, hrange', hzero, rfl⟩
    have hreads' := strtoll_part hq delimits_nil
    rw [List.append_nil] at hreads'
    have hne : ((strtoll q.text 10).value != 0) = true := by
      rw [bne_iff_ne, toInt_ne_zero, hreads'.value hrange']
      exact hzero
    rw [hreads.erange.2 hrange, hreads'.erange.2 hrange', hreads'.endptr, hne, if_pos (by simp)]
    exact value_fraction hreads hreads' hrange hrange' hzero

end decimal

/-- The sign and the digits in front are an integer. -/
lemma part_of_readSign {start front rest : List UInt8} (h : (readSign start).2 = front ++ rest)
    (hne : front ≠ []) (hdigits : ∀ c ∈ front, (digitOf 10 c).isSome = true) :
    Part.Valid 10 ⟨[], signText start, [], front⟩ ∧
      start = Part.text ⟨[], signText start, [], front⟩ ++ rest := by
  refine ⟨⟨by simp, signText_cases start, .inl rfl, hne, hdigits⟩, ?_⟩
  simp only [Part.text, List.nil_append, List.append_assoc]
  rw [← h, (readSign_eq start).1]

/-- What `eshkol_s2n_decimal` reads as an exact number. -/
lemma value_s2nDecimal (start : List UInt8) (x : ℚ) : value (s2nDecimal (D := D) start) = some x ↔
    ∃ w : Written, start = w.text ∧ w.Valid 10 ∧ w.num.spaces = [] ∧ (w.den = none ∨ w.PartsInRange 10) ∧
      w.value 10 = x := by
  constructor
  · intro h
    by_cases hstarts : StartsDecimal start
    swap
    · rw [s2nDecimal_of_not hstarts] at h
      cases h
    obtain ⟨c, tail, hsign, hc⟩ := id hstarts
    rcases scanDecimal_split (readSign start).2 with hscan | hscan | ⟨hscan, digits, hdigits⟩ |
      ⟨front, rest, digits, htext, hdigits, hscan⟩
    · rw [s2nDecimal_eq hstarts, hscan, s2nLiteral] at h
      simp only at h
      split_ifs at h <;> cases h
    · rw [s2nDecimal_eq hstarts, hscan, s2nLiteral] at h
      cases h
    · obtain ⟨hall, -⟩ := mapM_digitOf.1 hdigits
      obtain ⟨hp, hstart⟩ := part_of_readSign (List.append_nil _).symm (by rw [hsign]; simp) hall
      rw [List.append_nil] at hstart
      have hvalue := value_decimalInteger (D := D) hp rfl
      rw [← hstart, h, Option.some.injEq] at hvalue
      refine ⟨⟨_, none⟩, ?_, ⟨hp, by simp⟩, rfl, .inl rfl, ?_⟩
      · show start = Part.text _ ++ []
        rw [List.append_nil]
        exact hstart
      · rw [hvalue]
        simp [Written.value]
    · obtain ⟨hall, -⟩ := mapM_digitOf.1 hdigits
      have hne : front ≠ [] := by
        rintro rfl
        rw [hsign] at htext
        obtain ⟨rfl, -⟩ := List.cons.inj htext
        exact absurd hc (by decide)
      obtain ⟨hp, hstart⟩ := part_of_readSign htext hne hall
      have hvalue := value_decimalFraction (D := D) hp rfl rest x
      rw [← hstart] at hvalue
      obtain ⟨hnum, q, rfl, hq, hdenom, hzero, hx⟩ := hvalue.1 h
      exact ⟨⟨_, some q⟩, hstart, ⟨hp, by simpa using ⟨hq, hzero⟩⟩, rfl, .inr ⟨hnum, by simpa using hdenom⟩, hx⟩
  · rintro ⟨⟨p, den⟩, rfl, ⟨hp, hden⟩, hspaces, hrange, rfl⟩
    cases den with
    | none =>
      have htext : Written.text ⟨p, none⟩ = p.text := by simp [Written.text]
      rw [htext, value_decimalInteger hp hspaces]
      simp [Written.value]
    | some q =>
      obtain ⟨hq, hzero⟩ := hden q rfl
      obtain ⟨hnum, hdenom⟩ := hrange.resolve_left (by simp)
      exact (value_decimalFraction hp hspaces q.text _).2 ⟨hnum, q, rfl, hq, hdenom q rfl, hzero, rfl⟩

/-! ## The prefix -/

lemma radixOfMark_cases {mark : UInt8} {radix : Int64} (h : radixOfMark mark = some radix) :
    radix = 2 ∨ radix = 8 ∨ radix = 10 ∨ radix = 16 := by
  unfold radixOfMark at h
  simp only at h
  split_ifs at h <;> simp_all

lemma prefix_head (mark : Option UInt8) (rest : List UInt8) :
    mark = none ∨ (prefixText mark ++ rest).head? = some '#'.toUInt8 := by
  cases mark with
  | none => exact .inl rfl
  | some m => exact .inr rfl

/-- A text without blanks in front is split at its prefix. -/
lemma numberAndRadix_prefix {blanks rest : List UInt8} (radix : Int64) (mark : Option UInt8)
    (hblanks : ∀ c ∈ blanks, isBlank c = true) (hrest : rest ≠ [])
    (hfirst : mark = none → ∀ c ∈ rest.head?, isBlank c = false ∧ c ≠ '#'.toUInt8) :
    numberAndRadix (blanks ++ (prefixText mark ++ rest)) radix =
      (effectiveRadix radix mark).map fun radix => (rest, radix) := by
  have hdrop : (blanks ++ (prefixText mark ++ rest)).dropWhile isBlank = prefixText mark ++ rest := by
    refine (takeWhile_boundary hblanks ?_).2
    intro c hc
    rcases prefix_head mark rest with rfl | hhead
    · exact (hfirst rfl c hc).1
    · rw [hhead] at hc
      cases hc
      decide
  unfold numberAndRadix
  rw [hdrop]
  cases mark with
  | none =>
    obtain ⟨c, rest, rfl⟩ := List.exists_cons_of_ne_nil hrest
    have hc : (c == '#'.toUInt8) = false := beq_eq_false_iff_ne.2 (hfirst rfl c rfl).2
    cases rest with
    | nil => rfl
    | cons m rest =>
      simp only [prefixText, List.nil_append, hc]
      rfl
  | some m =>
    show ((radixOfMark m).bind fun radix => if rest.isEmpty then none else some (rest, radix)) = _
    have hne : rest.isEmpty = false := by simpa using hrest
    simp only [hne, effectiveRadix]
    cases radixOfMark m <;> rfl

lemma numberAndRadix_cases {str start : List UInt8} {radix radix' : Int64}
    (h : numberAndRadix str radix = some (start, radix')) :
    ∃ blanks mark, str = blanks ++ (prefixText mark ++ start) ∧ (∀ c ∈ blanks, isBlank c = true) ∧
      effectiveRadix radix mark = some radix' ∧ (mark = none → ∀ c ∈ start.head?, isBlank c = false) := by
  have hsplit := (List.takeWhile_append_dropWhile (p := isBlank) (l := str)).symm
  have hblanks : ∀ c ∈ str.takeWhile isBlank, isBlank c = true := fun c hc => List.mem_takeWhile_imp hc
  have hhead : ∀ c ∈ (str.dropWhile isBlank).head?, isBlank c = false := by
    intro c hc
    have hnot := List.head?_dropWhile_not isBlank str
    rw [hc] at hnot
    simpa using hnot
  unfold numberAndRadix at h
  generalize str.dropWhile isBlank = rest at h hsplit hhead
  -- without a prefix nothing more is dropped
  have hplain : some (rest, radix) = some (start, radix') →
      ∃ blanks mark, str = blanks ++ (prefixText mark ++ start) ∧ (∀ c ∈ blanks, isBlank c = true) ∧
        effectiveRadix radix mark = some radix' ∧ (mark = none → ∀ c ∈ start.head?, isBlank c = false) := by
    intro heq
    obtain ⟨rfl, rfl⟩ := Prod.mk.inj (Option.some.inj heq)
    exact ⟨_, none, hsplit, hblanks, rfl, fun _ => hhead⟩
  rcases rest with _ | ⟨c, _ | ⟨mark, rest⟩⟩
  · cases h
  · exact hplain h
  · simp only at h
    by_cases hc : (c == '#'.toUInt8) = true
    · rw [if_pos hc] at h
      obtain ⟨r, hr, hstart⟩ := Option.bind_eq_some_iff.1 h
      by_cases hempty : rest.isEmpty = true
      · rw [if_pos hempty] at hstart
        cases hstart
      · rw [if_neg hempty] at hstart
        obtain ⟨rfl, rfl⟩ := Prod.mk.inj (Option.some.inj hstart)
        rw [beq_iff_eq.1 hc] at hsplit
        exact ⟨_, some mark, hsplit, hblanks, hr, fun hnone => by cases hnone⟩
    · rw [if_neg hc] at h
      exact hplain h

/-! ## Layouts -/

lemma Written.Valid.text_ne_nil {base : ℕ} {w : Written} (hw : w.Valid base) : w.text ≠ [] := by
  intro h
  exact hw.num.text_ne_nil (List.append_eq_nil_iff.1 h).1

/-- No number starts with the mark of a prefix. -/
lemma Part.Valid.head_ne {base : ℕ} {p : Part} (hp : p.Valid base) (rest : List UInt8) :
    ∀ c ∈ (p.text ++ rest).head?, c ≠ '#'.toUInt8 := by
  have hmem : '#'.toUInt8 ∉ p.text := by
    simp only [Part.text, List.mem_append, not_or]
    refine ⟨?_, ?_, ?_, ?_⟩
    · intro hmem
      exact absurd (hp.spaces _ hmem) (by decide)
    · rcases hp.sign with h | h | h <;> · rw [h]; decide
    · rcases hp.mark with h | ⟨-, h | h⟩ <;> · rw [h]; decide
    · intro hmem
      exact (not_special (hp.digits _ hmem)).2.2.2.2 rfl
  rw [List.head?_append_of_ne_nil _ hp.text_ne_nil]
  rintro c hc rfl
  exact hmem (List.mem_of_mem_head? hc)

lemma numberAndRadix_layout {radix : Int64} {l : Layout} (hl : l.Valid radix) :
    numberAndRadix l.text radix = some (l.number.text ++ l.trailing, l.radix) := by
  have hne := hl.number.text_ne_nil
  have hfirst : l.mark = none → ∀ c ∈ (l.number.text ++ l.trailing).head?, isBlank c = false ∧ c ≠ '#'.toUInt8 := by
    intro hmark c hc
    rw [List.head?_append_of_ne_nil _ hne] at hc
    refine ⟨hl.first hmark c hc, ?_⟩
    exact hl.number.num.head_ne _ c hc
  have hread := numberAndRadix_prefix radix l.mark hl.blanks (by simp [hne]) hfirst
  rw [hl.radix] at hread
  exact hread

/-- A number is written in one way. -/
lemma Written.Valid.unique {base : ℕ} {w w' : Written} {rest rest' : List UInt8} (hw : w.Valid base)
    (hw' : w'.Valid base) (hrest : ∀ c ∈ rest, isBlank c = true) (hrest' : ∀ c ∈ rest', isBlank c = true)
    (h : w.text ++ rest = w'.text ++ rest') : w = w' ∧ rest = rest' := by
  obtain ⟨p, den⟩ := w
  obtain ⟨p', den'⟩ := w'
  have hblanks := delimits_blanks hrest
  have hblanks' := delimits_blanks hrest'
  have htail : ∀ (den : Option Part) {rest : List UInt8}, Delimits rest →
      Delimits ((den.elim [] fun d => '/'.toUInt8 :: d.text) ++ rest) := by
    intro den rest hdelimits
    cases den with
    | none => exact hdelimits
    | some d => exact delimits_slash _
  have hscan := scanPart_text hw.num (htail den hblanks)
  have hscan' := scanPart_text hw'.num (htail den' hblanks')
  rw [Written.text, Written.text, List.append_assoc, List.append_assoc] at h
  rw [h, hscan'] at hscan
  obtain ⟨rfl, hden⟩ := Prod.mk.inj hscan
  cases den with
  | none =>
    cases den' with
    | none => exact ⟨rfl, hden.symm⟩
    | some d' =>
      -- a slash is no blank
      have hmem : '/'.toUInt8 ∈ rest := by
        rw [show rest = _ from hden.symm]
        simp
      exact absurd hmem (slash_not_blank hrest)
  | some d =>
    cases den' with
    | none =>
      have hmem : '/'.toUInt8 ∈ rest' := by
        rw [show rest' = _ from hden]
        simp
      exact absurd hmem (slash_not_blank hrest')
    | some d' =>
      have htext : d'.text ++ rest' = d.text ++ rest := (List.cons.inj hden).2
      have hscan := scanPart_text (hw.den d rfl).1 hblanks
      rw [← htext, scanPart_text (hw'.den d' rfl).1 hblanks'] at hscan
      obtain ⟨rfl, rfl⟩ := Prod.mk.inj hscan
      exact ⟨rfl, rfl⟩

/-- A text has one layout. -/
lemma Layout.Valid.unique {radix : Int64} {l l' : Layout} (hl : l.Valid radix) (hl' : l'.Valid radix)
    (h : l.text = l'.text) : l = l' := by
  have hread := numberAndRadix_layout hl
  rw [h, numberAndRadix_layout hl'] at hread
  obtain ⟨htext, hradix⟩ := Prod.mk.inj (Option.some.inj hread)
  have hbase : l'.base = l.base := by rw [Layout.base, Layout.base, hradix]
  have hnumber := hl'.number
  rw [hbase] at hnumber
  obtain ⟨hnumber, htrailing⟩ := hnumber.unique hl.number hl'.trailing hl.trailing htext
  have hfront : ∀ {l : Layout}, l.Valid radix → l.text.takeWhile isBlank = l.blanks := by
    intro l hl
    refine (takeWhile_boundary hl.blanks ?_).1
    intro c hc
    rcases prefix_head l.mark (l.number.text ++ l.trailing) with hmark | hhead
    · rw [hmark, prefixText, List.nil_append, List.head?_append_of_ne_nil _ hl.number.text_ne_nil] at hc
      exact hl.first hmark c hc
    · rw [hhead] at hc
      cases hc
      decide
  have hblanks : l.blanks = l'.blanks := by rw [← hfront hl, ← hfront hl', h]
  have honlyMark : prefixText l.mark = prefixText l'.mark := by
    unfold Layout.text at h
    rw [hblanks, ← htext] at h
    exact List.append_cancel_right (List.append_cancel_left h)
  have hmark : l.mark = l'.mark := by
    cases hm : l.mark with
    | none =>
      cases hm' : l'.mark with
      | none => rfl
      | some m' => rw [hm, hm'] at honlyMark; cases honlyMark
    | some m =>
      cases hm' : l'.mark with
      | none => rw [hm, hm'] at honlyMark; cases honlyMark
      | some m' =>
        rw [hm, hm'] at honlyMark
        rw [(List.cons.inj (List.cons.inj honlyMark).2).1]
  cases l
  cases l'
  simp_all

/-! ## The texts that are read -/

/-- The radix in effect is one that the code takes. -/
lemma effectiveRadix_range {radix radix' : Int64} {mark : Option UInt8} (hlow : 2 ≤ radix) (hhigh : radix ≤ 36)
    (h : effectiveRadix radix mark = some radix') : (radix' < 2 || 36 < radix') = false := by
  have hrange : 2 ≤ radix' ∧ radix' ≤ 36 := by
    cases mark with
    | none =>
      obtain rfl : radix = radix' := Option.some.inj h
      exact ⟨hlow, hhigh⟩
    | some m => rcases radixOfMark_cases h with rfl | rfl | rfl | rfl <;> decide
  rw [Bool.or_eq_false_iff, decide_eq_false_iff_not, decide_eq_false_iff_not, Int64.not_lt, Int64.not_lt]
  exact hrange

lemma stringToNumber_eq {str start : List UInt8} {radix radix' : Int64}
    (hrange : (radix' < 2 || 36 < radix') = false) (h : numberAndRadix str radix = some (start, radix')) :
    stringToNumberRadixTagged (D := D) str radix =
      if radix' = 10 then s2nDecimal start else s2nRadixInt start radix'.toInt.toNat := by
  unfold stringToNumberRadixTagged
  rw [h]
  simp only [hrange, Bool.false_eq_true, if_false]

section accepted

variable {radix : Int64} (hlow : 2 ≤ radix) (hhigh : radix ≤ 36)
include hlow hhigh

lemma value_of_layout {l : Layout} (hl : l.Valid radix) (hkept : l.Kept) :
    value (stringToNumberRadixTagged (D := D) l.text radix) = some (l.number.value l.base) := by
  rw [stringToNumber_eq (effectiveRadix_range hlow hhigh hl.radix) (numberAndRadix_layout hl)]
  unfold Layout.Kept at hkept
  by_cases hten : l.radix = 10
  · have hbase : l.base = 10 := by
      rw [Layout.base, hten]
      rfl
    have hnumber := hl.number
    rw [hbase] at hnumber
    rw [if_pos hten] at hkept ⊢
    rw [hkept.1, List.append_nil, hbase]
    exact (value_s2nDecimal _ _).2 ⟨l.number, rfl, hnumber, hkept.2.1, hkept.2.2, rfl⟩
  · rw [if_neg hten] at hkept ⊢
    exact (value_s2nRadixInt _ _).2 (.inl ⟨l.number, l.trailing, rfl, hl.number, hl.trailing, hkept, rfl⟩)

/-- After a prefix that is followed by blanks only, zero is read. -/
lemma value_of_onlyPrefix {str : List UInt8} (h : OnlyPrefix str) :
    value (stringToNumberRadixTagged (D := D) str radix) = some 0 := by
  obtain ⟨blanks, mark, trailing, radix', rfl, hblanks, hradix, hten, hne, htrailing⟩ := h
  have hread := numberAndRadix_prefix radix (some mark) hblanks hne fun hnone => by cases hnone
  have heffective : effectiveRadix radix (some mark) = some radix' := hradix
  rw [heffective] at hread
  show value (stringToNumberRadixTagged (blanks ++ (prefixText (some mark) ++ trailing)) radix) = some 0
  rw [stringToNumber_eq (effectiveRadix_range hlow hhigh heffective) hread, if_neg hten]
  exact (value_s2nRadixInt _ _).2 (.inr ⟨hne, htrailing, rfl⟩)

/-- The value of a text, by its layout. -/
lemma value_stringToNumber (str : List UInt8) (x : ℚ) :
    value (stringToNumberRadixTagged (D := D) str radix) = some x ↔
      (∃ l : Layout, l.Valid radix ∧ l.text = str ∧ l.Kept ∧ l.number.value l.base = x) ∨
        (OnlyPrefix str ∧ x = 0) := by
  constructor
  swap
  · rintro (⟨l, hl, rfl, hkept, rfl⟩ | ⟨honly, rfl⟩)
    · exact value_of_layout hlow hhigh hl hkept
    · exact value_of_onlyPrefix hlow hhigh honly
  intro h
  cases hnumber : numberAndRadix str radix with
  | none =>
    rw [stringToNumberRadixTagged, hnumber] at h
    cases h
  | some read =>
    obtain ⟨start, radix'⟩ := read
    obtain ⟨blanks, mark, rfl, hblanks, hradix, hfirst⟩ := numberAndRadix_cases hnumber
    rw [stringToNumber_eq (effectiveRadix_range hlow hhigh hradix) hnumber] at h
    -- a number at the front of the text has no blank before it
    have hhead : ∀ {w : Written} {trailing : List UInt8} {base : ℕ}, w.Valid base → start = w.text ++ trailing →
        mark = none → ∀ c ∈ w.text.head?, isBlank c = false := by
      intro w trailing base hw hstart hmark c hc
      apply hfirst hmark c
      rw [hstart, List.head?_append_of_ne_nil _ hw.text_ne_nil]
      exact hc
    by_cases hten : radix' = 10
    · rw [if_pos hten] at h
      obtain ⟨w, rfl, hw, hspaces, hrange, rfl⟩ := (value_s2nDecimal _ _).1 h
      have hbase : radix'.toInt.toNat = 10 := by
        rw [hten]
        rfl
      refine .inl ⟨⟨blanks, mark, radix', w, []⟩, ⟨hblanks, hradix, ?_, hhead hw (List.append_nil _).symm, by simp⟩,
        ?_, ?_, ?_⟩
      · show w.Valid radix'.toInt.toNat
        rw [hbase]
        exact hw
      · simp only [Layout.text, List.append_nil]
      · unfold Layout.Kept
        rw [if_pos hten]
        exact ⟨rfl, hspaces, hrange⟩
      · show w.value radix'.toInt.toNat = _
        rw [hbase]
    · rw [if_neg hten] at h
      rcases (value_s2nRadixInt _ _).1 h with ⟨w, trailing, rfl, hw, htrailing, hrange, rfl⟩ | ⟨hne, hblank, rfl⟩
      · refine .inl ⟨⟨blanks, mark, radix', w, trailing⟩, ⟨hblanks, hradix, hw, hhead hw rfl, htrailing⟩, rfl, ?_, rfl⟩
        unfold Layout.Kept
        rw [if_neg hten]
        exact hrange
      · refine .inr ⟨?_, rfl⟩
        cases mark with
        | none =>
          obtain ⟨c, rest, rfl⟩ := List.exists_cons_of_ne_nil hne
          have hfalse := hfirst rfl c rfl
          rw [hblank c (by simp)] at hfalse
          cases hfalse
        | some m => exact ⟨blanks, m, start, radix', rfl, hblanks, hradix, hten, hne, hblank⟩

omit hlow hhigh in
/-- Among blanks there is no digit. -/
lemma no_layout_of_onlyPrefix {l : Layout} (hl : l.Valid radix) (h : OnlyPrefix l.text) : False := by
  obtain ⟨blanks, mark, trailing, radix', htext, hblanks, hradix, -, hne, htrailing⟩ := h
  have hread := numberAndRadix_prefix radix (some mark) hblanks hne fun hnone => by cases hnone
  have heffective : effectiveRadix radix (some mark) = some radix' := hradix
  rw [heffective, show blanks ++ (prefixText (some mark) ++ trailing) = l.text from htext.symm,
    numberAndRadix_layout hl] at hread
  obtain ⟨hnumber, -⟩ := Prod.mk.inj (Option.some.inj hread)
  obtain ⟨c, cs, hdigits⟩ := List.exists_cons_of_ne_nil hl.number.num.nonempty
  have hc : c ∈ trailing := by
    rw [← hnumber]
    simp [Written.text, Part.text, hdigits]
  have hspace := (not_special (hl.number.num.digits c (by rw [hdigits]; simp))).1
  rw [isSpace_of_isBlank (htrailing c hc)] at hspace
  cases hspace

/-- The exact numbers that are read are those of the grammar just when every layout of the text is kept
if and only if it is plain, and there is more than a prefix. -/
theorem stringToNumber_grammar_iff (str : List UInt8) :
    (∀ x, value (stringToNumberRadixTagged (D := D) str radix) = some x ↔ Denoted radix str x) ↔
      (∀ l : Layout, l.Valid radix → l.text = str → (l.Kept ↔ l.number.Plain)) ∧ ¬ OnlyPrefix str := by
  constructor
  · intro h
    constructor
    · rintro l hl rfl
      constructor
      · intro hkept
        obtain ⟨l', hl', hplain, htext, -⟩ := (h _).1 (value_of_layout hlow hhigh hl hkept)
        obtain rfl := hl.unique hl' htext.symm
        exact hplain
      · intro hplain
        have hread := (h _).2 ⟨l, hl, hplain, rfl, rfl⟩
        rcases (value_stringToNumber hlow hhigh _ _).1 hread with ⟨l', hl', htext, hkept, -⟩ | ⟨honly, -⟩
        · obtain rfl := hl.unique hl' htext.symm
          exact hkept
        · exact (no_layout_of_onlyPrefix hl honly).elim
    · intro honly
      obtain ⟨l, hl, -, rfl, -⟩ := (h 0).1 (value_of_onlyPrefix hlow hhigh honly)
      exact no_layout_of_onlyPrefix hl honly
  · rintro ⟨hlayout, honly⟩ x
    rw [value_stringToNumber hlow hhigh]
    constructor
    · rintro (⟨l, hl, htext, hkept, rfl⟩ | ⟨honlyMark, -⟩)
      · exact ⟨l, hl, (hlayout l hl htext).1 hkept, htext, rfl⟩
      · exact absurd honlyMark honly
    · rintro ⟨l, hl, hplain, htext, rfl⟩
      exact .inl ⟨l, hl, htext, (hlayout l hl htext).2 hplain, rfl⟩

end accepted

/-- The layout of `[sign]7/[spaces]2`. -/
def sevenHalves (sign spaces : List UInt8) : Layout :=
  ⟨[], none, 10, ⟨⟨[], sign, [], ['7'.toUInt8]⟩, some ⟨spaces, [], [], ['2'.toUInt8]⟩⟩, []⟩

lemma sevenHalves_valid {sign spaces : List UInt8}
    (hsign : sign = [] ∨ sign = ['-'.toUInt8] ∨ sign = ['+'.toUInt8])
    (hspaces : ∀ c ∈ spaces, isSpace c = true) : (sevenHalves sign spaces).Valid 10 := by
  have hseven : Part.Valid 10 ⟨[], sign, [], ['7'.toUInt8]⟩ :=
    ⟨by simp, hsign, .inl rfl, by simp, by rw [List.forall_mem_singleton]; rfl⟩
  have htwo : Part.Valid 10 ⟨spaces, [], [], ['2'.toUInt8]⟩ :=
    ⟨hspaces, .inl rfl, .inl rfl, by simp, by rw [List.forall_mem_singleton]; rfl⟩
  refine ⟨by simp [sevenHalves], rfl, ⟨hseven, ?_⟩, fun _ c hc => ?_, by simp [sevenHalves]⟩
  · rintro d ⟨⟩
    exact ⟨htwo, show (2 : ℤ) ≠ 0 by decide⟩
  · rcases hsign with rfl | rfl | rfl <;> cases hc <;> rfl

/-- `-7/2` is read as the grammar says, and the denominator of `7/ 2` is read after the blank. -/
theorem stringToNumber_grammar_half :
    (∀ x, value (stringToNumberRadixTagged (D := Float)
      ['-'.toUInt8, '7'.toUInt8, '/'.toUInt8, '2'.toUInt8] 10) = some x ↔
        Denoted 10 ['-'.toUInt8, '7'.toUInt8, '/'.toUInt8, '2'.toUInt8] x) ∧
    ¬ ∀ x, value (stringToNumberRadixTagged (D := Float)
      ['7'.toUInt8, '/'.toUInt8, ' '.toUInt8, '2'.toUInt8] 10) = some x ↔
        Denoted 10 ['7'.toUInt8, '/'.toUInt8, ' '.toUInt8, '2'.toUInt8] x := by
  have hrange : ∀ spaces, ∀ d ∈ (sevenHalves [] spaces).number.den, InRange (d.value 10) := by
    rintro spaces d ⟨⟩
    exact (by decide : InRange 2)
  constructor
  · rw [stringToNumber_grammar_iff (by decide) (by decide)]
    have hvalid := sevenHalves_valid (.inr (.inl rfl)) (List.forall_mem_nil (isSpace · = true))
    refine ⟨fun l hl htext => ?_, fun honly => no_layout_of_onlyPrefix hvalid honly⟩
    obtain rfl := hl.unique hvalid htext
    exact iff_of_true ⟨rfl, rfl, .inr ⟨by decide, hrange _⟩⟩ ⟨⟨rfl, rfl⟩, by rintro d ⟨⟩; exact ⟨rfl, rfl, rfl⟩⟩
  · rw [stringToNumber_grammar_iff (by decide) (by decide)]
    rintro ⟨hlayout, -⟩
    have hvalid := sevenHalves_valid (.inl rfl) (List.forall_mem_singleton.2 (rfl : isSpace ' '.toUInt8 = true))
    have hplain := (hlayout _ hvalid rfl).1 ⟨rfl, rfl, .inr ⟨by decide, hrange _⟩⟩
    exact absurd (hplain.den _ rfl).1 (by decide)

/-- The text `#x` and a blank is read as zero. -/
theorem not_grammar_onlyPrefix :
    ¬ ∀ (str : List UInt8) (radix : Int64), 2 ≤ radix → radix ≤ 36 → ∀ x,
      value (stringToNumberRadixTagged (D := Float) str radix) = some x ↔ Denoted radix str x := by
  intro h
  have honly : OnlyPrefix ['#'.toUInt8, 'x'.toUInt8, ' '.toUInt8] :=
    ⟨[], 'x'.toUInt8, [' '.toUInt8], 16, rfl, by simp, rfl, by decide, by simp,
      by rw [List.forall_mem_singleton]; rfl⟩
  have hread := value_of_onlyPrefix (D := Float) (by decide : (2 : Int64) ≤ 10) (by decide) honly
  obtain ⟨l, hl, -, htext, -⟩ := (h _ 10 (by decide) (by decide) 0).1 hread
  exact no_layout_of_onlyPrefix hl (htext ▸ honly)

end Exact
