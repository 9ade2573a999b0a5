import Eshkol.Exact.Canonical
import Eshkol.Exact.NumberGrammar

/-!
# Texts of exact numbers

A text is laid out as blanks, a radix prefix, an integer or two with a slash between them, and
blanks. What `eshkol_string_to_number_radix_tagged` keeps of such texts, and what the grammar does.
-/

namespace Exact

variable {D : Type}

/-! ## The grammar -/

/-- An integer, or a fraction. -/
structure Written where
  num : Part
  den : Option Part

namespace Written

def text (w : Written) : List UInt8 := w.num.text ++ w.den.elim [] fun d => '/'.toUInt8 :: d.text

structure Valid (base : ℕ) (w : Written) : Prop where
  num : w.num.Valid base
  den : ∀ d ∈ w.den, d.Valid base ∧ d.value base ≠ 0

/-- The number that is denoted. -/
def value (base : ℕ) (w : Written) : ℚ := w.num.value base / w.den.elim 1 fun d => (d.value base : ℚ)

/-- `[sign] digit+` or `[sign] digit+ / digit+`. -/
structure Plain (w : Written) : Prop where
  num : w.num.spaces = [] ∧ w.num.mark = []
  den : ∀ d ∈ w.den, d.spaces = [] ∧ d.sign = [] ∧ d.mark = []

/-- The integers have 64 bits. -/
def PartsInRange (base : ℕ) (w : Written) : Prop :=
  InRange (w.num.value base) ∧ ∀ d ∈ w.den, InRange (d.value base)

end Written

/-- The text of a number with all that is around it. -/
structure Layout where
  blanks : List UInt8
  /-- The letter of a radix prefix. -/
  mark : Option UInt8
  /-- The radix in effect. -/
  radix : Int64
  number : Written
  trailing : List UInt8

/-- The radix after a prefix. -/
def effectiveRadix (radix : Int64) : Option UInt8 → Option Int64
  | none => some radix
  | some mark => radixOfMark mark

/-- The text of a radix prefix. -/
def prefixText : Option UInt8 → List UInt8
  | none => []
  | some mark => ['#'.toUInt8, mark]

namespace Layout

def text (l : Layout) : List UInt8 := l.blanks ++ (prefixText l.mark ++ (l.number.text ++ l.trailing))

def base (l : Layout) : ℕ := l.radix.toInt.toNat

/-- The text in a call with the given radix; the blanks are all those in front. -/
structure Valid (radix : Int64) (l : Layout) : Prop where
  blanks : ∀ c ∈ l.blanks, isBlank c = true
  radix : effectiveRadix radix l.mark = some l.radix
  number : l.number.Valid l.base
  first : l.mark = none → ∀ c ∈ l.number.text.head?, isBlank c = false
  trailing : ∀ c ∈ l.trailing, isBlank c = true

/-- What the code takes for a number: parts of 64 bits; in radix 10 also an integer of any size, but
no blanks at the end and no space before the first part. -/
def Kept (l : Layout) : Prop :=
  if l.radix = 10 then
    l.trailing = [] ∧ l.number.num.spaces = [] ∧ (l.number.den = none ∨ l.number.PartsInRange 10)
  else l.number.PartsInRange l.base

end Layout

/-- The text is in the grammar and denotes `x`. -/
def Denoted (radix : Int64) (str : List UInt8) (x : ℚ) : Prop :=
  ∃ l : Layout, l.Valid radix ∧ l.number.Plain ∧ l.text = str ∧ l.number.value l.base = x

/-- A radix prefix other than that of 10, and only blanks after it. -/
def OnlyPrefix (str : List UInt8) : Prop :=
  ∃ blanks mark trailing radix, str = blanks ++ '#'.toUInt8 :: mark :: trailing ∧
    (∀ c ∈ blanks, isBlank c = true) ∧ radixOfMark mark = some radix ∧ radix ≠ 10 ∧ trailing ≠ [] ∧
    ∀ c ∈ trailing, isBlank c = true

/-! ## Blanks and digits -/

lemma blank_cases {c : UInt8} (h : isBlank c = true) : c = ' '.toUInt8 ∨ c = '\t'.toUInt8 := by
  rwa [isBlank, Bool.or_eq_true, beq_iff_eq, beq_iff_eq] at h

lemma isSpace_of_isBlank {c : UInt8} (h : isBlank c = true) : isSpace c = true := by
  rcases blank_cases h with rfl | rfl <;> decide

lemma delimits_blanks {rest : List UInt8} (h : ∀ c ∈ rest, isBlank c = true) : Delimits rest := by
  intro c hc
  rcases blank_cases (h c (List.mem_of_mem_head? hc)) with rfl | rfl <;> decide

lemma delimits_slash (rest : List UInt8) : Delimits ('/'.toUInt8 :: rest) := by
  intro c hc
  cases hc
  rfl

lemma slash_not_blank {rest : List UInt8} (h : ∀ c ∈ rest, isBlank c = true) : '/'.toUInt8 ∉ rest :=
  fun hmem => absurd (h _ hmem) (by decide)

lemma dropWhile_blanks {rest : List UInt8} : rest.dropWhile isBlank = [] ↔ ∀ c ∈ rest, isBlank c = true :=
  List.dropWhile_eq_nil_iff

lemma mapM_digitOf {base : ℕ} {text : List UInt8} {digits : List ℕ} : text.mapM (digitOf base) = some digits ↔
    (∀ c ∈ text, (digitOf base c).isSome = true) ∧ text.filterMap (digitOf base) = digits := by
  induction text generalizing digits with
  | nil => exact ⟨fun h => ⟨by simp, Option.some.inj h⟩, fun h => congrArg some h.2⟩
  | cons c text ih =>
    rw [List.mapM_cons, List.forall_mem_cons]
    cases hc : digitOf base c with
    | none => simp
    | some d =>
      have hall := @ih (text.filterMap (digitOf base))
      constructor
      · intro h
        rw [← hc, ← List.mapM_cons] at h
        obtain ⟨d', ds, hc', hds, rfl⟩ := mapM_cons_eq_some h
        obtain ⟨hsome, hfilter⟩ := ih.1 hds
        rw [List.filterMap_cons_some hc', hfilter]
        exact ⟨⟨rfl, hsome⟩, rfl⟩
      · rintro ⟨⟨-, hsome⟩, hfilter⟩
        rw [List.filterMap_cons_some hc] at hfilter
        show (text.mapM (digitOf base)).bind _ = _
        rw [hall.2 ⟨hsome, rfl⟩, ← hfilter]
        rfl

/-! ## Reading an integer or a fraction -/

lemma value_rationalCreate (num : Int64) {denom : Int64} (h : denom ≠ 0) :
    value (D := D) (.rational (rationalCreate num denom)) = some ((num.toInt : ℚ) / denom.toInt) := by
  have hne : denom.toInt ≠ 0 := fun hzero => h (Int64.toInt_inj.1 hzero)
  show some (ratValue _) = _
  rw [(create_spec num h).value hne]

lemma toInt_ne_zero {v : Int64} : v ≠ 0 ↔ v.toInt ≠ 0 := by
  rw [Ne, ← Int64.toInt_inj]
  rfl

/-- The parts of a fraction, read apart. -/
lemma value_fraction {base : ℕ} {p q : Part} {num denom : Strtoll} {rest rest' : List UInt8}
    (hnum : num.Reads (p.value base) rest) (hdenom : denom.Reads (q.value base) rest')
    (hp : InRange (p.value base)) (hq : InRange (q.value base)) (hne : q.value base ≠ 0) :
    value (D := D) (.rational (rationalCreate num.value denom.value)) =
      some (Written.value base ⟨p, some q⟩) := by
  rw [value_rationalCreate _ (toInt_ne_zero.2 (by rwa [hdenom.value hq])), hnum.value hp, hdenom.value hq]
  rfl

/-! ### In a radix other than ten -/

section radix

variable {base : ℕ}

lemma dropWhile_no_slash {text : List UInt8} (h : '/'.toUInt8 ∉ text) :
    text.dropWhile (· != '/'.toUInt8) = [] := by
  rw [List.dropWhile_eq_nil_iff]
  intro c hc
  rw [bne_iff_ne]
  rintro rfl
  exact h hc

lemma slash_cases (start : List UInt8) : start.dropWhile (· != '/'.toUInt8) = [] ∨
    ∃ rest, start.dropWhile (· != '/'.toUInt8) = '/'.toUInt8 :: rest := by
  cases h : start.dropWhile (· != '/'.toUInt8) with
  | nil => exact .inl rfl
  | cons c rest =>
    have hhead := List.head?_dropWhile_not (· != '/'.toUInt8) start
    rw [h] at hhead
    have hc : c = '/'.toUInt8 := by simpa using hhead
    exact .inr ⟨rest, by rw [hc]⟩

lemma s2nRadixInt_without_slash {start : List UInt8} (h : start.dropWhile (· != '/'.toUInt8) = []) :
    s2nRadixInt (D := D) start base =
      if (strtoll start base).endptr.dropWhile isBlank == start ||
          !((strtoll start base).endptr.dropWhile isBlank).isEmpty || (strtoll start base).erange then .false
      else .int64 (strtoll start base).value := by
  unfold s2nRadixInt
  rw [h]
  rfl

lemma s2nRadixInt_with_slash {start rest : List UInt8}
    (h : start.dropWhile (· != '/'.toUInt8) = '/'.toUInt8 :: rest) :
    s2nRadixInt (D := D) start base =
      if (strtoll start base).endptr != '/'.toUInt8 :: rest || (strtoll start base).endptr == start ||
          (strtoll start base).erange then .false
      else if (strtoll rest base).endptr.dropWhile isBlank == rest ||
          !((strtoll rest base).endptr.dropWhile isBlank).isEmpty || (strtoll rest base).erange ||
          (strtoll rest base).value == 0 then .false
      else .rational (rationalCreate (strtoll start base).value (strtoll rest base).value) := by
  unfold s2nRadixInt
  rw [h]
  rfl

/-- A number as it is written is read, with the blanks after it. -/
lemma value_of_written {w : Written} {trailing : List UInt8} (hw : w.Valid base)
    (hblank : ∀ c ∈ trailing, isBlank c = true) (hinside : w.PartsInRange base) :
    value (s2nRadixInt (D := D) (w.text ++ trailing) base) = some (w.value base) := by
  obtain ⟨p, den⟩ := w
  obtain ⟨hp, hden⟩ := hw
  obtain ⟨hrange, hrange'⟩ := hinside
  have hdelimits := delimits_blanks hblank
  cases den with
  | none =>
    have htext : Written.text ⟨p, none⟩ ++ trailing = p.text ++ trailing := by simp [Written.text]
    have hslash : '/'.toUInt8 ∉ p.text ++ trailing := by
      rw [List.mem_append, not_or]
      exact ⟨hp.not_slash, slash_not_blank hblank⟩
    have hreads := strtoll_part hp hdelimits
    have hmoved : ([] == p.text ++ trailing) = false := by
      rw [beq_eq_false_iff_ne]
      intro hnil
      exact hp.text_ne_nil (List.append_eq_nil_iff.1 hnil.symm).1
    rw [htext, s2nRadixInt_without_slash (dropWhile_no_slash hslash)]
    simp only [hreads.endptr, dropWhile_blanks.2 hblank, hmoved, hreads.erange.2 hrange, List.isEmpty_nil,
      Bool.not_true, Bool.false_eq_true, if_false, Bool.or_self]
    show some (((strtoll (p.text ++ trailing) base).value.toInt : ℤ) : ℚ) = _
    rw [hreads.value hrange]
    simp [Written.value]
  | some q =>
    obtain ⟨hq, hzero⟩ := hden q rfl
    have hrange' := hrange' q rfl
    have htext : Written.text ⟨p, some q⟩ ++ trailing = p.text ++ '/'.toUInt8 :: (q.text ++ trailing) := by
      simp [Written.text]
    have hreads := strtoll_part hp (delimits_slash (q.text ++ trailing))
    have hreads' := strtoll_part hq hdelimits
    have hmoved : ('/'.toUInt8 :: (q.text ++ trailing) == p.text ++ '/'.toUInt8 :: (q.text ++ trailing)) = false := by
      rw [beq_eq_false_iff_ne]
      intro heq
      exact hp.text_ne_nil (List.self_eq_append_left.1 heq)
    have hmoved' : ([] == q.text ++ trailing) = false := by
      rw [beq_eq_false_iff_ne]
      intro hnil
      exact hq.text_ne_nil (List.append_eq_nil_iff.1 hnil.symm).1
    have hne : ((strtoll (q.text ++ trailing) base).value == 0) = false := by
      rw [beq_eq_false_iff_ne, toInt_ne_zero, hreads'.value hrange']
      exact hzero
    rw [htext, s2nRadixInt_with_slash (dropWhile_slash hp.not_slash)]
    simp only [hreads.endptr, hreads'.endptr, dropWhile_blanks.2 hblank, hmoved, hmoved', hne,
      hreads.erange.2 hrange, hreads'.erange.2 hrange', List.isEmpty_nil,
      bne_self_eq_false, Bool.not_true, Bool.false_eq_true, if_false, Bool.or_self]
    exact value_fraction hreads hreads' hrange hrange' hzero

lemma value_of_blanks {start : List UInt8} (hne : start ≠ []) (hblank : ∀ c ∈ start, isBlank c = true) :
    value (s2nRadixInt (D := D) start base) = some 0 := by
  have hspaces : start.dropWhile isSpace = [] :=
    List.dropWhile_eq_nil_iff.2 fun c hc => isSpace_of_isBlank (hblank c hc)
  have hnone : (scanPart base start).1.digits = [] := by
    simp only [scanPart, hspaces]
    rfl
  have hmoved : ([] == start) = false := by
    rw [beq_eq_false_iff_ne]
    exact hne.symm
  rw [s2nRadixInt_without_slash (dropWhile_no_slash (slash_not_blank hblank)), strtoll_eq, if_pos hnone]
  simp only [dropWhile_blanks.2 hblank, hmoved, List.isEmpty_nil, Bool.not_true, Bool.false_eq_true, if_false,
    Bool.or_self]
  rfl

/-- What `eshkol_s2n_radix_int` reads. The blanks that may follow a number also do without one. -/
lemma value_s2nRadixInt (start : List UInt8) (x : ℚ) : value (s2nRadixInt (D := D) start base) = some x ↔
    (∃ (w : Written) (trailing : List UInt8), start = w.text ++ trailing ∧ w.Valid base ∧
      (∀ c ∈ trailing, isBlank c = true) ∧ w.PartsInRange base ∧ w.value base = x) ∨
    (start ≠ [] ∧ (∀ c ∈ start, isBlank c = true) ∧ x = 0) := by
  constructor
  · intro h
    rcases slash_cases start with hslash | ⟨rest, hslash⟩
    · rw [s2nRadixInt_without_slash hslash] at h
      split_ifs at h with hbad
      · cases h
      · simp only [Bool.or_eq_true, not_or, Bool.not_eq_true, beq_eq_false_iff_ne, Bool.not_eq_false',
          List.isEmpty_iff, dropWhile_blanks] at hbad
        obtain ⟨⟨hmoved, hblank⟩, herange⟩ := hbad
        rcases strtoll_cases start base with hstay | ⟨p, trailing, hp, hstart, hreads⟩
        · rw [hstay] at h hmoved hblank
          refine .inr ⟨?_, hblank, ?_⟩
          · rintro rfl
            exact hmoved rfl
          · exact (Option.some.inj h).symm
        · rw [hreads.endptr] at hblank
          have hrange := hreads.erange.1 herange
          refine .inl ⟨⟨p, none⟩, trailing, ?_, ⟨hp, by simp⟩, hblank, ⟨hrange, by simp⟩, ?_⟩
          · rw [hstart]
            simp [Written.text]
          · rw [← Option.some.inj h, hreads.value hrange]
            simp [Written.value]
    · rw [s2nRadixInt_with_slash hslash] at h
      split_ifs at h with hbad hbad'
      · cases h
      · cases h
      · simp only [Bool.or_eq_true, not_or, Bool.not_eq_true, bne_eq_false_iff_eq, beq_eq_false_iff_ne] at hbad
        simp only [Bool.or_eq_true, not_or, Bool.not_eq_true, beq_eq_false_iff_ne, Bool.not_eq_false',
          List.isEmpty_iff, dropWhile_blanks] at hbad'
        obtain ⟨⟨hend, hmoved⟩, herange⟩ := hbad
        obtain ⟨⟨⟨-, hblank⟩, herange'⟩, hne⟩ := hbad'
        rcases strtoll_cases start base with hstay | ⟨p, end1, hp, hstart, hreads⟩
        · rw [hstay] at hmoved
          exact absurd rfl hmoved
        rcases strtoll_cases rest base with hstay | ⟨q, trailing, hq, hrest, hreads'⟩
        · rw [hstay] at hne
          exact absurd rfl hne
        rw [hreads.endptr] at hend
        rw [hreads'.endptr] at hblank
        have hrange := hreads.erange.1 herange
        have hrange' := hreads'.erange.1 herange'
        have hzero : q.value base ≠ 0 := by
          rw [← hreads'.value hrange']
          exact toInt_ne_zero.1 hne
        rw [value_fraction hreads hreads' hrange hrange' hzero] at h
        refine .inl ⟨⟨p, some q⟩, trailing, ?_, ⟨hp, by simpa using ⟨hq, hzero⟩⟩, hblank,
          ⟨hrange, by simpa using hrange'⟩, Option.some.inj h⟩
        rw [hstart, hend, hrest]
        simp [Written.text]
  · rintro (⟨w, trailing, rfl, hw, hblank, hrange, rfl⟩ | ⟨hne, hblank, rfl⟩)
    · exact value_of_written hw hblank hrange
    · exact value_of_blanks hne hblank

end radix

end Exact
