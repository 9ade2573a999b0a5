import Eshkol.Exact.BignumSpec
import Eshkol.Exact.NumberText

/-!
# What the readers of integers consume

`strtoll` stops at the first byte that is no digit. Where the text is a sign and decimal digits, it
and the reader for bignums see the same number.
-/

namespace Exact

open Hash (Bignum)
open Nat (ofDigits)

/-- A slash is no digit in any radix. -/
lemma digitOf_slash (base : ℕ) : digitOf base '/'.toUInt8 = none := rfl

lemma digitOf_lt {base d : ℕ} {c : UInt8} (h : digitOf base c = some d) : d < base := by
  rw [digitOf, Option.filter_eq_some_iff] at h
  simpa using h.2

/-! ## Digits -/

lemma mapM_cons_eq_some {base : ℕ} {c : UInt8} {front : List UInt8} {digits : List ℕ}
    (h : (c :: front).mapM (digitOf base) = some digits) :
    ∃ d ds, digitOf base c = some d ∧ front.mapM (digitOf base) = some ds ∧ digits = d :: ds := by
  rw [List.mapM_cons] at h
  cases hc : digitOf base c with
  | none => simp [hc] at h
  | some d =>
    cases hfront : front.mapM (digitOf base) with
    | none => simp [hc, hfront] at h
    | some ds => exact ⟨d, ds, rfl, rfl, by simpa [hc, hfront] using h.symm⟩

lemma digits_lt {base : ℕ} {front : List UInt8} {digits : List ℕ}
    (h : front.mapM (digitOf base) = some digits) : ∀ d ∈ digits, d < base := by
  induction front generalizing digits with
  | nil =>
    cases h
    simp
  | cons c front ih =>
    obtain ⟨d, ds, hc, hfront, rfl⟩ := mapM_cons_eq_some h
    rw [List.forall_mem_cons]
    exact ⟨digitOf_lt hc, ih hfront⟩

lemma readDigits_split (base : ℕ) (text : List UInt8) :
    ∃ front, text = front ++ (readDigits base text).2 ∧
      front.mapM (digitOf base) = some (readDigits base text).1 := by
  induction text with
  | nil => exact ⟨[], rfl, rfl⟩
  | cons c rest ih =>
    obtain ⟨front, htext, hdigits⟩ := ih
    cases hc : digitOf base c with
    | none =>
      have heq : readDigits base (c :: rest) = ([], c :: rest) := by simp [readDigits, hc]
      exact ⟨[], by rw [heq]; rfl, by rw [heq]; rfl⟩
    | some d =>
      have heq : readDigits base (c :: rest) =
          (d :: (readDigits base rest).1, (readDigits base rest).2) := by simp [readDigits, hc]
      rw [heq]
      exact ⟨c :: front, by rw [List.cons_append, ← htext], by rw [List.mapM_cons, hc, hdigits]; rfl⟩

/-- Digits are read up to the first byte that is none. -/
lemma readDigits_append {base : ℕ} {front : List UInt8} {digits : List ℕ}
    (h : front.mapM (digitOf base) = some digits) {rest : List UInt8}
    (hrest : ∀ c ∈ rest.head?, digitOf base c = none) :
    readDigits base (front ++ rest) = (digits, rest) := by
  induction front generalizing digits with
  | nil =>
    cases h
    cases rest with
    | nil => rfl
    | cons c rest => simp [readDigits, hrest c (by simp)]
  | cons c front ih =>
    obtain ⟨d, ds, hc, hfront, rfl⟩ := mapM_cons_eq_some h
    rw [List.cons_append, readDigits, hc]
    simp only
    rw [ih hfront]

lemma digitsValue_concat (base : ℕ) (digits : List ℕ) (d : ℕ) :
    digitsValue base (digits ++ [d]) = digitsValue base digits * base + d := by
  rw [digitsValue, List.reverse_append, List.reverse_singleton, List.singleton_append, Nat.ofDigits_cons,
    digitsValue]
  ring

/-! ## `strtoll` -/

lemma readSign_split (text : List UInt8) :
    ∃ sign, text = sign ++ (readSign text).2 ∧ '/'.toUInt8 ∉ sign := by
  cases text with
  | nil => exact ⟨[], rfl, by simp⟩
  | cons c rest =>
    rw [readSign]
    split
    · rename_i hc
      exact ⟨[c], rfl, by rw [beq_iff_eq.1 hc]; decide⟩
    · split
      · rename_i hc
        exact ⟨[c], rfl, by rw [beq_iff_eq.1 hc]; decide⟩
      · exact ⟨[], rfl, by simp⟩

lemma dropHexMark_split (base : ℕ) (text : List UInt8) :
    ∃ mark, text = mark ++ dropHexMark base text ∧ '/'.toUInt8 ∉ mark := by
  rw [dropHexMark.eq_def]
  split
  · rename_i zero x digit rest
    split
    · rename_i hmark
      simp only [Bool.and_eq_true, Bool.or_eq_true, beq_iff_eq, decide_eq_true_eq] at hmark
      obtain ⟨⟨⟨-, rfl⟩, rfl | rfl⟩, -⟩ := hmark
      · exact ⟨['0'.toUInt8, 'x'.toUInt8], rfl, by decide⟩
      · exact ⟨['0'.toUInt8, 'X'.toUInt8], rfl, by decide⟩
    · exact ⟨[], rfl, by simp⟩
  · exact ⟨[], rfl, by simp⟩

lemma not_mem_digits {base : ℕ} {front : List UInt8} {digits : List ℕ} {c : UInt8}
    (h : front.mapM (digitOf base) = some digits) (hc : digitOf base c = none) : c ∉ front := by
  induction front generalizing digits with
  | nil => simp
  | cons c' front ih =>
    obtain ⟨d, ds, hc', hfront, -⟩ := mapM_cons_eq_some h
    intro hmem
    rcases List.mem_cons.1 hmem with rfl | hmem
    · simp [hc] at hc'
    · exact ih hfront hmem

/-- What `strtoll` consumes holds no slash. -/
lemma strtoll_split (start : List UInt8) (base : ℕ) :
    ∃ front, start = front ++ (strtoll start base).endptr ∧ '/'.toUInt8 ∉ front := by
  have hspaces : '/'.toUInt8 ∉ start.takeWhile isSpace := fun h => by
    have := List.mem_takeWhile_imp h
    revert this
    decide
  obtain ⟨sign, hsign, hsign'⟩ := readSign_split (start.dropWhile isSpace)
  obtain ⟨mark, hmark, hmark'⟩ := dropHexMark_split base (readSign (start.dropWhile isSpace)).2
  obtain ⟨front, hfront, hdigits⟩ :=
    readDigits_split base (dropHexMark base (readSign (start.dropWhile isSpace)).2)
  have hend : (strtoll start base).endptr = start ∨ (strtoll start base).endptr =
      (readDigits base (dropHexMark base (readSign (start.dropWhile isSpace)).2)).2 := by
    rw [strtoll]
    simp only
    split
    · exact .inl rfl
    · split
      · exact .inr rfl
      · split <;> exact .inr rfl
  rcases hend with hend | hend
  · exact ⟨[], by rw [hend]; rfl, by simp⟩
  · refine ⟨start.takeWhile isSpace ++ (sign ++ (mark ++ front)), ?_, ?_⟩
    · rw [hend, List.append_assoc, List.append_assoc, List.append_assoc, ← hfront, ← hmark, ← hsign,
        List.takeWhile_append_dropWhile]
    · simp only [List.mem_append, not_or]
      exact ⟨hspaces, hsign', hmark', not_mem_digits hdigits (digitOf_slash base)⟩

lemma dropHexMark_ten (text : List UInt8) : dropHexMark 10 text = text := by
  rw [dropHexMark.eq_def]
  split
  · rw [if_neg (by simp)]
  · rfl

/-- Where `strtoll` has moved on there is a digit. -/
lemma strtoll_moved {start : List UInt8} (hspace : start.dropWhile isSpace = start)
    (hmoved : (strtoll start 10).endptr ≠ start) :
    ∃ front digits, (readSign start).2 = front ++ (strtoll start 10).endptr ∧
      front.mapM (digitOf 10) = some digits ∧ digits ≠ [] := by
  obtain ⟨front, hfront, hdigits⟩ := readDigits_split 10 (readSign start).2
  have hend : (readDigits 10 (readSign start).2).1 ≠ [] ∧
      (strtoll start 10).endptr = (readDigits 10 (readSign start).2).2 := by
    rw [strtoll] at hmoved ⊢
    simp only [hspace, dropHexMark_ten] at hmoved ⊢
    split at hmoved
    · exact absurd rfl hmoved
    · rename_i hne
      rw [if_neg hne]
      refine ⟨by simpa using hne, ?_⟩
      split
      · rfl
      · split <;> rfl
  exact ⟨front, _, by rw [hend.2]; exact hfront, hdigits, hend.1⟩

/-- Where a text starts with a sign or digits, and digits are all there is up to `rest`. -/
lemma strtoll_digits {start front rest : List UInt8} {digits : List ℕ}
    (hspace : start.dropWhile isSpace = start) (htext : (readSign start).2 = front ++ rest)
    (hdigits : front.mapM (digitOf 10) = some digits) (hne : digits ≠ [])
    (hrest : ∀ c ∈ rest.head?, digitOf 10 c = none) :
    (strtoll start 10).endptr = rest ∧
      ((strtoll start 10).erange = true ↔
        signedValue (readSign start).1 (digitsValue 10 digits) < -2 ^ 63 ∨
          2 ^ 63 ≤ signedValue (readSign start).1 (digitsValue 10 digits)) := by
  rw [strtoll]
  simp only [hspace, htext, dropHexMark_ten, readDigits_append hdigits hrest]
  rw [if_neg (by simpa using hne), Int64.toInt_minValue, Int64.toInt_maxValue]
  split
  · exact ⟨rfl, by simp; omega⟩
  · split
    · exact ⟨rfl, by simp; omega⟩
    · exact ⟨rfl, by simp; omega⟩

/-! ## Bignums -/

lemma mulAdd_loop {digits : List ℕ} (hdigits : ∀ d ∈ digits, d < 10) :
    let limbs := digits.foldl (fun limbs digit => Radix.mulAdd radix 10 digit limbs) [0]
    Radix.Digits radix limbs ∧ limbs ≠ [] ∧ ofDigits radix limbs = digitsValue 10 digits := by
  induction digits using List.reverseRecOn with
  | nil => exact ⟨by simp [Radix.Digits, radix], by simp, by simp [digitsValue]⟩
  | append_singleton digits d ih =>
    have hd : d < 10 := hdigits d (by simp)
    have hradix : (10 : ℕ) < radix := by decide
    obtain ⟨hlimbs, hne, hval⟩ := ih fun d' hd' => hdigits d' (by simp [hd'])
    simp only [List.foldl_append, List.foldl_cons, List.foldl_nil]
    refine ⟨Radix.digits_mulAdd hradix (by omega) hlimbs, Radix.mulAdd_ne_nil hne, ?_⟩
    rw [Radix.ofDigits_mulAdd, hval, digitsValue_concat]

lemma bignumFromString_spec {str : List UInt8} {digits : List ℕ}
    (hdigits : (readSign str).2.mapM (digitOf 10) = some digits) (hne : (readSign str).2 ≠ []) :
    ∃ bn, bignumFromString str = some bn ∧ Normalized bn ∧
      toInt bn = signedValue (readSign str).1 (digitsValue 10 digits) := by
  obtain ⟨hlimbs, hlne, hval⟩ := mulAdd_loop (digits_lt hdigits)
  refine ⟨_, by simp only [bignumFromString, hdigits]; rw [if_neg (by simpa using hne)]; rfl, ?_⟩
  obtain ⟨hnorm, -⟩ := normalize_limbsOf (readSign str).1 hlimbs hlne
  refine ⟨hnorm, ?_⟩
  rw [toInt_normalize (by simpa [limbsOf] using hlne), toInt, signedValue]
  simp only [magnitude_limbsOf hlimbs, hval]

end Exact
