import Eshkol.Memory.Parse

/-!
# What the parser of the store reads

Values whose symbols are tokens and whose strings have no quotes are read back from their text. What
is read does not depend on the text that comes after it, unless an atom may go on there.
-/

namespace Memory

open Cursor (Rest)
open Scheme (Datum Text DoubleText stringToNumber integerText)

variable {δ : Type} [DoubleText δ]

/-! ## The functions on texts -/

/-- What `ms-parse-at` reads, as texts. -/
def readAt (s : Text) : Option (Datum δ × Text) := Rest.plain (msParseAt s)

/-- What the loop of `ms-parse-list` reads, as texts. -/
def readList (acc : List (Datum δ)) (s : Text) : Option (Datum δ × Text) :=
  Rest.plain (msParseList acc s)

lemma readAt_nil {s : Text} (h : msSkipWs s = []) : (readAt s : Option (Datum δ × Text)) = none := by
  rw [readAt, msParseAt]
  split
  · rfl
  · rename_i c t h'
    rw [h] at h'
    cases h'

lemma readAt_cons {s t : Text} {c : Char} (h : msSkipWs s = c :: t) :
    (readAt s : Option (Datum δ × Text)) =
      if c = '(' then readList [] t
      else if c = '"' then (Rest.plain (msParseString t)).map fun r => (.string r.1, r.2)
      else if c = '#' then Rest.plain (msParseHash t)
      else Rest.plain (msParseAtom (c :: t)) := by
  rw [readAt, msParseAt]
  split
  · rename_i h'
    rw [h] at h'
    cases h'
  · rename_i c' t' h'
    rw [h] at h'
    cases h'
    simp only [readList, Rest.plain]
    split_ifs <;> simp only [Option.map_map] <;> rfl

lemma readList_nil {s : Text} (acc : List (Datum δ)) (h : msSkipWs s = []) : readList acc s = none := by
  rw [readList, msParseList]
  split
  · rfl
  · rename_i c t h'
    rw [h] at h'
    cases h'

lemma readList_cons {s t : Text} {c : Char} (acc : List (Datum δ)) (h : msSkipWs s = c :: t) :
    readList acc s =
      if c = ')' then some (.list acc.reverse, t)
      else if c = '.' ∧ t.head? = some ' ' then
        (readAt t.tail).bind fun tail =>
          match msSkipWs tail.2 with
          | [] => none
          | d :: u => if d = ')' then some (msImproper acc.reverse tail.1, u) else none
      else (readAt (c :: t)).bind fun item => readList (item.1 :: acc) item.2 := by
  rw [readList, msParseList]
  split
  · rename_i h'
    rw [h] at h'
    cases h'
  · rename_i c' t' h'
    rw [h] at h'
    cases h'
    simp only [readAt, readList, Rest.plain]
    split_ifs
    · rfl
    · cases @msParseAt δ _ t.tail with
      | none => rfl
      | some tail =>
        simp only [Option.bind_eq_bind, Option.bind_some, Option.map_some]
        split
        · rename_i h'
          rw [h']
          rfl
        · rename_i d u h'
          by_cases hd : d = ')'
          · simp only [h', if_pos hd, Option.map_some]
          · simp only [h', if_neg hd, Option.map_none]
    · cases @msParseAt δ _ (c :: t) with
      | none => rfl
      | some item =>
        simp only [Option.bind_eq_bind, Option.bind_some, Option.map_some]
        cases msParseList (item.1 :: acc) item.2.1 <;> rfl

/-! ## Reading back -/

/-- Symbols that are read back as symbols. -/
structure IsToken (t : Text) : Prop where
  ne_nil : t ≠ []
  noEnd : ∀ c ∈ t, endsAtom c = false
  noMark : t.head? ≠ some '"' ∧ t.head? ≠ some '#'
  notNumeric : msNumericToken t = false

instance (t : Text) : Decidable (IsToken t) :=
  decidable_of_iff (t ≠ [] ∧ (∀ c ∈ t, endsAtom c = false) ∧ (t.head? ≠ some '"' ∧ t.head? ≠ some '#') ∧
    msNumericToken t = false) ⟨fun h => ⟨h.1, h.2.1, h.2.2.1, h.2.2.2⟩, fun h => ⟨h.1, h.2, h.3, h.4⟩⟩

/-- Values that are read back from their text. -/
def Printable : Datum δ → Prop
  | .null => True
  | .pair a d => Printable a ∧ Printable d
  | .string s => '"' ∉ s
  | .symbol s => IsToken s
  | .integer _ => True
  | .real _ => False
  | .boolean _ => True
  | .char _ => False

/-- Where an atom ends. -/
def Delimited (rest : Text) : Prop := ∀ c, rest.head? = some c → endsAtom c = true

lemma delimited_cons {c : Char} {rest : Text} (h : endsAtom c = true) : Delimited (c :: rest) := by
  intro d hd
  obtain rfl := Option.some.inj hd
  exact h

/-- A text that starts an element of a list. -/
def StartsItem (s : Text) : Prop :=
  ∃ c t, s = c :: t ∧ c ≠ ' ' ∧ c ≠ ')' ∧ ¬ (c = '.' ∧ t.head? = some ' ')

lemma msSkipWs_cons {c : Char} {t : Text} (h : c ≠ ' ') : msSkipWs (c :: t) = c :: t := by
  simp [msSkipWs, h]

lemma StartsItem.append {s : Text} (h : StartsItem s) (hs : s ≠ ['.']) (rest : Text) :
    StartsItem (s ++ rest) := by
  obtain ⟨c, t, rfl, hspace, hclose, hdot⟩ := h
  refine ⟨c, t ++ rest, rfl, hspace, hclose, ?_⟩
  rintro ⟨rfl, hhead⟩
  cases t with
  | nil => exact hs rfl
  | cons d t => exact hdot ⟨rfl, hhead⟩

lemma msToken_append {t rest : Text} (ht : ∀ c ∈ t, endsAtom c = false) (hrest : Delimited rest) :
    msToken (t ++ rest) = t ∧ msAfterToken (t ++ rest) = rest := by
  have hstop : rest.takeWhile (fun c => !endsAtom c) = [] ∧
      rest.dropWhile (fun c => !endsAtom c) = rest := by
    cases rest with
    | nil => exact ⟨rfl, rfl⟩
    | cons c rest => simp [hrest c rfl]
  rw [msToken, msAfterToken, List.takeWhile_append_of_pos (by simpa using ht),
    List.dropWhile_append_of_pos (by simpa using ht), hstop.1, hstop.2, List.append_nil]
  exact ⟨rfl, rfl⟩

/-- A token that is no list, string or hash is read as its value. -/
lemma readAt_token {t rest : Text} (hne : t ≠ []) (ht : ∀ c ∈ t, endsAtom c = false)
    (hquote : t.head? ≠ some '"') (hhash : t.head? ≠ some '#') (hrest : Delimited rest) :
    readAt (t ++ rest) = some ((tokenDatum t : Datum δ), rest) := by
  obtain ⟨htoken, hafter⟩ := msToken_append ht hrest
  obtain ⟨c, u, rfl⟩ := List.exists_cons_of_ne_nil hne
  have hc : endsAtom c = false := ht c List.mem_cons_self
  have hend : c ≠ ' ' ∧ c ≠ '(' ∧ c ≠ ')' := by
    simpa [endsAtom, and_assoc] using hc
  rw [List.cons_append] at htoken hafter ⊢
  have hquote' : c ≠ '"' := by simpa using hquote
  have hhash' : c ≠ '#' := by simpa using hhash
  rw [readAt_cons (msSkipWs_cons hend.1), if_neg hend.2.1, if_neg hquote', if_neg hhash',
    msParseAtom, dif_neg (by rw [htoken]; exact List.cons_ne_nil c u)]
  simp only [Rest.plain, Option.map_some, htoken, hafter]

lemma msParseString_append {s rest : Text} (hs : '"' ∉ s) :
    Rest.plain (msParseString (s ++ '"' :: rest)) = some (s, rest) := by
  induction s with
  | nil => rfl
  | cons c s ih =>
    have hne : c ≠ '"' := fun h => hs (h ▸ List.mem_cons_self)
    obtain ⟨r, hr, heq⟩ := Option.map_eq_some_iff.1 (ih fun h => hs (List.mem_cons_of_mem c h))
    have htext : r.1 = s := congrArg Prod.fst heq
    have hleft : r.2.1 = rest := congrArg Prod.snd heq
    rw [List.cons_append, msParseString, if_neg hne, hr]
    simp only [Rest.plain, Option.map_some, Rest.weaken_val, htext, hleft]

lemma readAt_string {s rest : Text} (hs : '"' ∉ s) :
    readAt ('"' :: (s ++ '"' :: rest)) = some ((.string s : Datum δ), rest) := by
  rw [readAt_cons (msSkipWs_cons (by decide)), if_neg (by decide), if_pos rfl,
    msParseString_append hs]
  rfl

lemma readAt_boolean (b : Bool) (rest : Text) :
    readAt (Datum.atomText (.boolean b : Datum δ) ++ rest) = some ((.boolean b : Datum δ), rest) := by
  cases b with
  | true =>
    show @readAt δ _ ('#' :: 't' :: rest) = _
    rw [readAt_cons (msSkipWs_cons (by decide))]
    rfl
  | false =>
    show @readAt δ _ ('#' :: 'f' :: rest) = _
    rw [readAt_cons (msSkipWs_cons (by decide))]
    rfl

lemma endsAtom_of_isDigit {c : Char} (h : c.isDigit = true) : endsAtom c = false := by
  rw [endsAtom, decide_eq_false_iff_not]
  rintro (rfl | rfl | rfl) <;> cases h

/-- The text of an integer is a token of digits. -/
lemma msNumericToken_integerText (i : ℤ) : msNumericToken (integerText i) = true := by
  obtain ⟨c, t, h, hc⟩ := Scheme.exists_toDigits_cons i.natAbs
  have hall : ∀ d ∈ Nat.toDigits 10 i.natAbs, d.isDigit = true := fun _ => Scheme.isDigit_of_mem_toDigits
  have hbody : (if (integerText i).head? = some '-' then (integerText i).tail else integerText i) =
      Nat.toDigits 10 i.natAbs := by
    rw [integerText]
    by_cases hneg : i < 0
    · rw [if_pos hneg, List.head?_cons, if_pos rfl, List.tail_cons]
    · rw [if_neg hneg, if_neg]
      rw [h, List.head?_cons, Option.some.injEq]
      rintro rfl
      cases hc
  rw [msNumericToken, hbody, decide_eq_true_iff, h, List.all_eq_true, ← h]
  exact ⟨Nat.toDigits_ne_nil, fun d hd => decide_eq_true (.inl (hall d hd))⟩

lemma integerText_chars {i : ℤ} {c : Char} (h : c ∈ integerText i) : c = '-' ∨ c.isDigit = true := by
  rw [integerText] at h
  split at h
  · rcases List.mem_cons.1 h with rfl | h
    · exact .inl rfl
    · exact .inr (Scheme.isDigit_of_mem_toDigits h)
  · exact .inr (Scheme.isDigit_of_mem_toDigits h)

lemma integerText_ne_nil (i : ℤ) : integerText i ≠ [] := by
  rw [integerText]
  split
  · exact List.cons_ne_nil _ _
  · exact Nat.toDigits_ne_nil

lemma readAt_integer {i : ℤ} {rest : Text} (hrest : Delimited rest) :
    readAt (integerText i ++ rest) = some ((.integer i : Datum δ), rest) := by
  have hchars : ∀ c ∈ integerText i, endsAtom c = false := fun c hc => by
    rcases integerText_chars hc with rfl | hdigit
    · rfl
    · exact endsAtom_of_isDigit hdigit
  have hhead : ∀ c, (integerText i).head? = some c → c = '-' ∨ c.isDigit = true :=
    fun c hc => integerText_chars (List.mem_of_head? hc)
  rw [readAt_token (integerText_ne_nil i) hchars (fun h => ?_) (fun h => ?_) hrest, tokenDatum,
    if_pos (msNumericToken_integerText i), Scheme.stringToNumber_integerText]
  · rcases hhead _ h with h' | h' <;> cases h'
  · rcases hhead _ h with h' | h' <;> cases h'

/-- A value that is read back starts an element of a list. -/
lemma Printable.startsItem {d : Datum δ} (h : Printable d) :
    StartsItem d.canonicalString ∧ d.canonicalString ≠ ['.'] := by
  have hother : ∀ c t, c ∈ ['(', '"', '#'] → StartsItem (c :: t) ∧ (c :: t : Text) ≠ ['.'] := by
    intro c t hc
    have hne : c ≠ ' ' ∧ c ≠ ')' ∧ c ≠ '.' := by
      simp only [List.mem_cons, List.not_mem_nil, or_false] at hc
      rcases hc with rfl | rfl | rfl <;> decide
    refine ⟨⟨c, t, rfl, hne.1, hne.2.1, fun hdot => hne.2.2 hdot.1⟩, ?_⟩
    rintro heq
    exact hne.2.2 (List.cons.inj heq).1
  cases d with
  | null => exact hother _ _ (by decide)
  | pair a d =>
    rw [Datum.canonicalString]
    exact hother _ _ (by decide)
  | string s =>
    rw [Datum.canonicalString, Datum.atomText]
    exact hother _ _ (by decide)
  | symbol s =>
    have hs : IsToken s := h
    obtain ⟨c, t, rfl⟩ := List.exists_cons_of_ne_nil hs.ne_nil
    rw [Datum.canonicalString, Datum.atomText]
    have hc := hs.noEnd c List.mem_cons_self
    refine ⟨⟨c, t, rfl, ?_, ?_, ?_⟩, ?_⟩
    · rintro rfl
      cases hc
    · rintro rfl
      cases hc
    · rintro ⟨-, hspace⟩
      have hmem := hs.noEnd ' ' (List.mem_cons_of_mem _ (List.mem_of_head? hspace))
      cases hmem
    · intro heq
      have hnumeric := hs.notNumeric
      rw [heq] at hnumeric
      cases hnumeric
  | integer i =>
    obtain ⟨c, t, ht⟩ := List.exists_cons_of_ne_nil (integerText_ne_nil i)
    have hc : c = '-' ∨ c.isDigit = true := integerText_chars (ht ▸ List.mem_cons_self)
    have hne : c ≠ ' ' ∧ c ≠ ')' ∧ c ≠ '.' := by
      rcases hc with rfl | hc
      · decide
      · refine ⟨?_, ?_, ?_⟩ <;> rintro rfl <;> cases hc
    rw [Datum.canonicalString, Datum.atomText, ht]
    refine ⟨⟨c, t, rfl, hne.1, hne.2.1, fun hdot => hne.2.2 hdot.1⟩, ?_⟩
    intro heq
    exact hne.2.2 (List.cons.inj heq).1
  | real x => cases h
  | boolean b => cases b <;> exact hother _ _ (by decide)
  | char c => cases h

/-- A value that is no pair is read from its text wherever an atom may end. -/
lemma readAt_atom {d : Datum δ} (h : Printable d) (hpair : ∀ a b, d ≠ .pair a b) {rest : Text}
    (hrest : Delimited rest) : readAt (d.atomText ++ rest) = some (d, rest) := by
  cases d with
  | null =>
    show readAt ('(' :: ')' :: rest) = _
    rw [readAt_cons (msSkipWs_cons (by decide)), if_pos rfl,
      readList_cons _ (msSkipWs_cons (by decide)), if_pos rfl]
    rfl
  | pair a d => exact absurd rfl (hpair a d)
  | string s =>
    show readAt ('"' :: ((s ++ ['"']) ++ rest)) = _
    rw [List.append_assoc]
    exact readAt_string h
  | symbol s =>
    have hs : IsToken s := h
    show readAt (s ++ rest) = _
    rw [readAt_token hs.ne_nil hs.noEnd hs.noMark.1 hs.noMark.2 hrest, tokenDatum,
      if_neg (by simp [hs.notNumeric])]
  | integer i => exact readAt_integer hrest
  | real x => cases h
  | boolean b => exact readAt_boolean b rest
  | char c => cases h

omit [DoubleText δ] in
lemma msImproper_null (ds : List (Datum δ)) : msImproper ds .null = .list ds := by
  induction ds with
  | nil => rfl
  | cons d ds ih =>
    rw [msImproper, ih]
    rfl

omit [DoubleText δ] in
lemma msImproper_append (ds es : List (Datum δ)) (tail : Datum δ) :
    msImproper (ds ++ es) tail = msImproper ds (msImproper es tail) := by
  induction ds with
  | nil => rfl
  | cons d ds ih => rw [List.cons_append, msImproper, ih, msImproper]

/-- The next element of a list. -/
lemma readList_item {a : Datum δ} {s : Text} (acc : List (Datum δ)) (ha : Printable a)
    (hread : readAt (a.canonicalString ++ s) = some (a, s)) :
    readList acc (a.canonicalString ++ s) = readList (a :: acc) s := by
  obtain ⟨hstarts, hdot⟩ := ha.startsItem
  obtain ⟨c, t, heq, hspace, hclose, hnodot⟩ := hstarts.append hdot s
  rw [heq] at hread ⊢
  rw [readList_cons acc (msSkipWs_cons hspace), if_neg hclose, if_neg hnodot, hread]
  rfl

/-- A list goes on after a blank. -/
lemma readList_space (acc : List (Datum δ)) (s : Text) :
    readList acc (' ' :: s) = readList acc s := by
  have hskip : msSkipWs (' ' :: s) = msSkipWs s := by simp [msSkipWs]
  cases hs : msSkipWs s with
  | nil => rw [readList_nil acc hs, readList_nil acc (hskip.trans hs)]
  | cons c t => rw [readList_cons acc hs, readList_cons acc (hskip.trans hs)]

/-- The end of a list whose tail is no list. -/
lemma readList_tail {d : Datum δ} (acc : List (Datum δ)) {rest : Text}
    (hread : readAt (d.atomText ++ ')' :: rest) = some (d, ')' :: rest)) :
    readList acc ((" . ".toList ++ d.atomText) ++ ')' :: rest) =
      some (msImproper acc.reverse d, rest) := by
  show readList acc (' ' :: '.' :: ' ' :: (d.atomText ++ ')' :: rest)) = _
  rw [readList_space, readList_cons acc (msSkipWs_cons (by decide)), if_neg (by decide),
    if_pos ⟨rfl, rfl⟩, List.tail_cons, hread, Option.bind_some,
    msSkipWs_cons (by decide : (')' : Char) ≠ ' ')]
  rfl

lemma delimited_canonicalStringRest (d : Datum δ) (rest : Text) :
    Delimited (d.canonicalStringRest ++ ')' :: rest) := by
  cases d <;> exact delimited_cons rfl

/-- What reads a value back from its text, and a list from what stands after its first elements. -/
structure ReadsBack (d : Datum δ) : Prop where
  at_text : ∀ rest, Delimited rest → readAt (d.canonicalString ++ rest) = some (d, rest)
  list_rest : ∀ acc rest, readList acc (d.canonicalStringRest ++ ')' :: rest) =
    some (msImproper acc.reverse d, rest)

lemma Printable.readsBack_atom {d : Datum δ} (h : Printable d) (hpair : ∀ a b, d ≠ .pair a b)
    (htext : d.canonicalString = d.atomText)
    (hrest : d.canonicalStringRest = " . ".toList ++ d.atomText) : ReadsBack d where
  at_text rest hdelimited := by
    rw [htext]
    exact readAt_atom h hpair hdelimited
  list_rest acc rest := by
    rw [hrest]
    exact readList_tail acc (readAt_atom h hpair (delimited_cons rfl))

/-- Printable values are read back. -/
lemma Printable.readsBack {d : Datum δ} (h : Printable d) : ReadsBack d := by
  induction d with
  | null =>
    refine ⟨fun rest hdelimited => readAt_atom h (by simp) hdelimited, fun acc rest => ?_⟩
    rw [Datum.canonicalStringRest, List.nil_append, readList_cons acc (msSkipWs_cons (by decide)),
      if_pos rfl, msImproper_null]
  | pair a d iha ihd =>
    have hitem := fun acc s hs => readList_item acc h.1 ((iha h.1).at_text s hs)
    have hd := (ihd h.2).list_rest
    constructor
    · intro rest _
      have hfirst := hitem [] _ (delimited_canonicalStringRest d rest)
      rw [Datum.canonicalString, List.cons_append, List.append_assoc, List.append_assoc,
        List.singleton_append, readAt_cons (msSkipWs_cons (by decide)), if_pos rfl, hfirst, hd]
      rfl
    · intro acc rest
      have hnext := hitem acc _ (delimited_canonicalStringRest d rest)
      rw [Datum.canonicalStringRest, List.cons_append, List.append_assoc, readList_space, hnext, hd,
        List.reverse_cons, msImproper_append]
      rfl
  | string s => exact h.readsBack_atom (by simp) rfl rfl
  | symbol s => exact h.readsBack_atom (by simp) rfl rfl
  | integer i => exact h.readsBack_atom (by simp) rfl rfl
  | real x => exact h.readsBack_atom (by simp) rfl rfl
  | boolean b => exact h.readsBack_atom (by simp) rfl rfl
  | char c => exact h.readsBack_atom (by simp) rfl rfl

/-! ## Derivations -/

/-- Derivations of what is read: of a value, or of the rest of a list after the elements given in
reverse. -/
inductive Reads : Option (List (Datum δ)) → Text → Datum δ → Text → Prop
  | list {s t r : Text} {d : Datum δ} : msSkipWs s = '(' :: t → Reads (some []) t d r →
      Reads none s d r
  | string {s t u r : Text} : msSkipWs s = '"' :: t →
      Rest.plain (msParseString t) = some (u, r) → Reads none s (.string u) r
  | hash {s t r : Text} {d : Datum δ} : msSkipWs s = '#' :: t →
      Rest.plain (msParseHash t) = some (d, r) → Reads none s d r
  | atom {s t : Text} {c : Char} : msSkipWs s = c :: t → c ≠ '(' → c ≠ '"' → c ≠ '#' →
      msToken (c :: t) ≠ [] →
      Reads none s (tokenDatum (msToken (c :: t))) (msAfterToken (c :: t))
  | close {s t : Text} {acc : List (Datum δ)} : msSkipWs s = ')' :: t →
      Reads (some acc) s (.list acc.reverse) t
  | tail {s t u r : Text} {acc : List (Datum δ)} {d : Datum δ} : msSkipWs s = '.' :: t →
      t.head? = some ' ' → Reads none t.tail d u → msSkipWs u = ')' :: r →
      Reads (some acc) s (msImproper acc.reverse d) r
  | item {s t u r : Text} {c : Char} {acc : List (Datum δ)} {a d : Datum δ} :
      msSkipWs s = c :: t → c ≠ ')' → ¬ (c = '.' ∧ t.head? = some ' ') → Reads none (c :: t) a u →
      Reads (some (a :: acc)) u d r → Reads (some acc) s d r

/-- What the functions read, under the index of a derivation. -/
def read : Option (List (Datum δ)) → Text → Option (Datum δ × Text)
  | none => readAt
  | some acc => readList acc

lemma read_of_reads {m : Option (List (Datum δ))} {s r : Text} {d : Datum δ}
    (h : Reads m s d r) : read m s = some (d, r) := by
  induction h with
  | list hs _ ih =>
    rw [read, readAt_cons hs, if_pos rfl]
    exact ih
  | string hs hstring =>
    rw [read, readAt_cons hs, if_neg (by decide), if_pos rfl, hstring]
    rfl
  | hash hs hhash =>
    rw [read, readAt_cons hs, if_neg (by decide), if_neg (by decide), if_pos rfl, hhash]
  | atom hs hopen hquote hmark htoken =>
    rw [read, readAt_cons hs, if_neg hopen, if_neg hquote, if_neg hmark, msParseAtom,
      dif_neg htoken]
    rfl
  | close hs => rw [read, readList_cons _ hs, if_pos rfl]
  | @tail s t u r acc d hs hspace _ hclose ih =>
    have ih' : readAt t.tail = some (d, u) := ih
    rw [read, readList_cons _ hs, if_neg (by decide), if_pos ⟨rfl, hspace⟩, ih', Option.bind_some]
    simp only [hclose, if_true]
  | @item s t u r c acc a d hs hclose hdot _ _ iha ihd =>
    have iha' : readAt (c :: t) = some (a, u) := iha
    rw [read, readList_cons _ hs, if_neg hclose, if_neg hdot, iha', Option.bind_some]
    exact ihd

/-- What is left after a value is shorter. -/
lemma length_lt_of_readAt {s r : Text} {d : Datum δ} (h : readAt s = some (d, r)) :
    r.length < s.length := by
  obtain ⟨x, -, hx⟩ := Option.map_eq_some_iff.1 h
  have hr : x.2.1 = r := congrArg Prod.snd hx
  exact hr ▸ x.2.2

lemma reads_of_read {m : Option (List (Datum δ))} {s r : Text} {d : Datum δ}
    (h : read m s = some (d, r)) : Reads m s d r := by
  -- reading a value looks at the text first and then at a list after its first character
  induction hn : 2 * s.length + m.elim 0 (fun _ => 1) using Nat.strong_induction_on
    generalizing m s d r with
  | _ n ih =>
    subst hn
    have hshort : ∀ (m' : Option (List (Datum δ))) (s' : Text) {d' : Datum δ} {r' : Text},
        2 * s'.length + m'.elim 0 (fun _ => 1) < 2 * s.length + m.elim 0 (fun _ => 1) →
        read m' s' = some (d', r') → Reads m' s' d' r' := fun _ _ _ _ hlt hr => ih _ hlt hr rfl
    cases m with
    | none =>
      rw [read] at h
      cases hs : msSkipWs s with
      | nil =>
        rw [readAt_nil hs] at h
        cases h
      | cons c t =>
        have hlength := length_msSkipWs_le s
        rw [hs, List.length_cons] at hlength
        rw [readAt_cons hs] at h
        split_ifs at h with hopen hquote hmark
        · subst hopen
          exact .list hs (hshort (some []) t (by simp; omega) h)
        · subst hquote
          obtain ⟨⟨u, v⟩, hstring, heq⟩ := Option.map_eq_some_iff.1 h
          obtain ⟨rfl, rfl⟩ := Prod.mk.inj heq
          exact .string hs hstring
        · subst hmark
          exact .hash hs h
        · rw [msParseAtom] at h
          split_ifs at h with htoken
          · cases h
          · obtain ⟨rfl, rfl⟩ := Prod.mk.inj (Option.some.inj h)
            exact .atom hs hopen hquote hmark htoken
    | some acc =>
      rw [read] at h
      cases hs : msSkipWs s with
      | nil =>
        rw [readList_nil acc hs] at h
        cases h
      | cons c t =>
        have hlength := length_msSkipWs_le s
        rw [hs, List.length_cons] at hlength
        rw [readList_cons acc hs] at h
        split_ifs at h with hclose hdot
        · subst hclose
          obtain ⟨rfl, rfl⟩ := Prod.mk.inj (Option.some.inj h)
          exact .close hs
        · obtain ⟨rfl, hspace⟩ := hdot
          obtain ⟨⟨e, u⟩, htail, h⟩ := Option.bind_eq_some_iff.1 h
          have htail' := hshort none t.tail (by simp; omega) htail
          cases hu : msSkipWs u with
          | nil => simp [hu] at h
          | cons x v =>
            simp only [hu] at h
            split_ifs at h with hx
            subst hx
            obtain ⟨rfl, rfl⟩ := Prod.mk.inj (Option.some.inj h)
            exact .tail hs hspace htail' hu
        · obtain ⟨⟨a, u⟩, hitem, h⟩ := Option.bind_eq_some_iff.1 h
          have hshorter := length_lt_of_readAt hitem
          rw [List.length_cons] at hshorter
          exact .item hs hclose hdot (hshort none (c :: t) (by simp; omega) hitem)
            (hshort (some (a :: acc)) u (by simp; omega) h)

lemma readAt_iff {s r : Text} {d : Datum δ} : readAt s = some (d, r) ↔ Reads none s d r :=
  ⟨fun h => reads_of_read (m := none) h, fun h => read_of_reads h⟩

/-! ## What comes after -/

lemma notMem_of_msParseString {t u r : Text}
    (h : Rest.plain (msParseString t) = some (u, r)) : '"' ∉ u ∧ t = u ++ '"' :: r := by
  induction t generalizing u with
  | nil => cases h
  | cons c t ih =>
    rw [msParseString] at h
    by_cases hc : c = '"'
    · subst hc
      rw [if_pos rfl] at h
      obtain ⟨rfl, rfl⟩ := Prod.mk.inj (Option.some.inj h)
      exact ⟨List.not_mem_nil, rfl⟩
    · rw [if_neg hc, Rest.plain, Option.map_map] at h
      obtain ⟨x, hx, heq⟩ := Option.map_eq_some_iff.1 h
      obtain ⟨rfl, rfl⟩ := Prod.mk.inj heq
      obtain ⟨hnot, htext⟩ := ih (u := x.1) (by rw [hx]; rfl)
      refine ⟨fun hmem => ?_, congrArg (c :: ·) htext⟩
      rcases List.mem_cons.1 hmem with h' | h'
      · exact hc h'.symm
      · exact hnot h'

lemma msSkipWs_append {s t : Text} {c : Char} (h : msSkipWs s = c :: t) (x : Text) :
    msSkipWs (s ++ x) = c :: (t ++ x) := by
  rw [msSkipWs, List.dropWhile_append, ← msSkipWs, h]
  rfl

lemma msToken_append_of_ne {s : Text} (h : msAfterToken s ≠ []) (x : Text) :
    msToken (s ++ x) = msToken s ∧ msAfterToken (s ++ x) = msAfterToken s ++ x := by
  have hsplit := msToken_append_msAfterToken s
  have hdelimited : Delimited (msAfterToken s ++ x) := by
    have hstop := List.head?_dropWhile_not (fun c => !endsAtom c) s
    obtain ⟨c, t, ht⟩ := List.exists_cons_of_ne_nil h
    rw [← msAfterToken, ht, List.head?_cons] at hstop
    rw [ht]
    exact delimited_cons (by simpa using hstop)
  have hkept : ∀ c ∈ msToken s, endsAtom c = false := fun c hc => by
    have hkept := List.mem_takeWhile_imp hc
    simpa using hkept
  have happend := msToken_append hkept hdelimited
  rwa [← List.append_assoc, hsplit] at happend

lemma Reads.ne_nil {acc : List (Datum δ)} {s r : Text} {d : Datum δ}
    (h : Reads (some acc) s d r) : s ≠ [] := by
  rintro rfl
  cases h with
  | close hs => cases hs
  | tail hs => cases hs
  | item hs => cases hs

/-- Text that comes after does not change what is read, unless an atom may go on. -/
lemma Reads.append {m : Option (List (Datum δ))} {s r : Text} {d : Datum δ}
    (h : Reads m s d r) (hend : m = none → r ≠ [] ∨ ∃ t, msSkipWs s = '(' :: t) (x : Text) :
    Reads m (s ++ x) d (r ++ x) := by
  induction h with
  | list hs _ ih => exact .list (msSkipWs_append hs x) (ih (by simp))
  | @string s t u r hs hstring =>
    refine .string (msSkipWs_append hs x) ?_
    obtain ⟨hnot, rfl⟩ := notMem_of_msParseString hstring
    rw [List.append_assoc]
    exact msParseString_append hnot
  | @hash s t r d hs hhash =>
    refine .hash (msSkipWs_append hs x) ?_
    cases t with
    | nil => cases hhash
    | cons c t =>
      rw [List.cons_append, msParseHash]
      rw [msParseHash] at hhash
      split_ifs at hhash ⊢
      · obtain ⟨rfl, rfl⟩ := Prod.mk.inj (Option.some.inj hhash)
        rfl
      · obtain ⟨rfl, rfl⟩ := Prod.mk.inj (Option.some.inj hhash)
        rfl
      · cases hhash
  | @atom s t c hs hopen hquote hmark htoken =>
    have hafter : msAfterToken (c :: t) ≠ [] := by
      rcases hend rfl with hne | ⟨u, hu⟩
      · exact hne
      · rw [hs] at hu
        exact absurd (List.cons.inj hu).1 hopen
    obtain ⟨htoken', hafter'⟩ := msToken_append_of_ne hafter x
    rw [← htoken', ← hafter', List.cons_append]
    exact .atom (msSkipWs_append hs x) hopen hquote hmark (by rwa [← List.cons_append, htoken'])
  | close hs => exact .close (msSkipWs_append hs x)
  | @tail s t u r acc d hs hspace htail hclose ih =>
    have hu : u ≠ [] := by
      rintro rfl
      cases hclose
    obtain ⟨v, rfl⟩ := List.head?_eq_some_iff.1 hspace
    exact .tail (msSkipWs_append hs x) (by rfl) (ih fun _ => .inl hu) (msSkipWs_append hclose x)
  | @item s t u r c acc a d hs hclose hdot hitem hlist iha ihd =>
    have hnodot : ¬ (c = '.' ∧ (t ++ x).head? = some ' ') := by
      rintro ⟨rfl, hhead⟩
      cases t with
      | nil =>
        have hshort := length_lt_of_readAt (readAt_iff.2 hitem)
        exact hlist.ne_nil (List.eq_nil_of_length_eq_zero (Nat.lt_one_iff.1 hshort))
      | cons e t => exact hdot ⟨rfl, hhead⟩
    exact .item (msSkipWs_append hs x) hclose hnodot (iha fun _ => .inl hlist.ne_nil) (ihd (by simp))

/-- A text that starts a list and breaks off before its end is not read. -/
lemma readAt_eq_none_of_append {s x : Text} {d : Datum δ} (hlist : ∃ t, msSkipWs s = '(' :: t)
    (h : readAt (s ++ x) = some (d, [])) (hx : x ≠ []) :
    (readAt s : Option (Datum δ × Text)) = none := by
  by_contra hsome
  obtain ⟨⟨e, r⟩, hr⟩ := Option.ne_none_iff_exists'.1 hsome
  have happend := (readAt_iff.1 hr).append (fun _ => .inr hlist) x
  have hrest := congrArg Prod.snd (Option.some.inj ((readAt_iff.2 happend).symm.trans h))
  exact hx (List.append_eq_nil_iff.1 hrest).2

/-! ## Plain values -/

/-- A character that is no control character, and a byte of its own. -/
def IsPrinted (c : Char) : Prop := ' ' ≤ c ∧ c ≤ '~'

instance : DecidablePred IsPrinted := fun c => inferInstanceAs (Decidable (' ' ≤ c ∧ c ≤ '~'))

/-- Values whose text is of printed characters and is read back. -/
def Plain : Datum δ → Prop
  | .pair a d => Plain a ∧ Plain d
  | .string s => '"' ∉ s ∧ ∀ c ∈ s, IsPrinted c
  | .symbol s => IsToken s ∧ ∀ c ∈ s, IsPrinted c
  | .real _ => False
  | .char _ => False
  | _ => True

instance decidablePlain : (d : Datum δ) → Decidable (Plain d)
  | .pair a d =>
    have := decidablePlain a
    have := decidablePlain d
    inferInstanceAs (Decidable (Plain a ∧ Plain d))
  | .string s => inferInstanceAs (Decidable ('"' ∉ s ∧ ∀ c ∈ s, IsPrinted c))
  | .symbol s => inferInstanceAs (Decidable (IsToken s ∧ ∀ c ∈ s, IsPrinted c))
  | .real _ | .char _ => inferInstanceAs (Decidable False)
  | .null | .integer _ | .boolean _ => inferInstanceAs (Decidable True)

lemma IsPrinted.ne_newline {c : Char} (h : IsPrinted c) : c ≠ '\n' := by
  rintro rfl
  exact absurd h.1 (by decide)

lemma IsPrinted.isContinuation {c : Char} (h : IsPrinted c) : isContinuation c = false := by
  have hle : c.toNat ≤ 126 := h.2
  rw [Memory.isContinuation, decide_eq_false_iff_not]
  omega

omit [DoubleText δ] in
lemma plain_list {ds : List (Datum δ)} : Plain (.list ds) ↔ ∀ d ∈ ds, Plain d := by
  induction ds with
  | nil => simp [Datum.list, Plain]
  | cons d ds ih => rw [Datum.list, Plain, ih, List.forall_mem_cons]

omit [DoubleText δ] in
lemma Plain.printable {d : Datum δ} (h : Plain d) : Printable d := by
  induction d with
  | pair a d iha ihd => exact ⟨iha h.1, ihd h.2⟩
  | string s => exact h.1
  | symbol s => exact h.1
  | real x => exact h.elim
  | char c => exact h.elim
  | _ => trivial

lemma isPrinted_of_isDigit {c : Char} (h : c.isDigit = true) : IsPrinted c := by
  simp only [Char.isDigit, Bool.and_eq_true, decide_eq_true_eq] at h
  exact ⟨Char.le_trans (by decide : (' ' : Char) ≤ '0') h.1, Char.le_trans h.2 (by decide : ('9' : Char) ≤ '~')⟩

/-- The text of a plain value that is no pair. -/
lemma Plain.isPrinted_atomText {d : Datum δ} (h : Plain d) : ∀ c ∈ d.atomText, IsPrinted c := by
  intro c hc
  cases d with
  | null =>
    rcases List.mem_pair.1 hc with rfl | rfl
    · exact ⟨by decide, by decide⟩
    · exact ⟨by decide, by decide⟩
  | pair a d => cases hc
  | string s =>
    have hquote : IsPrinted '"' := ⟨by decide, by decide⟩
    rw [Datum.atomText, List.mem_cons, List.mem_append, List.mem_singleton] at hc
    rcases hc with rfl | hc | rfl
    · exact hquote
    · exact h.2 c hc
    · exact hquote
  | symbol s => exact h.2 c hc
  | integer i =>
    rcases integerText_chars hc with rfl | hdigit
    · exact ⟨by decide, by decide⟩
    · exact isPrinted_of_isDigit hdigit
  | real x => exact h.elim
  | boolean b =>
    have hmem : c ∈ ['#', 't', 'f'] := by
      cases b with
      | true => exact (by decide : ['#', 't'] ⊆ ['#', 't', 'f']) hc
      | false => exact (by decide : ['#', 'f'] ⊆ ['#', 't', 'f']) hc
    simp only [List.mem_cons, List.not_mem_nil, or_false] at hmem
    rcases hmem with rfl | rfl | rfl
    · exact ⟨by decide, by decide⟩
    · exact ⟨by decide, by decide⟩
    · exact ⟨by decide, by decide⟩
  | char c => exact h.elim

/-- The text of a plain value, also as the tail of a list. -/
lemma Plain.isPrinted_canonicalString {d : Datum δ} (h : Plain d) :
    (∀ c ∈ d.canonicalString, IsPrinted c) ∧ ∀ c ∈ d.canonicalStringRest, IsPrinted c := by
  have hblank : IsPrinted ' ' := ⟨by decide, by decide⟩
  have hopen : IsPrinted '(' := ⟨by decide, by decide⟩
  have hclose : IsPrinted ')' := ⟨by decide, by decide⟩
  have hdot : IsPrinted '.' := ⟨by decide, by decide⟩
  have hatom : ∀ {d : Datum δ}, Plain d → ∀ c ∈ " . ".toList ++ d.atomText, IsPrinted c := by
    intro d hd c hc
    rcases List.mem_append.1 hc with hc | hc
    · simp only [List.mem_cons, List.not_mem_nil, or_false, String.reduceToList] at hc
      rcases hc with rfl | rfl | rfl
      · exact hblank
      · exact hdot
      · exact hblank
    · exact hd.isPrinted_atomText c hc
  induction d with
  | null => exact ⟨h.isPrinted_atomText, by simp [Datum.canonicalStringRest]⟩
  | pair a d iha ihd =>
    obtain ⟨ha, -⟩ := iha h.1
    obtain ⟨-, hd⟩ := ihd h.2
    constructor
    · intro c hc
      rw [Datum.canonicalString, List.mem_cons, List.mem_append, List.mem_append, List.mem_singleton] at hc
      rcases hc with rfl | hc | hc | rfl
      · exact hopen
      · exact ha c hc
      · exact hd c hc
      · exact hclose
    · intro c hc
      rw [Datum.canonicalStringRest, List.mem_cons, List.mem_append] at hc
      rcases hc with rfl | hc | hc
      · exact hblank
      · exact ha c hc
      · exact hd c hc
  | string s => exact ⟨h.isPrinted_atomText, hatom h⟩
  | symbol s => exact ⟨h.isPrinted_atomText, hatom h⟩
  | integer i => exact ⟨h.isPrinted_atomText, hatom h⟩
  | real x => exact h.elim
  | boolean b => exact ⟨h.isPrinted_atomText, hatom h⟩
  | char c => exact h.elim

/-! ## Lines -/

omit [DoubleText δ] in
/-- Plain values have no marks. -/
lemma Plain.unmarked {d : Datum δ} (h : Plain d) : unmarked d = d := by
  have htext : ∀ {s : Text}, (∀ c ∈ s, IsPrinted c) → s.map unmark = s := by
    intro s hs
    refine (List.map_congr_left fun c hc => ?_).trans (List.map_id s)
    have hle : c.toNat ≤ 126 := (hs c hc).2
    exact if_neg (by omega)
  induction d with
  | pair a d iha ihd => rw [Memory.unmarked, iha h.1, ihd h.2]
  | string s => rw [Memory.unmarked, htext h.2]
  | symbol s => rw [Memory.unmarked, htext h.2]
  | _ => rfl

lemma msParse_eq {s r : Text} {d : Datum δ} (h : readAt (marked s) = some (d, r)) :
    msParse s = unmarked d := by
  obtain ⟨x, hx, heq⟩ := Option.map_eq_some_iff.1 h
  rw [msParse, hx]
  exact congrArg (fun r => unmarked r.1) heq

/-- The text of a plain value is read back. -/
lemma Plain.msParse_canonicalString {d : Datum δ} (h : Plain d) : msParse d.canonicalString = d := by
  have hread := h.printable.readsBack.at_text [] fun c hc => by cases hc
  have hmarked := marked_eq_self fun c hc => (h.isPrinted_canonicalString.1 c hc).isContinuation
  rw [List.append_nil, ← hmarked] at hread
  rw [msParse_eq hread, h.unmarked]

/-- Printable values have different texts. -/
lemma Printable.canonicalString_inj {d e : Datum δ} (hd : Printable d) (he : Printable e)
    (h : d.canonicalString = e.canonicalString) : d = e := by
  have hread := hd.readsBack.at_text [] fun c hc => by cases hc
  rw [h, he.readsBack.at_text [] fun c hc => by cases hc] at hread
  exact (congrArg Prod.fst (Option.some.inj hread)).symm

end Memory
