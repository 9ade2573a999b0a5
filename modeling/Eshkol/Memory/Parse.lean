import Eshkol.Base.Cursor
import Eshkol.Scheme.Numerals

/-!
# The parser of the store

`ms-parse` reads one value off the front of a line. The functions take what is left of the line and
say what is left after them. A line is its bytes, each as the character of its code.

Right after a character of several bytes `string-ref` gives U+FFFD, which ends nothing, while
`substring` takes the character that is there. So the bytes that are not given are marked before the
line is read, and the texts in what was read have them without the mark.
-/

namespace Memory

open Cursor (Rest)
open Scheme (Datum Text DoubleText stringToNumber)

/-! ## Bytes that are not given -/

/-- A byte that goes on a character. -/
def isContinuation (c : Char) : Bool := 0x80 ≤ c.toNat ∧ c.toNat < 0xC0

/-- A byte with its mark, which no character that the parser looks for has. -/
def mark (c : Char) : Char := Char.ofNat (0xE000 + c.toNat)

/-- A byte without its mark. -/
def unmark (c : Char) : Char :=
  if 0xE000 ≤ c.toNat ∧ c.toNat < 0xE100 then Char.ofNat (c.toNat - 0xE000) else c

/-- The bytes of a text, those that start a character after one of several bytes with a mark. -/
def markFrom : Bool → Text → Text
  | _, [] => []
  | afterWide, c :: s =>
    if isContinuation c then c :: markFrom true s
    else (if afterWide then mark c else c) :: markFrom false s

/-- A text as `string-ref` gives it. -/
def marked (s : Text) : Text := markFrom false s

/-- A value whose texts have no marks. -/
def unmarked {δ : Type} : Datum δ → Datum δ
  | .pair a d => .pair (unmarked a) (unmarked d)
  | .string s => .string (s.map unmark)
  | .symbol s => .symbol (s.map unmark)
  | d => d

lemma marked_eq_self {s : Text} (h : ∀ c ∈ s, isContinuation c = false) : marked s = s := by
  rw [marked]
  induction s with
  | nil => rfl
  | cons c s ih =>
    rw [List.forall_mem_cons] at h
    rw [markFrom, h.1, ih h.2]
    rfl

/-! ## Reading -/

/-- `ms-skip-ws`. -/
def msSkipWs (s : Text) : Text := s.dropWhile (· = ' ')

lemma length_msSkipWs_le (s : Text) : (msSkipWs s).length ≤ s.length :=
  List.length_dropWhile_le _ s

/-- The characters where `ms-atom-end` stops. -/
def endsAtom (c : Char) : Bool := c = ' ' ∨ c = '(' ∨ c = ')'

/-- `ms-numeric-token?`. -/
def msNumericToken (t : Text) : Bool :=
  let body := if t.head? = some '-' then t.tail else t
  body ≠ [] ∧ body.all fun c => c.isDigit ∨ c = '.'

/-- `ms-improper`: a list with a tail. -/
def msImproper {δ : Type} : List (Datum δ) → Datum δ → Datum δ
  | [], tail => tail
  | d :: front, tail => .pair d (msImproper front tail)

/-- `ms-parse-string`, after the opening quote. -/
def msParseString : (s : Text) → Option (Text × Rest s)
  | [] => none
  | c :: s =>
    if c = '"' then some ([], ⟨s, by simp⟩)
    else (msParseString s).map fun r => (c :: r.1, r.2.weaken (by simp))

variable {δ : Type}

/-- `ms-parse-hash`, after the number sign. -/
def msParseHash : (s : Text) → Option (Datum δ × Rest s)
  | [] => none
  | c :: s =>
    if c = 't' then some (.boolean true, ⟨s, by simp⟩)
    else if c = 'f' then some (.boolean false, ⟨s, by simp⟩)
    else none

variable [DoubleText δ]

/-- The value of a token. -/
def tokenDatum (token : Text) : Datum δ :=
  if msNumericToken token then stringToNumber token else .symbol token

/-- The token at the front of a text. -/
def msToken (s : Text) : Text := s.takeWhile fun c => !endsAtom c

/-- What follows the token at the front of a text. -/
def msAfterToken (s : Text) : Text := s.dropWhile fun c => !endsAtom c

lemma msToken_append_msAfterToken (s : Text) : msToken s ++ msAfterToken s = s :=
  List.takeWhile_append_dropWhile

lemma length_msAfterToken_lt {s : Text} (h : msToken s ≠ []) :
    (msAfterToken s).length < s.length := by
  have hlength := congrArg List.length (msToken_append_msAfterToken s)
  have hpos := List.length_pos_of_ne_nil h
  rw [List.length_append] at hlength
  omega

/-- `ms-parse-atom`. -/
def msParseAtom (s : Text) : Option (Datum δ × Rest s) :=
  if h : msToken s = [] then none
  else some (tokenDatum (msToken s), ⟨msAfterToken s, length_msAfterToken_lt h⟩)

mutual

/-- `ms-parse-at`. -/
def msParseAt (s : Text) : Option (Datum δ × Rest s) :=
  match h : msSkipWs s with
  | [] => none
  | c :: t =>
    have ht : (c :: t).length ≤ s.length := h ▸ length_msSkipWs_le s
    if c = '(' then
      (msParseList [] t).map fun r => (r.1, r.2.weaken (by simp only [List.length_cons] at ht; omega))
    else if c = '"' then
      (msParseString t).map fun r => (.string r.1, r.2.weaken (by simp only [List.length_cons] at ht; omega))
    else if c = '#' then
      (msParseHash t).map fun r => (r.1, r.2.weaken (by simp only [List.length_cons] at ht; omega))
    else (msParseAtom (c :: t)).map fun r => (r.1, r.2.weaken ht)
termination_by 2 * s.length
decreasing_by
  simp only [List.length_cons] at ht
  omega

/-- The loop of `ms-parse-list`, with the elements so far in reverse. -/
def msParseList (acc : List (Datum δ)) (s : Text) : Option (Datum δ × Rest s) :=
  match h : msSkipWs s with
  | [] => none
  | c :: t =>
    have ht : (c :: t).length ≤ s.length := h ▸ length_msSkipWs_le s
    if c = ')' then some (.list acc.reverse, ⟨t, by simp only [List.length_cons] at ht; omega⟩)
    else if c = '.' ∧ t.head? = some ' ' then do
      let tail ← msParseAt t.tail
      match h' : msSkipWs tail.2.1 with
      | [] => none
      | d :: u =>
        if d = ')' then
          some (msImproper acc.reverse tail.1, ⟨u, by
            have hd := length_msSkipWs_le tail.2.1
            have htail := tail.2.2
            rw [h'] at hd
            simp only [List.length_cons, List.length_tail] at ht hd htail
            omega⟩)
        else none
    else do
      let item ← msParseAt (c :: t)
      have hitem := item.2.2
      let rest ← msParseList (item.1 :: acc) item.2.1
      some (rest.1, rest.2.weaken (by omega))
termination_by 2 * s.length + 1
decreasing_by
  · simp only [List.length_cons, List.length_tail] at ht ⊢
    omega
  · simp only [List.length_cons] at ht ⊢
    omega
  · omega

end

/-- `ms-parse`. -/
def msParse (line : Text) : Datum δ :=
  match msParseAt (marked line) with
  | some r => unmarked r.1
  | none => .boolean false

end Memory
