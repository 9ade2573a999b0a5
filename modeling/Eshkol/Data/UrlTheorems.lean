import Eshkol.Data.Url

/-!
# Percent-encoded strings come back

What is written consists of unreserved characters and triples, and is read back as what `string-ref`
gave of the string. Reading any string ends, and it reads beyond the end exactly when the string ends
within a sequence of bytes.
-/

namespace Url

open Scheme

/-! ## Bytes as they are written -/

/-- The upper-case digit of a value below 16. -/
def hexChar (v : ℕ) : Char := hexDigits.getD v '0'

/-- `%XX`. -/
def escaped (b : ℕ) : Text := ['%', hexChar (b / 16), hexChar (b % 16)]

lemma hexChar_mem {v : ℕ} (h : v < 16) : hexChar v ∈ hexDigits := by
  have hall : ∀ v < 16, hexChar v ∈ hexDigits := by decide
  exact hall v h

lemma hexChar_read {v : ℕ} (h : v < 16) :
    isHexDigit (hexChar v) = true ∧ hexDigitToInt (hexChar v) = v := by
  have hall : ∀ v < 16, isHexDigit (hexChar v) = true ∧ hexDigitToInt (hexChar v) = v := by
    decide
  exact hall v h

lemma byteToHex2_eq {b : ℕ} (h : b < 256) :
    byteToHex2 b = .ok [hexChar (b / 16), hexChar (b % 16)] := by
  have hdigit {v : ℕ} (hv : v < 16) : stringRef hexDigits v = .ok (hexChar v) := by
    have hlen : hexDigits.length = 16 := by decide
    have hseen : seen hexDigits = hexDigits := seen_eq_self (by decide)
    rw [stringRef_eq_ok, hseen, hexChar, List.getD_eq_getElem?_getD, List.getElem?_eq_getElem (by omega),
      Option.getD_some]
  rw [byteToHex2, hdigit (by omega), ok_bind, hdigit (Nat.mod_lt b (by omega)), ok_bind]
  rfl

/-- What is written for a character. -/
def fragment (cp : ℕ) : Text :=
  if cp < 128 then if urlUnreserved cp then [Char.ofNat cp] else escaped cp
  else (wideBytes cp).flatMap escaped

lemma encodeCodepoint_eq {cp : ℕ} (h : cp < 1114112) : encodeCodepoint cp = .ok (fragment cp) := by
  unfold encodeCodepoint fragment wideBytes
  split_ifs with hascii hplain h2 h3
  · rfl
  · rw [byteToHex2_eq (by omega)]
    rfl
  · rw [byteToHex2_eq (by omega), ok_bind, byteToHex2_eq (by omega)]
    rfl
  · simp only
    rw [byteToHex2_eq (by omega), ok_bind, byteToHex2_eq (by omega), ok_bind,
      byteToHex2_eq (by omega)]
    rfl
  · simp only
    rw [byteToHex2_eq (by omega), ok_bind, byteToHex2_eq (by omega), ok_bind,
      byteToHex2_eq (by omega), ok_bind, byteToHex2_eq (by omega)]
    rfl

lemma urlEncodeLoop_eq (s acc : Text) :
    urlEncodeLoop s acc = .ok (acc ++ s.flatMap fun c => fragment c.toNat) := by
  induction s generalizing acc with
  | nil => simp [urlEncodeLoop]
  | cons c s ih =>
    rw [urlEncodeLoop, encodeCodepoint_eq (toNat_lt c), ok_bind, ih, List.flatMap_cons,
      List.append_assoc]

lemma urlEncode_eq (s : Text) :
    urlEncode s = .ok ((seen s).flatMap fun c => fragment c.toNat) := by
  rw [urlEncode, urlEncodeLoop_eq, List.nil_append]

/-- Unreserved characters and `%XX` with upper-case digits. -/
def PercentEncoded (text : Text) : Prop :=
  ∃ parts : List Text, text = parts.flatten ∧ ∀ part ∈ parts,
    (∃ c, part = [c] ∧ (c.isAlphanum ∨ c ∈ ['-', '_', '.', '~'])) ∨
      ∃ hi lo, part = ['%', hi, lo] ∧ hi ∈ hexDigits ∧ lo ∈ hexDigits

lemma unreserved_char {cp : ℕ} (h : urlUnreserved cp = true) :
    (Char.ofNat cp).isAlphanum ∨ Char.ofNat cp ∈ ['-', '_', '.', '~'] := by
  have hlt : cp < 128 := by
    simp only [urlUnreserved, Bool.or_eq_true, Bool.and_eq_true, decide_eq_true_eq, beq_iff_eq] at h
    omega
  have hall : ∀ cp < 128, urlUnreserved cp = true →
      (Char.ofNat cp).isAlphanum ∨ Char.ofNat cp ∈ ['-', '_', '.', '~'] := by decide
  exact hall cp hlt h

lemma percentEncoded_append {s t : Text} (hs : PercentEncoded s) (ht : PercentEncoded t) :
    PercentEncoded (s ++ t) := by
  obtain ⟨parts, rfl, hparts⟩ := hs
  obtain ⟨parts', rfl, hparts'⟩ := ht
  refine ⟨parts ++ parts', List.flatten_append.symm, fun part hpart => ?_⟩
  obtain hpart | hpart := List.mem_append.1 hpart
  · exact hparts part hpart
  · exact hparts' part hpart

lemma percentEncoded_flatMap {α : Type} {f : α → Text} {l : List α}
    (h : ∀ a ∈ l, PercentEncoded (f a)) : PercentEncoded (l.flatMap f) := by
  induction l with
  | nil => exact ⟨[], rfl, by simp⟩
  | cons a l ih =>
    rw [List.flatMap_cons]
    exact percentEncoded_append (h a List.mem_cons_self)
      (ih fun b hb => h b (List.mem_cons_of_mem _ hb))

lemma percentEncoded_escaped {b : ℕ} (h : b < 256) : PercentEncoded (escaped b) := by
  refine ⟨[escaped b], by simp, fun part hpart => .inr ?_⟩
  rw [List.mem_singleton.1 hpart]
  exact ⟨_, _, rfl, hexChar_mem (by omega), hexChar_mem (by omega)⟩

lemma wideBytes_lt {cp : ℕ} (hlow : 128 ≤ cp) (hhigh : cp < 1114112) : ∀ b ∈ wideBytes cp, b < 256 := by
  obtain ⟨b, b₂, rest, hbytes, -, hb, hrest, -⟩ := wideBytes_eq_cons hlow hhigh
  rw [hbytes, List.forall_mem_cons]
  exact ⟨by omega, fun x hx => (hrest x hx).2.trans (by omega)⟩

lemma percentEncoded_fragment {cp : ℕ} (h : cp < 1114112) : PercentEncoded (fragment cp) := by
  unfold fragment
  split_ifs with hascii hplain
  · refine ⟨[[Char.ofNat cp]], rfl, fun part hpart => .inl ?_⟩
    rw [List.mem_singleton.1 hpart]
    exact ⟨_, rfl, unreserved_char hplain⟩
  · exact percentEncoded_escaped (by omega)
  · exact percentEncoded_flatMap fun b hb => percentEncoded_escaped (wideBytes_lt (by omega) h b hb)

/-! ## What stands at a position -/

/-- A byte that is read, or a character that is none. -/
inductive Piece where
  | byte (b : ℕ)
  | literal (c : Char)

/-- The byte of `%XX` at the front of a text. -/
def triple : Text → Option ℕ
  | '%' :: h1 :: h2 :: _ =>
    if isHexDigit h1 && isHexDigit h2 then some (hexDigitToInt h1 * 16 + hexDigitToInt h2) else none
  | _ => none

/-- A character that begins no `%XX`. -/
def pieceOf (c : Char) : Piece :=
  if c = '+' then .byte 32 else if c.toNat < 128 then .byte c.toNat else .literal c

/-- What a text is read as, after so many characters. -/
def piecesAfter : ℕ → Text → List Piece
  | _, [] => []
  | skip + 1, _ :: rest => piecesAfter skip rest
  | 0, c :: rest =>
    (triple (c :: rest)).elim (pieceOf c :: piecesAfter 0 rest) fun b =>
      .byte b :: piecesAfter 2 rest

/-- What a text is read as. -/
def pieces (text : Text) : List Piece := piecesAfter 0 text

lemma piecesAfter_eq (skip : ℕ) (text : Text) : piecesAfter skip text = pieces (text.drop skip) := by
  induction text generalizing skip with
  | nil =>
    rw [List.drop_nil, pieces, piecesAfter, piecesAfter]
  | cons c text ih =>
    cases skip with
    | zero => rfl
    | succ skip => rw [piecesAfter, ih, List.drop_succ_cons]

lemma pieces_cons (c : Char) (rest : Text) : pieces (c :: rest) =
    (triple (c :: rest)).elim (pieceOf c :: pieces rest) fun b => .byte b :: pieces (rest.drop 2) := by
  rw [pieces, piecesAfter, piecesAfter_eq, piecesAfter_eq]
  rfl

lemma triple_eq_some {c : Char} {rest : Text} {b : ℕ} (h : triple (c :: rest) = some b) :
    ∃ h1 h2 rest', c = '%' ∧ rest = h1 :: h2 :: rest' ∧ isHexDigit h1 = true ∧ isHexDigit h2 = true ∧
      b = hexDigitToInt h1 * 16 + hexDigitToInt h2 := by
  unfold triple at h
  split at h
  · next h1 h2 rest' heq =>
    obtain ⟨rfl, rfl⟩ := List.cons.inj heq
    split_ifs at h with hhex
    · rw [Bool.and_eq_true] at hhex
      exact ⟨h1, h2, rest', rfl, rfl, hhex.1, hhex.2, (Option.some.inj h).symm⟩
  · cases h

lemma stringRef_of_drop {str t : Text} {i k : ℕ} {c : Char} (h : (seen str).drop i = t)
    (hk : t[k]? = some c) : stringRef str (i + k) = .ok c := by
  rw [stringRef_eq_ok, ← hk, ← h, List.getElem?_drop]

lemma startsTriple_eq {str rest : Text} {i : ℕ} {ch : Char} (h : (seen str).drop i = ch :: rest) :
    startsTriple str i ch = .ok (triple (ch :: rest)).isSome := by
  have hlen := congrArg List.length h
  rw [List.length_drop, length_seen, List.length_cons] at hlen
  unfold startsTriple
  by_cases hpercent : ch = '%' ∧ i + 2 < str.length
  · obtain ⟨rfl, hlong⟩ := hpercent
    match rest, h, hlen with
    | [], _, hlen => simp at hlen; omega
    | [_], _, hlen => simp at hlen; omega
    | h1 :: h2 :: rest', h, _ =>
      have hh1 : stringRef str (i + 1) = .ok h1 := stringRef_of_drop h rfl
      have hh2 : stringRef str (i + 2) = .ok h2 := stringRef_of_drop h rfl
      rw [if_pos ⟨rfl, hlong⟩, hh1, ok_bind, hh2, triple]
      cases isHexDigit h1 with
      | false => rfl
      | true =>
        show Except.ok (isHexDigit h2) = _
        cases isHexDigit h2 with
        | false => rfl
        | true => rfl
  · rw [if_neg hpercent]
    cases htriple : triple (ch :: rest) with
    | none => rfl
    | some b =>
      obtain ⟨h1, h2, rest', rfl, rfl, -⟩ := triple_eq_some htriple
      simp only [List.length_cons] at hlen
      exact absurd ⟨rfl, by omega⟩ hpercent

/-- What `url-read-byte` does is determined by the pieces from the position on. -/
lemma urlReadByte_cases (str : Text) (i : ℕ) :
    (pieces ((seen str).drop i) = [] ∧ ∃ e, urlReadByte str i = .error e) ∨
    (∃ b ps j, pieces ((seen str).drop i) = .byte b :: ps ∧ urlReadByte str i = .ok (some b, j) ∧
      pieces ((seen str).drop j) = ps) ∨
    (∃ c ps, pieces ((seen str).drop i) = .literal c :: ps ∧ urlReadByte str i = .ok (none, i) ∧
      stringRef str i = .ok c ∧ pieces ((seen str).drop (i + 1)) = ps) := by
  cases hdrop : (seen str).drop i with
  | nil =>
    have hlen := congrArg List.length hdrop
    rw [List.length_drop, length_seen, List.length_nil] at hlen
    refine .inl ⟨rfl, ⟨"string-ref: index out of bounds", []⟩, ?_⟩
    rw [urlReadByte, stringRef_of_le (by omega)]
    rfl
  | cons ch rest =>
    have hch : stringRef str i = .ok ch := stringRef_of_drop (k := 0) hdrop rfl
    have hnext : (seen str).drop (i + 1) = rest := by
      rw [← List.drop_drop, hdrop, List.drop_one, List.tail_cons]
    rw [pieces_cons, urlReadByte, hch, ok_bind, startsTriple_eq hdrop, ok_bind]
    cases htriple : triple (ch :: rest) with
    | some b =>
      obtain ⟨h1, h2, rest', rfl, rfl, -, -, rfl⟩ := triple_eq_some htriple
      have hh1 : stringRef str (i + 1) = .ok h1 := stringRef_of_drop hdrop rfl
      have hh2 : stringRef str (i + 2) = .ok h2 := stringRef_of_drop hdrop rfl
      have hrest : (seen str).drop (i + 3) = rest' := by
        rw [← List.drop_drop, hdrop]
        rfl
      refine .inr (.inl ⟨_, _, i + 3, rfl, ?_, by rw [hrest]; rfl⟩)
      rw [Option.isSome_some, if_pos rfl, hh1, ok_bind, hh2, ok_bind]
      rfl
    | none =>
      rw [Option.isSome_none, if_neg (by simp), Option.elim_none, pieceOf]
      split_ifs with hplus hascii
      · exact .inr (.inl ⟨32, pieces rest, i + 1, rfl, rfl, by rw [hnext]⟩)
      · exact .inr (.inl ⟨ch.toNat, pieces rest, i + 1, rfl, rfl, by rw [hnext]⟩)
      · exact .inr (.inr ⟨ch, pieces rest, rfl, rfl, rfl, by rw [hnext]⟩)

/-! ## Continuation bytes -/

/-- The reading of so many continuation bytes; nothing where another byte or character comes. -/
def readContinuations : ℕ → Text → ℕ → Except SchemeError (Option (List ℕ × ℕ))
  | 0, _, i => .ok (some ([], i))
  | n + 1, str, i => do
    let (b, j) ← urlReadByte str i
    if continues b then
      let r ← readContinuations n str j
      return r.map fun (bytes, k) => (b.getD 0 :: bytes, k)
    else return none

/-- The character of a sequence. -/
def joined (b1 : ℕ) : List ℕ → ℕ
  | [b2] => (b1 - 192) * 64 + (b2 - 128)
  | [b2, b3] => (b1 - 224) * 4096 + (b2 - 128) * 64 + (b3 - 128)
  | [b2, b3, b4] => (b1 - 240) * 262144 + (b2 - 128) * 4096 + (b3 - 128) * 64 + (b4 - 128)
  | _ => b1

lemma utf8Combine_eq {n : ℕ} (hn : n ≤ 3) (b1 : ℕ) (str : Text) (i : ℕ) :
    utf8Combine b1 n str i = (readContinuations n str i).map fun r =>
      r.elim (b1, i) fun (bytes, j) => (joined b1 bytes, j) := by
  have hcase : n = 0 ∨ n = 1 ∨ n = 2 ∨ n = 3 := by omega
  obtain rfl | rfl | rfl | rfl := hcase
  · rfl
  · rw [utf8Combine, readContinuations]
    obtain e | ⟨b2, i2⟩ := urlReadByte str i
    · rfl
    · simp only [ok_bind]
      cases continues b2 with
      | false => rfl
      | true => rfl
  · rw [utf8Combine, readContinuations]
    obtain e | ⟨b2, i2⟩ := urlReadByte str i
    · rfl
    · simp only [ok_bind]
      cases continues b2 with
      | false => rfl
      | true =>
        simp only [if_true, readContinuations]
        obtain e | ⟨b3, i3⟩ := urlReadByte str i2
        · rfl
        · simp only [ok_bind]
          cases continues b3 with
          | false => rfl
          | true => rfl
  · rw [utf8Combine, readContinuations]
    obtain e | ⟨b2, i2⟩ := urlReadByte str i
    · rfl
    · simp only [ok_bind]
      cases continues b2 with
      | false => rfl
      | true =>
        simp only [if_true, readContinuations]
        obtain e | ⟨b3, i3⟩ := urlReadByte str i2
        · rfl
        · simp only [ok_bind]
          cases continues b3 with
          | false => rfl
          | true =>
            simp only [if_true]
            obtain e | ⟨b4, i4⟩ := urlReadByte str i3
            · rfl
            · simp only [ok_bind]
              cases continues b4 with
              | false => rfl
              | true => rfl

/-- Whether a byte continues a sequence. -/
def Piece.continuesSequence : Piece → Bool
  | .byte b => continues (some b)
  | .literal _ => false

/-- Whether the text ends where so many continuation bytes are due. -/
def endsWithin : ℕ → List Piece → Bool
  | 0, _ => false
  | _ + 1, [] => true
  | n + 1, p :: ps => p.continuesSequence && endsWithin n ps

/-- How many bytes are due after a piece. -/
def Piece.due : Piece → ℕ
  | .byte b => extraBytes b
  | .literal _ => 0

/-- Whether some sequence of bytes is cut off by the end of the text. -/
def isCut : List Piece → Bool
  | [] => false
  | p :: ps => endsWithin p.due ps || isCut ps

lemma due_of_continues {b : ℕ} (h : continues (some b) = true) : extraBytes b = 0 := by
  simp only [continues, Option.any_some, Bool.and_eq_true, decide_eq_true_eq] at h
  unfold extraBytes
  split_ifs <;> omega

lemma readContinuations_ok_iff (n : ℕ) (str : Text) (i : ℕ) :
    (∃ r, readContinuations n str i = .ok r) ↔ endsWithin n (pieces ((seen str).drop i)) = false := by
  induction n generalizing i with
  | zero => simp [readContinuations, endsWithin]
  | succ n ih =>
    rw [readContinuations]
    obtain ⟨hp, e, hread⟩ | ⟨b, ps, j, hp, hread, hj⟩ | ⟨c, ps, hp, hread, -, -⟩ :=
      urlReadByte_cases str i
    · simp [hp, hread, endsWithin]
    · rw [hp, hread, ok_bind, endsWithin, Piece.continuesSequence]
      simp only
      by_cases hcontinues : continues (some b) = true
      · have hrest := ih j
        rw [hj] at hrest
        rw [if_pos hcontinues, hcontinues, Bool.true_and, ← hrest]
        constructor
        · rintro ⟨r, hr⟩
          obtain ⟨r', hr', -⟩ := bind_eq_ok.1 hr
          exact ⟨r', hr'⟩
        · rintro ⟨r, hr⟩
          exact ⟨_, by rw [hr]; rfl⟩
      · rw [if_neg hcontinues, Bool.eq_false_of_not_eq_true hcontinues]
        exact ⟨fun _ => rfl, fun _ => ⟨none, rfl⟩⟩
    · simp [hp, hread, endsWithin, Piece.continuesSequence, continues]

/-- The bytes that were read cut nothing off. -/
lemma isCut_of_readContinuations {n : ℕ} {str : Text} {i j : ℕ} {bytes : List ℕ}
    (h : readContinuations n str i = .ok (some (bytes, j))) :
    isCut (pieces ((seen str).drop j)) = isCut (pieces ((seen str).drop i)) := by
  induction n generalizing i bytes with
  | zero =>
    rw [readContinuations] at h
    cases h
    rfl
  | succ n ih =>
    rw [readContinuations] at h
    obtain ⟨hp, e, hread⟩ | ⟨b, ps, k, hp, hread, hk⟩ | ⟨c, ps, hp, hread, -, -⟩ :=
      urlReadByte_cases str i
    · rw [hread] at h
      cases h
    · rw [hread, ok_bind] at h
      simp only at h
      split_ifs at h with hcontinues
      · obtain ⟨r, hr, hmap⟩ := bind_eq_ok.1 h
        cases r with
        | none => cases hmap
        | some r =>
          cases hmap
          rw [ih hr, hk, hp, isCut, Piece.due, due_of_continues hcontinues, endsWithin,
            Bool.false_or]
      · cases h
    · rw [hread, ok_bind] at h
      cases h

/-! ## Any string is read to its end -/

lemma extraBytes_le (b : ℕ) : extraBytes b ≤ 3 := by
  unfold extraBytes
  split_ifs <;> omega

lemma extraBytes_of_lt {b : ℕ} (h : b < 128) : extraBytes b = 0 := by
  unfold extraBytes
  split_ifs <;> omega

/-- A step fails where the end cuts a sequence off, and otherwise what is cut off is beyond it. -/
lemma urlDecodeStep_cut (str : Text) {i : ℕ} (hi : i < str.length) :
    (∃ e, urlDecodeStep str i = .error e ∧ isCut (pieces ((seen str).drop i)) = true) ∨
      ∃ cp j, urlDecodeStep str i = .ok (cp, j) ∧
        isCut (pieces ((seen str).drop i)) = isCut (pieces ((seen str).drop j)) := by
  rw [urlDecodeStep]
  obtain ⟨hp, -⟩ | ⟨b, ps, j, hp, hread, hj⟩ | ⟨c, ps, hp, hread, hc, hnext⟩ :=
    urlReadByte_cases str i
  · exfalso
    obtain ⟨c, rest, hdrop⟩ := List.exists_cons_of_ne_nil
      (List.drop_eq_nil_iff.not.2 (by rw [length_seen]; exact hi.not_ge) : (seen str).drop i ≠ [])
    rw [hdrop, pieces_cons] at hp
    cases htriple : triple (c :: rest) with
    | none => rw [htriple] at hp; cases hp
    | some b => rw [htriple] at hp; cases hp
  · rw [hread, ok_bind, hp, isCut, Piece.due]
    simp only
    split_ifs with hascii
    · refine .inr ⟨b, j, rfl, ?_⟩
      rw [extraBytes_of_lt hascii, endsWithin, Bool.false_or, hj]
    · rw [utf8Combine_eq (extraBytes_le b)]
      have hok := readContinuations_ok_iff (extraBytes b) str j
      rw [hj] at hok
      cases hends : endsWithin (extraBytes b) ps with
      | true =>
        cases hr : readContinuations (extraBytes b) str j with
        | error e => exact .inl ⟨e, rfl, rfl⟩
        | ok r =>
          have hfalse := hok.1 ⟨r, hr⟩
          rw [hends] at hfalse
          cases hfalse
      | false =>
        obtain ⟨r, hr⟩ := hok.2 hends
        rw [hr]
        cases r with
        | none => exact .inr ⟨b, j, rfl, by rw [Bool.false_or, hj]⟩
        | some r =>
          refine .inr ⟨joined b r.1, r.2, rfl, ?_⟩
          rw [isCut_of_readContinuations hr, hj, Bool.false_or]
  · rw [hread, ok_bind]
    simp only
    rw [hc, ok_bind, hp, isCut, Piece.due, endsWithin, Bool.false_or]
    exact .inr ⟨c.toNat, i + 1, rfl, by rw [hnext]⟩

/-- Decoding fails only at an escape that the end cuts off. -/
lemma urlDecodeLoop_ok_iff (str : Text) (i : ℕ) (acc : List ℕ) :
    (∃ codes, urlDecodeLoop str i acc = .ok codes) ↔ isCut (pieces ((seen str).drop i)) = false := by
  fun_induction urlDecodeLoop str i acc with
  | case1 i acc hi =>
    rw [List.drop_eq_nil_iff.2 (by rwa [length_seen])]
    exact ⟨fun _ => rfl, fun _ => ⟨acc, rfl⟩⟩
  | case2 i acc hi e hstep =>
    obtain ⟨e', -, hcut⟩ | ⟨cp, j, hok, -⟩ := urlDecodeStep_cut str (Nat.lt_of_not_le hi)
    · rw [hcut]
      simp
    · rw [hstep] at hok
      cases hok
  | case3 i acc hi cp j hstep ih =>
    obtain ⟨e', herror, -⟩ | ⟨cp', j', hok, hcut⟩ := urlDecodeStep_cut str (Nat.lt_of_not_le hi)
    · rw [hstep] at herror
      cases herror
    · rw [hstep] at hok
      cases hok
      rw [ih, hcut]

/-! ## What is written is read back -/

lemma urlReadByte_escaped {str rest : Text} {i b : ℕ} (hb : b < 256)
    (h : (seen str).drop i = escaped b ++ rest) :
    urlReadByte str i = .ok (some b, i + 3) ∧ (seen str).drop (i + 3) = rest := by
  have hhi := hexChar_read (v := b / 16) (by omega)
  have hlo := hexChar_read (v := b % 16) (by omega)
  have hpercent : stringRef str i = .ok '%' := stringRef_of_drop (k := 0) h rfl
  have hh1 : stringRef str (i + 1) = .ok (hexChar (b / 16)) := stringRef_of_drop h rfl
  have hh2 : stringRef str (i + 2) = .ok (hexChar (b % 16)) := stringRef_of_drop h rfl
  have htriple : triple ('%' :: hexChar (b / 16) :: hexChar (b % 16) :: rest) = some b := by
    rw [triple, hhi.1, hlo.1, hhi.2, hlo.2]
    simp only [Bool.and_self, if_true]
    congr 1
    omega
  have hstarts : startsTriple str i '%' =
      .ok (triple ('%' :: hexChar (b / 16) :: hexChar (b % 16) :: rest)).isSome := startsTriple_eq h
  constructor
  · rw [urlReadByte, hpercent, ok_bind, hstarts, ok_bind, htriple, Option.isSome_some, if_pos rfl,
      hh1, ok_bind, hh2, ok_bind, hhi.2, hlo.2]
    have hvalue : b / 16 * 16 + b % 16 = b := by omega
    rw [hvalue]
    rfl
  · rw [← List.drop_drop, h]
    rfl

lemma readContinuations_escaped {str rest : Text} {i : ℕ} {bytes : List ℕ}
    (hbytes : ∀ b ∈ bytes, 128 ≤ b ∧ b < 192) (h : (seen str).drop i = bytes.flatMap escaped ++ rest) :
    ∃ j, readContinuations bytes.length str i = .ok (some (bytes, j)) ∧ (seen str).drop j = rest := by
  induction bytes generalizing i with
  | nil => exact ⟨i, rfl, h⟩
  | cons b bytes ih =>
    have hb := hbytes b List.mem_cons_self
    rw [List.flatMap_cons, List.append_assoc] at h
    obtain ⟨hread, hdrop⟩ := urlReadByte_escaped (by omega) h
    obtain ⟨j, hj, hrest⟩ := ih (fun b' hb' => hbytes b' (List.mem_cons_of_mem _ hb')) hdrop
    have hcontinues : continues (some b) = true := by
      simp [continues, hb.1, hb.2]
    refine ⟨j, ?_, hrest⟩
    rw [List.length_cons, readContinuations, hread, ok_bind]
    simp only
    rw [if_pos hcontinues, hj]
    rfl

/-- The first byte of a sequence tells how many follow, and the bytes give the character. -/
lemma wideBytes_spec {cp : ℕ} (hlow : 128 ≤ cp) (hhigh : cp < 1114112) :
    ∃ b1 bytes, wideBytes cp = b1 :: bytes ∧ 192 ≤ b1 ∧ b1 < 256 ∧ extraBytes b1 = bytes.length ∧
      (∀ b ∈ bytes, 128 ≤ b ∧ b < 192) ∧ joined b1 bytes = cp := by
  unfold wideBytes
  split_ifs with h2 h3
  · refine ⟨_, _, rfl, by omega, by omega, ?_, by simp; omega, ?_⟩
    · rw [extraBytes, if_pos (by omega)]
      rfl
    · show (192 + cp / 64 - 192) * 64 + (128 + cp % 64 - 128) = cp
      omega
  · refine ⟨_, _, rfl, by omega, by omega, ?_, by simp; omega, ?_⟩
    · rw [extraBytes, if_neg (by omega), if_pos (by omega)]
      rfl
    · show (224 + cp / 4096 - 224) * 4096 + (128 + cp % 4096 / 64 - 128) * 64 +
        (128 + cp % 4096 % 64 - 128) = cp
      omega
  · refine ⟨_, _, rfl, by omega, by omega, ?_, by simp; omega, ?_⟩
    · rw [extraBytes, if_neg (by omega), if_neg (by omega), if_pos (by omega)]
      rfl
    · show (240 + cp / 262144 - 240) * 262144 + (128 + cp % 262144 / 4096 - 128) * 4096 +
        (128 + cp % 262144 % 4096 / 64 - 128) * 64 + (128 + cp % 262144 % 4096 % 64 - 128) = cp
      omega

lemma urlReadByte_unreserved {str rest : Text} {i cp : ℕ} (hcp : urlUnreserved cp = true)
    (h : (seen str).drop i = [Char.ofNat cp] ++ rest) : urlReadByte str i = .ok (some cp, i + 1) := by
  have hbounds : cp < 128 ∧ cp ≠ 37 ∧ cp ≠ 43 := by
    simp only [urlUnreserved, Bool.or_eq_true, Bool.and_eq_true, decide_eq_true_eq, beq_iff_eq] at hcp
    omega
  have hcode : (Char.ofNat cp).toNat = cp := by
    rw [Char.ofNat, dif_pos (show cp.isValidChar from .inl (by omega))]
    rfl
  have hne {c : Char} (hc : cp ≠ c.toNat) : Char.ofNat cp ≠ c := by
    rintro rfl
    exact hc hcode.symm
  have hch : stringRef str i = .ok (Char.ofNat cp) := stringRef_of_drop (k := 0) h rfl
  have htriple : triple (Char.ofNat cp :: rest) = none := by
    rw [Option.eq_none_iff_forall_ne_some]
    intro b hb
    obtain ⟨h1, h2, rest', hpercent, -⟩ := triple_eq_some hb
    exact hne (c := '%') hbounds.2.1 hpercent
  have hstarts : startsTriple str i (Char.ofNat cp) = .ok (triple (Char.ofNat cp :: rest)).isSome :=
    startsTriple_eq h
  rw [urlReadByte, hch, ok_bind, hstarts, ok_bind, htriple, Option.isSome_none,
    if_neg (by simp), if_neg (hne (c := '+') hbounds.2.2), hcode, if_pos hbounds.1]
  rfl

lemma urlDecodeStep_fragment {str rest : Text} {i cp : ℕ} (hcp : cp < 1114112)
    (h : (seen str).drop i = fragment cp ++ rest) :
    ∃ j, urlDecodeStep str i = .ok (cp, j) ∧ (seen str).drop j = rest := by
  rw [urlDecodeStep]
  unfold fragment at h
  split_ifs at h with hascii hplain
  · refine ⟨i + 1, ?_, ?_⟩
    · rw [urlReadByte_unreserved hplain h, ok_bind]
      simp only
      rw [if_pos hascii]
      rfl
    · rw [← List.drop_drop, h]
      rfl
  · obtain ⟨hread, hdrop⟩ := urlReadByte_escaped (by omega) h
    refine ⟨i + 3, ?_, hdrop⟩
    rw [hread, ok_bind]
    simp only
    rw [if_pos hascii]
    rfl
  · obtain ⟨b1, bytes, hseq, hlow, hhigh, hextra, hbytes, hjoined⟩ :=
      wideBytes_spec (Nat.le_of_not_lt hascii) hcp
    rw [hseq, List.flatMap_cons, List.append_assoc] at h
    obtain ⟨hread, hdrop⟩ := urlReadByte_escaped hhigh h
    obtain ⟨j, hj, hrest⟩ := readContinuations_escaped hbytes hdrop
    refine ⟨j, ?_, hrest⟩
    rw [hread, ok_bind]
    simp only
    rw [if_neg (by omega), utf8Combine_eq (extraBytes_le b1), hextra, hj]
    exact congrArg (fun cp => Except.ok (cp, j)) hjoined

lemma fragment_ne_nil (cp : ℕ) : fragment cp ≠ [] := by
  unfold fragment wideBytes escaped
  split_ifs <;> simp

lemma urlDecodeLoop_fragments {str s : Text} {i : ℕ} (acc : List ℕ)
    (h : (seen str).drop i = s.flatMap fun c => fragment c.toNat) :
    urlDecodeLoop str i acc = .ok (acc ++ s.map Char.toNat) := by
  induction s generalizing i acc with
  | nil =>
    have hend := List.drop_eq_nil_iff.1 h
    rw [length_seen] at hend
    rw [urlDecodeLoop, if_pos hend, List.map_nil, List.append_nil]
  | cons c s ih =>
    rw [List.flatMap_cons] at h
    have hlen : ¬ str.length ≤ i := by
      intro hle
      rw [List.drop_eq_nil_iff.2 (by rwa [length_seen])] at h
      exact fragment_ne_nil c.toNat (List.append_eq_nil_iff.1 h.symm).1
    obtain ⟨j, hstep, hrest⟩ := urlDecodeStep_fragment (toNat_lt c) h
    rw [urlDecodeLoop, if_neg hlen]
    split
    · next e herror =>
      rw [hstep] at herror
      cases herror
    · next cp j' hok =>
      rw [hstep] at hok
      cases hok
      rw [ih _ hrest, List.map_cons, List.append_assoc, List.singleton_append]

lemma isWide_of_isAlphanum {c : Char} (h : c.isAlphanum) : isWide c = false := by
  have hcode : c.toNat = c.val.toNat := rfl
  have hlast : 'Z'.val.toNat = 90 ∧ 'z'.val.toNat = 122 ∧ '9'.val.toNat = 57 := by decide
  delta Char.isAlphanum Char.isAlpha Char.isUpper Char.isLower Char.isDigit at h
  simp only [Bool.or_eq_true, Bool.and_eq_true, decide_eq_true_eq, ge_iff_le, UInt32.le_iff_toNat_le] at h
  rw [isWide, decide_eq_false_iff_not, hcode]
  omega

/-- Only one-byte characters are written. -/
lemma PercentEncoded.isWide_of_mem {text : Text} (h : PercentEncoded text) {c : Char} (hc : c ∈ text) :
    isWide c = false := by
  have hhex : ∀ c ∈ hexDigits, isWide c = false := by decide
  obtain ⟨parts, rfl, hparts⟩ := h
  obtain ⟨part, hpart, hc⟩ := List.mem_flatten.1 hc
  obtain ⟨d, rfl, hd⟩ | ⟨hi, lo, rfl, hhi, hlo⟩ := hparts part hpart
  · obtain rfl := List.mem_singleton.1 hc
    obtain hd | hd := hd
    · exact isWide_of_isAlphanum hd
    · have hmarks : ∀ c ∈ ['-', '_', '.', '~'], isWide c = false := by decide
      exact hmarks c hd
  · simp only [List.mem_cons, List.not_mem_nil, or_false] at hc
    obtain rfl | rfl | rfl := hc
    · rfl
    · exact hhex _ hhi
    · exact hhex _ hlo

/-- What is written for a string is read as the characters that were seen of it. -/
lemma urlEncode_spec (s : Text) : ∃ text, urlEncode s = .ok text ∧ PercentEncoded text ∧
    urlDecode text = .ok ((seen s).map Char.toNat) := by
  have hencoded : PercentEncoded ((seen s).flatMap fun c => fragment c.toNat) :=
    percentEncoded_flatMap fun c _ => percentEncoded_fragment (toNat_lt c)
  have hseen := seen_eq_self fun c hc => hencoded.isWide_of_mem hc
  refine ⟨_, urlEncode_eq s, hencoded, ?_⟩
  rw [urlDecode, urlDecodeLoop_fragments [] (i := 0) (by rw [hseen, List.drop_zero]), List.nil_append]

/-- A string comes back from what is written for it, which is percent-encoded, and reading the string
itself ends without a reading outside it. -/
def StringReturns (s : Text) : Prop :=
  (∃ text, urlEncode s = .ok text ∧ PercentEncoded text ∧ urlDecode text = .ok (s.map Char.toNat)) ∧
    ∃ codes, urlDecode s = .ok codes

/-- All is well with a string exactly when nothing but U+FFFD follows a character of several bytes in
it, and its end does not cut a sequence of bytes off. -/
theorem url_codec (s : Text) : StringReturns s ↔
    (s.IsChain fun c d => isWide c = true → d = '\uFFFD') ∧ isCut (pieces s) = false := by
  have hreturns : (∃ text, urlEncode s = .ok text ∧ PercentEncoded text ∧
      urlDecode text = .ok (s.map Char.toNat)) ↔ seen s = s := by
    obtain ⟨text, hencode, hencoded, hdecode⟩ := urlEncode_spec s
    constructor
    · rintro ⟨text', hencode', -, hdecode'⟩
      obtain rfl := Except.ok.inj (hencode.symm.trans hencode')
      have hcodes := Except.ok.inj (hdecode.symm.trans hdecode')
      exact List.map_injective_iff.2 (fun c d h => Char.toNat_inj.1 h) hcodes
    · intro hseen
      exact ⟨text, hencode, hencoded, by rw [hdecode, hseen]⟩
  rw [StringReturns, hreturns, ← seen_eq_self_iff, urlDecode, urlDecodeLoop_ok_iff, List.drop_zero]
  exact and_congr_right fun hseen => by rw [hseen]

/-- After `%C3` at the end of a string, `url-decode` looks for a byte beyond it; and `url-encode`
reads U+FFFD after an accented letter. -/
theorem truncated_sequence_fails :
    utf8Combine 195 1 ['%', 'C', '3'] 3 = raise "string-ref: index out of bounds" [] ∧
      ¬ StringReturns ['%', 'C', '3'] ∧
      urlEncode ['é', 'a'] = .ok "%C3%A9%EF%BF%BD".toList ∧ ¬ StringReturns ['é', 'a'] := by
  refine ⟨rfl, ?_, by decide, ?_⟩
  · rw [url_codec]
    decide
  · rw [url_codec]
    decide

end Url
