import Eshkol.Data.Base64
import Eshkol.Scheme.StringLibrary

/-!
# Percent-encoding and base64 for URLs

A component is written with its unreserved characters as they are and the bytes of all others as
`%XX`. It is read byte by byte, and bytes from 192 on are combined with those that follow. What
`integer->char` makes of a number is taken as that number.
-/

namespace Url

open Scheme Base64

/-! ## Encoding -/

def hexDigits : Text := "0123456789ABCDEF".toList

/-- `byte->hex2`. -/
def byteToHex2 (b : ℕ) : Except SchemeError Text := do
  let hi ← stringRef hexDigits (b / 16)
  let lo ← stringRef hexDigits (b % 16)
  return [hi, lo]

/-- `url-unreserved?`. -/
def urlUnreserved (b : ℕ) : Bool :=
  (65 ≤ b && b ≤ 90) || (97 ≤ b && b ≤ 122) || (48 ≤ b && b ≤ 57) || b == 45 || b == 95 || b == 46 ||
    b == 126

/-- `encode-codepoint`. -/
def encodeCodepoint (cp : ℕ) : Except SchemeError Text :=
  if cp < 128 then
    if urlUnreserved cp then .ok [Char.ofNat cp]
    else do
      let h1 ← byteToHex2 cp
      return ['%'] ++ h1
  else if cp < 2048 then do
    let h1 ← byteToHex2 (192 + cp / 64)
    let h2 ← byteToHex2 (128 + cp % 64)
    return ['%'] ++ h1 ++ ['%'] ++ h2
  else if cp < 65536 then do
    let rest := cp % 4096
    let h1 ← byteToHex2 (224 + cp / 4096)
    let h2 ← byteToHex2 (128 + rest / 64)
    let h3 ← byteToHex2 (128 + rest % 64)
    return ['%'] ++ h1 ++ ['%'] ++ h2 ++ ['%'] ++ h3
  else do
    let rest1 := cp % 262144
    let rest2 := rest1 % 4096
    let h1 ← byteToHex2 (240 + cp / 262144)
    let h2 ← byteToHex2 (128 + rest1 / 4096)
    let h3 ← byteToHex2 (128 + rest2 / 64)
    let h4 ← byteToHex2 (128 + rest2 % 64)
    return ['%'] ++ h1 ++ ['%'] ++ h2 ++ ['%'] ++ h3 ++ ['%'] ++ h4

/-- The loop of `url-encode`, on what `string-ref` gives from the position on. -/
def urlEncodeLoop : Text → Text → Except SchemeError Text
  | [], acc => .ok acc
  | c :: rest, acc => do
    let fragment ← encodeCodepoint c.toNat
    urlEncodeLoop rest (acc ++ fragment)

/-- `url-encode`. -/
def urlEncode (str : Text) : Except SchemeError Text := urlEncodeLoop (seen str) []

/-! ## Decoding -/

/-- `hex-digit?`. -/
def isHexDigit (ch : Char) : Bool :=
  let c := ch.toNat
  (48 ≤ c && c ≤ 57) || (65 ≤ c && c ≤ 70) || (97 ≤ c && c ≤ 102)

/-- `hex-digit->int`. -/
def hexDigitToInt (ch : Char) : ℕ :=
  let c := ch.toNat
  if 48 ≤ c ∧ c ≤ 57 then c - 48
  else if 65 ≤ c ∧ c ≤ 70 then c - 55
  else if 97 ≤ c ∧ c ≤ 102 then c - 87
  else 0

/-- Whether `%XX` stands at a position. -/
def startsTriple (str : Text) (i : ℕ) (ch : Char) : Except SchemeError Bool :=
  if ch = '%' ∧ i + 2 < str.length then do
    let h1 ← stringRef str (i + 1)
    if isHexDigit h1 then
      let h2 ← stringRef str (i + 2)
      return isHexDigit h2
    else return false
  else .ok false

/-- `url-read-byte`: the byte, if a byte stands at the position, and the position after it. -/
def urlReadByte (str : Text) (i : ℕ) : Except SchemeError (Option ℕ × ℕ) := do
  let ch ← stringRef str i
  if ← startsTriple str i ch then
    let hi ← stringRef str (i + 1)
    let lo ← stringRef str (i + 2)
    return (some (hexDigitToInt hi * 16 + hexDigitToInt lo), i + 3)
  else if ch = '+' then return (some 32, i + 1)
  else if ch.toNat < 128 then return (some ch.toNat, i + 1)
  else return (none, i)

/-- Whether a byte continues a sequence. -/
def continues (b : Option ℕ) : Bool := b.any fun b => 128 ≤ b && b < 192

/-- `utf8-combine`: the character and the position after it; where the sequence is malformed, the
first byte alone. -/
def utf8Combine (b1 nExtra : ℕ) (str : Text) (i : ℕ) : Except SchemeError (ℕ × ℕ) :=
  match nExtra with
  | 0 => .ok (b1, i)
  | 1 => do
    let (b2, i2) ← urlReadByte str i
    if continues b2 then return ((b1 - 192) * 64 + (b2.getD 0 - 128), i2)
    else return (b1, i)
  | 2 => do
    let (b2, i2) ← urlReadByte str i
    if continues b2 then
      let (b3, i3) ← urlReadByte str i2
      if continues b3 then
        return ((b1 - 224) * 4096 + (b2.getD 0 - 128) * 64 + (b3.getD 0 - 128), i3)
      else return (b1, i)
    else return (b1, i)
  | 3 => do
    let (b2, i2) ← urlReadByte str i
    if continues b2 then
      let (b3, i3) ← urlReadByte str i2
      if continues b3 then
        let (b4, i4) ← urlReadByte str i3
        if continues b4 then
          return ((b1 - 240) * 262144 + (b2.getD 0 - 128) * 4096 + (b3.getD 0 - 128) * 64 +
            (b4.getD 0 - 128), i4)
        else return (b1, i)
      else return (b1, i)
    else return (b1, i)
  | _ => .ok (b1, i)

/-- How many bytes follow a first byte; none follow a stray one. -/
def extraBytes (b1 : ℕ) : ℕ :=
  if 192 ≤ b1 ∧ b1 < 224 then 1
  else if 224 ≤ b1 ∧ b1 < 240 then 2
  else if 240 ≤ b1 ∧ b1 < 248 then 3
  else 0

/-- What the loop of `url-decode` reads at a position: a character and the next position. -/
def urlDecodeStep (str : Text) (i : ℕ) : Except SchemeError (ℕ × ℕ) := do
  let (b1, i1) ← urlReadByte str i
  match b1 with
  | none =>
    let ch ← stringRef str i
    return (ch.toNat, i + 1)
  | some b1 =>
    if b1 < 128 then return (b1, i1)
    else utf8Combine b1 (extraBytes b1) str i1

/-! ## The positions advance -/

lemma urlReadByte_advances {str : Text} {i j : ℕ} {b : Option ℕ}
    (h : urlReadByte str i = .ok (b, j)) : i ≤ j ∧ (b ≠ none → i < j) := by
  rw [urlReadByte, bind_eq_ok] at h
  obtain ⟨ch, -, h⟩ := h
  rw [bind_eq_ok] at h
  obtain ⟨triple, -, h⟩ := h
  split_ifs at h
  · simp only [bind_eq_ok] at h
    obtain ⟨hi, -, lo, -, h⟩ := h
    cases h
    omega
  · cases h
    omega
  · cases h
    omega
  · cases h
    simp

lemma position_eq {cp cp' i j : ℕ}
    (h : (pure (cp', i) : Except SchemeError (ℕ × ℕ)) = .ok (cp, j)) : i = j :=
  (Prod.mk.inj (Except.ok.inj h)).2

lemma utf8Combine_advances {b1 nExtra : ℕ} {str : Text} {i cp j : ℕ}
    (h : utf8Combine b1 nExtra str i = .ok (cp, j)) : i ≤ j := by
  unfold utf8Combine at h
  split at h
  · exact (position_eq h).le
  · simp only [bind_eq_ok] at h
    obtain ⟨⟨b2, i2⟩, h2, h⟩ := h
    have hi2 := (urlReadByte_advances h2).1
    split_ifs at h
    · exact hi2.trans (position_eq h).le
    · exact (position_eq h).le
  · simp only [bind_eq_ok] at h
    obtain ⟨⟨b2, i2⟩, h2, h⟩ := h
    have hi2 := (urlReadByte_advances h2).1
    split_ifs at h
    · simp only [bind_eq_ok] at h
      obtain ⟨⟨b3, i3⟩, h3, h⟩ := h
      have hi3 := (urlReadByte_advances h3).1
      split_ifs at h
      · exact (hi2.trans hi3).trans (position_eq h).le
      · exact (position_eq h).le
    · exact (position_eq h).le
  · simp only [bind_eq_ok] at h
    obtain ⟨⟨b2, i2⟩, h2, h⟩ := h
    have hi2 := (urlReadByte_advances h2).1
    split_ifs at h
    · simp only [bind_eq_ok] at h
      obtain ⟨⟨b3, i3⟩, h3, h⟩ := h
      have hi3 := (urlReadByte_advances h3).1
      split_ifs at h
      · simp only [bind_eq_ok] at h
        obtain ⟨⟨b4, i4⟩, h4, h⟩ := h
        have hi4 := (urlReadByte_advances h4).1
        split_ifs at h
        · exact ((hi2.trans hi3).trans hi4).trans (position_eq h).le
        · exact (position_eq h).le
      · exact (position_eq h).le
    · exact (position_eq h).le
  · exact (position_eq h).le

lemma urlDecodeStep_advances {str : Text} {i cp j : ℕ}
    (h : urlDecodeStep str i = .ok (cp, j)) : i < j := by
  rw [urlDecodeStep, bind_eq_ok] at h
  obtain ⟨⟨b1, i1⟩, hread, h⟩ := h
  cases b1 with
  | none =>
    simp only [bind_eq_ok] at h
    obtain ⟨ch, -, h⟩ := h
    cases h
    omega
  | some b1 =>
    have hi1 := (urlReadByte_advances hread).2 (by simp)
    simp only at h
    split_ifs at h
    · cases h
      exact hi1
    · exact hi1.trans_le (utf8Combine_advances h)

/-- The loop of `url-decode`. -/
def urlDecodeLoop (str : Text) (i : ℕ) (acc : List ℕ) : Except SchemeError (List ℕ) :=
  if str.length ≤ i then .ok acc
  else
    match _hstep : urlDecodeStep str i with
    | .error e => .error e
    | .ok (cp, j) => urlDecodeLoop str j (acc ++ [cp])
termination_by str.length - i
decreasing_by
  have := urlDecodeStep_advances _hstep
  omega

/-- `url-decode`: the codes of the characters. -/
def urlDecode (str : Text) : Except SchemeError (List ℕ) := urlDecodeLoop str 0 []

/-! ## Base64 without padding -/

/-- `b64url-strip-padding`, which drops the same characters. -/
def b64urlStripPadding (s : Text) : Text := base64RemovePadding s

/-- `b64url-restore-padding`. -/
def b64urlRestorePadding (s : Text) : Text :=
  let rem := s.length % 4
  if rem = 0 then s
  else if rem = 2 then s ++ ['=', '=']
  else if rem = 3 then s ++ ['=']
  else s

/-- `b64url-replace-encode`. -/
def b64urlReplaceEncode (s : Text) : Text :=
  stringReplace (stringReplace s ['+'] ['-']) ['/'] ['_']

/-- `b64url-replace-decode`. -/
def b64urlReplaceDecode (s : Text) : Text :=
  stringReplace (stringReplace s ['-'] ['+']) ['_'] ['/']

/-- `base64url-encode`. -/
def base64urlEncode (str : Text) : Except SchemeError Text := do
  let encoded ← base64EncodeString str
  return b64urlStripPadding (b64urlReplaceEncode encoded)

/-- `base64url-decode`: the bytes of the string. -/
def base64urlDecode (str : Text) : Except SchemeError (List ℕ) :=
  base64DecodeString (b64urlRestorePadding (b64urlReplaceDecode str))

end Url
