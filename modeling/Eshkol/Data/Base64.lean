import Eshkol.Scheme.StringRef
import Mathlib.Data.List.DropRight

/-!
# Base64

Lists of bytes as texts of 64 characters and padding. A string is encoded through the list of the
codes of its characters. What is decoded is a string again, as its bytes.
-/

namespace Base64

open Scheme

/-! ## The alphabet -/

/-- The characters of the values from 0 to 63. -/
def alphabet : Text := "ABCDEFGHIJKLMNOPQRSTUVWXYZabcdefghijklmnopqrstuvwxyz0123456789+/".toList

/-- `base64-char-at`. -/
def base64CharAt (index : ℕ) : Except SchemeError Char := stringRef alphabet index

/-- `base64-value`. -/
def base64Value (ch : Char) : ℕ :=
  if 'A' ≤ ch ∧ ch ≤ 'Z' then ch.toNat - 'A'.toNat
  else if 'a' ≤ ch ∧ ch ≤ 'z' then 26 + (ch.toNat - 'a'.toNat)
  else if '0' ≤ ch ∧ ch ≤ '9' then 52 + (ch.toNat - '0'.toNat)
  else if ch = '+' then 62
  else if ch = '/' then 63
  else if ch = '=' then 0
  else 0

/-! ## Encoding -/

/-- `string->bytes-helper`, on what `string-ref` gives from the position on. -/
def stringToBytesHelper : Text → List ℕ
  | [] => []
  | c :: rest => c.toNat :: stringToBytesHelper rest

/-- `string->bytes`. -/
def stringToBytes (str : Text) : List ℕ := stringToBytesHelper (seen str)

/-- `base64-encode-helper`; `make-string` writes a character of the alphabet as it is. -/
def base64EncodeHelper : List ℕ → Text → Except SchemeError Text
  | [], result => .ok result
  | [b1], result => do
    let c1 ← base64CharAt (b1 / 4)
    let c2 ← base64CharAt (b1 % 4 * 16)
    return result ++ [c1] ++ [c2] ++ ['=', '=']
  | [b1, b2], result => do
    let c1 ← base64CharAt (b1 / 4)
    let c2 ← base64CharAt (b1 % 4 * 16 + b2 / 16)
    let c3 ← base64CharAt (b2 % 16 * 4)
    return result ++ [c1] ++ [c2] ++ [c3] ++ ['=']
  | b1 :: b2 :: b3 :: rest, result => do
    let c1 ← base64CharAt (b1 / 4)
    let c2 ← base64CharAt (b1 % 4 * 16 + b2 / 16)
    let c3 ← base64CharAt (b2 % 16 * 4 + b3 / 64)
    let c4 ← base64CharAt (b3 % 64)
    base64EncodeHelper rest (result ++ [c1] ++ [c2] ++ [c3] ++ [c4])

/-- `base64-encode`. -/
def base64Encode (bytes : List ℕ) : Except SchemeError Text := base64EncodeHelper bytes []

/-- `base64-encode-string`. -/
def base64EncodeString (str : Text) : Except SchemeError Text := base64Encode (stringToBytes str)

/-! ## Decoding -/

/-- `bytes->string`: the bytes of the string. -/
def bytesToString : List ℕ → List ℕ
  | [] => []
  | b :: bytes => makeString1 b ++ bytesToString bytes

/-- `base64-remove-padding`. -/
def base64RemovePadding (str : Text) : Text :=
  if str = [] then str
  else if (seen str).getLast? = some '=' then base64RemovePadding str.dropLast
  else str
termination_by str.length
decreasing_by
  have := List.length_pos_of_ne_nil ‹_›
  rw [List.length_dropLast]
  omega

/-- `base64-decode-helper`, on what `string-ref` gives from the position on; a single character is
followed by nothing that could be read. -/
@[grind =]
def base64DecodeHelper : Text → List ℕ → Except SchemeError (List ℕ)
  | [], result => .ok result.reverse
  | [_], _ => raise "string-ref: index out of bounds" []
  | [ch1, ch2], result =>
    let v1 := base64Value ch1
    let v2 := base64Value ch2
    let b1 := v1 * 4 + v2 / 16
    .ok (b1 :: result).reverse
  | [ch1, ch2, ch3], result =>
    let v1 := base64Value ch1
    let v2 := base64Value ch2
    let v3 := base64Value ch3
    let b1 := v1 * 4 + v2 / 16
    let b2 := v2 % 16 * 16 + v3 / 4
    .ok (b2 :: b1 :: result).reverse
  | ch1 :: ch2 :: ch3 :: ch4 :: rest, result =>
    let v1 := base64Value ch1
    let v2 := base64Value ch2
    let v3 := base64Value ch3
    let v4 := base64Value ch4
    let b1 := v1 * 4 + v2 / 16
    let b2 := v2 % 16 * 16 + v3 / 4
    let b3 := v3 % 4 * 64 + v4
    base64DecodeHelper rest (b3 :: b2 :: b1 :: result)

/-- `base64-decode`. -/
def base64Decode (str : Text) : Except SchemeError (List ℕ) :=
  base64DecodeHelper (seen (base64RemovePadding str)) []

/-- `base64-decode-string`: the bytes of the string. -/
@[grind =]
def base64DecodeString (str : Text) : Except SchemeError (List ℕ) := do
  let bytes ← base64Decode str
  return bytesToString bytes

/-! ## Characters and values -/

lemma stringToBytes_eq (str : Text) : stringToBytes str = (seen str).map Char.toNat := by
  rw [stringToBytes]
  generalize seen str = text
  induction text with
  | nil => rfl
  | cons c text ih => rw [stringToBytesHelper, ih, List.map_cons]

lemma bytesToString_eq (bytes : List ℕ) : bytesToString bytes = bytes.map (· % 256) := by
  induction bytes with
  | nil => rfl
  | cons b bytes ih =>
    rw [bytesToString, ih, List.map_cons]
    rfl

/-- The character of a value below 64. -/
def charOf (v : ℕ) : Char := alphabet.getD v '='

lemma alphabet_eq : alphabet = ['A', 'B', 'C', 'D', 'E', 'F', 'G', 'H', 'I', 'J', 'K', 'L', 'M',
    'N', 'O', 'P', 'Q', 'R', 'S', 'T', 'U', 'V', 'W', 'X', 'Y', 'Z', 'a', 'b', 'c', 'd', 'e', 'f',
    'g', 'h', 'i', 'j', 'k', 'l', 'm', 'n', 'o', 'p', 'q', 'r', 's', 't', 'u', 'v', 'w', 'x', 'y',
    'z', '0', '1', '2', '3', '4', '5', '6', '7', '8', '9', '+', '/'] := String.toList_ofList

lemma length_alphabet : alphabet.length = 64 := by
  rw [alphabet_eq]
  rfl

lemma isWide_of_mem_alphabet : ∀ c ∈ alphabet, isWide c = false := by
  have hall : alphabet.all (fun c => !isWide c) = true := by
    rw [alphabet_eq]
    decide
  intro c hc
  simpa using List.all_eq_true.1 hall c hc

lemma base64CharAt_eq_ok {v : ℕ} {c : Char} : base64CharAt v = .ok c ↔ v < 64 ∧ c = charOf v := by
  have hseen : seen alphabet = alphabet := seen_eq_self isWide_of_mem_alphabet
  have hlen := length_alphabet
  rw [base64CharAt, stringRef_eq_ok, hseen, charOf, List.getD_eq_getElem?_getD, ← hlen]
  constructor
  · intro h
    exact ⟨(List.getElem?_eq_some_iff.1 h).1, by rw [h, Option.getD_some]⟩
  · rintro ⟨h, rfl⟩
    rw [List.getElem?_eq_getElem h, Option.getD_some]

lemma base64Value_charOf {v : ℕ} (h : v < 64) : base64Value (charOf v) = v := by
  have hall : ∀ v < 64, base64Value (charOf v) = v := by
    simp only [charOf, alphabet_eq]
    decide
  exact hall v h

end Base64
