import Eshkol.Base.PrefixCode
import Eshkol.Vm.Strings
import Mathlib.Data.Char
import Mathlib.Algebra.Order.Group.Nat

/-!
# Strings are sequences of code points

The encoder and the decoder are inverse on scalar values, and the encodings of the scalar values synchronize
themselves. So every position that an operation reaches is the start of a code point, and the operations on the
bytes are those on the list of code points.
-/

namespace Vm.Strings

open SelfSync PrefixCode

/-! ## The encoding of one code point -/

/-- The bytes of a scalar value. -/
def encodeChar (c : Char) : List UInt8 := vmUtf8Encode c.toNat

/-- A continuation byte with its six bits. -/
def continuationByte (b : ℕ) : UInt8 := UInt8.ofNat (0x80 ||| b)

/-- A byte that starts a code point. -/
def IsLead (b : UInt8) : Prop := b &&& 0xC0 ≠ 0x80

set_option maxRecDepth 4000 in
lemma continuationByte_bits : ∀ b < 64,
    continuationByte b &&& 0xC0 = 0x80 ∧ (continuationByte b &&& 0x3F).toNat = b := by
  decide

lemma lead_one_bits : ∀ b < 128, UInt8.ofNat b < 0x80 ∧ (UInt8.ofNat b).toNat = b ∧
    UInt8.ofNat b &&& 0xC0 ≠ 0x80 := by
  decide

lemma lead_two_bits : ∀ a < 32, ¬ UInt8.ofNat (0xC0 ||| a) < 0x80 ∧ UInt8.ofNat (0xC0 ||| a) &&& 0xE0 = 0xC0 ∧
    (UInt8.ofNat (0xC0 ||| a) &&& 0x1F).toNat = a ∧ UInt8.ofNat (0xC0 ||| a) &&& 0xC0 ≠ 0x80 := by
  decide

lemma lead_three_bits : ∀ a < 16, ¬ UInt8.ofNat (0xE0 ||| a) < 0x80 ∧
    UInt8.ofNat (0xE0 ||| a) &&& 0xE0 ≠ 0xC0 ∧ UInt8.ofNat (0xE0 ||| a) &&& 0xF0 = 0xE0 ∧
    (UInt8.ofNat (0xE0 ||| a) &&& 0x0F).toNat = a ∧ UInt8.ofNat (0xE0 ||| a) &&& 0xC0 ≠ 0x80 := by
  decide

lemma lead_four_bits : ∀ a < 8, ¬ UInt8.ofNat (0xF0 ||| a) < 0x80 ∧
    UInt8.ofNat (0xF0 ||| a) &&& 0xE0 ≠ 0xC0 ∧ UInt8.ofNat (0xF0 ||| a) &&& 0xF0 ≠ 0xE0 ∧
    UInt8.ofNat (0xF0 ||| a) &&& 0xF8 = 0xF0 ∧ (UInt8.ofNat (0xF0 ||| a) &&& 0x07).toNat = a ∧
    UInt8.ofNat (0xF0 ||| a) &&& 0xC0 ≠ 0x80 := by
  decide

/-- The six bits of a continuation byte come in below the code point so far. -/
lemma shiftLeft_or {b : ℕ} (cp : ℕ) (hb : b < 64) : cp <<< 6 ||| b = cp * 64 + b := by
  rw [← Nat.shiftLeft_add_eq_or_of_lt (show b < 2 ^ 6 from hb), Nat.shiftLeft_eq]

/-- One round of the loop over the continuation bytes. -/
lemma continuationBytes_succ {buf : List UInt8} {pos b : ℕ} (expect cp : ℕ) (hb : b < 64)
    (hbyte : buf[pos]? = some (continuationByte b)) :
    continuationBytes buf (expect + 1) cp pos = continuationBytes buf expect (cp * 64 + b) (pos + 1) := by
  obtain ⟨htop, hbits⟩ := continuationByte_bits b hb
  rw [continuationBytes, hbyte]
  simp only [htop, hbits, ne_eq, not_true_eq_false, if_false]
  rw [shiftLeft_or cp hb]

/-- The code point of a scalar value passes the checks. -/
lemma checkedCodePoint_char {c : Char} {expect : ℕ} (htwo : expect = 1 → 0x80 ≤ c.toNat)
    (hthree : expect = 2 → 0x800 ≤ c.toNat) (hfour : expect = 3 → 0x10000 ≤ c.toNat) :
    checkedCodePoint expect c.toNat = c.toNat := by
  have hvalid : c.toNat < 0xD800 ∨ 0xDFFF < c.toNat ∧ c.toNat < 0x110000 := c.valid
  unfold checkedCodePoint
  rw [if_neg (by omega), if_neg (by omega), if_neg (by omega), if_neg (by omega), if_neg (by omega)]

/-- The four forms of an encoding. -/
lemma encodeChar_cases (c : Char) :
    (c.toNat < 0x80 ∧ encodeChar c = [UInt8.ofNat c.toNat]) ∨
    (0x80 ≤ c.toNat ∧ c.toNat < 0x800 ∧
      encodeChar c = [UInt8.ofNat (0xC0 ||| c.toNat / 64), continuationByte (c.toNat % 64)]) ∨
    (0x800 ≤ c.toNat ∧ c.toNat < 0x10000 ∧
      encodeChar c = [UInt8.ofNat (0xE0 ||| c.toNat / 4096), continuationByte (c.toNat / 64 % 64),
        continuationByte (c.toNat % 64)]) ∨
    (0x10000 ≤ c.toNat ∧ c.toNat < 0x110000 ∧
      encodeChar c = [UInt8.ofNat (0xF0 ||| c.toNat / 262144), continuationByte (c.toNat / 4096 % 64),
        continuationByte (c.toNat / 64 % 64), continuationByte (c.toNat % 64)]) := by
  have hvalid : c.toNat < 0xD800 ∨ 0xDFFF < c.toNat ∧ c.toNat < 0x110000 := c.valid
  have hlow (n : ℕ) : n &&& 0x3F = n % 64 := Nat.and_two_pow_sub_one_eq_mod n 6
  have hscalar : ¬ ((c.toNat : ℤ) < 0 ∨ ((0xD800 : ℤ) ≤ c.toNat ∧ (c.toNat : ℤ) ≤ 0xDFFF) ∨
      (0x10FFFF : ℤ) < c.toNat) := by omega
  unfold encodeChar vmUtf8Encode
  simp only [Int.toNat_natCast, if_neg hscalar, hlow, Nat.shiftRight_eq_div_pow, continuationByte]
  by_cases hone : c.toNat < 0x80
  · exact .inl ⟨hone, if_pos (by omega)⟩
  rw [if_neg (by omega)]
  by_cases htwo : c.toNat < 0x800
  · exact .inr (.inl ⟨by omega, htwo, if_pos (by omega)⟩)
  rw [if_neg (by omega)]
  by_cases hthree : c.toNat < 0x10000
  · exact .inr (.inr (.inl ⟨by omega, hthree, if_pos (by omega)⟩))
  · exact .inr (.inr (.inr ⟨by omega, by omega, if_neg (by omega)⟩))

/-- The decoder reads back what the encoder wrote, wherever it stands. -/
lemma vmUtf8Decode_encodeChar (pre t : List UInt8) (c : Char) :
    vmUtf8Decode (pre ++ (encodeChar c ++ t)) pre.length = ((c.toNat : ℤ), pre.length + (encodeChar c).length) := by
  have hlow (n : ℕ) : n % 64 < 64 := Nat.mod_lt n (by decide)
  unfold vmUtf8Decode
  obtain ⟨hlt, hbytes⟩ | ⟨hle, hlt, hbytes⟩ | ⟨hle, hlt, hbytes⟩ | ⟨hle, hlt, hbytes⟩ := encodeChar_cases c
  · obtain ⟨hascii, hvalue, -⟩ := lead_one_bits c.toNat hlt
    rw [hbytes]
    simp [hascii, hvalue]
  · obtain ⟨hhigh, hlead, hvalue, -⟩ := lead_two_bits (c.toNat / 64) (by omega)
    rw [hbytes]
    simp only [List.cons_append, List.nil_append, List.getElem?_append_right (le_refl _), Nat.sub_self,
      List.getElem?_cons_zero, hhigh, hlead, hvalue, if_false, if_true]
    rw [if_neg (by omega), decodeTail,
      continuationBytes_succ 0 _ (hlow c.toNat) (by simp)]
    simp only [continuationBytes]
    rw [show c.toNat / 64 * 64 + c.toNat % 64 = c.toNat by omega,
      checkedCodePoint_char (by omega) (by omega) (by omega)]
    rfl
  · obtain ⟨hhigh, htwo, hlead, hvalue, -⟩ := lead_three_bits (c.toNat / 4096) (by omega)
    rw [hbytes]
    simp only [List.cons_append, List.nil_append, List.getElem?_append_right (le_refl _), Nat.sub_self,
      List.getElem?_cons_zero, hhigh, htwo, hlead, hvalue, if_false, if_true]
    rw [decodeTail, continuationBytes_succ 1 _ (hlow (c.toNat / 64)) (by simp),
      continuationBytes_succ 0 _ (hlow c.toNat) (by simp [Nat.add_assoc])]
    simp only [continuationBytes]
    rw [show (c.toNat / 4096 * 64 + c.toNat / 64 % 64) * 64 + c.toNat % 64 = c.toNat by omega,
      checkedCodePoint_char (by omega) (by omega) (by omega)]
    rfl
  · obtain ⟨hhigh, htwo, hthree, hlead, hvalue, -⟩ := lead_four_bits (c.toNat / 262144) (by omega)
    rw [hbytes]
    simp only [List.cons_append, List.nil_append, List.getElem?_append_right (le_refl _), Nat.sub_self,
      List.getElem?_cons_zero, hhigh, htwo, hthree, hlead, hvalue, if_false, if_true]
    rw [decodeTail, continuationBytes_succ 2 _ (hlow (c.toNat / 4096)) (by simp),
      continuationBytes_succ 1 _ (hlow (c.toNat / 64)) (by simp [Nat.add_assoc]),
      continuationBytes_succ 0 _ (hlow c.toNat) (by simp [Nat.add_assoc])]
    simp only [continuationBytes]
    rw [show ((c.toNat / 262144 * 64 + c.toNat / 4096 % 64) * 64 + c.toNat / 64 % 64) * 64 + c.toNat % 64 = c.toNat
      by omega, checkedCodePoint_char (by omega) (by omega) (by omega)]
    rfl

/-- The encodings of the scalar values. -/
lemma selfSynchronizing_encodeChar : SelfSynchronizing encodeChar IsLead where
  splits c d s t heq := by
    have hc := vmUtf8Decode_encodeChar [] s c
    have hd := vmUtf8Decode_encodeChar [] t d
    simp only [List.nil_append] at hc hd
    rw [heq, hd] at hc
    have hcode : d.toNat = c.toNat := by exact_mod_cast (Prod.mk.inj hc).1
    obtain rfl : c = d := Char.ext (UInt32.toNat_inj.1 hcode.symm)
    exact ⟨rfl, List.append_cancel_left heq⟩
  head c := by
    have hlow (n : ℕ) : ¬ IsLead (continuationByte (n % 64)) :=
      not_not.2 (continuationByte_bits (n % 64) (Nat.mod_lt n (by decide))).1
    obtain ⟨hlt, hbytes⟩ | ⟨hle, hlt, hbytes⟩ | ⟨hle, hlt, hbytes⟩ | ⟨hle, hlt, hbytes⟩ := encodeChar_cases c
    · exact ⟨_, _, hbytes, (lead_one_bits _ hlt).2.2, by simp⟩
    · exact ⟨_, _, hbytes, (lead_two_bits _ (by omega)).2.2.2, by simp [hlow]⟩
    · exact ⟨_, _, hbytes, (lead_three_bits _ (by omega)).2.2.2.2, by simp [hlow]⟩
    · exact ⟨_, _, hbytes, (lead_four_bits _ (by omega)).2.2.2.2.2, by simp [hlow]⟩

/-! ## The loops -/

/-- The bytes of a list of scalar values. -/
abbrev bytes (xs : List Char) : List UInt8 := xs.flatMap encodeChar

/-- The list of code points of a list of scalar values. -/
@[grind =]
def codes (xs : List Char) : List ℤ := xs.map fun c => (c.toNat : ℤ)

/-- The string of a list of scalar values. -/
@[grind =]
def text (xs : List Char) : VmString := ⟨bytes xs, xs.length⟩

@[simp] lemma text_data (xs : List Char) : (text xs).data = bytes xs := rfl

@[simp] lemma text_charLen (xs : List Char) : (text xs).charLen = xs.length := rfl

lemma bytes_append (xs ys : List Char) : bytes (xs ++ ys) = bytes xs ++ bytes ys := List.flatMap_append

lemma length_bytes_append (xs ys : List Char) :
    (bytes (xs ++ ys)).length = (bytes xs).length + (bytes ys).length := by
  rw [bytes_append, List.length_append]

lemma length_encodeChar_pos (c : Char) : 0 < (encodeChar c).length :=
  selfSynchronizing_encodeChar.length_pos c

/-- Decoding at the start of a code point returns it and moves on to the next one. -/
lemma vmUtf8Decode_bytes (xs ys : List Char) (c : Char) :
    vmUtf8Decode (bytes (xs ++ c :: ys)) (bytes xs).length =
      ((c.toNat : ℤ), (bytes (xs ++ [c])).length) := by
  have hlength : (bytes [c]).length = (encodeChar c).length := by simp [bytes]
  rw [bytes_append, length_bytes_append, hlength]
  exact vmUtf8Decode_encodeChar (bytes xs) (bytes ys) c

lemma lt_length_bytes (xs ys : List Char) (c : Char) :
    (bytes xs).length < (bytes (xs ++ c :: ys)).length := by
  have hpos := length_encodeChar_pos c
  have hlength : (bytes (c :: ys)).length = (encodeChar c).length + (bytes ys).length := by simp [bytes]
  rw [length_bytes_append]
  omega

/-- What is before a code point, with the code point. -/
lemma append_cons_eq (xs ys : List Char) (c : Char) : xs ++ c :: ys = xs ++ [c] ++ ys := by
  rw [List.append_assoc, List.singleton_append]

lemma countFrom_of_lt {buf : List UInt8} {pos count : ℕ} (hpos : pos < buf.length) :
    countFrom buf pos count = countFrom buf (vmUtf8Decode buf pos).2 (count + 1) := by
  rw [countFrom, dif_pos hpos]

lemma countFrom_of_le {buf : List UInt8} {pos count : ℕ} (hpos : buf.length ≤ pos) :
    countFrom buf pos count = count := by
  rw [countFrom, dif_neg (by omega)]

lemma countFrom_bytes (xs ys : List Char) (count : ℕ) :
    countFrom (bytes (xs ++ ys)) (bytes xs).length count = count + ys.length := by
  induction ys generalizing xs count with
  | nil =>
    rw [List.append_nil, countFrom_of_le (le_refl _)]
    rfl
  | cons c ys ih =>
    rw [countFrom_of_lt (lt_length_bytes xs ys c), vmUtf8Decode_bytes, append_cons_eq xs ys c, ih, List.length_cons]
    omega

lemma vmUtf8CharCount_bytes (xs : List Char) : vmUtf8CharCount (bytes xs) = xs.length := by
  have hcount := countFrom_bytes [] xs 0
  rwa [List.nil_append, Nat.zero_add] at hcount

lemma vmStringNew_bytes (xs : List Char) : vmStringNew (bytes xs) = text xs :=
  congrArg (VmString.mk (bytes xs)) (vmUtf8CharCount_bytes xs)

lemma vmStringNew_nil : vmStringNew [] = text [] := vmStringNew_bytes []

lemma skipChars_bytes (xs ys zs : List Char) :
    skipChars (bytes (xs ++ (ys ++ zs))) ys.length (bytes xs).length = some (bytes (xs ++ ys)).length := by
  induction ys generalizing xs with
  | nil => rw [List.append_nil, List.length_nil, skipChars]
  | cons c ys ih =>
    have hlt := lt_length_bytes xs (ys ++ zs) c
    rw [List.length_cons, skipChars, List.cons_append, if_neg (by omega), vmUtf8Decode_bytes,
      append_cons_eq xs (ys ++ zs) c, ih (xs ++ [c]), append_cons_eq xs ys c]

lemma vmUtf8ByteOffset_bytes {xs : List Char} {k : ℕ} (hk : k ≤ xs.length) :
    vmUtf8ByteOffset (bytes xs) k = some (bytes (xs.take k)).length := by
  have hskip := skipChars_bytes [] (xs.take k) (xs.drop k)
  rwa [List.nil_append, List.nil_append, List.take_append_drop, List.length_take, Nat.min_eq_left hk] at hskip

lemma decodeFrom_bytes (xs ys : List Char) :
    decodeFrom (bytes (xs ++ ys)) ys.length (bytes xs).length = codes ys := by
  induction ys generalizing xs with
  | nil => rfl
  | cons c ys ih =>
    rw [List.length_cons, decodeFrom, vmUtf8Decode_bytes, append_cons_eq xs ys c, ih]
    rfl

lemma ltFrom_of_lt {a b : VmString} {pa pb : ℕ} (ha : pa < a.data.length) (hb : pb < b.data.length) :
    ltFrom a b pa pb =
      if (vmUtf8Decode a.data pa).1 < (vmUtf8Decode b.data pb).1 then true
      else if (vmUtf8Decode b.data pb).1 < (vmUtf8Decode a.data pa).1 then false
      else ltFrom a b (vmUtf8Decode a.data pa).2 (vmUtf8Decode b.data pb).2 := by
  rw [ltFrom, dif_pos ⟨ha, hb⟩]

lemma ltFrom_of_le {a b : VmString} {pa pb : ℕ} (hend : a.data.length ≤ pa ∨ b.data.length ≤ pb) :
    ltFrom a b pa pb = (decide (a.data.length ≤ pa ∧ pb < b.data.length)) := by
  rw [ltFrom, dif_neg (by omega)]

/-- Bytes compare as code points do. -/
lemma ltFrom_bytes (as bs xs ys : List Char) :
    ltFrom (text (as ++ xs)) (text (bs ++ ys)) (bytes as).length (bytes bs).length = decide (xs < ys) := by
  induction xs generalizing as bs ys with
  | nil =>
    rw [List.append_nil, ltFrom_of_le (.inl (le_refl (bytes as).length)), decide_eq_decide]
    cases ys with
    | nil => simp [text]
    | cons d ys => exact iff_of_true ⟨le_refl _, lt_length_bytes bs ys d⟩ (List.nil_lt_cons d ys)
  | cons c xs ih =>
    have hc := lt_length_bytes as xs c
    cases ys with
    | nil =>
      rw [List.append_nil, ltFrom_of_le (.inr (le_refl (bytes bs).length)), decide_eq_decide]
      exact iff_of_false (fun h => lt_irrefl _ h.2) (List.not_lt_nil _)
    | cons d ys =>
      have hdecodeC : vmUtf8Decode (text (as ++ c :: xs)).data (bytes as).length = _ := vmUtf8Decode_bytes as xs c
      have hdecodeD : vmUtf8Decode (text (bs ++ d :: ys)).data (bytes bs).length = _ := vmUtf8Decode_bytes bs ys d
      rw [ltFrom_of_lt hc (lt_length_bytes bs ys d), hdecodeC, hdecodeD]
      have hchar : ((c.toNat : ℤ) < d.toNat ↔ c < d) ∧ ((d.toNat : ℤ) < c.toNat ↔ d < c) :=
        ⟨Int.ofNat_lt, Int.ofNat_lt⟩
      have hnext := ih (as ++ [c]) (bs ++ [d]) ys
      rw [← append_cons_eq, ← append_cons_eq] at hnext
      simp only [hchar, List.cons_lt_cons_iff]
      rcases lt_trichotomy c d with hlt | rfl | hgt
      · simp [hlt]
      · simpa using hnext
      · simp [hgt, hgt.ne', hgt.not_gt]

lemma splitFrom_of_lt {buf : List UInt8} {delimCp : ℤ} {segStart pos : ℕ} (hpos : pos < buf.length) :
    splitFrom buf delimCp segStart pos =
      if (vmUtf8Decode buf pos).1 = delimCp then
        vmStringNew ((buf.drop segStart).take (pos - segStart)) ::
          splitFrom buf delimCp (vmUtf8Decode buf pos).2 (vmUtf8Decode buf pos).2
      else splitFrom buf delimCp segStart (vmUtf8Decode buf pos).2 := by
  rw [splitFrom, dif_pos hpos]

lemma splitFrom_of_le {buf : List UInt8} {delimCp : ℤ} {segStart pos : ℕ} (hpos : buf.length ≤ pos) :
    splitFrom buf delimCp segStart pos = [vmStringNew (buf.drop segStart)] := by
  rw [splitFrom, dif_neg (by omega)]

/-- The bytes of a slice. -/
lemma slice_bytes (xs ys zs : List Char) :
    ((bytes (xs ++ ys ++ zs)).drop (bytes xs).length).take ((bytes (xs ++ ys)).length - (bytes xs).length) =
      bytes ys := by
  rw [length_bytes_append, Nat.add_sub_cancel_left, List.append_assoc, bytes_append, List.drop_left' rfl,
    bytes_append, List.take_left' rfl]

lemma splitFrom_bytes (xs seg ys : List Char) (d : Char) :
    splitFrom (bytes (xs ++ seg ++ ys)) d.toNat (bytes xs).length (bytes (xs ++ seg)).length =
      (List.splitOnPPrepend (· == d) ys seg.reverse).map text := by
  induction ys generalizing xs seg with
  | nil =>
    rw [List.append_nil, splitFrom_of_le (le_refl _), bytes_append, List.drop_left' rfl, vmStringNew_bytes,
      List.splitOnPPrepend_nil, List.reverse_reverse]
    rfl
  | cons c ys ih =>
    rw [splitFrom_of_lt (lt_length_bytes (xs ++ seg) ys c), vmUtf8Decode_bytes, slice_bytes, vmStringNew_bytes,
      List.splitOnPPrepend_cons_eq_if, List.reverse_reverse]
    by_cases hcd : c = d
    · subst hcd
      have hrest := ih (xs ++ seg ++ [c]) []
      rw [List.append_nil, ← append_cons_eq] at hrest
      rw [if_pos rfl, if_pos (beq_self_eq_true c), List.map_cons, hrest]
      rfl
    · have hcode : (c.toNat : ℤ) ≠ d.toNat := fun h => hcd (Char.toNat_inj.1 (by exact_mod_cast h))
      have hrest := ih xs (seg ++ [c])
      rw [← List.append_assoc, ← append_cons_eq, List.reverse_append] at hrest
      rw [if_neg hcode, if_neg (by simpa using hcd), hrest]
      rfl

/-! ## The operations -/

/-- Building the string of a list of scalar values. -/
lemma vmStringFromList_codes (xs : List Char) : vmStringFromList (codes xs) = text xs := by
  unfold vmStringFromList
  split_ifs with hlen
  · have hnil : xs = [] := by simpa [codes] using hlen
    rw [hnil, vmStringNew_nil]
  · rw [codes, List.flatMap_map, List.length_map]
    rfl

lemma vmStringToList_text (xs : List Char) : vmStringToList (text xs) = codes xs := decodeFrom_bytes [] xs

/-- The position of a character below the length, and what is decoded there. -/
lemma vmUtf8Decode_take {xs : List Char} {k : ℕ} (hk : k < xs.length) :
    vmUtf8Decode (bytes xs) (bytes (xs.take k)).length =
      ((xs[k].toNat : ℤ), (bytes (xs.take (k + 1))).length) := by
  have hdecode := vmUtf8Decode_bytes (xs.take k) (xs.drop (k + 1)) xs[k]
  rwa [← List.drop_eq_getElem_cons hk, List.take_append_drop, ← List.take_succ_eq_append_getElem hk] at hdecode

lemma length_bytes_take_lt {xs : List Char} {k : ℕ} (hk : k < xs.length) :
    (bytes (xs.take k)).length < (bytes xs).length := by
  have hlt := lt_length_bytes (xs.take k) (xs.drop (k + 1)) xs[k]
  rwa [← List.drop_eq_getElem_cons hk, List.take_append_drop] at hlt

lemma vmStringRef_text (xs : List Char) (i : ℤ) :
    vmStringRef (text xs) i = if i < 0 then -1 else ((codes xs)[i.toNat]?).getD (-1) := by
  unfold vmStringRef
  by_cases hneg : i < 0
  · rw [if_pos (.inl hneg), if_pos hneg]
  rw [if_neg hneg]
  by_cases hlen : (xs.length : ℤ) ≤ i
  · rw [if_pos (.inr hlen), List.getElem?_eq_none (by rw [codes, List.length_map]; omega)]
    rfl
  · obtain ⟨k, rfl⟩ := Int.eq_ofNat_of_zero_le (not_lt.1 hneg)
    have hk : k < xs.length := by omega
    rw [if_neg (by rw [text_charLen]; omega), text_data, vmUtf8ByteOffset_bytes hk.le]
    dsimp only
    rw [if_neg (not_le.2 (length_bytes_take_lt hk)), vmUtf8Decode_take hk]
    simp [codes, hk]

lemma vmStringSet_text (xs : List Char) (i : ℤ) (c : Char) :
    vmStringSet (text xs) i c.toNat = if 0 ≤ i ∧ i < xs.length then some (text (xs.set i.toNat c)) else none := by
  unfold vmStringSet
  by_cases hrange : 0 ≤ i ∧ i < xs.length
  · obtain ⟨k, rfl⟩ := Int.eq_ofNat_of_zero_le hrange.1
    have hk : k < xs.length := by omega
    rw [if_pos hrange, if_neg (by rw [text_charLen]; omega), text_data, vmUtf8ByteOffset_bytes hk.le]
    dsimp only
    rw [vmUtf8Decode_take hk]
    have htake : (bytes xs).take (bytes (xs.take k)).length = bytes (xs.take k) := take_offset xs k
    have hdrop : (bytes xs).drop (bytes (xs.take (k + 1))).length = bytes (xs.drop (k + 1)) := drop_offset xs (k + 1)
    have hbytes : bytes (xs.set k c) = bytes (xs.take k) ++ vmUtf8Encode c.toNat ++ bytes (xs.drop (k + 1)) := by
      rw [List.set_eq_take_append_cons_drop, if_pos hk, bytes_append, List.append_assoc]
      rfl
    rw [htake, hdrop, Int.toNat_natCast, ← hbytes, text_charLen]
    unfold text
    rw [List.length_set]
  · rw [if_neg hrange, if_pos (by rw [text_charLen]; omega)]

/-- Substrings are cut at characters. -/
lemma vmStringSubstring_text (xs : List Char) (start stop : ℤ) :
    vmStringSubstring (text xs) start stop = text ((xs.take stop.toNat).drop start.toNat) := by
  unfold vmStringSubstring
  rw [text_data, text_charLen]
  dsimp only
  -- both ends as positions inside the string
  have hstart : (if start < 0 then 0 else start) = (start.toNat : ℤ) := by split_ifs <;> omega
  have hstop : (if (xs.length : ℤ) < stop then (xs.length : ℤ) else stop) ≤ start.toNat ↔
      min stop.toNat xs.length ≤ start.toNat := by split_ifs <;> omega
  have htake : xs.take stop.toNat = xs.take (min stop.toNat xs.length) := by
    rw [← List.take_take, List.take_length]
  rw [hstart, htake]
  by_cases hempty : min stop.toNat xs.length ≤ start.toNat
  · rw [if_pos (hstop.2 hempty), vmStringNew_nil, List.drop_of_length_le (by rw [List.length_take]; omega)]
  · have hstop' : (if (xs.length : ℤ) < stop then (xs.length : ℤ) else stop) = (min stop.toNat xs.length : ℕ) := by
      split_ifs <;> omega
    have hsplit : xs.take start.toNat ++ (xs.take (min stop.toNat xs.length)).drop start.toNat =
        xs.take (min stop.toNat xs.length) := by
      rw [List.drop_take, ← List.take_add]
      congr 1
      omega
    have hslice := slice_bytes (xs.take start.toNat) ((xs.take (min stop.toNat xs.length)).drop start.toNat)
      (xs.drop (min stop.toNat xs.length))
    rw [hsplit, List.take_append_drop] at hslice
    rw [if_neg (mt hstop.1 hempty), hstop', vmUtf8ByteOffset_bytes (by omega), vmUtf8ByteOffset_bytes (by omega),
      Option.getD_some,
      Option.getD_some, hslice, vmStringNew_bytes]

lemma vmStringAppend_text (xs ys : List Char) :
    vmStringAppend (some (text xs)) (some (text ys)) = text (xs ++ ys) := by
  show _ = VmString.mk (bytes (xs ++ ys)) (xs ++ ys).length
  rw [bytes_append, List.length_append]
  rfl

/-- The first `n` rounds have swapped the outer `n` code points on both sides. -/
lemma foldl_swapEnds_getElem? (cps : List ℤ) {n : ℕ} (hn : n ≤ cps.length / 2) :
    ((List.range n).foldl swapEnds cps).length = cps.length ∧ ∀ j < cps.length,
      ((List.range n).foldl swapEnds cps)[j]? =
        if j < n ∨ cps.length ≤ j + n then cps[cps.length - 1 - j]? else cps[j]? := by
  induction n with
  | zero =>
    refine ⟨rfl, fun j hj => ?_⟩
    rw [if_neg (by omega)]
    rfl
  | succ n ih =>
    obtain ⟨hlen, hget⟩ := ih (by omega)
    rw [List.range_succ, List.foldl_append, List.foldl_cons, List.foldl_nil]
    generalize (List.range n).foldl swapEnds cps = swapped at hlen hget ⊢
    unfold swapEnds
    refine ⟨by rw [List.length_set, List.length_set, hlen], fun j hj => ?_⟩
    rw [List.getD_eq_getElem?_getD, List.getD_eq_getElem?_getD, hlen, hget n (by omega),
      hget (cps.length - 1 - n) (by omega), if_neg (by omega), if_neg (by omega), List.getElem?_set,
      List.getElem?_set, hget j hj]
    simp only [List.length_set, hlen]
    have hmirror : cps.length - 1 - (cps.length - 1 - n) = n := by omega
    by_cases hlast : cps.length - 1 - n = j
    · have hn : cps.length - 1 - j = n := by omega
      rw [if_pos hlast, if_pos (by omega), if_pos (by omega), hn, List.getElem?_eq_getElem (by omega)]
      rfl
    · rw [if_neg hlast]
      by_cases hfirst : n = j
      · subst hfirst
        rw [if_pos rfl, if_pos hj, if_pos (by omega), List.getElem?_eq_getElem (by omega)]
        rfl
      · rw [if_neg hfirst]
        exact if_congr (by omega) rfl rfl

lemma foldl_swapEnds (cps : List ℤ) : (List.range (cps.length / 2)).foldl swapEnds cps = cps.reverse := by
  obtain ⟨hlen, hget⟩ := foldl_swapEnds_getElem? cps (le_refl (cps.length / 2))
  refine List.ext_getElem? fun j => ?_
  by_cases hj : j < cps.length
  · rw [hget j hj, List.getElem?_reverse hj]
    split_ifs with hside
    · rfl
    · -- the middle one of an odd number stays
      rw [show cps.length - 1 - j = j by omega]
  · rw [List.getElem?_eq_none (by omega), List.getElem?_eq_none (by rw [List.length_reverse]; omega)]

lemma vmStringReverse_text (xs : List Char) : vmStringReverse (text xs) = text xs.reverse := by
  unfold vmStringReverse
  rw [text_charLen]
  split_ifs with hlen
  · rw [vmStringCopy, text_data, vmStringNew_bytes]
    match xs, hlen with
    | [], _ => rfl
    | [_], _ => rfl
  · dsimp only
    rw [vmStringToList_text, foldl_swapEnds, codes, ← List.map_reverse]
    exact vmStringFromList_codes xs.reverse

/-- The loop answers with the first of the offsets left where the bytes occur. -/
lemma searchFrom_eq (s substr : VmString) (fuel i : ℕ) :
    searchFrom s substr fuel i =
      (((List.range' i fuel).find? fun i => substr.data.isPrefixOf (s.data.drop i)).map
        fun i => (vmUtf8CharCount (s.data.take i) : ℤ)).getD (-1) := by
  induction fuel generalizing i with
  | zero => rfl
  | succ fuel ih =>
    have hfront : (s.data.drop i).take substr.data.length = substr.data ↔ substr.data.isPrefixOf (s.data.drop i) := by
      rw [List.isPrefixOf_iff_prefix, List.prefix_iff_eq_take]
      exact eq_comm
    rw [searchFrom, List.range'_succ, List.find?_cons, ih (i + 1)]
    by_cases hhere : substr.data.isPrefixOf (s.data.drop i) = true
    · rw [if_pos (hfront.2 hhere), hhere]
      rfl
    · rw [if_neg (mt hfront.1 hhere), Bool.eq_false_iff.2 hhere]

/-- The index of the first occurrence. -/
def indexOf (xs ys : List Char) : ℤ :=
  (((List.range (xs.length + 1)).find? fun k => ys.isPrefixOf (xs.drop k)).map fun k : ℕ => (k : ℤ)).getD (-1)

/-- The first byte where the bytes of `ys` occur is the start of the first code point where `ys` does. -/
lemma find?_bytes {xs ys : List Char} (hys : ys ≠ []) :
    ((List.range ((bytes xs).length - (bytes ys).length + 1)).find? fun i =>
        (bytes ys).isPrefixOf ((bytes xs).drop i)) =
      ((List.range (xs.length + 1)).find? fun k => ys.isPrefixOf (xs.drop k)).map
        fun k => (bytes (xs.take k)).length := by
  have hoccurs (i : ℕ) : bytes ys <+: (bytes xs).drop i ↔
      ∃ k < xs.length, i = (bytes (xs.take k)).length ∧ ys <+: xs.drop k :=
    selfSynchronizing_encodeChar.occurs_iff hys
  cases hfind : (List.range (xs.length + 1)).find? fun k => ys.isPrefixOf (xs.drop k) with
  | none =>
    rw [Option.map_none, List.find?_eq_none]
    intro i _ hi
    obtain ⟨k, hk, -, hfront⟩ := (hoccurs i).1 (List.isPrefixOf_iff_prefix.1 hi)
    exact List.find?_eq_none.1 hfind k (List.mem_range.2 (by omega)) (List.isPrefixOf_iff_prefix.2 hfront)
  | some k =>
    obtain ⟨hfront, hk, hfirst⟩ := List.find?_range_eq_some.1 hfind
    have hfront := List.isPrefixOf_iff_prefix.1 hfront
    have hk : k < xs.length := by
      by_contra hend
      rw [List.drop_of_length_le (by omega)] at hfront
      exact hys (List.prefix_nil.1 hfront)
    have hhere : bytes ys <+: (bytes xs).drop (bytes (xs.take k)).length := (hoccurs _).2 ⟨k, hk, rfl, hfront⟩
    have hlength := hhere.length_le
    rw [List.length_drop] at hlength
    have hpos : 0 < (bytes ys).length :=
      List.length_pos_iff.2 (mt selfSynchronizing_encodeChar.flatMap_eq_nil.1 hys)
    rw [Option.map_some, List.find?_range_eq_some]
    refine ⟨List.isPrefixOf_iff_prefix.2 hhere, List.mem_range.2 (by omega), fun i hi => ?_⟩
    rw [Bool.not_eq_true', Bool.eq_false_iff]
    intro hoccurrence
    obtain ⟨l, hl, rfl, hearlier⟩ := (hoccurs i).1 (List.isPrefixOf_iff_prefix.1 hoccurrence)
    -- an earlier byte would be the start of an earlier code point
    have hlk : l < k := by
      by_contra hkl
      rcases Nat.lt_or_eq_of_le (not_lt.1 hkl) with hlt | rfl
      · have hmono := selfSynchronizing_encodeChar.offset_strictMono hlt hl.le
        exact absurd hi (not_lt.2 hmono.le)
      · exact lt_irrefl _ hi
    have hnot := hfirst l hlk
    rw [List.isPrefixOf_iff_prefix.2 hearlier] at hnot
    exact absurd hnot (by decide)

/-- The index counts characters. -/
lemma vmStringContains_text (xs ys : List Char) : vmStringContains (text xs) (text ys) = indexOf xs ys := by
  unfold vmStringContains indexOf
  by_cases hys : ys = []
  · subst hys
    rw [if_pos (by rfl), List.range_succ_eq_map]
    rfl
  have hfind := @find?_bytes xs ys hys
  have hne : (bytes ys).length ≠ 0 :=
    mt List.length_eq_zero_iff.1 (mt selfSynchronizing_encodeChar.flatMap_eq_nil.1 hys)
  rw [text_data, text_data, if_neg hne]
  by_cases hlong : (bytes xs).length < (bytes ys).length
  · -- the code points do not occur where the bytes do not fit
    rw [if_pos hlong]
    have hnone : ((List.range (xs.length + 1)).find? fun k => ys.isPrefixOf (xs.drop k)) = none := by
      rw [← Option.map_eq_none_iff, ← hfind, List.find?_eq_none]
      intro i _ hi
      have hlength := (List.isPrefixOf_iff_prefix.1 hi).length_le
      rw [List.length_drop] at hlength
      omega
    rw [hnone]
    rfl
  · rw [if_neg hlong, searchFrom_eq, ← List.range_eq_range']
    simp only [text_data]
    rw [hfind, Option.map_map]
    congr 1
    refine Option.map_congr fun k hk => ?_
    have hk := List.mem_range.1 (List.mem_of_find?_eq_some hk)
    have htake : (bytes xs).take (bytes (xs.take k)).length = bytes (xs.take k) := take_offset xs k
    show ((vmUtf8CharCount ((bytes xs).take (bytes (xs.take k)).length) : ℕ) : ℤ) = k
    rw [htake, vmUtf8CharCount_bytes, List.length_take, Nat.min_eq_left (by omega)]

/-- The loop of `vm_string_join` on the strings of lists. -/
lemma joinRest_text (sep : List Char) (parts : List (List Char)) (xs : List Char) :
    joinRest (some (text sep)) (parts.map fun part => some (text part)) (text xs) =
      text (xs ++ (parts.map (sep ++ ·)).flatten) := by
  induction parts generalizing xs with
  | nil =>
    rw [List.map_nil, List.map_nil, List.flatten_nil, List.append_nil]
    rfl
  | cons part parts ih =>
    have hjoined (xs ys : List Char) : joined (text xs) (some (text ys)) = text (xs ++ ys) := vmStringAppend_text xs ys
    rw [List.map_cons, joinRest, hjoined, hjoined, ih, List.map_cons, List.flatten_cons, List.append_assoc,
      List.append_assoc, List.append_assoc]

lemma vmStringJoin_text (parts : List (List Char)) (sep : List Char) :
    vmStringJoin (parts.map fun part => some (text part)) (some (text sep)) = some (text (sep.intercalate parts)) := by
  match parts with
  | [] => rw [List.map_nil, vmStringJoin, vmStringNew_nil, List.intercalate_nil]
  | [part] =>
    rw [List.map_singleton, vmStringJoin, List.intercalate_singleton, Option.map_some, vmStringCopy, text_data,
      vmStringNew_bytes]
  | first :: second :: parts =>
    have hjoined : joined ⟨[], 0⟩ (some (text first)) = text first := by simp [joined, text]
    have hflat : ∀ (first : List Char) (parts : List (List Char)),
        sep.intercalate (first :: parts) = first ++ (parts.map (sep ++ ·)).flatten := by
      intro first parts
      induction parts generalizing first with
      | nil => simp
      | cons part parts ih => rw [List.intercalate_cons_cons, ih, List.map_cons, List.flatten_cons]; simp
    show some (joinRest _ ((second :: parts).map fun part => some (text part)) (joined ⟨[], 0⟩ (some (text first)))) = _
    rw [hjoined, joinRest_text, hflat]

lemma vmStringSplit_text (xs : List Char) (d : Char) :
    vmStringSplit (text xs) d.toNat = if xs = [] then [] else (xs.splitOn d).map text := by
  unfold vmStringSplit
  by_cases hnil : xs = []
  · rw [if_pos hnil, if_pos (by rw [hnil]; rfl)]
  · have hsplit := splitFrom_bytes [] [] xs d
    have hbytes : bytes xs ≠ [] := mt selfSynchronizing_encodeChar.flatMap_eq_nil.1 hnil
    rw [if_neg hnil, text_data, if_neg (by rwa [List.length_eq_zero_iff])]
    exact hsplit

/-- Splitting at a scalar value and joining with it gives the string back. -/
lemma vmStringJoin_split (xs : List Char) (d : Char) :
    vmStringJoin ((vmStringSplit (text xs) d.toNat).map some) (some (text [d])) = some (text xs) := by
  rw [vmStringSplit_text]
  split_ifs with hnil
  · rw [hnil, List.map_nil, vmStringJoin, vmStringNew_nil]
  · rw [List.map_map]
    exact (vmStringJoin_text (xs.splitOn d) [d]).trans (by rw [List.intercalate_splitOn])

/-- The operations on strings of scalar values are those on the lists. -/
theorem strings_are_lists (xs ys : List Char) :
    vmStringToList (vmStringFromList (codes xs)) = codes xs ∧
    (∀ i, vmStringRef (vmStringFromList (codes xs)) i = if i < 0 then -1 else ((codes xs)[i.toNat]?).getD (-1)) ∧
    (∀ i (c : Char), vmStringSet (vmStringFromList (codes xs)) i c.toNat =
      if 0 ≤ i ∧ i < xs.length then some (vmStringFromList (codes (xs.set i.toNat c))) else none) ∧
    (∀ start stop, vmStringSubstring (vmStringFromList (codes xs)) start stop =
      vmStringFromList (codes ((xs.take stop.toNat).drop start.toNat))) ∧
    vmStringAppend (some (vmStringFromList (codes xs))) (some (vmStringFromList (codes ys))) =
      vmStringFromList (codes (xs ++ ys)) ∧
    vmStringReverse (vmStringFromList (codes xs)) = vmStringFromList (codes xs.reverse) ∧
    vmStringContains (vmStringFromList (codes xs)) (vmStringFromList (codes ys)) = indexOf xs ys ∧
    vmStringLt (vmStringFromList (codes xs)) (vmStringFromList (codes ys)) = decide (xs < ys) ∧
    (∀ d : Char, vmStringSplit (vmStringFromList (codes xs)) d.toNat =
      if xs = [] then [] else (xs.splitOn d).map fun part => vmStringFromList (codes part)) ∧
    ∀ d : Char, vmStringJoin ((vmStringSplit (vmStringFromList (codes xs)) d.toNat).map some)
      (some (vmStringFromList (codes [d]))) = some (vmStringFromList (codes ([d].intercalate (xs.splitOn d)))) := by
  simp only [vmStringFromList_codes]
  refine ⟨vmStringToList_text xs, vmStringRef_text xs, vmStringSet_text xs, vmStringSubstring_text xs,
    vmStringAppend_text xs ys, vmStringReverse_text xs, vmStringContains_text xs ys,
    ltFrom_bytes [] [] xs ys, vmStringSplit_text xs, fun d => ?_⟩
  rw [List.intercalate_splitOn]
  exact vmStringJoin_split xs d

end Vm.Strings
