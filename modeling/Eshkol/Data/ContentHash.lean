import Eshkol.Scheme.Datum
import Mathlib.Data.Int.ModEq
import Mathlib.Data.Nat.Bitwise

/-!
# Content hashes

The hash that content addresses are made of, and its rendering in hexadecimal. The loops are those
of the native helpers; the hash is handed the bytes of the string and its length.
-/

namespace ContentHash

open Scheme (Text)

/-- `FNV1A_OFFSET_64`. -/
def fnv1aOffset64 : UInt64 := 0xcbf29ce484222325

/-- `FNV1A_PRIME_64`. -/
def fnv1aPrime64 : UInt64 := 0x100000001b3

/-- The loop of `eshkol_fnv1a_64` on the bytes from a position on, with the number of bytes that are
still to be read. Its caller does not ask for more bytes than there are. -/
def fnv1aLoop : List UInt8 → ℕ → UInt64 → UInt64
  | [], _, h => h
  | b :: data, len, h =>
    if len = 0 then h else fnv1aLoop data (len - 1) ((h ^^^ b.toUInt64) * fnv1aPrime64)

/-- `eshkol_fnv1a_64`. -/
def eshkolFnv1a64 (data : List UInt8) (len : ℕ) : UInt64 := fnv1aLoop data len fnv1aOffset64

/-- The bytes that native code sees of a string. -/
def utf8Bytes (str : Text) : List UInt8 := str.flatMap String.utf8EncodeChar

/-- `fnv1a-64`. -/
def fnv1a64 (str : Text) : UInt64 := eshkolFnv1a64 (utf8Bytes str) str.length

/-- The digits of `eshkol_u64_to_hex16`. -/
def hexChar (n : ℕ) : Char := "0123456789abcdef".toList.getD n ' '

/-- The loop of `eshkol_u64_to_hex16`, down from the place before `i`. -/
def writeHex : ℕ → UInt64 → Text → Text
  | 0, _, out => out
  | i + 1, v, out => writeHex i (v >>> 4) (out.set i (hexChar (v &&& 0xf).toNat))

/-- `eshkol_u64_to_hex16`: the buffer afterwards. -/
def u64ToHex16 (value : UInt64) (out : Text) (outSize : ℕ) : Text :=
  if outSize < 16 then out
  else if 17 ≤ outSize then (writeHex 16 value out).set 16 (Char.ofNat 0)
  else writeHex 16 value out

/-- `hash->hex`. -/
def hashToHex (h : UInt64) : Text := (u64ToHex16 h (List.replicate 17 ' ') 17).take 16

example : hashToHex 0x1f = "000000000000001f".toList := by decide

/-! ## Hexadecimal digits -/

/-- The digits of the low places, from the highest on. -/
def hexDigits : ℕ → UInt64 → Text
  | 0, _ => []
  | n + 1, v => hexDigits n (v >>> 4) ++ [hexChar (v &&& 0xf).toNat]

lemma length_hexDigits (n : ℕ) (v : UInt64) : (hexDigits n v).length = n := by
  induction n generalizing v with
  | zero => rfl
  | succ n ih => rw [hexDigits, List.length_append, ih, List.length_singleton]

lemma writeHex_eq {n : ℕ} (v : UInt64) {out : Text} (h : n ≤ out.length) :
    writeHex n v out = hexDigits n v ++ out.drop n := by
  induction n generalizing v out with
  | zero => rfl
  | succ n ih =>
    rw [writeHex, ih _ (by rw [List.length_set]; omega), hexDigits, List.append_assoc]
    congr 1
    rw [List.set_eq_take_append_cons_drop, if_pos (by omega), List.drop_left' (by simp; omega)]
    rfl

lemma hashToHex_eq (h : UInt64) : hashToHex h = hexDigits 16 h := by
  have hlength := length_hexDigits 16 h
  rw [hashToHex, u64ToHex16, if_neg (by decide), if_pos (by decide), writeHex_eq h (by simp),
    List.set_append_right _ _ hlength.le, List.take_left' hlength]

lemma hexChar_inj {m n : ℕ} (hm : m < 16) (hn : n < 16) (h : hexChar m = hexChar n) : m = n := by
  have hall : ∀ m < 16, ∀ n < 16, hexChar m = hexChar n → m = n := by decide
  exact hall m hm n hn h

lemma toNat_and_15 (v : UInt64) : (v &&& 0xf).toNat = v.toNat % 16 := by
  rw [UInt64.toNat_and]
  exact Nat.and_two_pow_sub_one_eq_mod v.toNat 4

lemma toNat_shiftRight_4 (v : UInt64) : (v >>> 4).toNat = v.toNat / 16 := by
  rw [UInt64.toNat_shiftRight]
  exact Nat.shiftRight_eq_div_pow v.toNat 4

/-- The digits determine the low places. -/
lemma mod_eq_of_hexDigits {n : ℕ} {v w : UInt64} (h : hexDigits n v = hexDigits n w) :
    v.toNat % 16 ^ n = w.toNat % 16 ^ n := by
  induction n generalizing v w with
  | zero => omega
  | succ n ih =>
    have hlength : (hexDigits n (v >>> 4)).length = (hexDigits n (w >>> 4)).length := by
      rw [length_hexDigits, length_hexDigits]
    obtain ⟨hhigh, hlow⟩ := List.append_inj h hlength
    have hlow := hexChar_inj (by rw [toNat_and_15]; omega) (by rw [toNat_and_15]; omega)
      (List.singleton_inj.1 hlow)
    have hhigh := ih hhigh
    rw [toNat_and_15, toNat_and_15] at hlow
    rw [toNat_shiftRight_4, toNat_shiftRight_4] at hhigh
    rw [Nat.pow_succ', Nat.mod_mul, Nat.mod_mul, hlow, hhigh]

lemma hashToHex_injective : Function.Injective hashToHex := by
  intro v w h
  rw [hashToHex_eq, hashToHex_eq] at h
  have hmod := mod_eq_of_hexDigits h
  have hplaces : 16 ^ 16 = 2 ^ 64 := by decide
  rw [hplaces, Nat.mod_eq_of_lt v.toNat_lt, Nat.mod_eq_of_lt w.toNat_lt] at hmod
  exact UInt64.toNat_inj.1 hmod

lemma length_hashToHex (h : UInt64) : (hashToHex h).length = 16 := by
  rw [hashToHex_eq, length_hexDigits]

/-! ## The hash of the bytes -/

/-- One step of FNV-1a. -/
def fnvStep (h : ℕ) (b : UInt8) : ℕ := (h ^^^ b.toNat) * 1099511628211 % 2 ^ 64

/-- FNV-1a over 64 bits. -/
def fnv1a (bytes : List UInt8) : ℕ := bytes.foldl fnvStep 14695981039346656037

/-- The bytes that the hash of a string is made of. -/
def hashedBytes (str : Text) : List UInt8 := (utf8Bytes str).take str.length

/-- All characters are ASCII. -/
def IsAscii (str : Text) : Prop := ∀ c ∈ str, c.toNat < 128

lemma toNat_fnvStep (h : UInt64) (b : UInt8) :
    ((h ^^^ b.toUInt64) * fnv1aPrime64).toNat = fnvStep h.toNat b := by
  rw [UInt64.toNat_mul, UInt64.toNat_xor, UInt8.toNat_toUInt64]
  rfl

lemma toNat_fnv1aLoop (data : List UInt8) (len : ℕ) (h : UInt64) :
    (fnv1aLoop data len h).toNat = (data.take len).foldl fnvStep h.toNat := by
  induction data generalizing len h with
  | nil => simp [fnv1aLoop]
  | cons b data ih =>
    cases len with
    | zero => simp [fnv1aLoop]
    | succ len =>
      rw [fnv1aLoop, if_neg (Nat.succ_ne_zero len), ih, toNat_fnvStep, List.take_succ_cons,
        List.foldl_cons, Nat.add_sub_cancel]

lemma length_le_length_utf8Bytes (str : Text) : str.length ≤ (utf8Bytes str).length := by
  induction str with
  | nil => exact Nat.le_refl 0
  | cons c str ih =>
    have hpos := c.utf8Size_pos
    rw [utf8Bytes, List.flatMap_cons, List.length_append, String.length_utf8EncodeChar,
      List.length_cons]
    rw [utf8Bytes] at ih
    omega

/-- The hash is that of as many bytes as there are characters. -/
lemma fnv1a64_eq (str : Text) : (fnv1a64 str).toNat = fnv1a (hashedBytes str) :=
  toNat_fnv1aLoop (utf8Bytes str) str.length fnv1aOffset64

lemma utf8Size_eq_one_iff (c : Char) : c.utf8Size = 1 ↔ c.toNat < 128 := by
  rw [Char.utf8Size_eq_one_iff, UInt32.le_iff_toNat_le]
  exact Nat.lt_succ_iff.symm

lemma length_utf8Bytes_iff (str : Text) : (utf8Bytes str).length = str.length ↔ IsAscii str := by
  induction str with
  | nil => simp [utf8Bytes, IsAscii]
  | cons c str ih =>
    have hpos := c.utf8Size_pos
    have hle := length_le_length_utf8Bytes str
    rw [IsAscii, List.forall_mem_cons, ← IsAscii, ← ih, ← utf8Size_eq_one_iff, utf8Bytes,
      List.flatMap_cons, List.length_append, String.length_utf8EncodeChar, List.length_cons,
      ← utf8Bytes]
    omega

/-- All bytes are hashed exactly if all characters are ASCII. -/
lemma hashedBytes_eq_iff (str : Text) : hashedBytes str = utf8Bytes str ↔ IsAscii str := by
  have hle := length_le_length_utf8Bytes str
  rw [← length_utf8Bytes_iff]
  constructor
  · intro heq
    have hlength := congrArg List.length heq
    rw [hashedBytes, List.length_take] at hlength
    omega
  · intro heq
    rw [hashedBytes, ← heq, List.take_length]

/-! ## The last character -/

lemma fnvStep_lt (h : ℕ) (b : UInt8) : fnvStep h b < 2 ^ 64 := Nat.mod_lt _ (by decide)

lemma fnv1a_concat (bytes : List UInt8) (b : UInt8) :
    fnv1a (bytes ++ [b]) = fnvStep (fnv1a bytes) b := by
  rw [fnv1a, List.foldl_append, List.foldl_cons, List.foldl_nil, fnv1a]

lemma fnv1a_lt (bytes : List UInt8) : fnv1a bytes < 2 ^ 64 := by
  obtain rfl | ⟨bytes, b, rfl⟩ := bytes.eq_nil_or_concat
  · decide
  · rw [List.concat_eq_append, fnv1a_concat]
    exact fnvStep_lt _ b

/-- The prime is odd, so a step loses nothing. -/
lemma fnvStep_inj {h : ℕ} (hlt : h < 2 ^ 64) {a b : UInt8} (heq : fnvStep h a = fnvStep h b) :
    a = b := by
  have hcoprime : Nat.Coprime (2 ^ 64) 1099511628211 := by decide
  have hmod : h ^^^ a.toNat ≡ h ^^^ b.toNat [MOD 2 ^ 64] :=
    Nat.ModEq.cancel_right_of_coprime hcoprime heq
  have hbyte (c : UInt8) : h ^^^ c.toNat < 2 ^ 64 :=
    Nat.xor_lt_two_pow hlt (c.toNat_lt.trans (by decide))
  have hxor := Nat.ModEq.eq_of_lt_of_lt hmod (hbyte a) (hbyte b)
  exact UInt8.toNat_inj.1 (Nat.xor_right_injective hxor)

lemma utf8Bytes_append (s t : Text) : utf8Bytes (s ++ t) = utf8Bytes s ++ utf8Bytes t :=
  List.flatMap_append

/-- After a character that is not ASCII, the last one is not hashed. -/
lemma hashedBytes_concat {str : Text} (h : ¬ IsAscii str) (c : Char) :
    hashedBytes (str ++ [c]) = (utf8Bytes str).take (str.length + 1) := by
  rw [← length_utf8Bytes_iff] at h
  have hle := length_le_length_utf8Bytes str
  rw [hashedBytes, utf8Bytes_append, List.length_append, List.length_singleton,
    List.take_append_of_le_length (by omega)]

lemma fnv1a64_inj_iff {s t : Text} :
    hashToHex (fnv1a64 s) = hashToHex (fnv1a64 t) ↔ fnv1a (hashedBytes s) = fnv1a (hashedBytes t) := by
  rw [hashToHex_injective.eq_iff, ← UInt64.toNat_inj, fnv1a64_eq, fnv1a64_eq]

/-- The last character makes no difference to the address exactly after one that is not ASCII. -/
lemma last_ignored_iff (str : Text) :
    (∀ c d, hashToHex (fnv1a64 (str ++ [c])) = hashToHex (fnv1a64 (str ++ [d]))) ↔
      ¬ IsAscii str := by
  constructor
  · intro hsame hascii
    have hlast (c : Char) (hc : c.toNat < 128) :
        hashedBytes (str ++ [c]) = utf8Bytes str ++ utf8Bytes [c] := by
      rw [← utf8Bytes_append, hashedBytes_eq_iff]
      intro x hx
      rcases List.mem_append.1 hx with hx | hx
      · exact hascii x hx
      · rwa [List.mem_singleton.1 hx]
    have heq := fnv1a64_inj_iff.1 (hsame 'a' 'b')
    have ha : utf8Bytes ['a'] = [97] := by decide
    have hb : utf8Bytes ['b'] = [98] := by decide
    rw [hlast 'a' (by decide), hlast 'b' (by decide), ha, hb, fnv1a_concat, fnv1a_concat] at heq
    exact absurd (fnvStep_inj (fnv1a_lt _) heq) (by decide)
  · intro hascii c d
    rw [fnv1a64_inj_iff, hashedBytes_concat hascii, hashedBytes_concat hascii]

/-- The hash of a string is that of as many of its bytes as it has characters. These are all its
bytes exactly if it is ASCII, and then the hash is that of its content. Rendering a hash is
injective, and the last character is ignored exactly after one that is not ASCII. -/
theorem content_hash (str : Text) :
    (fnv1a64 str).toNat = fnv1a (hashedBytes str) ∧
    (hashedBytes str = utf8Bytes str ↔ IsAscii str) ∧
    (IsAscii str → (fnv1a64 str).toNat = fnv1a (utf8Bytes str)) ∧
    Function.Injective hashToHex ∧
    ((∀ c d, hashToHex (fnv1a64 (str ++ [c])) = hashToHex (fnv1a64 (str ++ [d]))) ↔
      ¬ IsAscii str) := by
  refine ⟨fnv1a64_eq str, hashedBytes_eq_iff str, fun hascii => ?_, hashToHex_injective,
    last_ignored_iff str⟩
  rw [fnv1a64_eq, (hashedBytes_eq_iff str).2 hascii]

/-- The hash of a letter with an accent is that of its first byte. -/
theorem accent_loses_byte : ¬ ∀ str : Text, (fnv1a64 str).toNat = fnv1a (utf8Bytes str) := by
  intro hall
  exact absurd (hall ['é']) (by decide)

end ContentHash
