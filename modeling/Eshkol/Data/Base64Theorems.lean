import Eshkol.Base.BitString
import Eshkol.Data.Url

/-!
# Base64 and its texts

The text of a list of bytes is the one that cutting its bits into groups of six gives, and it is read
back. A string comes back exactly when each of its characters is of one byte.
-/

namespace Base64

open Scheme BitString

/-! ## The text of a list of bytes -/

/-- The text of RFC 4648: the bits of the bytes in groups of six, the last one filled up with zeros,
and as many `=` as the length lacks to a multiple of four. -/
def rfcText (bytes : List ℕ) : Text :=
  let text := (sextets (bytes.flatMap (BitString.ofNat 8))).map charOf
  text ++ List.replicate ((4 - text.length % 4) % 4) '='

/-- The values of the characters, byte by byte. -/
@[grind =]
def values : List ℕ → List ℕ
  | [] => []
  | [b1] => [b1 / 4, b1 % 4 * 16]
  | [b1, b2] => [b1 / 4, b1 % 4 * 16 + b2 / 16, b2 % 16 * 4]
  | b1 :: b2 :: b3 :: rest =>
    b1 / 4 :: (b1 % 4 * 16 + b2 / 16) :: (b2 % 16 * 4 + b3 / 64) :: b3 % 64 :: values rest

/-- Induction in steps of three. -/
lemma induction_by_threes {motive : List ℕ → Prop} (nil : motive []) (one : ∀ b1, motive [b1])
    (two : ∀ b1 b2, motive [b1, b2])
    (three : ∀ b1 b2 b3 rest, motive rest → motive (b1 :: b2 :: b3 :: rest)) :
    ∀ bytes, motive bytes
  | [] => nil
  | [b1] => one b1
  | [b1, b2] => two b1 b2
  | b1 :: b2 :: b3 :: rest => three b1 b2 b3 rest (induction_by_threes nil one two three rest)

/-- The high and the low bits of a byte. -/
lemma byte_bits (b : ℕ) : BitString.ofNat 8 b = BitString.ofNat 6 (b / 4) ++ BitString.ofNat 2 b ∧
    BitString.ofNat 8 b = BitString.ofNat 4 (b / 16) ++ BitString.ofNat 4 b ∧
    BitString.ofNat 8 b = BitString.ofNat 2 (b / 64) ++ BitString.ofNat 6 b :=
  ⟨ofNat_add 6 2 b, ofNat_add 4 4 b, ofNat_add 2 6 b⟩

lemma sextets_values {bytes : List ℕ} (h : ∀ b ∈ bytes, b < 256) :
    sextets (bytes.flatMap (BitString.ofNat 8)) = values bytes := by
  have hhigh {b : ℕ} (hb : b < 256) : value (BitString.ofNat 6 (b / 4)) = b / 4 := by
    rw [value_ofNat]
    omega
  have hsecond (b1 : ℕ) {b2 : ℕ} (hb : b2 < 256) :
      value (BitString.ofNat 2 b1 ++ BitString.ofNat 4 (b2 / 16)) = b1 % 4 * 16 + b2 / 16 := by
    rw [value_append, value_ofNat, value_ofNat, length_ofNat]
    omega
  have hthird (b2 : ℕ) {b3 : ℕ} (hb : b3 < 256) :
      value (BitString.ofNat 4 b2 ++ BitString.ofNat 2 (b3 / 64)) = b2 % 16 * 4 + b3 / 64 := by
    rw [value_append, value_ofNat, value_ofNat, length_ofNat]
    omega
  have hlength (high low m n : ℕ) :
      (BitString.ofNat high m ++ BitString.ofNat low n).length = high + low := by
    rw [List.length_append, length_ofNat, length_ofNat]
  induction bytes using induction_by_threes with
  | nil => rfl
  | one b1 =>
    have h1 := h b1 (by simp)
    rw [List.flatMap_singleton, (byte_bits b1).1, sextets_append (length_ofNat 6 _), hhigh h1,
      sextets_last (by simp [BitString.ofNat]) (by rw [length_ofNat]; decide), value_ofNat,
      length_ofNat]
    rfl
  | two b1 b2 =>
    have h1 := h b1 (by simp)
    have h2 := h b2 (by simp)
    rw [List.flatMap_cons, List.flatMap_singleton, (byte_bits b1).1, (byte_bits b2).2.1,
      List.append_assoc, sextets_append (length_ofNat 6 _), hhigh h1, ← List.append_assoc,
      sextets_append (hlength 2 4 _ _), hsecond b1 h2,
      sextets_last (by simp [BitString.ofNat]) (by rw [length_ofNat]; decide), value_ofNat,
      length_ofNat]
    rfl
  | three b1 b2 b3 rest ih =>
    have h1 := h b1 (by simp)
    have h2 := h b2 (by simp)
    have h3 := h b3 (by simp)
    have hrest := ih fun b hb => h b (by simp [hb])
    rw [List.flatMap_cons, List.flatMap_cons, List.flatMap_cons, (byte_bits b1).1,
      (byte_bits b2).2.1, (byte_bits b3).2.2, List.append_assoc, sextets_append (length_ofNat 6 _),
      hhigh h1, List.append_assoc, ← List.append_assoc (BitString.ofNat 2 b1),
      sextets_append (hlength 2 4 _ _), hsecond b1 h2, List.append_assoc,
      ← List.append_assoc (BitString.ofNat 4 b2), sextets_append (hlength 4 2 _ _), hthird b2 h3,
      sextets_append (length_ofNat 6 _), value_ofNat, hrest]
    rfl

lemma values_lt {bytes : List ℕ} (h : ∀ b ∈ bytes, b < 256) : ∀ v ∈ values bytes, v < 64 := by
  induction bytes using induction_by_threes with
  | nil => simp [values]
  | one b1 =>
    have h1 := h b1 (by simp)
    simp only [values, List.forall_mem_cons]
    exact ⟨by omega, by omega, by simp⟩
  | two b1 b2 =>
    have h1 := h b1 (by simp)
    have h2 := h b2 (by simp)
    simp only [values, List.forall_mem_cons]
    exact ⟨by omega, by omega, by omega, by simp⟩
  | three b1 b2 b3 rest ih =>
    have h1 := h b1 (by simp)
    have h2 := h b2 (by simp)
    have h3 := h b3 (by simp)
    simp only [values, List.forall_mem_cons]
    exact ⟨by omega, by omega, by omega, by omega, ih fun b hb => h b (by simp [hb])⟩

lemma length_values (bytes : List ℕ) : (values bytes).length = (4 * bytes.length + 2) / 3 := by
  induction bytes using induction_by_threes with
  | nil => rfl
  | one b1 => simp [values]
  | two b1 b2 => simp [values]
  | three b1 b2 b3 rest ih =>
    simp only [values, List.length_cons, ih]
    omega

/-- The padding of a text of so many characters. -/
@[grind =]
def padding (bytes : List ℕ) : Text := List.replicate ((4 - (values bytes).length % 4) % 4) '='

lemma rfcText_eq {bytes : List ℕ} (h : ∀ b ∈ bytes, b < 256) :
    rfcText bytes = (values bytes).map charOf ++ padding bytes := by
  rw [rfcText, sextets_values h, padding]
  simp

lemma length_rfcText {bytes : List ℕ} (h : ∀ b ∈ bytes, b < 256) :
    (rfcText bytes).length = 4 * ((bytes.length + 2) / 3) := by
  rw [rfcText_eq h, padding, List.length_append, List.length_map, List.length_replicate,
    length_values]
  omega

/-- A text is made exactly when all values are below 64. -/
lemma base64EncodeHelper_eq_ok {bytes : List ℕ} {result text : Text} :
    base64EncodeHelper bytes result = .ok text ↔ (∀ v ∈ values bytes, v < 64) ∧
      text = result ++ ((values bytes).map charOf ++ padding bytes) := by
  induction bytes using induction_by_threes generalizing result with
  | nil => simp [base64EncodeHelper, values, padding, eq_comm]
  | one b1 =>
    simp only [base64EncodeHelper, bind_eq_ok, base64CharAt_eq_ok, values, List.forall_mem_cons]
    simp [padding, values, and_assoc, eq_comm]
  | two b1 b2 =>
    simp only [base64EncodeHelper, bind_eq_ok, base64CharAt_eq_ok, values, List.forall_mem_cons]
    simp [padding, values, and_assoc, eq_comm]
  | three b1 b2 b3 rest ih =>
    have hpadding : padding (b1 :: b2 :: b3 :: rest) = padding rest := by
      simp only [padding, values, List.length_cons]
      congr 1
      omega
    simp only [base64EncodeHelper, bind_eq_ok, base64CharAt_eq_ok, ih, values, List.forall_mem_cons,
      hpadding]
    simp [and_assoc]

lemma base64Encode_eq {bytes : List ℕ} (h : ∀ b ∈ bytes, b < 256) :
    base64Encode bytes = .ok (rfcText bytes) :=
  base64EncodeHelper_eq_ok.2 ⟨values_lt h, by rw [rfcText_eq h, List.nil_append]⟩

/-! ## Reading -/

lemma base64DecodeHelper_eq {bytes : List ℕ} (h : ∀ b ∈ bytes, b < 256)
    (result : List ℕ) :
    base64DecodeHelper ((values bytes).map charOf) result = .ok (result.reverse ++ bytes) := by
  induction bytes using induction_by_threes generalizing result with
  | nil => simp [values, base64DecodeHelper]
  | one b1 =>
    have hlt := values_lt h
    simp only [values, List.forall_mem_cons] at hlt
    simp only [values, List.map_cons, List.map_nil, base64DecodeHelper, base64Value_charOf hlt.1,
      base64Value_charOf hlt.2.1, List.reverse_cons]
    congr 3
    omega
  | two b1 b2 =>
    have h2 := h b2 (by simp)
    have hlt := values_lt h
    simp only [values, List.forall_mem_cons] at hlt
    simp only [values, List.map_cons, List.map_nil, base64DecodeHelper, base64Value_charOf hlt.1,
      base64Value_charOf hlt.2.1, base64Value_charOf hlt.2.2.1, List.reverse_cons]
    have hb1 : b1 / 4 * 4 + (b1 % 4 * 16 + b2 / 16) / 16 = b1 := by omega
    have hb2 : (b1 % 4 * 16 + b2 / 16) % 16 * 16 + b2 % 16 * 4 / 4 = b2 := by omega
    rw [hb1, hb2, List.append_assoc]
    rfl
  | three b1 b2 b3 rest ih =>
    have h2 := h b2 (by simp)
    have h3 := h b3 (by simp)
    have hlt := values_lt h
    simp only [values, List.forall_mem_cons] at hlt
    simp only [values, List.map_cons, base64DecodeHelper, base64Value_charOf hlt.1,
      base64Value_charOf hlt.2.1, base64Value_charOf hlt.2.2.1, base64Value_charOf hlt.2.2.2.1]
    have hb1 : b1 / 4 * 4 + (b1 % 4 * 16 + b2 / 16) / 16 = b1 := by omega
    have hb2 : (b1 % 4 * 16 + b2 / 16) % 16 * 16 + (b2 % 16 * 4 + b3 / 64) / 4 = b2 := by omega
    have hb3 : (b2 % 16 * 4 + b3 / 64) % 4 * 64 + b3 % 64 = b3 := by omega
    rw [hb1, hb2, hb3, ih fun b hb => h b (by simp [hb])]
    simp

lemma base64RemovePadding_append {text : Text} (h : '=' ∉ text) (hone : ∀ c ∈ text, isWide c = false)
    (n : ℕ) : base64RemovePadding (text ++ List.replicate n '=') = text := by
  induction n with
  | zero =>
    rw [List.replicate_zero, List.append_nil, base64RemovePadding]
    split_ifs with hnil hlast
    · rfl
    · rw [seen_eq_self hone] at hlast
      exact absurd (List.mem_of_getLast? hlast) h
    · rfl
  | succ n ih =>
    have hpadded : ∀ c ∈ text ++ List.replicate n '=' ++ ['='], isWide c = false := by
      intro c hc
      simp only [List.mem_append, List.mem_replicate, List.mem_singleton] at hc
      obtain (hc | ⟨-, rfl⟩) | rfl := hc
      · exact hone c hc
      · rfl
      · rfl
    rw [List.replicate_succ', ← List.append_assoc, base64RemovePadding, if_neg (by simp),
      seen_eq_self hpadded, if_pos (by simp), List.dropLast_concat, ih]

lemma charOf_mem {v : ℕ} (h : v < 64) : charOf v ∈ alphabet := by
  have hlen := length_alphabet
  rw [charOf, List.getD_eq_getElem?_getD, List.getElem?_eq_getElem (by omega), Option.getD_some]
  exact List.getElem_mem _

lemma mem_alphabet_of_mem {bytes : List ℕ} (h : ∀ b ∈ bytes, b < 256) {c : Char}
    (hc : c ∈ (values bytes).map charOf) : c ∈ alphabet := by
  obtain ⟨v, hv, rfl⟩ := List.mem_map.1 hc
  exact charOf_mem (values_lt h v hv)

lemma equals_notMem_alphabet : '=' ∉ alphabet := by
  rw [alphabet_eq]
  decide

lemma isWide_of_mem_charOf {vs : List ℕ} (h : ∀ v ∈ vs, v < 64) :
    ∀ c ∈ vs.map charOf, isWide c = false := by
  intro c hc
  obtain ⟨v, hv, rfl⟩ := List.mem_map.1 hc
  exact isWide_of_mem_alphabet _ (charOf_mem (h v hv))

/-- What is read of a text and its padding. -/
lemma base64Decode_charOf {vs : List ℕ} (h : ∀ v ∈ vs, v < 64) (n : ℕ) :
    base64Decode (vs.map charOf ++ List.replicate n '=') = base64DecodeHelper (vs.map charOf) [] := by
  have hnot : '=' ∉ vs.map charOf := fun hmem => by
    obtain ⟨v, hv, heq⟩ := List.mem_map.1 hmem
    exact equals_notMem_alphabet (heq ▸ charOf_mem (h v hv))
  rw [base64Decode, base64RemovePadding_append hnot (isWide_of_mem_charOf h),
    seen_eq_self (isWide_of_mem_charOf h)]

lemma base64Decode_padded {bytes : List ℕ} (h : ∀ b ∈ bytes, b < 256) (n : ℕ) :
    base64Decode ((values bytes).map charOf ++ List.replicate n '=') = .ok bytes := by
  rw [base64Decode_charOf (values_lt h), base64DecodeHelper_eq h]
  rfl

/-- Four characters give three bytes, whatever they are. -/
lemma length_of_base64DecodeHelper {text : Text} {result bytes : List ℕ}
    (h : base64DecodeHelper text result = .ok bytes) :
    bytes.length = result.length + text.length * 3 / 4 := by
  fun_induction base64DecodeHelper text result with
  | case1 result =>
    cases h
    simp
  | case2 => cases h
  | case3 ch1 ch2 result =>
    cases h
    simp
  | case4 ch1 ch2 ch3 result =>
    cases h
    simp
  | case5 ch1 ch2 ch3 ch4 rest result v1 v2 v3 v4 b1 b2 b3 ih =>
    rw [ih h]
    simp only [List.length_cons]
    omega

/-- As many bytes come back as characters were written. -/
lemma length_of_base64DecodeString {s text : Text} {bytes : List ℕ}
    (hencode : base64EncodeString s = .ok text) (hdecode : base64DecodeString text = .ok bytes) :
    bytes.length = s.length := by
  obtain ⟨hvalues, rfl⟩ := base64EncodeHelper_eq_ok.1 hencode
  obtain ⟨decoded, hdecoded, hbytes⟩ := bind_eq_ok.1 hdecode
  rw [List.nil_append, padding, base64Decode_charOf hvalues] at hdecoded
  have hlength := length_of_base64DecodeHelper hdecoded
  obtain rfl := Except.ok.inj hbytes
  rw [bytesToString_eq, List.length_map, hlength, List.length_map, length_values, stringToBytes_eq,
    List.length_map, length_seen, List.length_nil]
  omega

/-- A string of one-byte characters is written from its bytes, and the bytes are a string again. -/
lemma stringToBytes_spec {s : Text} (h : ∀ c ∈ s, isWide c = false) :
    (∀ b ∈ stringToBytes s, b < 256) ∧ bytesToString (stringToBytes s) = utf8 s := by
  have hbytes : ∀ b ∈ stringToBytes s, b < 128 := by
    rw [stringToBytes_eq, seen_eq_self h]
    simpa [isWide] using h
  refine ⟨fun b hb => (hbytes b hb).trans (by omega), ?_⟩
  rw [utf8_eq_map h, bytesToString_eq]
  conv_rhs => rw [← seen_eq_self h, ← stringToBytes_eq, ← List.map_id (stringToBytes s)]
  exact List.map_congr_left fun b hb => Nat.mod_eq_of_lt ((hbytes b hb).trans (by omega))

/-! ## Texts for URLs -/

open Url

/-- What `b64url-replace-encode` makes of a character. -/
def toUrl (c : Char) : Char := if c = '+' then '-' else if c = '/' then '_' else c

/-- What `b64url-replace-decode` makes of a character. -/
def fromUrl (c : Char) : Char := if c = '-' then '+' else if c = '_' then '/' else c

/-- Replacing one character by another puts no zero byte into a text. -/
lemma replaced_notMem {text : Text} (h : '\x00' ∉ text) {d e : Char} (he : '\x00' ≠ e := by decide) :
    '\x00' ∉ text.flatMap fun c => if c = d then [e] else [c] := by
  intro hmem
  obtain ⟨c, hc, hmem⟩ := List.mem_flatMap.1 hmem
  split at hmem
  · exact he (List.mem_singleton.1 hmem)
  · exact h (List.mem_singleton.1 hmem ▸ hc)

lemma b64urlReplaceEncode_eq {text : Text} (h : '\x00' ∉ text) :
    b64urlReplaceEncode text = text.map toUrl := by
  rw [b64urlReplaceEncode, stringReplace_char _ (by decide), stringReplace_char _ (by decide),
    cString_eq_self h, cString_eq_self (replaced_notMem h), List.flatMap_assoc, List.map_eq_flatMap]
  congr 1
  funext c
  rw [toUrl]
  split_ifs with hplus hslash
  · simp
  · simp [hslash]
  · simp [hslash]

lemma b64urlReplaceDecode_eq {text : Text} (h : '\x00' ∉ text) :
    b64urlReplaceDecode text = text.map fromUrl := by
  rw [b64urlReplaceDecode, stringReplace_char _ (by decide), stringReplace_char _ (by decide),
    cString_eq_self h, cString_eq_self (replaced_notMem h), List.flatMap_assoc, List.map_eq_flatMap]
  congr 1
  funext c
  rw [fromUrl]
  split_ifs with hminus hunderscore
  · simp
  · simp [hunderscore]
  · simp [hunderscore]

lemma fromUrl_toUrl {c : Char} (h : c ∈ alphabet) : fromUrl (toUrl c) = c := by
  have hall : alphabet.all (fun c => fromUrl (toUrl c) == c) = true := by
    rw [alphabet_eq]
    decide
  exact beq_iff_eq.1 (List.all_eq_true.1 hall c h)

lemma toUrl_special {c : Char} (h : c ∈ alphabet) :
    toUrl c ≠ '+' ∧ toUrl c ≠ '/' ∧ toUrl c ≠ '=' := by
  have hall : alphabet.all (fun c => toUrl c ≠ '+' ∧ toUrl c ≠ '/' ∧ toUrl c ≠ '=') = true := by
    rw [alphabet_eq]
    decide
  exact of_decide_eq_true (List.all_eq_true.1 hall c h)

lemma b64urlRestorePadding_eq (text : Text) :
    ∃ n, b64urlRestorePadding text = text ++ List.replicate n '=' := by
  simp only [b64urlRestorePadding]
  split_ifs
  · exact ⟨0, by simp⟩
  · exact ⟨2, rfl⟩
  · exact ⟨1, rfl⟩
  · exact ⟨0, by simp⟩

/-- The text of a string for URLs. -/
def urlText (s : Text) : Text := ((values (stringToBytes s)).map charOf).map toUrl

lemma special_notMem_urlText {s : Text} (h : ∀ b ∈ stringToBytes s, b < 256) :
    '+' ∉ urlText s ∧ '/' ∉ urlText s ∧ '=' ∉ urlText s := by
  have hspecial {c : Char} (hc : c ∈ urlText s) : c ≠ '+' ∧ c ≠ '/' ∧ c ≠ '=' := by
    obtain ⟨d, hd, rfl⟩ := List.mem_map.1 hc
    exact toUrl_special (mem_alphabet_of_mem h hd)
  exact ⟨fun hc => (hspecial hc).1 rfl, fun hc => (hspecial hc).2.1 rfl,
    fun hc => (hspecial hc).2.2 rfl⟩

lemma nul_notMem_values {bytes : List ℕ} (h : ∀ b ∈ bytes, b < 256) (n : ℕ) :
    '\x00' ∉ (values bytes).map charOf ++ List.replicate n '=' := by
  have hnul : '\x00' ∉ alphabet := by
    rw [alphabet_eq]
    decide
  intro hmem
  obtain hmem | hmem := List.mem_append.1 hmem
  · exact hnul (mem_alphabet_of_mem h hmem)
  · exact absurd (List.eq_of_mem_replicate hmem) (by decide)

lemma isWide_of_mem_urlText {s : Text} (h : ∀ b ∈ stringToBytes s, b < 256) :
    ∀ c ∈ urlText s, isWide c = false := by
  have hall : alphabet.all (fun c => !isWide (toUrl c)) = true := by
    rw [alphabet_eq]
    decide
  intro c hc
  obtain ⟨d, hd, rfl⟩ := List.mem_map.1 hc
  simpa using List.all_eq_true.1 hall d (mem_alphabet_of_mem h hd)

lemma base64urlEncode_eq {s : Text} (h : ∀ b ∈ stringToBytes s, b < 256) :
    base64urlEncode s = .ok (urlText s) := by
  have hequals : toUrl '=' = '=' := by decide
  rw [base64urlEncode, base64EncodeString, base64Encode_eq h, ok_bind, rfcText_eq h, padding,
    b64urlReplaceEncode_eq (nul_notMem_values h _), List.map_append, List.map_replicate, hequals]
  exact congrArg Except.ok
    (base64RemovePadding_append (special_notMem_urlText h).2.2 (isWide_of_mem_urlText h) _)

lemma base64urlDecode_urlText {s : Text} (h : ∀ b ∈ stringToBytes s, b < 256) :
    base64urlDecode (urlText s) = .ok (bytesToString (stringToBytes s)) := by
  have htext : (urlText s).map fromUrl = (values (stringToBytes s)).map charOf := by
    rw [urlText, List.map_map]
    conv_rhs => rw [← List.map_id ((values (stringToBytes s)).map charOf)]
    exact List.map_congr_left fun c hc => fromUrl_toUrl (mem_alphabet_of_mem h hc)
  have hnul : '\x00' ∉ urlText s := by
    have hall : alphabet.all (fun c => toUrl c ≠ '\x00') = true := by
      rw [alphabet_eq]
      decide
    intro hmem
    obtain ⟨d, hd, heq⟩ := List.mem_map.1 hmem
    exact of_decide_eq_true (List.all_eq_true.1 hall d (mem_alphabet_of_mem h hd)) heq
  obtain ⟨n, hn⟩ := b64urlRestorePadding_eq ((values (stringToBytes s)).map charOf)
  rw [base64urlDecode, b64urlReplaceDecode_eq hnul, htext, hn, base64DecodeString,
    base64Decode_padded h, ok_bind]
  rfl

/-- What comes back is the codes of the characters, as bytes. -/
lemma base64DecodeString_encoded {s : Text} (h : ∀ b ∈ stringToBytes s, b < 256) :
    (base64EncodeString s >>= base64DecodeString) = .ok (bytesToString (stringToBytes s)) := by
  rw [base64EncodeString, base64Encode_eq h, ok_bind, base64DecodeString, rfcText_eq h, padding,
    base64Decode_padded h, ok_bind]
  rfl

/-- A string comes back from its texts, byte by byte, and the one for URLs has no `+`, `/` and `=`. -/
def StringReturns (s : Text) : Prop :=
  (base64EncodeString s >>= base64DecodeString) = .ok (utf8 s) ∧
    ∃ text, base64urlEncode s = .ok text ∧ base64urlDecode text = .ok (utf8 s) ∧
      '+' ∉ text ∧ '/' ∉ text ∧ '=' ∉ text

/-- Strings come back exactly when they are ASCII. -/
lemma stringReturns_iff (s : Text) : StringReturns s ↔ ∀ c ∈ s, c.toNat < 128 := by
  have hone : (∀ c ∈ s, c.toNat < 128) ↔ ∀ c ∈ s, isWide c = false := by simp [isWide]
  rw [hone]
  constructor
  · rintro ⟨h, -⟩
    obtain ⟨text, hencode, hdecode⟩ := bind_eq_ok.1 h
    exact length_utf8_eq_iff.2.1 (length_of_base64DecodeString hencode hdecode)
  · intro h
    obtain ⟨hbytes, hstring⟩ := stringToBytes_spec h
    have hurl := base64urlDecode_urlText hbytes
    rw [hstring] at hurl
    exact ⟨by rw [base64DecodeString_encoded hbytes, hstring], urlText s, base64urlEncode_eq hbytes, hurl,
      special_notMem_urlText hbytes⟩

/-- Bytes are written as RFC 4648 has it and read back, and strings come back exactly when their
characters are of one byte. -/
theorem base64_codec (bytes : List UInt8) (s : Text) :
    (base64Encode (bytes.map UInt8.toNat) = .ok (rfcText (bytes.map UInt8.toNat)) ∧
      (rfcText (bytes.map UInt8.toNat)).length = 4 * ((bytes.length + 2) / 3) ∧
      base64Decode (rfcText (bytes.map UInt8.toNat)) = .ok (bytes.map UInt8.toNat)) ∧
    (StringReturns s ↔ ∀ c ∈ s, c.toNat < 128) := by
  have hbytes : ∀ b ∈ bytes.map UInt8.toNat, b < 256 := by
    intro b hb
    obtain ⟨u, -, rfl⟩ := List.mem_map.1 hb
    exact u.toNat_lt
  refine ⟨⟨base64Encode_eq hbytes, ?_, ?_⟩, stringReturns_iff s⟩
  · rw [length_rfcText hbytes, List.length_map]
  · rw [rfcText_eq hbytes, padding]
    exact base64Decode_padded hbytes _

/-- The character U+0100 is no byte: its code is cut to an index beyond the alphabet. U+00E9 is
written as the byte of its code, and comes back as that byte alone. -/
theorem wide_character_fails :
    base64EncodeString [Char.ofNat 256] = raise "string-ref: index out of bounds" [] ∧
      ¬ StringReturns [Char.ofNat 256] ∧
      (base64EncodeString ['é'] >>= base64DecodeString) = .ok [0xE9] ∧ utf8 ['é'] = [0xC3, 0xA9] := by
  refine ⟨by decide, ?_, base64DecodeString_encoded (by decide), by decide⟩
  rw [stringReturns_iff]
  exact fun h => absurd (h _ List.mem_cons_self) (by decide)

end Base64
