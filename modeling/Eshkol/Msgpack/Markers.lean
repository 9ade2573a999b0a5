import Eshkol.Msgpack.Wire

/-!
# The wire form of one object

The bytes of integers, counts and payloads, and what the decoder does at each marker.
-/

namespace Msgpack

open Cursor Scheme

variable {S : Type} [Utf8String S]

/-! ## Bytes -/

/-- Two bytes, most significant first. -/
def u16Wire (n : ℕ) : List UInt8 := [UInt8.ofNat (n / 256), UInt8.ofNat (n % 256)]

/-- Four bytes, most significant first. -/
def u32Wire (n : ℕ) : List UInt8 :=
  [UInt8.ofNat (n / 16777216), UInt8.ofNat (n % 16777216 / 65536),
    UInt8.ofNat (n % 16777216 % 65536 / 256), UInt8.ofNat (n % 16777216 % 65536 % 256)]

lemma toNat_ofNat {n : ℕ} (hn : n < 256) : (UInt8.ofNat n).toNat = n := by
  rw [UInt8.toNat_ofNat', Nat.mod_eq_of_lt hn]

@[simp]
lemma bytes_nil : bytevectorToBytes [] = [] := rfl

@[simp]
lemma bytes_append (u v : List UInt8) :
    bytevectorToBytes (u ++ v) = bytevectorToBytes u ++ bytevectorToBytes v :=
  List.map_append

@[simp]
lemma length_bytes (w : List UInt8) : (bytevectorToBytes w).length = w.length :=
  List.length_map _

lemma bytes_cons {n : ℕ} (hn : n < 256) (w : List UInt8) :
    bytevectorToBytes (UInt8.ofNat n :: w) = (n : ℤ) :: bytevectorToBytes w := by
  rw [bytevectorToBytes, List.map_cons, toNat_ofNat hn]
  rfl

lemma bytes_u16Wire {n : ℕ} (hn : n < 65536) : bytevectorToBytes (u16Wire n) = u16Bytes n := by
  rw [u16Wire, bytes_cons (by omega), bytes_cons (by omega), bytes_nil]
  rfl

lemma bytes_u32Wire {n : ℕ} (hn : n < 4294967296) :
    bytevectorToBytes (u32Wire n) = u32Bytes n := by
  rw [u32Wire, bytes_cons (by omega), bytes_cons (by omega), bytes_cons (by omega),
    bytes_cons (by omega), bytes_nil]
  rfl

lemma exists_natCast {n : ℤ} (h : 0 ≤ n) : ∃ k : ℕ, n = k ∧ n.toNat = k :=
  ⟨n.toNat, by omega, rfl⟩

/-- The bytes that were written can be put in a bytevector. -/
lemma bytesToBytevector_bytes (w : List UInt8) :
    bytesToBytevector (bytevectorToBytes w) = .ok w := by
  unfold bytesToBytevector bytevectorToBytes
  induction w with
  | nil => rfl
  | cons b w ih =>
    have hb : requireByte (b.toNat : ℤ) = .ok b := by
      have := b.toNat_lt
      rw [requireByte, if_pos (by omega), Int.toNat_natCast, UInt8.ofNat_toNat]
    rw [List.map_cons, List.mapM_cons, hb, ih]
    rfl

/-! ## Reading bytes -/

variable {bv w : List UInt8} {pos : ℕ}

lemma requireAvailable_of_le {n : ℕ} (h : pos + n ≤ bv.length) :
    requireAvailable bv pos n = .ok ⟨h⟩ := dif_pos h

lemma u8Ref_lt (bv : List UInt8) (pos : ℕ) (h : pos < bv.length) : u8Ref bv pos h < 256 :=
  UInt8.toNat_lt _

lemma u8Ref_of_occursAt {n : ℕ} (hn : n < 256) (h : OccursAt bv pos (UInt8.ofNat n :: w)) :
    ∃ hpos : pos < bv.length, u8Ref bv pos hpos = n := by
  obtain ⟨hpos, hget⟩ := List.getElem?_eq_some_iff.1 (occursAt_cons.1 h).1
  refine ⟨hpos, ?_⟩
  rw [u8Ref, List.get_eq_getElem, hget, toNat_ofNat hn]

lemma readU16_of_occursAt {n : ℕ} (hn : n < 65536) (h : OccursAt bv pos (u16Wire n)) :
    ∃ h₂ : pos + 2 ≤ bv.length, readU16 bv pos = .ok (n, ⟨h₂⟩) := by
  obtain ⟨h₀, hb₀⟩ := u8Ref_of_occursAt (by omega) h
  obtain ⟨h₁, hb₁⟩ := u8Ref_of_occursAt (by omega) (occursAt_cons.1 h).2
  have h₂ : pos + 2 ≤ bv.length := h₁
  refine ⟨h₂, ?_⟩
  rw [readU16, requireAvailable_of_le h₂]
  simp only [ok_bind, hb₀, hb₁, pure_eq_ok, Except.ok.injEq, Prod.mk.injEq, and_true]
  omega

lemma readU32_of_occursAt {n : ℕ} (hn : n < 4294967296) (h : OccursAt bv pos (u32Wire n)) :
    ∃ h₄ : pos + 4 ≤ bv.length, readU32 bv pos = .ok (n, ⟨h₄⟩) := by
  rw [u32Wire] at h
  obtain ⟨h₀, hb₀⟩ := u8Ref_of_occursAt (by omega) h
  have h := (occursAt_cons.1 h).2
  obtain ⟨h₁, hb₁⟩ := u8Ref_of_occursAt (by omega) h
  have h := (occursAt_cons.1 h).2
  obtain ⟨h₂, hb₂⟩ := u8Ref_of_occursAt (by omega) h
  obtain ⟨h₃, hb₃⟩ := u8Ref_of_occursAt (by omega) (occursAt_cons.1 h).2
  have h₄ : pos + 4 ≤ bv.length := h₃
  refine ⟨h₄, ?_⟩
  rw [readU32, requireAvailable_of_le h₄]
  simp only [ok_bind, hb₀, hb₁, hb₂, hb₃, pure_eq_ok, Except.ok.injEq, Prod.mk.injEq, and_true]
  omega

lemma readU16_lt {n : ℕ} {h₂ : Available bv pos 2}
    (h : readU16 bv pos = .ok (n, h₂)) : n < 65536 := by
  rw [readU16] at h
  obtain ⟨⟨h'⟩, -, h⟩ := bind_eq_ok.1 h
  simp only [pure_eq_ok, Except.ok.injEq, Prod.mk.injEq] at h
  have hb₀ := u8Ref_lt bv pos (by omega)
  have hb₁ := u8Ref_lt bv (pos + 1) (by omega)
  omega

lemma readU32_lt {n : ℕ} {h₄ : Available bv pos 4}
    (h : readU32 bv pos = .ok (n, h₄)) : n < 4294967296 := by
  rw [readU32] at h
  obtain ⟨⟨h'⟩, -, h⟩ := bind_eq_ok.1 h
  simp only [pure_eq_ok, Except.ok.injEq, Prod.mk.injEq] at h
  have hb₀ := u8Ref_lt bv pos (by omega)
  have hb₁ := u8Ref_lt bv (pos + 1) (by omega)
  have hb₂ := u8Ref_lt bv (pos + 2) (by omega)
  have hb₃ := u8Ref_lt bv (pos + 3) (by omega)
  omega

/-! ## Integers -/

/-- The wire form of an integer. -/
def intWire (n : ℤ) : List UInt8 :=
  if 0 ≤ n ∧ n ≤ 127 then [UInt8.ofNat n.toNat]
  else if 0 ≤ n ∧ n ≤ 255 then [UInt8.ofNat 204, UInt8.ofNat n.toNat]
  else if 0 ≤ n ∧ n ≤ 65535 then UInt8.ofNat 205 :: u16Wire n.toNat
  else if 0 ≤ n ∧ n ≤ 4294967295 then UInt8.ofNat 206 :: u32Wire n.toNat
  else if -32 ≤ n ∧ n < 0 then [UInt8.ofNat (256 + n).toNat]
  else if -128 ≤ n ∧ n < -32 then [UInt8.ofNat 208, UInt8.ofNat (256 + n).toNat]
  else if -32768 ≤ n ∧ n < -128 then UInt8.ofNat 209 :: u16Wire (65536 + n).toNat
  else UInt8.ofNat 210 :: u32Wire (4294967296 + n).toNat

lemma encodeInt_eq {n : ℤ} (hlow : -2147483648 ≤ n) (hhigh : n < 4294967296) :
    encodeInt n = .ok (bytevectorToBytes (intWire n)) := by
  unfold encodeInt intWire
  split_ifs
  · obtain ⟨k, rfl, hk⟩ := exists_natCast (n := n) (by omega)
    rw [hk, bytes_cons (by omega), bytes_nil]
  · obtain ⟨k, rfl, hk⟩ := exists_natCast (n := n) (by omega)
    rw [hk, bytes_cons (by omega), bytes_cons (by omega), bytes_nil]
    rfl
  · obtain ⟨k, rfl, hk⟩ := exists_natCast (n := n) (by omega)
    rw [hk, bytes_cons (by omega), bytes_u16Wire (by omega)]
    rfl
  · obtain ⟨k, rfl, hk⟩ := exists_natCast (n := n) (by omega)
    rw [hk, bytes_cons (by omega), bytes_u32Wire (by omega)]
    rfl
  · obtain ⟨k, hcast, hk⟩ := exists_natCast (n := 256 + n) (by omega)
    rw [hk, bytes_cons (by omega), bytes_nil, hcast]
  · obtain ⟨k, hcast, hk⟩ := exists_natCast (n := 256 + n) (by omega)
    rw [hk, bytes_cons (by omega), bytes_cons (by omega), bytes_nil, hcast]
    rfl
  · obtain ⟨k, hcast, hk⟩ := exists_natCast (n := 65536 + n) (by omega)
    rw [hk, bytes_cons (by omega), bytes_u16Wire (by omega), hcast]
    rfl
  · obtain ⟨k, hcast, hk⟩ := exists_natCast (n := 4294967296 + n) (by omega)
    rw [hk, bytes_cons (by omega), bytes_u32Wire (by omega), hcast]
    rfl
  · omega

/-- The smaller an integer, the shorter its wire form. -/
lemma length_intWire_le (n : ℤ) :
    (intWire n).length ≤ 5 ∧ (-32768 ≤ n → n ≤ 65535 → (intWire n).length ≤ 3) ∧
      (-128 ≤ n → n ≤ 255 → (intWire n).length ≤ 2) ∧
      (-32 ≤ n → n ≤ 127 → (intWire n).length ≤ 1) := by
  unfold intWire
  split_ifs <;> simp only [u16Wire, u32Wire, List.length_cons, List.length_nil] <;> omega

/-- An integer is read back. -/
lemma decodeAt_of_intWire {n : ℤ} (hlow : -2147483648 ≤ n) (hhigh : n < 4294967296)
    (h : OccursAt bv pos (intWire n)) :
    ∃ q, decodeAt (S := S) bv pos = .ok (.integer n, q) ∧ q.1 = pos + (intWire n).length := by
  unfold intWire at h ⊢
  split_ifs at h ⊢ <;> obtain ⟨hpos, htag⟩ := u8Ref_of_occursAt (by omega) h
  · refine ⟨⟨pos + 1, by omega⟩, ?_, rfl⟩
    rw [decodeAt, requireAvailable_of_le hpos, ok_bind]
    dsimp only
    rw [htag, if_pos (by omega), Int.toNat_of_nonneg (by omega)]
    rfl
  · obtain ⟨hpos₁, hb⟩ := u8Ref_of_occursAt (by omega) (occursAt_cons.1 h).2
    refine ⟨⟨pos + 2, by omega⟩, ?_, rfl⟩
    rw [decodeAt, requireAvailable_of_le hpos, ok_bind]
    simp [htag]
    rw [requireAvailable_of_le hpos₁]
    simp [hb]
    omega
  · obtain ⟨h₂, hread⟩ := readU16_of_occursAt (by omega) (occursAt_cons.1 h).2
    refine ⟨⟨pos + 3, by omega⟩, ?_, rfl⟩
    rw [decodeAt, requireAvailable_of_le hpos, ok_bind]
    simp [htag, hread]
    omega
  · obtain ⟨h₄, hread⟩ := readU32_of_occursAt (by omega) (occursAt_cons.1 h).2
    refine ⟨⟨pos + 5, by omega⟩, ?_, rfl⟩
    rw [decodeAt, requireAvailable_of_le hpos, ok_bind]
    simp [htag, hread]
    omega
  · refine ⟨⟨pos + 1, by omega⟩, ?_, rfl⟩
    rw [decodeAt, requireAvailable_of_le hpos, ok_bind]
    dsimp only
    rw [htag]
    iterate 19 rw [if_neg (by omega)]
    rw [if_pos (by omega), Int.toNat_of_nonneg (by omega),
      show (256 + n - 256 : ℤ) = n by omega]
    rfl
  · obtain ⟨hpos₁, hb⟩ := u8Ref_of_occursAt (by omega) (occursAt_cons.1 h).2
    refine ⟨⟨pos + 2, by omega⟩, ?_, rfl⟩
    rw [decodeAt, requireAvailable_of_le hpos, ok_bind]
    simp [htag]
    rw [requireAvailable_of_le hpos₁]
    simp [hb]
    omega
  · obtain ⟨h₂, hread⟩ := readU16_of_occursAt (by omega) (occursAt_cons.1 h).2
    refine ⟨⟨pos + 3, by omega⟩, ?_, rfl⟩
    rw [decodeAt, requireAvailable_of_le hpos, ok_bind]
    simp [htag, hread]
    omega
  · obtain ⟨h₄, hread⟩ := readU32_of_occursAt (by omega) (occursAt_cons.1 h).2
    refine ⟨⟨pos + 5, by omega⟩, ?_, rfl⟩
    rw [decodeAt, requireAvailable_of_le hpos, ok_bind]
    simp [htag, hread]
    omega

/-! ## Payloads -/

/-- The header of a string of `len` bytes. -/
def stringHeader (len : ℕ) : List UInt8 :=
  if len ≤ 31 then [UInt8.ofNat (160 + len)]
  else if len ≤ 255 then [UInt8.ofNat 217, UInt8.ofNat len]
  else UInt8.ofNat 218 :: u16Wire len

/-- The header of a bytevector of `len` bytes. -/
def binHeader (len : ℕ) : List UInt8 :=
  if len ≤ 255 then [UInt8.ofNat 196, UInt8.ofNat len]
  else UInt8.ofNat 197 :: u16Wire len

lemma encodeString_eq {s : S} (hs : (toUtf8 s).length ≤ 65535) :
    encodeString s =
      .ok (bytevectorToBytes (stringHeader (toUtf8 s).length ++ toUtf8 s)) := by
  unfold encodeString stringHeader
  simp only [length_bytes, bytes_append]
  split_ifs
  · rw [bytes_cons (by omega), bytes_nil]
    simp
  · rw [bytes_cons (by omega), bytes_cons (by omega), bytes_nil]
    rfl
  · rw [bytes_cons (by omega), bytes_u16Wire (by omega)]
    rfl

lemma encodeBinBytes_eq {b : List UInt8} (hb : b.length ≤ 65535) :
    encodeBinBytes (bytevectorToBytes b) =
      .ok (bytevectorToBytes (binHeader b.length ++ b)) := by
  unfold encodeBinBytes binHeader
  simp only [length_bytes, bytes_append]
  split_ifs
  · rw [bytes_cons (by omega), bytes_cons (by omega), bytes_nil]
    rfl
  · rw [bytes_cons (by omega), bytes_u16Wire (by omega)]
    rfl

lemma bytevectorCopy_of_occursAt {b : List UInt8} (h : OccursAt bv pos b) :
    bytevectorCopy bv pos (pos + b.length) = b := by
  rw [bytevectorCopy, Nat.add_sub_cancel_left]
  exact h.take_eq

lemma decodeString_of_occursAt {b : List UInt8} (pos : ℕ) (hpos : pos ≤ bv.length)
    (h : OccursAt bv pos b) :
    ∃ q, decodeString (S := S) bv pos b.length = .ok (.string (ofUtf8 b), q) ∧
      q.1 = pos + b.length := by
  refine ⟨⟨pos + b.length, by omega, ?_⟩, ?_, rfl⟩
  · have := h.end_le hpos
    omega
  · rw [decodeString, requireAvailable_of_le (h.end_le hpos), ok_bind]
    simp only [bytevectorCopy_of_occursAt h, pure_eq_ok]

omit [Utf8String S] in
lemma decodeBin_of_occursAt {b : List UInt8} (pos : ℕ) (hpos : pos ≤ bv.length)
    (h : OccursAt bv pos b) :
    ∃ q, decodeBin (S := S) bv pos b.length = .ok (.bytevector b, q) ∧
      q.1 = pos + b.length := by
  refine ⟨⟨pos + b.length, by omega, ?_⟩, ?_, rfl⟩
  · have := h.end_le hpos
    omega
  · rw [decodeBin, requireAvailable_of_le (h.end_le hpos), ok_bind]
    simp only [bytevectorCopy_of_occursAt h, pure_eq_ok]

/-- A string is read back. -/
lemma decodeAt_of_stringHeader {b : List UInt8} (hb : b.length ≤ 65535)
    (h : OccursAt bv pos (stringHeader b.length ++ b)) :
    ∃ q, decodeAt (S := S) bv pos = .ok (.string (ofUtf8 b), q) ∧
      q.1 = pos + (stringHeader b.length ++ b).length := by
  obtain ⟨hheader, hpayload⟩ := occursAt_append.1 h
  unfold stringHeader at hheader hpayload ⊢
  split_ifs at hheader hpayload ⊢ <;> obtain ⟨hpos, htag⟩ := u8Ref_of_occursAt (by omega) hheader
  · obtain ⟨q, hq, hval⟩ := decodeString_of_occursAt (S := S) (pos + 1) (by omega) hpayload
    refine ⟨q.beyond (by omega) (by omega), ?_, by simp [hval]; omega⟩
    rw [decodeAt, requireAvailable_of_le hpos, ok_bind]
    dsimp only
    rw [htag]
    iterate 3 rw [if_neg (by omega)]
    rw [if_pos (by omega), Nat.add_sub_cancel_left, hq]
    rfl
  · obtain ⟨hpos₁, hlen⟩ := u8Ref_of_occursAt (by omega) (occursAt_cons.1 hheader).2
    obtain ⟨q, hq, hval⟩ := decodeString_of_occursAt (S := S) (pos + 2) (by omega) hpayload
    refine ⟨q.beyond (by omega) (by omega), ?_, by simp [hval]; omega⟩
    rw [decodeAt, requireAvailable_of_le hpos, ok_bind]
    simp [htag]
    rw [requireAvailable_of_le hpos₁]
    simp [hlen, hq]
  · obtain ⟨h₂, hread⟩ := readU16_of_occursAt (by omega) (occursAt_cons.1 hheader).2
    obtain ⟨q, hq, hval⟩ := decodeString_of_occursAt (S := S) (pos + 3) (by omega) hpayload
    refine ⟨q.beyond (by omega) (by omega), ?_, by simp [u16Wire, hval]; omega⟩
    rw [decodeAt, requireAvailable_of_le hpos, ok_bind]
    simp [htag, hread, hq]

lemma decodeAt_of_binHeader {b : List UInt8} (hb : b.length ≤ 65535)
    (h : OccursAt bv pos (binHeader b.length ++ b)) :
    ∃ q, decodeAt (S := S) bv pos = .ok (.bytevector b, q) ∧
      q.1 = pos + (binHeader b.length ++ b).length := by
  obtain ⟨hheader, hpayload⟩ := occursAt_append.1 h
  unfold binHeader at hheader hpayload ⊢
  split_ifs at hheader hpayload ⊢ <;> obtain ⟨hpos, htag⟩ := u8Ref_of_occursAt (by omega) hheader
  · obtain ⟨hpos₁, hlen⟩ := u8Ref_of_occursAt (by omega) (occursAt_cons.1 hheader).2
    obtain ⟨q, hq, hval⟩ := decodeBin_of_occursAt (S := S) (pos + 2) (by omega) hpayload
    refine ⟨q.beyond (by omega) (by omega), ?_, by simp [hval]; omega⟩
    rw [decodeAt, requireAvailable_of_le hpos, ok_bind]
    simp [htag]
    rw [requireAvailable_of_le hpos₁]
    simp [hlen, hq]
  · obtain ⟨h₂, hread⟩ := readU16_of_occursAt (by omega) (occursAt_cons.1 hheader).2
    obtain ⟨q, hq, hval⟩ := decodeBin_of_occursAt (S := S) (pos + 3) (by omega) hpayload
    refine ⟨q.beyond (by omega) (by omega), ?_, by simp [u16Wire, hval]; omega⟩
    rw [decodeAt, requireAvailable_of_le hpos, ok_bind]
    simp [htag, hread, hq]

/-! ## Counts -/

/-- The header of a list (`fix` 144 and `wide` 220) or a map (128 and 222). -/
def countHeader (fix wide len : ℕ) : List UInt8 :=
  if len ≤ 15 then [UInt8.ofNat (fix + len)] else UInt8.ofNat wide :: u16Wire len

lemma encodeCount_eq (fix wide : ℕ) (message : String) {len : ℕ} (hfix : fix ≤ 240)
    (hwide : wide ≤ 255) (hlen : len ≤ 65535) :
    encodeCount fix wide message len = .ok (bytevectorToBytes (countHeader fix wide len)) := by
  unfold encodeCount countHeader
  split_ifs
  · rw [bytes_cons (by omega), bytes_nil]
    simp
  · rw [bytes_cons (by omega), bytes_u16Wire (by omega)]

lemma decodeAt_of_listHeader {len : ℕ} (hlen : len ≤ 65535)
    (h : OccursAt bv pos (countHeader 144 220 len)) {v : Value S} {p : ℕ}
    (hp : p = pos + (countHeader 144 220 len).length) {q : Onward p bv.length}
    (hq : decodeArrayElements bv p len [] = .ok (v, q)) :
    ∃ r, decodeAt bv pos = .ok (v, r) ∧ r.1 = q.1 := by
  unfold countHeader at h hp
  split_ifs at h hp
  · obtain ⟨hpos, htag⟩ := u8Ref_of_occursAt (by omega) h
    obtain rfl : p = pos + 1 := hp
    refine ⟨q.beyond (by omega) (by omega), ?_, rfl⟩
    rw [decodeAt, requireAvailable_of_le hpos, ok_bind]
    dsimp only
    rw [htag]
    iterate 2 rw [if_neg (by omega)]
    rw [if_pos (by omega), Nat.add_sub_cancel_left, hq]
    rfl
  · obtain ⟨hpos, htag⟩ := u8Ref_of_occursAt (by omega) h
    obtain ⟨h₂, hread⟩ := readU16_of_occursAt (by omega) (occursAt_cons.1 h).2
    obtain rfl : p = pos + 1 + 2 := hp
    refine ⟨q.beyond (by omega) (by omega), ?_, rfl⟩
    rw [decodeAt, requireAvailable_of_le hpos, ok_bind]
    simp [htag, hread, hq]

lemma decodeAt_of_mapHeader {len : ℕ} (hlen : len ≤ 65535)
    (h : OccursAt bv pos (countHeader 128 222 len)) {v : Value S} {p : ℕ}
    (hp : p = pos + (countHeader 128 222 len).length) {q : Onward p bv.length}
    (hq : decodeMapEntries bv p len [] = .ok (v, q)) :
    ∃ r, decodeAt bv pos = .ok (v, r) ∧ r.1 = q.1 := by
  unfold countHeader at h hp
  split_ifs at h hp
  · obtain ⟨hpos, htag⟩ := u8Ref_of_occursAt (by omega) h
    obtain rfl : p = pos + 1 := hp
    refine ⟨q.beyond (by omega) (by omega), ?_, rfl⟩
    rw [decodeAt, requireAvailable_of_le hpos, ok_bind]
    dsimp only
    rw [htag, if_neg (by omega), if_pos (by omega), Nat.add_sub_cancel_left, hq]
    rfl
  · obtain ⟨hpos, htag⟩ := u8Ref_of_occursAt (by omega) h
    obtain ⟨h₂, hread⟩ := readU16_of_occursAt (by omega) (occursAt_cons.1 h).2
    obtain rfl : p = pos + 1 + 2 := hp
    refine ⟨q.beyond (by omega) (by omega), ?_, rfl⟩
    rw [decodeAt, requireAvailable_of_le hpos, ok_bind]
    simp [htag, hread, hq]

/-! ## What the decoder accepts -/

/-- The results of the decoder at a position: which object, and how many bytes at least it took.
The elements of lists and maps are left to their own loops. -/
inductive DecodesTo (bv : List UInt8) (pos : ℕ) : Value S → ℕ → Prop where
  | null : DecodesTo bv pos null (pos + 1)
  | boolean (b : Bool) : DecodesTo bv pos (.boolean b) (pos + 1)
  | integer {n : ℤ} {k : ℕ} : -2147483648 ≤ n → n < 4294967296 → (intWire n).length ≤ k →
    DecodesTo bv pos (.integer n) (pos + k)
  | string {b : List UInt8} {k : ℕ} : b.length ≤ 65535 → (stringHeader b.length).length ≤ k →
    DecodesTo bv pos (.string (ofUtf8 b)) (pos + k + b.length)
  | bytevector {b : List UInt8} {k : ℕ} : b.length ≤ 65535 → (binHeader b.length).length ≤ k →
    DecodesTo bv pos (.bytevector b) (pos + k + b.length)
  | list {count k : ℕ} {v : Value S} {q : Onward (pos + k) bv.length} : count ≤ 65535 →
    (countHeader 144 220 count).length ≤ k → 1 ≤ k → pos + k ≤ bv.length →
    decodeArrayElements bv (pos + k) count [] = .ok (v, q) → DecodesTo bv pos v q.1
  | map {count k : ℕ} {v : Value S} {q : Onward (pos + k) bv.length} : count ≤ 65535 →
    (countHeader 128 222 count).length ≤ k → 1 ≤ k → pos + k ≤ bv.length →
    decodeMapEntries bv (pos + k) count [] = .ok (v, q) → DecodesTo bv pos v q.1

lemma length_stringHeader_le (len : ℕ) : (stringHeader len).length ≤ 3 ∧
    (len ≤ 255 → (stringHeader len).length ≤ 2) ∧ (len ≤ 31 → (stringHeader len).length ≤ 1) := by
  unfold stringHeader
  split_ifs <;> simp only [u16Wire, List.length_cons, List.length_nil] <;> omega

lemma length_stringHeader_mono {m n : ℕ} (h : m ≤ n) :
    (stringHeader m).length ≤ (stringHeader n).length := by
  unfold stringHeader
  split_ifs <;> simp only [u16Wire, List.length_cons, List.length_nil] <;> omega

lemma length_binHeader_le (len : ℕ) : (binHeader len).length ≤ 3 ∧
    (len ≤ 255 → (binHeader len).length ≤ 2) := by
  unfold binHeader
  split_ifs <;> simp only [u16Wire, List.length_cons, List.length_nil] <;> omega

lemma length_countHeader_le (fix wide len : ℕ) : (countHeader fix wide len).length ≤ 3 ∧
    (len ≤ 15 → (countHeader fix wide len).length ≤ 1) := by
  unfold countHeader
  split_ifs <;> simp only [u16Wire, List.length_cons, List.length_nil] <;> omega

lemma decodeString_eq_ok {len : ℕ} {v : Value S} {q : Onward pos bv.length}
    (h : decodeString bv pos len = .ok (v, q)) :
    ∃ b, b.length = len ∧ v = .string (ofUtf8 b) ∧ q.1 = pos + len := by
  rw [decodeString] at h
  obtain ⟨⟨hlen⟩, -, h⟩ := bind_eq_ok.1 h
  simp only [pure_eq_ok, Except.ok.injEq, Prod.mk.injEq] at h
  obtain ⟨rfl, rfl⟩ := h
  exact ⟨_, by simp [bytevectorCopy]; omega, rfl, rfl⟩

omit [Utf8String S] in
lemma decodeBin_eq_ok {len : ℕ} {v : Value S} {q : Onward pos bv.length}
    (h : decodeBin bv pos len = .ok (v, q)) :
    ∃ b, b.length = len ∧ v = .bytevector b ∧ q.1 = pos + len := by
  rw [decodeBin] at h
  obtain ⟨⟨hlen⟩, -, h⟩ := bind_eq_ok.1 h
  simp only [pure_eq_ok, Except.ok.injEq, Prod.mk.injEq] at h
  obtain ⟨rfl, rfl⟩ := h
  exact ⟨_, by simp [bytevectorCopy]; omega, rfl, rfl⟩

/-- An integer of one, two, three or five bytes. -/
lemma DecodesTo.integer' {n : ℤ} {q : ℕ} (k : ℕ) (hq : q = pos + k)
    (h : k = 1 ∧ -32 ≤ n ∧ n ≤ 127 ∨ k = 2 ∧ -128 ≤ n ∧ n ≤ 255 ∨
      k = 3 ∧ -32768 ≤ n ∧ n ≤ 65535 ∨ k = 5 ∧ -2147483648 ≤ n ∧ n < 4294967296) :
    DecodesTo (S := S) bv pos (.integer n) q := by
  subst hq
  obtain ⟨h₅, h₃, h₂, h₁⟩ := length_intWire_le n
  exact .integer (by omega) (by omega) (by omega)

lemma DecodesTo.string' {v : Value S} {len k : ℕ} {p : ℕ} (hp : p = pos + k)
    {q : Onward p bv.length} (h : decodeString bv p len = .ok (v, q))
    (hk : k = 1 ∧ len ≤ 31 ∨ k = 2 ∧ len ≤ 255 ∨ k = 3 ∧ len ≤ 65535) :
    DecodesTo bv pos v q.1 := by
  subst hp
  obtain ⟨b, rfl, rfl, hq⟩ := decodeString_eq_ok h
  obtain ⟨h₃, h₂, h₁⟩ := length_stringHeader_le b.length
  rw [hq]
  exact .string (by omega) (by omega)

lemma DecodesTo.bytevector' {v : Value S} {len k : ℕ} {p : ℕ} (hp : p = pos + k)
    {q : Onward p bv.length} (h : decodeBin bv p len = .ok (v, q))
    (hk : k = 2 ∧ len ≤ 255 ∨ k = 3 ∧ len ≤ 65535) : DecodesTo bv pos v q.1 := by
  subst hp
  obtain ⟨b, rfl, rfl, hq⟩ := decodeBin_eq_ok h
  obtain ⟨h₃, h₂⟩ := length_binHeader_le b.length
  rw [hq]
  exact .bytevector (by omega) (by omega)

/-- Everything the decoder returns is one of the listed results. -/
lemma decodesTo_of_decodeAt {v : Value S} {q : Beyond pos bv.length}
    (h : decodeAt bv pos = .ok (v, q)) : DecodesTo bv pos v q.1 := by
  rw [decodeAt] at h
  obtain ⟨⟨hpos⟩, -, h⟩ := bind_eq_ok.1 h
  have hbyte := u8Ref_lt bv pos (by omega)
  dsimp only at h
  generalize u8Ref bv pos _ = tag at h hbyte
  have hatom : ∀ {w : Value S} {p : Beyond pos bv.length},
      (pure (w, p) : Except SchemeError (Value S × Beyond pos bv.length)) = .ok (v, q) →
        DecodesTo bv pos w p.1 → DecodesTo bv pos v q.1 := by
    intro w p hw hp
    obtain ⟨rfl, rfl⟩ := Prod.mk.inj (Except.ok.inj hw)
    exact hp
  by_cases h1 : tag ≤ 127
  · rw [if_pos h1] at h
    exact hatom h (.integer' 1 rfl (by omega))
  rw [if_neg h1] at h
  by_cases h2 : 128 ≤ tag ∧ tag ≤ 143
  · rw [if_pos h2] at h
    obtain ⟨⟨w, r⟩, hr, hw⟩ := bind_eq_ok.1 h
    have hlen := length_countHeader_le 128 222 (tag - 128)
    exact hatom hw (.map (by omega) (by omega) (Nat.le_refl 1) hpos hr)
  rw [if_neg h2] at h
  by_cases h3 : 144 ≤ tag ∧ tag ≤ 159
  · rw [if_pos h3] at h
    obtain ⟨⟨w, r⟩, hr, hw⟩ := bind_eq_ok.1 h
    have hlen := length_countHeader_le 144 220 (tag - 144)
    exact hatom hw (.list (by omega) (by omega) (Nat.le_refl 1) hpos hr)
  rw [if_neg h3] at h
  by_cases h4 : 160 ≤ tag ∧ tag ≤ 191
  · rw [if_pos h4] at h
    obtain ⟨⟨w, r⟩, hr, hw⟩ := bind_eq_ok.1 h
    exact hatom hw (.string' (k := 1) rfl hr (by omega))
  rw [if_neg h4] at h
  by_cases h5 : tag = 192
  · rw [if_pos h5] at h
    exact hatom h .null
  rw [if_neg h5] at h
  by_cases h6 : tag = 194
  · rw [if_pos h6] at h
    exact hatom h (.boolean false)
  rw [if_neg h6] at h
  by_cases h7 : tag = 195
  · rw [if_pos h7] at h
    exact hatom h (.boolean true)
  rw [if_neg h7] at h
  by_cases h8 : tag = 196
  · rw [if_pos h8] at h
    obtain ⟨⟨hpos₁⟩, -, h⟩ := bind_eq_ok.1 h
    have hlen := u8Ref_lt bv (pos + 1) (by omega)
    obtain ⟨⟨w, r⟩, hr, hw⟩ := bind_eq_ok.1 h
    exact hatom hw (.bytevector' (k := 2) rfl hr (by omega))
  rw [if_neg h8] at h
  by_cases h9 : tag = 197
  · rw [if_pos h9] at h
    obtain ⟨⟨n, hpos₁⟩, hn, h⟩ := bind_eq_ok.1 h
    have hlen := readU16_lt hn
    obtain ⟨⟨w, r⟩, hr, hw⟩ := bind_eq_ok.1 h
    exact hatom hw (.bytevector' (k := 3) rfl hr (by omega))
  rw [if_neg h9] at h
  by_cases h10 : tag = 204
  · rw [if_pos h10] at h
    obtain ⟨⟨hpos₁⟩, -, h⟩ := bind_eq_ok.1 h
    have hlen := u8Ref_lt bv (pos + 1) (by omega)
    exact hatom h (.integer' 2 rfl (by omega))
  rw [if_neg h10] at h
  by_cases h11 : tag = 205
  · rw [if_pos h11] at h
    obtain ⟨⟨n, hpos₁⟩, hn, h⟩ := bind_eq_ok.1 h
    have hlen := readU16_lt hn
    exact hatom h (.integer' 3 rfl (by omega))
  rw [if_neg h11] at h
  by_cases h12 : tag = 206
  · rw [if_pos h12] at h
    obtain ⟨⟨n, hpos₁⟩, hn, h⟩ := bind_eq_ok.1 h
    have hlen := readU32_lt hn
    exact hatom h (.integer' 5 rfl (by omega))
  rw [if_neg h12] at h
  by_cases h13 : tag = 208
  · rw [if_pos h13] at h
    obtain ⟨⟨hpos₁⟩, -, h⟩ := bind_eq_ok.1 h
    have hlen := u8Ref_lt bv (pos + 1) (by omega)
    exact hatom h (.integer' 2 rfl (by split <;> omega))
  rw [if_neg h13] at h
  by_cases h14 : tag = 209
  · rw [if_pos h14] at h
    obtain ⟨⟨n, hpos₁⟩, hn, h⟩ := bind_eq_ok.1 h
    have hlen := readU16_lt hn
    exact hatom h (.integer' 3 rfl (by split <;> omega))
  rw [if_neg h14] at h
  by_cases h15 : tag = 210
  · rw [if_pos h15] at h
    obtain ⟨⟨n, hpos₁⟩, hn, h⟩ := bind_eq_ok.1 h
    have hlen := readU32_lt hn
    exact hatom h (.integer' 5 rfl (by split <;> omega))
  rw [if_neg h15] at h
  by_cases h16 : tag = 217
  · rw [if_pos h16] at h
    obtain ⟨⟨hpos₁⟩, -, h⟩ := bind_eq_ok.1 h
    have hlen := u8Ref_lt bv (pos + 1) (by omega)
    obtain ⟨⟨w, r⟩, hr, hw⟩ := bind_eq_ok.1 h
    exact hatom hw (.string' (k := 2) rfl hr (by omega))
  rw [if_neg h16] at h
  by_cases h17 : tag = 218
  · rw [if_pos h17] at h
    obtain ⟨⟨n, hpos₁⟩, hn, h⟩ := bind_eq_ok.1 h
    have hlen := readU16_lt hn
    obtain ⟨⟨w, r⟩, hr, hw⟩ := bind_eq_ok.1 h
    exact hatom hw (.string' (k := 3) rfl hr (by omega))
  rw [if_neg h17] at h
  by_cases h18 : tag = 220
  · rw [if_pos h18] at h
    obtain ⟨⟨n, ⟨hpos₁⟩⟩, hn, h⟩ := bind_eq_ok.1 h
    have hlen := readU16_lt hn
    obtain ⟨⟨w, r⟩, hr, hw⟩ := bind_eq_ok.1 h
    have hheader := length_countHeader_le 144 220 n
    exact hatom hw (.list (k := 3) (Nat.le_of_lt_succ hlen) hheader.1 (by omega) hpos₁ hr)
  rw [if_neg h18] at h
  by_cases h19 : tag = 222
  · rw [if_pos h19] at h
    obtain ⟨⟨n, ⟨hpos₁⟩⟩, hn, h⟩ := bind_eq_ok.1 h
    have hlen := readU16_lt hn
    obtain ⟨⟨w, r⟩, hr, hw⟩ := bind_eq_ok.1 h
    have hheader := length_countHeader_le 128 222 n
    exact hatom hw (.map (k := 3) (Nat.le_of_lt_succ hlen) hheader.1 (by omega) hpos₁ hr)
  rw [if_neg h19] at h
  by_cases h20 : 224 ≤ tag
  · rw [if_pos h20] at h
    exact hatom h (.integer' 1 rfl (by omega))
  · rw [if_neg h20] at h
    exact absurd h (raise_ne_ok _ _ _)

end Msgpack
