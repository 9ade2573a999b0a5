import Eshkol.Msgpack.Markers

/-!
# Round trips

Decoding inverts encoding wherever the wire form stands, and what the decoder accepts is encoded
again in at most as many bytes.
-/

namespace Msgpack

open Cursor Scheme

variable {S : Type} [Utf8String S]

/-- An entry of a map, as `msgpack-map` expects it. -/
def entry (e : Value S × Value S) : Value S := .list [e.1, e.2]

/-- The values that the format carries. -/
inductive Encodable : Value S → Prop where
  | null : Encodable null
  | boolean (b : Bool) : Encodable (.boolean b)
  | integer {n : ℤ} : -2147483648 ≤ n → n < 4294967296 → Encodable (.integer n)
  | string {s : S} : (toUtf8 s).length ≤ 65535 → Encodable (.string s)
  | bytevector {b : List UInt8} : b.length ≤ 65535 → Encodable (.bytevector b)
  | list {elements : List (Value S)} : elements.length ≤ 65535 →
    (∀ v ∈ elements, Encodable v) → Encodable (.list elements)
  | map {entries : List (Value S × Value S)} : entries.length ≤ 65535 →
    (∀ e ∈ entries, Encodable e.1) → (∀ e ∈ entries, Encodable e.2) →
      Encodable (.map (entries.map entry))

/-- The bytes `w` are what a value is encoded as, and the decoder reads the value from them
wherever they stand. -/
structure WireForm (v : Value S) (w : List UInt8) : Prop where
  ne_nil : w ≠ []
  encodes : encodeValue v = .ok (bytevectorToBytes w)
  decodes : ∀ {bv : List UInt8} {pos : ℕ}, OccursAt bv pos w →
    ∃ q, decodeAt bv pos = .ok (v, q) ∧ q.1 = pos + w.length

/-! ## Lists of objects -/

/-- The elements of a list, encoded one after the other, are read one after the other. -/
lemma wireForm_elements {elements : List (Value S)} (h : ∀ v ∈ elements, ∃ w, WireForm v w) :
    ∃ w, encodeArrayElements elements = .ok (bytevectorToBytes w) ∧
      ∀ (bv : List UInt8) (pos : ℕ) (acc : List (Value S)), OccursAt bv pos w →
        ∃ q, decodeArrayElements bv pos elements.length acc =
          .ok (.list (acc.reverse ++ elements), q) ∧ q.1 = pos + w.length := by
  induction elements with
  | nil =>
    refine ⟨[], by rw [encodeArrayElements, bytes_nil], fun bv pos acc _ =>
      ⟨⟨pos, by omega⟩, ?_, rfl⟩⟩
    rw [decodeArrayElements, List.length_nil, if_pos rfl, List.append_nil]
    rfl
  | cons v elements ih =>
    obtain ⟨u, hu⟩ := h v List.mem_cons_self
    obtain ⟨w, hencode, hdecode⟩ := ih fun x hx => h x (List.mem_cons_of_mem v hx)
    refine ⟨u ++ w, ?_, fun bv pos acc hocc => ?_⟩
    · rw [encodeArrayElements, hu.encodes, ok_bind, hencode, ok_bind, bytes_append]
      rfl
    · obtain ⟨hfirst, hrest⟩ := occursAt_append.1 hocc
      obtain ⟨⟨p, hp⟩, hv, hpval⟩ := hu.decodes hfirst
      obtain rfl : p = pos + u.length := hpval
      obtain ⟨q, hq, hval⟩ := hdecode bv _ (v :: acc) hrest
      refine ⟨q.weaken (by omega) (by omega), ?_, ?_⟩
      · rw [decodeArrayElements, List.length_cons, if_neg (Nat.succ_ne_zero _), hv, ok_bind]
        simp only [Nat.add_sub_cancel, hq, ok_bind, List.reverse_cons, List.append_assoc,
          List.singleton_append]
        rfl
      · rw [Onward.weaken_val, hval, List.length_append, Nat.add_assoc]

/-- The entries of a map, likewise. -/
lemma wireForm_entries {entries : List (Value S × Value S)}
    (hkey : ∀ e ∈ entries, ∃ w, WireForm e.1 w) (hvalue : ∀ e ∈ entries, ∃ w, WireForm e.2 w) :
    ∃ w, encodeMapEntries (entries.map entry) = .ok (bytevectorToBytes w) ∧
      ∀ (bv : List UInt8) (pos : ℕ) (acc : List (Value S)), OccursAt bv pos w →
        ∃ q, decodeMapEntries bv pos entries.length acc =
          .ok (.map (acc.reverse ++ entries.map entry), q) ∧ q.1 = pos + w.length := by
  induction entries with
  | nil =>
    refine ⟨[], by rw [List.map_nil, encodeMapEntries, bytes_nil], fun bv pos acc _ =>
      ⟨⟨pos, by omega⟩, ?_, rfl⟩⟩
    rw [decodeMapEntries, List.length_nil, if_pos rfl, List.map_nil, List.append_nil]
    rfl
  | cons e entries ih =>
    obtain ⟨uk, huk⟩ := hkey e List.mem_cons_self
    obtain ⟨uv, huv⟩ := hvalue e List.mem_cons_self
    obtain ⟨w, hencode, hdecode⟩ := ih (fun x hx => hkey x (List.mem_cons_of_mem e hx))
      fun x hx => hvalue x (List.mem_cons_of_mem e hx)
    refine ⟨uk ++ uv ++ w, ?_, fun bv pos acc hocc => ?_⟩
    · rw [List.map_cons, encodeMapEntries, entry, encodeMapEntry, huk.encodes, ok_bind,
        huv.encodes, ok_bind, pure_eq_ok, ok_bind, hencode, ok_bind, bytes_append, bytes_append]
      rfl
    · obtain ⟨hboth, hrest⟩ := occursAt_append.1 hocc
      obtain ⟨hfirst, hsecond⟩ := occursAt_append.1 hboth
      obtain ⟨⟨p, hp⟩, hk, hpval⟩ := huk.decodes hfirst
      obtain rfl : p = pos + uk.length := hpval
      obtain ⟨⟨r, hr⟩, hv, hrval⟩ := huv.decodes hsecond
      rw [List.length_append, ← Nat.add_assoc] at hrest
      obtain rfl : r = pos + uk.length + uv.length := hrval
      obtain ⟨q, hq, hval⟩ := hdecode bv _ (entry e :: acc) hrest
      refine ⟨q.weaken (by omega) (by omega), ?_, ?_⟩
      · rw [decodeMapEntries, List.length_cons, if_neg (Nat.succ_ne_zero _), hk, ok_bind]
        simp only [hv, ok_bind]
        rw [entry] at hq
        simp only [Nat.add_sub_cancel, hq, ok_bind, List.reverse_cons, List.append_assoc,
          List.singleton_append, List.map_cons]
        rfl
      · rw [Onward.weaken_val, hval, List.length_append, List.length_append]
        omega

lemma countHeader_ne_nil (fix wide len : ℕ) : countHeader fix wide len ≠ [] := by
  unfold countHeader
  split_ifs <;> simp

lemma encodeValue_list {elements : List (Value S)} {w : List UInt8}
    (hlen : elements.length ≤ 65535)
    (hw : encodeArrayElements elements = .ok (bytevectorToBytes w)) :
    encodeValue (.list elements) =
      .ok (bytevectorToBytes (countHeader 144 220 elements.length ++ w)) := by
  have hheader : encodeCount 144 220 "msgpack-encode: array too large for current substrate"
      elements.length = .ok (bytevectorToBytes (countHeader 144 220 elements.length)) :=
    encodeCount_eq 144 220 _ (by omega) (by omega) hlen
  rw [encodeValue, encodeArray, hheader, ok_bind, hw, ok_bind, bytes_append]
  rfl

lemma encodeValue_map {entries : List (Value S)} {w : List UInt8}
    (hlen : entries.length ≤ 65535)
    (hw : encodeMapEntries entries = .ok (bytevectorToBytes w)) :
    encodeValue (.map entries) =
      .ok (bytevectorToBytes (countHeader 128 222 entries.length ++ w)) := by
  have hheader : encodeCount 128 222 "msgpack-encode: map too large for current substrate"
      entries.length = .ok (bytevectorToBytes (countHeader 128 222 entries.length)) :=
    encodeCount_eq 128 222 _ (by omega) (by omega) hlen
  rw [encodeValue, encodeMapValue, hheader, ok_bind, hw, ok_bind, bytes_append]
  rfl

/-- Every value that the format carries has a wire form. -/
lemma wireForm_of_encodable {v : Value S} (h : Encodable v) : ∃ w, WireForm v w := by
  induction h with
  | null =>
    refine ⟨[UInt8.ofNat 192], by simp, by rw [null, encodeValue, bytes_cons (by omega)]; rfl,
      fun {bv pos} hocc => ?_⟩
    obtain ⟨hpos, htag⟩ := u8Ref_of_occursAt (by omega) hocc
    refine ⟨⟨pos + 1, by omega⟩, ?_, rfl⟩
    rw [decodeAt, requireAvailable_of_le hpos]
    simp [htag]
  | boolean b =>
    refine ⟨[UInt8.ofNat (if b then 195 else 194)], by simp, ?_, fun {bv pos} hocc => ?_⟩
    · rw [encodeValue]
      cases b <;> rfl
    · obtain ⟨hpos, htag⟩ := u8Ref_of_occursAt (by split <;> omega) hocc
      refine ⟨⟨pos + 1, by omega⟩, ?_, rfl⟩
      rw [decodeAt, requireAvailable_of_le hpos]
      cases b <;> simp [htag]
  | @integer n hlow hhigh =>
    refine ⟨intWire n, ?_, by rw [encodeValue, encodeInt_eq hlow hhigh],
      fun hocc => decodeAt_of_intWire hlow hhigh hocc⟩
    unfold intWire
    split_ifs <;> simp
  | @string s hs =>
    refine ⟨stringHeader (toUtf8 s).length ++ toUtf8 s, ?_,
      by rw [encodeValue, encodeString_eq hs], fun hocc => ?_⟩
    · unfold stringHeader
      split_ifs <;> simp
    · have hdecode := decodeAt_of_stringHeader (S := S) hs hocc
      rwa [ofUtf8_toUtf8] at hdecode
  | @bytevector b hb =>
    refine ⟨binHeader b.length ++ b, ?_, by rw [encodeValue, encodeBinBytes_eq hb],
      fun hocc => decodeAt_of_binHeader hb hocc⟩
    unfold binHeader
    split_ifs <;> simp
  | @list elements hlen _ ih =>
    obtain ⟨w, hencode, hdecode⟩ := wireForm_elements ih
    refine ⟨countHeader 144 220 elements.length ++ w, by simp [countHeader_ne_nil],
      encodeValue_list hlen hencode, fun {bv pos} hocc => ?_⟩
    · obtain ⟨hheader, hbody⟩ := occursAt_append.1 hocc
      obtain ⟨q, hq, hval⟩ := hdecode bv _ [] hbody
      obtain ⟨r, hr, hrval⟩ := decodeAt_of_listHeader hlen hheader rfl hq
      exact ⟨r, hr, by rw [hrval, hval, List.length_append, Nat.add_assoc]⟩
  | @map entries hlen _ _ ihk ihv =>
    obtain ⟨w, hencode, hdecode⟩ := wireForm_entries ihk ihv
    have hmap := encodeValue_map (by rwa [List.length_map]) hencode
    rw [List.length_map] at hmap
    refine ⟨countHeader 128 222 entries.length ++ w, by simp [countHeader_ne_nil], hmap,
      fun {bv pos} hocc => ?_⟩
    · obtain ⟨hheader, hbody⟩ := occursAt_append.1 hocc
      obtain ⟨q, hq, hval⟩ := hdecode bv _ [] hbody
      obtain ⟨r, hr, hrval⟩ := decodeAt_of_mapHeader hlen hheader rfl hq
      exact ⟨r, hr, by rw [hrval, hval, List.length_append, Nat.add_assoc]⟩

/-! ## What was decoded -/

/-- What the decoder returns for the bytes from `pos` to `q` can be encoded, in no more bytes. -/
def Reencodes (v : Value S) (pos q : ℕ) : Prop :=
  Encodable v ∧ ∃ w, encodeValue v = .ok (bytevectorToBytes w) ∧ pos + w.length ≤ q

section Decoded

variable {bv : List UInt8}

lemma reencodes_elements {count pos : ℕ} {acc : List (Value S)} {v : Value S}
    {q : Onward pos bv.length}
    (hdecode : ∀ p, pos ≤ p → ∀ {x : Value S} {r : Beyond p bv.length},
      decodeAt bv p = .ok (x, r) → Reencodes x p r.1)
    (h : decodeArrayElements bv pos count acc = .ok (v, q)) :
    ∃ elements, v = .list (acc.reverse ++ elements) ∧ elements.length = count ∧
      (∀ x ∈ elements, Encodable x) ∧
        ∃ w, encodeArrayElements elements = .ok (bytevectorToBytes w) ∧ pos + w.length ≤ q.1 := by
  induction count generalizing pos acc v with
  | zero =>
    rw [decodeArrayElements, if_pos rfl] at h
    obtain ⟨rfl, rfl⟩ := Prod.mk.inj (Except.ok.inj h)
    exact ⟨[], by simp, rfl, by simp, [], by rw [encodeArrayElements, bytes_nil], Nat.le_refl _⟩
  | succ count ih =>
    rw [decodeArrayElements, if_neg (Nat.succ_ne_zero _)] at h
    obtain ⟨⟨x, p, hp⟩, hx, h⟩ := bind_eq_ok.1 h
    obtain ⟨⟨y, r⟩, hr, h⟩ := bind_eq_ok.1 h
    obtain ⟨hterm, u, hu, hlen⟩ := hdecode pos (Nat.le_refl pos) hx
    have hlater : ∀ p', p ≤ p' → ∀ {x : Value S} {r : Beyond p' bv.length},
        decodeAt bv p' = .ok (x, r) → Reencodes x p' r.1 := fun p' hp' => hdecode p' (by omega)
    obtain ⟨rest, rfl, hcount, hrest, w, hw, hwlen⟩ := ih hlater hr
    obtain ⟨rfl, rfl⟩ := Prod.mk.inj (Except.ok.inj h)
    refine ⟨x :: rest, by simp, by simp [hcount], ?_, u ++ w, ?_, ?_⟩
    · intro z hz
      rcases List.mem_cons.1 hz with rfl | hz
      · exact hterm
      · exact hrest z hz
    · rw [encodeArrayElements, hu, ok_bind, hw, ok_bind, bytes_append]
      rfl
    · rw [List.length_append, Onward.weaken_val]
      dsimp only at hlen hwlen
      omega

lemma reencodes_entries {count pos : ℕ} {acc : List (Value S)} {v : Value S}
    {q : Onward pos bv.length}
    (hdecode : ∀ p, pos ≤ p → ∀ {x : Value S} {r : Beyond p bv.length},
      decodeAt bv p = .ok (x, r) → Reencodes x p r.1)
    (h : decodeMapEntries bv pos count acc = .ok (v, q)) :
    ∃ entries : List (Value S × Value S), v = .map (acc.reverse ++ entries.map entry) ∧
      entries.length = count ∧ (∀ e ∈ entries, Encodable e.1) ∧ (∀ e ∈ entries, Encodable e.2) ∧
        ∃ w, encodeMapEntries (entries.map entry) = .ok (bytevectorToBytes w) ∧
          pos + w.length ≤ q.1 := by
  induction count generalizing pos acc v with
  | zero =>
    rw [decodeMapEntries, if_pos rfl] at h
    obtain ⟨rfl, rfl⟩ := Prod.mk.inj (Except.ok.inj h)
    exact ⟨[], by simp, rfl, by simp, by simp, [],
      by rw [List.map_nil, encodeMapEntries, bytes_nil], Nat.le_refl _⟩
  | succ count ih =>
    rw [decodeMapEntries, if_neg (Nat.succ_ne_zero _)] at h
    obtain ⟨⟨k, m, hm⟩, hk, h⟩ := bind_eq_ok.1 h
    obtain ⟨⟨x, p, hp⟩, hx, h⟩ := bind_eq_ok.1 h
    obtain ⟨⟨y, r⟩, hr, h⟩ := bind_eq_ok.1 h
    obtain ⟨hkterm, uk, huk, hklen⟩ := hdecode pos (Nat.le_refl pos) hk
    obtain ⟨hterm, u, hu, hlen⟩ := hdecode m (by omega) hx
    have hlater : ∀ p', p ≤ p' → ∀ {x : Value S} {r : Beyond p' bv.length},
        decodeAt bv p' = .ok (x, r) → Reencodes x p' r.1 := fun p' hp' => hdecode p' (by omega)
    obtain ⟨rest, rfl, hcount, hkeys, hvalues, w, hw, hwlen⟩ := ih hlater hr
    obtain ⟨rfl, rfl⟩ := Prod.mk.inj (Except.ok.inj h)
    refine ⟨(k, x) :: rest, by simp [entry], by simp [hcount], ?_, ?_, uk ++ u ++ w, ?_, ?_⟩
    · intro e he
      rcases List.mem_cons.1 he with rfl | he
      · exact hkterm
      · exact hkeys e he
    · intro e he
      rcases List.mem_cons.1 he with rfl | he
      · exact hterm
      · exact hvalues e he
    · rw [List.map_cons, encodeMapEntries, entry, encodeMapEntry, huk, ok_bind, hu, ok_bind,
        pure_eq_ok, ok_bind, hw, ok_bind, bytes_append, bytes_append]
      rfl
    · rw [List.length_append, List.length_append, Onward.weaken_val]
      dsimp only at hklen hlen hwlen
      omega

/-- Decoded values encode to no more bytes than were read. -/
lemma reencodes_of_decodeAt {pos : ℕ} {v : Value S} {q : Beyond pos bv.length}
    (h : decodeAt bv pos = .ok (v, q)) : Reencodes v pos q.1 := by
  induction hn : bv.length - pos using Nat.strong_induction_on generalizing pos v with
  | _ n ih =>
    have hpos : pos < bv.length := Nat.lt_of_lt_of_le q.2.1 q.2.2
    have hlater : ∀ k, 1 ≤ k → ∀ p, pos + k ≤ p → ∀ {x : Value S} {r : Beyond p bv.length},
        decodeAt bv p = .ok (x, r) → Reencodes x p r.1 :=
      fun k hk p hp _ _ hx => ih (bv.length - p) (by omega) hx rfl
    generalize hq : q.1 = e
    have hcase := decodesTo_of_decodeAt h
    rw [hq] at hcase
    cases hcase with
    | null =>
      exact ⟨.null, [UInt8.ofNat 192], by rw [null, encodeValue, bytes_cons (by omega)]; rfl,
        Nat.le_refl _⟩
    | boolean b =>
      refine ⟨.boolean b, [UInt8.ofNat (if b then 195 else 194)], ?_, Nat.le_refl _⟩
      rw [encodeValue]
      cases b <;> rfl
    | @integer n k hlow hhigh hlen =>
      exact ⟨.integer hlow hhigh, intWire n, by rw [encodeValue, encodeInt_eq hlow hhigh],
        by omega⟩
    | @string b k hb hlen =>
      have hshorter := length_toUtf8_le (S := S) b
      have hs : (toUtf8 (ofUtf8 b : S)).length ≤ 65535 := Nat.le_trans hshorter hb
      refine ⟨.string hs, _, by rw [encodeValue, encodeString_eq hs], ?_⟩
      have hheader := length_stringHeader_mono hshorter
      rw [List.length_append]
      omega
    | @bytevector b k hb hlen =>
      exact ⟨.bytevector hb, binHeader b.length ++ b,
        by rw [encodeValue, encodeBinBytes_eq hb], by rw [List.length_append]; omega⟩
    | @list count k v q hcount hlen hk hend hloop =>
      obtain ⟨elements, rfl, rfl, helements, w, hw, hwlen⟩ :=
        reencodes_elements (hlater k hk) hloop
      rw [List.reverse_nil, List.nil_append]
      refine ⟨.list hcount helements, _, encodeValue_list hcount hw, ?_⟩
      rw [List.length_append]
      omega
    | @map count k v q hcount hlen hk hend hloop =>
      obtain ⟨entries, rfl, rfl, hkeys, hvalues, w, hw, hwlen⟩ :=
        reencodes_entries (hlater k hk) hloop
      rw [List.reverse_nil, List.nil_append]
      refine ⟨.map hcount hkeys hvalues, _, encodeValue_map (by rwa [List.length_map]) hw, ?_⟩
      rw [List.length_append, List.length_map]
      omega

end Decoded

/-! ## Whole bytevectors -/

lemma encode_eq_ok {v : Value S} {w : List UInt8}
    (h : encodeValue v = .ok (bytevectorToBytes w)) : encode v = .ok w := by
  rw [encode, h, ok_bind, bytesToBytevector_bytes]

/-- The wire form is read back. -/
lemma WireForm.decode_eq {v : Value S} {w : List UInt8} (h : WireForm v w) :
    decode w = .ok v := by
  obtain ⟨q, hq, hval⟩ := h.decodes (occursAt_zero.2 (List.prefix_refl w))
  rw [Nat.zero_add] at hval
  rw [decode, hq, ok_bind]
  simp [hval]

lemma WireForm.decodePrefix_eq {v : Value S} {w : List UInt8} (h : WireForm v w)
    (rest : List UInt8) : decodePrefix (w ++ rest) = .ok (v, w.length) := by
  obtain ⟨q, hq, hval⟩ := h.decodes (occursAt_zero.2 (List.prefix_append w rest))
  rw [decodePrefix, hq, ok_bind]
  simp [hval]

/-- Every value that the format carries is encoded, decoding gives it back, also in front of
further bytes; and whatever a bytevector decodes to is encoded in at most as many bytes, which
decode to the same value. -/
theorem decode_encode :
    (∀ v : Value S, Encodable v → ∃ w, encode v = .ok w ∧ decode w = .ok v ∧
      ∀ rest, decodePrefix (w ++ rest) = .ok (v, w.length)) ∧
    (∀ bv (v : Value S), decode bv = .ok v →
      ∃ w, encode v = .ok w ∧ w.length ≤ bv.length ∧ decode w = .ok v) := by
  refine ⟨fun v hv => ?_, fun bv v h => ?_⟩
  · obtain ⟨w, hw⟩ := wireForm_of_encodable hv
    exact ⟨w, encode_eq_ok hw.encodes, hw.decode_eq, hw.decodePrefix_eq⟩
  · rw [decode] at h
    obtain ⟨⟨x, q⟩, hx, h⟩ := bind_eq_ok.1 h
    dsimp only at h
    obtain ⟨hterm, u, hu, hlen⟩ := reencodes_of_decodeAt hx
    obtain rfl : x = v := by
      by_cases hend : q.1 = bv.length
      · rw [if_pos hend] at h
        exact Except.ok.inj h
      · rw [if_neg hend] at h
        exact absurd h (raise_ne_ok _ _ _)
    obtain ⟨w, hw⟩ := wireForm_of_encodable hterm
    have huw : encode x = .ok u := encode_eq_ok hu
    have hww := encode_eq_ok hw.encodes
    obtain rfl : w = u := Except.ok.inj (hww.symm.trans huw)
    refine ⟨w, huw, ?_, hw.decode_eq⟩
    have := q.2.2
    omega

end Msgpack
