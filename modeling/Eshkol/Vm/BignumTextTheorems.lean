import Eshkol.Exact.NumberRoundTrip
import Eshkol.Vm.BignumDivision
import Eshkol.Vm.BignumText

/-!
# Decimal texts denote the bignums they are written for

The chunks of nine characters are the digits of a number in the radix `10^9`. Texts are read and written
correctly as long as the estimates of their sizes fit into `int`.
-/

namespace Vm.Bignum

open Exact (readSign digitOf digitsValue signedValue decimalText integerText)
open Nat (ofDigits)

/-! ## Digits of a text -/

lemma mapM_append_eq_some {front back : List UInt8} {digits : List ℕ}
    (h : (front ++ back).mapM (digitOf 10) = some digits) :
    ∃ ds ds', front.mapM (digitOf 10) = some ds ∧ back.mapM (digitOf 10) = some ds' ∧ digits = ds ++ ds' := by
  induction front generalizing digits with
  | nil => exact ⟨[], digits, rfl, h, rfl⟩
  | cons c front ih =>
    obtain ⟨d, ds, hc, hrest, rfl⟩ := Exact.mapM_cons_eq_some h
    obtain ⟨ds₁, ds₂, hfront, hback, rfl⟩ := ih hrest
    exact ⟨d :: ds₁, ds₂, by rw [List.mapM_cons, hc, hfront]; rfl, hback, rfl⟩

lemma mapM_take {text : List UInt8} {digits : List ℕ} (h : text.mapM (digitOf 10) = some digits) (n : ℕ) :
    (text.take n).mapM (digitOf 10) = some (digits.take n) := by
  induction text generalizing digits n with
  | nil =>
    have hnil : digits = [] := (Option.some.inj h).symm
    rw [hnil, List.take_nil, List.take_nil]
    rfl
  | cons c text ih =>
    obtain ⟨d, ds, hc, htext, rfl⟩ := Exact.mapM_cons_eq_some h
    cases n with
    | zero => rfl
    | succ n =>
      rw [List.take_succ_cons, List.mapM_cons, hc, ih htext]
      rfl

lemma length_digits {text : List UInt8} {digits : List ℕ} (h : text.mapM (digitOf 10) = some digits) :
    digits.length = text.length := by
  induction text generalizing digits with
  | nil =>
    cases h
    rfl
  | cons c text ih =>
    obtain ⟨d, ds, -, htext, rfl⟩ := Exact.mapM_cons_eq_some h
    rw [List.length_cons, List.length_cons, ih htext]

lemma digitsValue_append (ds ds' : List ℕ) :
    digitsValue 10 (ds ++ ds') = digitsValue 10 ds * 10 ^ ds'.length + digitsValue 10 ds' := by
  rw [digitsValue, List.reverse_append, Nat.ofDigits_append, List.length_reverse, digitsValue, digitsValue,
    Nat.add_comm, Nat.mul_comm]

lemma digitsValue_lt {text : List UInt8} {digits : List ℕ} (h : text.mapM (digitOf 10) = some digits) :
    digitsValue 10 digits < 10 ^ text.length := by
  rw [digitsValue, ← length_digits h, ← List.length_reverse]
  refine Nat.ofDigits_lt_base_pow_length (by decide) fun d hd => ?_
  exact Exact.digits_lt h d (List.mem_reverse.1 hd)

/-! ## Reading -/

lemma chunkMultiplier_eq {chunkLen : ℕ} (h : chunkLen ≤ 9) : chunkMultiplier chunkLen = 10 ^ chunkLen := by
  have htable : ∀ k ≤ 9, chunkMultiplier k = 10 ^ k := by decide
  exact htable chunkLen h

/-- Nine digits fit into 32 bits. -/
lemma chunkVal_eq {chunk : List UInt8} {digits : List ℕ} (h : chunk.mapM (digitOf 10) = some digits)
    (hlen : chunk.length ≤ 9) : chunkVal chunk = some (digitsValue 10 digits) := by
  induction chunk using List.reverseRecOn generalizing digits with
  | nil =>
    cases h
    rfl
  | append_singleton chunk c ih =>
    have hlt := digitsValue_lt h
    obtain ⟨ds, ds', hchunk, hc, rfl⟩ := mapM_append_eq_some h
    obtain ⟨d, ds'', hd, hnil, rfl⟩ := Exact.mapM_cons_eq_some hc
    have hlast : ds'' = [] := (Option.some.inj hnil).symm
    subst hlast
    rw [List.length_append, List.length_singleton] at hlen hlt
    have hfits : 10 ^ (chunk.length + 1) < limbRadix :=
      Nat.lt_of_le_of_lt (Nat.pow_le_pow_right (by decide) hlen) (by decide)
    have hval := ih hchunk (by omega)
    rw [chunkVal] at hval
    rw [Exact.digitsValue_concat] at hlt ⊢
    rw [chunkVal, List.foldlM_append, hval]
    simp [hd, Nat.mod_eq_of_lt (hlt.trans hfits)]

lemma nextChunkLen_le {first : Bool} {remaining : ℕ} (hne : remaining ≠ 0)
    (h : first = true ∨ 9 ∣ remaining) :
    nextChunkLen first remaining ≤ remaining ∧ nextChunkLen first remaining ≤ 9 ∧
      9 ∣ remaining - nextChunkLen first remaining := by
  rw [nextChunkLen]
  split
  · omega
  · rename_i hfirst
    rw [Bool.and_eq_true, decide_eq_true_eq, not_and_or, not_not] at hfirst
    have hdvd : 9 ∣ remaining := by
      rcases h with h | h
      · exact Nat.dvd_of_mod_eq_zero (hfirst.resolve_left (not_not.2 h))
      · exact h
    omega

/-- A chunk is appended to the digits read before it. -/
lemma readChunks_spec {first : Bool} {limbs digits : List ℕ} {text : List UInt8}
    (hlimbs : Radix.Digits limbRadix limbs) (hdigits : text.mapM (digitOf 10) = some digits)
    (hfirst : first = true ∨ 9 ∣ text.length) :
    ∃ result, readChunks first limbs text = some result ∧ Radix.Digits limbRadix result ∧
      ofDigits limbRadix result = ofDigits limbRadix limbs * 10 ^ text.length + digitsValue 10 digits := by
  induction hn : text.length using Nat.strong_induction_on generalizing first limbs digits text with
  | h n ih =>
    rw [readChunks]
    by_cases hnil : text = []
    · subst hnil
      cases hdigits
      rw [if_pos rfl]
      refine ⟨limbs, rfl, hlimbs, ?_⟩
      rw [← hn, List.length_nil, pow_zero, Nat.mul_one]
      rfl
    · have hpos := List.length_pos_iff.2 hnil
      have hstep := nextChunkLen_pos first text.length
      obtain ⟨hle, hnine, hdvd⟩ := nextChunkLen_le hpos.ne' hfirst
      rw [if_neg hnil]
      generalize nextChunkLen first text.length = chunkLen at *
      have hsplit := hdigits
      rw [← List.take_append_drop chunkLen text] at hsplit
      obtain ⟨ds, ds', hchunk, hrest, rfl⟩ := mapM_append_eq_some hsplit
      have hlen : (text.take chunkLen).length = chunkLen := by rw [List.length_take]; omega
      have hlen_rest : (text.drop chunkLen).length = n - chunkLen := by rw [List.length_drop, hn]
      have hval_lt := digitsValue_lt hchunk
      have hfits : 10 ^ chunkLen < limbRadix :=
        Nat.lt_of_le_of_lt (Nat.pow_le_pow_right (by decide) hnine) (by decide)
      rw [hlen] at hval_lt
      have hnext := Radix.digits_mulAdd hfits (hval_lt.trans hfits) hlimbs
      obtain ⟨result, hread, hresult, hvalue⟩ := @ih _ (by omega) false _ _ _ hnext hrest
        (.inr (by rw [hlen_rest, ← hn]; exact hdvd)) hlen_rest
      simp only [chunkVal_eq hchunk (by omega), chunkMultiplier_eq hnine]
      refine ⟨result, hread, hresult, ?_⟩
      have hpow : 10 ^ n = 10 ^ chunkLen * 10 ^ (n - chunkLen) := by
        rw [← pow_add]
        congr 1
        omega
      rw [hvalue, Radix.ofDigits_mulAdd, digitsValue_append, length_digits hrest, hlen_rest, hpow]
      ring

lemma digitOf_eq_zero {c : UInt8} (h : digitOf 10 c = some 0) : c = '0'.toUInt8 := by
  rw [digitOf, Option.filter_eq_some_iff] at h
  obtain ⟨h, -⟩ := h
  split at h
  · rename_i hdigit
    rw [Bool.and_eq_true, decide_eq_true_eq, decide_eq_true_eq, UInt8.le_iff_toNat_le] at hdigit
    have hval := Option.some.inj h
    have hzero : '0'.toNat = '0'.toUInt8.toNat := rfl
    exact UInt8.toNat_inj.1 (by omega)
  · split at h
    · exact absurd (Option.some.inj h) (Nat.succ_ne_zero _)
    · split at h
      · exact absurd (Option.some.inj h) (Nat.succ_ne_zero _)
      · cases h

/-- The zeros that are skipped have no value, and what is left has no leading zero. -/
lemma skipZeros_spec {text : List UInt8} {digits : List ℕ} (h : text.mapM (digitOf 10) = some digits) :
    ∃ ds, (skipZeros text).mapM (digitOf 10) = some ds ∧ digitsValue 10 ds = digitsValue 10 digits ∧
      (1 < (skipZeros text).length → 10 ^ ((skipZeros text).length - 1) ≤ digitsValue 10 ds) := by
  fun_induction skipZeros text generalizing digits with
  | case1 d rest ih =>
    obtain ⟨first, ds, hfirst, hrest, rfl⟩ := Exact.mapM_cons_eq_some h
    obtain ⟨ds', hds', hvalue, hlead⟩ := ih hrest
    obtain rfl : 0 = first := Option.some.inj hfirst
    refine ⟨ds', hds', ?_, hlead⟩
    rw [hvalue, ← List.singleton_append, digitsValue_append]
    show _ = 0 * _ + _
    rw [Nat.zero_mul, Nat.zero_add]
  | case2 c d rest hc =>
    refine ⟨digits, h, rfl, fun _ => ?_⟩
    obtain ⟨first, ds, hfirst, hrest, rfl⟩ := Exact.mapM_cons_eq_some h
    have hpos : 1 ≤ first := Nat.pos_of_ne_zero fun hzero => hc (digitOf_eq_zero (by rw [hfirst, hzero]))
    have hvalue : digitsValue 10 [first] = first := rfl
    rw [List.length_cons, Nat.add_sub_cancel, ← length_digits hrest, ← List.singleton_append, digitsValue_append,
      hvalue]
    exact Nat.le_add_right_of_le (Nat.le_mul_of_pos_left _ hpos)
  | case3 text hshort =>
    refine ⟨digits, h, rfl, fun hlen => ?_⟩
    obtain _ | ⟨c, _ | ⟨d, rest⟩⟩ := text
    · exact absurd hlen (by decide)
    · exact absurd hlen (Nat.lt_irrefl 1)
    · exact absurd rfl (hshort c d rest)

lemma int32_isSome_iff (x : ℤ) : (int32 x).isSome = true ↔ -2147483648 ≤ x ∧ x ≤ 2147483647 := by
  rw [int32, Int32.toInt_minValue, Int32.toInt_maxValue]
  split
  · rename_i h
    exact iff_of_true rfl (by omega)
  · rename_i h
    exact iff_of_false (by simp) (by omega)

lemma int32_eq {x : ℤ} (hlo : -2147483648 ≤ x) (hhi : x ≤ 2147483647) : int32 x = some x := by
  rw [int32, Int32.toInt_minValue, Int32.toInt_maxValue]
  exact if_pos (by omega)

lemma int32_eq_none {x : ℤ} (h : x < -2147483648 ∨ 2147483647 < x) : int32 x = none := by
  rw [int32, Int32.toInt_minValue, Int32.toInt_maxValue]
  exact if_neg (by omega)

lemma estLimbs_isSome_iff (len : ℤ) :
    (estLimbs len).isSome = true ↔ -2147483648 ≤ len * 34 ∧ len * 34 + 319 ≤ 2147483647 := by
  have hbind : estLimbs len = (int32 (len * 34)).bind fun bits =>
      (int32 (bits + 319)).bind fun rounded => int32 (rounded.tdiv 320 + 2) := rfl
  rw [hbind]
  by_cases hlo : -2147483648 ≤ len * 34
  · by_cases hhi : len * 34 + 319 ≤ 2147483647
    · rw [int32_eq hlo (by omega), Option.bind_some, int32_eq (by omega) hhi, Option.bind_some, int32_isSome_iff]
      have hquot : ((len * 34 + 319).tdiv 320).natAbs = (len * 34 + 319).natAbs / 320 := Int.natAbs_tdiv _ _
      omega
    · refine iff_of_false ?_ (by omega)
      by_cases hmul : len * 34 ≤ 2147483647
      · rw [int32_eq hlo hmul, Option.bind_some, int32_eq_none (by omega)]
        exact Bool.false_ne_true
      · rw [int32_eq_none (by omega)]
        exact Bool.false_ne_true
  · rw [int32_eq_none (by omega)]
    exact iff_of_false Bool.false_ne_true (by omega)

/-- The characters that the length counts are read. -/
lemma bignumFromString_spec {s : List UInt8} {digits : List ℕ} (hne : s ≠ [])
    (hdigits : (skipZeros (readSign s).2).mapM (digitOf 10) = some digits)
    (hfits : (estLimbs (intOfSize (skipZeros (readSign s).2).length)).isSome = true) :
    ∃ r, bignumFromString s = some r ∧ Denotes r (signedValue (readSign s).1
      (digitsValue 10 (digits.take (intOfSize (skipZeros (readSign s).2).length).toNat))) := by
  rw [bignumFromString, if_neg hne]
  dsimp only
  generalize skipZeros (readSign s).2 = text at *
  generalize (readSign s).1 = neg
  generalize intOfSize text.length = len at *
  by_cases hzero : len = 0
  · rw [if_pos hzero]
    refine ⟨_, rfl, ?_⟩
    rw [hzero, Int.toNat_zero, List.take_zero]
    have hvalue : signedValue neg (digitsValue 10 []) = 0 := by cases neg <;> rfl
    rw [hvalue]
    exact fromInt64_spec 0
  · obtain ⟨limbs, hread, hlimbs, hvalue⟩ := readChunks_spec Radix.digits_nil (mapM_take hdigits len.toNat)
      (.inl rfl)
    obtain ⟨est, hest⟩ := Option.isSome_iff_exists.1 hfits
    rw [if_neg hzero, hest, hread]
    refine ⟨_, rfl, ?_⟩
    rw [Nat.ofDigits_nil, Nat.zero_mul, Nat.zero_add] at hvalue
    rw [← hvalue, signedValue]
    cases neg with
    | false =>
      have h := @denotes_normalize 1 _ hlimbs (by decide)
      rwa [SignType.coe_one, one_mul] at h
    | true =>
      have h := @denotes_normalize (-1) _ hlimbs (by decide)
      rwa [SignType.coe_neg_one, neg_one_mul] at h

lemma bignumFromString_eq_none {s : List UInt8} (hne : s ≠ [])
    (hfits : estLimbs (intOfSize (skipZeros (readSign s).2).length) = none) : bignumFromString s = none := by
  rw [bignumFromString, if_neg hne]
  dsimp only
  rw [if_neg, hfits]
  · rfl
  · intro hzero
    rw [hzero] at hfits
    exact absurd hfits (by decide)

/-- The number that a text denotes. -/
def textValue (s : List UInt8) : Option ℤ :=
  ((readSign s).2.mapM (digitOf 10)).map fun digits => signedValue (readSign s).1 (digitsValue 10 digits)

/-- The text is read as the number it denotes. -/
def ReadsExactly (s : List UInt8) : Prop :=
  ∃ r x, bignumFromString s = some r ∧ textValue s = some x ∧ Denotes r x

/-- The estimate of the limbs for so many digits is an `int`. -/
def EstimateFits (len : ℕ) : Prop := len * 34 + 319 ≤ 2147483647

lemma intOfSize_of_fits {n : ℕ} (h : EstimateFits n) : intOfSize n = n := by
  have hwidth : intOfSize n = Int.bmod n (2 ^ 32) := rfl
  rw [EstimateFits] at h
  rw [hwidth]
  apply Int.bmod_eq_of_le
  · rw [Nat.cast_pow, Nat.cast_ofNat]
    omega
  · rw [Nat.cast_pow, Nat.cast_ofNat]
    omega

lemma natAbs_signedValue (negative : Bool) (m : ℕ) : (signedValue negative m).natAbs = m := by
  cases negative with
  | false => exact Int.natAbs_natCast m
  | true => exact (Int.natAbs_neg _).trans (Int.natAbs_natCast m)

/-- Digits are read right while the estimate fits. -/
lemma readsExactly_iff {s : List UInt8} (hs : Exact.SignedDigits s) :
    ReadsExactly s ↔ EstimateFits (skipZeros (readSign s).2).length := by
  obtain ⟨hne, hall⟩ := (Exact.signedDigits_iff s).1 hs
  have hnil : s ≠ [] := fun h => hne (by rw [h]; rfl)
  obtain ⟨digits, hdigits⟩ := Option.isSome_iff_exists.1 ((Exact.mapM_isSome_iff _).2 hall)
  obtain ⟨ds, hds, hvalue, hlead⟩ := skipZeros_spec hdigits
  have htext : textValue s = some (signedValue (readSign s).1 (digitsValue 10 ds)) := by
    rw [textValue, hdigits, hvalue]
    rfl
  have hlen := length_digits hds
  constructor
  · rintro ⟨r, x, hread, hx, hdenotes⟩
    by_contra hlong
    rw [EstimateFits, Nat.not_le] at hlong
    by_cases hfits : (estLimbs (intOfSize (skipZeros (readSign s).2).length)).isSome = true
    · -- a prefix is read, which is shorter than the number
      obtain ⟨r', hread', hdenotes'⟩ := bignumFromString_spec hnil hds hfits
      obtain rfl := Option.some.inj (hread.symm.trans hread')
      obtain rfl := Option.some.inj (htext.symm.trans hx)
      have hsame := congrArg Int.natAbs (hdenotes.toInt_eq.symm.trans hdenotes'.toInt_eq)
      rw [natAbs_signedValue, natAbs_signedValue] at hsame
      rw [estLimbs_isSome_iff] at hfits
      generalize intOfSize (skipZeros (readSign s).2).length = len at *
      have htaken := digitsValue_lt (mapM_take hds len.toNat)
      have hshort : 10 ^ ((skipZeros (readSign s).2).take len.toNat).length ≤
          10 ^ ((skipZeros (readSign s).2).length - 1) := by
        apply Nat.pow_le_pow_right (by decide)
        rw [List.length_take]
        omega
      have hfull := hlead (by omega)
      omega
    · -- the estimate is undefined
      rw [bignumFromString_eq_none hnil (by simpa using hfits)] at hread
      cases hread
  · intro hfits
    have hsize := intOfSize_of_fits hfits
    have hest : (estLimbs (intOfSize (skipZeros (readSign s).2).length)).isSome = true := by
      rw [EstimateFits] at hfits
      rw [hsize, estLimbs_isSome_iff]
      omega
    obtain ⟨r, hread, hdenotes⟩ := bignumFromString_spec hnil hds hest
    rw [hsize, Int.toNat_natCast, ← hlen, List.take_length] at hdenotes
    exact ⟨r, _, hread, htext, hdenotes⟩

/-! ## Writing -/

lemma chunkBase_toNat : chunkBase.toNat = 10 ^ 9 := rfl

/-- The chunks are the digits in the radix `10^9`. -/
lemma extractChunks_eq {room m : ℕ} {tmp : VmBignum} (h : Denotes tmp m) (hroom : m < (10 ^ 9) ^ room) :
    extractChunks room tmp = some ((Nat.digits (10 ^ 9) m).map UInt32.ofNat) := by
  have hzero_iff : bignumIsZero tmp = true ↔ m = 0 := by
    rw [h.normalized.isZero_iff, h.toInt_eq, Nat.cast_eq_zero]
  induction room generalizing tmp m with
  | zero =>
    obtain rfl : m = 0 := Nat.lt_one_iff.1 hroom
    rw [extractChunks, if_pos (hzero_iff.2 rfl), Nat.digits_zero]
    rfl
  | succ room ih =>
    rw [extractChunks]
    by_cases hm : m = 0
    · rw [if_pos (hzero_iff.2 hm), hm, Nat.digits_zero]
      rfl
    · have hmag : magnitude tmp.limbs = m := by
        rw [← h.normalized.natAbs_toInt, h.toInt_eq, Int.natAbs_natCast]
      obtain ⟨hquot, hrem⟩ := magDivSingle_spec tmp (by decide : chunkBase ≠ 0)
      rw [hmag, chunkBase_toNat] at hquot hrem
      have hnext : m / 10 ^ 9 < (10 ^ 9) ^ room := by
        rwa [Nat.div_lt_iff_lt_mul (by decide), ← pow_succ]
      have hrest := ih hquot hnext (by rw [hquot.normalized.isZero_iff, hquot.toInt_eq, Nat.cast_eq_zero])
      have hchunk : (magDivSingle tmp chunkBase).2 = UInt32.ofNat (m % 10 ^ 9) := by
        rw [← hrem, UInt32.ofNat_toNat]
      rw [if_neg (mt hzero_iff.1 hm), Nat.digits_def' (by decide) (Nat.pos_of_ne_zero hm), List.map_cons]
      simp only [hrest, hchunk, Option.map_some]

lemma decimalText_of_pos {m : ℕ} (hm : m ≠ 0) :
    decimalText m = (Nat.digits 10 m).reverse.map Exact.asciiDigit := if_neg hm

lemma length_decimalText {m : ℕ} (hm : m ≠ 0) : (decimalText m).length = (Nat.digits 10 m).length := by
  rw [decimalText_of_pos hm, List.length_map, List.length_reverse]

/-- Leading zeros up to nine digits. -/
lemma paddedText_eq (chunk : UInt32) :
    paddedText chunk = (Nat.digits 10 chunk.toNat ++
      List.replicate (9 - (Nat.digits 10 chunk.toNat).length) 0).reverse.map Exact.asciiDigit := by
  rw [paddedText, List.reverse_append, List.map_append, List.reverse_replicate, List.map_replicate]
  by_cases hm : chunk.toNat = 0
  · rw [hm]
    rfl
  · rw [length_decimalText hm, decimalText_of_pos hm]
    rfl

/-- The text of a number is that of its upper part, and nine digits more. -/
lemma decimalText_split {m : ℕ} (h : m / 10 ^ 9 ≠ 0) :
    decimalText m = decimalText (m / 10 ^ 9) ++ paddedText (.ofNat (m % 10 ^ 9)) := by
  have hlt : m % 10 ^ 9 < 10 ^ 9 := Nat.mod_lt _ (by decide)
  have hchunk : (UInt32.ofNat (m % 10 ^ 9)).toNat = m % 10 ^ 9 :=
    UInt32.toNat_ofNat_of_lt' (hlt.trans (by decide))
  have hm : m ≠ 0 := fun hzero => h (by rw [hzero, Nat.zero_div])
  have hlen := (Nat.digits_length_le_iff (by decide) (m % 10 ^ 9)).2 hlt
  have hdigits := @Nat.digits_append_zeroes_append_digits 10 (9 - (Nat.digits 10 (m % 10 ^ 9)).length)
    (m / 10 ^ 9) (m % 10 ^ 9) (by decide) (Nat.pos_of_ne_zero h)
  rw [Nat.add_sub_cancel' hlen, Nat.mod_add_div] at hdigits
  rw [paddedText_eq, hchunk, decimalText_of_pos hm, decimalText_of_pos h, ← hdigits,
    List.reverse_append, List.map_append]

lemma chunksText_concat {chunks : List UInt32} (hne : chunks ≠ []) (chunk : UInt32) :
    chunksText (chunks ++ [chunk]) = chunksText chunks ++ paddedText chunk := by
  cases chunks with
  | nil => exact absurd rfl hne
  | cons first rest =>
    rw [List.cons_append, chunksText, chunksText, List.flatMap_append, List.flatMap_singleton, List.append_assoc]

/-- The chunks are written as the number. -/
lemma chunksText_digits {m : ℕ} (hm : m ≠ 0) :
    chunksText ((Nat.digits (10 ^ 9) m).map UInt32.ofNat).reverse = decimalText m := by
  induction m using Nat.strong_induction_on with
  | h m ih =>
    rw [Nat.digits_def' (by decide) (Nat.pos_of_ne_zero hm), List.map_cons, List.reverse_cons]
    by_cases hupper : m / 10 ^ 9 = 0
    · have hlt : m < 10 ^ 9 := (Nat.div_eq_zero_iff_lt (by decide)).1 hupper
      rw [hupper, Nat.digits_zero, Nat.mod_eq_of_lt hlt]
      show decimalText (UInt32.ofNat m).toNat ++ [] = _
      rw [UInt32.toNat_ofNat_of_lt' (hlt.trans (by decide)), List.append_nil]
    · have hless : m / 10 ^ 9 < m := Nat.div_lt_self (Nat.pos_of_ne_zero hm) (by decide)
      rw [chunksText_concat, ih _ hless hupper, ← decimalText_split hupper]
      rwa [Ne, List.reverse_eq_nil_iff, List.map_eq_nil_iff, Nat.digits_eq_nil_iff_eq_zero]

/-- Two chunks a limb are enough. -/
lemma bignumChunks_eq {b : VmBignum} (hb : Normalized b) (hfits : b.limbs.length * 10 + 2 ≤ 2147483647) :
    bignumChunks b = some ((Nat.digits (10 ^ 9) (magnitude b.limbs)).map UInt32.ofNat) ∧
      (Nat.digits (10 ^ 9) (magnitude b.limbs)).length ≤ b.limbs.length * 2 + 2 := by
  have habs := absVal_spec hb
  rw [Int.abs_eq_natAbs, hb.natAbs_toInt] at habs
  have hroom : magnitude b.limbs < (10 ^ 9) ^ (b.limbs.length * 2 + 2) := by
    calc magnitude b.limbs < limbRadix ^ (words b.limbs).length :=
          Radix.ofDigits_lt one_lt_limbRadix (digits_words _)
      _ ≤ ((10 ^ 9) ^ 2) ^ b.limbs.length := by
          rw [length_words]
          exact Nat.pow_le_pow_left (by decide) _
      _ = (10 ^ 9) ^ (b.limbs.length * 2) := by rw [← pow_mul, Nat.mul_comm]
      _ ≤ (10 ^ 9) ^ (b.limbs.length * 2 + 2) := Nat.pow_le_pow_right (by decide) (Nat.le_add_right _ _)
  have hbind : bignumChunks b = (int32 (b.limbs.length * 2 + 2)).bind fun maxChunks =>
      extractChunks maxChunks.toNat (bignumAbsVal b) := rfl
  have hsize : ((b.limbs.length : ℤ) * 2 + 2).toNat = b.limbs.length * 2 + 2 := by omega
  rw [hbind, int32_eq (by omega) (by omega), Option.bind_some, hsize]
  exact ⟨extractChunks_eq habs hroom, (Nat.digits_length_le_iff (by decide) _).2 hroom⟩

/-- Ten digits a limb are enough. -/
lemma length_decimalText_le {limbs : List UInt32} (hpos : magnitude limbs ≠ 0) :
    (decimalText (magnitude limbs)).length ≤ limbs.length * 10 := by
  rw [length_decimalText hpos, Nat.digits_length_le_iff (by decide)]
  calc magnitude limbs < limbRadix ^ (words limbs).length :=
        Radix.ofDigits_lt one_lt_limbRadix (digits_words _)
    _ ≤ (10 ^ 10) ^ limbs.length := by
        rw [length_words]
        exact Nat.pow_le_pow_left (by decide) _
    _ = 10 ^ (limbs.length * 10) := by rw [← pow_mul, Nat.mul_comm]

/-- A text is written within the estimated size. -/
lemma bignumToString_eq {b : VmBignum} (hb : Normalized b) (hfits : b.limbs.length * 10 + 2 ≤ 2147483647) :
    bignumToString b = some (integerText b.toInt) ∧
      (integerText b.toInt).length + 1 ≤ b.limbs.length * 10 + 2 := by
  obtain ⟨hchunks, -⟩ := bignumChunks_eq hb hfits
  rw [bignumToString]
  by_cases hzero : bignumIsZero b = true
  · rw [if_pos hzero, hb.isZero_iff.1 hzero]
    exact ⟨rfl, Nat.le_add_left 2 _⟩
  · obtain ⟨hpos, hcases⟩ := hb.sign_cases hzero
    have hlen := length_decimalText_le hpos.ne'
    have htext : (if b.sign < 0 then ['-'.toUInt8] else []) ++ decimalText (magnitude b.limbs) =
        integerText b.toInt := by
      rw [integerText, hb.natAbs_toInt]
      obtain ⟨hsign, hval⟩ | ⟨hsign, hval⟩ := hcases
      · rw [hsign, hval, if_neg (by decide), if_neg (by omega)]
        rfl
      · rw [hsign, hval, if_pos (by decide), if_pos (by omega)]
        rfl
    have hsize : (integerText b.toInt).length + 1 ≤ b.limbs.length * 10 + 2 := by
      rw [integerText, hb.natAbs_toInt]
      split
      · rw [List.length_cons]
        omega
      · omega
    refine ⟨?_, hsize⟩
    rw [if_neg hzero, int32_eq (by omega) (by omega), hchunks]
    simp only [Option.bind_eq_bind, Option.bind_some, chunksText_digits hpos.ne', htext]
    exact if_pos (by omega)

lemma bignumToString_eq_none {b : VmBignum} (hb : Normalized b) (hsize : 2147483647 < b.limbs.length * 10 + 2) :
    bignumToString b = none := by
  have hzero : bignumIsZero b ≠ true := by
    intro hzero
    rw [hb.eq_zero hzero] at hsize
    exact absurd hsize (by decide)
  rw [bignumToString, if_neg hzero, int32_eq_none (by omega)]
  rfl

/-! ## Reading back -/

lemma skipZeros_cons {c : UInt8} (hc : c ≠ '0'.toUInt8) (rest : List UInt8) :
    skipZeros (c :: rest) = c :: rest := by
  cases rest with
  | nil => rfl
  | cons d rest => rw [skipZeros, if_neg hc]

/-- A number is written without leading zeros. -/
lemma skipZeros_decimalText (m : ℕ) : skipZeros (decimalText m) = decimalText m := by
  by_cases hm : m = 0
  · rw [hm]
    rfl
  · have hne : Nat.digits 10 m ≠ [] := Nat.digits_ne_nil_iff_ne_zero.2 hm
    have hlast := Nat.getLast_digit_ne_zero 10 hm
    have hten : (Nat.digits 10 m).getLast hne < 10 := Nat.digits_lt_base (by decide) (List.getLast_mem hne)
    rw [decimalText_of_pos hm, ← List.dropLast_append_getLast hne, List.reverse_append, List.reverse_singleton,
      List.singleton_append, List.map_cons]
    apply skipZeros_cons
    intro hc
    have hdigit := Exact.digitOf_asciiDigit hten
    rw [hc] at hdigit
    exact hlast (Option.some.inj hdigit).symm

lemma readSign_text (x : ℤ) : readSign (integerText x) = (decide (x < 0), decimalText x.natAbs) := by
  have h := Exact.readSign_integerText x []
  rwa [List.append_nil, List.append_nil] at h

lemma textValue_integerText (x : ℤ) : textValue (integerText x) = some x := by
  obtain ⟨digits, hdigits, -, hvalue⟩ := Exact.decimalText_digits x.natAbs
  rw [textValue, readSign_text, hdigits, Option.map_some, hvalue, Exact.signedValue_natAbs]

/-- The text of an integer is read as long as it is not too long. -/
lemma readsExactly_integerText (x : ℤ) :
    ReadsExactly (integerText x) ↔ EstimateFits (decimalText x.natAbs).length := by
  obtain ⟨digits, hdigits, -⟩ := Exact.decimalText_digits x.natAbs
  have hsigned : Exact.SignedDigits (integerText x) := by
    rw [Exact.signedDigits_iff, readSign_text, ← Exact.mapM_isSome_iff, hdigits]
    exact ⟨Exact.decimalText_ne_nil _, rfl⟩
  rw [readsExactly_iff hsigned, readSign_text, skipZeros_decimalText]

/-- The text and the chunks of a number stay within their arrays, and the text is read as the number. -/
def WritesExactly (b : VmBignum) : Prop :=
  ∃ text chunks, bignumToString b = some text ∧ text.length + 1 ≤ b.limbs.length * 10 + 2 ∧
    bignumChunks b = some chunks ∧ chunks.length ≤ b.limbs.length * 2 + 2 ∧ bignumFromString text = some b

/-- A number whose digits can be read has few limbs. -/
lemma limbs_of_estimateFits {b : VmBignum} (hb : Normalized b)
    (hfits : EstimateFits (decimalText (magnitude b.limbs)).length) : b.limbs.length * 10 + 2 ≤ 2147483647 := by
  by_cases hnil : b.limbs = []
  · rw [hnil]
    decide
  · have hwords : words b.limbs ≠ [] := by rwa [Ne, words, List.map_eq_nil_iff]
    have hle := @Radix.pow_le_ofDigits limbRadix _ hwords (words_getLast hb.trimmed)
    rw [length_words] at hle
    have hpos : magnitude b.limbs ≠ 0 := mt hb.trimmed.magnitude_eq_zero.1 hnil
    have hpow : 10 ^ (9 * (b.limbs.length - 1)) ≤ magnitude b.limbs := by
      rw [pow_mul]
      exact (Nat.pow_le_pow_left (by decide) _).trans hle
    rw [← Nat.lt_digits_length_iff (by decide), ← length_decimalText hpos] at hpow
    rw [EstimateFits] at hfits
    omega

/-- Six million limbs are not too many. -/
lemma estimateFits_of_limbs {limbs : List UInt32} (h : limbs.length * 340 + 319 ≤ 2147483647) :
    EstimateFits (decimalText (magnitude limbs)).length := by
  rw [EstimateFits]
  by_cases hzero : magnitude limbs = 0
  · rw [hzero]
    norm_num [decimalText]
  · have hlen := length_decimalText_le hzero
    omega

/-- Digits are written right while the estimate fits. -/
lemma writesExactly_iff {b : VmBignum} (hb : Normalized b) :
    WritesExactly b ↔ EstimateFits (decimalText (magnitude b.limbs)).length := by
  rw [← hb.natAbs_toInt, ← readsExactly_integerText]
  constructor
  · rintro ⟨text, chunks, htext, -, -, -, hread⟩
    have hfits : b.limbs.length * 10 + 2 ≤ 2147483647 := by
      by_contra hsize
      rw [bignumToString_eq_none hb (by omega)] at htext
      cases htext
    rw [(bignumToString_eq hb hfits).1] at htext
    obtain rfl := Option.some.inj htext
    exact ⟨b, b.toInt, hread, textValue_integerText _, hb, rfl⟩
  · intro hreads
    have hfits := limbs_of_estimateFits hb (by rwa [readsExactly_integerText, hb.natAbs_toInt] at hreads)
    obtain ⟨htext, hsize⟩ := bignumToString_eq hb hfits
    obtain ⟨hchunks, hroom⟩ := bignumChunks_eq hb hfits
    obtain ⟨r, x, hread, hx, hdenotes⟩ := hreads
    obtain rfl := Option.some.inj ((textValue_integerText _).symm.trans hx)
    obtain rfl := hdenotes.normalized.eq_of_toInt hb hdenotes.toInt_eq
    exact ⟨_, _, htext, hsize, hchunks, by rwa [List.length_map], hread⟩

/-- A number and a text are converted exactly when the estimate of the limbs fits for the digits of the
number, and for the digits of the text after its leading zeros. -/
theorem decimal_conversion_iff {b : VmBignum} {s : List UInt8} (hb : Normalized b) (hs : Exact.SignedDigits s) :
    (WritesExactly b ↔ EstimateFits (decimalText (magnitude b.limbs)).length) ∧
      (ReadsExactly s ↔ EstimateFits (skipZeros (readSign s).2).length) :=
  ⟨writesExactly_iff hb, readsExactly_iff hs⟩

/-- `-2^32`, and the text `+0012`. -/
theorem decimal_conversion_iff_two_limbs :
    WritesExactly ⟨-1, [0, 1]⟩ ∧
      ReadsExactly ['+'.toUInt8, '0'.toUInt8, '0'.toUInt8, '1'.toUInt8, '2'.toUInt8] := by
  have hb : Normalized ⟨-1, [0, 1]⟩ := ⟨by decide, by decide⟩
  have hs : Exact.SignedDigits ['+'.toUInt8, '0'.toUInt8, '0'.toUInt8, '1'.toUInt8, '2'.toUInt8] :=
    ⟨_, _, .inr (.inl rfl), List.cons_ne_nil _ _, List.all_eq_true.1 rfl, rfl⟩
  obtain ⟨hwrite, hread⟩ := decimal_conversion_iff hb hs
  refine ⟨hwrite.2 ?_, hread.2 ?_⟩
  · exact estimateFits_of_limbs (by norm_num)
  · show EstimateFits 2
    rw [EstimateFits]
    norm_num

/-- The text of `10^(2^32 - 1)`, whose length is zero as an `int`. -/
def wrappingText : List UInt8 := '1'.toUInt8 :: List.replicate 4294967295 '0'.toUInt8

lemma skipZeros_wrappingText : skipZeros (readSign wrappingText).2 = wrappingText :=
  skipZeros_cons (by decide) _

/-- It is read as zero. -/
theorem not_readsExactly_wrapping :
    Exact.SignedDigits wrappingText ∧ bignumFromString wrappingText = some (bignumFromInt64 0) ∧
      ¬ ReadsExactly wrappingText := by
  have hlen : wrappingText.length = 4294967296 := by
    rw [wrappingText, List.length_cons, List.length_replicate]
  have hs : Exact.SignedDigits wrappingText := by
    refine ⟨[], wrappingText, .inl rfl, List.cons_ne_nil _ _, fun c hc => ?_, rfl⟩
    rcases List.mem_cons.1 hc with rfl | hc
    · rfl
    · rw [List.eq_of_mem_replicate hc]
      rfl
  refine ⟨hs, ?_, ?_⟩
  · have hzero : intOfSize 4294967296 = 0 := by
      show Int.bmod (4294967296 : ℕ) (2 ^ 32) = 0
      rfl
    have hne : wrappingText ≠ [] := List.cons_ne_nil _ _
    rw [bignumFromString, if_neg hne]
    dsimp only
    rw [skipZeros_wrappingText, hlen, if_pos hzero]
  · rw [readsExactly_iff hs, skipZeros_wrappingText, hlen, EstimateFits]
    omega

end Vm.Bignum
