import Eshkol.Vm.StringBytes
import Eshkol.Vm.StringCalls
import Mathlib.Algebra.BigOperators.Group.List.Basic

/-!
# When the string operations are well behaved

Only where bytes that are no UTF-8 meet: a string that ends inside a character and is continued by the next one, a
replaced character that grows when it is written again, and a continuation byte that continues nothing.
-/

namespace Vm.Strings

/-! ## Joining bytes -/

/-- The number of continuation bytes that the last character still asks for at the end. -/
def missing : List UInt8 → ℕ
  | [] => 0
  | b0 :: t =>
    if runLength t = t.length ∧ t.length < expected b0 then expected b0 - t.length
    else missing (t.drop (tailWidth b0 t))
termination_by buf => buf.length
decreasing_by exact length_drop_lt_cons b0 t _

lemma runLength_append (a b : List UInt8) :
    runLength (a ++ b) = if runLength a = a.length then a.length + runLength b else runLength a := by
  induction a with
  | nil => simp
  | cons c a ih =>
    rw [List.cons_append, runLength_cons, runLength_cons, ih, List.length_cons]
    by_cases hcont : isContinuation c = true
    · simp only [hcont, if_true, Nat.add_right_cancel_iff]
      split_ifs <;> omega
    · simp [hcont]

/-- The front of a run. -/
lemma runLength_succ {buf : List UInt8} {n : ℕ} (hn : n + 1 ≤ runLength buf) :
    ∃ b t, buf = b :: t ∧ isContinuation b = true ∧ n ≤ runLength t := by
  cases buf with
  | nil => simp at hn
  | cons b t =>
    rw [runLength_cons] at hn
    have hcont : isContinuation b = true := by
      by_contra hnot
      rw [if_neg hnot] at hn
      omega
    rw [if_pos hcont] at hn
    exact ⟨b, t, rfl, hcont, Nat.le_of_succ_le_succ hn⟩

/-- A run of continuation bytes cut out and put before other bytes. -/
lemma runLength_take_append (t : List UInt8) {n : ℕ} (hn : n ≤ runLength t) (rest : List UInt8) :
    runLength (t.take n ++ rest) = n + runLength rest := by
  induction n generalizing t with
  | zero => rw [List.take_zero, List.nil_append, Nat.zero_add]
  | succ n ih =>
    obtain ⟨b, t, rfl, hcont, hn⟩ := runLength_succ hn
    rw [List.take_succ_cons, List.cons_append, runLength_cons, if_pos hcont, ih t hn]
    omega

/-- A continuation byte by itself is one character. -/
lemma expected_of_isContinuation {b : UInt8} (hcont : isContinuation b = true) : expected b = 0 := by
  have hall : ∀ n < 256, isContinuation (UInt8.ofNat n) = true → expected (UInt8.ofNat n) = 0 := by decide +kernel
  have hbyte := hall b.toNat b.toNat_lt
  rw [UInt8.ofNat_toNat] at hbyte
  exact hbyte hcont

lemma vmUtf8CharCount_drop_run (buf : List UInt8) {n : ℕ} (hn : n ≤ runLength buf) :
    vmUtf8CharCount buf = n + vmUtf8CharCount (buf.drop n) := by
  induction n generalizing buf with
  | zero => simp
  | succ n ih =>
    obtain ⟨b, t, rfl, hcont, hn⟩ := runLength_succ hn
    have hwidth : tailWidth b t = 0 := by rw [tailWidth, expected_of_isContinuation hcont, Nat.zero_min]
    rw [vmUtf8CharCount_cons, hwidth, List.drop_zero, List.drop_succ_cons, ih t hn]
    omega

/-- Joined bytes have as many characters as their parts, but for the bytes that continue the last character. -/
lemma vmUtf8CharCount_append (a b : List UInt8) :
    vmUtf8CharCount (a ++ b) + min (missing a) (runLength b) = vmUtf8CharCount a + vmUtf8CharCount b := by
  induction a using charInduction with
  | nil => simp [missing]
  | cons b0 t ih =>
    have hrun := runLength_append t b
    have hle := runLength_le t
    rw [List.cons_append, vmUtf8CharCount_cons, vmUtf8CharCount_cons, missing]
    by_cases hcut : runLength t = t.length ∧ t.length < expected b0
    · -- the first character reaches over the end
      have hwidth : tailWidth b0 (t ++ b) = t.length + min (expected b0 - t.length) (runLength b) := by
        rw [tailWidth, hrun, if_pos hcut.1]
        omega
      have hall : t.drop (tailWidth b0 t) = [] := by
        rw [List.drop_eq_nil_iff, tailWidth]
        omega
      have hrest := @vmUtf8CharCount_drop_run b (min (expected b0 - t.length) (runLength b)) (Nat.min_le_right _ _)
      rw [if_pos hcut, hwidth, List.drop_append, List.drop_eq_nil_iff.2 (by omega), List.nil_append,
        Nat.add_sub_cancel_left, hall, vmUtf8CharCount_nil]
      omega
    · have hwidth : tailWidth b0 (t ++ b) = tailWidth b0 t := by
        unfold tailWidth
        rw [hrun]
        split_ifs <;> omega
      have hinside := tailWidth_le b0 t
      rw [if_neg hcut, hwidth, List.drop_append_of_le_length hinside]
      omega

/-- Skipped characters stay the same ones when bytes follow that start a character. -/
lemma skipChars_split (before buf : List UInt8) {n : ℕ} (hn : n ≤ vmUtf8CharCount buf) :
    ∃ skipped rest, buf = skipped ++ rest ∧
      skipChars (before ++ buf) n before.length = some (before.length + skipped.length) ∧
      vmUtf8CharCount buf = n + vmUtf8CharCount rest ∧
      ∀ rest', runLength rest' = 0 → vmUtf8CharCount (skipped ++ rest') = n + vmUtf8CharCount rest' := by
  induction n generalizing before buf with
  | zero => exact ⟨[], buf, rfl, rfl, by simp, by simp⟩
  | succ n ih =>
    cases buf with
    | nil => simp at hn
    | cons b0 t =>
      rw [vmUtf8CharCount_cons] at hn
      set width := tailWidth b0 t with hdef
      have hle : width ≤ t.length := tailWidth_le b0 t
      obtain ⟨skipped, rest, hsplit, hskip, hcount, hsame⟩ :=
        ih (before ++ b0 :: t.take width) (t.drop width) (by omega)
      have hdecode : (vmUtf8Decode (before ++ b0 :: t) before.length).2 = before.length + (1 + width) := by
        rw [vmUtf8Decode_drop, List.drop_left' rfl, vmUtf8Decode_width]
      have hfirst : (before ++ b0 :: t.take width).length = before.length + (1 + width) := by
        rw [List.length_append, List.length_cons, List.length_take]
        omega
      rw [List.append_assoc, List.cons_append, List.take_append_drop, hfirst] at hskip
      have hrun (rest : List UInt8) : runLength (t.take width ++ rest) = width + runLength rest :=
        runLength_take_append t (Nat.min_le_right _ _) rest
      refine ⟨b0 :: (t.take width ++ skipped), rest, ?_, ?_, ?_, fun rest' hrest' => ?_⟩
      · rw [List.cons_append, List.append_assoc, ← hsplit, List.take_append_drop]
      · rw [skipChars, if_neg (by simp), hdecode, hskip]
        simp
        omega
      · rw [vmUtf8CharCount_cons, ← hdef, hcount]
        omega
      · have hwidth : tailWidth b0 (t.take width ++ (skipped ++ rest')) = width := by
          have hold : width = min (expected b0) (width + runLength (skipped ++ rest)) := by
            rw [← hsplit, ← hrun, List.take_append_drop]
            rfl
          have hstart : width < expected b0 → runLength (skipped ++ rest') = 0 := by
            intro hlt
            have hzero : runLength (skipped ++ rest) = 0 := by omega
            cases skipped with
            | nil => exact hrest'
            | cons b skipped =>
              rw [List.cons_append, runLength_cons] at hzero ⊢
              split_ifs at hzero ⊢
              rfl
          have hexpected : width ≤ expected b0 := Nat.min_le_left _ _
          rw [tailWidth, hrun]
          omega
        rw [List.cons_append, List.append_assoc, vmUtf8CharCount_cons, hwidth,
          List.drop_left' (by rw [List.length_take]; omega), hsame rest' hrest']
        omega

/-! ## Encoding -/

/-- Every code point is written as some scalar value. -/
lemma exists_encodeChar (cp : ℤ) : ∃ c, vmUtf8Encode cp = encodeChar c := by
  by_cases hinvalid : cp < 0 ∨ (0xD800 ≤ cp ∧ cp ≤ 0xDFFF) ∨ 0x10FFFF < cp
  · refine ⟨'\uFFFD', ?_⟩
    unfold vmUtf8Encode
    rw [if_pos hinvalid]
    decide
  · have hvalid : cp.toNat.isValidChar := by
      unfold Nat.isValidChar
      omega
    refine ⟨Char.ofNatAux cp.toNat hvalid, ?_⟩
    have hcode : ((Char.ofNatAux cp.toNat hvalid).toNat : ℤ) = cp := by
      have hnat : (Char.ofNatAux cp.toNat hvalid).toNat = cp.toNat := rfl
      omega
    rw [encodeChar, hcode]

lemma exists_bytes (cps : List ℤ) : ∃ xs : List Char, xs.length = cps.length ∧ cps.flatMap vmUtf8Encode = bytes xs := by
  induction cps with
  | nil => exact ⟨[], rfl, rfl⟩
  | cons cp cps ih =>
    obtain ⟨c, hc⟩ := exists_encodeChar cp
    obtain ⟨xs, hlength, hbytes⟩ := ih
    refine ⟨c :: xs, by rw [List.length_cons, List.length_cons, hlength], ?_⟩
    rw [List.flatMap_cons, hc, hbytes]
    rfl

lemma vmUtf8CharCount_encoded (cps : List ℤ) : vmUtf8CharCount (cps.flatMap vmUtf8Encode) = cps.length := by
  obtain ⟨xs, hlength, hbytes⟩ := exists_bytes cps
  rw [hbytes, vmUtf8CharCount_bytes, hlength]

/-- The encoding of a code point starts a character and is one. -/
lemma vmUtf8CharCount_encode_append (cp : ℤ) (rest : List UInt8) :
    runLength (vmUtf8Encode cp ++ rest) = 0 ∧
      vmUtf8CharCount (vmUtf8Encode cp ++ rest) = 1 + vmUtf8CharCount rest := by
  obtain ⟨c, hc⟩ := exists_encodeChar cp
  obtain ⟨b, t, hword, hlead, -⟩ := selfSynchronizing_encodeChar.head c
  have hdecode := congrArg Prod.snd (vmUtf8Decode_encodeChar [] rest c)
  rw [List.nil_append, List.length_nil, Nat.zero_add, hword, List.cons_append, vmUtf8Decode_width] at hdecode
  rw [hc, hword, List.cons_append, runLength_cons, vmUtf8CharCount_cons]
  refine ⟨if_neg (by rw [isContinuation, decide_eq_true_iff]; exact hlead), ?_⟩
  rw [List.length_cons] at hdecode
  rw [show tailWidth b (t ++ rest) = t.length by dsimp only at hdecode; omega, List.drop_left' rfl, Nat.add_comm]

lemma wellFormed_new (data : List UInt8) : (vmStringNew data).WellFormed := rfl

lemma wellFormed_fromList (cps : List ℤ) : (vmStringFromList cps).WellFormed := by
  unfold vmStringFromList
  split_ifs
  · exact wellFormed_new []
  · exact (vmUtf8CharCount_encoded cps).symm

lemma fits_new {data : List UInt8} {block : Block} (hblock : block ∈ newBlocks data) : block.Fits := by
  rw [List.mem_singleton.1 hblock]
  exact le_refl _

lemma fits_fromList {cps : List ℤ} {block : Block} (hblock : block ∈ fromListBlocks cps) : block.Fits := by
  unfold fromListBlocks at hblock
  split_ifs at hblock
  · exact fits_new hblock
  · rw [List.mem_singleton.1 hblock, Block.Fits, List.length_flatMap]

lemma length_decodeFrom (buf : List UInt8) (n pos : ℕ) : (decodeFrom buf n pos).length = n := by
  induction n generalizing pos with
  | zero => rfl
  | succ n ih => rw [decodeFrom, List.length_cons, ih]

lemma fits_toList {s : VmString} {block : Block} (hblock : block ∈ toListBlocks s) : block.Fits := by
  unfold toListBlocks at hblock
  split_ifs at hblock
  · exact absurd hblock List.not_mem_nil
  · rw [List.mem_singleton.1 hblock]
    exact (length_decodeFrom _ _ _).le

/-! ## Changing case -/

/-- The code points of any bytes, with the bytes that each takes. -/
def characters : List UInt8 → List (ℤ × ℕ)
  | [] => []
  | b0 :: t => ((vmUtf8Decode (b0 :: t) 0).1, 1 + tailWidth b0 t) :: characters (t.drop (tailWidth b0 t))
termination_by buf => buf.length
decreasing_by exact length_drop_lt_cons b0 t _

/-- The numbers of bytes of the characters that are decoded to the replacement character. -/
def replacedWidths (buf : List UInt8) : List ℕ :=
  ((characters buf).filter fun character => character.1 = vmUnicodeReplacement).map Prod.snd

lemma length_characters (buf : List UInt8) : (characters buf).length = vmUtf8CharCount buf := by
  induction buf using charInduction with
  | nil => rw [characters, vmUtf8CharCount_nil, List.length_nil]
  | cons b0 t ih => rw [characters, List.length_cons, vmUtf8CharCount_cons, ih]

lemma recodeFrom_of_lt {recase : ℤ → ℤ} {buf out : List UInt8} {pos : ℕ} (hpos : pos < buf.length) :
    recodeFrom recase buf pos out =
      recodeFrom recase buf (vmUtf8Decode buf pos).2 (out ++ vmUtf8Encode (recase (vmUtf8Decode buf pos).1)) := by
  rw [recodeFrom, dif_pos hpos]

lemma recodeFrom_eq (recase : ℤ → ℤ) (buf : List UInt8) (pos : ℕ) (out : List UInt8) :
    recodeFrom recase buf pos out =
      out ++ (characters (buf.drop pos)).flatMap fun character => vmUtf8Encode (recase character.1) := by
  induction hn : buf.length - pos using Nat.strong_induction_on generalizing pos out with
  | _ n ih =>
    by_cases hpos : pos < buf.length
    · have hdrop : buf.drop pos = buf[pos] :: buf.drop (pos + 1) := List.drop_eq_getElem_cons hpos
      have hwidth := vmUtf8Decode_width buf[pos] (buf.drop (pos + 1))
      have hnext := @vmUtf8Decode_drop buf pos
      rw [← hdrop] at hwidth
      rw [hwidth] at hnext
      rw [recodeFrom_of_lt hpos, hnext]
      dsimp only
      rw [ih _ (by omega) _ _ rfl, hdrop, characters, ← hdrop, List.flatMap_cons, List.append_assoc, List.drop_drop,
        ← Nat.add_assoc]
    · rw [recodeFrom, dif_neg hpos, List.drop_eq_nil_iff.2 (by omega), characters, List.flatMap_nil, List.append_nil]

/-- Six more bits for every continuation byte. -/
lemma continuationBytes_lt {buf : List UInt8} {expect cp pos cp' pos' : ℕ}
    (hread : continuationBytes buf expect cp pos = (some cp', pos')) : cp' < (cp + 1) * 64 ^ expect := by
  induction expect generalizing cp pos with
  | zero =>
    obtain rfl : cp = cp' := Option.some.inj (Prod.mk.inj hread).1
    omega
  | succ expect ih =>
    unfold continuationBytes at hread
    cases hbyte : buf[pos]? with
    | none =>
      rw [hbyte] at hread
      exact absurd (Prod.mk.inj hread).1 (Option.some_ne_none cp').symm
    | some c =>
      rw [hbyte] at hread
      dsimp only at hread
      split_ifs at hread with hcont
      · exact absurd (Prod.mk.inj hread).1 (Option.some_ne_none cp').symm
      · have hbits : (c &&& 0x3F).toNat < 64 := by
          rw [UInt8.toNat_and]
          exact Nat.and_lt_two_pow _ (by decide : (0x3F : UInt8).toNat < 2 ^ 6)
        have hlt := ih hread
        rw [shiftLeft_or cp hbits] at hlt
        calc cp' < (cp * 64 + (c &&& 0x3F).toNat + 1) * 64 ^ expect := hlt
          _ ≤ ((cp + 1) * 64) * 64 ^ expect := Nat.mul_le_mul_right _ (by omega)
          _ = (cp + 1) * 64 ^ (expect + 1) := by rw [Nat.mul_assoc, ← Nat.pow_succ']

lemma checkedCodePoint_valid {expect cp : ℕ} (hvalid : checkedCodePoint expect cp ≠ vmUnicodeReplacement) :
    checkedCodePoint expect cp = cp ∧ (expect = 1 → 0x80 ≤ cp) ∧ (expect = 2 → 0x800 ≤ cp) ∧
      (expect = 3 → 0x10000 ≤ cp) ∧ ¬ (0xD800 ≤ cp ∧ cp ≤ 0xDFFF) ∧ cp ≤ 0x10FFFF := by
  unfold checkedCodePoint at hvalid ⊢
  split_ifs at hvalid ⊢ <;> first | exact absurd rfl hvalid | exact ⟨rfl, by omega, by omega, by omega, by omega, by omega⟩

/-- The number of bytes that a code point in range is written in. -/
lemma length_vmUtf8Encode {n : ℕ} (hsurrogate : ¬ (0xD800 ≤ n ∧ n ≤ 0xDFFF)) (hrange : n ≤ 0x10FFFF) :
    (vmUtf8Encode n).length = if n < 0x80 then 1 else if n < 0x800 then 2 else if n < 0x10000 then 3 else 4 := by
  unfold vmUtf8Encode
  rw [if_neg (by omega)]
  split_ifs <;> first | rfl | omega

/-- A character that is not replaced is written in as many bytes as it took. -/
lemma length_encode_decoded {b0 : UInt8} {t : List UInt8}
    (hvalid : (vmUtf8Decode (b0 :: t) 0).1 ≠ vmUnicodeReplacement) :
    (vmUtf8Encode (vmUtf8Decode (b0 :: t) 0).1).length = 1 + tailWidth b0 t := by
  -- after a lead byte for `expect` more bytes
  have htail {expect cp : ℕ} (hexpect : expect = 1 ∨ expect = 2 ∨ expect = 3) (hcp : (cp + 1) * 64 ^ expect ≤
      if expect = 1 then 0x800 else if expect = 2 then 0x10000 else 0x200000)
      (hvalid : (decodeTail (b0 :: t) expect cp 1).1 ≠ vmUnicodeReplacement) :
      (vmUtf8Encode (decodeTail (b0 :: t) expect cp 1).1).length = 1 + min expect (runLength t) := by
    have hnone := (@continuationBytes_eq (b0 :: t) expect cp 1).2
    rw [List.drop_one, List.tail_cons] at hnone
    unfold decodeTail at hvalid ⊢
    rcases hread : continuationBytes (b0 :: t) expect cp 1 with ⟨_ | cp', pos'⟩
    · rw [hread] at hvalid
      exact absurd rfl hvalid
    · rw [hread] at hvalid hnone
      have hrun : ¬ runLength t < expect := fun hlt => Option.some_ne_none cp' (hnone.2 hlt)
      have hlt := continuationBytes_lt hread
      obtain ⟨hsame, hone, htwo, hthree, hsurrogate, hrange⟩ := checkedCodePoint_valid hvalid
      dsimp only
      rw [hsame, length_vmUtf8Encode hsurrogate hrange, Nat.min_eq_left (not_lt.1 hrun)]
      rcases hexpect with rfl | rfl | rfl
      · have hlow := hone rfl
        rw [if_pos rfl] at hcp
        rw [if_neg (by omega), if_pos (by omega)]
      · have hlow := htwo rfl
        rw [if_neg (by decide), if_pos rfl] at hcp
        rw [if_neg (by omega), if_neg (by omega), if_pos (by omega)]
      · have hlow := hthree rfl
        rw [if_neg (by omega), if_neg (by omega), if_neg (by omega)]
  have hmask (mask : UInt8) (n : ℕ) (hmask : mask.toNat < 2 ^ n) : (b0 &&& mask).toNat < 2 ^ n := by
    rw [UInt8.toNat_and]
    exact Nat.and_lt_two_pow _ hmask
  have hfive := hmask 0x1F 5 (by decide)
  have hfour := hmask 0x0F 4 (by decide)
  have hthree := hmask 0x07 3 (by decide)
  unfold vmUtf8Decode at hvalid ⊢
  unfold tailWidth expected
  simp only [List.getElem?_cons_zero] at hvalid ⊢
  split_ifs at hvalid ⊢ with hascii
  · have hbyte : b0.toNat < 0x80 := hascii
    rw [length_vmUtf8Encode (by omega) (by omega), if_pos hbyte, Nat.zero_min]
  · exact absurd rfl hvalid
  · exact htail (.inl rfl) (by rw [if_pos rfl]; omega) hvalid
  · exact htail (.inr (.inl rfl)) (by rw [if_neg (by decide), if_pos rfl]; omega) hvalid
  · exact htail (.inr (.inr rfl)) (by rw [if_neg (by decide), if_neg (by decide)]; omega) hvalid
  · exact absurd rfl hvalid

/-- Changing the case of a letter keeps the number of its bytes. -/
lemma length_encode_recase (cp : ℤ) : (vmUtf8Encode (upcaseCode cp)).length = (vmUtf8Encode cp).length ∧
    (vmUtf8Encode (downcaseCode cp)).length = (vmUtf8Encode cp).length := by
  have hascii {n : ℤ} (hlow : 0 ≤ n) (hhigh : n < 0x80) : (vmUtf8Encode n).length = 1 := by
    obtain ⟨k, rfl⟩ := Int.eq_ofNat_of_zero_le hlow
    rw [length_vmUtf8Encode (by omega) (by omega), if_pos (by omega)]
  unfold upcaseCode downcaseCode
  constructor
  · split_ifs
    · rw [hascii (by omega) (by omega), hascii (by omega) (by omega)]
    · rfl
  · split_ifs
    · rw [hascii (by omega) (by omega), hascii (by omega) (by omega)]
    · rfl

/-- What a string takes when all its characters are written again: three bytes for each replaced one. -/
lemma length_recoded {recase : ℤ → ℤ} (hrecase : ∀ cp, (vmUtf8Encode (recase cp)).length = (vmUtf8Encode cp).length)
    (buf : List UInt8) :
    (recodeFrom recase buf 0 []).length + (replacedWidths buf).sum = buf.length + 3 * (replacedWidths buf).length := by
  rw [recodeFrom_eq, List.drop_zero, List.nil_append]
  unfold replacedWidths
  induction buf using charInduction with
  | nil => rw [characters]; rfl
  | cons b0 t ih =>
    have hle := tailWidth_le b0 t
    rw [List.length_drop] at ih
    rw [characters, List.flatMap_cons, List.length_append, List.length_cons, hrecase]
    by_cases hreplaced : (vmUtf8Decode (b0 :: t) 0).1 = vmUnicodeReplacement
    · have hthree : (vmUtf8Encode vmUnicodeReplacement).length = 3 := by decide
      rw [List.filter_cons_of_pos (by simpa using hreplaced), List.map_cons, List.sum_cons, List.length_cons]
      dsimp only
      rw [hreplaced, hthree]
      omega
    · have hlength := length_encode_decoded hreplaced
      rw [List.filter_cons_of_neg (by simpa using hreplaced)]
      dsimp only
      rw [hlength]
      omega

/-! ## The other operations -/

/-- The segments are new strings, as many as the first pass has counted. -/
lemma splitFrom_spec (buf : List UInt8) (delimCp : ℤ) (segStart pos segments : ℕ) :
    (∀ s ∈ splitFrom buf delimCp segStart pos, s.WellFormed) ∧
      (splitFrom buf delimCp segStart pos).length + segments = countDelims buf delimCp pos (segments + 1) := by
  induction hn : buf.length - pos using Nat.strong_induction_on generalizing segStart pos segments with
  | _ n ih =>
    by_cases hpos : pos < buf.length
    · have hnext := lt_vmUtf8Decode hpos
      rw [splitFrom_of_lt hpos, countDelims, dif_pos hpos]
      split_ifs with hdelim
      · obtain ⟨hwell, hcount⟩ := ih _ (by omega) (vmUtf8Decode buf pos).2 (vmUtf8Decode buf pos).2 (segments + 1) rfl
        refine ⟨fun s hs => ?_, by rw [← hcount, List.length_cons]; omega⟩
        rcases List.mem_cons.1 hs with rfl | hs
        · exact wellFormed_new _
        · exact hwell s hs
      · exact ih _ (by omega) segStart (vmUtf8Decode buf pos).2 segments rfl
    · rw [splitFrom_of_le (by omega), countDelims, dif_neg hpos]
      exact ⟨fun s hs => List.mem_singleton.1 hs ▸ wellFormed_new _, Nat.add_comm _ _⟩

/-- Setting a character of a well-formed string gives one, inside the block. -/
lemma ok_set {s : VmString} (hs : s.WellFormed) (idx cp : ℤ) : (StringCall.set s idx cp).Ok := by
  by_cases hrange : idx < 0 ∨ s.charLen ≤ idx
  · have hnone : vmStringSet s idx cp = none := if_pos hrange
    simp [StringCall.Ok, StringCall.results, StringCall.blocks, hnone]
  obtain ⟨n, rfl⟩ := Int.eq_ofNat_of_zero_le (show 0 ≤ idx by omega)
  have hn : n < vmUtf8CharCount s.data := by
    rw [← hs]
    omega
  obtain ⟨skipped, rest, hsplit, hskip, hcount, hsame⟩ := skipChars_split [] s.data hn.le
  rw [List.nil_append, List.length_nil, Nat.zero_add] at hskip
  have hoffset : vmUtf8ByteOffset s.data n = some skipped.length := hskip
  cases rest with
  | nil =>
    rw [vmUtf8CharCount_nil] at hcount
    omega
  | cons b0 t =>
    have hend : (vmUtf8Decode s.data skipped.length).2 = skipped.length + (1 + tailWidth b0 t) := by
      rw [vmUtf8Decode_drop, hsplit, List.drop_left' rfl, vmUtf8Decode_width]
    have hdrop : s.data.drop (skipped.length + (1 + tailWidth b0 t)) = t.drop (tailWidth b0 t) := by
      rw [hsplit, List.drop_append, List.drop_eq_nil_iff.2 (by omega), List.nil_append, Nat.add_sub_cancel_left,
        Nat.add_comm 1, List.drop_succ_cons]
    have htake : s.data.take skipped.length = skipped := by rw [hsplit, List.take_left' rfl]
    have hlength : s.data.length = skipped.length + (1 + t.length) := by
      rw [hsplit, List.length_append, List.length_cons, Nat.add_comm 1]
    have hinside := tailWidth_le b0 t
    obtain ⟨hrun, hone⟩ := vmUtf8CharCount_encode_append cp (t.drop (tailWidth b0 t))
    have hset : vmStringSet s n cp =
        some ⟨skipped ++ vmUtf8Encode cp ++ t.drop (tailWidth b0 t), s.charLen⟩ := by
      unfold vmStringSet
      rw [if_neg hrange, hoffset]
      dsimp only
      rw [hend, hdrop, htake]
    simp only [StringCall.Ok, StringCall.results, StringCall.blocks, hset, hoffset, hend]
    constructor
    · intro s' hs'
      rw [Option.toList_some, List.mem_singleton] at hs'
      rw [hs', VmString.WellFormed, List.append_assoc, hsame _ hrun, hone, hs, hcount, vmUtf8CharCount_cons]
      omega
    · intro block hblock
      rw [List.mem_singleton.1 hblock, Block.Fits]
      dsimp only
      omega

/-- Nothing continues a character that is over. -/
def Continues (done next : List UInt8) : Prop := missing done ≠ 0 ∧ runLength next ≠ 0

lemma vmUtf8CharCount_append_eq_iff (a b : List UInt8) :
    vmUtf8CharCount a + vmUtf8CharCount b = vmUtf8CharCount (a ++ b) ↔ ¬ Continues a b := by
  have happend := vmUtf8CharCount_append a b
  unfold Continues
  omega

/-- No piece continues a character of those before it. -/
def JoinsCleanly (done : List UInt8) : List (List UInt8) → Prop
  | [] => True
  | piece :: pieces => ¬ Continues done piece ∧ JoinsCleanly (done ++ piece) pieces

lemma sum_charCount_eq_iff (done : List UInt8) (pieces : List (List UInt8)) :
    vmUtf8CharCount (done ++ pieces.flatten) ≤ vmUtf8CharCount done + (pieces.map vmUtf8CharCount).sum ∧
      (vmUtf8CharCount done + (pieces.map vmUtf8CharCount).sum = vmUtf8CharCount (done ++ pieces.flatten) ↔
        JoinsCleanly done pieces) := by
  induction pieces generalizing done with
  | nil => simp [JoinsCleanly]
  | cons piece pieces ih =>
    obtain ⟨hle, heq⟩ := ih (done ++ piece)
    have happend := vmUtf8CharCount_append done piece
    have hiff := vmUtf8CharCount_append_eq_iff done piece
    rw [List.flatten_cons, ← List.append_assoc, List.map_cons, List.sum_cons]
    refine ⟨by omega, ?_⟩
    rw [JoinsCleanly, ← heq, ← hiff]
    omega

/-- The strings that `vm_string_join` copies, one after the other. -/
def joinPieces (sep : Option VmString) : List (Option VmString) → List VmString
  | [] => []
  | part :: parts => part.toList ++ parts.flatMap fun part => sep.toList ++ part.toList

lemma joinRest_eq (sep : Option VmString) (parts : List (Option VmString)) (result : VmString) :
    joinRest sep parts result =
      ⟨result.data ++ ((parts.flatMap fun part => sep.toList ++ part.toList).map VmString.data).flatten,
        result.charLen + ((parts.flatMap fun part => sep.toList ++ part.toList).map VmString.charLen).sum⟩ := by
  have hjoined (result : VmString) (part : Option VmString) : joined result part =
      ⟨result.data ++ (part.toList.map VmString.data).flatten, result.charLen + (part.toList.map VmString.charLen).sum⟩ := by
    cases part <;> simp [joined]
  induction parts generalizing result with
  | nil => simp [joinRest]
  | cons part parts ih =>
    rw [joinRest, ih, hjoined, hjoined, List.flatMap_cons]
    simp [Nat.add_assoc]

/-- A join of at least two parts. -/
lemma vmStringJoin_eq (first second : Option VmString) (parts : List (Option VmString)) (sep : Option VmString) :
    vmStringJoin (first :: second :: parts) sep =
      some ⟨((joinPieces sep (first :: second :: parts)).map VmString.data).flatten,
        ((joinPieces sep (first :: second :: parts)).map VmString.charLen).sum⟩ := by
  show some (joinRest sep (second :: parts) (joined ⟨[], 0⟩ first)) = _
  rw [joinRest_eq]
  cases first <;> simp [joined, joinPieces]

lemma mem_args_of_mem_joinPieces {s : VmString} {parts : List (Option VmString)} {sep : Option VmString}
    (hs : s ∈ joinPieces sep parts) : s ∈ (StringCall.join parts sep).args := by
  rw [StringCall.args, List.mem_append]
  cases parts with
  | nil => exact absurd hs List.not_mem_nil
  | cons part parts =>
    rcases List.mem_append.1 hs with hs | hs
    · exact .inl (List.mem_filterMap.2 ⟨part, List.mem_cons_self, Option.mem_toList.1 hs⟩)
    · obtain ⟨next, hnext, hs⟩ := List.mem_flatMap.1 hs
      rcases List.mem_append.1 hs with hs | hs
      · exact .inr hs
      · exact .inl (List.mem_filterMap.2 ⟨next, List.mem_cons_of_mem _ hnext, Option.mem_toList.1 hs⟩)

/-- The size that was computed is that of the pieces. -/
lemma joinSize_eq (part : Option VmString) (parts : List (Option VmString)) (sep : Option VmString) :
    joinSize (part :: parts) sep = ((joinPieces sep (part :: parts)).map VmString.data).flatten.length := by
  have hlength (part : Option VmString) :
      (part.map fun part => part.data.length).getD 0 = (part.toList.map VmString.data).flatten.length := by
    cases part <;> simp
  unfold joinSize joinPieces
  rw [hlength, List.map_cons, List.sum_cons, hlength, List.length_cons, Nat.add_sub_cancel, List.map_append,
    List.flatten_append, List.length_append]
  induction parts with
  | nil => simp
  | cons next parts ih =>
    rw [List.map_cons, List.sum_cons, List.length_cons, List.flatMap_cons, hlength, List.map_append, List.map_append,
      List.flatten_append, List.flatten_append, List.length_append, List.length_append, Nat.mul_add]
    omega

/-- No continuation byte stands where a character starts. -/
def NoStray : List UInt8 → Prop
  | [] => True
  | b0 :: t => isContinuation b0 = false ∧ NoStray (t.drop (tailWidth b0 t))
termination_by buf => buf.length
decreasing_by exact length_drop_lt_cons b0 t _

lemma countP_lead_drop_run (buf : List UInt8) {n : ℕ} (hn : n ≤ runLength buf) :
    (buf.countP fun b => b &&& 0xC0 ≠ 0x80) = (buf.drop n).countP fun b => b &&& 0xC0 ≠ 0x80 := by
  have hcount (b : UInt8) (t : List UInt8) (hcont : isContinuation b = true) :
      ((b :: t).countP fun b => b &&& 0xC0 ≠ 0x80) = t.countP fun b => b &&& 0xC0 ≠ 0x80 :=
    List.countP_cons_of_neg (by simpa [isContinuation] using hcont)
  induction n generalizing buf with
  | zero => rw [List.drop_zero]
  | succ n ih =>
    obtain ⟨b, t, rfl, hcont, hn⟩ := runLength_succ hn
    rw [hcount b t hcont, List.drop_succ_cons]
    exact ih t hn

/-- The bytes that continue nothing start the characters, but for the stray ones. -/
lemma countP_lead_eq_iff (buf : List UInt8) :
    (buf.countP fun b => b &&& 0xC0 ≠ 0x80) ≤ vmUtf8CharCount buf ∧
      ((buf.countP fun b => b &&& 0xC0 ≠ 0x80) = vmUtf8CharCount buf ↔ NoStray buf) := by
  induction buf using charInduction with
  | nil => simp [NoStray]
  | cons b0 t ih =>
    obtain ⟨hle, heq⟩ := ih
    have hsplit := countP_lead_drop_run t (Nat.min_le_right (expected b0) (runLength t))
    rw [NoStray, ← heq, List.countP_cons, vmUtf8CharCount_cons, hsplit]
    by_cases hcont : b0 &&& 0xC0 = 0x80
    · have hstray : isContinuation b0 = true := decide_eq_true hcont
      rw [if_neg (by simpa using hcont), hstray]
      exact ⟨Nat.le_succ_of_le hle, iff_of_false (by unfold tailWidth at hle ⊢; omega) (fun h => Bool.noConfusion h.1)⟩
    · have hlead : isContinuation b0 = false := decide_eq_false hcont
      rw [if_pos (by simpa using hcont), hlead]
      exact ⟨Nat.succ_le_succ hle, by rw [Nat.add_right_cancel_iff, eq_self_iff_true, true_and]; rfl⟩

/-! ## All calls -/

/-- No bytes of different strings make one character, no continuation byte is stray, and the replaced characters took
as many bytes as the replacement takes. -/
def StringCall.Clean : StringCall → Prop
  | append (some a) (some b) => ¬ Continues a.data b.data
  | upcase s | downcase s => 3 * (replacedWidths s.data).length ≤ (replacedWidths s.data).sum
  | join (first :: second :: parts) sep =>
    JoinsCleanly [] ((joinPieces sep (first :: second :: parts)).map VmString.data)
  | utf8ToString bv start stop => NoStray (byteRange bv start stop)
  | _ => True

/-- Where the one result is a new string and its block is the one of `vm_string_new`, all is well. -/
lemma ok_of_new {call : StringCall} {data : List UInt8} (hresults : call.results = [vmStringNew data])
    (hblocks : call.blocks = newBlocks data) : call.Ok := by
  constructor
  · intro s hs
    rw [hresults, List.mem_singleton] at hs
    exact hs ▸ wellFormed_new data
  · intro block hblock
    rw [hblocks] at hblock
    exact fits_new hblock

lemma ok_recoded {call : StringCall} {s : VmString} {recase : ℤ → ℤ} (hs : s.WellFormed)
    (hrecase : ∀ cp, (vmUtf8Encode (recase cp)).length = (vmUtf8Encode cp).length)
    (hresults : call.results = [recoded recase s])
    (hblocks : call.blocks = dataBlock s.data.length (recoded recase s).data.length) :
    call.Ok ↔ 3 * (replacedWidths s.data).length ≤ (replacedWidths s.data).sum := by
  have hwell : (recoded recase s).WellFormed := by
    unfold VmString.WellFormed recoded
    rw [recodeFrom_eq, List.nil_append, List.drop_zero, hs, ← length_characters]
    have hcount := vmUtf8CharCount_encoded ((characters s.data).map fun character => recase character.1)
    rw [List.flatMap_map, List.length_map] at hcount
    exact hcount.symm
  have hlength := length_recoded hrecase s.data
  unfold StringCall.Ok Block.Fits
  rw [hresults, hblocks, dataBlock, List.forall_mem_singleton, List.forall_mem_singleton]
  refine ⟨fun hok => ?_, fun hclean => ⟨hwell, ?_⟩⟩
  · have hfits := hok.2
    unfold recoded at hfits
    dsimp only at hfits
    omega
  · unfold recoded
    dsimp only
    omega

/-- Appending is right unless bytes of both strings make up one character. -/
lemma ok_append {a b : Option VmString} (hargs : ∀ s ∈ (StringCall.append a b).args, s.WellFormed) :
    (StringCall.append a b).Ok ↔ (StringCall.append a b).Clean := by
  have hblock : (StringCall.append a b).blocks =
      newBlocks (vmStringAppend a b).data := by
    cases a <;> cases b <;> simp [StringCall.blocks, newBlocks, vmStringAppend, vmStringNew]
  have hfits : ∀ block ∈ (StringCall.append a b).blocks, block.Fits := by
    rw [hblock]
    exact fun _ => fits_new
  cases a with
  | none =>
    cases b <;> exact iff_of_true (ok_of_new rfl hblock) trivial
  | some a =>
    cases b with
    | none => exact iff_of_true (ok_of_new rfl hblock) trivial
    | some b =>
      have ha : a.WellFormed := hargs a (by simp [StringCall.args])
      have hb : b.WellFormed := hargs b (by simp [StringCall.args])
      have hjoin := vmUtf8CharCount_append_eq_iff a.data b.data
      rw [← ha, ← hb] at hjoin
      refine Iff.trans ?_ hjoin
      show (∀ s ∈ [vmStringAppend (some a) (some b)], s.WellFormed) ∧ _ ↔ _
      rw [List.forall_mem_singleton, and_iff_left hfits]
      rfl

lemma ok_make (n cp : ℤ) : (StringCall.make n cp).Ok := by
  have hmake : vmStringMake n cp = vmStringNew (List.replicate n.toNat (vmUtf8Encode cp)).flatten := by
    unfold vmStringMake
    split_ifs with hn
    · rw [Int.toNat_of_nonpos hn]
      rfl
    · have hcount := vmUtf8CharCount_encoded (List.replicate n.toNat cp)
      rw [List.flatMap_def, List.map_replicate, List.length_replicate] at hcount
      rw [vmStringNew, hcount]
  refine ok_of_new (congrArg (fun s => [s]) hmake) ?_
  show dataBlock (n.toNat * (vmUtf8Encode cp).length) (vmStringMake n cp).data.length = _
  rw [hmake, newBlocks, vmStringNew]
  simp

lemma ok_reverse (s : VmString) : (StringCall.reverse s).Ok := by
  refine ⟨fun s' hs' => ?_, fun block hblock => ?_⟩
  · rw [List.mem_singleton.1 hs']
    unfold vmStringReverse
    split_ifs
    · exact wellFormed_new _
    · exact wellFormed_fromList _
  · simp only [StringCall.blocks] at hblock
    split_ifs at hblock
    · exact fits_new hblock
    · exact (List.mem_append.1 hblock).elim fits_toList fits_fromList

lemma ok_trim (s : Option VmString) : (StringCall.trim s).Ok := by
  refine ⟨fun s' hs' => ?_, fun block hblock => ?_⟩
  · rw [List.mem_singleton.1 hs']
    cases s with
    | none => exact wellFormed_new []
    | some s =>
      unfold vmStringTrim
      dsimp only
      split_ifs
      · exact wellFormed_new []
      · exact wellFormed_fromList _
  · cases s with
    | none => exact fits_new hblock
    | some s =>
      simp only [StringCall.blocks] at hblock
      split_ifs at hblock
      · exact fits_new hblock
      · exact (List.mem_append.1 hblock).elim fits_toList fits_fromList

lemma ok_split (s : VmString) (delimCp : ℤ) : (StringCall.split s delimCp).Ok := by
  obtain ⟨hwell, hcount⟩ := splitFrom_spec s.data delimCp 0 0 0
  refine ⟨fun s' hs' => ?_, fun block hblock => ?_⟩
  · simp only [StringCall.results, vmStringSplit] at hs'
    split_ifs at hs'
    · exact absurd hs' List.not_mem_nil
    · exact hwell s' hs'
  · simp only [StringCall.blocks, vmStringSplit] at hblock
    split_ifs at hblock
    · exact absurd hblock List.not_mem_nil
    · rcases List.mem_cons.1 hblock with rfl | hblock
      · exact hcount.le
      · obtain ⟨part, -, hpart⟩ := List.mem_flatMap.1 hblock
        exact fits_new hpart

/-- The same for joining. -/
lemma ok_join {parts : List (Option VmString)} {sep : Option VmString}
    (hargs : ∀ s ∈ (StringCall.join parts sep).args, s.WellFormed) :
    (StringCall.join parts sep).Ok ↔ (StringCall.join parts sep).Clean := by
  match parts with
  | [] => exact iff_of_true (ok_of_new rfl rfl) trivial
  | [none] => exact iff_of_true ⟨fun _ hs => absurd hs List.not_mem_nil, fun _ hb => absurd hb List.not_mem_nil⟩ trivial
  | [some part] => exact iff_of_true (ok_of_new rfl rfl) trivial
  | first :: second :: parts =>
    have hpieces : ∀ s ∈ joinPieces sep (first :: second :: parts), s.WellFormed := by
      intro s hs
      exact hargs s (mem_args_of_mem_joinPieces hs)
    have hcounts : (joinPieces sep (first :: second :: parts)).map VmString.charLen =
        ((joinPieces sep (first :: second :: parts)).map VmString.data).map vmUtf8CharCount := by
      rw [List.map_map]
      exact List.map_congr_left hpieces
    have hclean := (sum_charCount_eq_iff [] ((joinPieces sep (first :: second :: parts)).map VmString.data)).2
    rw [vmUtf8CharCount_nil, Nat.zero_add, List.nil_append, ← hcounts] at hclean
    have hjoin := vmStringJoin_eq first second parts sep
    have hfits : ∀ block ∈ (StringCall.join (first :: second :: parts) sep).blocks, block.Fits := by
      intro block hblock
      simp only [StringCall.blocks, hjoin, Option.map_some, Option.getD_some] at hblock
      rw [joinSize_eq] at hblock
      rw [List.mem_singleton.1 hblock]
      exact le_refl _
    refine Iff.trans ?_ hclean
    show (∀ s ∈ (vmStringJoin (first :: second :: parts) sep).toList, s.WellFormed) ∧ _ ↔ _
    rw [hjoin, Option.toList_some, List.forall_mem_singleton, and_iff_left hfits]
    rfl

lemma ok_replace (s : VmString) (old repl : Option VmString) : (StringCall.replace s old repl).Ok := by
  have hlength (s : Option VmString) : ((s.map VmString.data).getD []).length =
      (s.map fun s => s.data.length).getD 0 := by
    cases s <;> rfl
  set oldData := (old.map VmString.data).getD []
  set newData := (repl.map VmString.data).getD []
  -- either a copy of the string, or the new bytes in it
  have hcases : vmStringReplace s old repl = vmStringNew s.data ∧
        (StringCall.replace s old repl).blocks = newBlocks s.data ∨
      ∃ i, vmStringReplace s old repl =
          vmStringNew (s.data.take i ++ newData ++ s.data.drop (i + oldData.length)) ∧
        (StringCall.replace s old repl).blocks = dataBlock
          (i + newData.length + (s.data.length - (i + oldData.length))) (vmStringReplace s old repl).data.length := by
    simp only [StringCall.blocks, ← hlength]
    by_cases hold : oldData.length = 0
    · refine .inl ⟨if_pos hold, ?_⟩
      split
      · exact if_pos hold
      · rfl
    · have hreplace : vmStringReplace s old repl =
          (findBytes s.data oldData (s.data.length + 1 - oldData.length) 0).elim (vmStringCopy s) fun i =>
            vmStringNew (s.data.take i ++ newData ++ s.data.drop (i + oldData.length)) := by
        refine (if_neg hold).trans ?_
        cases findBytes s.data oldData (s.data.length + 1 - oldData.length) 0 with
        | none => rfl
        | some i => rfl
      cases hfind : findBytes s.data oldData (s.data.length + 1 - oldData.length) 0 with
      | none =>
        rw [hfind] at hreplace
        exact .inl ⟨hreplace, rfl⟩
      | some i =>
        rw [hfind] at hreplace
        exact .inr ⟨i, hreplace, if_neg hold⟩
  obtain ⟨hresult, hblocks⟩ | ⟨i, hresult, hblocks⟩ := hcases
  · exact ok_of_new (congrArg (fun s => [s]) hresult) hblocks
  · refine ⟨fun s' hs' => ?_, fun block hblock => ?_⟩
    · rw [List.mem_singleton.1 hs', hresult]
      exact wellFormed_new _
    · rw [hblocks, hresult] at hblock
      rw [List.mem_singleton.1 hblock]
      simp [Block.Fits, vmStringNew]
      omega

/-- The exact condition of each call. -/
lemma ok_iff_clean {call : StringCall} (hargs : ∀ s ∈ call.args, s.WellFormed) : call.Ok ↔ call.Clean := by
  cases call with
  | new data => exact iff_of_true (ok_of_new rfl rfl) trivial
  | fromCstr cstr => exact iff_of_true (ok_of_new rfl rfl) trivial
  | set s idx cp => exact iff_of_true (ok_set (hargs s (List.mem_singleton_self s)) idx cp) trivial
  | substring s start stop =>
    have hnew : ∃ data, vmStringSubstring s start stop = vmStringNew data := by
      unfold vmStringSubstring
      dsimp only
      split_ifs <;> exact ⟨_, rfl⟩
    obtain ⟨data, hdata⟩ := hnew
    refine iff_of_true (ok_of_new (congrArg (fun s => [s]) hdata) ?_) trivial
    show newBlocks (vmStringSubstring s start stop).data = _
    rw [hdata]
    rfl
  | append a b => exact ok_append hargs
  | upcase s => exact ok_recoded (hargs s (List.mem_singleton_self s)) (fun cp => (length_encode_recase cp).1) rfl rfl
  | downcase s => exact ok_recoded (hargs s (List.mem_singleton_self s)) (fun cp => (length_encode_recase cp).2) rfl rfl
  | copy s => exact iff_of_true (ok_of_new rfl rfl) trivial
  | fromList cps =>
    exact iff_of_true ⟨fun s hs => List.mem_singleton.1 hs ▸ wellFormed_fromList cps, fun _ => fits_fromList⟩ trivial
  | make n cp => exact iff_of_true (ok_make n cp) trivial
  | reverse s => exact iff_of_true (ok_reverse s) trivial
  | trim s => exact iff_of_true (ok_trim s) trivial
  | split s delimCp => exact iff_of_true (ok_split s delimCp) trivial
  | join parts sep => exact ok_join hargs
  | replace s old repl => exact iff_of_true (ok_replace s old repl) trivial
  | integerToChar cp => exact iff_of_true (ok_of_new rfl rfl) trivial
  | utf8ToString bv start stop =>
    have hcount := (countP_lead_eq_iff (byteRange bv start stop)).2
    have hfits : ∀ block ∈ newBlocks (byteRange bv start stop), block.Fits := fun _ => fits_new
    show (∀ s ∈ [vmBvUtf8ToString bv start stop], s.WellFormed) ∧ _ ↔ NoStray _
    rw [List.forall_mem_singleton, ← hcount]
    exact and_iff_left hfits

/-- The strings that calls make from such strings. -/
inductive Built : VmString → Prop
  | result (call : StringCall) (s : VmString) (hs : s ∈ call.results) (hargs : ∀ s ∈ call.args, Built s)
    (hclean : call.Clean) : Built s

/-- Every string that the VM builds is well formed. -/
lemma Built.wellFormed {s : VmString} (h : Built s) : s.WellFormed := by
  induction h with
  | result call s hs _ hclean ih => exact ((ok_iff_clean ih).2 hclean).1 s hs

/-- On well-formed strings a call returns such strings and stays inside its blocks exactly where the bytes meet
cleanly; so the strings that such calls build are well formed. -/
theorem string_calls_ok_iff (call : StringCall) :
    ((∀ s ∈ call.args, s.WellFormed) → (call.Ok ↔ call.Clean)) ∧ ∀ s, Built s → s.WellFormed :=
  ⟨ok_iff_clean, fun _ => Built.wellFormed⟩

/-- `é`, of two bytes, and `a`. -/
def accented : VmString := vmStringAppend (some (vmStringNew [0xC3, 0xA9])) (some (vmStringNew [0x61]))

theorem string_calls_ok_accented :
    (StringCall.upcase accented).Ok ∧ (vmStringUpcase accented).WellFormed := by
  have hnew : ∀ data, Built (vmStringNew data) := fun data =>
    .result (.new data) _ List.mem_cons_self (by simp [StringCall.args]) trivial
  have happend : Built accented := by
    refine .result (.append (some (vmStringNew [0xC3, 0xA9])) (some (vmStringNew [0x61]))) _ List.mem_cons_self
      (by simp [StringCall.args, hnew]) ?_
    rintro ⟨-, hcontinues⟩
    exact absurd hcontinues (by decide)
  have hwidths : replacedWidths accented.data = [] := by
    show replacedWidths [0xC3, 0xA9, 0x61] = []
    have htail : List.drop (tailWidth 0xC3 [0xA9, 0x61]) [0xA9, 0x61] = ([0x61] : List UInt8) := by decide
    rw [replacedWidths, characters, htail, characters, List.drop_nil, characters]
    decide
  have hclean : (StringCall.upcase accented).Clean := by
    show 3 * (replacedWidths accented.data).length ≤ (replacedWidths accented.data).sum
    rw [hwidths]
    exact le_refl _
  have hwell := (string_calls_ok_iff (.upcase accented)).2
  refine ⟨((string_calls_ok_iff (.upcase accented)).1 (by simp [StringCall.args, hwell _ happend])).2 hclean,
    hwell _ (.result (.upcase accented) _ List.mem_cons_self (by simp [StringCall.args, happend]) hclean)⟩
/-- Two halves of a character become one character that is counted twice, and an invalid byte becomes three. -/
theorem string_calls_fail :
    ¬ (StringCall.append (some (vmStringNew [0xE2, 0x82])) (some (vmStringNew [0xAC]))).Ok ∧
      ¬ (StringCall.upcase (vmStringNew [0xFF])).Ok := by
  constructor
  · rw [ok_iff_clean (by simp [StringCall.args, wellFormed_new])]
    refine not_not.2 ⟨?_, by decide⟩
    show missing [0xE2, 0x82] ≠ 0
    rw [missing, if_pos (by decide)]
    decide
  · rw [ok_iff_clean (by simp [StringCall.args, wellFormed_new])]
    have hcharacters : replacedWidths [0xFF] = [1] := by
      unfold replacedWidths
      rw [characters, List.drop_nil, characters]
      decide
    show ¬ 3 * (replacedWidths [0xFF]).length ≤ (replacedWidths [0xFF]).sum
    rw [hcharacters]
    decide

end Vm.Strings
