import Eshkol.Vm.StringTheorems
import Mathlib.Data.List.TakeWhile

/-!
# Decoding any bytes

A character takes its first byte and those continuation bytes after it that the first byte asks for. So any bytes
fall apart into characters, well-formed or replaced, and what a character takes depends on what follows only where
the bytes before end inside it.
-/

namespace Vm.Strings

variable {buf : List UInt8}

/-! ## The bytes of one character -/

/-- A continuation byte. -/
def isContinuation (b : UInt8) : Bool := b &&& 0xC0 = 0x80

/-- The number of continuation bytes that a first byte asks for. -/
def expected (b0 : UInt8) : ℕ :=
  if b0 < 0x80 then 0
  else if b0 &&& 0xE0 = 0xC0 then if (b0 &&& 0x1F).toNat < 2 then 0 else 1
  else if b0 &&& 0xF0 = 0xE0 then 2
  else if b0 &&& 0xF8 = 0xF0 then 3
  else 0

/-- The number of continuation bytes at the front. -/
def runLength (buf : List UInt8) : ℕ := (buf.takeWhile isContinuation).length

/-- The continuation bytes of the first character. -/
def tailWidth (b0 : UInt8) (buf : List UInt8) : ℕ := min (expected b0) (runLength buf)

@[simp] lemma runLength_nil : runLength [] = 0 := rfl

lemma runLength_cons (b : UInt8) (buf : List UInt8) :
    runLength (b :: buf) = if isContinuation b then runLength buf + 1 else 0 := by
  unfold runLength
  rw [List.takeWhile_cons]
  split_ifs <;> rfl

lemma runLength_le (buf : List UInt8) : runLength buf ≤ buf.length := (List.takeWhile_prefix _).length_le

/-- The loop stops after the bytes asked for or at the first byte that does not continue. -/
lemma continuationBytes_eq (expect cp pos : ℕ) :
    (continuationBytes buf expect cp pos).2 = pos + min expect (runLength (buf.drop pos)) ∧
      ((continuationBytes buf expect cp pos).1 = none ↔ runLength (buf.drop pos) < expect) := by
  induction expect generalizing cp pos with
  | zero => simp [continuationBytes]
  | succ expect ih =>
    unfold continuationBytes
    cases hbyte : buf[pos]? with
    | none =>
      have hend : buf.drop pos = [] := List.drop_eq_nil_iff.2 (List.getElem?_eq_none_iff.1 hbyte)
      simp [hend]
    | some c =>
      obtain ⟨hpos, hc⟩ := List.getElem?_eq_some_iff.1 hbyte
      rw [List.drop_eq_getElem_cons hpos, hc, runLength_cons]
      by_cases hcont : c &&& 0xC0 = 0x80
      · obtain ⟨hnext, hnone⟩ := ih (cp <<< 6 ||| (c &&& 0x3F).toNat) (pos + 1)
        simp only [hcont, isContinuation, ne_eq, not_true_eq_false, if_false, decide_true, if_true]
        rw [hnext, hnone]
        constructor <;> omega
      · simp [hcont, isContinuation]

/-- Decoding looks at the bytes from its position on. -/
lemma continuationBytes_drop (expect cp p pos : ℕ) :
    continuationBytes buf expect cp (p + pos) =
      ((continuationBytes (buf.drop p) expect cp pos).1, p + (continuationBytes (buf.drop p) expect cp pos).2) := by
  induction expect generalizing cp pos with
  | zero => rfl
  | succ expect ih =>
    unfold continuationBytes
    rw [List.getElem?_drop]
    cases buf[p + pos]? with
    | none => rfl
    | some c =>
      dsimp only
      split_ifs
      · rfl
      · rw [Nat.add_assoc, ih]

lemma vmUtf8Decode_drop (p : ℕ) :
    vmUtf8Decode buf p = ((vmUtf8Decode (buf.drop p) 0).1, p + (vmUtf8Decode (buf.drop p) 0).2) := by
  have htail (expect cp : ℕ) : decodeTail buf expect cp (p + 1) =
      ((decodeTail (buf.drop p) expect cp 1).1, p + (decodeTail (buf.drop p) expect cp 1).2) := by
    unfold decodeTail
    rw [continuationBytes_drop]
    rcases continuationBytes (buf.drop p) expect cp 1 with ⟨_ | _, _⟩ <;> rfl
  unfold vmUtf8Decode
  rw [List.getElem?_drop, Nat.add_zero]
  cases buf[p]? with
  | none => rfl
  | some b0 =>
    dsimp only
    split_ifs <;> first | rfl | exact htail _ _

/-- What the first character takes. -/
lemma vmUtf8Decode_width (b0 : UInt8) (t : List UInt8) :
    (vmUtf8Decode (b0 :: t) 0).2 = 1 + tailWidth b0 t := by
  have htail (expect cp : ℕ) : (decodeTail (b0 :: t) expect cp 1).2 = 1 + min expect (runLength t) := by
    have hnext := (@continuationBytes_eq (b0 :: t) expect cp 1).1
    unfold decodeTail
    rcases hresult : continuationBytes (b0 :: t) expect cp 1 with ⟨_ | _, _⟩ <;> rwa [hresult] at hnext
  unfold vmUtf8Decode tailWidth expected
  simp only [List.getElem?_cons_zero]
  split_ifs <;> simp [htail]

/-- A character of one byte that is not ASCII is replaced. -/
lemma vmUtf8Decode_single {b0 : UInt8} {t : List UInt8} (hhigh : ¬ b0 < 0x80) (hwidth : tailWidth b0 t = 0) :
    (vmUtf8Decode (b0 :: t) 0).1 = vmUnicodeReplacement := by
  have htail (expect cp : ℕ) (hexpect : 0 < expect) (hzero : min expect (runLength t) = 0) :
      (decodeTail (b0 :: t) expect cp 1).1 = vmUnicodeReplacement := by
    have hnone := (@continuationBytes_eq (b0 :: t) expect cp 1).2
    rw [List.drop_one, List.tail_cons] at hnone
    have hresult : (continuationBytes (b0 :: t) expect cp 1).1 = none := hnone.2 (by omega)
    unfold decodeTail
    rcases hpair : continuationBytes (b0 :: t) expect cp 1 with ⟨_ | _, _⟩
    · rfl
    · rw [hpair] at hresult
      exact absurd hresult (Option.some_ne_none _)
  unfold tailWidth expected at hwidth
  unfold vmUtf8Decode
  simp only [List.getElem?_cons_zero]
  split_ifs at hwidth ⊢
  · rfl
  · exact htail 1 _ Nat.one_pos hwidth
  · exact htail 2 _ Nat.two_pos hwidth
  · exact htail 3 _ (by decide) hwidth
  · rfl

lemma tailWidth_le (b0 : UInt8) (t : List UInt8) : tailWidth b0 t ≤ t.length :=
  (Nat.min_le_right _ _).trans (runLength_le t)

/-! ## Characters one after the other -/

lemma length_drop_lt_cons (b : UInt8) (t : List UInt8) (k : ℕ) :
    (t.drop k).length < (b :: t).length := by
  have hdrop : (t.drop k).length = t.length - k := List.length_drop
  have hcons : (b :: t).length = t.length + 1 := List.length_cons
  omega

/-- Induction along the characters of any bytes. -/
lemma charInduction {P : List UInt8 → Prop} (nil : P [])
    (cons : ∀ b0 t, P (t.drop (tailWidth b0 t)) → P (b0 :: t)) : ∀ buf, P buf
  | [] => nil
  | b0 :: t => cons b0 t (charInduction nil cons (t.drop (tailWidth b0 t)))
termination_by buf => buf.length
decreasing_by exact length_drop_lt_cons b0 t _

lemma countFrom_add (buf : List UInt8) (pos count : ℕ) :
    countFrom buf pos count = count + vmUtf8CharCount (buf.drop pos) := by
  induction hn : buf.length - pos using Nat.strong_induction_on generalizing buf pos count with
  | _ n ih =>
    unfold vmUtf8CharCount
    by_cases hpos : pos < buf.length
    · have hdrop : buf.drop pos = buf[pos] :: buf.drop (pos + 1) := List.drop_eq_getElem_cons hpos
      have hwidth := vmUtf8Decode_width buf[pos] (buf.drop (pos + 1))
      rw [← hdrop] at hwidth
      have hnext : (vmUtf8Decode buf pos).2 = pos + (vmUtf8Decode (buf.drop pos) 0).2 :=
        congrArg Prod.snd (vmUtf8Decode_drop pos)
      have hlength : (buf.drop pos).length = buf.length - pos := List.length_drop
      have hrest := ih _ (by omega) buf (vmUtf8Decode buf pos).2 (count + 1) rfl
      have hdropped := ih _ (by omega) (buf.drop pos) (vmUtf8Decode (buf.drop pos) 0).2 1 rfl
      rw [List.drop_drop, ← hnext] at hdropped
      rw [countFrom_of_lt hpos, hrest, @countFrom_of_lt (buf.drop pos) 0 0 (by omega), Nat.zero_add, hdropped]
      omega
    · rw [countFrom_of_le (by omega), countFrom_of_le (by rw [List.length_drop]; omega)]
      rfl

@[simp] lemma vmUtf8CharCount_nil : vmUtf8CharCount [] = 0 := by
  rw [vmUtf8CharCount, countFrom_of_le (le_refl 0)]

lemma vmUtf8CharCount_cons (b0 : UInt8) (t : List UInt8) :
    vmUtf8CharCount (b0 :: t) = vmUtf8CharCount (t.drop (tailWidth b0 t)) + 1 := by
  rw [vmUtf8CharCount, countFrom_of_lt (Nat.succ_pos _), countFrom_add, vmUtf8Decode_width, Nat.add_comm 1 (tailWidth b0 t),
    List.drop_succ_cons, Nat.zero_add, Nat.add_comm]

/-- There are no more characters than bytes. -/
lemma vmUtf8CharCount_le (buf : List UInt8) : vmUtf8CharCount buf ≤ buf.length := by
  induction buf using charInduction with
  | nil => rw [vmUtf8CharCount_nil, List.length_nil]
  | cons b0 t ih =>
    rw [vmUtf8CharCount_cons, List.length_cons]
    rw [List.length_drop] at ih
    omega

/-! ## The inlined operations -/

lemma vmUtf8Decode_ascii {b0 : UInt8} (hascii : b0 < 0x80) (t : List UInt8) :
    vmUtf8Decode (b0 :: t) 0 = ((b0.toNat : ℤ), 1) := by
  unfold vmUtf8Decode
  rw [List.getElem?_cons_zero]
  exact if_pos hascii

lemma tailWidth_ascii {b0 : UInt8} (hascii : b0 < 0x80) (t : List UInt8) : tailWidth b0 t = 0 := by
  unfold tailWidth expected
  rw [if_pos hascii, Nat.zero_min]

/-- An ASCII byte inside a buffer. -/
lemma vmUtf8Decode_ascii_at {b0 : UInt8} (hascii : b0 < 0x80) (before t : List UInt8) :
    vmUtf8Decode (before ++ b0 :: t) before.length = ((b0.toNat : ℤ), before.length + 1) := by
  rw [vmUtf8Decode_drop, List.drop_left' rfl, vmUtf8Decode_ascii hascii]

/-- Over ASCII bytes a character is a byte. -/
lemma skipChars_ascii {ascii : List UInt8} (hascii : ∀ b ∈ ascii, b < 0x80) (before t : List UInt8) :
    skipChars (before ++ (ascii ++ t)) ascii.length before.length = some (before.length + ascii.length) := by
  induction ascii generalizing before with
  | nil => rfl
  | cons b0 ascii ih =>
    have hrest := ih (fun b hb => hascii b (List.mem_cons_of_mem _ hb)) (before ++ [b0])
    rw [List.append_assoc, List.singleton_append, List.length_append, List.length_singleton] at hrest
    rw [List.length_cons, skipChars, if_neg (by simp), List.cons_append,
      vmUtf8Decode_ascii_at (hascii b0 List.mem_cons_self), hrest, Nat.add_assoc, Nat.add_comm 1]

lemma vmUtf8CharCount_ascii {ascii : List UInt8} (hascii : ∀ b ∈ ascii, b < 0x80) (t : List UInt8) :
    vmUtf8CharCount (ascii ++ t) = ascii.length + vmUtf8CharCount t := by
  induction ascii with
  | nil => rw [List.nil_append, List.length_nil, Nat.zero_add]
  | cons b0 ascii ih =>
    have hrest := ih fun b hb => hascii b (List.mem_cons_of_mem _ hb)
    rw [List.cons_append, vmUtf8CharCount_cons, tailWidth_ascii (hascii b0 List.mem_cons_self), List.drop_zero, hrest,
      List.length_cons]
    omega

/-- The character after an ASCII prefix, as native call 551 returns it. -/
lemma nativeStringRef_ascii {ascii : List UInt8} (hascii : ∀ b ∈ ascii, b < 0x80) (b0 : UInt8) (t : List UInt8) :
    nativeStringRef (vmStringNew (ascii ++ b0 :: t)) ascii.length =
      if 0 ≤ (vmUtf8Decode (b0 :: t) 0).1 then (vmUtf8Decode (b0 :: t) 0).1 else 0 := by
  have hcount := vmUtf8CharCount_ascii hascii (b0 :: t)
  rw [vmUtf8CharCount_cons] at hcount
  have hskip := skipChars_ascii hascii [] (b0 :: t)
  rw [List.nil_append, List.length_nil, Nat.zero_add] at hskip
  have href : vmStringRef (vmStringNew (ascii ++ b0 :: t)) ascii.length = (vmUtf8Decode (b0 :: t) 0).1 := by
    unfold vmStringRef vmStringNew vmUtf8ByteOffset
    rw [if_neg (by dsimp only; omega), Int.toNat_natCast, hskip]
    dsimp only
    rw [if_neg (by simp), vmUtf8Decode_drop, List.drop_left' rfl]
  unfold nativeStringRef
  rw [href]

/-- The byte after a prefix, as `STR_REF` returns it. -/
lemma strRef_append (before : List UInt8) (b0 : UInt8) (t : List UInt8) :
    strRef (vmStringNew (before ++ b0 :: t)) before.length = b0.toNat := by
  unfold strRef vmStringNew
  dsimp only
  rw [if_pos (by simp), Int.toNat_natCast, List.getD_eq_getElem?_getD, List.getElem?_append_right (le_refl _),
    Nat.sub_self]
  rfl

/-- Outside the string both leave 0. -/
lemma strRef_outside {s : VmString} (hcount : s.charLen = s.data.length) {i : ℤ}
    (hi : ¬ (0 ≤ i ∧ i < s.data.length)) : strRef s i = 0 ∧ nativeStringRef s i = 0 := by
  have href : vmStringRef s i = -1 := by
    unfold vmStringRef
    rw [hcount, if_pos (by omega)]
  unfold strRef nativeStringRef
  rw [if_neg hi, href]
  exact ⟨rfl, rfl⟩

/-- The inlined operations agree with the native ones on the strings of ASCII characters only. -/
theorem inlined_agree_iff (data : List UInt8) :
    (strLen (vmStringNew data) = vmStringLength (vmStringNew data) ∧
      ∀ i, strRef (vmStringNew data) i = nativeStringRef (vmStringNew data) i) ↔ ∀ b ∈ data, b < 0x80 := by
  constructor
  · rintro ⟨hlength, href⟩
    -- up to the first byte that is not ASCII
    set ascii := data.takeWhile (· < 0x80)
    have hascii : ∀ b ∈ ascii, b < 0x80 := fun b hb => by simpa using List.mem_takeWhile_imp hb
    have hsplit : ascii ++ data.dropWhile (· < 0x80) = data := List.takeWhile_append_dropWhile
    cases hrest : data.dropWhile (· < 0x80) with
    | nil =>
      rw [hrest, List.append_nil] at hsplit
      rwa [← hsplit]
    | cons b0 t =>
      have hhigh : ¬ b0 < 0x80 := by
        have hhead := List.head?_dropWhile_not (· < 0x80) data
        rw [hrest] at hhead
        simpa using hhead
      rw [hrest] at hsplit
      have hcount : data.length = vmUtf8CharCount data := hlength
      rw [← hsplit, vmUtf8CharCount_ascii hascii, vmUtf8CharCount_cons, List.length_append, List.length_cons] at hcount
      have hle := vmUtf8CharCount_le (t.drop (tailWidth b0 t))
      have hwidth := tailWidth_le b0 t
      rw [List.length_drop] at hle
      have hat := href ascii.length
      rw [← hsplit, strRef_append, nativeStringRef_ascii hascii, vmUtf8Decode_single hhigh (by omega)] at hat
      have hbyte := b0.toNat_lt
      rw [if_pos (by decide), vmUnicodeReplacement] at hat
      omega
  · intro hascii
    have hcount := vmUtf8CharCount_ascii hascii []
    rw [List.append_nil, vmUtf8CharCount_nil, Nat.add_zero] at hcount
    refine ⟨hcount.symm, fun i => ?_⟩
    by_cases hi : 0 ≤ i ∧ i < data.length
    · obtain ⟨k, rfl⟩ := Int.eq_ofNat_of_zero_le hi.1
      have hk : k < data.length := by omega
      have hsplit : data.take k ++ data[k] :: data.drop (k + 1) = data := by
        rw [← List.drop_eq_getElem_cons hk, List.take_append_drop]
      have hlength : (data.take k).length = k := by rw [List.length_take]; omega
      have hstr := strRef_append (data.take k) data[k] (data.drop (k + 1))
      have hbefore : ∀ b ∈ data.take k, b < 0x80 := fun b hb => hascii b (List.mem_of_mem_take hb)
      have hnative := nativeStringRef_ascii hbefore data[k] (data.drop (k + 1))
      rw [hsplit, hlength] at hstr hnative
      rw [hstr, hnative, vmUtf8Decode_ascii (hascii _ (List.getElem_mem hk)), if_pos (Int.natCast_nonneg _)]
    · obtain ⟨hstr, hnative⟩ := @strRef_outside (vmStringNew data) hcount i hi
      rw [hstr, hnative]

/-- The length of a string of one accented letter. -/
theorem inlined_differ_on_accent :
    strLen (vmStringFromList [0xE9]) ≠ vmStringLength (vmStringFromList [0xE9]) ∧
      strRef (vmStringFromList [0xE9]) 0 ≠ nativeStringRef (vmStringFromList [0xE9]) 0 := by
  decide

end Vm.Strings
