import Eshkol.Scheme.Datum
import Eshkol.Scheme.Primitives

/-!
# Indexing strings

A native string is its bytes in UTF-8. `string-ref` walks past the first byte of the character before
the one it is asked for, and decodes from the next byte on: where that character has more bytes, this
is one of them.
-/

namespace Scheme

/-! ## Bytes -/

/-- A character of more than one byte. -/
def isWide (c : Char) : Bool := 128 ≤ c.toNat

/-- The bytes of the character of a code from 128 on. -/
def wideBytes (cp : ℕ) : List ℕ :=
  if cp < 2048 then [192 + cp / 64, 128 + cp % 64]
  else if cp < 65536 then [224 + cp / 4096, 128 + cp % 4096 / 64, 128 + cp % 4096 % 64]
  else [240 + cp / 262144, 128 + cp % 262144 / 4096, 128 + cp % 262144 % 4096 / 64,
    128 + cp % 262144 % 4096 % 64]

/-- The bytes of a character in UTF-8. -/
def utf8Char (c : Char) : List ℕ := if isWide c then wideBytes c.toNat else [c.toNat]

/-- The bytes of a string in UTF-8. -/
def utf8 (s : Text) : List ℕ := s.flatMap utf8Char

/-- Whether a byte goes on a character. -/
def isContinuation (b : ℕ) : Bool := b / 64 = 2

/-- The bytes from where the loop of `eshkol_utf8_ref` stops. -/
def walkBytes : ℕ → List ℕ → List ℕ
  | 0, bytes => bytes
  | _ + 1, [] => []
  | k + 1, b :: bytes => if isContinuation b then walkBytes (k + 1) bytes else walkBytes k bytes

/-- `decode_utf8_codepoint`; a zero byte ends the string. -/
def decodeUtf8Codepoint (bytes : List ℕ) : ℕ :=
  let p (i : ℕ) := bytes.getD i 0
  if p 0 < 128 then p 0
  else if p 0 / 32 = 6 then p 0 % 32 * 64 + p 1 % 64
  else if p 0 / 16 = 14 then p 0 % 16 * 4096 + p 1 % 64 * 64 + p 2 % 64
  else if p 0 / 8 = 30 then p 0 % 8 * 262144 + p 1 % 64 * 4096 + p 2 % 64 * 64 + p 3 % 64
  else 0xFFFD

/-- `string-ref`. -/
def stringRef (s : Text) (k : ℕ) : Except SchemeError Char :=
  if k < s.length then .ok (Char.ofNat (decodeUtf8Codepoint (walkBytes k (utf8 s))))
  else raise "string-ref: index out of bounds" []

/-- `(make-string 1 ch)`: the code is cut down to one byte. -/
def makeString1 (code : ℕ) : List ℕ := [code % 256]

/-! ## What is read at the positions -/

/-- The characters of a string as `string-ref` gives them, after a character of several bytes or
not. -/
def seenFrom : Bool → Text → Text
  | _, [] => []
  | afterWide, c :: s => (if afterWide then '\uFFFD' else c) :: seenFrom (isWide c) s

/-- The characters that `string-ref` gives. -/
def seen (s : Text) : Text := seenFrom false s

@[simp]
lemma length_seenFrom (afterWide : Bool) (s : Text) : (seenFrom afterWide s).length = s.length := by
  induction s generalizing afterWide with
  | nil => rfl
  | cons c s ih => rw [seenFrom, List.length_cons, ih, List.length_cons]

@[simp]
lemma length_seen (s : Text) : (seen s).length = s.length := length_seenFrom false s

lemma toNat_lt (c : Char) : c.toNat < 1114112 := by
  have hvalid := c.valid
  simp only [UInt32.isValidChar, Nat.isValidChar] at hvalid
  show c.val.toNat < 1114112
  omega

/-- A first byte, and bytes that go on. -/
lemma wideBytes_eq_cons {cp : ℕ} (hlow : 128 ≤ cp) (hhigh : cp < 1114112) :
    ∃ b b₂ rest, wideBytes cp = b :: b₂ :: rest ∧ 194 ≤ b ∧ b < 245 ∧
      (∀ x ∈ b₂ :: rest, 128 ≤ x ∧ x < 192) ∧
      ∀ t, decodeUtf8Codepoint (wideBytes cp ++ t) = cp := by
  unfold wideBytes
  split_ifs with h2 h3
  · refine ⟨_, _, _, rfl, by omega, by omega, by simp; omega, fun t => ?_⟩
    simp only [decodeUtf8Codepoint, List.cons_append, List.getD_cons_zero, List.getD_cons_succ]
    rw [if_neg (by omega), if_pos (by omega)]
    omega
  · refine ⟨_, _, _, rfl, by omega, by omega, by simp; omega, fun t => ?_⟩
    simp only [decodeUtf8Codepoint, List.cons_append, List.getD_cons_zero, List.getD_cons_succ]
    rw [if_neg (by omega), if_neg (by omega), if_pos (by omega)]
    omega
  · refine ⟨_, _, _, rfl, by omega, by omega, by simp; omega, fun t => ?_⟩
    simp only [decodeUtf8Codepoint, List.cons_append, List.getD_cons_zero, List.getD_cons_succ]
    rw [if_neg (by omega), if_neg (by omega), if_neg (by omega), if_pos (by omega)]
    omega

/-- Bytes that go on a character are skipped. -/
lemma walkBytes_continuation {bytes : List ℕ} (h : ∀ x ∈ bytes, 128 ≤ x ∧ x < 192) (k : ℕ)
    (t : List ℕ) : walkBytes (k + 1) (bytes ++ t) = walkBytes (k + 1) t := by
  induction bytes with
  | nil => rfl
  | cons b bytes ih =>
    have hb := h b List.mem_cons_self
    rw [List.cons_append, walkBytes, if_pos (by simp [isContinuation]; omega),
      ih fun x hx => h x (List.mem_cons_of_mem _ hx)]

/-- The walk to the next character but one. -/
lemma walkBytes_utf8_cons (k : ℕ) (c : Char) (s : Text) :
    walkBytes (k + 2) (utf8 (c :: s)) = walkBytes (k + 1) (utf8 s) := by
  rw [utf8, List.flatMap_cons, utf8Char, ← utf8]
  split_ifs with hwide
  · obtain ⟨b, b₂, rest, hbytes, hb, -, hrest, -⟩ :=
      wideBytes_eq_cons (of_decide_eq_true hwide) (toNat_lt c)
    rw [hbytes, List.cons_append, walkBytes, if_neg (by simp [isContinuation]; omega),
      walkBytes_continuation hrest]
  · have hcode : c.toNat < 128 := by simpa [isWide] using hwide
    rw [List.singleton_append, walkBytes, if_neg (by simp [isContinuation]; omega)]

/-- What is decoded at the first position, and at the second one. -/
lemma decode_walkBytes_zero (c : Char) (s : Text) :
    decodeUtf8Codepoint (walkBytes 0 (utf8 (c :: s))) = c.toNat := by
  rw [walkBytes, utf8, List.flatMap_cons, utf8Char]
  split_ifs with hwide
  · obtain ⟨-, -, -, -, -, -, -, hdecode⟩ :=
      wideBytes_eq_cons (of_decide_eq_true hwide) (toNat_lt c)
    exact hdecode _
  · have hcode : c.toNat < 128 := by simpa [isWide] using hwide
    simp [decodeUtf8Codepoint, hcode]

lemma decode_walkBytes_one (c d : Char) (s : Text) :
    decodeUtf8Codepoint (walkBytes 1 (utf8 (c :: d :: s))) =
      if isWide c then 0xFFFD else d.toNat := by
  rw [utf8, List.flatMap_cons, utf8Char, ← utf8]
  split_ifs with hwide
  · obtain ⟨b, b₂, rest, hbytes, hb, -, hrest, -⟩ :=
      wideBytes_eq_cons (of_decide_eq_true hwide) (toNat_lt c)
    have hb₂ := hrest b₂ List.mem_cons_self
    rw [hbytes, List.cons_append, walkBytes, if_neg (by simp [isContinuation]; omega), walkBytes]
    simp only [decodeUtf8Codepoint, List.cons_append, List.getD_cons_zero]
    rw [if_neg (by omega), if_neg (by omega), if_neg (by omega), if_neg (by omega)]
  · have hcode : c.toNat < 128 := by simpa [isWide] using hwide
    rw [List.singleton_append, walkBytes, if_neg (by simp [isContinuation]; omega)]
    exact decode_walkBytes_zero d s

lemma getElem?_seen {s : Text} {k : ℕ} (hk : k < s.length) :
    (seen s)[k]? = some (Char.ofNat (decodeUtf8Codepoint (walkBytes k (utf8 s)))) := by
  induction s generalizing k with
  | nil => cases hk
  | cons c s ih =>
    match k, s with
    | 0, s =>
      rw [decode_walkBytes_zero, Char.ofNat_toNat]
      rfl
    | 1, [] => simp at hk
    | 1, d :: s =>
      rw [decode_walkBytes_one, apply_ite Char.ofNat, Char.ofNat_toNat]
      rfl
    | k + 2, [] => simp at hk
    | k + 2, d :: s =>
      rw [walkBytes_utf8_cons, ← ih (k := k + 1) (by simpa using hk)]
      rfl

/-- `string-ref` in terms of the characters it gives. -/
lemma stringRef_eq_ok {s : Text} {k : ℕ} {c : Char} :
    stringRef s k = .ok c ↔ (seen s)[k]? = some c := by
  unfold stringRef raise
  split_ifs with hk
  · rw [getElem?_seen hk]
    simp
  · rw [List.getElem?_eq_none (by rw [length_seen]; omega)]
    simp

lemma stringRef_of_le {s : Text} {k : ℕ} (h : s.length ≤ k) :
    stringRef s k = raise "string-ref: index out of bounds" [] := if_neg (by omega)

/-- Characters of one byte are read as they are, and so is the one after them. -/
lemma seen_append {s : Text} (h : ∀ c ∈ s, isWide c = false) (t : Text) :
    seen (s ++ t) = s ++ seen t := by
  rw [seen]
  induction s with
  | nil => rfl
  | cons c s ih =>
    have hrest := ih fun d hd => h d (List.mem_cons_of_mem _ hd)
    rw [List.cons_append, seenFrom, h c List.mem_cons_self, hrest]
    rfl

lemma seen_eq_self {s : Text} (h : ∀ c ∈ s, isWide c = false) : seen s = s := by
  have happend := seen_append h []
  have hnil : seen [] = [] := rfl
  rwa [List.append_nil, hnil, List.append_nil] at happend

/-- A string is read as it is exactly when only U+FFFD follows a character of several bytes. -/
lemma seen_eq_self_iff {s : Text} :
    seen s = s ↔ s.IsChain fun c d => isWide c = true → d = '\uFFFD' := by
  have hfrom (c : Char) (s : Text) : seenFrom (isWide c) s = s ↔
      (c :: s).IsChain fun c d => isWide c = true → d = '\uFFFD' := by
    induction s generalizing c with
    | nil => simp [seenFrom]
    | cons d s ih =>
      rw [seenFrom, List.cons.injEq, ih, List.isChain_cons_cons]
      refine and_congr_left fun _ => ?_
      cases isWide c with
      | false => simp
      | true => simp [eq_comm]
  cases s with
  | nil => simp [seen, seenFrom]
  | cons c s =>
    rw [seen, seenFrom, List.cons.injEq, hfrom]
    simp

lemma utf8_eq_map {s : Text} (h : ∀ c ∈ s, isWide c = false) : utf8 s = s.map Char.toNat := by
  rw [utf8, List.map_eq_flatMap]
  refine List.flatMap_congr fun c hc => ?_
  rw [utf8Char, h c hc]
  rfl

/-- A string has as many bytes as characters exactly when each is of one byte. -/
lemma length_utf8_eq_iff {s : Text} :
    s.length ≤ (utf8 s).length ∧ ((utf8 s).length = s.length ↔ ∀ c ∈ s, isWide c = false) := by
  induction s with
  | nil => simp [utf8]
  | cons c s ih =>
    obtain ⟨hle, hiff⟩ := ih
    rw [List.forall_mem_cons, ← hiff, utf8, List.flatMap_cons, List.length_append, ← utf8, utf8Char,
      List.length_cons]
    cases hwide : isWide c with
    | false =>
      simp
      omega
    | true =>
      obtain ⟨b, b₂, rest, hbytes, -⟩ := wideBytes_eq_cons (of_decide_eq_true hwide) (toNat_lt c)
      simp only [if_true, hbytes, List.length_cons, Bool.true_eq_false, false_and, iff_false]
      omega

/-- A text of one-byte characters stands at the front of a string where it is read there. -/
lemma prefix_seen_iff {w : Text} (hw : ∀ c ∈ w, isWide c = false) {s : Text} :
    w <+: seen s ↔ w <+: s := by
  rw [seen]
  induction w generalizing s with
  | nil => simp
  | cons c w ih =>
    cases s with
    | nil => simp [seenFrom]
    | cons d s =>
      rw [seenFrom, if_neg (by decide), List.cons_prefix_cons, List.cons_prefix_cons]
      refine and_congr_right fun hcd => ?_
      rw [← hcd, hw c List.mem_cons_self, ih fun d hd => hw d (List.mem_cons_of_mem _ hd)]

end Scheme
