import Eshkol.Scheme.Datum
import Mathlib.Data.List.TakeWhile

/-!
# Strings of the library

`string-split`, and the procedures of the string library on it, on strings as lists of characters.
-/

namespace Scheme

/-- The loop of `string-split`: the segment so far, how many characters of a delimiter that was found
are still to be skipped, and the text from the position on. -/
def stringSplitLoop (delim : Text) : Text → ℕ → Text → List Text
  | segment, _, [] => [segment]
  | segment, skip + 1, _ :: rest => stringSplitLoop delim segment skip rest
  | segment, 0, c :: rest =>
    if !delim.isEmpty && delim.isPrefixOf (c :: rest) then
      segment :: stringSplitLoop delim [] (delim.length - 1) rest
    else stringSplitLoop delim (segment ++ [c]) 0 rest

/-- What `strlen` measures of a string: all before the first zero byte. -/
def cString (s : Text) : Text := s.takeWhile (· ≠ '\x00')

/-- `string-split`. -/
def stringSplit (s delim : Text) : List Text := stringSplitLoop (cString delim) [] 0 (cString s)

/-- `string-join`. -/
def stringJoin (strings : List Text) (delim : Text) : Text :=
  match strings with
  | [] => []
  | s :: rest => rest.foldl (fun acc s => acc ++ delim ++ s) s

/-- `string-replace`. -/
def stringReplace (s old new : Text) : Text := stringJoin (stringSplit s old) new

/-- `string-contains?`. -/
def stringContains : Text → Text → Bool
  | [], needle => needle.isEmpty
  | c :: rest, needle => needle.isPrefixOf (c :: rest) || stringContains rest needle

/-! ## Delimiters of one character -/

lemma stringSplitLoop_char (d : Char) (segment s : Text) :
    stringSplitLoop [d] segment 0 s = (s.splitOn d).modifyHead (segment ++ ·) := by
  induction s generalizing segment with
  | nil => simp [stringSplitLoop]
  | cons c s ih =>
    rw [stringSplitLoop, List.splitOn_cons_eq_if_modifyHead]
    by_cases hc : c = d
    · subst hc
      have hrest : stringSplitLoop [c] [] 0 s = s.splitOn c := by
        rw [ih]
        exact congrFun List.modifyHead_id _
      simp [List.isPrefixOf, hrest]
    · have hpre : ([d].isPrefixOf (c :: s)) = false := by
        simp [List.isPrefixOf, Ne.symm hc]
      have hne : (c == d) = false := beq_eq_false_iff_ne.2 hc
      simp only [hpre, hne, Bool.and_false, Bool.false_eq_true, if_false, ih]
      rw [List.modifyHead_modifyHead]
      congr 1
      funext t
      simp

lemma cString_eq_self {s : Text} (h : '\x00' ∉ s) : cString s = s :=
  List.takeWhile_eq_self_iff.2 fun _ hc => decide_eq_true fun heq => h (heq ▸ hc)

lemma stringSplit_char (s : Text) {d : Char} (hd : d ≠ '\x00') :
    stringSplit s [d] = (cString s).splitOn d := by
  have hdelim : cString [d] = [d] := cString_eq_self (by simpa using hd.symm)
  rw [stringSplit, hdelim, stringSplitLoop_char]
  exact congrFun List.modifyHead_id _

lemma stringJoin_eq (strings : List Text) (delim : Text) :
    stringJoin strings delim = delim.intercalate strings := by
  cases strings with
  | nil => rfl
  | cons s rest =>
    have hfold (acc : Text) : rest.foldl (fun acc s => acc ++ delim ++ s) acc =
        delim.intercalate (acc :: rest) := by
      induction rest generalizing acc with
      | nil => simp
      | cons t rest ih =>
        rw [List.foldl_cons, ih, List.intercalate_cons_cons]
        cases rest with
        | nil => simp
        | cons u rest => simp [List.intercalate_cons_cons]
    exact hfold s

/-- Replacing a character acts on each character alone, up to the first zero byte. -/
lemma stringReplace_char (s : Text) {d : Char} (hd : d ≠ '\x00') (new : Text) :
    stringReplace s [d] new = (cString s).flatMap fun c => if c = d then new else [c] := by
  rw [stringReplace, stringSplit_char s hd, stringJoin_eq]
  generalize cString s = s
  induction s with
  | nil => simp
  | cons c s ih =>
    rw [List.splitOn_cons_eq_if_modifyHead, List.flatMap_cons, ← ih]
    obtain ⟨t, ts, hsplit⟩ := List.exists_cons_of_ne_nil (List.splitOn_ne_nil d s)
    rw [hsplit]
    by_cases hc : c = d
    · simp [hc, List.intercalate_cons_cons]
    · rw [if_neg (by simpa using hc), if_neg hc, List.modifyHead_cons]
      cases ts with
      | nil => simp
      | cons u ts => simp [List.intercalate_cons_cons]

lemma stringContains_char (s : Text) (d : Char) : stringContains s [d] = true ↔ d ∈ s := by
  induction s with
  | nil => simp [stringContains]
  | cons c s ih =>
    rw [stringContains, Bool.or_eq_true, ih, List.mem_cons]
    simp [List.isPrefixOf]

end Scheme
