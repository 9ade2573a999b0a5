import Eshkol.Scheme.Datum
import Mathlib.Data.List.TakeWhile

/-!
# Reading a file line by line

A file is its bytes, each of them as the character of its code. There are no zero bytes in it.
-/

namespace Scheme

/-- The bytes that one call of `fgets` may store: the scratch buffer of `read-line` has 1024, and
the last is for the terminator. -/
def lineRoom : ℕ := 1023

/-- `fgets`: the bytes up to a newline and with it, or as many as there is room for, and what is
left of the file. -/
def fgets : ℕ → Text → Text × Text
  | 0, s => ([], s)
  | _ + 1, [] => ([], [])
  | room + 1, c :: s =>
    if c = '\n' then (['\n'], s) else (c :: (fgets room s).1, (fgets room s).2)

/-- A line without the newline at its end. -/
def stripNewline (line : Text) : Text :=
  if line.getLast? = some '\n' then line.dropLast else line

/-- `read-line`, and what is left of the file. -/
def readLine (s : Text) : Option (Text × Text) :=
  if s = [] then none
  else some (stripNewline (fgets lineRoom s).1, (fgets lineRoom s).2)

lemma length_fgets_le (room : ℕ) (s : Text) : (fgets room s).2.length ≤ s.length := by
  induction room generalizing s with
  | zero => exact Nat.le_refl _
  | succ room ih =>
    cases s with
    | nil => exact Nat.le_refl _
    | cons c s =>
      rw [fgets]
      split
      · exact Nat.le_succ _
      · exact Nat.le_succ_of_le (ih s)

lemma length_readLine_lt {s line rest : Text} (h : readLine s = some (line, rest)) :
    rest.length < s.length := by
  cases s with
  | nil => cases h
  | cons c s =>
    rw [readLine, if_neg (List.cons_ne_nil c s), lineRoom, fgets] at h
    obtain ⟨-, rfl⟩ := Prod.mk.inj (Option.some.inj h)
    split
    · exact Nat.lt_succ_self _
    · exact Nat.lt_succ_of_le (length_fgets_le 1022 s)

/-- What a loop reads that calls `read-line` until the end of the file. -/
def fileLines (s : Text) : List Text :=
  match h : readLine s with
  | none => []
  | some (line, rest) =>
    have := length_readLine_lt h
    line :: fileLines rest
termination_by s.length

/-! ## Lines that fit -/

lemma fileLines_nil : fileLines [] = [] := by
  rw [fileLines]
  rfl

lemma fileLines_of_readLine {s line rest : Text} (h : readLine s = some (line, rest)) :
    fileLines s = line :: fileLines rest := by
  rw [fileLines]
  split
  · rename_i h'
    rw [h] at h'
    cases h'
  · rename_i line' rest' h'
    rw [h] at h'
    obtain ⟨rfl, rfl⟩ := Prod.mk.inj (Option.some.inj h')
    rfl

variable {line rest : Text}

lemma fgets_newline {room : ℕ} (hline : '\n' ∉ line) (hroom : line.length < room) :
    fgets room (line ++ '\n' :: rest) = (line ++ ['\n'], rest) := by
  induction line generalizing room with
  | nil =>
    obtain ⟨room, rfl⟩ := Nat.exists_eq_succ_of_ne_zero (Nat.ne_of_gt hroom)
    rfl
  | cons c line ih =>
    obtain ⟨room, rfl⟩ := Nat.exists_eq_succ_of_ne_zero (Nat.ne_of_gt (Nat.zero_lt_of_lt hroom))
    have hc : c ≠ '\n' := fun h => hline (h ▸ List.mem_cons_self)
    have ih' := ih (fun h => hline (List.mem_cons_of_mem c h)) (Nat.lt_of_succ_lt_succ hroom)
    rw [List.cons_append, fgets, if_neg hc, ih']
    rfl

lemma fgets_full (hline : '\n' ∉ line) : fgets line.length (line ++ rest) = (line, rest) := by
  induction line with
  | nil => rfl
  | cons c line ih =>
    have hc : c ≠ '\n' := fun h => hline (h ▸ List.mem_cons_self)
    rw [List.cons_append, List.length_cons, fgets, if_neg hc,
      ih fun h => hline (List.mem_cons_of_mem c h)]

lemma fgets_eof {room : ℕ} (hline : '\n' ∉ line) (hroom : line.length ≤ room) :
    fgets room line = (line, []) := by
  induction line generalizing room with
  | nil => cases room <;> rfl
  | cons c line ih =>
    obtain ⟨room, rfl⟩ := Nat.exists_eq_succ_of_ne_zero (Nat.ne_of_gt (Nat.zero_lt_of_lt hroom))
    have hc : c ≠ '\n' := fun h => hline (h ▸ List.mem_cons_self)
    rw [fgets, if_neg hc, ih (fun h => hline (List.mem_cons_of_mem c h)) (Nat.le_of_succ_le_succ hroom)]

lemma stripNewline_of_notMem (hline : '\n' ∉ line) : stripNewline line = line := by
  rw [stripNewline, if_neg]
  exact fun h => hline (List.mem_of_getLast? h)

/-- A line that fits is read, and whether it takes up all the room decides what is left. -/
lemma readLine_newline (hline : '\n' ∉ line) (hfits : line.length ≤ lineRoom) :
    readLine (line ++ '\n' :: rest) =
      some (line, if line.length = lineRoom then '\n' :: rest else rest) := by
  have hne : line ++ '\n' :: rest ≠ [] := by simp
  rw [readLine, if_neg hne]
  by_cases hfull : line.length = lineRoom
  · rw [if_pos hfull, ← hfull, fgets_full hline, stripNewline_of_notMem hline]
  · rw [if_neg hfull, fgets_newline hline (by omega), stripNewline]
    simp

/-- The lines of a file that are not empty. -/
def fullLines (s : Text) : List Text := (fileLines s).filter (· ≠ [])

lemma fullLines_nil : fullLines [] = [] := by
  rw [fullLines, fileLines_nil]
  rfl

/-- A line that fits is read first, whatever comes after it. -/
lemma fullLines_cons (hne : line ≠ []) (hline : '\n' ∉ line) (hfits : line.length ≤ lineRoom) :
    fullLines (line ++ '\n' :: rest) = line :: fullLines rest := by
  rw [fullLines, fileLines_of_readLine (readLine_newline hline hfits)]
  rw [List.filter_cons_of_pos (by simpa using hne)]
  congr 1
  split
  · -- what is left is the newline, and it is read as an empty line
    have hread : readLine ('\n' :: rest) = some ([], rest) := rfl
    rw [fileLines_of_readLine hread, List.filter_cons_of_neg (by simp)]
    rfl
  · rfl

/-- What comes after the last newline is a line too. -/
lemma fullLines_last (hne : line ≠ []) (hline : '\n' ∉ line) (hfits : line.length ≤ lineRoom) :
    fullLines line = [line] := by
  have hread : readLine line = some (line, []) := by
    rw [readLine, if_neg hne, fgets_eof hline hfits, stripNewline_of_notMem hline]
  rw [fullLines, fileLines_of_readLine hread, fileLines_nil, List.filter_cons_of_pos (by simpa using hne)]
  rfl

/-- A file of lines that fit. -/
lemma fullLines_append {lines : List Text}
    (h : ∀ l ∈ lines, l ≠ [] ∧ '\n' ∉ l ∧ l.length ≤ lineRoom) (rest : Text) :
    fullLines (lines.flatMap (· ++ ['\n']) ++ rest) = lines ++ fullLines rest := by
  induction lines with
  | nil => rfl
  | cons l lines ih =>
    obtain ⟨hne, hnewline, hfits⟩ := h l List.mem_cons_self
    have ih' := ih fun l' hl' => h l' (List.mem_cons_of_mem l hl')
    rw [List.flatMap_cons, List.append_assoc, List.append_assoc, List.singleton_append,
      fullLines_cons hne hnewline hfits, ih', List.cons_append]

end Scheme
