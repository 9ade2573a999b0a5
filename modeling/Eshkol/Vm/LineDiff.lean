import Eshkol.Base.CommonSubsequence
import Mathlib.Data.List.Basic
import Mathlib.Data.List.GetD

/-!
# Line diffs of the virtual machine

The lines of two texts are compared through a table of common subsequence lengths of their beginnings, filled row by
row, and the script is read off backwards from its last cell.
-/

namespace Vm.LineDiff

/-- The loop of `vm_split_lines`, with the number of rounds left. -/
def splitLinesFrom (data : List UInt8) (cap : ℕ) : ℕ → ℕ → ℕ → List (List UInt8) → Option (List (List UInt8))
  | 0, _, _, out => some out
  | rounds + 1, i, start, out =>
    if i = data.length ∨ data.getD i 0 = 10 then
      if cap ≤ out.length then none
      else splitLinesFrom data cap rounds (i + 1) (i + 1) (out ++ [(data.drop start).take (i - start)])
    else splitLinesFrom data cap rounds (i + 1) start out

/-- `vm_split_lines`; the text is `none` for `NULL`, and the lines are `none` for `-1`. -/
def vmSplitLines (s : Option (List UInt8)) (cap : ℕ) : Option (List (List UInt8)) :=
  match s with
  | none => none
  | some data =>
    if cap = 0 then none
    else if data.length = 0 then some []
    else splitLinesFrom data cap (data.length + 1) 0 0 []

/-- `vm_prefixed_line_value`. -/
def vmPrefixedLineValue (mark : UInt8) (line : List UInt8) : List UInt8 := mark :: line

/-- `MAX_LINES`. -/
def maxLines : ℕ := 256

section

variable (oldLines newLines : List (List UInt8))

/-- The lines before the `i`-th and the `j`-th position are equal. -/
def sameLine (i j : ℕ) : Bool := oldLines.getD (i - 1) [] = newLines.getD (j - 1) []

/-- The position of a cell in `dp`. -/
def cell (i j : ℕ) : ℕ := i * (newLines.length + 1) + j

/-- One round of the inner loop. -/
def fillCell (i : ℕ) (dp : List ℕ) (j : ℕ) : List ℕ :=
  dp.set (cell newLines i j)
    (if sameLine oldLines newLines i j then dp.getD (cell newLines (i - 1) (j - 1)) 0 + 1
    else
      let a := dp.getD (cell newLines (i - 1) j) 0
      let b := dp.getD (cell newLines i (j - 1)) 0
      if b < a then a else b)

/-- One round of the outer loop. -/
def fillRow (dp : List ℕ) (i : ℕ) : List ℕ := (List.range' 1 newLines.length).foldl (fillCell oldLines newLines i) dp

/-- `dp` after both loops. -/
def fillTable : List ℕ :=
  (List.range' 1 oldLines.length).foldl (fillRow oldLines newLines)
    (List.replicate ((oldLines.length + 1) * (newLines.length + 1)) 0)

/-- The walk back through the table. -/
def walkBack (dp : List ℕ) (i j : ℕ) (rev : List (List UInt8)) : List (List UInt8) :=
  if hcell : 0 < i ∨ 0 < j then
    if heq : 0 < i ∧ 0 < j ∧ sameLine oldLines newLines i j then
      walkBack dp (i - 1) (j - 1) (vmPrefixedLineValue 61 (oldLines.getD (i - 1) []) :: rev)
    else if hadd : 0 < j ∧ (i = 0 ∨ dp.getD (cell newLines (i - 1) j) 0 ≤ dp.getD (cell newLines i (j - 1)) 0) then
      walkBack dp i (j - 1) (vmPrefixedLineValue 43 (newLines.getD (j - 1) []) :: rev)
    else walkBack dp (i - 1) j (vmPrefixedLineValue 45 (oldLines.getD (i - 1) []) :: rev)
  else rev
termination_by i + j

end

/-- `vm_diff_lines_value`; `none` is `#f`. -/
def vmDiffLinesValue (oldS newS : Option (List UInt8)) : Option (List (List UInt8)) := do
  let oldLines ← vmSplitLines oldS maxLines
  let newLines ← vmSplitLines newS maxLines
  some (walkBack oldLines newLines (fillTable oldLines newLines) oldLines.length newLines.length [])

end Vm.LineDiff

/-!
## The line diff is a minimal edit script

After the rows have been filled, a cell holds the length of a longest common subsequence of two beginnings. The walk
back keeps as many lines as the cell that it stands on says.
-/

namespace Vm.LineDiff

open CommonSubsequence

/-! ## Lines -/

/-- The lines of a text; the empty text has none. -/
def lines (data : List UInt8) : List (List UInt8) := if data = [] then [] else data.splitOn 10

lemma take_drop_line (before line rest : List UInt8) :
    ((before ++ line ++ rest).drop before.length).take ((before ++ line).length - before.length) = line := by
  rw [List.append_assoc, List.drop_left, List.length_append, Nat.add_sub_cancel_left, List.take_left]

/-- The loop finds the rest of the line that it is in, and the lines behind it. -/
lemma splitLinesFrom_eq (before line rest : List UInt8) (cap : ℕ) (out : List (List UInt8)) :
    splitLinesFrom (before ++ line ++ rest) cap (rest.length + 1) (before ++ line).length before.length out =
      if out.length + (List.splitOnPPrepend (· == 10) rest line.reverse).length ≤ cap then
        some (out ++ List.splitOnPPrepend (· == 10) rest line.reverse)
      else none := by
  induction rest generalizing before line out with
  | nil =>
    have hline := take_drop_line before line []
    rw [List.append_nil] at hline ⊢
    rw [splitLinesFrom, if_pos (Or.inl rfl), List.splitOnPPrepend_nil, List.reverse_reverse, List.length_singleton]
    by_cases hfull : cap ≤ out.length
    · rw [if_pos hfull, if_neg (by omega)]
    · rw [if_neg hfull, if_pos (by omega), List.length_nil, splitLinesFrom, hline]
  | cons byte rest ih =>
    have hbyte : (before ++ line ++ byte :: rest).getD (before ++ line).length 0 = byte := by
      rw [List.getD_append_right _ _ _ _ (le_refl _), Nat.sub_self, List.getD_cons_zero]
    have hinside : (before ++ line).length ≠ (before ++ line ++ byte :: rest).length := by
      simp only [List.length_append, List.length_cons]
      omega
    rw [List.length_cons, splitLinesFrom, hbyte, take_drop_line]
    by_cases hnewline : byte = 10
    · -- the line ends here, and the next one starts behind it
      subst hnewline
      have hrest := ih (before ++ line ++ [10]) [] (out ++ [line])
      simp only [List.append_nil, List.append_assoc, List.singleton_append, List.length_append, List.length_singleton,
        List.reverse_nil, List.splitOnPPrepend_nil_right] at hrest
      rw [if_pos (Or.inr rfl), List.splitOnPPrepend_cons_pos (by rfl), List.reverse_reverse,
        List.length_cons, List.append_assoc, List.length_append]
      by_cases hfull : cap ≤ out.length
      · rw [if_pos hfull, if_neg (by omega)]
      · rw [if_neg hfull, Nat.add_assoc, hrest]
        exact if_congr (by omega) rfl rfl
    · have hrest := ih before (line ++ [byte]) out
      have hshift : before ++ (line ++ [byte]) ++ rest = before ++ line ++ byte :: rest := by simp
      have hposition : (before ++ (line ++ [byte])).length = (before ++ line).length + 1 := by
        rw [← List.append_assoc, List.length_append, List.length_singleton]
      rw [List.reverse_append, List.reverse_singleton, List.singleton_append, hshift, hposition] at hrest
      rw [if_neg (by simp [hnewline]), List.splitOnPPrepend_cons_neg (by simpa using hnewline)]
      exact hrest

/-- Up to the limit all lines are found. -/
lemma vmSplitLines_eq {data : List UInt8} {cap : ℕ} (hcap : 0 < cap) (hlines : (lines data).length ≤ cap) :
    vmSplitLines (some data) cap = some (lines data) := by
  unfold lines at hlines ⊢
  simp only [vmSplitLines]
  rw [if_neg (by omega)]
  by_cases hempty : data = []
  · rw [if_pos (by rw [hempty, List.length_nil]), if_pos hempty]
  · rw [if_neg hempty] at hlines ⊢
    rw [if_neg (by simpa using hempty)]
    have hsplit := splitLinesFrom_eq [] [] data cap []
    simp only [List.nil_append, List.length_nil, Nat.zero_add, List.reverse_nil, List.splitOnPPrepend_nil_right]
      at hsplit
    rw [hsplit]
    exact if_pos hlines

/-! ## The table -/

section

variable (oldLines newLines : List (List UInt8))

/-- The length for the first `i` and the first `j` lines. -/
def prefixLength (i j : ℕ) : ℕ := lcsLength (oldLines.take i).reverse (newLines.take j).reverse

@[simp] lemma prefixLength_zero_left (j : ℕ) : prefixLength oldLines newLines 0 j = 0 := by simp [prefixLength]

@[simp] lemma prefixLength_zero_right (i : ℕ) : prefixLength oldLines newLines i 0 = 0 := by simp [prefixLength]

variable {oldLines newLines}

lemma take_succ_getD {lines : List (List UInt8)} {i : ℕ} (hi : i < lines.length) :
    lines.take (i + 1) = lines.take i ++ [lines.getD i []] := by
  rw [List.take_succ_eq_append_getElem hi, List.getD_eq_getElem?_getD, List.getElem?_eq_getElem hi, Option.getD_some]

lemma take_succ_reverse {lines : List (List UInt8)} {i : ℕ} (hi : i < lines.length) :
    (lines.take (i + 1)).reverse = lines.getD i [] :: (lines.take i).reverse := by
  rw [take_succ_getD hi, List.reverse_append, List.reverse_singleton, List.singleton_append]

/-- The recurrence of the table. -/
lemma prefixLength_succ {i j : ℕ} (hi : i < oldLines.length) (hj : j < newLines.length) :
    prefixLength oldLines newLines (i + 1) (j + 1) =
      if sameLine oldLines newLines (i + 1) (j + 1) then prefixLength oldLines newLines i j + 1
      else max (prefixLength oldLines newLines i (j + 1)) (prefixLength oldLines newLines (i + 1) j) := by
  unfold prefixLength sameLine
  rw [take_succ_reverse hi, take_succ_reverse hj, lcsLength_cons_cons]
  simp only [Nat.add_sub_cancel, decide_eq_true_eq]

/-- All cells before column `j` of row `i` are filled, and the others are still zero. -/
structure FilledTo (oldLines newLines : List (List UInt8)) (i j : ℕ) (dp : List ℕ) : Prop where
  length : dp.length = (oldLines.length + 1) * (newLines.length + 1)
  cells : ∀ i' ≤ oldLines.length, ∀ j' ≤ newLines.length, dp.getD (cell newLines i' j') 0 =
    if i' < i ∨ i' = i ∧ j' ≤ j then prefixLength oldLines newLines i' j' else 0

lemma cell_inj {i j i' j' : ℕ} (hj : j ≤ newLines.length) (hj' : j' ≤ newLines.length)
    (hcell : cell newLines i j = cell newLines i' j') : i = i' ∧ j = j' := by
  unfold cell at hcell
  have hi : i = i' := by
    have hdiv := congrArg (· / (newLines.length + 1)) hcell
    simp only [Nat.add_comm (_ * _), Nat.add_mul_div_right _ _ (Nat.succ_pos newLines.length)] at hdiv
    rwa [Nat.div_eq_of_lt (by omega), Nat.div_eq_of_lt (by omega), Nat.zero_add, Nat.zero_add] at hdiv
  subst hi
  exact ⟨rfl, by omega⟩

lemma cell_lt {i j : ℕ} (hi : i ≤ oldLines.length) (hj : j ≤ newLines.length) :
    cell newLines i j < (oldLines.length + 1) * (newLines.length + 1) := by
  unfold cell
  calc i * (newLines.length + 1) + j < i * (newLines.length + 1) + (newLines.length + 1) := by omega
    _ = (i + 1) * (newLines.length + 1) := (Nat.succ_mul _ _).symm
    _ ≤ (oldLines.length + 1) * (newLines.length + 1) := Nat.mul_le_mul_right _ (by omega)

/-- One cell more. -/
lemma FilledTo.fillCell {i j : ℕ} {dp : List ℕ} (h : FilledTo oldLines newLines (i + 1) j dp)
    (hi : i < oldLines.length) (hj : j < newLines.length) :
    FilledTo oldLines newLines (i + 1) (j + 1) (fillCell oldLines newLines (i + 1) dp (j + 1)) := by
  have hdiagonal := h.cells i (by omega) j (by omega)
  have habove := h.cells i (by omega) (j + 1) (by omega)
  have hleft := h.cells (i + 1) (by omega) j (by omega)
  rw [if_pos (by omega)] at hdiagonal habove hleft
  have hvalue : (if sameLine oldLines newLines (i + 1) (j + 1) then dp.getD (cell newLines i j) 0 + 1
      else if dp.getD (cell newLines (i + 1) j) 0 < dp.getD (cell newLines i (j + 1)) 0 then
        dp.getD (cell newLines i (j + 1)) 0 else dp.getD (cell newLines (i + 1) j) 0) =
      prefixLength oldLines newLines (i + 1) (j + 1) := by
    rw [hdiagonal, habove, hleft, prefixLength_succ hi hj]
    split_ifs <;> omega
  unfold LineDiff.fillCell
  simp only [Nat.add_sub_cancel]
  rw [hvalue]
  refine ⟨by rw [List.length_set, h.length], fun i' hi' j' hj' => ?_⟩
  have hlt := @cell_lt oldLines newLines (i + 1) (j + 1) (by omega) (by omega)
  rw [List.getD_eq_getElem?_getD, List.getElem?_set]
  by_cases hsame : cell newLines (i + 1) (j + 1) = cell newLines i' j'
  · obtain ⟨rfl, rfl⟩ := cell_inj (by omega) hj' hsame
    rw [if_pos rfl, if_pos (by rw [h.length]; exact hlt), if_pos (by omega)]
    rfl
  · have hne : ¬ (i' = i + 1 ∧ j' = j + 1) := by
      rintro ⟨rfl, rfl⟩
      exact hsame rfl
    rw [if_neg hsame, ← List.getD_eq_getElem?_getD, h.cells i' hi' j' hj']
    exact if_congr (by omega) rfl rfl

/-- A whole row more. -/
lemma FilledTo.fillRow {i : ℕ} {dp : List ℕ} (h : FilledTo oldLines newLines i newLines.length dp)
    (hi : i < oldLines.length) :
    FilledTo oldLines newLines (i + 1) newLines.length (fillRow oldLines newLines dp (i + 1)) := by
  have hstart : FilledTo oldLines newLines (i + 1) 0 dp := by
    refine ⟨h.length, fun i' hi' j' hj' => ?_⟩
    rw [h.cells i' hi' j' hj']
    by_cases hfirst : i' = i + 1 ∧ j' = 0
    · obtain ⟨rfl, rfl⟩ := hfirst
      rw [if_neg (by omega), if_pos (by omega), prefixLength_zero_right]
    · exact if_congr (by omega) rfl rfl
  have hcolumns (n : ℕ) (hn : n ≤ newLines.length) : FilledTo oldLines newLines (i + 1) n
      ((List.range' 1 n).foldl (LineDiff.fillCell oldLines newLines (i + 1)) dp) := by
    induction n with
    | zero => exact hstart
    | succ n ih =>
      rw [List.range'_concat, List.foldl_append, List.foldl_cons, List.foldl_nil, Nat.one_mul, Nat.add_comm 1 n]
      exact (ih (by omega)).fillCell hi (by omega)
  exact hcolumns newLines.length (le_refl _)

/-- The table holds the lengths for all beginnings. -/
lemma fillTable_spec (oldLines newLines : List (List UInt8)) {i j : ℕ} (hi : i ≤ oldLines.length)
    (hj : j ≤ newLines.length) :
    (fillTable oldLines newLines).getD (cell newLines i j) 0 = prefixLength oldLines newLines i j := by
  have hstart : FilledTo oldLines newLines 0 newLines.length
      (List.replicate ((oldLines.length + 1) * (newLines.length + 1)) 0) := by
    refine ⟨List.length_replicate, fun i' hi' j' hj' => ?_⟩
    rw [List.getD_eq_getElem?_getD, List.getElem?_replicate, if_pos (cell_lt hi' hj')]
    split_ifs with hrow
    · obtain rfl : i' = 0 := by omega
      rw [prefixLength_zero_left]
      rfl
    · rfl
  have hrows (n : ℕ) (hn : n ≤ oldLines.length) : FilledTo oldLines newLines n newLines.length
      ((List.range' 1 n).foldl (LineDiff.fillRow oldLines newLines)
        (List.replicate ((oldLines.length + 1) * (newLines.length + 1)) 0)) := by
    induction n with
    | zero => exact hstart
    | succ n ih =>
      rw [List.range'_concat, List.foldl_append, List.foldl_cons, List.foldl_nil, Nat.one_mul, Nat.add_comm 1 n]
      exact (ih (by omega)).fillRow (by omega)
  have hcell := (hrows oldLines.length (le_refl _)).cells i hi j hj
  rwa [if_pos (by omega)] at hcell

end

/-! ## The walk back -/

section

variable (oldLines newLines : List (List UInt8))

/-- The lines of the entries with one of the marks. -/
def linesMarked (marks : List UInt8) (script : List (List UInt8)) : List (List UInt8) :=
  (script.filter fun entry => entry.head?.any marks.contains).map List.tail

@[simp] lemma linesMarked_nil (marks : List UInt8) : linesMarked marks [] = [] := rfl

@[simp] lemma linesMarked_append (marks : List UInt8) (before after : List (List UInt8)) :
    linesMarked marks (before ++ after) = linesMarked marks before ++ linesMarked marks after := by
  rw [linesMarked, List.filter_append, List.map_append, linesMarked, linesMarked]

@[simp] lemma linesMarked_singleton (marks : List UInt8) (mark : UInt8) (line : List UInt8) :
    linesMarked marks [vmPrefixedLineValue mark line] = if marks.contains mark then [line] else [] := by
  unfold linesMarked vmPrefixedLineValue
  by_cases hmark : mark ∈ marks <;> simp [hmark]

/-- A script from the first `i` old lines to the first `j` new ones that keeps as many lines as possible. -/
structure ScriptTo (oldLines newLines : List (List UInt8)) (i j : ℕ) (script : List (List UInt8)) : Prop where
  marked : ∀ entry ∈ script, entry.head? ∈ [some 61, some 45, some (43 : UInt8)]
  old : linesMarked [61, 45] script = oldLines.take i
  new : linesMarked [61, 43] script = newLines.take j
  kept : (linesMarked [61] script).length = prefixLength oldLines newLines i j

variable {oldLines newLines}

lemma ScriptTo.marked_append {i j : ℕ} {script : List (List UInt8)} (h : ScriptTo oldLines newLines i j script)
    {mark : UInt8} (line : List UInt8) (hmark : some mark ∈ [some 61, some 45, some (43 : UInt8)]) :
    ∀ entry ∈ script ++ [vmPrefixedLineValue mark line], entry.head? ∈ [some 61, some 45, some (43 : UInt8)] := by
  intro entry hentry
  rcases List.mem_append.1 hentry with hbefore | hlast
  · exact h.marked entry hbefore
  · rwa [List.mem_singleton.1 hlast]

/-- The walk writes a script in front of what it has. -/
lemma walkBack_spec {dp : List ℕ} {i j : ℕ} (rev : List (List UInt8))
    (hdp : ∀ i ≤ oldLines.length, ∀ j ≤ newLines.length,
      dp.getD (cell newLines i j) 0 = prefixLength oldLines newLines i j)
    (hi : i ≤ oldLines.length) (hj : j ≤ newLines.length) :
    ∃ script, walkBack oldLines newLines dp i j rev = script ++ rev ∧ ScriptTo oldLines newLines i j script := by
  induction i, j, rev using walkBack.induct oldLines newLines dp with
  | case1 i j rev hcell heq ih =>
    -- the line is kept, and the cell says one more than the one on the diagonal
    obtain ⟨i, rfl⟩ := Nat.exists_eq_add_one.2 heq.1
    obtain ⟨j, rfl⟩ := Nat.exists_eq_add_one.2 heq.2.1
    simp only [Nat.add_sub_cancel] at ih
    obtain ⟨script, hwalk, hscript⟩ := ih (by omega) (by omega)
    refine ⟨script ++ [vmPrefixedLineValue 61 (oldLines.getD i [])], ?_,
      hscript.marked_append _ (by decide), ?_, ?_, ?_⟩
    · rw [walkBack, dif_pos hcell, dif_pos heq, Nat.add_sub_cancel, Nat.add_sub_cancel, hwalk, List.append_assoc,
        List.singleton_append]
    · rw [linesMarked_append, linesMarked_singleton, if_pos (by decide), hscript.old, take_succ_getD (by omega)]
    · have hsame : oldLines.getD i [] = newLines.getD j [] := by simpa [sameLine] using heq.2.2
      rw [linesMarked_append, linesMarked_singleton, if_pos (by decide), hscript.new, take_succ_getD (by omega), hsame]
    · rw [linesMarked_append, linesMarked_singleton, if_pos (by decide), List.length_append, hscript.kept,
        prefixLength_succ (by omega) (by omega), if_pos heq.2.2, List.length_singleton]
  | case2 i j rev hcell heq hadd ih =>
    obtain ⟨j, rfl⟩ := Nat.exists_eq_add_one.2 hadd.1
    simp only [Nat.add_sub_cancel] at ih
    obtain ⟨script, hwalk, hscript⟩ := ih hi (by omega)
    refine ⟨script ++ [vmPrefixedLineValue 43 (newLines.getD j [])], ?_,
      hscript.marked_append _ (by decide), ?_, ?_, ?_⟩
    · rw [walkBack, dif_pos hcell, dif_neg heq, dif_pos hadd, Nat.add_sub_cancel, hwalk, List.append_assoc,
        List.singleton_append]
    · rw [linesMarked_append, linesMarked_singleton, if_neg (by decide), hscript.old, List.append_nil]
    · rw [linesMarked_append, linesMarked_singleton, if_pos (by decide), hscript.new, take_succ_getD (by omega)]
    · rw [linesMarked_append, linesMarked_singleton, if_neg (by decide), List.append_nil, hscript.kept]
      -- the cell on the left says at least as much as the one above
      rcases hadd.2 with rfl | hle
      · rw [prefixLength_zero_left, prefixLength_zero_left]
      · cases i with
        | zero => rw [prefixLength_zero_left, prefixLength_zero_left]
        | succ i =>
          rw [Nat.add_sub_cancel, Nat.add_sub_cancel, hdp i (by omega) (j + 1) hj, hdp (i + 1) hi j (by omega)] at hle
          rw [prefixLength_succ (by omega) (by omega), if_neg fun hsame => heq ⟨by omega, by omega, hsame⟩,
            max_eq_right hle]
  | case3 i j rev hcell heq hadd ih =>
    have hpositive : 0 < i := by
      by_contra hzero
      exact hadd ⟨by omega, Or.inl (by omega)⟩
    obtain ⟨i, rfl⟩ := Nat.exists_eq_add_one.2 hpositive
    simp only [Nat.add_sub_cancel] at ih
    obtain ⟨script, hwalk, hscript⟩ := ih (by omega) hj
    refine ⟨script ++ [vmPrefixedLineValue 45 (oldLines.getD i [])], ?_,
      hscript.marked_append _ (by decide), ?_, ?_, ?_⟩
    · rw [walkBack, dif_pos hcell, dif_neg heq, dif_neg hadd, Nat.add_sub_cancel, hwalk, List.append_assoc,
        List.singleton_append]
    · rw [linesMarked_append, linesMarked_singleton, if_pos (by decide), hscript.old, take_succ_getD (by omega)]
    · rw [linesMarked_append, linesMarked_singleton, if_neg (by decide), hscript.new, List.append_nil]
    · rw [linesMarked_append, linesMarked_singleton, if_neg (by decide), List.append_nil, hscript.kept]
      cases j with
      | zero => rw [prefixLength_zero_right, prefixLength_zero_right]
      | succ j =>
        have hlt : ¬ _ ≤ _ := fun hle => hadd ⟨by omega, Or.inr hle⟩
        rw [Nat.add_sub_cancel, Nat.add_sub_cancel, hdp i (by omega) (j + 1) hj, hdp (i + 1) hi j (by omega)] at hlt
        rw [prefixLength_succ (by omega) (by omega), if_neg fun hsame => heq ⟨by omega, by omega, hsame⟩,
          max_eq_left (by omega)]
  | case4 i j rev hcell =>
    obtain rfl : i = 0 := by omega
    obtain rfl : j = 0 := by omega
    refine ⟨[], ?_, by simp, rfl, rfl, ?_⟩
    · rw [walkBack, dif_neg hcell, List.nil_append]
    · rw [prefixLength_zero_left, linesMarked_nil, List.length_nil]

/-- The script of two texts takes the old lines to the new ones, and keeps as many lines as possible. -/
theorem diff_is_minimal (old new : List UInt8) (hold : (lines old).length ≤ 256) (hnew : (lines new).length ≤ 256) :
    ∃ script, vmDiffLinesValue (some old) (some new) = some script ∧
      linesMarked [61, 45] script = lines old ∧ linesMarked [61, 43] script = lines new ∧
      (∀ entry ∈ script, entry.head? ∈ [some 61, some 45, some 43]) ∧
      IsGreatest (commonLengths (lines old) (lines new)) (linesMarked [61] script).length := by
  have htable := fun i hi j hj => @fillTable_spec (lines old) (lines new) i j hi hj
  obtain ⟨script, hwalk, hscript⟩ := walkBack_spec [] htable (le_refl _) (le_refl _)
  refine ⟨script, ?_, ?_, ?_, hscript.marked, ?_⟩
  · unfold vmDiffLinesValue maxLines
    rw [vmSplitLines_eq (by decide) hold, vmSplitLines_eq (by decide) hnew, Option.bind_eq_bind, Option.bind_some,
      Option.bind_some, hwalk, List.append_nil]
  · rw [hscript.old, List.take_length]
  · rw [hscript.new, List.take_length]
  · rw [hscript.kept, prefixLength, List.take_length, List.take_length,
      ← commonLengths_reverse (lines old) (lines new)]
    exact isGreatest_lcsLength _ _

/-- One line is kept of two. -/
theorem diff_is_minimal_example : ∃ script, vmDiffLinesValue (some [97, 10, 98]) (some [98, 10, 10]) = some script ∧
    linesMarked [61, 45] script = lines [97, 10, 98] ∧ linesMarked [61, 43] script = lines [98, 10, 10] ∧
    (∀ entry ∈ script, entry.head? ∈ [some 61, some 45, some 43]) ∧
    IsGreatest (commonLengths (lines [97, 10, 98]) (lines [98, 10, 10])) (linesMarked [61] script).length :=
  diff_is_minimal [97, 10, 98] [98, 10, 10] (by decide) (by decide)

end

end Vm.LineDiff
