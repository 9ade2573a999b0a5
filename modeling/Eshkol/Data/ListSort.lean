import Eshkol.Base.RunMerging
import Eshkol.Scheme.Primitives
import Mathlib.Algebra.Order.Group.Nat

/-!
# The list sort

A bottom-up merge sort over two vectors that exchange their roles after every pass. The passes
are those of `RunMerging` on the runs of the vector, the last of which can be short.
-/

namespace ListSort

open Scheme
open List (merge)
open RunMerging (Aligned Less mergePairs notLess tied)

/-- What ends a call without a result: an access outside a vector. -/
inductive Fault where
  | range
deriving DecidableEq

variable {α : Type}

/-- `vector-ref`. -/
def vectorRef (v : List α) (k : ℕ) : Except Fault α :=
  match v[k]? with
  | some x => .ok x
  | none => .error .range

/-- `vector-set!`. -/
def vectorSet (v : List α) (k : ℕ) (x : α) : Except Fault (List α) :=
  if k < v.length then .ok (v.set k x) else .error .range

/-- `run-end`. -/
def runEnd (n start width : ℕ) : ℕ :=
  let last := start + width
  if last > n then n else last

/-- `copy-run`; a vector that is written is returned. -/
def copyRun (source : List α) (first last : ℕ) (dest : List α) (into : ℕ) :
    Except Fault (List α) :=
  if first ≥ last then .ok dest
  else do
    let x ← vectorRef source first
    let dest ← vectorSet dest into x
    copyRun source (first + 1) last dest (into + 1)
termination_by last - first

/-- `merge-run`. -/
def mergeRun (less : α → α → Bool) (source dest : List α) (middle right i j out : ℕ) :
    Except Fault (List α) :=
  if i ≥ middle then copyRun source j right dest out
  else if j ≥ right then copyRun source i middle dest out
  else do
    let y ← vectorRef source j
    let x ← vectorRef source i
    if less y x then
      let dest ← vectorSet dest out y
      mergeRun less source dest middle right i (j + 1) (out + 1)
    else
      let dest ← vectorSet dest out x
      mergeRun less source dest middle right (i + 1) j (out + 1)
termination_by (middle - i) + (right - j)

/-- A run width: never zero. -/
abbrev Width := { w : ℕ // 0 < w }

/-- `(* width 2)`. -/
def Width.double (width : Width) : Width := ⟨width * 2, by have := width.2; omega⟩

/-- The `loop` of `merge-pass`. -/
def mergePassLoop (less : α → α → Bool) (n : ℕ) (source dest : List α) (width : Width)
    (start : ℕ) : Except Fault (List α) :=
  if start ≥ n then .ok dest
  else do
    let middle := runEnd n start width
    let right := runEnd n start width.double
    let dest ← mergeRun less source dest middle right start middle start
    mergePassLoop less n source dest width right
termination_by n - start
decreasing_by
  have := width.2
  simp only [runEnd, Width.double]
  grind

/-- `merge-pass`. -/
def mergePass (less : α → α → Bool) (n : ℕ) (source dest : List α) (width : Width) :
    Except Fault (List α) :=
  mergePassLoop less n source dest width 0

/-- `merge-passes`: after a pass the vector that was read is the next one written. -/
def mergePasses (less : α → α → Bool) (n : ℕ) (source dest : List α) (width : Width) :
    Except Fault (List α) :=
  if width ≥ n then .ok source
  else do
    let merged ← mergePass less n source dest width
    mergePasses less n merged source width.double
termination_by n - width
decreasing_by
  have := width.2
  simp only [Width.double]
  omega

/-- `sort`; `no` is the `#f` that fills the new vector. -/
def sort (no : α) (lst : List α) (less : α → α → Bool) : Except Fault (List α) :=
  match lst with
  | [] => .ok []
  | [x] => .ok [x]
  | _ :: _ :: _ =>
    let values := lst
    let n := values.length
    let scratch := List.replicate n no
    mergePasses less n values scratch ⟨1, Nat.one_pos⟩

/-! ## Writing into a vector -/

/-- A vector after the elements of a block were written from a position on. -/
def written (dest : List α) (into : ℕ) (block : List α) : List α :=
  dest.take into ++ block ++ dest.drop (into + block.length)

variable {less : α → α → Bool} {source dest block : List α} {into i j n : ℕ} {x : α}

@[simp]
lemma written_nil : written dest into [] = dest := by simp [written]

lemma length_written (h : into + block.length ≤ dest.length) :
    (written dest into block).length = dest.length := by
  simp only [written, List.length_append, List.length_take, List.length_drop]
  omega

/-- Writing one element and then a block after it. -/
lemma written_set (h : into < dest.length) :
    written (dest.set into x) (into + 1) block = written dest into (x :: block) := by
  have hdrop : (dest.set into x).drop (into + 1 + block.length) =
      dest.drop (into + (x :: block).length) := by
    rw [List.drop_set_of_lt (by omega), List.length_cons, Nat.add_right_comm, Nat.add_assoc]
  have htake : (dest.set into x).take (into + 1) = dest.take into ++ [x] := by
    rw [List.take_succ_eq_append_getElem (by simpa using h), List.take_set_of_le (le_refl into),
      List.getElem_set_self]
  simp only [written, htake, hdrop, List.append_assoc, List.cons_append, List.nil_append]

/-- Writing two blocks one after the other. -/
lemma written_written {first : List α} (h : into + first.length ≤ dest.length) :
    written (written dest into first) (into + first.length) block =
      written dest into (first ++ block) := by
  have hlength : (dest.take into ++ first).length = into + first.length := by
    rw [List.length_append, List.length_take, Nat.min_eq_left (by omega)]
  have htake : (written dest into first).take (into + first.length) = dest.take into ++ first := by
    rw [written, List.take_left' hlength]
  have hdrop : (written dest into first).drop (into + first.length + block.length) =
      dest.drop (into + (first ++ block).length) := by
    rw [written, ← List.drop_drop, List.drop_left' hlength, List.drop_drop, List.length_append,
      Nat.add_assoc]
  rw [written, htake, hdrop, written, List.append_assoc (dest.take into)]

/-- The elements from position `i` to before `j`. -/
def segment (l : List α) (i j : ℕ) : List α := (l.take j).drop i

lemma segment_of_le (h : j ≤ i) : segment source i j = [] := by
  rw [segment, List.drop_eq_nil_iff, List.length_take]
  omega

lemma exists_segment_cons (hij : i < j) (hj : j ≤ source.length) :
    ∃ x, vectorRef source i = .ok x ∧ segment source i j = x :: segment source (i + 1) j := by
  have hi : i < source.length := by omega
  have hlt : i < (source.take j).length := by
    rw [List.length_take]
    omega
  refine ⟨source[i], ?_, ?_⟩
  · rw [vectorRef, List.getElem?_eq_getElem hi]
  · rw [segment, List.drop_eq_getElem_cons hlt, List.getElem_take, segment]

lemma vectorSet_eq (h : into < dest.length) : vectorSet dest into x = .ok (dest.set into x) := by
  rw [vectorSet, if_pos h]

/-! ## One merge -/

lemma copyRun_eq (hj : j ≤ source.length) (hto : into + (j - i) ≤ dest.length) :
    copyRun source i j dest into = .ok (written dest into (segment source i j)) := by
  fun_induction copyRun source i j dest into with
  | case1 i dest into h => rw [segment_of_le h, written_nil]
  | case2 i dest into h ih =>
    obtain ⟨x, hx, hsegment⟩ := exists_segment_cons (Nat.lt_of_not_le h) hj
    have hset : vectorSet dest into x = .ok (dest.set into x) := vectorSet_eq (by omega)
    have hrest := ih (dest.set into x) (by rw [List.length_set]; omega)
    rw [hx, ok_bind, hset, ok_bind, hrest, written_set (by omega), hsegment]

/-- A merge of two runs writes their merge. -/
lemma mergeRun_eq {middle right out : ℕ} (hmiddle : middle ≤ source.length)
    (hright : right ≤ source.length)
    (hout : out + (middle - i) + (right - j) ≤ dest.length) :
    mergeRun less source dest middle right i j out = .ok (written dest out
      (merge (segment source i middle) (segment source j right) (notLess less))) := by
  fun_induction mergeRun less source dest middle right i j out with
  | case1 dest i j out h =>
    rw [segment_of_le h, List.nil_merge]
    exact copyRun_eq hright (by omega)
  | case2 dest i j out hi hj =>
    rw [segment_of_le hj, List.merge_right]
    exact copyRun_eq hmiddle (by omega)
  | case3 dest i j out hi hj ihright ihleft =>
    obtain ⟨y, hy, hysegment⟩ := exists_segment_cons (Nat.lt_of_not_le hj) hright
    obtain ⟨x, hx, hxsegment⟩ := exists_segment_cons (Nat.lt_of_not_le hi) hmiddle
    have hset : ∀ z, vectorSet dest out z = .ok (dest.set out z) := fun z =>
      vectorSet_eq (by omega)
    have hwritten : ∀ z block, written (dest.set out z) (out + 1) block =
        written dest out (z :: block) := fun z block => written_set (by omega)
    rw [hy, ok_bind, hx, ok_bind, hxsegment, hysegment]
    split
    case isTrue hless =>
      have hrest := ihright (dest.set out y) (by rw [List.length_set]; omega)
      rw [hset, ok_bind, hrest, hwritten, hxsegment,
        List.cons_merge_cons_neg _ _ _ (by simp [notLess, hless])]
    case isFalse hless =>
      have hrest := ihleft (dest.set out x) (by rw [List.length_set]; omega)
      rw [hset, ok_bind, hrest, hwritten, hysegment,
        List.cons_merge_cons_pos _ _ _ (by simp [notLess, hless])]

/-! ## One pass -/

lemma segment_front {xs rest : List α} (h : source.drop i = xs ++ rest) :
    segment source i (i + xs.length) = xs := by
  rw [segment, List.drop_take, h, Nat.add_sub_cancel_left, List.take_left]

lemma drop_front {xs rest : List α} (h : source.drop i = xs ++ rest) :
    source.drop (i + xs.length) = rest := by
  rw [← List.drop_drop, h, List.drop_left]

lemma mergePassLoop_of_le {width : Width} (h : n ≤ i) :
    mergePassLoop less n source dest width i = .ok dest := by
  rw [mergePassLoop, if_pos h]

lemma runEnd_eq (n start w : ℕ) : runEnd n start w = min (start + w) n := by
  simp only [runEnd]
  split <;> omega

/-- One turn of the loop merges the next two runs. -/
lemma mergePassLoop_step {width : Width} {xs ys rest : List α} (hxs : xs ≠ [])
    (hsource : source.drop i = xs ++ (ys ++ rest)) (hdest : dest.length = source.length)
    (hmiddle : runEnd source.length i width = i + xs.length)
    (hright : runEnd source.length i width.double = i + xs.length + ys.length) :
    mergePassLoop less source.length source dest width i =
      mergePassLoop less source.length source (written dest i (merge xs ys (notLess less))) width
        (i + xs.length + ys.length) := by
  have hlength := congrArg List.length hsource
  simp only [List.length_drop, List.length_append] at hlength
  have hpos : 0 < xs.length := List.length_pos_iff.2 hxs
  have hys : segment source (i + xs.length) (i + xs.length + ys.length) = ys :=
    segment_front (drop_front hsource)
  have hmerge : mergeRun less source dest (i + xs.length) (i + xs.length + ys.length) i
      (i + xs.length) i = .ok (written dest i (merge xs ys (notLess less))) := by
    rw [mergeRun_eq (by omega) (by omega) (by omega), segment_front hsource, hys]
  rw [mergePassLoop, if_neg (by omega), hmiddle, hright]
  simp only [hmerge, ok_bind]

/-- A pass writes the merged pairs of runs. -/
lemma mergePassLoop_eq {width : Width} {runs : List (List α)} (hruns : Aligned width runs)
    (hsource : source.drop i = runs.flatten) (hdest : dest.length = source.length) :
    mergePassLoop less source.length source dest width i =
      .ok (written dest i (mergePairs less runs).flatten) := by
  fun_induction mergePairs less runs generalizing i dest with
  | case1 =>
    rw [mergePassLoop_of_le (List.drop_eq_nil_iff.1 hsource), List.flatten_nil, written_nil]
  | case2 run =>
    have hsource' : source.drop i = run ++ ([] ++ []) := by simpa using hsource
    have hlength := congrArg List.length hsource'
    simp only [List.length_drop, List.length_append, List.length_nil] at hlength
    have hpos : 0 < run.length := List.length_pos_iff.2 hruns.1
    have hshort : run.length ≤ width := hruns.2.1
    -- the last run has no neighbour: both bounds are the end of the vector
    have hend : ∀ w, run.length ≤ w → runEnd source.length i w = i + run.length := by
      intro w hw
      rw [runEnd_eq]
      omega
    rw [mergePassLoop_step hruns.1 hsource' hdest (hend _ hshort)
      (hend _ (by simp only [Width.double]; omega)), mergePassLoop_of_le (by simp; omega)]
    simp
  | case3 xs ys runs ih =>
    obtain ⟨hxs, -, hxfull, hys, hylen, hyfull, hruns⟩ := hruns
    have hxlen : xs.length = width := hxfull (List.cons_ne_nil ys runs)
    have hlength := congrArg List.length hsource
    simp only [List.length_drop, List.flatten_cons, List.length_append] at hlength
    have hypos : 0 < ys.length := List.length_pos_iff.2 hys
    have hmiddle : runEnd source.length i width = i + xs.length := by
      rw [runEnd_eq]
      omega
    have hright : runEnd source.length i width.double = i + xs.length + ys.length := by
      rw [runEnd_eq]
      simp only [Width.double]
      rcases eq_or_ne runs [] with rfl | hne
      · simp only [List.flatten_nil, List.length_nil] at hlength
        omega
      · have hyw := hyfull hne
        omega
    have hmerge := List.length_merge (notLess less) xs ys
    have hdest' : (written dest i (merge xs ys (notLess less))).length = source.length := by
      rw [length_written (by omega), hdest]
    have hrest : source.drop (i + xs.length + ys.length) = runs.flatten :=
      drop_front (drop_front hsource)
    rw [mergePassLoop_step hxs hsource hdest hmiddle hright, ih hruns hrest hdest', Nat.add_assoc,
      ← hmerge, written_written (by omega), List.flatten_cons]

lemma mergePass_eq {width : Width} {runs : List (List α)} (hruns : Aligned width runs)
    (hsource : source = runs.flatten) (hdest : dest.length = source.length) :
    mergePass less source.length source dest width = .ok (mergePairs less runs).flatten := by
  have hlength := (RunMerging.flatten_mergePairs_perm less runs).length_eq
  rw [mergePass, mergePassLoop_eq hruns (by simpa using hsource) hdest, written]
  rw [List.take_zero, List.nil_append, List.drop_eq_nil_of_le (by rw [hlength, ← hsource]; omega),
    List.append_nil]

/-! ## All passes -/

/-- What every pass keeps of the elements of the list `lst`. -/
structure Kept (less : α → α → Bool) (lst : List α) (runs : List (List α)) : Prop where
  perm : runs.flatten.Perm lst
  sorted : IsStrictWeakOrder α (Less less) →
    ∀ run ∈ runs, run.Pairwise fun a b => notLess less a b
  stable : IsStrictWeakOrder α (Less less) →
    ∀ x, runs.flatten.filter (tied less x) = lst.filter (tied less x)

lemma kept_singletons (less : α → α → Bool) (lst : List α) :
    Kept less lst (lst.map fun x => [x]) := by
  have hflatten : (lst.map fun x => [x]).flatten = lst := by
    rw [← List.flatMap_def, List.flatMap_singleton']
  refine ⟨by rw [hflatten], fun _ run hrun => ?_, fun _ x => by rw [hflatten]⟩
  obtain ⟨x, -, rfl⟩ := List.mem_map.1 hrun
  exact List.pairwise_singleton _ x

lemma Kept.pass {lst : List α} {runs : List (List α)} (h : Kept less lst runs) :
    Kept less lst (mergePairs less runs) where
  perm := (RunMerging.flatten_mergePairs_perm less runs).trans h.perm
  sorted hless := RunMerging.pairwise_mergePairs (h.sorted hless)
  stable hless x := (RunMerging.filter_mergePairs x (h.sorted hless)).trans (h.stable hless x)

/-- The passes end with one run. -/
lemma mergePasses_eq {width : Width} {lst : List α} {runs : List (List α)}
    (hruns : Aligned width runs) (hkept : Kept less lst runs) (hsource : source = runs.flatten)
    (hn : source.length = n) (hdest : dest.length = source.length) :
    ∃ out, mergePasses less n source dest width = .ok out ∧ Kept less lst [out] := by
  fun_induction mergePasses less n source dest width generalizing runs with
  | case1 source dest width h =>
    refine ⟨source, rfl, ?_⟩
    rw [ge_iff_le, ← hn, hsource] at h
    cases runs with
    | nil => exact ⟨by simpa [hsource] using hkept.perm, by simp [hsource],
        by simpa [hsource] using hkept.stable⟩
    | cons run rest =>
      have hrest : rest = [] := hruns.tail_eq_nil h
      have hone : source = run := by rw [hsource, hrest, List.flatten_singleton]
      rw [hone]
      exact hrest ▸ hkept
  | case2 source dest width h ih =>
    have hperm := (RunMerging.flatten_mergePairs_perm less runs).length_eq
    have hpass : mergePass less source.length source dest width =
        .ok (mergePairs less runs).flatten := mergePass_eq hruns hsource hdest
    rw [hn] at hpass
    rw [hpass, ok_bind]
    exact ih _ hruns.pass hkept.pass rfl (by rw [hperm, ← hsource, hn])
      (by rw [hperm, ← hsource])

/-- The sort ends without a fault, with one run of the elements. -/
lemma sort_eq (no : α) (lst : List α) (less : α → α → Bool) :
    ∃ out, sort no lst less = .ok out ∧ Kept less lst [out] := by
  match lst with
  | [] => exact ⟨[], rfl, by simp, fun _ => by simp, fun _ _ => by simp⟩
  | [y] => exact ⟨[y], rfl, kept_singletons less [y]⟩
  | y :: z :: lst =>
    have hsource : y :: z :: lst = ((y :: z :: lst).map fun x => [x]).flatten := by
      rw [← List.flatMap_def, List.flatMap_singleton']
    exact mergePasses_eq (RunMerging.aligned_singletons (y :: z :: lst))
      (kept_singletons less (y :: z :: lst)) hsource rfl List.length_replicate

/-- The list sort returns a permutation for every comparison, and for a strict weak order it is
sorted and has the elements that the order does not separate as the list had them. -/
theorem sort_stable (no : α) (lst : List α) (less : α → α → Bool) :
    ∃ out, sort no lst less = .ok out ∧ out.Perm lst ∧
      (IsStrictWeakOrder α (Less less) →
        (out.Pairwise fun a b => less b a = false) ∧
        ∀ x, out.filter (tied less x) = lst.filter (tied less x)) := by
  obtain ⟨out, hout, hkept⟩ := sort_eq no lst less
  refine ⟨out, hout, by simpa using hkept.perm, fun hless => ⟨?_, ?_⟩⟩
  · simpa [notLess] using hkept.sorted hless out (List.mem_singleton_self out)
  · simpa using hkept.stable hless

/-- Pairs sorted by their first components; those that begin with `1` stay in order. -/
theorem sort_stable_ties : ∃ out, sort (0, 'n') [(3, 'a'), (1, 'b'), (2, 'c'), (1, 'd'), (1, 'a')]
      (fun p q => decide (p.1 < q.1)) = .ok out ∧
    out.Perm [(3, 'a'), (1, 'b'), (2, 'c'), (1, 'd'), (1, 'a')] ∧
    (out.Pairwise fun p q => decide (q.1 < p.1) = false) ∧
    ∀ x, out.filter (tied (fun p q => decide (p.1 < q.1)) x) =
      [(3, 'a'), (1, 'b'), (2, 'c'), (1, 'd'), (1, 'a')].filter
        (tied (fun p q => decide (p.1 < q.1)) x) := by
  obtain ⟨out, hout, hperm, hsorted⟩ := sort_stable ((0 : ℕ), 'n')
    [(3, 'a'), (1, 'b'), (2, 'c'), (1, 'd'), (1, 'a')] (fun p q => decide (p.1 < q.1))
  refine ⟨out, hout, hperm, hsorted ?_⟩
  exact {
    irrefl p := by simp [Less]
    trans p q r := by
      simp only [Less, decide_eq_true_eq]
      omega
    incomp_trans p q r := by
      simp only [Less, decide_eq_true_eq]
      omega }

end ListSort
