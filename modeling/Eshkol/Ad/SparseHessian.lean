import Mathlib.Data.Fintype.BigOperators
import Mathlib.Algebra.Order.Floor.Ring
import Mathlib.Data.Rat.Cast.Order
import Mathlib.Data.Rat.Floor
import Mathlib.Tactic.Linarith
import Mathlib.Tactic.Positivity

/-!
# Sparse Hessians by graph coloring

Variables that interact are adjacent in a graph. Vertices within distance two get different colors,
so that one Hessian-vector product for every color has each interaction in an entry of its own.
-/

namespace SparseGuw

section lists

variable {α : Type} [LinearOrder α]

/-- `sg-member?`. -/
def sgMember (x : α) : List α → Bool
  | [] => false
  | y :: rest => if x = y then true else sgMember x rest

/-- `sg-insert-distinct`, into an ascending list. -/
def sgInsertDistinct (x : α) : List α → List α
  | [] => [x]
  | y :: rest =>
    if x = y then y :: rest
    else if x < y then x :: y :: rest
    else y :: sgInsertDistinct x rest

variable {x y : α} {lst : List α}

lemma sgMember_iff : sgMember x lst = true ↔ x ∈ lst := by
  induction lst with
  | nil => simp [sgMember]
  | cons z lst ih =>
    rw [sgMember, List.mem_cons]
    split_ifs with heq
    · simp [heq]
    · rw [ih, or_iff_right heq]

@[simp]
lemma mem_sgInsertDistinct : y ∈ sgInsertDistinct x lst ↔ y = x ∨ y ∈ lst := by
  induction lst with
  | nil => simp [sgInsertDistinct]
  | cons z lst ih =>
    rw [sgInsertDistinct]
    split_ifs with heq hlt
    · simp [heq]
    · simp
    · rw [List.mem_cons, ih, List.mem_cons]
      tauto

end lists

/-! ## The interaction graph -/

variable {m : ℕ}

/-- `adj`: the ascending list of neighbours of every vertex. -/
abbrev Adj (m : ℕ) := Fin m → List (Fin m)

/-- `sg-make-adj`. -/
def sgMakeAdj (m : ℕ) : Adj m := fun _ => []

/-- `sg-add-edge`. -/
def sgAddEdge (adj : Adj m) (i j : Fin m) : Adj m :=
  if i ≠ j then
    let adj := Function.update adj i (sgInsertDistinct j (adj i))
    Function.update adj j (sgInsertDistinct i (adj j))
  else adj

/-- `sg-add-clique`. -/
def sgAddClique (adj : Adj m) : List (Fin m) → Adj m
  | [] => adj
  | a :: rest => sgAddClique (rest.foldl (fun adj b => sgAddEdge adj a b) adj) rest

/-- `sg-graph-from-pattern`. -/
def sgGraphFromPattern (m : ℕ) (pattern : List (List (Fin m))) : Adj m :=
  pattern.foldl sgAddClique (sgMakeAdj m)

section probe

variable {K : Type} [Field K] [LinearOrder K]

/-- `sg-unit`. -/
def sgUnit (j : Fin m) : Fin m → K := Function.update (fun _ => 0) j 1

/-- `sg-full-hessian-cols`, of the products with a Hessian. -/
def sgFullHessianCols (hvp : (Fin m → K) → Fin m → K) : Fin m → Fin m → K := fun j => hvp (sgUnit j)

/-- `sg-probe-point`: the products with the Hessian at one point mark the edges. -/
def sgProbePoint (hvp : (Fin m → K) → Fin m → K) (adj : Adj m) : Adj m :=
  let cols := sgFullHessianCols hvp
  (List.finRange m).foldl (fun adj i =>
    ((List.finRange m).filter (i < ·)).foldl (fun adj j =>
      if |cols j i| > 1 / (10 ^ 9 : ℕ) then sgAddEdge adj i j else adj) adj) adj

/-- `sg-graph-from-probe`. The Hessian-vector product and the pseudo-random shift of a point are
those of the differentiated function. -/
def sgGraphFromProbe (sgHvp : (Fin m → K) → (Fin m → K) → Fin m → K)
    (sgPerturb : (Fin m → K) → ℕ → Fin m → K) (xs : Fin m → K) : Adj m :=
  sgProbePoint (sgHvp (sgPerturb xs 2)) (sgProbePoint (sgHvp (sgPerturb xs 1))
    (sgProbePoint (sgHvp xs) (sgMakeAdj m)))

end probe

/-- `sg-edge-count`. -/
def sgEdgeCount (adj : Adj m) : ℚ := ((List.finRange m).map fun i => (adj i).length).sum / 2

/-! ## Coloring -/

/-- The insertion of `sg-degree-order`. -/
def degreeInsert (adj : Adj m) (x : Fin m) : List (Fin m) → List (Fin m)
  | [] => [x]
  | y :: rest =>
    if (adj x).length ≥ (adj y).length then x :: y :: rest else y :: degreeInsert adj x rest

/-- `sg-degree-order`. -/
def sgDegreeOrder (adj : Adj m) : List (Fin m) :=
  (List.finRange m).foldl (fun acc i => degreeInsert adj i acc) []

/-- `sg-forbidden`; a vertex without a color has the color -1. -/
def sgForbidden (adj : Adj m) (color : Fin m → ℤ) (v : Fin m) : List ℤ :=
  (adj v).foldl (fun acc u =>
    let acc := if color u ≥ 0 then sgInsertDistinct (color u) acc else acc
    (adj u).foldl (fun acc w =>
      if w ≠ v ∧ color w ≥ 0 then sgInsertDistinct (color w) acc else acc) acc) []

/-- The loop of `sg-smallest-free`. -/
def sgSmallestFreeLoop (forbidden : List ℤ) (c : ℤ) : ℤ :=
  if sgMember c forbidden then sgSmallestFreeLoop forbidden (c + 1) else c
termination_by (forbidden.filter (c ≤ ·)).length
decreasing_by
  rename_i hmem
  rw [sgMember_iff] at hmem
  -- `c` itself is no longer among the colors that are left
  have hfilter : forbidden.filter (c + 1 ≤ ·) = (forbidden.filter (c ≤ ·)).filter (c + 1 ≤ ·) := by
    rw [List.filter_filter]
    apply List.filter_congr
    intro x _
    by_cases hx : c + 1 ≤ x <;> simp [hx]
    omega
  rw [hfilter, List.length_filter_lt_length_iff_exists]
  exact ⟨c, List.mem_filter.2 ⟨hmem, by simp⟩, by simp⟩

/-- `sg-smallest-free`. -/
def sgSmallestFree (forbidden : List ℤ) : ℤ := sgSmallestFreeLoop forbidden 0

/-- The loop of `sg-color-graph`. -/
def colorLoop (adj : Adj m) : List (Fin m) → (Fin m → ℤ) → ℤ → (Fin m → ℤ) × ℤ
  | [], color, kmax => (color, kmax + 1)
  | v :: os, color, kmax =>
    let c := sgSmallestFree (sgForbidden adj color v)
    colorLoop adj os (Function.update color v c) (if c > kmax then c else kmax)

/-- `sg-color-graph`: the colors and their number. -/
def sgColorGraph (adj : Adj m) : (Fin m → ℤ) × ℤ :=
  colorLoop adj (sgDegreeOrder adj) (fun _ => -1) (-1)

/-! ## Compressed rows -/

section rows

variable {K : Type} [Field K] [LinearOrder K]

/-- `sg-csr-insert`. -/
def sgCsrInsert (col : Fin m) (val : K) : List (Fin m × K) → List (Fin m × K)
  | [] => [(col, val)]
  | e :: rest =>
    if col = e.1 then (col, val) :: rest
    else if col < e.1 then (col, val) :: e :: rest
    else e :: sgCsrInsert col val rest

/-- The rows of `sg-build-csr`. -/
def csrRows (entries : List (Fin m × Fin m × K)) : Fin m → List (Fin m × K) :=
  entries.foldl
    (fun rows e => Function.update rows e.1 (sgCsrInsert e.2.1 e.2.2 (rows e.1))) fun _ => []

/-- The three vectors of `sg-build-csr`. -/
structure Csr (K : Type) where
  rowPtr : List ℕ
  colIdx : List ℕ
  values : List K

/-- The loop over one row: it is written from `p` on. -/
def fillRow : List (Fin m × K) → ℕ → Csr K → ℕ × Csr K
  | [], p, csr => (p, csr)
  | e :: r, p, csr =>
    fillRow r (p + 1) { csr with colIdx := csr.colIdx.set p e.1, values := csr.values.set p e.2 }

/-- The loop over the rows, from row `i` on. -/
def fillRows : List (List (Fin m × K)) → ℕ → ℕ → Csr K → Csr K
  | [], i, pos, csr => { csr with rowPtr := csr.rowPtr.set i pos }
  | row :: rows, i, pos, csr =>
    let filled := fillRow row pos { csr with rowPtr := csr.rowPtr.set i pos }
    fillRows rows (i + 1) filled.1 filled.2

/-- `sg-build-csr`. -/
def sgBuildCsr (entries : List (Fin m × Fin m × K)) : Csr K :=
  let rows := List.ofFn (csrRows entries)
  let nnz := (rows.map List.length).sum
  let slots := if nnz > 0 then nnz else 1
  fillRows rows 0 0 ⟨List.replicate (m + 1) 0, List.replicate slots 0, List.replicate slots 0⟩

/-- The record of `sparse-hessian`. -/
structure Shess (K : Type) where
  m : ℕ
  csr : Csr K
  colors : ℤ
  directions : ℤ
  dense : Bool

/-- The loop of `sparse-hessian-ref`. -/
def refLoop (csr : Csr K) (j stop p : ℕ) : K :=
  if p ≥ stop then 0
  else if csr.colIdx[p]?.getD 0 = j then csr.values[p]?.getD 0
  else refLoop csr j stop (p + 1)
termination_by stop - p

/-- `sparse-hessian-ref`. -/
def sparseHessianRef (sp : Shess K) (i j : ℕ) : K :=
  refLoop sp.csr j (sp.csr.rowPtr[i + 1]?.getD 0) (sp.csr.rowPtr[i]?.getD 0)

/-- The inner loop of `sparse-hessian-nonzeros`, downward over `n` slots from `start`. -/
def nonzerosRow (csr : Csr K) (i start : ℕ) : ℕ → List (ℕ × ℕ × K) → List (ℕ × ℕ × K)
  | 0, a => a
  | n + 1, a =>
    nonzerosRow csr i start n
      ((i, csr.colIdx[start + n]?.getD 0, csr.values[start + n]?.getD 0) :: a)

/-- The outer loop, downward over `i` rows. -/
def nonzerosRows (csr : Csr K) : ℕ → List (ℕ × ℕ × K) → List (ℕ × ℕ × K)
  | 0, acc => acc
  | i + 1, acc =>
    let start := csr.rowPtr[i]?.getD 0
    let stop := csr.rowPtr[i + 1]?.getD 0
    nonzerosRows csr i (nonzerosRow csr i start (stop - start) acc)

/-- `sparse-hessian-nonzeros`. -/
def sparseHessianNonzeros (sp : Shess K) : List (ℕ × ℕ × K) := nonzerosRows sp.csr sp.m []

/-! ## Recovery -/

/-- The entries that `sg-dense-hessian` keeps. -/
def denseEntries (cols : Fin m → Fin m → K) : List (Fin m × Fin m × K) :=
  (List.finRange m).foldl (fun acc i =>
    (List.finRange m).foldl (fun a j =>
      let v := cols j i
      if i = j ∨ |v| > 1 / (10 ^ 13 : ℕ) then (i, j, v) :: a else a) acc) []

/-- `sg-dense-hessian`. -/
def sgDenseHessian (hvp : (Fin m → K) → Fin m → K) : Shess K :=
  ⟨m, sgBuildCsr (denseEntries (sgFullHessianCols hvp)), m, m, true⟩

/-- The direction of a color class. -/
def indicator (color : Fin m → ℤ) (c : ℤ) : Fin m → K := fun i => if color i = c then 1 else 0

/-- `colorHv`: the product for every color. -/
def colorHv (hvp : (Fin m → K) → Fin m → K) (color : Fin m → ℤ) (c : ℤ) : Fin m → K :=
  hvp (indicator color c)

/-- The loop over the neighbours of `i`; `none` is a failed cross-check. -/
def recoverRow (hv : ℤ → Fin m → K) (color : Fin m → ℤ) (i : Fin m) :
    List (Fin m) → List (Fin m × Fin m × K) → Option (List (Fin m × Fin m × K))
  | [], a => some a
  | j :: ns, a =>
    if j > i then
      let vij := hv (color j) i
      let vji := hv (color i) j
      if |vij - vji| > 1 / (10 ^ 8 : ℕ) then none
      else recoverRow hv color i ns ((j, i, vij) :: (i, j, vij) :: a)
    else recoverRow hv color i ns a

/-- The loop over the vertices. -/
def recoverRows (hv : ℤ → Fin m → K) (color : Fin m → ℤ) (adj : Adj m) :
    List (Fin m) → List (Fin m × Fin m × K) → Option (List (Fin m × Fin m × K))
  | [], acc => some acc
  | i :: is, acc =>
    recoverRow hv color i (adj i) ((i, i, hv (color i) i) :: acc) >>= recoverRows hv color adj is

/-- `sg-recover-entries`; `none` is `'mismatch`. -/
def sgRecoverEntries (hvp : (Fin m → K) → Fin m → K) (adj : Adj m) (color : Fin m → ℤ) :
    Option (List (Fin m × Fin m × K)) :=
  recoverRows (colorHv hvp color) color adj (List.finRange m) []

/-- `sg-sparse-hessian-core`, after the graph. -/
def sgSparseHessianCore (hvp : (Fin m → K) → Fin m → K) (adj : Adj m) : Shess K :=
  let maxedges : ℚ := if m ≤ 1 then 1 else (m * (m - 1) : ℚ) / 2
  let density := sgEdgeCount adj / maxedges
  let cg := sgColorGraph adj
  let color := cg.1
  let k := cg.2
  if k ≥ m ∨ density > 6 / 10 then sgDenseHessian hvp
  else match sgRecoverEntries hvp adj color with
    | none => sgDenseHessian hvp
    | some res => ⟨m, sgBuildCsr res, k, k, false⟩

/-- `sparse-hessian`. -/
def sparseHessian (sgHvp : (Fin m → K) → (Fin m → K) → Fin m → K)
    (sgPerturb : (Fin m → K) → ℕ → Fin m → K) (xs : Fin m → K) : Shess K :=
  sgSparseHessianCore (sgHvp xs) (sgGraphFromProbe sgHvp sgPerturb xs)

end rows

/-! ## Which vertices are adjacent -/

/-- What a loop collects from the elements it passes. -/
lemma foldl_iff {σ ι : Type} (holds : σ → Prop) {step : σ → ι → σ} {P : ι → Prop}
    (h : ∀ s i, holds (step s i) ↔ holds s ∨ P i) (l : List ι) (s : σ) :
    holds (l.foldl step s) ↔ holds s ∨ ∃ i ∈ l, P i := by
  induction l generalizing s with
  | nil => simp
  | cons i l ih =>
    rw [List.foldl_cons, ih, h, or_assoc]
    simp

/-- An interaction graph: no loops, and every edge from both ends. -/
structure Graph (adj : Adj m) : Prop where
  ne : ∀ {u v}, v ∈ adj u → u ≠ v
  symm : ∀ {u v}, v ∈ adj u → u ∈ adj v

/-- The two ends of an edge, in either order. -/
def Ends (i j u v : Fin m) : Prop := i ≠ j ∧ (u = i ∧ v = j ∨ u = j ∧ v = i)

variable {adj : Adj m} {i j u v : Fin m}

lemma Ends.symm (h : Ends i j u v) : Ends i j v u := ⟨h.1, h.2.symm.imp And.symm And.symm⟩

lemma Ends.ne (h : Ends i j u v) : u ≠ v := by
  obtain ⟨hne, ⟨rfl, rfl⟩ | ⟨rfl, rfl⟩⟩ := h
  · exact hne
  · exact hne.symm

lemma mem_sgAddEdge : v ∈ sgAddEdge adj i j u ↔ v ∈ adj u ∨ Ends i j u v := by
  unfold sgAddEdge Ends
  split_ifs with hne
  · by_cases huj : u = j
    · subst huj
      rw [Function.update_self, mem_sgInsertDistinct, Function.update_of_ne hne.symm]
      simp [hne, hne.symm, or_comm]
    · rw [Function.update_of_ne huj]
      by_cases hui : u = i
      · subst hui
        rw [Function.update_self, mem_sgInsertDistinct]
        simp [hne, or_comm]
      · rw [Function.update_of_ne hui]
        simp [hui, huj]
  · simp [hne]

lemma mem_sgAddClique (he : List (Fin m)) (adj : Adj m) :
    v ∈ sgAddClique adj he u ↔ v ∈ adj u ∨ u ≠ v ∧ u ∈ he ∧ v ∈ he := by
  induction he generalizing adj with
  | nil => simp [sgAddClique]
  | cons a rest ih =>
    have hedges := foldl_iff (fun adj : Adj m => v ∈ adj u) (P := fun b => Ends a b u v)
      (fun adj b => mem_sgAddEdge) rest adj
    rw [sgAddClique, ih, hedges, or_assoc]
    refine or_congr_right ?_
    constructor
    · rintro (⟨b, hb, h⟩ | ⟨hne, hu, hv⟩)
      · refine ⟨h.ne, ?_⟩
        obtain ⟨-, ⟨rfl, rfl⟩ | ⟨rfl, rfl⟩⟩ := h <;> simp [hb]
      · exact ⟨hne, List.mem_cons_of_mem _ hu, List.mem_cons_of_mem _ hv⟩
    · rintro ⟨hne, hu, hv⟩
      rcases List.mem_cons.1 hu with rfl | hu'
      · exact .inl ⟨v, (List.mem_cons.1 hv).resolve_left hne.symm, hne, .inl ⟨rfl, rfl⟩⟩
      · rcases List.mem_cons.1 hv with rfl | hv'
        · exact .inl ⟨u, hu', hne.symm, .inr ⟨rfl, rfl⟩⟩
        · exact .inr ⟨hne, hu', hv'⟩

/-- Vertices are adjacent that stand in one hyperedge. -/
lemma mem_sgGraphFromPattern (pattern : List (List (Fin m))) :
    v ∈ sgGraphFromPattern m pattern u ↔ ∃ he ∈ pattern, u ≠ v ∧ u ∈ he ∧ v ∈ he := by
  have hcliques := foldl_iff (fun adj : Adj m => v ∈ adj u)
    (P := fun he => u ≠ v ∧ u ∈ he ∧ v ∈ he) (fun adj he => mem_sgAddClique he adj) pattern
    (sgMakeAdj m)
  rw [sgGraphFromPattern, hcliques]
  simp [sgMakeAdj]

/-- Patterns give symmetric graphs. -/
lemma graph_sgGraphFromPattern (pattern : List (List (Fin m))) :
    Graph (sgGraphFromPattern m pattern) := by
  constructor
  · intro u v h
    obtain ⟨he, -, hne, -⟩ := (mem_sgGraphFromPattern pattern).1 h
    exact hne
  · intro u v h
    obtain ⟨he, hhe, hne, hu, hv⟩ := (mem_sgGraphFromPattern pattern).1 h
    exact (mem_sgGraphFromPattern pattern).2 ⟨he, hhe, hne.symm, hv, hu⟩

section probe

variable {K : Type} [Field K] [LinearOrder K]

/-- A probe adds the edges of the entries above the threshold. -/
lemma mem_sgProbePoint (hvp : (Fin m → K) → Fin m → K) (adj : Adj m) :
    v ∈ sgProbePoint hvp adj u ↔
      v ∈ adj u ∨ ∃ i j, i < j ∧ |sgFullHessianCols hvp j i| > 1 / (10 ^ 9 : ℕ) ∧ Ends i j u v := by
  have hrow : ∀ (adj : Adj m) (i : Fin m),
      v ∈ ((List.finRange m).filter (i < ·)).foldl (fun adj j =>
        if |sgFullHessianCols hvp j i| > 1 / (10 ^ 9 : ℕ) then sgAddEdge adj i j else adj) adj u ↔
      v ∈ adj u ∨ ∃ j, i < j ∧ |sgFullHessianCols hvp j i| > 1 / (10 ^ 9 : ℕ) ∧ Ends i j u v := by
    intro adj i
    have hstep : ∀ (adj : Adj m) j,
        v ∈ (if |sgFullHessianCols hvp j i| > 1 / (10 ^ 9 : ℕ) then sgAddEdge adj i j else adj) u ↔
        v ∈ adj u ∨ |sgFullHessianCols hvp j i| > 1 / (10 ^ 9 : ℕ) ∧ Ends i j u v := by
      intro adj j
      split_ifs with hbig
      · rw [mem_sgAddEdge, and_iff_right hbig]
      · rw [or_iff_left fun h => hbig h.1]
    rw [foldl_iff (fun adj : Adj m => v ∈ adj u) hstep]
    simp
  have hrows := foldl_iff (fun adj : Adj m => v ∈ adj u)
    (P := fun i => ∃ j, i < j ∧ |sgFullHessianCols hvp j i| > 1 / (10 ^ 9 : ℕ) ∧ Ends i j u v)
    hrow (List.finRange m) adj
  unfold sgProbePoint
  rw [hrows]
  simp

lemma Graph.sgProbePoint (h : Graph adj) (hvp : (Fin m → K) → Fin m → K) :
    Graph (sgProbePoint hvp adj) := by
  constructor
  · intro u v hv
    rcases (mem_sgProbePoint hvp adj).1 hv with hv | ⟨i, j, -, -, hends⟩
    · exact h.ne hv
    · exact hends.ne
  · intro u v hv
    apply (mem_sgProbePoint hvp adj).2
    rcases (mem_sgProbePoint hvp adj).1 hv with hv | ⟨i, j, hlt, hbig, hends⟩
    · exact .inl (h.symm hv)
    · exact .inr ⟨i, j, hlt, hbig, hends.symm⟩

lemma graph_sgGraphFromProbe (sgHvp : (Fin m → K) → (Fin m → K) → Fin m → K)
    (sgPerturb : (Fin m → K) → ℕ → Fin m → K) (xs : Fin m → K) :
    Graph (sgGraphFromProbe sgHvp sgPerturb xs) := by
  have hempty : Graph (sgMakeAdj m) := by constructor <;> intro u v h <;> simp [sgMakeAdj] at h
  exact ((hempty.sgProbePoint _).sgProbePoint _).sgProbePoint _

end probe

/-! ## Distance two -/

/-- At distance one or two. -/
def Near (adj : Adj m) (u v : Fin m) : Prop := v ∈ adj u ∨ ∃ w ∈ adj u, v ∈ adj w

lemma Near.symm (hg : Graph adj) (h : Near adj u v) : Near adj v u := by
  rcases h with h | ⟨w, hw, h⟩
  · exact .inl (hg.symm h)
  · exact .inr ⟨w, hg.symm h, hg.symm hw⟩

variable {color : Fin m → ℤ} {c : ℤ}

/-- A color is forbidden iff a neighbour has it, or another neighbour of one. -/
lemma mem_sgForbidden : c ∈ sgForbidden adj color v ↔
    ∃ u ∈ adj v, color u ≥ 0 ∧ c = color u ∨ ∃ w ∈ adj u, (w ≠ v ∧ color w ≥ 0) ∧ c = color w := by
  have hinsert : ∀ (acc : List ℤ) (d : ℤ) (P : Prop) [Decidable P],
      c ∈ (if P then sgInsertDistinct d acc else acc) ↔ c ∈ acc ∨ P ∧ c = d := by
    intro acc d P _
    split_ifs with hP
    · rw [mem_sgInsertDistinct, or_comm, and_iff_right hP]
    · rw [or_iff_left fun h => hP h.1]
  have hinner : ∀ (acc : List ℤ) (u : Fin m),
      c ∈ (adj u).foldl (fun acc w =>
        if w ≠ v ∧ color w ≥ 0 then sgInsertDistinct (color w) acc else acc) acc ↔
      c ∈ acc ∨ ∃ w ∈ adj u, (w ≠ v ∧ color w ≥ 0) ∧ c = color w :=
    fun acc u => foldl_iff (c ∈ ·)
      (fun acc w => hinsert acc (color w) (w ≠ v ∧ color w ≥ 0)) (adj u) acc
  have houter : ∀ (acc : List ℤ) (u : Fin m),
      c ∈ (adj u).foldl (fun acc w =>
        if w ≠ v ∧ color w ≥ 0 then sgInsertDistinct (color w) acc else acc)
        (if color u ≥ 0 then sgInsertDistinct (color u) acc else acc) ↔
      c ∈ acc ∨ (color u ≥ 0 ∧ c = color u ∨ ∃ w ∈ adj u, (w ≠ v ∧ color w ≥ 0) ∧ c = color w) := by
    intro acc u
    rw [hinner, hinsert, or_assoc]
  exact (foldl_iff (c ∈ ·) houter (adj v) []).trans (or_iff_right List.not_mem_nil)

lemma sgSmallestFreeLoop_not_mem (forbidden : List ℤ) (c : ℤ) :
    sgSmallestFreeLoop forbidden c ∉ forbidden ∧ c ≤ sgSmallestFreeLoop forbidden c := by
  induction c using sgSmallestFreeLoop.induct forbidden with
  | case1 c hmem ih =>
    rw [sgSmallestFreeLoop, if_pos hmem]
    exact ⟨ih.1, by omega⟩
  | case2 c hnot =>
    rw [sgSmallestFreeLoop, if_neg hnot]
    exact ⟨fun h => hnot (sgMember_iff.2 h), le_rfl⟩

/-- No color below the smallest free one is free. -/
lemma mem_of_lt_sgSmallestFreeLoop (forbidden : List ℤ) (c d : ℤ) (hcd : c ≤ d)
    (hd : d < sgSmallestFreeLoop forbidden c) : d ∈ forbidden := by
  induction c using sgSmallestFreeLoop.induct forbidden with
  | case1 c hmem ih =>
    rw [sgSmallestFreeLoop, if_pos hmem] at hd
    rcases hcd.eq_or_lt with rfl | hlt
    · exact sgMember_iff.1 hmem
    · exact ih (by omega) hd
  | case2 c hnot =>
    rw [sgSmallestFreeLoop, if_neg hnot] at hd
    omega

lemma sgSmallestFree_le (forbidden : List ℤ) : sgSmallestFree forbidden ≤ forbidden.length := by
  have hsub : (List.range (sgSmallestFree forbidden).toNat).map Int.ofNat ⊆ forbidden := by
    intro d hd
    obtain ⟨n, hn, rfl⟩ := List.mem_map.1 hd
    rw [List.mem_range] at hn
    apply mem_of_lt_sgSmallestFreeLoop forbidden 0
    · exact Int.natCast_nonneg n
    · show (n : ℤ) < sgSmallestFree forbidden
      omega
  have hnodup : ((List.range (sgSmallestFree forbidden).toNat).map Int.ofNat).Nodup :=
    List.nodup_range.map fun _ _ h => Int.ofNat.inj h
  have hlen := (hnodup.subperm hsub).length_le
  rw [List.length_map, List.length_range] at hlen
  omega

/-- The vertices with a color have others than those near them, and none is above `kmax`. -/
structure Proper (adj : Adj m) (color : Fin m → ℤ) (kmax : ℤ) : Prop where
  apart : ∀ {u v}, u ≠ v → Near adj u v → 0 ≤ color u → 0 ≤ color v → color u ≠ color v
  le : ∀ u, color u ≤ kmax

/-- One vertex gets its color. -/
lemma Proper.step {kmax : ℤ} (hg : Graph adj) (h : Proper adj color kmax) (v : Fin m) :
    Proper adj (Function.update color v (sgSmallestFree (sgForbidden adj color v)))
      (if sgSmallestFree (sgForbidden adj color v) > kmax
        then sgSmallestFree (sgForbidden adj color v) else kmax) := by
  have hfree : ∀ u, u ≠ v → Near adj v u → 0 ≤ color u →
      sgSmallestFree (sgForbidden adj color v) ≠ color u := by
    intro u hne hnear hu heq
    apply (sgSmallestFreeLoop_not_mem (sgForbidden adj color v) 0).1
    rw [show sgSmallestFreeLoop (sgForbidden adj color v) 0 = color u from heq, mem_sgForbidden]
    rcases hnear with hadj | ⟨w, hw, hadj⟩
    · exact ⟨u, hadj, .inl ⟨hu, rfl⟩⟩
    · exact ⟨w, hw, .inr ⟨u, hadj, ⟨hne, hu⟩, rfl⟩⟩
  generalize sgSmallestFree (sgForbidden adj color v) = c at hfree ⊢
  constructor
  · intro a b hne hnear ha hb
    by_cases hav : a = v
    · subst hav
      rw [Function.update_of_ne hne.symm] at hb ⊢
      rw [Function.update_self]
      exact hfree b hne.symm hnear hb
    · rw [Function.update_of_ne hav] at ha ⊢
      by_cases hbv : b = v
      · subst hbv
        rw [Function.update_self]
        exact (hfree a hne (hnear.symm hg) ha).symm
      · rw [Function.update_of_ne hbv] at hb ⊢
        exact h.apart hne hnear ha hb
  · intro u
    have hu := h.le u
    by_cases huv : u = v
    · subst huv
      rw [Function.update_self]
      split_ifs <;> omega
    · rw [Function.update_of_ne huv]
      split_ifs <;> omega

/-- A run of the loop colors what it passes. -/
lemma Proper.colorLoop (hg : Graph adj) (os : List (Fin m)) {color : Fin m → ℤ} {kmax : ℤ}
    (h : Proper adj color kmax) :
    Proper adj (colorLoop adj os color kmax).1 ((colorLoop adj os color kmax).2 - 1) ∧
      ∀ u, u ∈ os ∨ 0 ≤ color u → 0 ≤ (SparseGuw.colorLoop adj os color kmax).1 u := by
  induction os generalizing color kmax with
  | nil =>
    simp only [SparseGuw.colorLoop, Int.add_sub_cancel]
    exact ⟨h, fun u hu => hu.resolve_left List.not_mem_nil⟩
  | cons v os ih =>
    obtain ⟨hproper, hcolored⟩ := ih (h.step hg v)
    refine ⟨hproper, fun u hu => hcolored u ?_⟩
    rcases eq_or_ne u v with rfl | hne
    · right
      rw [Function.update_self]
      exact (sgSmallestFreeLoop_not_mem _ 0).2
    · rw [Function.update_of_ne hne]
      exact hu.imp_left fun hu => (List.mem_cons.1 hu).resolve_left hne

lemma mem_degreeInsert {x y : Fin m} {lst : List (Fin m)} :
    y ∈ degreeInsert adj x lst ↔ y ∈ lst ∨ x = y := by
  induction lst with
  | nil => simp [degreeInsert, eq_comm]
  | cons z lst ih =>
    rw [degreeInsert]
    split_ifs
    · rw [List.mem_cons, or_comm, eq_comm]
    · rw [List.mem_cons, ih, List.mem_cons, or_assoc]

lemma mem_sgDegreeOrder (adj : Adj m) (v : Fin m) : v ∈ sgDegreeOrder adj := by
  have hinsert : ∀ (acc : List (Fin m)) x, v ∈ degreeInsert adj x acc ↔ v ∈ acc ∨ x = v :=
    fun acc x => mem_degreeInsert
  exact (foldl_iff (v ∈ ·) hinsert (List.finRange m) []).2 (.inr ⟨v, List.mem_finRange v, rfl⟩)

/-- No two vertices within distance two share a color, in any graph. -/
lemma sgColorGraph_apart (hg : Graph adj) (hne : u ≠ v) (hnear : Near adj u v) :
    (sgColorGraph adj).1 u ≠ (sgColorGraph adj).1 v := by
  have hstart : Proper adj (fun _ => -1) (-1) := ⟨fun _ _ h => absurd h (by decide), fun _ => le_rfl⟩
  obtain ⟨hproper, hcolored⟩ := hstart.colorLoop hg (sgDegreeOrder adj)
  exact hproper.apart hne hnear (hcolored u (.inl (mem_sgDegreeOrder adj u)))
    (hcolored v (.inl (mem_sgDegreeOrder adj v)))

/-- The colors are numbered up to `k`. -/
lemma sgColorGraph_bounds (hg : Graph adj) (u : Fin m) :
    0 ≤ (sgColorGraph adj).1 u ∧ (sgColorGraph adj).1 u < (sgColorGraph adj).2 := by
  have hstart : Proper adj (fun _ => -1) (-1) := ⟨fun _ _ h => absurd h (by decide), fun _ => le_rfl⟩
  obtain ⟨hproper, hcolored⟩ := hstart.colorLoop hg (sgDegreeOrder adj)
  exact ⟨hcolored u (.inl (mem_sgDegreeOrder adj u)), Int.lt_of_le_sub_one (hproper.le u)⟩

/-! ## The number of colors -/

lemma length_sgInsertDistinct_le {α : Type} [LinearOrder α] (x : α) (lst : List α) :
    (sgInsertDistinct x lst).length ≤ lst.length + 1 := by
  induction lst with
  | nil => simp [sgInsertDistinct]
  | cons y lst ih =>
    rw [sgInsertDistinct]
    split_ifs
    · omega
    · rw [List.length_cons]
    · rw [List.length_cons, List.length_cons]
      omega

lemma length_foldl_insert_le {α ι : Type} [LinearOrder α] (P : ι → Prop) [DecidablePred P]
    (g : ι → α) (l : List ι) (acc : List α) :
    (l.foldl (fun acc i => if P i then sgInsertDistinct (g i) acc else acc) acc).length ≤
      acc.length + l.countP P := by
  induction l generalizing acc with
  | nil => simp
  | cons i l ih =>
    rw [List.foldl_cons]
    by_cases hP : P i
    · have hrest := ih (sgInsertDistinct (g i) acc)
      have hstep := length_sgInsertDistinct_le (g i) acc
      rw [if_pos hP, List.countP_cons_of_pos (by simpa using hP)]
      omega
    · rw [if_neg hP, List.countP_cons_of_neg (by simpa using hP)]
      exact ih acc

/-- Every neighbour forbids its own color and those of its neighbours other than `v`. -/
lemma length_sgForbidden_le (hg : Graph adj) (color : Fin m → ℤ) (v : Fin m) {d : ℕ}
    (hd : ∀ u, (adj u).length ≤ d) : (sgForbidden adj color v).length ≤ d * d := by
  have hcount : ∀ u ∈ adj v, (adj u).countP (fun w => w ≠ v ∧ color w ≥ 0) + 1 ≤ d := by
    intro u hu
    have hv : v ∈ adj u := hg.symm hu
    have hlt : (adj u).countP (fun w => w ≠ v ∧ color w ≥ 0) < (adj u).length :=
      List.countP_lt_length_iff.2 ⟨v, hv, by simp⟩
    have := hd u
    omega
  have hloop : ∀ (us : List (Fin m)) (acc : List ℤ), us ⊆ adj v →
      (us.foldl (fun acc u =>
        let acc := if color u ≥ 0 then sgInsertDistinct (color u) acc else acc
        (adj u).foldl (fun acc w =>
          if w ≠ v ∧ color w ≥ 0 then sgInsertDistinct (color w) acc else acc) acc) acc).length ≤
      acc.length + us.length * d := by
    intro us
    induction us with
    | nil => simp
    | cons u us ih =>
      intro acc hsub
      obtain ⟨hu, hus⟩ := List.cons_subset.1 hsub
      have hown : (if color u ≥ 0 then sgInsertDistinct (color u) acc else acc).length ≤
          acc.length + 1 := by
        split_ifs
        · exact length_sgInsertDistinct_le _ _
        · exact Nat.le_succ _
      have hinner : ((adj u).foldl (fun acc w =>
          if w ≠ v ∧ color w ≥ 0 then sgInsertDistinct (color w) acc else acc)
          (if color u ≥ 0 then sgInsertDistinct (color u) acc else acc)).length ≤
          (if color u ≥ 0 then sgInsertDistinct (color u) acc else acc).length +
            (adj u).countP (fun w => w ≠ v ∧ color w ≥ 0) :=
        length_foldl_insert_le (fun w => w ≠ v ∧ color w ≥ 0) color (adj u) _
      have hle := hcount u hu
      rw [List.foldl_cons, List.length_cons, Nat.succ_mul]
      refine (ih _ hus).trans ?_
      refine (Nat.add_le_add_right (hinner.trans (Nat.add_le_add_right hown _)) _).trans ?_
      omega
  have hall := hloop (adj v) [] (List.Subset.refl _)
  calc (sgForbidden adj color v).length ≤ (adj v).length * d := by simpa [sgForbidden] using hall
    _ ≤ d * d := Nat.mul_le_mul_right d (hd v)

/-- The number of colors is bounded by the degree, whatever the number of vertices. -/
lemma sgColorGraph_le (hg : Graph adj) {d : ℕ} (hd : ∀ u, (adj u).length ≤ d) :
    (sgColorGraph adj).2 ≤ (d * d + 1 : ℕ) := by
  have hloop : ∀ (os : List (Fin m)) (color : Fin m → ℤ) (kmax : ℤ), kmax ≤ (d * d : ℕ) →
      (colorLoop adj os color kmax).2 ≤ (d * d + 1 : ℕ) := by
    intro os
    induction os with
    | nil =>
      intro color kmax hk
      rw [colorLoop]
      omega
    | cons v os ih =>
      intro color kmax hk
      apply ih
      have hfree := sgSmallestFree_le (sgForbidden adj color v)
      have hlen := length_sgForbidden_le hg color v hd
      split_ifs <;> omega
  exact hloop _ _ _ (by omega)

/-- The greedy coloring of any graph: its colors are numbered, vertices within distance two differ,
and their number is bounded by the degree alone. -/
theorem sgColorGraph_spec (hg : Graph adj) {d : ℕ} (hd : ∀ u, (adj u).length ≤ d) :
    (∀ u v, u ≠ v → Near adj u v → (sgColorGraph adj).1 u ≠ (sgColorGraph adj).1 v) ∧
      (∀ u, 0 ≤ (sgColorGraph adj).1 u ∧ (sgColorGraph adj).1 u < (sgColorGraph adj).2) ∧
      (sgColorGraph adj).2 ≤ (d * d + 1 : ℕ) :=
  ⟨fun _ _ hne hnear => sgColorGraph_apart hg hne hnear, sgColorGraph_bounds hg, sgColorGraph_le hg hd⟩

/-- A path of four vertices. -/
theorem sgColorGraph_spec_path :
    (∀ u v : Fin 4, u ≠ v → Near (sgGraphFromPattern 4 [[0, 1], [1, 2], [2, 3]]) u v →
        (sgColorGraph (sgGraphFromPattern 4 [[0, 1], [1, 2], [2, 3]])).1 u ≠
          (sgColorGraph (sgGraphFromPattern 4 [[0, 1], [1, 2], [2, 3]])).1 v) ∧
      (∀ u, 0 ≤ (sgColorGraph (sgGraphFromPattern 4 [[0, 1], [1, 2], [2, 3]])).1 u ∧
        (sgColorGraph (sgGraphFromPattern 4 [[0, 1], [1, 2], [2, 3]])).1 u <
          (sgColorGraph (sgGraphFromPattern 4 [[0, 1], [1, 2], [2, 3]])).2) ∧
      (sgColorGraph (sgGraphFromPattern 4 [[0, 1], [1, 2], [2, 3]])).2 ≤ (2 * 2 + 1 : ℕ) :=
  sgColorGraph_spec (graph_sgGraphFromPattern _) (by decide)

/-! ## What the rows hold -/

section rows

variable {K : Type} [Field K] [LinearOrder K] {col : Fin m} {val w : K} {row : List (Fin m × K)}

/-- The columns of a row ascend. -/
def Ascending (row : List (Fin m × K)) : Prop := row.Pairwise fun e e' => e.1 < e'.1

omit [Field K] [LinearOrder K] in
lemma mem_or_eq_of_mem_sgCsrInsert {e : Fin m × K} (h : e ∈ sgCsrInsert col val row) :
    e = (col, val) ∨ e ∈ row := by
  induction row with
  | nil => exact .inl (List.mem_singleton.1 h)
  | cons d row ih =>
    rw [sgCsrInsert] at h
    split_ifs at h
    · exact (List.mem_cons.1 h).imp_right (List.mem_cons_of_mem _)
    · exact List.mem_cons.1 h
    · rcases List.mem_cons.1 h with rfl | h
      · exact .inr List.mem_cons_self
      · exact (ih h).imp_right (List.mem_cons_of_mem _)

omit [Field K] [LinearOrder K] in
/-- An insertion adds its column and loses none. -/
lemma col_mem_sgCsrInsert {j : Fin m} :
    j ∈ (sgCsrInsert col val row).map Prod.fst ↔ j = col ∨ j ∈ row.map Prod.fst := by
  induction row with
  | nil => simp [sgCsrInsert]
  | cons d row ih =>
    rw [sgCsrInsert]
    split_ifs with heq
    · simp [heq]
    · simp
    · rw [List.map_cons, List.mem_cons, ih, List.map_cons, List.mem_cons]
      tauto

omit [Field K] [LinearOrder K] in
lemma Ascending.sgCsrInsert (h : Ascending row) (col : Fin m) (val : K) :
    Ascending (sgCsrInsert col val row) := by
  induction row with
  | nil => exact List.pairwise_singleton _ _
  | cons d row ih =>
    obtain ⟨hd, hrow⟩ := List.pairwise_cons.1 h
    rw [SparseGuw.sgCsrInsert]
    split_ifs with heq hlt
    · exact List.pairwise_cons.2 ⟨fun e he => heq ▸ hd e he, hrow⟩
    · refine List.pairwise_cons.2 ⟨fun e he => ?_, h⟩
      rcases List.mem_cons.1 he with rfl | he
      · exact hlt
      · exact hlt.trans (hd e he)
    · refine List.pairwise_cons.2 ⟨fun e he => ?_, ih hrow⟩
      rcases mem_or_eq_of_mem_sgCsrInsert he with rfl | he
      · exact lt_of_le_of_ne (not_lt.1 hlt) (Ne.symm heq)
      · exact hd e he

omit [Field K] [LinearOrder K] in
/-- An ascending row is read by its columns. -/
lemma Ascending.lookup (h : Ascending row) (hmem : (col, val) ∈ row) : row.lookup col = some val := by
  induction row with
  | nil => cases hmem
  | cons d row ih =>
    obtain ⟨hd, hrow⟩ := List.pairwise_cons.1 h
    rw [List.lookup_cons]
    rcases List.mem_cons.1 hmem with rfl | hmem
    · rw [beq_self_eq_true]
    · rw [beq_false_of_ne (hd _ hmem).ne']
      exact ih hrow hmem

variable {entries : List (Fin m × Fin m × K)}

/-- The rows of a list of entries: ascending, with the columns of the entries and their values. -/
structure RowsOf (entries : List (Fin m × Fin m × K)) (rows : Fin m → List (Fin m × K)) : Prop where
  ascending : ∀ i, Ascending (rows i)
  mem : ∀ {i j v}, (j, v) ∈ rows i → (i, j, v) ∈ entries
  col_mem : ∀ {i j v}, (i, j, v) ∈ entries → j ∈ (rows i).map Prod.fst

omit [Field K] [LinearOrder K] in
lemma rowsOf_csrRows (entries : List (Fin m × Fin m × K)) : RowsOf entries (csrRows entries) := by
  induction entries using List.reverseRecOn with
  | nil =>
    constructor
    · exact fun i => List.Pairwise.nil
    · intro i j v h
      cases h
    · intro i j v h
      cases h
  | append_singleton entries e ih =>
    obtain ⟨a, b, w⟩ := e
    have hrows : csrRows (entries ++ [(a, b, w)]) = Function.update (csrRows entries) a
        (sgCsrInsert b w (csrRows entries a)) := by
      rw [csrRows, List.foldl_append]
      rfl
    rw [hrows]
    constructor
    · intro i
      by_cases hia : i = a
      · subst hia
        rw [Function.update_self]
        exact (ih.ascending i).sgCsrInsert b w
      · rw [Function.update_of_ne hia]
        exact ih.ascending i
    · intro i j v h
      rw [List.mem_append, List.mem_singleton]
      by_cases hia : i = a
      · subst hia
        rw [Function.update_self] at h
        rcases mem_or_eq_of_mem_sgCsrInsert h with heq | h
        · cases heq
          exact .inr rfl
        · exact .inl (ih.mem h)
      · rw [Function.update_of_ne hia] at h
        exact .inl (ih.mem h)
    · intro i j v h
      rw [List.mem_append, List.mem_singleton] at h
      by_cases hia : i = a
      · subst hia
        rw [Function.update_self, col_mem_sgCsrInsert]
        rcases h with h | h
        · exact .inr (ih.col_mem h)
        · cases h
          exact .inl rfl
      · rw [Function.update_of_ne hia]
        rcases h with h | h
        · exact ih.col_mem h
        · cases h
          exact absurd rfl hia

/-! ## What the three vectors hold -/

variable {row : List (Fin m × K)} {done pad : List ℕ} {done' pad' : List K} {p : ℕ}

lemma set_append_cons {α : Type} {done : List α} (h : done.length = p) (pad : List α) (a b : α) :
    (done ++ a :: pad).set p b = done ++ [b] ++ pad := by
  subst h
  induction done with
  | nil => rfl
  | cons d done ih => simp [ih]

omit [Field K] [LinearOrder K] in
/-- A row is written over as many slots. -/
lemma fillRow_eq (ptr : List ℕ) (row : List (Fin m × K)) (hdone : done.length = p)
    (hdone' : done'.length = p) (hpad : row.length ≤ pad.length) (hpad' : row.length ≤ pad'.length) :
    fillRow row p ⟨ptr, done ++ pad, done' ++ pad'⟩ = (p + row.length, ⟨ptr,
      done ++ (row.map fun e => e.1.val) ++ pad.drop row.length,
      done' ++ row.map Prod.snd ++ pad'.drop row.length⟩) := by
  induction row generalizing p done done' pad pad' with
  | nil => simp [fillRow]
  | cons e row ih =>
    obtain ⟨a, pad, rfl⟩ := List.exists_cons_of_length_pos (Nat.lt_of_lt_of_le (Nat.succ_pos _) hpad)
    obtain ⟨b, pad', rfl⟩ := List.exists_cons_of_length_pos (Nat.lt_of_lt_of_le (Nat.succ_pos _) hpad')
    rw [fillRow]
    simp only
    rw [set_append_cons hdone, set_append_cons hdone', ih (by simp [hdone]) (by simp [hdone'])
      (Nat.le_of_succ_le_succ hpad) (Nat.le_of_succ_le_succ hpad')]
    simp [Nat.add_right_comm, Nat.add_assoc]

/-- The row pointers of rows that begin at `pos`. -/
def offsets {α : Type} : ℕ → List (List α) → List ℕ
  | pos, [] => [pos]
  | pos, row :: rows => pos :: offsets (pos + row.length) rows

omit [Field K] [LinearOrder K] in
lemma fillRows_eq (rows : List (List (Fin m × K))) (ptrs ppad done pad : List ℕ)
    (done' pad' : List K) {i : ℕ} (hptrs : ptrs.length = i) (hdone : done.length = p) (hdone' : done'.length = p)
    (hppad : ppad.length = rows.length + 1) (hpad : rows.flatten.length ≤ pad.length)
    (hpad' : rows.flatten.length ≤ pad'.length) :
    fillRows rows i p ⟨ptrs ++ ppad, done ++ pad, done' ++ pad'⟩ = ⟨ptrs ++ offsets p rows,
      done ++ (rows.flatten.map fun e => e.1.val) ++ pad.drop rows.flatten.length,
      done' ++ rows.flatten.map Prod.snd ++ pad'.drop rows.flatten.length⟩ := by
  induction rows generalizing p i done done' pad pad' ptrs ppad with
  | nil =>
    obtain ⟨x, rfl⟩ := List.length_eq_one_iff.1 hppad
    rw [fillRows, set_append_cons hptrs]
    simp [offsets]
  | cons row rows ih =>
    obtain ⟨x, ppad, rfl⟩ := List.exists_cons_of_length_eq_add_one hppad
    rw [List.flatten_cons, List.length_append] at hpad hpad'
    have hle : row.length ≤ pad.length := by omega
    have hle' : row.length ≤ pad'.length := by omega
    have hrow := fillRow_eq (ptrs ++ [p] ++ ppad) row hdone hdone' hle hle'
    have hdrop : rows.flatten.length ≤ (pad.drop row.length).length := by
      rw [List.length_drop]
      omega
    have hdrop' : rows.flatten.length ≤ (pad'.drop row.length).length := by
      rw [List.length_drop]
      omega
    rw [fillRows, set_append_cons hptrs, hrow]
    simp only
    rw [ih _ _ _ _ _ _ (by simp [hptrs]) (by simp [hdone]) (by simp [hdone']) (Nat.succ.inj hppad)
      hdrop hdrop', offsets]
    simp [List.append_assoc]

/-- The compressed form of rows: they stand one after the other, the columns of each ascending, and row `i`
goes from its row pointer to the next one. Without entries the vectors have one slot. -/
structure Compressed (csr : Csr K) (rows : Fin m → List (Fin m × K)) : Prop where
  ascending : ∀ i, Ascending (rows i)
  rowPtr : csr.rowPtr = offsets 0 (List.ofFn rows)
  colIdx : csr.colIdx = ((List.ofFn rows).flatten.map fun e => e.1.val) ++
    List.replicate (1 - (List.ofFn rows).flatten.length) 0
  values : csr.values = (List.ofFn rows).flatten.map Prod.snd ++
    List.replicate (1 - (List.ofFn rows).flatten.length) 0

/-- The place of a row in the three vectors. -/
structure Placed (csr : Csr K) (i start : ℕ) (row : List (Fin m × K)) : Prop where
  rowPtr : csr.rowPtr[i]? = some start
  rowPtr_succ : csr.rowPtr[i + 1]? = some (start + row.length)
  colIdx : ∃ done pad, done.length = start ∧ csr.colIdx = done ++ (row.map fun e => e.1.val) ++ pad
  values : ∃ done pad, done.length = start ∧ csr.values = done ++ row.map Prod.snd ++ pad

lemma getElem?_offsets {α : Type} (rows : List (List α)) (p i : ℕ) (hi : i ≤ rows.length) :
    (offsets p rows)[i]? = some (p + (rows.take i).flatten.length) := by
  induction rows generalizing p i with
  | nil =>
    obtain rfl : i = 0 := Nat.le_zero.1 hi
    simp [offsets]
  | cons row rows ih =>
    cases i with
    | zero => simp [offsets]
    | succ i =>
      rw [offsets, List.getElem?_cons_succ, ih _ _ (Nat.le_of_succ_le_succ hi)]
      simp [Nat.add_assoc]

omit [LinearOrder K] in
lemma compressed_sgBuildCsr (entries : List (Fin m × Fin m × K)) :
    Compressed (sgBuildCsr entries) (csrRows entries) := by
  have hlen : (List.ofFn (csrRows entries)).length = m := List.length_ofFn
  have hascending := (rowsOf_csrRows entries).ascending
  generalize hslots : (if ((List.ofFn (csrRows entries)).map List.length).sum > 0
    then ((List.ofFn (csrRows entries)).map List.length).sum else 1) = slots
  have hpad : slots - (List.ofFn (csrRows entries)).flatten.length =
      1 - (List.ofFn (csrRows entries)).flatten.length := by
    rw [List.length_flatten, ← hslots]
    split_ifs <;> omega
  have hle : (List.ofFn (csrRows entries)).flatten.length ≤ slots := by
    rw [List.length_flatten, ← hslots]
    split_ifs <;> omega
  have hcsr := fillRows_eq (List.ofFn (csrRows entries)) [] (List.replicate (m + 1) 0) []
    (List.replicate slots 0) [] (List.replicate slots (0 : K)) (i := 0) (p := 0) rfl rfl rfl (by simp)
    (by rwa [List.length_replicate]) (by rwa [List.length_replicate])
  simp only [List.nil_append, List.drop_replicate, hpad] at hcsr
  unfold sgBuildCsr
  simp only [hslots]
  rw [hcsr]
  exact ⟨hascending, rfl, rfl, rfl⟩

variable {csr : Csr K} {rows : Fin m → List (Fin m × K)}

omit [LinearOrder K] in
/-- Every row has its place. -/
lemma Compressed.placed (h : Compressed csr rows) (i : Fin m) : ∃ start, Placed csr i start (rows i) := by
  obtain ⟨-, hptr, hcol, hval⟩ := h
  have hlt : i.val < (List.ofFn rows).length := i.isLt.trans_eq List.length_ofFn.symm
  -- the rows before, the row, the rows after
  have htake : (List.ofFn rows).take (i.val + 1) = (List.ofFn rows).take i.val ++ [rows i] := by
    rw [List.take_succ_eq_append_getElem hlt, List.getElem_ofFn]
  have hsplit : (List.ofFn rows).flatten = ((List.ofFn rows).take i.val).flatten ++ rows i ++
      ((List.ofFn rows).drop (i.val + 1)).flatten := by
    conv_lhs => rw [← List.take_append_drop (i.val + 1) (List.ofFn rows), htake]
    simp
  refine ⟨((List.ofFn rows).take i.val).flatten.length, ?_, ?_, ?_, ?_⟩
  · rw [hptr, getElem?_offsets _ 0 i.val hlt.le, Nat.zero_add]
  · rw [hptr, getElem?_offsets _ 0 (i.val + 1) hlt, htake, Nat.zero_add]
    simp
  · refine ⟨((List.ofFn rows).take i.val).flatten.map fun e => e.1.val,
      ((List.ofFn rows).drop (i.val + 1)).flatten.map (fun e => e.1.val) ++
        List.replicate (1 - (List.ofFn rows).flatten.length) 0, List.length_map _, ?_⟩
    have hmap := congrArg (List.map fun e : Fin m × K => e.1.val) hsplit
    simp only [List.map_append] at hmap
    rw [hcol, hmap, List.append_assoc]
  · refine ⟨((List.ofFn rows).take i.val).flatten.map Prod.snd,
      ((List.ofFn rows).drop (i.val + 1)).flatten.map Prod.snd ++
        List.replicate (1 - (List.ofFn rows).flatten.length) 0, List.length_map _, ?_⟩
    have hmap := congrArg (List.map (Prod.snd : Fin m × K → K)) hsplit
    simp only [List.map_append] at hmap
    rw [hval, hmap, List.append_assoc]

omit [LinearOrder K] in
/-- The scan of a row finds what the row has in a column. -/
lemma refLoop_eq (csr : Csr K) (row : List (Fin m × K)) (j : Fin m) (done : List ℕ)
    (done' : List K) (hdone : done.length = p)
    (hdone' : done'.length = p) (hcol : csr.colIdx = done ++ (row.map fun e => e.1.val) ++ pad)
    (hval : csr.values = done' ++ row.map Prod.snd ++ pad') :
    refLoop csr j (p + row.length) p = (row.lookup j).getD 0 := by
  induction row generalizing p done done' with
  | nil =>
    rw [refLoop, if_pos (by simp)]
    rfl
  | cons e row ih =>
    have hcol0 : csr.colIdx[p]? = some e.1.val := by simp [hcol, ← hdone]
    have hval0 : csr.values[p]? = some e.2 := by simp [hval, ← hdone']
    have hrest := ih (p := p + 1) (done ++ [e.1.val]) (done' ++ [e.2]) (by simp [hdone])
      (by simp [hdone']) (by simp [hcol]) (by simp [hval])
    rw [refLoop, if_neg (by simp), hcol0, hval0, Option.getD_some, Option.getD_some, List.lookup_cons]
    by_cases hj : j = e.1
    · rw [if_pos (congrArg Fin.val hj.symm), hj, beq_self_eq_true]
      rfl
    · rw [if_neg fun h => hj (Fin.ext h.symm), beq_false_of_ne hj]
      rw [List.length_cons, Nat.add_comm row.length 1, ← Nat.add_assoc]
      exact hrest

omit [LinearOrder K] in
lemma nonzerosRow_eq (csr : Csr K) (i : ℕ) (row : List (Fin m × K)) (a : List (ℕ × ℕ × K))
    (pad : List ℕ) (pad' : List K) (hdone : done.length = p) (hdone' : done'.length = p)
    (hcol : csr.colIdx = done ++ (row.map fun e => e.1.val) ++ pad)
    (hval : csr.values = done' ++ row.map Prod.snd ++ pad') :
    nonzerosRow csr i p row.length a = row.map (fun e => (i, e.1.val, e.2)) ++ a := by
  induction row using List.reverseRecOn generalizing a pad pad' with
  | nil => rfl
  | append_singleton row e ih =>
    have hcol0 : csr.colIdx[p + row.length]? = some e.1.val := by simp [hcol, ← hdone]
    have hval0 : csr.values[p + row.length]? = some e.2 := by simp [hval, ← hdone']
    rw [List.length_append, List.length_singleton, nonzerosRow, hcol0, hval0,
      ih _ (e.1.val :: pad) (e.2 :: pad') (by simp [hcol]) (by simp [hval])]
    simp

omit [LinearOrder K] in
/-- The stored entries, row by row. -/
lemma nonzerosRows_eq (csr : Csr K) (rows : Fin m → List (Fin m × K))
    (hplaced : ∀ i : Fin m, ∃ start, Placed csr i start (rows i)) (i : ℕ) (hi : i ≤ m)
    (acc : List (ℕ × ℕ × K)) :
    nonzerosRows csr i acc = ((List.finRange m).take i).flatMap
      (fun i => (rows i).map fun e => (i.val, e.1.val, e.2)) ++ acc := by
  induction i generalizing acc with
  | zero => simp [nonzerosRows]
  | succ i ih =>
    have hlt : i < (List.finRange m).length := hi.trans_eq (List.length_finRange).symm
    obtain ⟨start, hrow⟩ := hplaced ⟨i, hi⟩
    obtain ⟨done, pad, hdone, hcol⟩ := hrow.colIdx
    obtain ⟨done', pad', hdone', hval⟩ := hrow.values
    have hstart : csr.rowPtr[i]? = some start := hrow.rowPtr
    have hstop : csr.rowPtr[i + 1]? = some (start + (rows ⟨i, hi⟩).length) := hrow.rowPtr_succ
    rw [nonzerosRows, hstart, hstop]
    simp only [Option.getD_some, Nat.add_sub_cancel_left]
    rw [nonzerosRow_eq csr i _ acc pad pad' hdone hdone' hcol hval, ih (Nat.le_of_succ_le hi),
      List.take_succ_eq_append_getElem hlt, List.flatMap_append]
    simp

variable {sp : Shess K} {entries : List (Fin m × Fin m × K)}

omit [LinearOrder K] in
lemma sparseHessianRef_eq (h : sp.csr = sgBuildCsr entries) (i j : Fin m) :
    sparseHessianRef sp i j = ((csrRows entries i).lookup j).getD 0 := by
  obtain ⟨start, hrow⟩ := (compressed_sgBuildCsr entries).placed i
  obtain ⟨done, pad, hdone, hcol⟩ := hrow.colIdx
  obtain ⟨done', pad', hdone', hval⟩ := hrow.values
  rw [sparseHessianRef, h, hrow.rowPtr, hrow.rowPtr_succ, Option.getD_some, Option.getD_some]
  exact refLoop_eq _ _ _ done done' hdone hdone' hcol hval

omit [LinearOrder K] in
/-- A reference gives the value of an entry, or zero where there is none. -/
lemma sparseHessianRef_cases (h : sp.csr = sgBuildCsr entries) (i j : Fin m) :
    (i, j, sparseHessianRef sp i j) ∈ entries ∨
      (∀ v, (i, j, v) ∉ entries) ∧ sparseHessianRef sp i j = 0 := by
  have hrows := rowsOf_csrRows entries
  rw [sparseHessianRef_eq h]
  by_cases hcol : j ∈ (csrRows entries i).map Prod.fst
  · left
    obtain ⟨⟨j, v⟩, he, rfl⟩ := List.mem_map.1 hcol
    rw [(hrows.ascending i).lookup he]
    exact hrows.mem he
  · refine .inr ⟨fun v hv => hcol (hrows.col_mem hv), ?_⟩
    have hnone : (csrRows entries i).lookup j = none := by
      rw [List.lookup_eq_none_iff]
      intro e he
      apply bne_iff_ne.2
      rintro rfl
      exact hcol (List.mem_map_of_mem he)
    rw [hnone]
    rfl

/-- A sparse Hessian is compressed rows. Its listing has the entries in order, each once, with the value
that a reference gives, and leaves out zeros alone. -/
structure Listed (sp : Shess K) : Prop where
  compressed : ∃ rows : Fin sp.m → List (Fin sp.m × K), Compressed sp.csr rows
  ascending : (sparseHessianNonzeros sp).Pairwise fun e e' =>
    e.1 < e'.1 ∨ e.1 = e'.1 ∧ e.2.1 < e'.2.1
  ref : ∀ {i j v}, (i, j, v) ∈ sparseHessianNonzeros sp → sparseHessianRef sp i j = v
  mem : ∀ {i j}, i < sp.m → j < sp.m → sparseHessianRef sp i j ≠ 0 →
    (i, j, sparseHessianRef sp i j) ∈ sparseHessianNonzeros sp

omit [LinearOrder K] in
lemma sparseHessianNonzeros_eq (h : sp.csr = sgBuildCsr entries) (hm : sp.m = m) :
    sparseHessianNonzeros sp = (List.finRange m).flatMap
      fun i => (csrRows entries i).map fun e => (i.val, e.1.val, e.2) := by
  have hrows := nonzerosRows_eq (sgBuildCsr entries) (csrRows entries)
    (compressed_sgBuildCsr entries).placed m le_rfl []
  rw [sparseHessianNonzeros, h, hm, hrows, List.take_of_length_le (by simp), List.append_nil]

omit [LinearOrder K] in
lemma listed_of_csr (h : sp.csr = sgBuildCsr entries) (hm : sp.m = m) : Listed sp := by
  have hrows := rowsOf_csrRows entries
  constructor
  · subst hm
    exact ⟨csrRows entries, h ▸ compressed_sgBuildCsr entries⟩
  · rw [sparseHessianNonzeros_eq h hm, List.pairwise_flatMap]
    constructor
    · intro i _
      rw [List.pairwise_map]
      exact (hrows.ascending i).imp fun hlt => .inr ⟨rfl, hlt⟩
    · refine (List.pairwise_lt_finRange m).imp fun hlt e he e' he' => .inl ?_
      obtain ⟨d, -, rfl⟩ := List.mem_map.1 he
      obtain ⟨d', -, rfl⟩ := List.mem_map.1 he'
      exact hlt
  · intro i j v hmem
    rw [sparseHessianNonzeros_eq h hm] at hmem
    obtain ⟨i, -, he⟩ := List.mem_flatMap.1 hmem
    obtain ⟨⟨j, v⟩, hrow, heq⟩ := List.mem_map.1 he
    cases heq
    rw [sparseHessianRef_eq h, (hrows.ascending i).lookup hrow]
    rfl
  · intro i j hi hj hne
    rw [hm] at hi hj
    lift i to Fin m using hi
    lift j to Fin m using hj
    rw [sparseHessianRef_eq h] at hne ⊢
    rw [sparseHessianNonzeros_eq h hm]
    cases hlook : (csrRows entries i).lookup j with
    | none =>
      rw [hlook] at hne
      exact absurd rfl hne
    | some v =>
      obtain ⟨before, after, hrow, -⟩ := List.lookup_eq_some_iff.1 hlook
      refine List.mem_flatMap.2 ⟨i, List.mem_finRange i, List.mem_map.2 ⟨(j, v), ?_, rfl⟩⟩
      rw [hrow]
      exact List.mem_append_right _ List.mem_cons_self

/-! ## The entries that are recovered -/

variable {hvp : (Fin m → K) → Fin m → K} {e : Fin m × Fin m × K}

/-- The entries of an edge that the vertex `i` reads. -/
lemma mem_recoverRow {hv : ℤ → Fin m → K} {i : Fin m} (ns : List (Fin m))
    {a l : List (Fin m × Fin m × K)} (h : recoverRow hv color i ns a = some l) :
    e ∈ l ↔ e ∈ a ∨
      ∃ j ∈ ns, j > i ∧ (e = (i, j, hv (color j) i) ∨ e = (j, i, hv (color j) i)) := by
  induction ns generalizing a with
  | nil =>
    cases h
    simp
  | cons j ns ih =>
    rw [recoverRow] at h
    split_ifs at h with hlt
    · dsimp only at h
      split_ifs at h
      rw [ih h, List.mem_cons, List.mem_cons]
      constructor
      · rintro ((he | he | he) | ⟨j', hj', h⟩)
        · exact .inr ⟨j, List.mem_cons_self, hlt, .inr he⟩
        · exact .inr ⟨j, List.mem_cons_self, hlt, .inl he⟩
        · exact .inl he
        · exact .inr ⟨j', List.mem_cons_of_mem _ hj', h⟩
      · rintro (he | ⟨j', hj', hlt', he⟩)
        · exact .inl (.inr (.inr he))
        · rcases List.mem_cons.1 hj' with rfl | hj'
          · exact .inl (he.symm.imp_right .inl)
          · exact .inr ⟨j', hj', hlt', he⟩
    · rw [ih h]
      refine or_congr_right ⟨?_, ?_⟩
      · rintro ⟨j', hj', h⟩
        exact ⟨j', List.mem_cons_of_mem _ hj', h⟩
      · rintro ⟨j', hj', hlt', he⟩
        rcases List.mem_cons.1 hj' with rfl | hj'
        · exact absurd hlt' hlt
        · exact ⟨j', hj', hlt', he⟩

/-- The entry that stands at `i` and `j` when it is read with the color of `j`. -/
def Reads (hv : ℤ → Fin m → K) (color : Fin m → ℤ) (adj : Adj m) (i : Fin m)
    (e : Fin m × Fin m × K) : Prop :=
  e = (i, i, hv (color i) i) ∨
    ∃ j ∈ adj i, j > i ∧ (e = (i, j, hv (color j) i) ∨ e = (j, i, hv (color j) i))

lemma mem_recoverRows {hv : ℤ → Fin m → K} (is : List (Fin m)) {acc l : List (Fin m × Fin m × K)}
    (h : recoverRows hv color adj is acc = some l) :
    e ∈ l ↔ e ∈ acc ∨ ∃ i ∈ is, Reads hv color adj i e := by
  induction is generalizing acc with
  | nil =>
    cases h
    simp
  | cons i is ih =>
    obtain ⟨a, hrow, hrest⟩ := Option.bind_eq_some_iff.1 h
    have hreads : Reads hv color adj i e ↔ e = (i, i, hv (color i) i) ∨
      ∃ j ∈ adj i, j > i ∧ (e = (i, j, hv (color j) i) ∨ e = (j, i, hv (color j) i)) := Iff.rfl
    rw [ih hrest, mem_recoverRow _ hrow, List.mem_cons]
    simp only [List.mem_cons, exists_eq_or_imp]
    rw [hreads, or_assoc, or_assoc, or_left_comm, or_assoc]

lemma mem_sgRecoverEntries {l : List (Fin m × Fin m × K)}
    (h : sgRecoverEntries hvp adj color = some l) :
    e ∈ l ↔ ∃ i, Reads (colorHv hvp color) color adj i e := by
  rw [mem_recoverRows _ h]
  simp

lemma mem_denseEntries (cols : Fin m → Fin m → K) :
    e ∈ denseEntries cols ↔
      ∃ i j, (i = j ∨ |cols j i| > 1 / (10 ^ 13 : ℕ)) ∧ e = (i, j, cols j i) := by
  have hentry : ∀ (i : Fin m) (a : List (Fin m × Fin m × K)) (j : Fin m),
      e ∈ (if i = j ∨ |cols j i| > 1 / (10 ^ 13 : ℕ) then (i, j, cols j i) :: a else a) ↔
      e ∈ a ∨ (i = j ∨ |cols j i| > 1 / (10 ^ 13 : ℕ)) ∧ e = (i, j, cols j i) := by
    intro i a j
    split_ifs with hkeep
    · rw [List.mem_cons, or_comm, and_iff_right hkeep]
    · rw [or_iff_left fun h => hkeep h.1]
  have hrow : ∀ (acc : List (Fin m × Fin m × K)) (i : Fin m),
      e ∈ (List.finRange m).foldl (fun a j =>
        if i = j ∨ |cols j i| > 1 / (10 ^ 13 : ℕ) then (i, j, cols j i) :: a else a) acc ↔
      e ∈ acc ∨ ∃ j, (i = j ∨ |cols j i| > 1 / (10 ^ 13 : ℕ)) ∧ e = (i, j, cols j i) := by
    intro acc i
    rw [foldl_iff (e ∈ ·) (hentry i)]
    simp
  refine (foldl_iff (e ∈ ·) hrow (List.finRange m) []).trans ?_
  simp

/-! ## The error of recovery -/

/-- The products with the Hessian `H` in the directions of zeros and ones are right within `ε`. -/
def Products (hvp : (Fin m → K) → Fin m → K) (H : Fin m → Fin m → K) (ε : K) : Prop :=
  ∀ w : Fin m → K, (∀ u, w u = 0 ∨ w u = 1) → ∀ i, |hvp w i - ∑ u, H i u * w u| ≤ ε

variable {H : Fin m → Fin m → K} {δ ε : K}

/-- The product of a color collects the entries of its class. -/
lemma Products.colorHv (h : Products hvp H ε) (color : Fin m → ℤ) (c : ℤ) (i : Fin m) :
    |colorHv hvp color c i - ∑ u with color u = c, H i u| ≤ ε := by
  have hsum : ∑ u with color u = c, H i u = ∑ u, H i u * indicator color c u := by
    rw [Finset.sum_filter]
    apply Finset.sum_congr rfl
    intro u _
    simp only [indicator, mul_ite, mul_one, mul_zero]
  rw [hsum]
  exact h _ (fun u => (ite_eq_or_eq _ _ _).symm) i

lemma Products.sgFullHessianCols (h : Products hvp H ε) (j i : Fin m) :
    |sgFullHessianCols hvp j i - H i j| ≤ ε := by
  have hsum : H i j = ∑ u, H i u * sgUnit j u := by
    rw [Finset.sum_eq_single j]
    · rw [sgUnit, Function.update_self, mul_one]
    · intro u _ hne
      rw [sgUnit, Function.update_of_ne hne, mul_zero]
    · intro hj
      exact absurd (Finset.mem_univ j) hj
  rw [hsum]
  refine h _ (fun u => ?_) i
  rcases eq_or_ne u j with rfl | hne
  · exact .inr (Function.update_self u 1 _)
  · exact .inl (Function.update_of_ne hne 1 _)

variable [IsStrictOrderedRing K]

/-- An entry is at most its product, up to the error of that. -/
lemma Products.abs_le (h : Products hvp H ε) {i j : Fin m} {τ : K} (hle : |SparseGuw.sgFullHessianCols hvp j i| ≤ τ) :
    |H i j| ≤ τ + ε := by
  have hentry := abs_sub_abs_le_abs_sub (H i j) (SparseGuw.sgFullHessianCols hvp j i)
  rw [abs_sub_comm] at hentry
  have herror := h.sgFullHessianCols j i
  linarith

/-- An edge is read from its color up to the entries that the graph leaves out: every other vertex
of the class is at distance two at most from its reader. -/
lemma abs_colorHv_sub_le (hg : Graph adj) (hhvp : Products hvp H ε)
    (hδ : 0 ≤ δ) (hsmall : ∀ i j, i ≠ j → j ∉ adj i → |H i j| ≤ δ) {i j : Fin m}
    (hij : j = i ∨ j ∈ adj i) :
    |colorHv hvp (sgColorGraph adj).1 ((sgColorGraph adj).1 j) i - H i j| ≤ m * δ + ε := by
  have hself : j ∈ Finset.univ.filter fun u => (sgColorGraph adj).1 u = (sgColorGraph adj).1 j :=
    Finset.mem_filter.2 ⟨Finset.mem_univ j, rfl⟩
  have hother : ∀ u ∈ (Finset.univ.filter fun u =>
      (sgColorGraph adj).1 u = (sgColorGraph adj).1 j).erase j, |H i u| ≤ δ := by
    intro u hu
    obtain ⟨huj, hu⟩ := Finset.mem_erase.1 hu
    have hcolor := (Finset.mem_filter.1 hu).2
    apply hsmall
    · rintro rfl
      have hadj := hij.resolve_left (Ne.symm huj)
      exact sgColorGraph_apart hg huj (.inl hadj) hcolor
    · intro hadj
      refine sgColorGraph_apart hg huj ?_ hcolor
      rcases hij with rfl | hij
      · exact .inl (hg.symm hadj)
      · exact .inr ⟨i, hg.symm hadj, hij⟩
  have hclass : |∑ u with (sgColorGraph adj).1 u = (sgColorGraph adj).1 j, H i u - H i j| ≤ m * δ := by
    rw [← Finset.add_sum_erase _ _ hself, add_sub_cancel_left]
    refine (Finset.abs_sum_le_sum_abs _ _).trans ((Finset.sum_le_card_nsmul _ _ δ hother).trans ?_)
    rw [nsmul_eq_mul]
    apply mul_le_mul_of_nonneg_right _ hδ
    exact_mod_cast (Finset.card_le_univ _).trans_eq (Fintype.card_fin m)
  refine (abs_sub_le _ (∑ u with (sgColorGraph adj).1 u = (sgColorGraph adj).1 j, H i u) _).trans ?_
  rw [add_comm]
  exact add_le_add hclass (hhvp.colorHv _ _ i)

/-- On the sparse path every reference is off by the entries that the graph leaves out alone. -/
lemma abs_sparse_sub_le (hg : Graph adj) (hsymm : ∀ i j, H i j = H j i)
    (hhvp : Products hvp H ε) (hε : 0 ≤ ε) (hδ : 0 ≤ δ)
    (hsmall : ∀ i j, i ≠ j → j ∉ adj i → |H i j| ≤ δ) {entries : List (Fin m × Fin m × K)}
    (hrecover : sgRecoverEntries hvp adj (sgColorGraph adj).1 = some entries)
    (hsp : sp.csr = sgBuildCsr entries) (i j : Fin m) :
    |sparseHessianRef sp i j - H i j| ≤ m * δ + ε := by
  rcases sparseHessianRef_cases hsp i j with hmem | ⟨hnone, hzero⟩
  · obtain ⟨a, heq | ⟨b, hb, -, heq | heq⟩⟩ := (mem_sgRecoverEntries hrecover).1 hmem
    · obtain ⟨rfl, rfl, hval⟩ : i = a ∧ j = a ∧ _ := by simpa using heq
      rw [hval]
      exact abs_colorHv_sub_le hg hhvp hδ hsmall (.inl rfl)
    · obtain ⟨rfl, rfl, hval⟩ : i = a ∧ j = b ∧ _ := by simpa using heq
      rw [hval]
      exact abs_colorHv_sub_le hg hhvp hδ hsmall (.inr hb)
    · obtain ⟨rfl, rfl, hval⟩ : i = b ∧ j = a ∧ _ := by simpa using heq
      rw [hval, hsymm]
      exact abs_colorHv_sub_le hg hhvp hδ hsmall (.inr hb)
  · -- neither end has read the edge, so that it is not in the graph
    have hne : i ≠ j := by
      rintro rfl
      exact hnone _ ((mem_sgRecoverEntries hrecover).2 ⟨i, .inl rfl⟩)
    have hadj : j ∉ adj i := by
      intro hadj
      rcases lt_or_gt_of_ne hne with hlt | hlt
      · exact hnone _ ((mem_sgRecoverEntries hrecover).2 ⟨i, .inr ⟨j, hadj, hlt, .inl rfl⟩⟩)
      · exact hnone _ ((mem_sgRecoverEntries hrecover).2
          ⟨j, .inr ⟨i, hg.symm hadj, hlt, .inr rfl⟩⟩)
    have hm : (1 : K) ≤ m := by exact_mod_cast i.pos
    rw [hzero, zero_sub, abs_neg]
    calc |H i j| ≤ 1 * δ := by
          rw [one_mul]
          exact hsmall i j hne hadj
      _ ≤ m * δ := mul_le_mul_of_nonneg_right hm hδ
      _ ≤ m * δ + ε := le_add_of_nonneg_right hε

omit [IsStrictOrderedRing K] in
/-- The dense fallback drops nothing but tiny entries beside the diagonal. -/
lemma dense_ref (hvp : (Fin m → K) → Fin m → K) (i j : Fin m) :
    sparseHessianRef (sgDenseHessian hvp) i j = sgFullHessianCols hvp j i ∨
      i ≠ j ∧ |sgFullHessianCols hvp j i| ≤ 1 / (10 ^ 13 : ℕ) ∧
        sparseHessianRef (sgDenseHessian hvp) i j = 0 := by
  have hcsr : (sgDenseHessian hvp).csr = sgBuildCsr (denseEntries (sgFullHessianCols hvp)) := rfl
  rcases sparseHessianRef_cases hcsr i j with hmem | ⟨hnone, hzero⟩
  · obtain ⟨a, b, -, heq⟩ := (mem_denseEntries _).1 hmem
    obtain ⟨rfl, rfl, hval⟩ : i = a ∧ j = b ∧ _ := by simpa using heq
    exact .inl hval
  · by_cases hkeep : i = j ∨ |sgFullHessianCols hvp j i| > 1 / (10 ^ 13 : ℕ)
    · exact absurd ((mem_denseEntries _).2 ⟨i, j, hkeep, rfl⟩) (hnone _)
    · rw [not_or, not_lt] at hkeep
      exact .inr ⟨hkeep.1, hkeep.2, hzero⟩

omit [IsStrictOrderedRing K] in
/-- A Hessian is the dense one, or what the colors recover. -/
lemma sgSparseHessianCore_cases (hvp : (Fin m → K) → Fin m → K) (adj : Adj m) :
    sgSparseHessianCore hvp adj = sgDenseHessian hvp ∨
      ∃ entries, sgRecoverEntries hvp adj (sgColorGraph adj).1 = some entries ∧
        sgSparseHessianCore hvp adj =
          ⟨m, sgBuildCsr entries, (sgColorGraph adj).2, (sgColorGraph adj).2, false⟩ := by
  dsimp only [sgSparseHessianCore]
  generalize (if m ≤ 1 then (1 : ℚ) else (m * (m - 1) : ℚ) / 2) = maxedges
  by_cases hdense : (sgColorGraph adj).2 ≥ m ∨ sgEdgeCount adj / maxedges > 6 / 10
  · exact .inl (if_pos hdense)
  · rw [if_neg hdense]
    cases hrecover : sgRecoverEntries hvp adj (sgColorGraph adj).1 with
    | none => exact .inl rfl
    | some entries => exact .inr ⟨entries, rfl, rfl⟩

omit [IsStrictOrderedRing K] in
/-- The non-zeros are listed in order whichever branch built them. -/
lemma listed_sgSparseHessianCore (hvp : (Fin m → K) → Fin m → K) (adj : Adj m) :
    Listed (sgSparseHessianCore hvp adj) := by
  rcases sgSparseHessianCore_cases hvp adj with heq | ⟨entries, -, heq⟩
  · have hcsr : (sgDenseHessian hvp).csr = sgBuildCsr (denseEntries (sgFullHessianCols hvp)) := rfl
    rw [heq]
    exact listed_of_csr hcsr rfl
  · have hcsr : (sgSparseHessianCore hvp adj).csr = sgBuildCsr entries := by rw [heq]
    exact listed_of_csr hcsr (by rw [heq])

/-- The Hessian of a chain of four variables. -/
def chainHessian (i j : Fin 4) : ℚ :=
  if i = j then 2 else if i.val + 1 = j.val ∨ j.val + 1 = i.val then 1 else 0

/-- Without a pattern, the probes and the error of the products bound the error of every entry. -/
theorem sparseHessian_close (sgHvp : (Fin m → K) → (Fin m → K) → Fin m → K)
    (sgPerturb : (Fin m → K) → ℕ → Fin m → K) (xs : Fin m → K) (hsymm : ∀ i j, H i j = H j i)
    (hε : 0 ≤ ε) (hhvp : Products (sgHvp xs) H ε) :
    Listed (sparseHessian sgHvp sgPerturb xs) ∧ ∀ i j : Fin m,
      |sparseHessianRef (sparseHessian sgHvp sgPerturb xs) i j - H i j| ≤
        m * (1 / (10 ^ 9 : ℕ) + ε) + ε := by
  have hg := graph_sgGraphFromProbe sgHvp sgPerturb xs
  refine ⟨listed_sgSparseHessianCore _ _, fun i j => ?_⟩
  have hm : (1 : K) ≤ m := by exact_mod_cast i.pos
  have hδ : (0 : K) ≤ 1 / (10 ^ 9 : ℕ) + ε := by positivity
  rw [sparseHessian]
  rcases sgSparseHessianCore_cases (sgHvp xs) (sgGraphFromProbe sgHvp sgPerturb xs) with
    heq | ⟨entries, hrecover, heq⟩
  · have hcols := hhvp.sgFullHessianCols j i
    rw [heq]
    rcases dense_ref (sgHvp xs) i j with hexact | ⟨-, hle, hzero⟩
    · rw [hexact]
      exact hcols.trans (le_add_of_nonneg_left (mul_nonneg (Nat.cast_nonneg m) hδ))
    · -- the entry that is dropped is its product up to the error of that
      rw [hzero, zero_sub, abs_neg]
      have htiny : (1 : K) / (10 ^ 13 : ℕ) ≤ 1 / (10 ^ 9 : ℕ) :=
        one_div_le_one_div_of_le (by positivity) (by exact_mod_cast Nat.pow_le_pow_right (by omega) (by omega))
      have hentry := hhvp.abs_le (hle.trans htiny)
      calc |H i j| ≤ 1 * (1 / (10 ^ 9 : ℕ) + ε) := by rwa [one_mul]
        _ ≤ m * (1 / (10 ^ 9 : ℕ) + ε) := mul_le_mul_of_nonneg_right hm hδ
        _ ≤ m * (1 / (10 ^ 9 : ℕ) + ε) + ε := le_add_of_nonneg_right hε
  · have hsmall : ∀ i j, i ≠ j → j ∉ sgGraphFromProbe sgHvp sgPerturb xs i →
        |H i j| ≤ 1 / (10 ^ 9 : ℕ) + ε := by
      intro i j hne hadj
      by_contra hbig
      -- the first probe, at the point itself, has marked the edge
      refine hadj ((mem_sgProbePoint _ _).2 (.inl ((mem_sgProbePoint _ _).2 (.inl
        ((mem_sgProbePoint _ _).2 (.inr ?_))))))
      rcases lt_or_gt_of_ne hne with hlt | hlt
      · refine ⟨i, j, hlt, ?_, hne, .inl ⟨rfl, rfl⟩⟩
        exact lt_of_not_ge fun h => hbig (hhvp.abs_le h)
      · refine ⟨j, i, hlt, ?_, hne.symm, .inr ⟨rfl, rfl⟩⟩
        rw [hsymm] at hbig
        exact lt_of_not_ge fun h => hbig (hhvp.abs_le h)
    have hcsr : (sgSparseHessianCore (sgHvp xs) (sgGraphFromProbe sgHvp sgPerturb xs)).csr =
        sgBuildCsr entries := by rw [heq]
    exact abs_sparse_sub_le hg hsymm hhvp hε hδ hsmall hrecover hcsr i j

/-- The products with a tenth of the chain's Hessian, to 54 bits after the point. -/
def tenthHvp (w : Fin 4 → ℚ) (i : Fin 4) : ℚ := ⌊(∑ u, chainHessian i u / 10 * w u) * 2 ^ 54⌋ / 2 ^ 54

theorem sparseHessian_close_chain :
    Listed (sparseHessian (fun _ => tenthHvp) (fun xs _ => xs) fun _ => 0) ∧
      ∀ i j : Fin 4,
        |sparseHessianRef (sparseHessian (fun _ => tenthHvp) (fun xs _ => xs) fun _ => 0) i j -
          chainHessian i j / 10| ≤ (4 : ℕ) * (1 / (10 ^ 9 : ℕ) + 1 / 2 ^ 54) + 1 / 2 ^ 54 := by
  refine sparseHessian_close (H := fun i j => chainHessian i j / 10) (fun _ => tenthHvp) (fun xs _ => xs)
    (fun _ => 0) (by decide +kernel) (by norm_num) fun w _ i => ?_
  rw [tenthHvp]
  generalize ∑ u, chainHessian i u / 10 * w u = q
  have hle := Int.floor_le (q * 2 ^ 54)
  have hlt := Int.lt_floor_add_one (q * 2 ^ 54)
  rw [abs_sub_le_iff]
  constructor
  · rw [sub_le_iff_le_add, div_le_iff₀ (by positivity), add_mul, one_div_mul_cancel (by positivity)]
    linarith
  · rw [sub_le_comm, le_div_iff₀ (by positivity), sub_mul, one_div_mul_cancel (by positivity)]
    linarith

end rows

end SparseGuw
