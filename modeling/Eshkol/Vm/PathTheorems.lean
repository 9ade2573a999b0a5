import Eshkol.Vm.Paths
import Mathlib.Algebra.BigOperators.Group.List.Basic

/-!
# Normal forms of paths

A normal form names its components, and its components are those that the walk over the path ends with. A path leads
from one location to another, and the normal form leads to the same one as long as the path does not leave the
directory that it starts in: a step above that directory is ignored, as it is above the root.
-/

namespace Vm.Paths

/-! ## Components -/

/-- No component is empty or holds a separator. -/
def Separated (parts : List (List UInt8)) : Prop := ∀ part ∈ parts, part ≠ [] ∧ vmPathSeparator ∉ part

/-- Every component is the name of a directory entry. -/
def Names (parts : List (List UInt8)) : Prop := ∀ part ∈ parts, part ≠ dot ∧ part ≠ dotDot

/-- Components with a separator between each two of them. -/
@[grind =]
def join (parts : List (List UInt8)) : List UInt8 := [vmPathSeparator].intercalate parts

/-- The text of components; without any it is the current directory. -/
@[grind =]
def render (absolute : Bool) (parts : List (List UInt8)) : List UInt8 :=
  if absolute then vmPathSeparator :: join parts else if parts = [] then dot else join parts

/-- The components that a text shows. -/
@[grind =]
def shown (absolute : Bool) (parts : List (List UInt8)) : List (List UInt8) :=
  if absolute = false ∧ parts = [] then [dot] else parts

lemma separated_dot : Separated [dot] := by
  intro part hpart
  rw [List.mem_singleton.1 hpart]
  decide

lemma Separated.shown {parts : List (List UInt8)} (h : Separated parts) (absolute : Bool) :
    Separated (shown absolute parts) := by
  unfold Paths.shown
  split_ifs
  · exact separated_dot
  · exact h

lemma not_mem_splitOn (text : List UInt8) : ∀ part ∈ text.splitOn vmPathSeparator, vmPathSeparator ∉ part := by
  induction text with
  | nil => simp [List.splitOn_nil]
  | cons byte text ih =>
    rw [List.splitOn_cons_eq_if_modifyHead]
    obtain ⟨first, rest, hsplit⟩ := List.exists_cons_of_ne_nil (List.splitOn_ne_nil vmPathSeparator text)
    rw [hsplit] at ih ⊢
    intro part hpart
    split_ifs at hpart with hbyte
    · rcases List.mem_cons.1 hpart with rfl | hrest
      · exact List.not_mem_nil
      · exact ih part hrest
    · rw [List.modifyHead_cons] at hpart
      rcases List.mem_cons.1 hpart with rfl | hrest
      · have hfirst := ih first List.mem_cons_self
        simp only [beq_iff_eq] at hbyte
        simp [hfirst, Ne.symm hbyte]
      · exact ih part (List.mem_cons_of_mem _ hrest)

lemma strtok_separated (text : List UInt8) : Separated (strtok text) := by
  intro part hpart
  have hmem := List.mem_filter.1 hpart
  exact ⟨by simpa using hmem.2, not_mem_splitOn text part hmem.1⟩

@[simp] lemma strtok_cons_separator (text : List UInt8) : strtok (vmPathSeparator :: text) = strtok text := by
  unfold strtok
  rw [List.splitOn_cons_eq_if_modifyHead, if_pos (by rfl), List.filter_cons_of_neg (by simp)]

lemma strtok_append (before after : List UInt8) :
    strtok (before ++ vmPathSeparator :: after) = strtok before ++ strtok after := by
  unfold strtok
  rw [List.splitOn_append_cons_self, List.filter_append]

lemma strtok_join {parts : List (List UInt8)} (h : Separated parts) : strtok (join parts) = parts := by
  unfold strtok join
  by_cases hempty : parts = []
  · rw [hempty]
    rfl
  · rw [List.splitOn_intercalate _ (fun part hpart => (h part hpart).2) hempty, List.filter_eq_self]
    intro part hpart
    simpa using (h part hpart).1

/-- A rendered path splits into its parts. -/
lemma strtok_render {parts : List (List UInt8)} (h : Separated parts) (absolute : Bool) :
    strtok (render absolute parts) = shown absolute parts := by
  cases absolute
  · by_cases hempty : parts = []
    · rw [hempty]
      rfl
    · simp only [render, shown, hempty, and_false, if_false, Bool.false_eq_true]
      exact strtok_join h
  · simp only [render, shown, if_true, Bool.true_eq_false, false_and, if_false]
    rw [strtok_cons_separator, strtok_join h]

lemma join_cons (part : List UInt8) (parts : List (List UInt8)) :
    join (part :: parts) = part ++ parts.flatMap (vmPathSeparator :: ·) := by
  induction parts generalizing part with
  | nil => simp [join]
  | cons next parts ih =>
    have hcons : join (part :: next :: parts) = part ++ vmPathSeparator :: join (next :: parts) := by
      simp [join, List.intercalate_cons_cons]
    rw [hcons, ih, List.flatMap_cons, List.cons_append]

lemma isAbsolute_render {parts : List (List UInt8)} (h : Separated parts) (absolute : Bool) :
    vmPathIsAbsoluteNative (render absolute parts) = absolute := by
  cases absolute
  · cases parts with
    | nil => rfl
    | cons part parts =>
      have hpart := h part List.mem_cons_self
      obtain ⟨byte, part, rfl⟩ := List.exists_cons_of_ne_nil hpart.1
      have hbyte : byte ≠ vmPathSeparator := fun heq => hpart.2 (heq ▸ List.mem_cons_self)
      simp [render, join_cons, vmPathIsAbsoluteNative, hbyte]
  · simp [render, vmPathIsAbsoluteNative]

/-! ## Writing -/

lemma appendPart_eq (resultLen : ℕ) (separator : Bool) (result part : List UInt8) :
    appendPart resultLen separator result part =
      if ((if separator then result ++ [vmPathSeparator] else result) ++ part).length < resultLen then
        some ((if separator then result ++ [vmPathSeparator] else result) ++ part)
      else none := by
  unfold appendPart
  cases separator <;> simp only [if_true, Bool.false_eq_true, if_false, true_and, false_and, List.length_append,
    List.length_singleton]
  · by_cases hfits : resultLen ≤ result.length + part.length
    · rw [if_pos hfits, if_neg (by omega)]
    · rw [if_neg hfits, if_pos (by omega)]
  · by_cases hfull : resultLen - 1 ≤ result.length
    · rw [if_pos hfull, if_neg (by omega)]
    · rw [if_neg hfull]
      by_cases hfits : resultLen ≤ result.length + 1 + part.length
      · rw [if_pos hfits, if_neg (by omega)]
      · rw [if_neg hfits, if_pos (by omega)]

/-- Components behind the first one. -/
lemma writeParts_succ (resultLen : ℕ) (result : List UInt8) (i : ℕ) (parts : List (List UInt8)) :
    writeParts resultLen result (i + 1) parts =
      if parts = [] ∨ (result ++ parts.flatMap (vmPathSeparator :: ·)).length < resultLen then
        some (result ++ parts.flatMap (vmPathSeparator :: ·))
      else none := by
  induction parts generalizing result i with
  | nil => simp [writeParts]
  | cons part parts ih =>
    rw [writeParts, appendPart_eq]
    simp only [Nat.zero_lt_succ, decide_true, if_true, List.flatMap_cons, reduceCtorEq, false_or]
    have hsplit : result ++ (vmPathSeparator :: part ++ parts.flatMap (vmPathSeparator :: ·)) =
        result ++ [vmPathSeparator] ++ part ++ parts.flatMap (vmPathSeparator :: ·) := by simp
    rw [hsplit]
    by_cases hfits : (result ++ [vmPathSeparator] ++ part).length < resultLen
    · rw [if_pos hfits, Option.bind_eq_bind, Option.bind_some, ih]
      by_cases hlast : parts = []
      · subst hlast
        simpa using hfits
      · simp only [hlast, false_or]
    · rw [if_neg hfits, Option.bind_eq_bind, Option.bind_none, if_neg]
      rw [List.length_append]
      omega

lemma writeParts_zero (resultLen : ℕ) (result : List UInt8) (parts : List (List UInt8)) :
    writeParts resultLen result 0 parts =
      if parts = [] ∨ (result ++ join parts).length < resultLen then some (result ++ join parts) else none := by
  cases parts with
  | nil => simp [writeParts, join]
  | cons part parts =>
    rw [writeParts, appendPart_eq, join_cons]
    simp only [Nat.lt_irrefl, decide_false, Bool.false_eq_true, if_false, reduceCtorEq, false_or]
    by_cases hfits : (result ++ part).length < resultLen
    · rw [if_pos hfits, Option.bind_eq_bind, Option.bind_some, writeParts_succ, List.append_assoc]
      by_cases hlast : parts = []
      · subst hlast
        simpa using hfits
      · simp only [hlast, false_or]
    · rw [if_neg hfits, Option.bind_eq_bind, Option.bind_none, if_neg]
      rw [← List.append_assoc, List.length_append]
      omega

lemma writeRelative_append (resultLen : ℕ) (result : List UInt8) (before after : List (List UInt8)) :
    writeRelative resultLen result (before ++ after) =
      (writeRelative resultLen result before).bind fun result => writeRelative resultLen result after := by
  induction before generalizing result with
  | nil => rfl
  | cons part before ih =>
    rw [List.cons_append, writeRelative, writeRelative]
    cases appendPart resultLen (0 < result.length) result part with
    | none => rfl
    | some result => exact ih result

/-- What is written behind a text. -/
lemma writeRelative_some {resultLen : ℕ} {result written : List UInt8} {parts : List (List UInt8)}
    (hresult : result ≠ []) (hwrite : writeRelative resultLen result parts = some written) :
    written = result ++ parts.flatMap (vmPathSeparator :: ·) := by
  induction parts generalizing result with
  | nil => simpa [writeRelative] using hwrite.symm
  | cons part parts ih =>
    have hseparator : decide (0 < result.length) = true := decide_eq_true (List.length_pos_iff.2 hresult)
    rw [writeRelative, hseparator, appendPart_eq] at hwrite
    simp only [if_true] at hwrite
    obtain ⟨next, happend, hrest⟩ := Option.bind_eq_some_iff.1 hwrite
    split_ifs at happend with hfits
    obtain rfl := Option.some.inj happend
    rw [ih (by simp) hrest]
    simp

/-- A relative path is the text of its components. -/
lemma relative_some {resultLen : ℕ} {written : List UInt8} {parts : List (List UInt8)} (h : Separated parts)
    (hwrite : (writeRelative resultLen [] parts).bind (finishPath resultLen) = some written) :
    written = render false parts := by
  obtain ⟨result, hparts, hfinish⟩ := Option.bind_eq_some_iff.1 hwrite
  unfold finishPath at hfinish
  cases parts with
  | nil =>
    obtain rfl : result = [] := by simpa [writeRelative] using hparts.symm
    rw [if_pos (by rfl)] at hfinish
    split_ifs at hfinish
    exact (Option.some.inj hfinish).symm
  | cons part parts =>
    have hpart := (h part List.mem_cons_self).1
    rw [writeRelative, appendPart_eq] at hparts
    obtain ⟨next, happend, hrest⟩ := Option.bind_eq_some_iff.1 hparts
    split_ifs at happend with hfits hempty
    · exact absurd hfits (by decide)
    · obtain rfl := Option.some.inj happend
      rw [writeRelative_some (by simpa using hpart) hrest, List.nil_append, ← join_cons] at hfinish
      have hlength : (join (part :: parts)).length ≠ 0 := by simp [join_cons, hpart]
      rw [if_neg hlength] at hfinish
      rw [← Option.some.inj hfinish]
      rfl

/-! ## The walk over the components -/

/-- A component leads from one location, the names below the root, to another. -/
def enter (location : List (List UInt8)) (name : List UInt8) : List (List UInt8) :=
  if name = dotDot then location.dropLast else if name = dot then location else location ++ [name]

/-- Where a path leads from a location. -/
def locate (start : List (List UInt8)) (path : List UInt8) : List (List UInt8) :=
  (strtok path).foldl enter (if vmPathIsAbsoluteNative path then [] else start)

/-- Where a path leads when the directory that it starts in is taken for the root. -/
def locateInside (start : List (List UInt8)) (path : List UInt8) : List (List UInt8) :=
  (if vmPathIsAbsoluteNative path then [] else start) ++ (strtok path).foldl enter []

/-- No step goes above the directory that the path starts in. -/
def StaysInside (path : List UInt8) : Prop :=
  ∀ before after, strtok path = before ++ dotDot :: after → before.foldl enter [] ≠ []

/-- The stack is not full while there are components left. -/
def ReadWhole (path : List UInt8) : Prop :=
  ∀ before next after, strtok path = before ++ next :: after → (before.foldl enter []).length < maxParts

lemma applyPart_eq {tok : List UInt8} (parts : List (List UInt8)) (htok : tok ≠ []) :
    applyPart parts tok = enter parts tok := by
  unfold applyPart enter
  by_cases hdot : tok = dot
  · rw [if_pos (Or.inl hdot), hdot]
    rfl
  · rw [if_neg (by simp [hdot, htok]), if_neg hdot]

/-- The components are read as long as there is room, and the rest with what they lead to. -/
lemma collectParts_append {parts : List (List UInt8)} {toks : List (List UInt8)} (rest : List (List UInt8))
    (htoks : Separated toks) (hroom : ∀ before next after, toks = before ++ next :: after →
      (before.foldl enter parts).length < maxParts) :
    collectParts parts (toks ++ rest) = collectParts (toks.foldl enter parts) rest := by
  induction toks generalizing parts with
  | nil => rfl
  | cons tok toks ih =>
    have htok := (htoks tok List.mem_cons_self).1
    have hhere : parts.length < maxParts := hroom [] tok toks rfl
    rw [List.cons_append, collectParts, if_pos hhere, applyPart_eq parts htok, List.foldl_cons]
    apply ih (fun part hpart => htoks part (List.mem_cons_of_mem _ hpart))
    intro before next after hsplit
    exact hroom (tok :: before) next after (by rw [hsplit, List.cons_append])

/-- The components of a path. -/
def components (path : List UInt8) : List (List UInt8) := collectParts [] (strtok path)

lemma components_eq {path : List UInt8} (hwhole : ReadWhole path) :
    components path = (strtok path).foldl enter [] := by
  have hread := collectParts_append [] (strtok_separated path) hwhole
  rwa [List.append_nil] at hread

lemma foldl_enter_names {names : List (List UInt8)} (start : List (List UInt8)) (h : Names names) :
    names.foldl enter start = start ++ names := by
  induction names generalizing start with
  | nil => exact (List.append_nil start).symm
  | cons name names ih =>
    have hname := h name List.mem_cons_self
    rw [List.foldl_cons, ih _ (fun part hpart => h part (List.mem_cons_of_mem _ hpart)), enter, if_neg hname.2,
      if_neg hname.1, List.append_assoc, List.singleton_append]

/-- Names are taken as they are. -/
lemma collectParts_names {parts names : List (List UInt8)} (hseparated : Separated names) (hnames : Names names)
    (hroom : parts.length + names.length ≤ maxParts) : collectParts parts names = parts ++ names := by
  have hread := @collectParts_append parts names [] hseparated (by
    intro before next after hsplit
    have hbefore : Names before := fun part hpart => hnames part (hsplit ▸ List.mem_append_left _ hpart)
    rw [foldl_enter_names parts hbefore, List.length_append]
    rw [hsplit, List.length_append, List.length_cons] at hroom
    omega)
  rw [List.append_nil, foldl_enter_names parts hnames] at hread
  exact hread

/-- What holds of the components while the loop runs. -/
structure Collected (parts : List (List UInt8)) : Prop where
  separated : Separated parts
  names : Names parts
  room : parts.length ≤ maxParts

lemma Collected.applyPart {parts : List (List UInt8)} {tok : List UInt8} (h : Collected parts)
    (htok : vmPathSeparator ∉ tok) (hroom : parts.length < maxParts) : Collected (applyPart parts tok) := by
  unfold Paths.applyPart
  split_ifs with hstay hup
  · exact h
  · have hmem {part : List UInt8} (hpart : part ∈ parts.dropLast) := List.dropLast_subset parts hpart
    refine ⟨fun part hpart => h.separated part (hmem hpart), fun part hpart => h.names part (hmem hpart), ?_⟩
    rw [List.length_dropLast]
    have hlength := h.room
    omega
  · rw [not_or] at hstay
    refine ⟨?_, ?_, by rw [List.length_append, List.length_singleton]; omega⟩
    · intro part hpart
      rcases List.mem_append.1 hpart with hbefore | hlast
      · exact h.separated part hbefore
      · rw [List.mem_singleton.1 hlast]
        exact ⟨hstay.2, htok⟩
    · intro part hpart
      rcases List.mem_append.1 hpart with hbefore | hlast
      · exact h.names part hbefore
      · rw [List.mem_singleton.1 hlast]
        exact ⟨hstay.1, hup⟩

lemma Collected.collectParts {parts toks : List (List UInt8)} (h : Collected parts) (htoks : Separated toks) :
    Collected (collectParts parts toks) := by
  induction toks generalizing parts with
  | nil => exact h
  | cons tok toks ih =>
    rw [Paths.collectParts]
    split_ifs with hroom
    · exact ih (h.applyPart (htoks tok List.mem_cons_self).2 hroom)
        (fun part hpart => htoks part (List.mem_cons_of_mem _ hpart))
    · exact h

lemma components_collected (path : List UInt8) : Collected (components path) := by
  have hstart : Collected [] := ⟨by simp [Separated], by simp [Names], Nat.zero_le _⟩
  exact hstart.collectParts (strtok_separated path)

/-! ## Lengths -/

/-- The length of components with a separator for each. -/
def size : List (List UInt8) → ℕ
  | [] => 0
  | part :: parts => part.length + 1 + size parts

@[simp] lemma size_nil : size [] = 0 := rfl

@[simp] lemma size_cons (part : List UInt8) (parts : List (List UInt8)) :
    size (part :: parts) = part.length + 1 + size parts := rfl

@[simp] lemma size_append (before after : List (List UInt8)) : size (before ++ after) = size before + size after := by
  induction before with
  | nil => rw [List.nil_append, size_nil, Nat.zero_add]
  | cons part before ih =>
    rw [List.cons_append, size_cons, size_cons, ih]
    omega

lemma size_splitOn (text : List UInt8) : size (text.splitOn vmPathSeparator) = text.length + 1 := by
  induction text with
  | nil => rfl
  | cons byte text ih =>
    obtain ⟨first, rest, hsplit⟩ := List.exists_cons_of_ne_nil (List.splitOn_ne_nil vmPathSeparator text)
    rw [List.splitOn_cons_eq_if_modifyHead, List.length_cons, ← ih, hsplit]
    split_ifs
    · rw [size_cons, List.length_nil]
      omega
    · rw [List.modifyHead_cons, size_cons, size_cons, List.length_cons]
      omega

lemma size_strtok (text : List UInt8) : size (strtok text) ≤ text.length + 1 := by
  rw [← size_splitOn]
  unfold strtok
  induction text.splitOn vmPathSeparator with
  | nil => exact Nat.le_refl _
  | cons part parts ih =>
    rw [List.filter_cons]
    split_ifs
    · rw [size_cons, size_cons]
      omega
    · rw [size_cons]
      omega

lemma size_applyPart (parts : List (List UInt8)) (tok : List UInt8) :
    size (applyPart parts tok) ≤ size parts + (tok.length + 1) := by
  unfold applyPart
  split_ifs
  · omega
  · by_cases hempty : parts = []
    · rw [hempty, List.dropLast_nil]
      omega
    · have hsplit := congrArg size (List.dropLast_concat_getLast hempty)
      rw [size_append] at hsplit
      omega
  · have hsize : size (parts ++ [tok]) = size parts + (tok.length + 1) := by
      simp only [size_append, size_cons, size_nil, Nat.add_zero]
    omega

lemma size_collectParts (parts toks : List (List UInt8)) :
    size (collectParts parts toks) ≤ size parts + size toks := by
  induction toks generalizing parts with
  | nil => exact Nat.le_refl _
  | cons tok toks ih =>
    rw [collectParts, size_cons]
    have hstep := size_applyPart parts tok
    have hrest := ih (applyPart parts tok)
    split_ifs <;> omega

lemma length_join_cons (part : List UInt8) (parts : List (List UInt8)) :
    (join (part :: parts)).length + 1 = size (part :: parts) := by
  rw [join_cons, List.length_append, size_cons]
  have htail : (parts.flatMap (vmPathSeparator :: ·)).length = size parts := by
    induction parts with
    | nil => rfl
    | cons part parts ih =>
      rw [List.flatMap_cons, List.length_append, List.length_cons, ih, size_cons]
  omega

lemma length_render {parts : List (List UInt8)} (h : parts ≠ []) :
    (render false parts).length + 1 = size parts := by
  obtain ⟨part, rest, rfl⟩ := List.exists_cons_of_ne_nil h
  exact length_join_cons part rest

lemma size_replicate (n : ℕ) (part : List UInt8) : size (List.replicate n part) = n * (part.length + 1) := by
  induction n with
  | zero => rw [List.replicate_zero, size_nil, Nat.zero_mul]
  | succ n ih =>
    rw [List.replicate_succ, size_cons, ih, Nat.succ_mul]
    exact Nat.add_comm _ _

lemma strtok_drop (path : List UInt8) :
    strtok (if path.head? = some vmPathSeparator then path.drop 1 else path) = strtok path := by
  split_ifs with hhead
  · obtain ⟨rest, rfl⟩ := List.head?_eq_some_iff.1 hhead
    rw [strtok_cons_separator]
    rfl
  · rfl

/-- A normal form is not longer than the path, apart from the current directory. -/
lemma length_normal (path : List UInt8) :
    (render (vmPathIsAbsoluteNative path) (components path)).length ≤ max 1 path.length := by
  have hsize := size_collectParts [] (strtok path)
  have hstrtok := size_strtok (if path.head? = some vmPathSeparator then path.drop 1 else path)
  rw [strtok_drop] at hstrtok
  rw [size_nil, ← components] at hsize
  unfold render vmPathIsAbsoluteNative
  by_cases hhead : path.head? = some vmPathSeparator
  · obtain ⟨rest, rfl⟩ := List.head?_eq_some_iff.1 hhead
    rw [if_pos hhead, List.drop_succ_cons, List.drop_zero] at hstrtok
    rw [if_pos (decide_eq_true hhead), List.length_cons, List.length_cons]
    cases hparts : components (vmPathSeparator :: rest) with
    | nil =>
      have hnil : (join []).length = 0 := rfl
      omega
    | cons part parts =>
      rw [length_join_cons, ← hparts]
      omega
  · rw [if_neg hhead] at hstrtok
    rw [if_neg (by simpa using hhead)]
    cases hparts : components path with
    | nil => exact Nat.le_max_left _ _
    | cons part parts =>
      have hlength := length_join_cons part parts
      rw [if_neg (List.cons_ne_nil _ _)]
      rw [hparts] at hsize
      omega

/-- A path that fits has its components as its normal form. -/
lemma vmPathNormalizeCstr_eq {path : List UInt8} {resultLen : ℕ} (hpath : path.length < bufLen)
    (hresult : path.length < resultLen) (htwo : 2 ≤ resultLen) :
    vmPathNormalizeCstr path resultLen = some (render (vmPathIsAbsoluteNative path) (components path)) := by
  have hlength := length_normal path
  have hcopy : vmPathCopyCstr bufLen path = some path := by
    rw [vmPathCopyCstr, if_neg (by decide), if_neg (by omega)]
  unfold vmPathNormalizeCstr
  rw [if_neg (by omega), hcopy, Option.bind_eq_bind, Option.bind_some]
  simp only [strtok_drop]
  rw [← components, if_neg (show ¬resultLen - 1 ≤ 0 by omega)]
  unfold render at hlength ⊢
  cases habsolute : vmPathIsAbsoluteNative path with
  | true =>
    rw [habsolute] at hlength
    simp only [if_true, Option.bind_some, List.length_cons] at hlength ⊢
    have hwritten : ([vmPathSeparator] ++ join (components path)).length < resultLen := by
      rw [List.length_append, List.length_singleton]
      omega
    rw [writeParts_zero, if_pos (Or.inr hwritten), Option.bind_some, finishPath, if_neg (by simp),
      List.singleton_append]
  | false =>
    rw [habsolute] at hlength
    simp only [Bool.false_eq_true, if_false, Option.bind_some] at hlength ⊢
    rw [writeParts_zero, List.nil_append]
    cases hparts : components path with
    | nil => rw [if_pos (Or.inl rfl), if_pos rfl, Option.bind_some, finishPath, if_pos (by rfl), if_neg (by omega)]
    | cons part parts =>
      rw [hparts, if_neg (List.cons_ne_nil _ _)] at hlength
      rw [if_pos (Or.inr (by omega)), if_neg (List.cons_ne_nil _ _), Option.bind_some, finishPath, if_neg]
      have hnonempty := length_join_cons part parts
      rw [size_cons] at hnonempty
      have hpart := (((components_collected path).separated part (by rw [hparts]; exact List.mem_cons_self)).1)
      have hpositive := List.length_pos_iff.2 hpart
      omega

/-! ## Normal forms -/

lemma foldl_enter_shown {parts : List (List UInt8)} (start : List (List UInt8)) (absolute : Bool)
    (h : Names parts) : (shown absolute parts).foldl enter start = start ++ parts := by
  unfold shown
  split_ifs with hempty
  · rw [hempty.2, List.append_nil]
    rfl
  · exact foldl_enter_names start h

/-- A normal form has the components that it was made of. -/
lemma components_render {parts : List (List UInt8)} (absolute : Bool) (h : Collected parts) :
    components (render absolute parts) = parts := by
  unfold components
  rw [strtok_render h.separated]
  unfold shown
  split_ifs with hempty
  · rw [hempty.2]
    rfl
  · rw [collectParts_names h.separated h.names (by simpa using h.room), List.nil_append]

/-- A step inside a directory does not depend on where the directory is. -/
lemma foldl_enter_append {toks : List (List UInt8)} (start location : List (List UInt8))
    (hinside : ∀ before after, toks = before ++ dotDot :: after → before.foldl enter location ≠ []) :
    toks.foldl enter (start ++ location) = start ++ toks.foldl enter location := by
  induction toks generalizing location with
  | nil => rfl
  | cons tok toks ih =>
    have hstep : enter (start ++ location) tok = start ++ enter location tok := by
      unfold enter
      split_ifs with hup
      · have hlocation : location ≠ [] := hinside [] toks (by rw [hup, List.nil_append])
        exact List.dropLast_append_of_ne_nil hlocation
      · rfl
      · exact List.append_assoc _ _ _
    rw [List.foldl_cons, List.foldl_cons, hstep]
    apply ih
    intro before after hsplit
    exact hinside (tok :: before) after (by rw [hsplit, List.cons_append])

lemma locate_eq_locateInside {path : List UInt8} (start : List (List UInt8))
    (h : vmPathIsAbsoluteNative path ∨ StaysInside path) : locate start path = locateInside start path := by
  unfold locate locateInside
  split_ifs with habsolute
  · rfl
  · have hinside := h.resolve_left habsolute
    have hshift := foldl_enter_append start [] hinside
    rwa [List.append_nil] at hshift

end Vm.Paths
