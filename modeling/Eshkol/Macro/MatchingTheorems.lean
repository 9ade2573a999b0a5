import Eshkol.Macro.Matching
import Mathlib.Data.List.Forall2

/-!
# Instances of patterns match

A match binds the variables of a pattern and nothing else. Where every list starts with an element that is not
repeated and every repeated element contains a variable, the form is the instance that the match describes, and
every instance of the pattern is matched.
-/

namespace Macro

variable {p elem : MacroPattern} {elements : List MacroPattern} {ellipsis : Bool} {bindings bindings₀ : Bindings}
  {form : Ast} {args : List Ast} {x : String}

/-! ## The parts of a linear pattern -/

namespace MacroPattern.Linear

lemma head (h : (MacroPattern.list (elem :: elements) ellipsis).Linear) : elem.Linear where
  nodup := (List.nodup_append.1 h.nodup).1
  names y hy := h.names y (List.mem_append_left _ hy)
  literals y hy := by
    obtain ⟨hdots, hnot⟩ := h.literals y (List.mem_append_left _ hy)
    exact ⟨hdots, fun hmem => hnot (List.mem_append_left _ hmem)⟩
  trailing := by
    have htrailing := h.trailing
    simp only [MacroPattern.trailing, trailingInList, Bool.and_eq_true] at htrailing
    exact htrailing.2.1

lemma tail (h : (MacroPattern.list (elem :: elements) ellipsis).Linear) :
    (MacroPattern.list elements ellipsis).Linear where
  nodup := (List.nodup_append.1 h.nodup).2.1
  names y hy := h.names y (List.mem_append_right _ hy)
  literals y hy := by
    obtain ⟨hdots, hnot⟩ := h.literals y (List.mem_append_right _ hy)
    exact ⟨hdots, fun hmem => hnot (List.mem_append_right _ hmem)⟩
  trailing := by
    have htrailing := h.trailing
    simp only [MacroPattern.trailing, trailingInList, Bool.and_eq_true] at htrailing ⊢
    exact htrailing.2.2

lemma disjoint (h : (MacroPattern.list (elem :: elements) ellipsis).Linear) (hx : x ∈ elem.variables) :
    x ∉ variablesInList elements := by
  intro hmem
  exact (List.nodup_append.1 h.nodup).2.2 x hx x hmem rfl

lemma last (h : (MacroPattern.list (elem :: elements) ellipsis).Linear)
    (hrep : elem.followedByEllipsis = true) : elements = [] := by
  have htrailing := h.trailing
  simp only [MacroPattern.trailing, trailingInList, Bool.and_eq_true, hrep] at htrailing
  simpa using htrailing.1

lemma isEllipsisSymbol (h : p.Linear) : isEllipsisSymbol p.template = false := by
  cases p with
  | var identifier _ =>
    have hne := (h.names identifier (List.mem_singleton_self _)).2.2
    simpa [MacroPattern.template, Macro.isEllipsisSymbol] using hne
  | literal identifier _ =>
    have hne := (h.literals identifier (List.mem_singleton_self _)).1
    simpa [MacroPattern.template, Macro.isEllipsisSymbol] using hne
  | list elements _ => cases elements <;> rfl

end MacroPattern.Linear

/-! ## What a match binds -/

lemma collect_of_not_mem (hx : x ∉ p.variables) (depth : ℕ) (out : String → Option ℕ) :
    collectPatternVarDepths p depth out x = out x := by
  induction p generalizing depth out with
  | var identifier _ =>
    unfold collectPatternVarDepths
    split_ifs
    · rfl
    · exact if_neg (fun h => hx (by simp [MacroPattern.variables, h]))
  | literal identifier _ => rfl
  | list elements _ ih =>
    rw [MacroPattern.variables] at hx
    unfold collectPatternVarDepths
    induction elements generalizing depth out with
    | nil => rfl
    | cons elem elements ihes =>
      rw [variablesInList, List.mem_append, not_or] at hx
      rw [collectVarDepthsInList, ihes (fun q hq => ih q (List.mem_cons_of_mem _ hq)) hx.2,
        ih elem List.mem_cons_self hx.1]

lemma collect_isSome_of_out (depth : ℕ) {out : String → Option ℕ} (hout : (out x).isSome = true) :
    (collectPatternVarDepths p depth out x).isSome = true := by
  induction p generalizing depth out with
  | var identifier _ =>
    unfold collectPatternVarDepths
    split_ifs
    · exact hout
    · show (if x = identifier then some depth else out x).isSome = true
      split_ifs
      · rfl
      · exact hout
  | literal identifier _ => exact hout
  | list elements _ ih =>
    unfold collectPatternVarDepths
    induction elements generalizing depth out with
    | nil => exact hout
    | cons elem elements ihes =>
      rw [collectVarDepthsInList]
      exact ihes (fun q hq => ih q (List.mem_cons_of_mem _ hq)) depth (ih elem List.mem_cons_self _ hout)

/-- A variable has a depth. -/
lemma collect_isSome (hx : x ∈ p.variables) (hname : x ≠ "" ∧ x ≠ "_") (depth : ℕ) (out : String → Option ℕ) :
    (collectPatternVarDepths p depth out x).isSome = true := by
  induction p generalizing depth out with
  | var identifier _ =>
    obtain rfl := List.mem_singleton.1 hx
    unfold collectPatternVarDepths
    rw [if_neg (by simp [hname])]
    simp
  | literal identifier _ => cases hx
  | list elements _ ih =>
    rw [MacroPattern.variables] at hx
    unfold collectPatternVarDepths
    induction elements generalizing depth out with
    | nil => cases hx
    | cons elem elements ihes =>
      rw [collectVarDepthsInList]
      rw [variablesInList, List.mem_append] at hx
      rcases hx with hx | hx
      · have helem := ih elem List.mem_cons_self hx (depth + if elem.followedByEllipsis then 1 else 0) out
        exact collect_isSome_of_out (p := .list elements false) depth helem
      · exact ihes (fun q hq => ih q (List.mem_cons_of_mem _ hq)) hx depth _

lemma depths_isSome_iff (hp : p.Linear) : (p.depths x).isSome = true ↔ x ∈ p.variables := by
  constructor
  · intro hsome
    by_contra hx
    rw [MacroPattern.depths, collect_of_not_mem hx] at hsome
    cases hsome
  · intro hx
    have hname := hp.names x hx
    exact collect_isSome hx ⟨hname.1, hname.2.1⟩ 0 _

/-! ## What a match does -/

lemma matchPattern_list_iff :
    matchPattern (.list elements ellipsis) form bindings₀ = some bindings ↔
      ∃ args, callParts form = some args ∧ matchPatternSeq elements args bindings₀ = some bindings := by
  unfold matchPattern
  cases callParts form with
  | none => simp
  | some args => simp

lemma matchPatternSeq_nil_iff :
    matchPatternSeq [] args bindings₀ = some bindings ↔ args = [] ∧ bindings₀ = bindings := by
  unfold matchPatternSeq
  cases args <;> simp

lemma matchPatternSeq_once_iff (honce : elem.followedByEllipsis = false) :
    matchPatternSeq (elem :: elements) args bindings₀ = some bindings ↔
      ∃ arg rest bindings₁, args = arg :: rest ∧ matchPattern elem arg bindings₀ = some bindings₁ ∧
        matchPatternSeq elements rest bindings₁ = some bindings := by
  rw [matchPatternSeq.eq_def]
  simp only [honce, Bool.false_eq_true, if_false]
  cases args with
  | nil => simp
  | cons arg rest =>
    cases helem : matchPattern elem arg bindings₀ with
    | none => simp [helem]
    | some bindings₁ => simp [helem]

lemma mapM_eq_some_iff {α β : Type} {f : α → Option β} {as : List α} {bs : List β} :
    as.mapM f = some bs ↔ List.Forall₂ (fun a b => f a = some b) as bs := by
  induction as generalizing bs with
  | nil => simp [eq_comm]
  | cons a as ih =>
    rw [List.mapM_cons, List.forall₂_cons_left_iff]
    simp only [Option.bind_eq_bind, Option.bind_eq_some_iff, Option.pure_def, Option.some.injEq, ih]
    constructor
    · rintro ⟨b, hb, bs', hbs', rfl⟩
      exact ⟨b, bs', hb, hbs', rfl⟩
    · rintro ⟨b, bs', hb, hbs', rfl⟩
      exact ⟨b, hb, bs', hbs', rfl⟩

lemma matchPatternSeq_repeated_iff (hrep : elem.followedByEllipsis = true) :
    matchPatternSeq (elem :: elements) args bindings₀ = some bindings ↔
      ∃ subResults, List.Forall₂ (fun arg sub => matchPattern elem arg noBindings = some sub) args subResults ∧
        matchPatternSeq elements [] (mergeRepetitions elem subResults bindings₀) = some bindings := by
  rw [matchPatternSeq.eq_def]
  simp only [hrep, if_true]
  cases hsubs : args.mapM fun arg => matchPattern elem arg noBindings with
  | none =>
    simp only [reduceCtorEq, false_iff, not_exists, not_and]
    intro subResults hforall
    rw [mapM_eq_some_iff.2 hforall] at hsubs
    cases hsubs
  | some subs =>
    constructor
    · intro hmatch
      exact ⟨subs, mapM_eq_some_iff.1 hsubs, hmatch⟩
    · rintro ⟨subResults, hforall, hmatch⟩
      obtain rfl := Option.some.inj (hsubs.symm.trans (mapM_eq_some_iff.2 hforall))
      exact hmatch

/-! ## What a match binds -/

lemma matchSeq_of_not_mem
    (ih : ∀ p ∈ elements, ∀ {form bindings₀ bindings}, matchPattern p form bindings₀ = some bindings →
      x ∉ p.variables → bindings x = bindings₀ x)
    (hmatch : matchPatternSeq elements args bindings₀ = some bindings) (hx : x ∉ variablesInList elements) :
    bindings x = bindings₀ x := by
  induction elements generalizing args bindings₀ with
  | nil =>
    obtain ⟨-, rfl⟩ := matchPatternSeq_nil_iff.1 hmatch
    rfl
  | cons elem elements ihes =>
    rw [variablesInList, List.mem_append, not_or] at hx
    have hrest {args bindings₀} (hmatch : matchPatternSeq elements args bindings₀ = some bindings) :
        bindings x = bindings₀ x := ihes (fun q hq => ih q (List.mem_cons_of_mem _ hq)) hmatch hx.2
    by_cases hrep : elem.followedByEllipsis = true
    · obtain ⟨subResults, -, hmatch⟩ := (matchPatternSeq_repeated_iff hrep).1 hmatch
      rw [hrest hmatch, mergeRepetitions, MacroPattern.depths, collect_of_not_mem hx.1]
    · obtain ⟨arg, rest, bindings₁, rfl, helem, hmatch⟩ :=
        (matchPatternSeq_once_iff (by simpa using hrep)).1 hmatch
      rw [hrest hmatch, ih elem List.mem_cons_self helem hx.1]

lemma match_of_not_mem (hmatch : matchPattern p form bindings₀ = some bindings) (hx : x ∉ p.variables) :
    bindings x = bindings₀ x := by
  induction p generalizing form bindings₀ bindings with
  | var identifier _ =>
    unfold matchPattern at hmatch
    split_ifs at hmatch
    · obtain rfl := Option.some.inj hmatch
      rfl
    · obtain rfl := Option.some.inj hmatch
      exact if_neg (fun h => hx (by simp [MacroPattern.variables, h]))
  | literal identifier _ =>
    unfold matchPattern at hmatch
    split_ifs at hmatch
    obtain rfl := Option.some.inj hmatch
    rfl
  | list elements _ ih =>
    obtain ⟨args, -, hmatch⟩ := matchPattern_list_iff.1 hmatch
    exact matchSeq_of_not_mem (fun q hq => ih q hq) hmatch hx

lemma match_isSome (hp : p.Linear) (hmatch : matchPattern p form bindings₀ = some bindings)
    (hx : x ∈ p.variables) : (bindings x).isSome = true := by
  induction p generalizing form bindings₀ bindings with
  | var identifier _ =>
    obtain rfl := List.mem_singleton.1 hx
    have hname := hp.names x hx
    unfold matchPattern at hmatch
    rw [if_neg hname.2.1] at hmatch
    obtain rfl := Option.some.inj hmatch
    simp
  | literal identifier _ => cases hx
  | list elements _ ih =>
    obtain ⟨args, -, hseq⟩ := matchPattern_list_iff.1 hmatch
    clear hmatch
    rw [MacroPattern.variables] at hx
    induction elements generalizing args bindings₀ with
    | nil => cases hx
    | cons elem elements ihes =>
      rw [variablesInList, List.mem_append] at hx
      -- what is bound stays bound, as no name comes again
      have hkeep {args bindings₁} (hmatch : matchPatternSeq elements args bindings₁ = some bindings)
          (hx : x ∈ elem.variables) : bindings x = bindings₁ x :=
        matchSeq_of_not_mem (fun _ _ => match_of_not_mem) hmatch (hp.disjoint hx)
      by_cases hrep : elem.followedByEllipsis = true
      · obtain ⟨subResults, -, hmatch⟩ := (matchPatternSeq_repeated_iff hrep).1 hseq
        rcases hx with hx | hx
        · obtain ⟨depth, hdepth⟩ := Option.isSome_iff_exists.1 ((depths_isSome_iff hp.head).2 hx)
          rw [hkeep hmatch hx, mergeRepetitions, hdepth]
          rfl
        · exact ihes (fun q hq => ih q (List.mem_cons_of_mem _ hq)) hp.tail hx _ hmatch
      · obtain ⟨arg, rest, bindings₁, rfl, helem, hmatch⟩ :=
          (matchPatternSeq_once_iff (by simpa using hrep)).1 hseq
        rcases hx with hx | hx
        · rw [hkeep hmatch hx]
          exact ih elem List.mem_cons_self hp.head helem hx
        · exact ihes (fun q hq => ih q (List.mem_cons_of_mem _ hq)) hp.tail hx _ hmatch

/-! ## The driver of an instance -/

/-- The symbols of a pattern stand for themselves. -/
def Spares (bindings : Bindings) (p : MacroPattern) : Prop :=
  bindings "..." = none ∧ ∀ y ∈ p.literals, bindings y = none

lemma Spares.head (h : Spares bindings (.list (elem :: elements) ellipsis)) : Spares bindings elem :=
  ⟨h.1, fun y hy => h.2 y (List.mem_append_left _ hy)⟩

lemma Spares.tail (h : Spares bindings (.list (elem :: elements) ellipsis)) :
    Spares bindings (.list elements ellipsis) :=
  ⟨h.1, fun y hy => h.2 y (List.mem_append_right _ hy)⟩

lemma Spares.peel (h : Spares bindings p) (i : ℕ) : Spares (peelBindingsAtIndex bindings i) p :=
  ⟨by rw [peelBindingsAtIndex, h.1]; rfl, fun y hy => by rw [peelBindingsAtIndex, h.2 y hy]; rfl⟩

lemma findEllipsisDriver_callForm (hne : elements ≠ []) :
    findEllipsisDriver (callForm (templateItems elements)) bindings =
      findDriverInList (templateItems elements) bindings := by
  cases elements with
  | nil => exact absurd rfl hne
  | cons elem elements => rfl

lemma findDriver_templateItems (elem : MacroPattern) (elements : List MacroPattern)
    (hdots : bindings "..." = none) :
    findDriverInList (templateItems (elem :: elements)) bindings =
      (findEllipsisDriver elem.template bindings).or (findDriverInList (templateItems elements) bindings) := by
  rw [templateItems, findDriverInList]
  by_cases hrep : elem.followedByEllipsis = true
  · rw [if_pos hrep, List.singleton_append, findDriverInList]
    simp [findEllipsisDriver, hdots]
  · rw [if_neg hrep, List.nil_append]

/-- The driver is a repeated variable of the pattern. -/
lemma mem_of_driver (hp : p.nonempty = true) (hspares : Spares bindings p)
    (hdriver : findEllipsisDriver p.template bindings = some x) :
    x ∈ p.variables ∧ (bindings x).any MatchTree.isSequence = true := by
  induction p with
  | var identifier _ =>
    simp only [MacroPattern.template, findEllipsisDriver, Option.ite_none_right_eq_some] at hdriver
    obtain ⟨hseq, hid⟩ := hdriver
    obtain rfl := Option.some.inj hid
    exact ⟨List.mem_singleton_self _, hseq⟩
  | literal identifier _ =>
    have hnone := hspares.2 identifier (List.mem_singleton_self _)
    simp [MacroPattern.template, findEllipsisDriver, hnone] at hdriver
  | list elements ellipsis ih =>
    have hlist : ∀ elements : List MacroPattern, (∀ q ∈ elements, q.nonempty = true → Spares bindings q →
        findEllipsisDriver q.template bindings = some x →
          x ∈ q.variables ∧ (bindings x).any MatchTree.isSequence = true) →
        nonemptyInList elements = true → Spares bindings (.list elements ellipsis) →
        findDriverInList (templateItems elements) bindings = some x →
          x ∈ variablesInList elements ∧ (bindings x).any MatchTree.isSequence = true := by
      intro elements
      induction elements with
      | nil =>
        intro _ _ _ hdriver
        cases hdriver
      | cons elem elements ihes =>
        intro ih hne hspares hdriver
        rw [nonemptyInList, Bool.and_eq_true] at hne
        rw [findDriver_templateItems elem elements hspares.1] at hdriver
        rw [variablesInList, List.mem_append]
        rcases Option.or_eq_some_iff.1 hdriver with helem | ⟨-, hrest⟩
        · obtain ⟨hmem, hseq⟩ := ih elem List.mem_cons_self hne.1 hspares.head helem
          exact ⟨.inl hmem, hseq⟩
        · obtain ⟨hmem, hseq⟩ :=
            ihes (fun q hq => ih q (List.mem_cons_of_mem _ hq)) hne.2 hspares.tail hrest
          exact ⟨.inr hmem, hseq⟩
    cases elements with
    | nil => cases hp
    | cons elem elements =>
      rw [MacroPattern.template, findEllipsisDriver_callForm (List.cons_ne_nil _ _)] at hdriver
      exact hlist _ ih hp hspares hdriver

/-- A repeated variable makes a driver. -/
lemma driver_isSome (hx : x ∈ p.variables) (hseq : (bindings x).any MatchTree.isSequence = true)
    (hdots : bindings "..." = none) : (findEllipsisDriver p.template bindings).isSome = true := by
  induction p with
  | var identifier _ =>
    obtain rfl := List.mem_singleton.1 hx
    rw [MacroPattern.template, findEllipsisDriver, if_pos hseq]
    rfl
  | literal identifier _ => cases hx
  | list elements ellipsis ih =>
    rw [MacroPattern.variables] at hx
    have hne : elements ≠ [] := by
      rintro rfl
      cases hx
    rw [MacroPattern.template, findEllipsisDriver_callForm hne]
    clear hne
    induction elements with
    | nil => cases hx
    | cons elem elements ihes =>
      rw [findDriver_templateItems elem elements hdots, Option.isSome_or, Bool.or_eq_true]
      rw [variablesInList, List.mem_append] at hx
      rcases hx with hx | hx
      · exact .inl (ih elem List.mem_cons_self hx)
      · exact .inr (ihes (fun q hq => ih q (List.mem_cons_of_mem _ hq)) hx)

/-! ## Instances of lists -/

lemma ellipsisCount_templateItems (hp : (MacroPattern.list elements ellipsis).Linear) :
    ellipsisCount (templateItems elements) = 0 := by
  cases elements with
  | nil => rfl
  | cons elem elements =>
    rw [templateItems, ellipsisCount, List.takeWhile_cons, hp.head.isEllipsisSymbol]
    rfl

lemma template_once (honce : elem.followedByEllipsis = false) :
    (MacroPattern.list (elem :: elements) ellipsis).template = .call .call elem.template (templateItems elements) := by
  rw [MacroPattern.template, templateItems, honce]
  rfl

lemma template_repeated (hp : (MacroPattern.list (elem :: elements) ellipsis).Linear)
    (hrep : elem.followedByEllipsis = true) :
    (MacroPattern.list (elem :: elements) ellipsis).template = .call .call elem.template [.var "..."] := by
  obtain rfl := hp.last hrep
  rw [MacroPattern.template, templateItems, hrep]
  rfl

/-- The ellipsis after a callee is dropped. -/
lemma substitute_misplaced (op : CallOp) (func : Ast) :
    substituteBindings (.call op func [.var "..."]) bindings = .call op (substituteBindings func bindings) [] := by
  simp [substituteBindings, substituteBindingsInList, ellipsisCount, isEllipsisSymbol]

/-- An element that is not repeated is substituted by itself. -/
lemma substitute_once (hp : (MacroPattern.list (elem :: elements) ellipsis).Linear)
    (honce : elem.followedByEllipsis = false) (counted : Bool) :
    substituteBindingsInList (templateItems (elem :: elements)) counted bindings =
      substituteBindings elem.template bindings ::
        substituteBindingsInList (templateItems elements) false bindings := by
  rw [templateItems, honce, if_neg (by decide), List.nil_append, substituteBindingsInList.eq_def]
  simp only [hp.head.isEllipsisSymbol, Bool.and_false, Bool.false_eq_true, if_false,
    ellipsisCount_templateItems hp.tail]

/-- A repeated element is expanded. -/
lemma substitute_repeated (hp : (MacroPattern.list (elem :: elements) ellipsis).Linear)
    (hrep : elem.followedByEllipsis = true) (counted : Bool) :
    substituteBindingsInList (templateItems (elem :: elements)) counted bindings =
      expandEllipsisElementN (findEllipsisDriver elem.template)
        (fun peeled => [substituteBindings elem.template peeled]) 0 bindings := by
  obtain rfl := hp.last hrep
  have hcount : ellipsisCount ([.var "..."] ++ templateItems []) = 1 := rfl
  rw [templateItems, hrep, if_pos rfl, substituteBindingsInList.eq_def]
  simp only [hp.head.isEllipsisSymbol, Bool.and_false, Bool.false_eq_true, if_false, hcount]
  simp [templateItems, substituteBindingsInList, isEllipsisSymbol]

/-- With a repeated variable in it an element is expanded for every repetition of one. -/
lemma expand_of_driver {α : Type} {driver : Bindings → Option String} {visit : Bindings → List α} {n : ℕ}
    (hsome : (driver bindings).isSome = true)
    (hlength : ∀ x, driver bindings = some x → ((bindings x).elim [] MatchTree.elements).length = n) :
    expandEllipsisElementN driver visit 0 bindings =
      (List.range n).flatMap fun i => visit (peelBindingsAtIndex bindings i) := by
  obtain ⟨x, hx⟩ := Option.isSome_iff_exists.1 hsome
  rw [expandEllipsisElementN, overRepetitions, hx]
  simp only [hlength x hx]

lemma expand_of_no_driver {α : Type} {driver : Bindings → Option String} {visit : Bindings → List α} {more : ℕ}
    (hnone : driver bindings = none) : expandEllipsisElementN driver visit more bindings = visit bindings := by
  cases more <;> rw [expandEllipsisElementN, overRepetitions, hnone]

/-! ## Matches instantiate to the form -/

/-- The bindings agree on the variables of a pattern. -/
def AgreeOn (names : List String) (bindings bindings' : Bindings) : Prop := ∀ x ∈ names, bindings x = bindings' x

/-- What a merge binds, seen at one repetition. -/
lemma peel_mergeRepetitions (hp : elem.Linear) {subResults : List Bindings} {bindings' : Bindings}
    (hforall : List.Forall₂ (fun arg sub => matchPattern elem arg noBindings = some sub) args subResults)
    (hagree : AgreeOn elem.variables bindings' (mergeRepetitions elem subResults bindings₀)) {i : ℕ} {sub : Bindings}
    (hi : subResults[i]? = some sub) : AgreeOn elem.variables (peelBindingsAtIndex bindings' i) sub := by
  intro x hx
  obtain ⟨depth, hdepth⟩ := Option.isSome_iff_exists.1 ((depths_isSome_iff hp).2 hx)
  obtain ⟨hlt, hget⟩ := List.getElem?_eq_some_iff.1 hi
  have hlt' : i < args.length := hforall.length_eq ▸ hlt
  have hmatch : matchPattern elem args[i] noBindings = some subResults[i] := hforall.get hlt' hlt
  obtain ⟨t, ht⟩ := Option.isSome_iff_exists.1 (match_isSome hp hmatch hx)
  rw [hget] at ht
  have hindex : min i ((subResults.map fun sub => (sub x).getD (MatchTree.empty depth)).length - 1) = i := by
    rw [List.length_map]
    omega
  rw [peelBindingsAtIndex, hagree x hx, mergeRepetitions, hdepth]
  simp only [Option.map_some, MatchTree.peel, hindex, List.getElem?_map, hi, ht, Option.getD_some]

/-- What a merge binds has as many elements as there are arguments. -/
lemma merge_spec (hp : elem.Linear) {subResults : List Bindings} {bindings' : Bindings}
    (hagree : AgreeOn elem.variables bindings' (mergeRepetitions elem subResults bindings₀))
    (hx : x ∈ elem.variables) : ((bindings' x).elim [] MatchTree.elements).length = subResults.length ∧
      (bindings' x).any MatchTree.isSequence = true := by
  obtain ⟨depth, hdepth⟩ := Option.isSome_iff_exists.1 ((depths_isSome_iff hp).2 hx)
  rw [hagree x hx, mergeRepetitions, hdepth]
  exact ⟨List.length_map _, rfl⟩

/-- A repeated element with a variable has one instance for every argument. -/
lemma expand_merge (hp : elem.Linear) (hne : elem.nonempty = true) (hvars : elem.variables ≠ [])
    {subResults : List Bindings} {bindings' : Bindings} (hspares : Spares bindings' elem)
    (hagree : AgreeOn elem.variables bindings' (mergeRepetitions elem subResults bindings₀)) :
    expandEllipsisElementN (findEllipsisDriver elem.template)
        (fun peeled => [substituteBindings elem.template peeled]) 0 bindings' =
      (List.range subResults.length).map fun i =>
        substituteBindings elem.template (peelBindingsAtIndex bindings' i) := by
  obtain ⟨x, hx⟩ := List.exists_mem_of_ne_nil _ hvars
  rw [expand_of_driver (n := subResults.length)]
  · rw [List.map_eq_flatMap]
  · exact driver_isSome hx (merge_spec hp hagree hx).2 hspares.1
  · intro y hy
    exact (merge_spec hp hagree (mem_of_driver hne hspares hy).1).1

lemma expandable_list (h : (MacroPattern.list elements ellipsis).expandable = true) :
    ∃ elem rest, elements = elem :: rest ∧ elem.followedByEllipsis = false ∧ elem.expandable = true ∧
      expandableInList rest = true := by
  cases elements with
  | nil => cases h
  | cons elem rest =>
    simp only [MacroPattern.expandable, Bool.and_eq_true, Bool.not_eq_true'] at h
    exact ⟨elem, rest, rfl, h⟩

lemma nonempty_of_expandable (h : p.expandable = true) : p.nonempty = true := by
  induction p with
  | var => rfl
  | literal => rfl
  | list elements ellipsis ih =>
    have hlist : ∀ elements : List MacroPattern, (∀ q ∈ elements, q.expandable = true → q.nonempty = true) →
        expandableInList elements = true → nonemptyInList elements = true := by
      intro elements
      induction elements with
      | nil =>
        intro _ _
        rfl
      | cons elem elements ihes =>
        intro ih h
        simp only [expandableInList, Bool.and_eq_true] at h
        rw [nonemptyInList, Bool.and_eq_true]
        exact ⟨ih elem List.mem_cons_self h.2.1, ihes (fun q hq => ih q (List.mem_cons_of_mem _ hq)) h.2.2⟩
    obtain ⟨elem, rest, rfl, -, helem, hrest⟩ := expandable_list h
    rw [MacroPattern.nonempty, Bool.and_eq_true]
    exact ⟨ih elem List.mem_cons_self helem,
      hlist rest (fun q hq => ih q (List.mem_cons_of_mem _ hq)) hrest⟩

lemma substitute_items_of_match
    (ih : ∀ p ∈ elements, p.Linear → p.expandable = true → ∀ {form bindings₀ bindings bindings'},
      matchPattern p form bindings₀ = some bindings → AgreeOn p.variables bindings' bindings →
        Spares bindings' p → substituteBindings p.template bindings' = form)
    (hp : (MacroPattern.list elements ellipsis).Linear) (hexp : expandableInList elements = true)
    (hmatch : matchPatternSeq elements args bindings₀ = some bindings) {bindings' : Bindings}
    (hagree : AgreeOn (variablesInList elements) bindings' bindings)
    (hspares : Spares bindings' (.list elements ellipsis)) (counted : Bool) :
    substituteBindingsInList (templateItems elements) counted bindings' = args := by
  induction elements generalizing args bindings₀ counted with
  | nil =>
    obtain ⟨rfl, -⟩ := matchPatternSeq_nil_iff.1 hmatch
    rfl
  | cons elem elements ihes =>
    simp only [expandableInList, Bool.and_eq_true, Bool.or_eq_true, Bool.not_eq_true'] at hexp
    have hhead : AgreeOn elem.variables bindings' bindings :=
      fun x hx => hagree x (List.mem_append_left _ hx)
    -- the rest of the list binds no variable of this element
    have hkeep {args bindings₁} (hmatch : matchPatternSeq elements args bindings₁ = some bindings) :
        AgreeOn elem.variables bindings' bindings₁ := fun x hx =>
      (hhead x hx).trans (matchSeq_of_not_mem (fun _ _ => match_of_not_mem) hmatch (hp.disjoint hx))
    by_cases hrep : elem.followedByEllipsis = true
    · obtain ⟨subResults, hforall, hmatch⟩ := (matchPatternSeq_repeated_iff hrep).1 hmatch
      have hvars : elem.variables ≠ [] := by simpa [hrep] using hexp.1
      have hne := nonempty_of_expandable hexp.2.1
      rw [substitute_repeated hp hrep, expand_merge hp.head hne hvars hspares.head (hkeep hmatch)]
      apply List.ext_getElem
      · rw [List.length_map, List.length_range, hforall.length_eq]
      · intro i hi hi'
        rw [List.getElem_map, List.getElem_range]
        rw [List.length_map, List.length_range] at hi
        have hsub : subResults[i]? = some subResults[i] := List.getElem?_eq_getElem hi
        exact ih elem List.mem_cons_self hp.head hexp.2.1 (hforall.get hi' hi)
          (peel_mergeRepetitions hp.head hforall (hkeep hmatch) hsub) (hspares.head.peel i)
    · have honce : elem.followedByEllipsis = false := by simpa using hrep
      obtain ⟨arg, rest, bindings₁, rfl, helem, hmatch⟩ := (matchPatternSeq_once_iff honce).1 hmatch
      rw [substitute_once hp honce,
        ih elem List.mem_cons_self hp.head hexp.2.1 helem (hkeep hmatch) hspares.head,
        ihes (fun q hq => ih q (List.mem_cons_of_mem _ hq)) hp.tail hexp.2.2 hmatch
          (fun x hx => hagree x (List.mem_append_right _ hx)) hspares.tail]

/-- Under the bindings of a match the pattern is the form. -/
lemma substitute_of_match (hp : p.Linear) (hexp : p.expandable = true)
    (hmatch : matchPattern p form bindings₀ = some bindings) {bindings' : Bindings}
    (hagree : AgreeOn p.variables bindings' bindings) (hspares : Spares bindings' p) :
    substituteBindings p.template bindings' = form := by
  induction p generalizing form bindings₀ bindings bindings' with
  | var identifier _ =>
    have hmem := List.mem_singleton_self identifier
    unfold matchPattern at hmatch
    rw [if_neg (hp.names identifier hmem).2.1] at hmatch
    obtain rfl := Option.some.inj hmatch
    rw [MacroPattern.template, substituteBindings, hagree identifier hmem]
    simp [MatchTree.firstScalar]
  | literal identifier _ =>
    unfold matchPattern at hmatch
    split_ifs at hmatch with hsymbol
    rw [MacroPattern.template, substituteBindings, hspares.2 identifier (List.mem_singleton_self _)]
    cases form with
    | var id =>
      rw [isSymbol, beq_iff_eq] at hsymbol
      rw [hsymbol]
      rfl
    | _ => cases hsymbol
  | list elements ellipsis ih =>
    obtain ⟨elem, rest, rfl, honce, helem, hrest⟩ := expandable_list hexp
    obtain ⟨args, hparts, hseq⟩ := matchPattern_list_iff.1 hmatch
    have hexpList : expandableInList (elem :: rest) = true := by
      simp [expandableInList, honce, helem, hrest]
    have ih' : ∀ q ∈ elem :: rest, q.Linear → q.expandable = true → ∀ {form bindings₀ bindings bindings'},
        matchPattern q form bindings₀ = some bindings → AgreeOn q.variables bindings' bindings →
          Spares bindings' q → substituteBindings q.template bindings' = form := by
      intro q hq hlinear hexp form bindings₀ bindings bindings' hmatch hagree hspares
      exact ih q hq hlinear hexp hmatch hagree hspares
    have hitems := substitute_items_of_match ih' hp hexpList hseq hagree hspares false
    rw [substitute_once hp honce] at hitems
    rw [template_once honce, substituteBindings]
    unfold callParts at hparts
    split at hparts
    · cases hparts
    · obtain rfl := Option.some.inj hparts
      obtain ⟨hfunc, hvars⟩ := List.cons.inj hitems
      rw [hfunc, hvars]
    · cases hparts

/-! ## Instances match -/

/-- What the variables stand for is made of forms. -/
def OfForms (bindings : Bindings) : Prop := ∀ x t, bindings x = some t → ∃ depth, t.HasDepth depth

lemma hasDepth_empty (depth : ℕ) : (MatchTree.empty depth).HasDepth depth := by
  cases depth with
  | zero =>
    show Ast.blank ≠ .nullptr
    exact Ast.noConfusion
  | succ depth => exact ⟨rfl, fun _ h => absurd h List.not_mem_nil⟩

lemma OfForms.peel (h : OfForms bindings) (i : ℕ) : OfForms (peelBindingsAtIndex bindings i) := by
  intro x t ht
  obtain ⟨t₀, ht₀, rfl⟩ := Option.map_eq_some_iff.1 ht
  obtain ⟨depth, hdepth⟩ := h x t₀ ht₀
  cases t₀ with
  | scalar ast => exact ⟨depth, hdepth⟩
  | sequence childDepth elements =>
    cases depth with
    | zero => cases hdepth
    | succ depth =>
      obtain ⟨rfl, helements⟩ := hdepth
      refine ⟨childDepth, ?_⟩
      unfold MatchTree.peel
      simp only
      cases hget : elements[min i (elements.length - 1)]? with
      | none => exact hasDepth_empty childDepth
      | some element => exact helements element (List.mem_of_getElem? hget)

lemma firstScalar_ne_nullptr {t : MatchTree} {depth : ℕ} (ht : t.HasDepth depth) :
    t.firstScalar ≠ some .nullptr := by
  induction depth generalizing t with
  | zero =>
    cases t with
    | scalar ast =>
      intro h
      exact ht (Option.some.inj h)
    | sequence => cases ht
  | succ depth ih =>
    cases t with
    | scalar => cases ht
    | sequence childDepth elements =>
      cases elements with
      | nil =>
        intro h
        cases h
      | cons first rest =>
        rw [MatchTree.firstScalar]
        exact ih (ht.2 first List.mem_cons_self)

/-- A node is put in place of every node. -/
lemma substitute_ne_nullptr (h : OfForms bindings) {ast : Ast} (hast : ast ≠ .nullptr) :
    substituteBindings ast bindings ≠ .nullptr := by
  cases ast with
  | nullptr => exact absurd rfl hast
  | var id =>
    unfold substituteBindings
    cases ht : bindings id with
    | none => exact Ast.noConfusion
    | some t =>
      obtain ⟨depth, hdepth⟩ := h id t ht
      have hne := firstScalar_ne_nullptr hdepth
      rw [Option.bind_some]
      cases hscalar : t.firstScalar with
      | none => exact Ast.noConfusion
      | some ast =>
        rintro rfl
        exact hne hscalar
  | _ =>
    unfold substituteBindings
    exact Ast.noConfusion

lemma template_ne_nullptr (p : MacroPattern) : p.template ≠ .nullptr := by
  cases p with
  | var => exact Ast.noConfusion
  | literal => exact Ast.noConfusion
  | list elements _ => cases elements <;> exact Ast.noConfusion

lemma mapM_isSome {α β : Type} {f : α → Option β} {as : List α} (h : ∀ a ∈ as, (f a).isSome = true) :
    ∃ bs, as.mapM f = some bs := by
  induction as with
  | nil => exact ⟨[], rfl⟩
  | cons a as ih =>
    obtain ⟨b, hb⟩ := Option.isSome_iff_exists.1 (h a List.mem_cons_self)
    obtain ⟨bs, hbs⟩ := ih fun a' ha' => h a' (List.mem_cons_of_mem _ ha')
    exact ⟨b :: bs, by simp [List.mapM_cons, hb, hbs]⟩

/-- A last element that is repeated matches arguments that it matches one by one. -/
lemma matchPatternSeq_repeated_isSome (hrep : elem.followedByEllipsis = true)
    (h : ∀ arg ∈ args, (matchPattern elem arg noBindings).isSome = true) (bindings₀ : Bindings) :
    (matchPatternSeq [elem] args bindings₀).isSome = true := by
  obtain ⟨subResults, hsubs⟩ := mapM_isSome h
  have hmatch : matchPatternSeq [elem] args bindings₀ = some (mergeRepetitions elem subResults bindings₀) :=
    (matchPatternSeq_repeated_iff hrep).2
      ⟨subResults, mapM_eq_some_iff.1 hsubs, matchPatternSeq_nil_iff.2 ⟨rfl, rfl⟩⟩
  exact Option.isSome_iff_exists.2 ⟨_, hmatch⟩

lemma matchPatternSeq_once_isSome (honce : elem.followedByEllipsis = false) {arg : Ast} {rest : List Ast}
    (helem : (matchPattern elem arg bindings₀).isSome = true)
    (hrest : ∀ bindings₁, (matchPatternSeq elements rest bindings₁).isSome = true) :
    (matchPatternSeq (elem :: elements) (arg :: rest) bindings₀).isSome = true := by
  obtain ⟨bindings₁, hb⟩ := Option.isSome_iff_exists.1 helem
  obtain ⟨bindings, hmatch⟩ := Option.isSome_iff_exists.1 (hrest bindings₁)
  exact Option.isSome_iff_exists.2
    ⟨bindings, (matchPatternSeq_once_iff honce).2 ⟨arg, rest, bindings₁, rfl, hb, hmatch⟩⟩

lemma matchPattern_list_isSome (hparts : callParts form = some args)
    (hseq : (matchPatternSeq elements args bindings₀).isSome = true) :
    (matchPattern (.list elements ellipsis) form bindings₀).isSome = true := by
  obtain ⟨bindings, hmatch⟩ := Option.isSome_iff_exists.1 hseq
  exact Option.isSome_iff_exists.2 ⟨bindings, matchPattern_list_iff.2 ⟨args, hparts, hmatch⟩⟩

/-- What is repeated is visited under bindings of the same kind. -/
lemma mem_expand {α : Type} {P : Bindings → Prop} (hpeel : ∀ bindings i, P bindings → P (peelBindingsAtIndex bindings i))
    {driver : Bindings → Option String} {visit : Bindings → List α} {more : ℕ} {a : α} (h : P bindings)
    (ha : a ∈ expandEllipsisElementN driver visit more bindings) : ∃ bindings', P bindings' ∧ a ∈ visit bindings' := by
  induction more generalizing bindings with
  | zero =>
    unfold expandEllipsisElementN overRepetitions at ha
    split at ha
    · exact ⟨bindings, h, ha⟩
    · obtain ⟨i, -, hi⟩ := List.mem_flatMap.1 ha
      exact ⟨_, hpeel bindings i h, hi⟩
  | succ more ih =>
    unfold expandEllipsisElementN overRepetitions at ha
    split at ha
    · exact ⟨bindings, h, ha⟩
    · obtain ⟨i, -, hi⟩ := List.mem_flatMap.1 ha
      exact ih (hpeel bindings i h) hi

lemma callParts_call {func : Ast} (hfunc : func ≠ .nullptr) (vars : List Ast) :
    callParts (.call .call func vars) = some (func :: vars) := by
  unfold callParts
  split
  · simp_all
  · simp_all
  · simp_all

/-- Every instance of the pattern is matched. -/
lemma match_of_substitute (hp : p.Linear) (hexp : p.expandable = true) (hforms : OfForms bindings)
    (hspares : Spares bindings p) (bindings₀ : Bindings) :
    (matchPattern p (substituteBindings p.template bindings) bindings₀).isSome = true := by
  induction p generalizing bindings bindings₀ with
  | var identifier _ =>
    unfold matchPattern
    split_ifs <;> rfl
  | literal identifier _ =>
    have hnone := hspares.2 identifier (List.mem_singleton_self _)
    rw [MacroPattern.template, substituteBindings, hnone]
    simp [matchPattern, isSymbol]
  | list elements ellipsis ih =>
    have hlist : ∀ elements : List MacroPattern, (∀ q ∈ elements, ∀ {bindings}, q.Linear → q.expandable = true →
        OfForms bindings → Spares bindings q → ∀ bindings₀,
          (matchPattern q (substituteBindings q.template bindings) bindings₀).isSome = true) →
        (MacroPattern.list elements ellipsis).Linear → expandableInList elements = true →
          Spares bindings (.list elements ellipsis) → ∀ bindings₀,
            (matchPatternSeq elements (substituteBindingsInList (templateItems elements) false bindings)
              bindings₀).isSome = true := by
      intro elements
      induction elements with
      | nil =>
        intro _ _ _ _ _
        rfl
      | cons elem elements ihes =>
        intro ih hp hexp hspares bindings₀
        simp only [expandableInList, Bool.and_eq_true] at hexp
        by_cases hrep : elem.followedByEllipsis = true
        · rw [substitute_repeated hp hrep]
          obtain rfl := hp.last hrep
          apply matchPatternSeq_repeated_isSome hrep
          intro arg harg
          obtain ⟨bindings', ⟨hforms', hspares'⟩, hmem⟩ :=
            mem_expand (P := fun bindings => OfForms bindings ∧ Spares bindings elem)
              (fun _ i h => ⟨h.1.peel i, h.2.peel i⟩) ⟨hforms, hspares.head⟩ harg
          obtain rfl := List.mem_singleton.1 hmem
          exact ih elem List.mem_cons_self hp.head hexp.2.1 hforms' hspares' noBindings
        · have honce : elem.followedByEllipsis = false := by simpa using hrep
          rw [substitute_once hp honce]
          apply matchPatternSeq_once_isSome honce
          · exact ih elem List.mem_cons_self hp.head hexp.2.1 hforms hspares.head bindings₀
          · exact ihes (fun q hq => ih q (List.mem_cons_of_mem _ hq)) hp.tail hexp.2.2 hspares.tail
    obtain ⟨elem, rest, rfl, honce, helem, hrest⟩ := expandable_list hexp
    have hexpList : expandableInList (elem :: rest) = true := by
      simp [expandableInList, honce, helem, hrest]
    have hitems := hlist (elem :: rest)
      (fun q hq {_} hp hexp hforms hspares => ih q hq hp hexp hforms hspares) hp hexpList hspares bindings₀
    rw [substitute_once hp honce] at hitems
    rw [template_once honce, substituteBindings]
    exact matchPattern_list_isSome (callParts_call (substitute_ne_nullptr hforms (template_ne_nullptr elem)) _) hitems

end Macro
