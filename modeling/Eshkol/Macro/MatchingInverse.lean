import Eshkol.Macro.MatchingTheorems

/-!
# Where matching and instantiation are inverse

A pattern that does not expand has a form for which they are not. With an empty list in it no form matches, but
the pattern has instances. Without one a form in which all that is repeated comes twice is matched, and the
instance falls short of it.
-/

namespace Macro

variable {p elem : MacroPattern} {elements : List MacroPattern} {ellipsis : Bool} {bindings bindings₀ : Bindings}
  {form : Ast} {args : List Ast} {x : String}

/-! ## Samples -/

mutual

/-- A form of the pattern in which all that is repeated comes `n` times, and the variables stand for
themselves. -/
def MacroPattern.sample (n : ℕ) : MacroPattern → Ast
  | .var identifier _ => .var identifier
  | .literal identifier _ => .var identifier
  | .list elements _ => callForm (sampleItems n elements)

/-- The same of the elements of a list. -/
def sampleItems (n : ℕ) : List MacroPattern → List Ast
  | [] => []
  | elem :: rest =>
    List.replicate (if elem.followedByEllipsis then n else 1) (elem.sample n) ++ sampleItems n rest

end

variable {n : ℕ}

lemma sampleItems_once (honce : elem.followedByEllipsis = false) (n : ℕ) :
    sampleItems n (elem :: elements) = elem.sample n :: sampleItems n elements := by
  rw [sampleItems, honce]
  rfl

lemma sampleItems_repeated (hp : (MacroPattern.list (elem :: elements) ellipsis).Linear)
    (hrep : elem.followedByEllipsis = true) (n : ℕ) :
    sampleItems n (elem :: elements) = List.replicate n (elem.sample n) := by
  obtain rfl := hp.last hrep
  rw [sampleItems, hrep, if_pos rfl, sampleItems, List.append_nil]

lemma sample_ne_nullptr (p : MacroPattern) (n : ℕ) : p.sample n ≠ .nullptr := by
  cases p with
  | var => exact Ast.noConfusion
  | literal => exact Ast.noConfusion
  | list elements _ =>
    rw [MacroPattern.sample]
    cases sampleItems n elements <;> exact Ast.noConfusion

lemma callParts_sample (hne : elements ≠ []) (hn : n ≠ 0) :
    callParts (MacroPattern.sample n (.list elements ellipsis)) = some (sampleItems n elements) := by
  cases elements with
  | nil => exact absurd rfl hne
  | cons elem elements =>
    have hcount : (if elem.followedByEllipsis then n else 1) ≠ 0 := by
      split_ifs
      · exact hn
      · decide
    obtain ⟨k, hk⟩ := Nat.exists_eq_succ_of_ne_zero hcount
    rw [MacroPattern.sample, sampleItems, hk, List.replicate_succ, List.cons_append]
    exact callParts_call (sample_ne_nullptr elem n) _

/-- A pattern without an empty list matches its samples. -/
lemma match_sample (hp : p.Linear) (hne : p.nonempty = true) (hn : n ≠ 0) (bindings₀ : Bindings) :
    (matchPattern p (p.sample n) bindings₀).isSome = true := by
  induction p generalizing bindings₀ with
  | var identifier _ =>
    unfold matchPattern
    split_ifs <;> rfl
  | literal identifier _ => simp [MacroPattern.sample, matchPattern, isSymbol]
  | list elements ellipsis ih =>
    have hlist : ∀ elements : List MacroPattern, (∀ q ∈ elements, q.Linear → q.nonempty = true → ∀ bindings₀,
        (matchPattern q (q.sample n) bindings₀).isSome = true) →
        (MacroPattern.list elements ellipsis).Linear → nonemptyInList elements = true → ∀ bindings₀,
          (matchPatternSeq elements (sampleItems n elements) bindings₀).isSome = true := by
      intro elements
      induction elements with
      | nil =>
        intro _ _ _ _
        rfl
      | cons elem elements ihes =>
        intro ih hp hne bindings₀
        rw [nonemptyInList, Bool.and_eq_true] at hne
        have helem := ih elem List.mem_cons_self hp.head hne.1
        by_cases hrep : elem.followedByEllipsis = true
        · rw [sampleItems_repeated hp hrep]
          obtain rfl := hp.last hrep
          apply matchPatternSeq_repeated_isSome hrep
          intro arg harg
          rw [List.eq_of_mem_replicate harg]
          exact helem noBindings
        · have honce : elem.followedByEllipsis = false := by simpa using hrep
          rw [sampleItems_once honce]
          apply matchPatternSeq_once_isSome honce (helem bindings₀)
          exact ihes (fun q hq => ih q (List.mem_cons_of_mem _ hq)) hp.tail hne.2
    cases elements with
    | nil => cases hne
    | cons elem elements =>
      exact matchPattern_list_isSome (callParts_sample (List.cons_ne_nil _ _) hn) (hlist _ ih hp hne bindings₀)

/-- A pattern with an empty list does not. -/
lemma match_sample_eq_none (hp : p.Linear) (hempty : p.nonempty = false) (hn : n ≠ 0) (bindings₀ : Bindings) :
    matchPattern p (p.sample n) bindings₀ = none := by
  rw [← Option.not_isSome_iff_eq_none, Option.isSome_iff_exists]
  rintro ⟨bindings, hmatch⟩
  induction p generalizing bindings₀ bindings with
  | var => cases hempty
  | literal => cases hempty
  | list elements ellipsis ih =>
    have hlist : ∀ elements : List MacroPattern, (∀ q ∈ elements, q.Linear → q.nonempty = false →
        ∀ bindings₀ bindings, matchPattern q (q.sample n) bindings₀ = some bindings → False) →
        (MacroPattern.list elements ellipsis).Linear → nonemptyInList elements = false →
          ∀ bindings₀ bindings, matchPatternSeq elements (sampleItems n elements) bindings₀ = some bindings → False := by
      intro elements
      induction elements with
      | nil =>
        intro _ _ hempty
        cases hempty
      | cons elem elements ihes =>
        intro ih hp hempty bindings₀ bindings hmatch
        rw [nonemptyInList, Bool.and_eq_false_iff] at hempty
        by_cases hrep : elem.followedByEllipsis = true
        · rw [sampleItems_repeated hp hrep] at hmatch
          obtain rfl := hp.last hrep
          obtain ⟨subResults, hforall, -⟩ := (matchPatternSeq_repeated_iff hrep).1 hmatch
          rcases hempty with hempty | hempty
          · obtain ⟨k, rfl⟩ := Nat.exists_eq_succ_of_ne_zero hn
            obtain ⟨sub, rest, hsub, -⟩ := List.forall₂_cons_left_iff.1 hforall
            exact ih elem List.mem_cons_self hp.head hempty _ _ hsub
          · cases hempty
        · have honce : elem.followedByEllipsis = false := by simpa using hrep
          rw [sampleItems_once honce] at hmatch
          obtain ⟨arg, rest, bindings₁, hargs, helem, hmatch⟩ := (matchPatternSeq_once_iff honce).1 hmatch
          obtain ⟨rfl, rfl⟩ := List.cons.inj hargs
          rcases hempty with hempty | hempty
          · exact ih elem List.mem_cons_self hp.head hempty _ _ helem
          · exact ihes (fun q hq => ih q (List.mem_cons_of_mem _ hq)) hp.tail hempty _ _ hmatch
    obtain ⟨args, hparts, hseq⟩ := matchPattern_list_iff.1 hmatch
    cases elements with
    | nil =>
      obtain rfl := Option.some.inj hparts
      cases hseq
    | cons elem elements =>
      obtain rfl := Option.some.inj ((callParts_sample (List.cons_ne_nil _ _) hn).symm.trans hparts)
      exact hlist _ ih hp hempty _ _ hseq

/-! ## Instances of a pattern with an empty list -/

/-- A form at a depth, once at each level. -/
def nest : ℕ → Ast → MatchTree
  | 0, ast => .scalar ast
  | depth + 1, ast => .sequence depth [nest depth ast]

lemma hasDepth_nest {ast : Ast} (hast : ast ≠ .nullptr) (depth : ℕ) : (nest depth ast).HasDepth depth := by
  induction depth with
  | zero => exact hast
  | succ depth ih =>
    show depth = depth ∧ ∀ t ∈ [nest depth ast], t.HasDepth depth
    refine ⟨rfl, fun t ht => ?_⟩
    rw [List.mem_singleton.1 ht]
    exact ih

lemma firstScalar_nest (depth : ℕ) (ast : Ast) : (nest depth ast).firstScalar = some ast := by
  induction depth with
  | zero => rfl
  | succ depth ih => exact ih

/-- Every variable stands for itself. -/
def Reflexive (bindings : Bindings) : Prop :=
  ∀ x t, bindings x = some t → ∃ depth, t = nest depth (.var x)

lemma Reflexive.peel (h : Reflexive bindings) (i : ℕ) : Reflexive (peelBindingsAtIndex bindings i) := by
  intro x t ht
  obtain ⟨t₀, ht₀, rfl⟩ := Option.map_eq_some_iff.1 ht
  obtain ⟨depth, rfl⟩ := h x t₀ ht₀
  cases depth with
  | zero => exact ⟨0, rfl⟩
  | succ depth =>
    refine ⟨depth, ?_⟩
    show MatchTree.peel i (nest (depth + 1) (.var x)) = nest depth (.var x)
    rw [nest, MatchTree.peel]
    simp

lemma substitute_reflexive_var (h : Reflexive bindings) (x : String) :
    substituteBindings (.var x) bindings = .var x := by
  unfold substituteBindings
  cases ht : bindings x with
  | none => rfl
  | some t =>
    obtain ⟨depth, rfl⟩ := h x t ht
    rw [Option.bind_some, firstScalar_nest]
    rfl

lemma length_elements_reflexive (h : Reflexive bindings)
    (hseq : (bindings x).any MatchTree.isSequence = true) :
    ((bindings x).elim [] MatchTree.elements).length = 1 := by
  cases ht : bindings x with
  | none =>
    rw [ht] at hseq
    cases hseq
  | some t =>
    obtain ⟨depth, rfl⟩ := h x t ht
    cases depth with
    | zero =>
      rw [ht] at hseq
      cases hseq
    | succ depth => rfl

/-- A driver is bound to a sequence. -/
lemma isSequence_of_driver (hspares : Spares bindings p)
    (hdriver : findEllipsisDriver p.template bindings = some x) : (bindings x).any MatchTree.isSequence = true := by
  have hvar (id : String) (h : findEllipsisDriver (.var id) bindings = some x) :
      (bindings x).any MatchTree.isSequence = true := by
    unfold findEllipsisDriver at h
    split_ifs at h with hseq
    obtain rfl := Option.some.inj h
    exact hseq
  induction p with
  | var id _ => exact hvar id hdriver
  | literal id _ => exact hvar id hdriver
  | list elements ellipsis ih =>
    by_cases hne : elements = []
    · subst hne
      rw [MacroPattern.template, templateItems, callForm, findEllipsisDriver, findDriverInList,
        Option.or_none] at hdriver
      exact hvar "list" hdriver
    · rw [MacroPattern.template, findEllipsisDriver_callForm hne] at hdriver
      clear hne
      induction elements with
      | nil => cases hdriver
      | cons elem elements ihes =>
        rw [findDriver_templateItems elem elements hspares.1] at hdriver
        rcases Option.or_eq_some_iff.1 hdriver with helem | ⟨-, hrest⟩
        · exact ih elem List.mem_cons_self hspares.head helem
        · exact ihes (fun q hq => ih q (List.mem_cons_of_mem _ hq)) hspares.tail hrest

/-- When every variable stands for itself, a repeated element comes once. -/
lemma expand_reflexive (hreflexive : Reflexive bindings) (hspares : Spares bindings elem) :
    ∃ bindings', Reflexive bindings' ∧ Spares bindings' elem ∧
      expandEllipsisElementN (findEllipsisDriver elem.template)
        (fun peeled => [substituteBindings elem.template peeled]) 0 bindings =
      [substituteBindings elem.template bindings'] := by
  cases hdriver : findEllipsisDriver elem.template bindings with
  | none => exact ⟨bindings, hreflexive, hspares, expand_of_no_driver hdriver⟩
  | some x =>
    refine ⟨peelBindingsAtIndex bindings 0, hreflexive.peel 0, hspares.peel 0, ?_⟩
    rw [expand_of_driver (n := 1)]
    · rfl
    · rw [hdriver]
      rfl
    · intro y hy
      exact length_elements_reflexive hreflexive (isSequence_of_driver hspares hy)

/-- The instance in which every variable stands for itself. -/
lemma substitute_reflexive (hp : p.Linear) (hreflexive : Reflexive bindings) (hspares : Spares bindings p) :
    substituteBindings p.template bindings = p.sample 1 := by
  induction p generalizing bindings with
  | var id _ => exact substitute_reflexive_var hreflexive id
  | literal id _ => exact substitute_reflexive_var hreflexive id
  | list elements ellipsis ih =>
    have hlist : ∀ elements : List MacroPattern, (∀ q ∈ elements, ∀ {bindings}, q.Linear → Reflexive bindings →
        Spares bindings q → substituteBindings q.template bindings = q.sample 1) →
        (MacroPattern.list elements ellipsis).Linear → Spares bindings (.list elements ellipsis) →
          substituteBindingsInList (templateItems elements) false bindings = sampleItems 1 elements := by
      intro elements
      induction elements with
      | nil =>
        intro _ _ _
        rfl
      | cons elem elements ihes =>
        intro ih hp hspares
        by_cases hrep : elem.followedByEllipsis = true
        · obtain ⟨bindings', hreflexive', hspares', hexpand⟩ := expand_reflexive hreflexive hspares.head
          rw [substitute_repeated hp hrep, hexpand, sampleItems_repeated hp hrep,
            ih elem List.mem_cons_self hp.head hreflexive' hspares']
          rfl
        · have honce : elem.followedByEllipsis = false := by simpa using hrep
          rw [substitute_once hp honce, sampleItems_once honce,
            ih elem List.mem_cons_self hp.head hreflexive hspares.head,
            ihes (fun q hq => ih q (List.mem_cons_of_mem _ hq)) hp.tail hspares.tail]
    cases elements with
    | nil =>
      show Ast.call .call (substituteBindings (.var "list") bindings) [] = _
      rw [substitute_reflexive_var hreflexive]
      rfl
    | cons elem elements =>
      have helem := ih elem List.mem_cons_self hp.head hreflexive hspares.head
      by_cases hrep : elem.followedByEllipsis = true
      · -- the ellipsis after the callee is dropped, which is no loss when the callee comes once
        rw [template_repeated hp hrep, substitute_misplaced, helem, MacroPattern.sample, sampleItems_repeated hp hrep]
        rfl
      · have honce : elem.followedByEllipsis = false := by simpa using hrep
        have hrest := hlist elements
          (fun q hq {_} hp hreflexive hspares => ih q (List.mem_cons_of_mem _ hq) hp hreflexive hspares)
          hp.tail hspares.tail
        rw [template_once honce, substituteBindings, helem, hrest, MacroPattern.sample, sampleItems_once honce]
        rfl

/-! ## Instances that fall short -/

lemma forall₂_replicate {α β : Type} {R : α → β → Prop} {n : ℕ} {a : α} {bs : List β}
    (h : List.Forall₂ R (List.replicate n a) bs) : bs.length = n ∧ ∀ b ∈ bs, R a b := by
  constructor
  · rw [← h.length_eq, List.length_replicate]
  · intro b hb
    obtain ⟨i, hi, rfl⟩ := List.getElem_of_mem hb
    have hi' : i < (List.replicate n a).length := h.length_eq ▸ hi
    have hR := h.get hi' hi
    simpa using hR

/-- What is repeated twice and contains no variable, or does not expand itself, is not instantiated to the two
repetitions. -/
lemma expand_ne_replicate (hp : elem.Linear) (hne : elem.nonempty = true)
    (hshort : elem.variables = [] ∨ ∀ bindings₀ bindings bindings', matchPattern elem (elem.sample 2) bindings₀ =
      some bindings → AgreeOn elem.variables bindings' bindings → Spares bindings' elem →
        substituteBindings elem.template bindings' ≠ elem.sample 2)
    {subResults : List Bindings} {bindings' : Bindings} (hspares : Spares bindings' elem)
    (hforall : List.Forall₂ (fun arg sub => matchPattern elem arg noBindings = some sub)
      (List.replicate 2 (elem.sample 2)) subResults)
    (hagree : AgreeOn elem.variables bindings' (mergeRepetitions elem subResults bindings₀)) :
    expandEllipsisElementN (findEllipsisDriver elem.template)
      (fun peeled => [substituteBindings elem.template peeled]) 0 bindings' ≠
        List.replicate 2 (elem.sample 2) := by
  by_cases hvars : elem.variables = []
  · -- without a driver the element is instantiated once
    have hnone : findEllipsisDriver elem.template bindings' = none := by
      rw [← Option.not_isSome_iff_eq_none, Option.isSome_iff_exists]
      rintro ⟨x, hx⟩
      have hmem := (mem_of_driver hne hspares hx).1
      rw [hvars] at hmem
      cases hmem
    intro h
    have hlength := congrArg List.length h
    rw [expand_of_no_driver hnone] at hlength
    cases hlength
  · have hshort := hshort.resolve_left hvars
    obtain ⟨hlength, hmatch⟩ := forall₂_replicate hforall
    rw [expand_merge hp hne hvars hspares hagree, hlength]
    have hpos : 0 < subResults.length := by omega
    have hget : subResults[0]? = some subResults[0] := List.getElem?_eq_getElem hpos
    have hfirst := hshort _ _ _ (hmatch _ (List.getElem_mem _)) (peel_mergeRepetitions hp hforall hagree hget)
      (hspares.peel 0)
    intro h
    exact hfirst (List.cons.inj h).1

lemma substitute_items_ne_sample
    (ih : ∀ q ∈ elements, q.Linear → q.nonempty = true → q.expandable = false → ∀ bindings₀ bindings bindings',
      matchPattern q (q.sample 2) bindings₀ = some bindings → AgreeOn q.variables bindings' bindings →
        Spares bindings' q → substituteBindings q.template bindings' ≠ q.sample 2)
    (hp : (MacroPattern.list elements ellipsis).Linear) (hne : nonemptyInList elements = true)
    (hexp : expandableInList elements = false)
    (hmatch : matchPatternSeq elements (sampleItems 2 elements) bindings₀ = some bindings) {bindings' : Bindings}
    (hagree : AgreeOn (variablesInList elements) bindings' bindings)
    (hspares : Spares bindings' (.list elements ellipsis)) :
    substituteBindingsInList (templateItems elements) false bindings' ≠ sampleItems 2 elements := by
  induction elements generalizing bindings₀ with
  | nil => cases hexp
  | cons elem elements ihes =>
    rw [nonemptyInList, Bool.and_eq_true] at hne
    have helem := ih elem List.mem_cons_self hp.head hne.1
    have hhead : AgreeOn elem.variables bindings' bindings :=
      fun x hx => hagree x (List.mem_append_left _ hx)
    have hkeep {args bindings₁} (hmatch : matchPatternSeq elements args bindings₁ = some bindings) :
        AgreeOn elem.variables bindings' bindings₁ := fun x hx =>
      (hhead x hx).trans (matchSeq_of_not_mem (fun _ _ => match_of_not_mem) hmatch (hp.disjoint hx))
    by_cases hrep : elem.followedByEllipsis = true
    · rw [sampleItems_repeated hp hrep] at hmatch ⊢
      rw [substitute_repeated hp hrep]
      obtain ⟨subResults, hforall, hmatch⟩ := (matchPatternSeq_repeated_iff hrep).1 hmatch
      apply expand_ne_replicate hp.head hne.1 ?_ hspares.head hforall (hkeep hmatch)
      obtain rfl := hp.last hrep
      simp only [expandableInList, hrep, Bool.not_true, Bool.false_or, Bool.and_true,
        Bool.and_eq_false_iff, Bool.not_eq_false', List.isEmpty_iff] at hexp
      exact hexp.imp_right helem
    · have honce : elem.followedByEllipsis = false := by simpa using hrep
      rw [sampleItems_once honce] at hmatch ⊢
      rw [substitute_once hp honce]
      obtain ⟨arg, rest, bindings₁, hargs, hfirst, hmatch⟩ := (matchPatternSeq_once_iff honce).1 hmatch
      obtain ⟨rfl, rfl⟩ := List.cons.inj hargs
      simp only [expandableInList, honce, Bool.not_false, Bool.true_or, Bool.true_and,
        Bool.and_eq_false_iff] at hexp
      intro h
      obtain ⟨hcar, hcdr⟩ := List.cons.inj h
      rcases hexp with hexp | hexp
      · exact helem hexp _ _ _ hfirst (hkeep hmatch) hspares.head hcar
      · exact ihes (fun q hq => ih q (List.mem_cons_of_mem _ hq)) hp.tail hne.2 hexp hmatch
          (fun x hx => hagree x (List.mem_append_right _ hx)) hspares.tail hcdr

/-- The match of a form in which all that is repeated comes twice is not instantiated to it. -/
lemma substitute_ne_sample (hp : p.Linear) (hne : p.nonempty = true) (hexp : p.expandable = false)
    (bindings₀ bindings bindings' : Bindings) (hmatch : matchPattern p (p.sample 2) bindings₀ = some bindings)
    (hagree : AgreeOn p.variables bindings' bindings) (hspares : Spares bindings' p) :
    substituteBindings p.template bindings' ≠ p.sample 2 := by
  induction p generalizing bindings₀ bindings bindings' with
  | var => cases hexp
  | literal => cases hexp
  | list elements ellipsis ih =>
    cases elements with
    | nil => cases hne
    | cons elem elements =>
      by_cases hrep : elem.followedByEllipsis = true
      · -- the callee comes twice in the sample and once in the instance
        rw [template_repeated hp hrep, substitute_misplaced, MacroPattern.sample, sampleItems_repeated hp hrep]
        intro h
        cases (Ast.call.inj h).2.2
      · have honce : elem.followedByEllipsis = false := by simpa using hrep
        obtain ⟨args, hparts, hseq⟩ := matchPattern_list_iff.1 hmatch
        obtain rfl := Option.some.inj ((callParts_sample (List.cons_ne_nil _ _) (by decide)).symm.trans hparts)
        have hexpList : expandableInList (elem :: elements) = false := by
          simp only [MacroPattern.expandable, honce, Bool.not_false, Bool.true_and] at hexp
          simp only [expandableInList, honce, Bool.not_false, Bool.true_or, Bool.true_and, hexp]
        have hitems := substitute_items_ne_sample ih hp hne hexpList hseq hagree hspares
        rw [substitute_once hp honce, sampleItems_once honce] at hitems
        rw [template_once honce, substituteBindings, MacroPattern.sample, sampleItems_once honce]
        intro h
        obtain ⟨-, hcar, hcdr⟩ := Ast.call.inj h
        exact hitems (List.cons_eq_cons.2 ⟨hcar, hcdr⟩)

/-! ## The inverse -/

/-- The assignment that leaves every variable as it is. -/
def reflexiveBindings (p : MacroPattern) : Bindings := fun x => (p.depths x).map fun depth => nest depth (.var x)

lemma reflexive_reflexiveBindings (p : MacroPattern) : Reflexive (reflexiveBindings p) := by
  intro x t ht
  obtain ⟨depth, -, rfl⟩ := Option.map_eq_some_iff.1 ht
  exact ⟨depth, rfl⟩

lemma assigns_reflexiveBindings (p : MacroPattern) : Assigns p (reflexiveBindings p) := by
  intro x
  constructor
  · intro depth hdepth
    refine ⟨nest depth (.var x), ?_, hasDepth_nest Ast.noConfusion depth⟩
    rw [reflexiveBindings, hdepth]
    rfl
  · intro hnone
    rw [reflexiveBindings, hnone]
    rfl

/-- What binds only the variables spares the other symbols of the pattern. -/
lemma spares_of_not_mem (hp : p.Linear) (h : ∀ x, x ∉ p.variables → bindings x = none) : Spares bindings p := by
  constructor
  · exact h "..." fun hx => (hp.names "..." hx).2.2 rfl
  · intro y hy
    exact h y (hp.literals y hy).2

lemma spares_of_match (hp : p.Linear) (hmatch : matchPattern p form noBindings = some bindings) :
    Spares bindings p :=
  spares_of_not_mem hp fun _ hx => match_of_not_mem hmatch hx

lemma spares_of_assigns (hp : p.Linear) (h : Assigns p bindings) : Spares bindings p := by
  apply spares_of_not_mem hp
  intro x hx
  apply (h x).2
  rw [MacroPattern.depths, collect_of_not_mem hx]

lemma ofForms_of_assigns (h : Assigns p bindings) : OfForms bindings := by
  intro x t ht
  cases hdepth : p.depths x with
  | none =>
    rw [(h x).2 hdepth] at ht
    cases ht
  | some depth =>
    obtain ⟨t', ht', hforms⟩ := (h x).1 depth hdepth
    obtain rfl := Option.some.inj (ht.symm.trans ht')
    exact ⟨depth, hforms⟩

/-- Matching inverts expansion. -/
lemma inverseAt_of_expandable (hp : p.Linear) (hexp : p.expandable = true) (form : Ast) : InverseAt p form := by
  constructor
  · intro bindings hmatch
    exact substitute_of_match hp hexp hmatch (fun _ _ => rfl) (spares_of_match hp hmatch)
  · intro hnone bindings hassigns
    rintro rfl
    have hsome := match_of_substitute hp hexp (ofForms_of_assigns hassigns) (spares_of_assigns hp hassigns) noBindings
    rw [hnone] at hsome
    cases hsome

/-- A pattern with an empty list has an instance that it does not match. -/
lemma not_inverseAt_of_empty (hp : p.Linear) (hempty : p.nonempty = false) : ¬ InverseAt p (p.sample 1) := by
  intro h
  have hassigns := assigns_reflexiveBindings p
  apply h.2 (match_sample_eq_none hp hempty (by decide) noBindings) _ hassigns
  exact substitute_reflexive hp (reflexive_reflexiveBindings p) (spares_of_assigns hp hassigns)

/-- Any other pattern that does not expand matches a form that it is not instantiated to. -/
lemma not_inverseAt_of_nonempty (hp : p.Linear) (hne : p.nonempty = true) (hexp : p.expandable = false) :
    ¬ InverseAt p (p.sample 2) := by
  intro h
  obtain ⟨bindings, hmatch⟩ := Option.isSome_iff_exists.1 (match_sample hp hne (by decide : 2 ≠ 0) noBindings)
  apply substitute_ne_sample hp hne hexp _ _ _ hmatch (fun _ _ => rfl) (spares_of_match hp hmatch)
  exact h.1 bindings hmatch

/-- Matching and instantiation are inverse for exactly those patterns in which every list has a first element that
is not repeated, and everything repeated contains a variable. -/
theorem inverseAt_iff_expandable (hp : p.Linear) : (∀ form, InverseAt p form) ↔ p.expandable = true := by
  constructor
  · intro h
    by_contra hexp
    rw [Bool.not_eq_true] at hexp
    cases hne : p.nonempty with
    | false => exact not_inverseAt_of_empty hp hne (h _)
    | true => exact not_inverseAt_of_nonempty hp hne hexp (h _)
  · intro hexp form
    exact inverseAt_of_expandable hp hexp form

/-- `(f (x y ...) ...)`, with `f` a literal. -/
def nestedPattern : MacroPattern :=
  .list [.literal "f" false, .list [.var "x" false, .var "y" true] true] false

theorem inverseAt_iff_expandable_nested :
    nestedPattern.Linear ∧ ((∀ form, InverseAt nestedPattern form) ↔ nestedPattern.expandable = true) :=
  have hlinear : nestedPattern.Linear := ⟨by decide, by decide, by decide, by decide⟩
  ⟨hlinear, inverseAt_iff_expandable hlinear⟩

/-- `(x ...)` -/
def headPattern : MacroPattern := .list [.var "x" true] false

/-- The pattern `(x ...)` matches `(1 2)`, and its instance is `(1)`. -/
theorem not_inverseAt_head : ¬ ∀ p, p.Linear → ∀ form, InverseAt p form := by
  intro h
  have hlinear : headPattern.Linear := ⟨by decide, by decide, by decide, by decide⟩
  have hinverse := h headPattern hlinear (.call .call (.constant "1") [.constant "2"])
  have hmatch : matchPattern headPattern (.call .call (.constant "1") [.constant "2"]) noBindings =
      some (mergeRepetitions (.var "x" true)
        [fun x => if x = "x" then some (.scalar (.constant "1")) else none,
          fun x => if x = "x" then some (.scalar (.constant "2")) else none] noBindings) := rfl
  have hform := hinverse.1 _ hmatch
  rw [headPattern, template_repeated hlinear rfl, substitute_misplaced] at hform
  cases (Ast.call.inj hform).2.2

end Macro
