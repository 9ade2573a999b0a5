import Eshkol.Macro.MatchingTheorems
import Eshkol.Macro.Replacement

/-!
# Settled templates

Whatever the names are bound to, substitution replaces every occurrence of them in a settled template and changes
nothing else: what it copies does not mention them, and the driver that it finds is the first one there is.
-/

namespace Macro

variable {names : List String} {bindings : Bindings} {ast item : Ast} {items rest : List Ast} {x : String}

/-- Bindings of the names to forms. -/
structure BindsForms (names : List String) (bindings : Bindings) : Prop where
  forms : OfForms bindings
  bound : ∀ x, (bindings x).isSome = names.contains x

lemma BindsForms.peel (h : BindsForms names bindings) (i : ℕ) :
    BindsForms names (peelBindingsAtIndex bindings i) where
  forms := h.forms.peel i
  bound x := by rw [peelBindingsAtIndex, Option.isSome_map, h.bound x]

lemma BindsForms.eq_none (h : BindsForms names bindings) (hx : names.contains x = false) : bindings x = none := by
  have hbound := h.bound x
  rw [hx] at hbound
  exact Option.not_isSome_iff_eq_none.1 (by simp [hbound])

lemma BindsForms.renamed (h : BindsForms names bindings) (hx : names.contains x = false) :
    renamed bindings x = x := by
  rw [Macro.renamed, h.eq_none hx]
  rfl

lemma BindsForms.repeatedName (h : BindsForms names bindings) (hx : names.contains x = false) :
    repeatedName bindings x = none := by
  rw [Macro.repeatedName, h.eq_none hx]
  rfl

/-! ## Templates that are left as they are -/

lemma replaceAllInList_of_untouched (ih : ∀ t ∈ items, untouched names t = true → replaceAll t bindings = t)
    (h : untouchedInList names items = true) : replaceAllInList items false bindings = items := by
  induction items with
  | nil => rfl
  | cons item rest ihes =>
    simp only [untouchedInList, Bool.and_eq_true, beq_iff_eq] at h
    rw [replaceAllInList.eq_def]
    simp only [Bool.false_and, Bool.false_eq_true, if_false, h.1.2]
    rw [ih item List.mem_cons_self h.1.1, ihes (fun t ht => ih t (List.mem_cons_of_mem _ ht)) h.2]

/-- A field with another name keeps it. -/
lemma map_renamed (hb : BindsForms names bindings) {field : Option String}
    (h : (field.all fun name => !names.contains name) = true) : field.map (renamed bindings) = field := by
  cases field with
  | none => rfl
  | some name =>
    simp only [Option.all_some, Bool.not_eq_true'] at h
    rw [Option.map_some, hb.renamed h]

lemma map_renamed_list (hb : BindsForms names bindings) {fields : List String}
    (h : (fields.all fun field => !names.contains field) = true) : fields.map (renamed bindings) = fields := by
  rw [List.map_congr_left (g := id), List.map_id]
  intro name hname
  have hnot := List.all_eq_true.1 h name hname
  exact hb.renamed (by simpa using hnot)

/-- Where the names do not occur there is nothing to replace. -/
lemma replaceAll_of_untouched (hb : BindsForms names bindings) (h : untouched names ast = true) :
    replaceAll ast bindings = ast := by
  induction ast with simp only [untouched, Bool.and_eq_true, Bool.not_eq_true'] at h
  | blank => rfl
  | nullptr => rfl
  | constant text => rfl
  | var id =>
    rw [replaceAll, hb.eq_none h]
    rfl
  | cons car cdr ihcar ihcdr =>
    rw [replaceAll, ihcar h.1, ihcdr h.2]
  | call op func vars ihfunc ihvars =>
    rw [replaceAll, ihfunc h.1, replaceAllInList_of_untouched ihvars h.2]
  | sequence op expressions ih =>
    rw [replaceAll, replaceAllInList_of_untouched ih h]
  | define name value parameters restParam ihvalue ihparameters =>
    obtain ⟨⟨⟨hname, hvalue⟩, hparameters⟩, hrest⟩ := h
    rw [replaceAll, hb.renamed hname, ihvalue hvalue, replaceAllInList_of_untouched ihparameters hparameters,
      map_renamed hb hrest]
  | lambda parameters restParam body ihparameters ihbody =>
    obtain ⟨⟨hparameters, hrest⟩, hbody⟩ := h
    rw [replaceAll, replaceAllInList_of_untouched ihparameters hparameters, map_renamed hb hrest, ihbody hbody]
  | letForm op name items body ihitems ihbody =>
    obtain ⟨⟨hname, hitems⟩, hbody⟩ := h
    rw [replaceAll, map_renamed hb hname, replaceAllInList_of_untouched ihitems hitems, ihbody hbody]
  | matchForm expr clauses ihexpr ihclauses =>
    rw [replaceAll, ihexpr h.1, replaceAllInList_of_untouched ihclauses h.2]
  | clause pattern guard body ihpattern ihguard ihbody =>
    rw [replaceAll, ihpattern h.1.1, ihguard h.1.2, ihbody h.2]
  | setForm name value ih =>
    rw [replaceAll, hb.renamed h.1, ih h.2]
  | guardForm varName clauses body ihclauses ihbody =>
    obtain ⟨⟨hname, hclauses⟩, hbody⟩ := h
    rw [replaceAll, hb.renamed hname, replaceAllInList_of_untouched ihclauses hclauses,
      replaceAllInList_of_untouched ihbody hbody]
  | unary op operand ih =>
    rw [replaceAll, ih h]
  | dynamicWind before thunk after ihbefore ihthunk ihafter =>
    rw [replaceAll, ihbefore h.1.1, ihthunk h.1.2, ihafter h.2]
  | other kind fields parts ih =>
    rw [replaceAll, map_renamed_list hb h.1, replaceAllInList_of_untouched ih h.2]

lemma findDriverAnywhereInList_of_untouched
    (ih : ∀ t ∈ items, untouched names t = true → findDriverAnywhere t bindings = none)
    (h : untouchedInList names items = true) : findDriverAnywhereInList items bindings = none := by
  induction items with
  | nil => rfl
  | cons item rest ihes =>
    simp only [untouchedInList, Bool.and_eq_true] at h
    rw [findDriverAnywhereInList, ih item List.mem_cons_self h.1.1,
      ihes (fun t ht => ih t (List.mem_cons_of_mem _ ht)) h.2]
    rfl

lemma bind_repeatedName (hb : BindsForms names bindings) {field : Option String}
    (h : (field.all fun name => !names.contains name) = true) : field.bind (repeatedName bindings) = none := by
  cases field with
  | none => rfl
  | some name =>
    simp only [Option.all_some, Bool.not_eq_true'] at h
    rw [Option.bind_some, hb.repeatedName h]

lemma findSome_repeatedName (hb : BindsForms names bindings) {fields : List String}
    (h : (fields.all fun field => !names.contains field) = true) :
    fields.findSome? (repeatedName bindings) = none := by
  rw [List.findSome?_eq_none_iff]
  intro name hname
  have hnot := List.all_eq_true.1 h name hname
  exact hb.repeatedName (by simpa using hnot)

/-- Where the names do not occur there is no driver. -/
lemma findDriverAnywhere_of_untouched (hb : BindsForms names bindings) (h : untouched names ast = true) :
    findDriverAnywhere ast bindings = none := by
  induction ast with simp only [untouched, Bool.and_eq_true, Bool.not_eq_true'] at h
  | blank => rfl
  | nullptr => rfl
  | constant text => rfl
  | var id =>
    exact hb.repeatedName h
  | cons car cdr ihcar ihcdr =>
    rw [findDriverAnywhere, ihcar h.1, ihcdr h.2, Option.none_or]
  | call op func vars ihfunc ihvars =>
    rw [findDriverAnywhere, ihfunc h.1, findDriverAnywhereInList_of_untouched ihvars h.2, Option.none_or]
  | sequence op expressions ih =>
    rw [findDriverAnywhere, findDriverAnywhereInList_of_untouched ih h]
  | define name value parameters restParam ihvalue ihparameters =>
    obtain ⟨⟨⟨hname, hvalue⟩, hparameters⟩, hrest⟩ := h
    simp only [findDriverAnywhere, hb.repeatedName hname, ihvalue hvalue,
      findDriverAnywhereInList_of_untouched ihparameters hparameters, bind_repeatedName hb hrest, Option.none_or]
  | lambda parameters restParam body ihparameters ihbody =>
    obtain ⟨⟨hparameters, hrest⟩, hbody⟩ := h
    simp only [findDriverAnywhere, findDriverAnywhereInList_of_untouched ihparameters hparameters,
      bind_repeatedName hb hrest, ihbody hbody, Option.none_or]
  | letForm op name items body ihitems ihbody =>
    obtain ⟨⟨hname, hitems⟩, hbody⟩ := h
    simp only [findDriverAnywhere, bind_repeatedName hb hname, findDriverAnywhereInList_of_untouched ihitems hitems,
      ihbody hbody, Option.none_or]
  | matchForm expr clauses ihexpr ihclauses =>
    rw [findDriverAnywhere, ihexpr h.1, findDriverAnywhereInList_of_untouched ihclauses h.2, Option.none_or]
  | clause pattern guard body ihpattern ihguard ihbody =>
    simp only [findDriverAnywhere, ihpattern h.1.1, ihguard h.1.2, ihbody h.2, Option.none_or]
  | setForm name value ih =>
    rw [findDriverAnywhere, hb.repeatedName h.1, ih h.2, Option.none_or]
  | guardForm varName clauses body ihclauses ihbody =>
    obtain ⟨⟨hname, hclauses⟩, hbody⟩ := h
    simp only [findDriverAnywhere, hb.repeatedName hname, findDriverAnywhereInList_of_untouched ihclauses hclauses,
      findDriverAnywhereInList_of_untouched ihbody hbody, Option.none_or]
  | unary op operand ih =>
    rw [findDriverAnywhere, ih h]
  | dynamicWind before thunk after ihbefore ihthunk ihafter =>
    simp only [findDriverAnywhere, ihbefore h.1.1, ihthunk h.1.2, ihafter h.2, Option.none_or]
  | other kind fields parts ih =>
    rw [findDriverAnywhere, findSome_repeatedName hb h.1, findDriverAnywhereInList_of_untouched ih h.2,
      Option.none_or]

/-! ## Settled templates -/

lemma settled_of_mem {counted : Bool} (h : settledInList names items counted = true) :
    ∀ t ∈ items, settled names t = true := by
  induction items generalizing counted with
  | nil =>
    intro t ht
    cases ht
  | cons item rest ih =>
    rw [settledInList.eq_def] at h
    simp only at h
    rw [List.forall_mem_cons]
    split_ifs at h with hcounted
    · -- a counted ellipsis is a symbol
      constructor
      · cases item with
        | var id => rfl
        | _ => simp [isEllipsisSymbol] at hcounted
      · exact ih h
    · split at h
      · rw [Bool.and_eq_true] at h
        exact ⟨h.1, ih h.2⟩
      · simp only [Bool.and_eq_true] at h
        exact ⟨h.1.2, ih h.2⟩

lemma settled_of_mem_each (h : settledEach names items = true) : ∀ t ∈ items, settled names t = true := by
  induction items with
  | nil =>
    intro t ht
    cases ht
  | cons item rest ih =>
    simp only [settledEach, Bool.and_eq_true] at h
    rw [List.forall_mem_cons]
    exact ⟨h.1.1, ih h.2⟩

lemma findDriverInList_eq (ih : ∀ t ∈ items, settled names t = true →
      findEllipsisDriver t bindings = findDriverAnywhere t bindings)
    (h : ∀ t ∈ items, settled names t = true) :
    findDriverInList items bindings = findDriverAnywhereInList items bindings := by
  induction items with
  | nil => rfl
  | cons item rest ihes =>
    rw [findDriverInList, findDriverAnywhereInList, ih item List.mem_cons_self (h item List.mem_cons_self),
      ihes (fun t ht => ih t (List.mem_cons_of_mem _ ht)) (fun t ht => h t (List.mem_cons_of_mem _ ht))]

/-- In a settled template the driver is the first repeated variable in any position. -/
lemma findEllipsisDriver_of_settled (hb : BindsForms names bindings) (h : settled names ast = true) :
    findEllipsisDriver ast bindings = findDriverAnywhere ast bindings := by
  induction ast with simp only [settled, Bool.and_eq_true, Bool.not_eq_true'] at h
  | blank => rfl
  | nullptr => rfl
  | constant text => rfl
  | var id => rfl
  | cons car cdr ihcar ihcdr =>
    rw [findEllipsisDriver, findDriverAnywhere, ihcar h.1.2, ihcdr h.2]
  | call op func vars ihfunc ihvars =>
    rw [findEllipsisDriver, findDriverAnywhere, ihfunc h.1, findDriverInList_eq ihvars (settled_of_mem h.2)]
  | sequence op expressions ih =>
    rw [findEllipsisDriver, findDriverAnywhere, findDriverInList_eq ih (settled_of_mem h)]
  | define name value parameters restParam ihvalue ihparameters =>
    obtain ⟨⟨⟨hname, hvalue⟩, hparameters⟩, hrest⟩ := h
    simp only [findEllipsisDriver, findDriverAnywhere, hb.repeatedName hname, ihvalue hvalue,
      findDriverAnywhereInList_of_untouched (fun _ _ => findDriverAnywhere_of_untouched hb) hparameters,
      bind_repeatedName hb hrest, Option.none_or, Option.or_none]
  | lambda parameters restParam body ihparameters ihbody =>
    obtain ⟨⟨hparameters, hrest⟩, hbody⟩ := h
    simp only [findEllipsisDriver, findDriverAnywhere, ihbody hbody,
      findDriverAnywhereInList_of_untouched (fun _ _ => findDriverAnywhere_of_untouched hb) hparameters,
      bind_repeatedName hb hrest, Option.none_or]
  | letForm op name items body ihitems ihbody =>
    obtain ⟨⟨hname, hitems⟩, hbody⟩ := h
    simp only [findEllipsisDriver, findDriverAnywhere, bind_repeatedName hb hname,
      findDriverInList_eq ihitems (settled_of_mem_each hitems), ihbody hbody, Option.none_or]
  | matchForm expr clauses ihexpr ihclauses =>
    rw [findEllipsisDriver, findDriverAnywhere, ihexpr h.1, findDriverInList_eq ihclauses (settled_of_mem_each h.2)]
  | clause pattern guard body ihpattern ihguard ihbody =>
    obtain ⟨⟨⟨hpattern, hguard⟩, -⟩, hbody⟩ := h
    simp only [findEllipsisDriver, findDriverAnywhere, findDriverAnywhere_of_untouched hb hpattern,
      findDriverAnywhere_of_untouched hb hguard, ihbody hbody, Option.none_or]
  | setForm name value ih =>
    rw [findEllipsisDriver, findDriverAnywhere, hb.repeatedName h.1, ih h.2, Option.none_or]
  | guardForm varName clauses body ihclauses ihbody =>
    obtain ⟨⟨hname, hclauses⟩, hbody⟩ := h
    simp only [findEllipsisDriver, findDriverAnywhere, hb.repeatedName hname,
      findDriverInList_eq ihclauses (settled_of_mem_each hclauses), findDriverInList_eq ihbody (settled_of_mem hbody),
      Option.none_or]
  | unary op operand ih =>
    rw [findEllipsisDriver, findDriverAnywhere, ih h]
  | dynamicWind before thunk after ihbefore ihthunk ihafter =>
    rw [findEllipsisDriver, findDriverAnywhere, ihbefore h.1.1, ihthunk h.1.2, ihafter h.2]
  | other kind fields parts ih =>
    rw [findDriverAnywhere, findSome_repeatedName hb h.1,
      findDriverAnywhereInList_of_untouched (fun _ _ => findDriverAnywhere_of_untouched hb) h.2]
    rfl

/-- Expansion depends only on the driver and on what is put in place of the element. -/
lemma expand_congr {α : Type} {P : Bindings → Prop}
    (hpeel : ∀ bindings i, P bindings → P (peelBindingsAtIndex bindings i))
    {driver driver' : Bindings → Option String} {visit visit' : Bindings → List α}
    (hdriver : ∀ bindings, P bindings → driver bindings = driver' bindings)
    (hvisit : ∀ bindings, P bindings → visit bindings = visit' bindings) (more : ℕ) (h : P bindings) :
    expandEllipsisElementN driver visit more bindings = expandEllipsisElementN driver' visit' more bindings := by
  induction more generalizing bindings with
  | zero =>
    unfold expandEllipsisElementN overRepetitions
    rw [hdriver bindings h, hvisit bindings h]
    split
    · rfl
    · exact List.flatMap_congr fun i _ => hvisit _ (hpeel bindings i h)
  | succ more ih =>
    unfold expandEllipsisElementN overRepetitions
    rw [hdriver bindings h, hvisit bindings h]
    split
    · rfl
    · exact List.flatMap_congr fun i _ => ih (hpeel bindings i h)

/-- The elements of an array, with their ellipses. -/
lemma substituteBindingsInList_of_settled {counted : Bool} (hb : BindsForms names bindings)
    (ih : ∀ t ∈ items, ∀ {bindings}, BindsForms names bindings → settled names t = true →
      substituteBindings t bindings = replaceAll t bindings)
    (h : settledInList names items counted = true) :
    substituteBindingsInList items counted bindings = replaceAllInList items counted bindings := by
  induction items generalizing counted with
  | nil => rfl
  | cons item rest ihes =>
    have ihes' {counted : Bool} := @ihes counted fun t ht => ih t (List.mem_cons_of_mem _ ht)
    have hitem {bindings} := @ih item List.mem_cons_self bindings
    rw [settledInList.eq_def] at h
    rw [substituteBindingsInList.eq_def, replaceAllInList.eq_def]
    by_cases hcounted : (counted && isEllipsisSymbol item) = true
    · simp only [hcounted, if_true] at h ⊢
      exact ihes' h
    · simp only [if_neg hcounted] at h ⊢
      cases hcount : ellipsisCount rest with
      | zero =>
        simp only [hcount, Bool.and_eq_true, Bool.not_eq_true'] at h
        simp only [h.1.1, Bool.false_eq_true, if_false]
        rw [hitem hb h.1.2, ihes' h.2]
      | succ more =>
        simp only [hcount, Bool.and_eq_true] at h
        simp only
        rw [ihes' h.2, expand_congr (P := BindsForms names) (fun _ i h => h.peel i)
          (fun _ hb => findEllipsisDriver_of_settled hb h.1) (fun _ hb => congrArg (fun t => [t]) (hitem hb h.1)) more hb]

lemma substituteEach_of_settled (hb : BindsForms names bindings)
    (ih : ∀ t ∈ items, ∀ {bindings}, BindsForms names bindings → settled names t = true →
      substituteBindings t bindings = replaceAll t bindings)
    (h : settledEach names items = true) :
    substituteEach items bindings = replaceAllInList items false bindings := by
  induction items with
  | nil => rfl
  | cons item rest ihes =>
    simp only [settledEach, Bool.and_eq_true, beq_iff_eq] at h
    rw [substituteEach, replaceAllInList.eq_def]
    simp only [Bool.false_and, Bool.false_eq_true, if_false, h.1.2]
    rw [ih item List.mem_cons_self hb h.1.1, ihes (fun t ht => ih t (List.mem_cons_of_mem _ ht)) h.2]

lemma ne_nullptr_of_notNull (h : notNull ast = true) : ast ≠ .nullptr := by
  rintro rfl
  cases h

lemma orBlank_of_ne (h : ast ≠ .nullptr) : orBlank ast = ast := by
  cases ast with
  | nullptr => exact absurd rfl h
  | _ => rfl

/-- A settled template is replaced in every position. -/
lemma substituteBindings_of_settled (hb : BindsForms names bindings) (h : settled names ast = true) :
    substituteBindings ast bindings = replaceAll ast bindings := by
  induction ast generalizing bindings with simp only [settled, Bool.and_eq_true, Bool.not_eq_true'] at h
  | blank => rfl
  | nullptr => rfl
  | constant text => rfl
  | var id => rfl
  | cons car cdr ihcar ihcdr =>
    obtain ⟨⟨⟨hcar, hcdr⟩, hscar⟩, hscdr⟩ := h
    rw [substituteBindings, replaceAll, orBlank_of_ne (substitute_ne_nullptr hb.forms (ne_nullptr_of_notNull hcar)),
      orBlank_of_ne (substitute_ne_nullptr hb.forms (ne_nullptr_of_notNull hcdr)), ihcar hb hscar, ihcdr hb hscdr]
  | call op func vars ihfunc ihvars =>
    rw [substituteBindings, replaceAll, ihfunc hb h.1, substituteBindingsInList_of_settled hb ihvars h.2]
  | sequence op expressions ih =>
    rw [substituteBindings, replaceAll, substituteBindingsInList_of_settled hb ih h]
  | define name value parameters restParam ihvalue ihparameters =>
    obtain ⟨⟨⟨hname, hvalue⟩, hparameters⟩, hrest⟩ := h
    rw [substituteBindings, replaceAll, hb.renamed hname, ihvalue hb hvalue, map_renamed hb hrest,
      replaceAllInList_of_untouched (fun _ _ => replaceAll_of_untouched hb) hparameters]
  | lambda parameters restParam body ihparameters ihbody =>
    obtain ⟨⟨hparameters, hrest⟩, hbody⟩ := h
    rw [substituteBindings, replaceAll, ihbody hb hbody, map_renamed hb hrest,
      replaceAllInList_of_untouched (fun _ _ => replaceAll_of_untouched hb) hparameters]
  | letForm op name items body ihitems ihbody =>
    obtain ⟨⟨hname, hitems⟩, hbody⟩ := h
    rw [substituteBindings, replaceAll, ihbody hb hbody, map_renamed hb hname,
      substituteEach_of_settled hb ihitems hitems]
  | matchForm expr clauses ihexpr ihclauses =>
    rw [substituteBindings, replaceAll, ihexpr hb h.1, substituteEach_of_settled hb ihclauses h.2]
  | clause pattern guard body ihpattern ihguard ihbody =>
    obtain ⟨⟨⟨hpattern, hguard⟩, -⟩, hbody⟩ := h
    rw [substituteBindings, replaceAll, replaceAll_of_untouched hb hpattern, replaceAll_of_untouched hb hguard,
      ihbody hb hbody]
  | setForm name value ih =>
    rw [substituteBindings, replaceAll, hb.renamed h.1, ih hb h.2]
  | guardForm varName clauses body ihclauses ihbody =>
    obtain ⟨⟨hname, hclauses⟩, hbody⟩ := h
    rw [substituteBindings, replaceAll, hb.renamed hname, substituteEach_of_settled hb ihclauses hclauses,
      substituteBindingsInList_of_settled hb ihbody hbody]
  | unary op operand ih =>
    rw [substituteBindings, replaceAll, ih hb h]
  | dynamicWind before thunk after ihbefore ihthunk ihafter =>
    rw [substituteBindings, replaceAll, ihbefore hb h.1.1, ihthunk hb h.1.2, ihafter hb h.2]
  | other kind fields parts ih =>
    rw [replaceAll, map_renamed_list hb h.1,
      replaceAllInList_of_untouched (fun _ _ => replaceAll_of_untouched hb) h.2]
    rfl

/-! ## Writes into settled templates -/

/-- The template is written back as it was. -/
def Idle (writes : List (Ast × Ast)) : Prop := ∀ write ∈ writes, write.1 = write.2

lemma Idle.append {ws ws' : List (Ast × Ast)} (h : Idle ws) (h' : Idle ws') : Idle (ws ++ ws') := by
  intro write hmem
  rcases List.mem_append.1 hmem with hmem | hmem
  · exact h write hmem
  · exact h' write hmem

lemma idle_nil : Idle [] := by
  intro write hmem
  cases hmem

lemma clauseWritesInList_of_settled {counted : Bool} (hb : BindsForms names bindings)
    (ih : ∀ t ∈ items, ∀ {bindings}, BindsForms names bindings → settled names t = true → Idle (clauseWrites t bindings))
    (h : settledInList names items counted = true) : Idle (clauseWritesInList items counted bindings) := by
  induction items generalizing counted with
  | nil => exact idle_nil
  | cons item rest ihes =>
    have ihes' {counted : Bool} := @ihes counted fun t ht => ih t (List.mem_cons_of_mem _ ht)
    have hitem {bindings} := @ih item List.mem_cons_self bindings
    rw [settledInList.eq_def] at h
    rw [clauseWritesInList.eq_def]
    by_cases hcounted : (counted && isEllipsisSymbol item) = true
    · simp only [hcounted, if_true] at h ⊢
      exact ihes' h
    · simp only [if_neg hcounted] at h ⊢
      cases hcount : ellipsisCount rest with
      | zero =>
        simp only [hcount, Bool.and_eq_true, Bool.not_eq_true'] at h
        simp only [h.1.1, Bool.false_eq_true, if_false]
        exact (hitem hb h.1.2).append (ihes' h.2)
      | succ more =>
        simp only [hcount, Bool.and_eq_true] at h
        simp only
        apply Idle.append _ (ihes' h.2)
        intro write hmem
        obtain ⟨bindings', hb', hwrite⟩ := mem_expand (P := BindsForms names) (fun _ i h => h.peel i) hb hmem
        exact hitem hb' h.1 write hwrite

lemma clauseWritesOfEach_of_settled (hb : BindsForms names bindings)
    (ih : ∀ t ∈ items, ∀ {bindings}, BindsForms names bindings → settled names t = true → Idle (clauseWrites t bindings))
    (h : settledEach names items = true) : Idle (clauseWritesOfEach items bindings) := by
  induction items with
  | nil => exact idle_nil
  | cons item rest ihes =>
    simp only [settledEach, Bool.and_eq_true] at h
    exact (ih item List.mem_cons_self hb h.1.1).append (ihes (fun t ht => ih t (List.mem_cons_of_mem _ ht)) h.2)

/-- A settled template is left as it was. -/
lemma clauseWrites_of_settled (hb : BindsForms names bindings) (h : settled names ast = true) :
    Idle (clauseWrites ast bindings) := by
  induction ast generalizing bindings with simp only [settled, Bool.and_eq_true, Bool.not_eq_true'] at h
  | blank => exact idle_nil
  | nullptr => exact idle_nil
  | constant text => exact idle_nil
  | var id => exact idle_nil
  | cons car cdr ihcar ihcdr =>
    exact (ihcar hb h.1.2).append (ihcdr hb h.2)
  | call op func vars ihfunc ihvars =>
    exact (ihfunc hb h.1).append (clauseWritesInList_of_settled hb ihvars h.2)
  | sequence op expressions ih =>
    exact clauseWritesInList_of_settled hb ih h
  | define name value parameters restParam ihvalue ihparameters =>
    exact ihvalue hb h.1.1.2
  | lambda parameters restParam body ihparameters ihbody =>
    exact ihbody hb h.2
  | letForm op name items body ihitems ihbody =>
    exact (clauseWritesOfEach_of_settled hb ihitems h.1.2).append (ihbody hb h.2)
  | matchForm expr clauses ihexpr ihclauses =>
    exact (ihexpr hb h.1).append (clauseWritesOfEach_of_settled hb ihclauses h.2)
  | clause pattern guard body ihpattern ihguard ihbody =>
    obtain ⟨⟨-, hbody⟩, hsettled⟩ := h
    apply (ihbody hb hsettled).append
    intro write hmem
    obtain rfl := List.mem_singleton.1 hmem
    -- the new body is the old one, as no name occurs in it
    calc body = replaceAll body bindings := (replaceAll_of_untouched hb hbody).symm
      _ = substituteBindings body bindings := (substituteBindings_of_settled hb hsettled).symm
  | setForm name value ih =>
    exact ih hb h.2
  | guardForm varName clauses body ihclauses ihbody =>
    exact (clauseWritesOfEach_of_settled hb ihclauses h.1.2).append (clauseWritesInList_of_settled hb ihbody h.2)
  | unary op operand ih =>
    exact ih hb h
  | dynamicWind before thunk after ihbefore ihthunk ihafter =>
    exact ((ihbefore hb h.1.1).append (ihthunk hb h.1.2)).append (ihafter hb h.2)
  | other kind fields parts ih => exact idle_nil

end Macro
