import Eshkol.Macro.ReplacementTheorems

/-!
# Positions that substitution misses

One renaming of the names to fresh variables shows every position that is missed. Under it nothing is repeated, so
that arrays are compared item by item, and an ellipsis that is not expanded shows in their lengths.
-/

namespace Macro

variable {names : List String} {bindings : Bindings} {ast item : Ast} {items rest : List Ast} {x : String}

/-! ## One renaming -/

/-- Every name is bound to a fresh one. -/
def freshBindings (names : List String) : Bindings :=
  fun x => if names.contains x then some (.scalar (.var (x ++ "*"))) else none

lemma bindsForms_freshBindings (names : List String) : BindsForms names (freshBindings names) where
  forms x t ht := by
    unfold freshBindings at ht
    split_ifs at ht
    obtain rfl := Option.some.inj ht
    exact ⟨0, Ast.noConfusion⟩
  bound x := by
    unfold freshBindings
    split_ifs with hx
    · rw [hx]
      rfl
    · rw [Bool.not_eq_true] at hx
      rw [hx]
      rfl

lemma append_star_ne (x : String) : x ++ "*" ≠ x := by
  intro h
  have hlength := congrArg String.length h
  rw [String.length_append] at hlength
  have hone : "*".length = 1 := rfl
  omega

lemma renamed_freshBindings (h : renamed (freshBindings names) x = x) : names.contains x = false := by
  rw [← Bool.not_eq_true]
  intro hx
  have hfresh : renamed (freshBindings names) x = x ++ "*" := by
    rw [renamed, freshBindings, if_pos hx]
    rfl
  exact append_star_ne x (hfresh.symm.trans h)

lemma all_of_map_renamed {field : Option String} (h : field.map (renamed (freshBindings names)) = field) :
    (field.all fun name => !names.contains name) = true := by
  cases field with
  | none => rfl
  | some name =>
    rw [Option.map_some, Option.some.injEq] at h
    rw [Option.all_some, renamed_freshBindings h]
    rfl

lemma all_of_map_renamed_list {fields : List String} (h : fields.map (renamed (freshBindings names)) = fields) :
    (fields.all fun field => !names.contains field) = true := by
  induction fields with
  | nil => rfl
  | cons field fields ih =>
    obtain ⟨hfield, hfields⟩ := List.cons.inj h
    rw [List.all_cons, renamed_freshBindings hfield, ih hfields]
    rfl

/-- Nothing is bound to a sequence. -/
def Scalars (bindings : Bindings) : Prop := ∀ x, (bindings x).any MatchTree.isSequence = false

lemma scalars_freshBindings (names : List String) : Scalars (freshBindings names) := by
  intro x
  unfold freshBindings
  split_ifs <;> rfl

lemma findEllipsisDriver_of_scalars (hs : Scalars bindings) (ast : Ast) :
    findEllipsisDriver ast bindings = none := by
  have hlist {items : List Ast} (ih : ∀ t ∈ items, findEllipsisDriver t bindings = none) :
      findDriverInList items bindings = none := by
    induction items with
    | nil => rfl
    | cons item rest ihes =>
      rw [List.forall_mem_cons] at ih
      rw [findDriverInList, ih.1, ihes ih.2, Option.none_or]
  induction ast with
  | blank => rfl
  | nullptr => rfl
  | constant text => rfl
  | var id => rw [findEllipsisDriver, hs id, if_neg Bool.false_ne_true]
  | cons car cdr ihcar ihcdr => rw [findEllipsisDriver, ihcar, ihcdr, Option.none_or]
  | call op func vars ihfunc ihvars => rw [findEllipsisDriver, ihfunc, hlist ihvars, Option.none_or]
  | sequence op expressions ih => rw [findEllipsisDriver, hlist ih]
  | define name value parameters restParam ihvalue ihparameters => rw [findEllipsisDriver, ihvalue]
  | lambda parameters restParam body ihparameters ihbody => rw [findEllipsisDriver, ihbody]
  | letForm op name items body ihitems ihbody => rw [findEllipsisDriver, hlist ihitems, ihbody, Option.none_or]
  | matchForm expr clauses ihexpr ihclauses => rw [findEllipsisDriver, ihexpr, hlist ihclauses, Option.none_or]
  | clause pattern guard body ihpattern ihguard ihbody => rw [findEllipsisDriver, ihbody]
  | setForm name value ih => rw [findEllipsisDriver, ih]
  | guardForm varName clauses body ihclauses ihbody =>
    rw [findEllipsisDriver, hlist ihclauses, hlist ihbody, Option.none_or]
  | unary op operand ih => rw [findEllipsisDriver, ih]
  | dynamicWind before thunk after ihbefore ihthunk ihafter =>
    rw [findEllipsisDriver, ihbefore, ihthunk, ihafter, Option.none_or, Option.none_or]
  | other kind fields parts ih => rfl

lemma findDriverAnywhere_of_scalars (hs : Scalars bindings) (ast : Ast) :
    findDriverAnywhere ast bindings = none := by
  have hname (x : String) : repeatedName bindings x = none := by
    rw [repeatedName, hs x, if_neg Bool.false_ne_true]
  have hfield (field : Option String) : field.bind (repeatedName bindings) = none := by
    cases field with
    | none => rfl
    | some name => exact hname name
  have hlist {items : List Ast} (ih : ∀ t ∈ items, findDriverAnywhere t bindings = none) :
      findDriverAnywhereInList items bindings = none := by
    induction items with
    | nil => rfl
    | cons item rest ihes =>
      rw [List.forall_mem_cons] at ih
      rw [findDriverAnywhereInList, ih.1, ihes ih.2, Option.none_or]
  induction ast with
  | blank => rfl
  | nullptr => rfl
  | constant text => rfl
  | var id => exact hname id
  | cons car cdr ihcar ihcdr => rw [findDriverAnywhere, ihcar, ihcdr, Option.none_or]
  | call op func vars ihfunc ihvars => rw [findDriverAnywhere, ihfunc, hlist ihvars, Option.none_or]
  | sequence op expressions ih => rw [findDriverAnywhere, hlist ih]
  | define name value parameters restParam ihvalue ihparameters =>
    rw [findDriverAnywhere, hname, ihvalue, hlist ihparameters, hfield, Option.none_or, Option.none_or, Option.none_or]
  | lambda parameters restParam body ihparameters ihbody =>
    simp only [findDriverAnywhere, hlist ihparameters, hfield, ihbody, Option.none_or]
  | letForm op name items body ihitems ihbody =>
    simp only [findDriverAnywhere, hfield, hlist ihitems, ihbody, Option.none_or]
  | matchForm expr clauses ihexpr ihclauses => rw [findDriverAnywhere, ihexpr, hlist ihclauses, Option.none_or]
  | clause pattern guard body ihpattern ihguard ihbody =>
    simp only [findDriverAnywhere, ihpattern, ihguard, ihbody, Option.none_or]
  | setForm name value ih => rw [findDriverAnywhere, hname, ih, Option.none_or]
  | guardForm varName clauses body ihclauses ihbody =>
    simp only [findDriverAnywhere, hname, hlist ihclauses, hlist ihbody, Option.none_or]
  | unary op operand ih => rw [findDriverAnywhere, ih]
  | dynamicWind before thunk after ihbefore ihthunk ihafter =>
    simp only [findDriverAnywhere, ihbefore, ihthunk, ihafter, Option.none_or]
  | other kind fields parts ih =>
    rw [findDriverAnywhere, hlist ih, List.findSome?_eq_none_iff.2 fun name _ => hname name, Option.none_or]

/-! ## The length of an array -/

lemma replaceAllInList_of_repeated (hs : Scalars bindings) {counted : Bool}
    (hcounted : (counted && isEllipsisSymbol item) = false) (hcount : ellipsisCount rest ≠ 0) :
    replaceAllInList (item :: rest) counted bindings =
      replaceAll item bindings :: replaceAllInList rest true bindings := by
  obtain ⟨more, hmore⟩ := Nat.exists_eq_succ_of_ne_zero hcount
  rw [replaceAllInList.eq_def]
  simp only [hcounted, Bool.false_eq_true, if_false, hmore]
  rw [expand_of_no_driver (findDriverAnywhere_of_scalars hs item)]
  rfl

lemma length_replaceAllInList_le (hs : Scalars bindings) (items : List Ast) (counted : Bool) :
    (replaceAllInList items counted bindings).length ≤ items.length := by
  induction items generalizing counted with
  | nil => exact Nat.le_refl 0
  | cons item rest ih =>
    by_cases hcounted : (counted && isEllipsisSymbol item) = true
    · rw [replaceAllInList.eq_def]
      simp only [if_pos hcounted, List.length_cons]
      exact Nat.le_succ_of_le (ih true)
    · by_cases hcount : ellipsisCount rest = 0
      · rw [replaceAllInList.eq_def]
        simp only [if_neg hcounted, hcount, List.length_cons]
        exact Nat.succ_le_succ (ih false)
      · rw [replaceAllInList_of_repeated hs (by simpa using hcounted) hcount]
        exact Nat.succ_le_succ (ih true)

/-- An ellipsis that is counted is not left. -/
lemma length_replaceAllInList_lt (hs : Scalars bindings) (hcount : ellipsisCount items ≠ 0) :
    (replaceAllInList items true bindings).length < items.length := by
  cases items with
  | nil => exact absurd rfl hcount
  | cons item rest =>
    have hellipsis : isEllipsisSymbol item = true := by
      by_contra h
      exact hcount (by simp [ellipsisCount, h])
    rw [replaceAllInList.eq_def]
    simp only [hellipsis, Bool.and_self, if_true, List.length_cons]
    exact Nat.lt_succ_of_le (length_replaceAllInList_le hs rest true)

/-! ## What is left as it is contains no name -/

lemma untouchedInList_of_replaceAllInList
    (ih : ∀ t ∈ items, replaceAll t (freshBindings names) = t → untouched names t = true)
    (h : replaceAllInList items false (freshBindings names) = items) : untouchedInList names items = true := by
  have hs := scalars_freshBindings names
  induction items with
  | nil => rfl
  | cons item rest ihes =>
    by_cases hcount : ellipsisCount rest = 0
    · rw [replaceAllInList.eq_def] at h
      simp only [Bool.false_and, Bool.false_eq_true, if_false, hcount] at h
      obtain ⟨hitem, hrest⟩ := List.cons.inj h
      rw [untouchedInList, ih item List.mem_cons_self hitem, hcount,
        ihes (fun t ht => ih t (List.mem_cons_of_mem _ ht)) hrest]
      rfl
    · -- an ellipsis after the item would be gone
      rw [replaceAllInList_of_repeated hs rfl hcount] at h
      have hlt := length_replaceAllInList_lt hs hcount
      rw [(List.cons.inj h).2] at hlt
      exact absurd hlt (Nat.lt_irrefl _)

lemma untouched_of_replaceAll (h : replaceAll ast (freshBindings names) = ast) : untouched names ast = true := by
  induction ast with
  | blank => rfl
  | nullptr => rfl
  | constant text => rfl
  | var id =>
    rw [untouched, Bool.not_eq_true', ← Bool.not_eq_true]
    intro hid
    rw [replaceAll, freshBindings, if_pos hid] at h
    exact append_star_ne id (Ast.var.inj h)
  | cons car cdr ihcar ihcdr =>
    rw [replaceAll, Ast.cons.injEq] at h
    rw [untouched, ihcar h.1, ihcdr h.2]
    rfl
  | call op func vars ihfunc ihvars =>
    rw [replaceAll, Ast.call.injEq] at h
    rw [untouched, ihfunc h.2.1, untouchedInList_of_replaceAllInList ihvars h.2.2]
    rfl
  | sequence op expressions ih =>
    rw [replaceAll, Ast.sequence.injEq] at h
    rw [untouched, untouchedInList_of_replaceAllInList ih h.2]
  | define name value parameters restParam ihvalue ihparameters =>
    rw [replaceAll, Ast.define.injEq] at h
    obtain ⟨hname, hvalue, hparameters, hrest⟩ := h
    rw [untouched, renamed_freshBindings hname, ihvalue hvalue,
      untouchedInList_of_replaceAllInList ihparameters hparameters, all_of_map_renamed hrest]
    rfl
  | lambda parameters restParam body ihparameters ihbody =>
    rw [replaceAll, Ast.lambda.injEq] at h
    obtain ⟨hparameters, hrest, hbody⟩ := h
    rw [untouched, untouchedInList_of_replaceAllInList ihparameters hparameters, all_of_map_renamed hrest,
      ihbody hbody]
    rfl
  | letForm op name items body ihitems ihbody =>
    rw [replaceAll, Ast.letForm.injEq] at h
    obtain ⟨-, hname, hitems, hbody⟩ := h
    rw [untouched, all_of_map_renamed hname, untouchedInList_of_replaceAllInList ihitems hitems, ihbody hbody]
    rfl
  | matchForm expr clauses ihexpr ihclauses =>
    rw [replaceAll, Ast.matchForm.injEq] at h
    rw [untouched, ihexpr h.1, untouchedInList_of_replaceAllInList ihclauses h.2]
    rfl
  | clause pattern guard body ihpattern ihguard ihbody =>
    rw [replaceAll, Ast.clause.injEq] at h
    rw [untouched, ihpattern h.1, ihguard h.2.1, ihbody h.2.2]
    rfl
  | setForm name value ih =>
    rw [replaceAll, Ast.setForm.injEq] at h
    rw [untouched, renamed_freshBindings h.1, ih h.2]
    rfl
  | guardForm varName clauses body ihclauses ihbody =>
    rw [replaceAll, Ast.guardForm.injEq] at h
    obtain ⟨hname, hclauses, hbody⟩ := h
    rw [untouched, renamed_freshBindings hname, untouchedInList_of_replaceAllInList ihclauses hclauses,
      untouchedInList_of_replaceAllInList ihbody hbody]
    rfl
  | unary op operand ih =>
    rw [replaceAll, Ast.unary.injEq] at h
    rw [untouched, ih h.2]
  | dynamicWind before thunk after ihbefore ihthunk ihafter =>
    rw [replaceAll, Ast.dynamicWind.injEq] at h
    rw [untouched, ihbefore h.1, ihthunk h.2.1, ihafter h.2.2]
    rfl
  | other kind fields parts ih =>
    rw [replaceAll, Ast.other.injEq] at h
    rw [untouched, all_of_map_renamed_list h.2.1, untouchedInList_of_replaceAllInList ih h.2.2]
    rfl

/-! ## What is replaced everywhere is settled -/

lemma substituteBindingsInList_of_repeated (hs : Scalars bindings) {counted : Bool}
    (hcounted : (counted && isEllipsisSymbol item) = false) (hcount : ellipsisCount rest ≠ 0) :
    substituteBindingsInList (item :: rest) counted bindings =
      substituteBindings item bindings :: substituteBindingsInList rest true bindings := by
  obtain ⟨more, hmore⟩ := Nat.exists_eq_succ_of_ne_zero hcount
  rw [substituteBindingsInList.eq_def]
  simp only [hcounted, Bool.false_eq_true, if_false, hmore]
  rw [expand_of_no_driver (findEllipsisDriver_of_scalars hs item)]
  rfl

lemma clauseWritesInList_of_repeated (hs : Scalars bindings) {counted : Bool}
    (hcounted : (counted && isEllipsisSymbol item) = false) (hcount : ellipsisCount rest ≠ 0) :
    clauseWritesInList (item :: rest) counted bindings =
      clauseWrites item bindings ++ clauseWritesInList rest true bindings := by
  obtain ⟨more, hmore⟩ := Nat.exists_eq_succ_of_ne_zero hcount
  rw [clauseWritesInList.eq_def]
  simp only [hcounted, Bool.false_eq_true, if_false, hmore]
  rw [expand_of_no_driver (findEllipsisDriver_of_scalars hs item)]

lemma length_substituteBindingsInList_le (hs : Scalars bindings) (items : List Ast) (counted : Bool) :
    (substituteBindingsInList items counted bindings).length ≤ (replaceAllInList items counted bindings).length := by
  induction items generalizing counted with
  | nil => exact Nat.le_refl 0
  | cons item rest ih =>
    by_cases hcounted : (counted && isEllipsisSymbol item) = true
    · rw [substituteBindingsInList.eq_def, replaceAllInList.eq_def]
      simp only [if_pos hcounted]
      exact ih true
    · by_cases hcount : ellipsisCount rest = 0
      · rw [substituteBindingsInList.eq_def, replaceAllInList.eq_def]
        simp only [if_neg hcounted, hcount]
        split_ifs
        · exact Nat.le_succ_of_le (ih false)
        · exact Nat.succ_le_succ (ih false)
      · have hcounted' : (counted && isEllipsisSymbol item) = false := by simpa using hcounted
        rw [replaceAllInList_of_repeated hs hcounted' hcount, substituteBindingsInList_of_repeated hs hcounted' hcount]
        exact Nat.succ_le_succ (ih true)

lemma length_substituteEach (items : List Ast) (bindings : Bindings) :
    (substituteEach items bindings).length = items.length := by
  induction items with
  | nil => rfl
  | cons item rest ih => rw [substituteEach, List.length_cons, ih, List.length_cons]

lemma Idle.left {ws ws' : List (Ast × Ast)} (h : Idle (ws ++ ws')) : Idle ws :=
  fun write hmem => h write (List.mem_append_left _ hmem)

lemma Idle.right {ws ws' : List (Ast × Ast)} (h : Idle (ws ++ ws')) : Idle ws' :=
  fun write hmem => h write (List.mem_append_right _ hmem)

lemma settledInList_of_eq {counted : Bool}
    (ih : ∀ t ∈ items, substituteBindings t (freshBindings names) = replaceAll t (freshBindings names) →
      Idle (clauseWrites t (freshBindings names)) → settled names t = true)
    (h : substituteBindingsInList items counted (freshBindings names) =
      replaceAllInList items counted (freshBindings names))
    (hidle : Idle (clauseWritesInList items counted (freshBindings names))) :
    settledInList names items counted = true := by
  have hs := scalars_freshBindings names
  induction items generalizing counted with
  | nil => rfl
  | cons item rest ihes =>
    have ihes' {counted : Bool} := @ihes counted fun t ht => ih t (List.mem_cons_of_mem _ ht)
    have hitem := ih item List.mem_cons_self
    rw [settledInList.eq_def]
    by_cases hcounted : (counted && isEllipsisSymbol item) = true
    · rw [substituteBindingsInList.eq_def, replaceAllInList.eq_def] at h
      rw [clauseWritesInList.eq_def] at hidle
      simp only [if_pos hcounted] at h hidle ⊢
      exact ihes' h hidle
    · have hcounted' : (counted && isEllipsisSymbol item) = false := by simpa using hcounted
      cases hcount : ellipsisCount rest with
      | zero =>
        rw [substituteBindingsInList.eq_def, replaceAllInList.eq_def] at h
        rw [clauseWritesInList.eq_def] at hidle
        simp only [if_neg hcounted, hcount] at h hidle ⊢
        cases hellipsis : isEllipsisSymbol item with
        | true =>
          -- the ellipsis is skipped, and the rest does not make up for it
          simp only [hellipsis, if_true] at h
          have hle := length_substituteBindingsInList_le hs rest false
          rw [h, List.length_cons] at hle
          exact absurd hle (Nat.not_succ_le_self _)
        | false =>
          simp only [hellipsis, Bool.false_eq_true, if_false] at h hidle
          obtain ⟨hhead, hrest⟩ := List.cons.inj h
          rw [hitem hhead hidle.left, ihes' hrest hidle.right]
          rfl
      | succ more =>
        have hne : ellipsisCount rest ≠ 0 := by simp [hcount]
        rw [replaceAllInList_of_repeated hs hcounted' hne, substituteBindingsInList_of_repeated hs hcounted' hne] at h
        rw [clauseWritesInList_of_repeated hs hcounted' hne] at hidle
        obtain ⟨hhead, hrest⟩ := List.cons.inj h
        simp only [if_neg hcounted, hcount]
        rw [hitem hhead hidle.left, ihes' hrest hidle.right]
        rfl

lemma settledEach_of_eq
    (ih : ∀ t ∈ items, substituteBindings t (freshBindings names) = replaceAll t (freshBindings names) →
      Idle (clauseWrites t (freshBindings names)) → settled names t = true)
    (h : substituteEach items (freshBindings names) = replaceAllInList items false (freshBindings names))
    (hidle : Idle (clauseWritesOfEach items (freshBindings names))) : settledEach names items = true := by
  have hs := scalars_freshBindings names
  induction items with
  | nil => rfl
  | cons item rest ihes =>
    by_cases hcount : ellipsisCount rest = 0
    · rw [replaceAllInList.eq_def] at h
      simp only [Bool.false_and, Bool.false_eq_true, if_false, hcount] at h
      obtain ⟨hhead, hrest⟩ := List.cons.inj h
      rw [settledEach, ih item List.mem_cons_self hhead hidle.left, hcount,
        ihes (fun t ht => ih t (List.mem_cons_of_mem _ ht)) hrest hidle.right]
      rfl
    · -- an ellipsis after the item would be expanded
      rw [replaceAllInList_of_repeated hs rfl hcount] at h
      have hlt := length_replaceAllInList_lt hs hcount
      rw [← (List.cons.inj h).2, length_substituteEach] at hlt
      exact absurd hlt (Nat.lt_irrefl _)

/-- Where nothing was missed, the template is settled. -/
lemma settled_of_eq (h : substituteBindings ast (freshBindings names) = replaceAll ast (freshBindings names))
    (hidle : Idle (clauseWrites ast (freshBindings names))) : settled names ast = true := by
  induction ast with
  | blank => rfl
  | nullptr => rfl
  | constant text => rfl
  | var id => rfl
  | cons car cdr ihcar ihcdr =>
    rw [substituteBindings, replaceAll, Ast.cons.injEq] at h
    -- a null part is made a blank node
    have hpart (t : Ast) (ht : orBlank (substituteBindings t (freshBindings names)) =
        replaceAll t (freshBindings names)) : notNull t = true ∧
          substituteBindings t (freshBindings names) = replaceAll t (freshBindings names) := by
      by_cases hnull : t = .nullptr
      · subst hnull
        cases ht
      · rw [orBlank_of_ne (substitute_ne_nullptr (bindsForms_freshBindings names).forms hnull)] at ht
        refine ⟨?_, ht⟩
        cases t with
        | nullptr => exact absurd rfl hnull
        | _ => rfl
    obtain ⟨hcar, hcareq⟩ := hpart car h.1
    obtain ⟨hcdr, hcdreq⟩ := hpart cdr h.2
    rw [settled, hcar, hcdr, ihcar hcareq hidle.left, ihcdr hcdreq hidle.right]
    rfl
  | call op func vars ihfunc ihvars =>
    rw [substituteBindings, replaceAll, Ast.call.injEq] at h
    rw [settled, ihfunc h.2.1 hidle.left, settledInList_of_eq ihvars h.2.2 hidle.right]
    rfl
  | sequence op expressions ih =>
    rw [substituteBindings, replaceAll, Ast.sequence.injEq] at h
    rw [settled, settledInList_of_eq ih h.2 hidle]
  | define name value parameters restParam ihvalue ihparameters =>
    rw [substituteBindings, replaceAll, Ast.define.injEq] at h
    obtain ⟨hname, hvalue, hparameters, hrest⟩ := h
    rw [settled, renamed_freshBindings hname.symm, ihvalue hvalue hidle,
      untouchedInList_of_replaceAllInList (fun _ _ => untouched_of_replaceAll) hparameters.symm,
      all_of_map_renamed hrest.symm]
    rfl
  | lambda parameters restParam body ihparameters ihbody =>
    rw [substituteBindings, replaceAll, Ast.lambda.injEq] at h
    obtain ⟨hparameters, hrest, hbody⟩ := h
    rw [settled, untouchedInList_of_replaceAllInList (fun _ _ => untouched_of_replaceAll) hparameters.symm,
      all_of_map_renamed hrest.symm, ihbody hbody hidle]
    rfl
  | letForm op name items body ihitems ihbody =>
    rw [substituteBindings, replaceAll, Ast.letForm.injEq] at h
    obtain ⟨-, hname, hitems, hbody⟩ := h
    rw [settled, all_of_map_renamed hname.symm, settledEach_of_eq ihitems hitems hidle.left,
      ihbody hbody hidle.right]
    rfl
  | matchForm expr clauses ihexpr ihclauses =>
    rw [substituteBindings, replaceAll, Ast.matchForm.injEq] at h
    rw [settled, ihexpr h.1 hidle.left, settledEach_of_eq ihclauses h.2 hidle.right]
    rfl
  | clause pattern guard body ihpattern ihguard ihbody =>
    rw [substituteBindings, replaceAll, Ast.clause.injEq] at h
    obtain ⟨hpattern, hguard, hbody⟩ := h
    -- the body is written back as it was, so there was nothing to replace in it
    have hwrite : body = substituteBindings body (freshBindings names) :=
      hidle.right (body, _) (List.mem_singleton_self _)
    rw [settled, untouched_of_replaceAll hpattern.symm, untouched_of_replaceAll hguard.symm,
      untouched_of_replaceAll (hbody.symm.trans hwrite.symm), ihbody hbody hidle.left]
    rfl
  | setForm name value ih =>
    rw [substituteBindings, replaceAll, Ast.setForm.injEq] at h
    rw [settled, renamed_freshBindings h.1.symm, ih h.2 hidle]
    rfl
  | guardForm varName clauses body ihclauses ihbody =>
    rw [substituteBindings, replaceAll, Ast.guardForm.injEq] at h
    obtain ⟨hname, hclauses, hbody⟩ := h
    rw [settled, renamed_freshBindings hname.symm, settledEach_of_eq ihclauses hclauses hidle.left,
      settledInList_of_eq ihbody hbody hidle.right]
    rfl
  | unary op operand ih =>
    rw [substituteBindings, replaceAll, Ast.unary.injEq] at h
    rw [settled, ih h.2 hidle]
  | dynamicWind before thunk after ihbefore ihthunk ihafter =>
    rw [substituteBindings, replaceAll, Ast.dynamicWind.injEq] at h
    rw [settled, ihbefore h.1 hidle.left.left, ihthunk h.2.1 hidle.left.right, ihafter h.2.2 hidle.right]
    rfl
  | other kind fields parts ih =>
    have hother : Ast.other kind fields parts = replaceAll (.other kind fields parts) (freshBindings names) := h
    rw [replaceAll, Ast.other.injEq] at hother
    obtain ⟨-, hfields, hparts⟩ := hother
    rw [settled, all_of_map_renamed_list hfields.symm,
      untouchedInList_of_replaceAllInList (fun _ _ => untouched_of_replaceAll) hparts.symm]
    rfl

/-- A template is replaced in every position, whatever the names are bound to, exactly when it is settled. -/
theorem replaced_iff_settled (names : List String) (template : Ast) :
    (∀ bindings, BindsForms names bindings → Replaced template bindings) ↔ settled names template = true := by
  constructor
  · intro h
    obtain ⟨hresult, hwrites⟩ := h (freshBindings names) (bindsForms_freshBindings names)
    exact settled_of_eq hresult hwrites
  · intro h bindings hb
    exact ⟨substituteBindings_of_settled hb h, clauseWrites_of_settled hb h⟩

/-- The target of `(set! x 1)` is left when `x` stands for another variable. -/
theorem not_replaced_set : ¬ ∀ names template bindings, BindsForms names bindings → Replaced template bindings := by
  intro h
  have hreplaced := h ["x"] (.setForm "x" (.constant "1")) (freshBindings ["x"]) (bindsForms_freshBindings ["x"])
  have hname := (Ast.setForm.inj hreplaced.result).1
  exact absurd hname (by decide)

end Macro
