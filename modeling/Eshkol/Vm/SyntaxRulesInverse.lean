import Eshkol.Vm.SyntaxRulesTheorems
import Mathlib.Data.List.Nodup
import Mathlib.Data.List.Pairwise

/-!
# When a use form comes back

The table finds a variable under its own name unless the name is cut off, or another name that is cut off comes
first. A name that is cut off is never found. So the parts of a form come back exactly when they are kept, and the
nodes of the expander are those of the compiler when no number has lost its kind.
-/

namespace Vm.SyntaxRules

variable {D : Type} {literals : List String} {ps : List (Part D)} {name other : String} {form value : MacroNode D}
  {forms : List (MacroNode D)}

/-! ## Names in the table -/

lemma truncated_truncated (name : String) : truncated (truncated name) = truncated name := by
  simp [truncated, List.take_take]

lemma lookup_table (ps : List (Part D)) (name : String) :
    macroBindingsLookup (table ps) name = (holder ps name).map MacroBinding.captured := by
  rw [macroBindingsLookup, table, holder, List.find?_map, Option.map_map]
  rfl

lemma holder_spec {binding : MacroBinding D} (h : holder ps name = some binding) :
    binding ∈ ps.flatMap Part.bindings ∧ truncated binding.name = name := by
  refine ⟨List.mem_of_find?_eq_some h, ?_⟩
  have hfound := List.find?_some h
  exact beq_iff_eq.1 hfound

/-- A name that is cut off is not found. -/
lemma holder_eq_none (hlong : truncated name ≠ name) (ps : List (Part D)) : holder ps name = none := by
  rw [Option.eq_none_iff_forall_ne_some]
  intro binding h
  obtain ⟨-, rfl⟩ := holder_spec h
  exact hlong (truncated_truncated binding.name)

/-- A name that is found for another one is cut off. -/
lemma long_of_holder {captured : Captured D} (h : holder ps name = some ⟨other, captured⟩) (hne : other ≠ name) :
    truncated other ≠ other := by
  have hother : truncated other = name := (holder_spec h).2
  rw [hother]
  exact hne.symm

/-! ## The parts behind the bindings -/

lemma many_mem (h : (⟨name, .many forms⟩ : MacroBinding D) ∈ ps.flatMap Part.bindings) : Part.many name forms ∈ ps := by
  obtain ⟨part, hpart, hbinding⟩ := List.mem_flatMap.1 h
  cases part with
  | one => simp [Part.bindings] at hbinding
  | literal => cases hbinding
  | many other forms' =>
    obtain ⟨rfl, hforms⟩ := MacroBinding.mk.inj (List.mem_singleton.1 hbinding)
    rw [Captured.many.inj hforms]
    exact hpart
  | lists names forms' => simp [Part.bindings] at hbinding
  | number => cases hbinding

/-- A single binding comes from a variable that is not repeated, as lists are not repeated. -/
lemma one_mem (hlists : ∀ names forms, Part.lists names forms ∈ ps → forms = [])
    (h : (⟨name, .single value⟩ : MacroBinding D) ∈ ps.flatMap Part.bindings) : Part.one name value ∈ ps := by
  obtain ⟨part, hpart, hbinding⟩ := List.mem_flatMap.1 h
  cases part with
  | one other form =>
    obtain ⟨rfl, hform⟩ := MacroBinding.mk.inj (List.mem_singleton.1 hbinding)
    rw [Captured.single.inj hform]
    exact hpart
  | literal => cases hbinding
  | many other forms' => simp [Part.bindings] at hbinding
  | lists names forms' =>
    rw [hlists names forms' hpart] at hbinding
    cases hbinding
  | number => cases hbinding

/-- Two parts do not bind the same name. -/
lemma part_unique (hnodup : (ps.flatMap Part.names).Nodup) {part part' : Part D} (hpart : part ∈ ps)
    (hpart' : part' ∈ ps) (hname : name ∈ part.names) (hname' : name ∈ part'.names) : part = part' := by
  by_contra hne
  have hdisjoint := (List.nodup_flatMap.1 hnodup).2
  have hsymm : Std.Symm (Function.onFun List.Disjoint (Part.names (D := D))) := ⟨fun _ _ h _ ha hb => h hb ha⟩
  exact hdisjoint.forall hpart hpart' hne hname hname'

/-! ## Symbols and repetitions -/

lemma instantiate_symbol (ps : List (Part D)) (name : String) :
    vmMacroInstantiate (.symbol name) (table ps) =
      match holder ps name with
      | some ⟨_, .single value⟩ => value
      | _ => .symbol name := by
  rw [vmMacroInstantiate, lookup_table]
  rcases holder ps name with _ | ⟨other, value | forms⟩
  · rfl
  · exact macroNodeDeepCopy_eq value
  · rfl

lemma expandSymbol_table (ps : List (Part D)) (name : String) :
    expandSymbol name (table ps) =
      match holder ps name with
      | some ⟨_, .many forms⟩ => forms
      | _ => [] := by
  rw [expandSymbol, lookup_table]
  rcases holder ps name with _ | ⟨other, value | forms⟩ <;> rfl

lemma findEllipsisBinding_spec {names : List String} {bindings : List (MacroBinding D)}
    (h : findEllipsisBinding (names.map .symbol) bindings = some (name, forms)) :
    name ∈ names ∧ macroBindingsLookup bindings name = some (.many forms) := by
  obtain ⟨child, hchild, hfound⟩ := List.exists_of_findSome?_eq_some h
  obtain ⟨symbol, hsymbol, rfl⟩ := List.mem_map.1 hchild
  simp only at hfound
  split at hfound
  · rename_i list hlookup
    obtain ⟨rfl, rfl⟩ := Prod.mk.inj (Option.some.inj hfound)
    exact ⟨hsymbol, hlookup⟩
  · cases hfound

/-- A repeated list of variables is not expanded: none of them is bound by an ellipsis, and a longer name that is
found for one is not repeated. -/
lemma expandList_table (hnodup : (ps.flatMap Part.names).Nodup)
    (hmany : ∀ name forms, Part.many name forms ∈ ps → truncated name ≠ name → forms = [])
    {names : List String} (hpart : Part.lists names forms ∈ ps) : expandList (names.map .symbol) (table ps) = [] := by
  unfold expandList
  cases hfind : findEllipsisBinding (names.map MacroNode.symbol) (table ps) with
  | none => rfl
  | some found =>
    obtain ⟨name, list⟩ := found
    obtain ⟨hname, hlookup⟩ := findEllipsisBinding_spec hfind
    rw [lookup_table] at hlookup
    obtain ⟨⟨other, captured⟩, hholder, rfl⟩ := Option.map_eq_some_iff.1 hlookup
    have hother := many_mem (holder_spec hholder).1
    by_cases hne : other = name
    · subst hne
      have hsame := part_unique hnodup hother hpart (List.mem_singleton_self other) hname
      cases hsame
    · rw [hmany other list hother (long_of_holder hholder hne)]
      rfl

/-! ## Parts that are given back -/

lemma stands_of_met (hlists : ∀ names forms, Part.lists names forms ∈ ps → forms = [])
    (hmet : ∀ part ∈ ps, part.Met (table ps)) (h : vmMacroInstantiate (.symbol name) (table ps) = form) :
    Stands ps name form := by
  rw [instantiate_symbol] at h
  unfold Stands
  cases hholder : holder ps name with
  | none =>
    rw [hholder] at h
    exact h.symm
  | some binding =>
    obtain ⟨other, value | list⟩ := binding
    · rw [hholder] at h
      by_cases hne : other = name
      · exact .inl hne
      · -- the longer name is not found itself, so it stands for its own symbol
        have hother := hmet _ (one_mem hlists (holder_spec hholder).1)
        have hnone := holder_eq_none (long_of_holder hholder hne) ps
        rw [Part.Met, instantiate_symbol, hnone] at hother
        exact .inr (h.symm.trans hother.symm)
    · rw [hholder] at h
      exact h.symm

lemma met_of_stands (hlists : ∀ names forms, Part.lists names forms ∈ ps → forms = [])
    (hkept : ∀ part ∈ ps, part.Kept ps) (hself : ∀ value, Part.one name value ∈ ps → value = form)
    (h : Stands ps name form) : vmMacroInstantiate (.symbol name) (table ps) = form := by
  rw [instantiate_symbol]
  unfold Stands at h
  cases hholder : holder ps name with
  | none =>
    rw [hholder] at h
    exact h.symm
  | some binding =>
    obtain ⟨other, value | list⟩ := binding
    · rw [hholder] at h
      have hone := one_mem hlists (holder_spec hholder).1
      by_cases hne : other = name
      · subst hne
        exact hself value hone
      · have hother : Stands ps other value := hkept _ hone
        rw [Stands, holder_eq_none (long_of_holder hholder hne) ps] at hother
        exact hother.trans (h.resolve_left hne).symm
    · rw [hholder] at h
      exact h.symm

/-- The table gives all parts back exactly when they are kept. -/
lemma met_iff_kept (hnodup : (ps.flatMap Part.names).Nodup)
    (hliteral : ∀ name, Part.literal name ∈ ps → name ∉ ps.flatMap Part.names) :
    (∀ part ∈ ps, part.Met (table ps)) ↔ ∀ part ∈ ps, part.Kept ps := by
  constructor
  · intro hmet
    have hmany (name : String) (forms : List (MacroNode D)) (hpart : Part.many name forms ∈ ps)
        (hlong : truncated name ≠ name) : forms = [] := by
      have hexpand := hmet _ hpart
      rw [Part.Met, expandSymbol_table, holder_eq_none hlong ps] at hexpand
      exact hexpand.symm
    have hlists (names : List String) (forms : List (MacroNode D)) (hpart : Part.lists names forms ∈ ps) :
        forms = [] := by
      have hexpand := hmet _ hpart
      rw [Part.Met, expandList_table hnodup hmany hpart] at hexpand
      exact hexpand.symm
    intro part hpart
    cases part with
    | one name form => exact stands_of_met hlists hmet (hmet _ hpart)
    | literal name => exact stands_of_met hlists hmet (hmet _ hpart)
    | many name forms =>
      have hexpand := hmet _ hpart
      rw [Part.Met, expandSymbol_table] at hexpand
      cases hholder : holder ps name with
      | none =>
        rw [hholder] at hexpand
        exact .inl hexpand.symm
      | some binding =>
        obtain ⟨other, value | list⟩ := binding
        · rw [hholder] at hexpand
          exact .inl hexpand.symm
        · rw [hholder] at hexpand
          by_cases hne : other = name
          · rw [Part.Kept, hholder, hne]
            exact .inr rfl
          · have hlist := hmany other list (many_mem (holder_spec hholder).1) (long_of_holder hholder hne)
            exact .inl (hexpand.symm.trans hlist)
    | lists names forms => exact hlists names forms hpart
    | number numval other => exact hmet _ hpart
  · intro hkept
    have hmany (name : String) (forms : List (MacroNode D)) (hpart : Part.many name forms ∈ ps)
        (hlong : truncated name ≠ name) : forms = [] := by
      have hforms : forms = [] ∨ (holder ps name).map MacroBinding.name = some name := hkept _ hpart
      rw [holder_eq_none hlong ps] at hforms
      exact hforms.resolve_right (by simp)
    have hlists (names : List String) (forms : List (MacroNode D)) (hpart : Part.lists names forms ∈ ps) :
        forms = [] := hkept _ hpart
    intro part hpart
    cases part with
    | one name form =>
      apply met_of_stands hlists hkept ?_ (hkept _ hpart)
      intro value hvalue
      have hsame := part_unique hnodup hvalue hpart (List.mem_singleton_self name) (List.mem_singleton_self name)
      exact (Part.one.inj hsame).2
    | literal name =>
      apply met_of_stands hlists hkept ?_ (hkept _ hpart)
      intro value hvalue
      exact absurd (List.mem_flatMap.2 ⟨_, hvalue, List.mem_singleton_self name⟩) (hliteral name hpart)
    | many name forms =>
      rw [Part.Met, expandSymbol_table]
      have hforms : forms = [] ∨ (holder ps name).map MacroBinding.name = some name := hkept _ hpart
      cases hholder : holder ps name with
      | none =>
        rw [hholder] at hforms
        exact (hforms.resolve_right (by simp)).symm
      | some binding =>
        obtain ⟨other, captured⟩ := binding
        by_cases hne : other = name
        · -- under its own name a repeated variable has all that it stands for
          subst hne
          cases captured with
          | single value =>
            have hsame := part_unique hnodup (one_mem hlists (holder_spec hholder).1) hpart
              (List.mem_singleton_self other) (List.mem_singleton_self other)
            cases hsame
          | many list =>
            have hsame := part_unique hnodup (many_mem (holder_spec hholder).1) hpart
              (List.mem_singleton_self other) (List.mem_singleton_self other)
            exact (Part.many.inj hsame).2
        · rw [hholder] at hforms
          have hnil : forms = [] := hforms.resolve_right (by simpa using hne)
          cases captured with
          | single value => exact hnil.symm
          | many list =>
            rw [hnil]
            exact hmany other list (many_mem (holder_spec hholder).1) (long_of_holder hholder hne)
    | lists names forms =>
      rw [Part.Met, expandList_table hnodup hmany hpart, hlists names forms hpart]
    | number numval other => exact hkept _ hpart

/-! ## Literals and variables -/

mutual

theorem isVariable_of_literal_mem :
    ∀ pattern form : MacroNode D, Part.literal name ∈ parts literals pattern form → isVariable literals name = false
  | .symbol symbol, form => by
    intro h
    unfold parts at h
    split_ifs at h with hvariable
    · cases List.mem_singleton.1 h
    · obtain rfl := Part.literal.inj (List.mem_singleton.1 h)
      simpa using hvariable
  | .number _, form => by cases form <;> simp [parts]
  | .list children, form => by
    cases form with
    | list forms =>
      rw [parts]
      exact isVariable_of_literal_mem_list children forms
    | _ => simp [parts]
  | .string _, form => by cases form <;> simp [parts]
  | .bool _, form => by cases form <;> simp [parts]

theorem isVariable_of_literal_mem_list : ∀ children forms : List (MacroNode D),
    Part.literal name ∈ partsOfList literals children forms → isVariable literals name = false
  | [], forms => by simp [partsOfList]
  | [child], forms => by
    cases forms with
    | nil => simp [partsOfList]
    | cons form forms =>
      rw [partsOfList]
      exact isVariable_of_literal_mem child form
  | child :: next :: rest, forms => by
    intro h
    rw [partsOfList.eq_def] at h
    simp only at h
    split_ifs at h with hellipsis
    · rcases List.mem_append.1 h with h | h
      · exact isVariable_of_literal_mem_list rest _ h
      · cases child <;> simp [repeatedParts] at h
    · cases forms with
      | nil => cases h
      | cons form forms =>
        rcases List.mem_append.1 h with h | h
        · exact isVariable_of_literal_mem child form h
        · exact isVariable_of_literal_mem_list (next :: rest) forms h

end

mutual

theorem isVariable_of_mem : ∀ pattern : MacroNode D, name ∈ patternVariables literals pattern →
    isVariable literals name = true
  | .symbol symbol => by
    intro h
    unfold patternVariables at h
    split_ifs at h with hvariable
    · rw [List.mem_singleton.1 h]
      exact (Bool.and_eq_true_iff.1 hvariable).1
    · cases h
  | .list children => by
    rw [patternVariables]
    exact isVariable_of_mem_list children
  | .number _ => by simp [patternVariables]
  | .string _ => by simp [patternVariables]
  | .bool _ => by simp [patternVariables]

theorem isVariable_of_mem_list : ∀ children : List (MacroNode D), name ∈ patternVariablesInList literals children →
    isVariable literals name = true
  | [] => by simp [patternVariablesInList]
  | child :: rest => by
    intro h
    rw [patternVariablesInList] at h
    rcases List.mem_append.1 h with h | h
    · exact isVariable_of_mem child h
    · exact isVariable_of_mem_list rest h

end

/-- After a match the instance of the pattern is the use form exactly when every part is kept and every number has
the kind of its copy. -/
theorem instantiate_eq_iff_kept [BEq D] {pattern : MacroNode D} (hp : Linear literals pattern) {form : Node D}
    {bindings : List (MacroBinding D)} (h : vmMacroMatch literals pattern form.header [] = some bindings)
    (beyond : List ℕ → Literal) : (vmMacroInstantiate pattern bindings).asNode beyond = form ↔
      form.LiteralsCopied beyond ∧ Kept literals pattern form.header := by
  have explained := match_explained hp.wellFormed h
  have hbindings : bindings = table (parts literals pattern form.header) := explained.bindings
  have hnodup : ((parts literals pattern form.header).flatMap Part.names).Nodup :=
    explained.names.nodup_iff.2 hp.nodup
  have hliteral (name : String) (hpart : Part.literal name ∈ parts literals pattern form.header) :
      name ∉ (parts literals pattern form.header).flatMap Part.names := by
    intro hmem
    have hvariable := isVariable_of_mem pattern (explained.names.mem_iff.1 hmem)
    rw [isVariable_of_literal_mem pattern _ hpart] at hvariable
    cases hvariable
  rw [asNode_eq_iff, explained.returned bindings, hbindings, met_iff_kept hnodup hliteral]
  rfl

/-- `(m x y ...)` with `m` a literal, and `(m a 1 2)`, behind whose copies different bytes lie. -/
theorem instantiate_eq_iff_kept_repeated :
    let pattern : MacroNode ℕ := .list [.symbol "m", .symbol "x", .symbol "y", .symbol "..."]
    let form : Node ℕ :=
      .list [.symbol "m", .symbol "a", .number 1 ⟨false, false, true, 1⟩, .number 2 ⟨false, false, true, 2⟩]
    let bindings : List (MacroBinding ℕ) := [⟨"x", .single (.symbol "a")⟩, ⟨"y", .many [.number 1, .number 2]⟩]
    let beyond : List ℕ → Literal := fun path => ⟨false, false, true, if path = [2] then 1 else 2⟩
    (vmMacroInstantiate pattern bindings).asNode beyond = form ↔
      form.LiteralsCopied beyond ∧ Kept ["m"] pattern form.header := by
  intro pattern form bindings beyond
  have hsymbol (name : String) (h : name ≠ "_" ∧ name ≠ "...") : WellFormed ["m"] (.symbol name : MacroNode ℕ) :=
    .symbol name h.1 h.2
  have hlinear : Linear ["m"] pattern := by
    refine ⟨?_, by decide⟩
    refine WellFormed.repeated [.symbol "m", .symbol "x"] [] (.symbol "y") ?_ ?_ (.symbol "y" (by decide) (by decide))
    · rw [List.forall_mem_cons, List.forall_mem_singleton]
      exact ⟨hsymbol "m" (by decide), hsymbol "x" (by decide)⟩
    · exact fun p hp => absurd hp List.not_mem_nil
  have hmatch : vmMacroMatch ["m"] pattern form.header [] = some bindings := by rfl
  exact instantiate_eq_iff_kept hlinear hmatch beyond

/-- The character `#\a` comes back as the number 97. -/
theorem instantiate_ne_form : ¬ ∀ (literals : List String) (pattern : MacroNode ℕ), Linear literals pattern →
    ∀ (form : Node ℕ) bindings, vmMacroMatch literals pattern form.header [] = some bindings →
      ∀ beyond, (vmMacroInstantiate pattern bindings).asNode beyond = form := by
  intro h
  have hlinear : Linear ["m"] (.list [.symbol "m", .symbol "x"] : MacroNode ℕ) := by
    refine ⟨.list _ ?_, by decide⟩
    rw [List.forall_mem_cons, List.forall_mem_singleton]
    exact ⟨.symbol "m" (by decide) (by decide), .symbol "x" (by decide) (by decide)⟩
  have hform := h ["m"] _ hlinear (.list [.symbol "m", .number 97 ⟨true, false, false, 0⟩])
    [⟨"x", .single (.number 97)⟩] rfl fun _ => ⟨false, false, false, 0⟩
  have hchildren := Node.list.inj hform
  obtain ⟨-, hliteral⟩ := Node.number.inj (List.cons.inj (List.cons.inj hchildren).2).1
  exact absurd hliteral (by decide)

end Vm.SyntaxRules
