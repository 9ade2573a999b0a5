import Eshkol.Vm.SyntaxRules
import Mathlib.Data.List.Perm.Basic

/-!
# What a match binds and what its instance is

A match leaves in the table, in the order of the parts, what the form holds for the variables. The instance of the
pattern under any bindings is the form exactly when the bindings give every part back.
-/

namespace Vm.SyntaxRules

variable {D : Type} {literals : List String} {pattern form element : MacroNode D}
  {patterns forms inputs before after items : List (MacroNode D)} {bindings bindings₀ : List (MacroBinding D)}

/-! ## Copies -/

mutual

theorem macroNodeDeepCopy_eq : ∀ node : MacroNode D, macroNodeDeepCopy node = node
  | .number _ => rfl
  | .symbol _ => rfl
  | .list children => congrArg MacroNode.list (copyChildren_eq children)
  | .string _ => rfl
  | .bool _ => rfl

theorem copyChildren_eq : ∀ nodes : List (MacroNode D), copyChildren nodes = nodes
  | [] => rfl
  | node :: rest => by rw [copyChildren, macroNodeDeepCopy_eq node, copyChildren_eq rest]

end

mutual

theorem header_asNode (beyond : List ℕ → Literal) : ∀ node : MacroNode D, (node.asNode beyond).header = node
  | .number _ => rfl
  | .symbol _ => rfl
  | .list children => congrArg MacroNode.list (headers_asNodes beyond 0 children)
  | .string _ => rfl
  | .bool _ => rfl

theorem headers_asNodes (beyond : List ℕ → Literal) (i : ℕ) :
    ∀ nodes : List (MacroNode D), headers (asNodes beyond i nodes) = nodes
  | [] => rfl
  | node :: rest => by rw [asNodes, headers, header_asNode _ node, headers_asNodes beyond _ rest]

end

mutual

theorem asNode_header_iff (beyond : List ℕ → Literal) :
    ∀ node : Node D, node.header.asNode beyond = node ↔ node.LiteralsCopied beyond
  | .number numval literal => by
    rw [Node.header, MacroNode.asNode, Node.LiteralsCopied, Node.number.injEq]
    exact ⟨fun h => h.2.symm, fun h => ⟨rfl, h.symm⟩⟩
  | .symbol _ => ⟨fun _ => trivial, fun _ => rfl⟩
  | .list children => by
    rw [Node.header, MacroNode.asNode, Node.LiteralsCopied, Node.list.injEq]
    exact asNodes_headers_iff beyond 0 children
  | .string _ => ⟨fun _ => trivial, fun _ => rfl⟩
  | .bool _ => ⟨fun _ => trivial, fun _ => rfl⟩

theorem asNodes_headers_iff (beyond : List ℕ → Literal) (i : ℕ) :
    ∀ nodes : List (Node D), asNodes beyond i (headers nodes) = nodes ↔ LiteralsCopiedInList beyond i nodes
  | [] => ⟨fun _ => trivial, fun _ => rfl⟩
  | node :: rest => by
    rw [headers, asNodes, LiteralsCopiedInList, List.cons.injEq, asNode_header_iff _ node,
      asNodes_headers_iff beyond _ rest]

end

/-- A node that the expander allocated is one of the compiler's when the part that it knows is the same, and the
numbers have the kinds of their copies. -/
lemma asNode_eq_iff (beyond : List ℕ → Literal) (node : MacroNode D) (form : Node D) :
    node.asNode beyond = form ↔ form.LiteralsCopied beyond ∧ node = form.header := by
  constructor
  · rintro rfl
    rw [← asNode_header_iff, header_asNode]
    exact ⟨rfl, rfl⟩
  · rintro ⟨hcopied, rfl⟩
    exact (asNode_header_iff beyond form).2 hcopied

/-! ## The place of the ellipsis -/

lemma WellFormed.isEllipsis (h : WellFormed literals pattern) : isEllipsis pattern = false := by
  cases h with
  | symbol name _ hdots => simpa [SyntaxRules.isEllipsis] using hdots
  | _ => rfl

lemma Repeatable.isEllipsis (h : Repeatable literals element) : isEllipsis element = false := by
  cases h with
  | symbol name _ hdots => simpa [SyntaxRules.isEllipsis] using hdots
  | list names _ => rfl

lemma findIdx_none (hno : ∀ p ∈ patterns, isEllipsis p = false) : patterns.findIdx? isEllipsis = none :=
  List.findIdx?_eq_none_iff.2 hno

lemma findIdx_repeated (hbefore : ∀ p ∈ before, isEllipsis p = false) (helement : isEllipsis element = false)
    (after : List (MacroNode D)) :
    (before ++ element :: .symbol "..." :: after).findIdx? isEllipsis = some (before.length + 1) := by
  have hdots : isEllipsis (.symbol "..." : MacroNode D) = true := rfl
  rw [List.findIdx?_append, findIdx_none hbefore, List.findIdx?_cons, helement, List.findIdx?_cons, hdots]
  simp [Nat.add_comm]

/-! ## The instance of a list -/

/-- What a repeated variable is expanded to. -/
def expandSymbol (name : String) (bindings : List (MacroBinding D)) : List (MacroNode D) :=
  match macroBindingsLookup bindings name with
  | some (.many list) => list
  | _ => []

/-- What a repeated list is expanded to. -/
def expandList (children : List (MacroNode D)) (bindings : List (MacroBinding D)) : List (MacroNode D) :=
  match findEllipsisBinding children bindings with
  | some (name, list) =>
    list.map fun value => vmMacroInstantiate (.list children) (replaceBinding bindings name value)
  | none => []

/-- What the pattern before an ellipsis is expanded to. -/
def expandRepeated (element : MacroNode D) (bindings : List (MacroBinding D)) : List (MacroNode D) :=
  match element with
  | .symbol name => expandSymbol name bindings
  | .list children => expandList children bindings
  | _ => []

lemma instantiateChildren_repeated (element : MacroNode D) (after : List (MacroNode D))
    (bindings : List (MacroBinding D)) :
    instantiateChildren (element :: .symbol "..." :: after) bindings =
      expandRepeated element bindings ++ instantiateChildren after bindings := by
  have hdots : isEllipsis (.symbol "..." : MacroNode D) = true := rfl
  rw [instantiateChildren.eq_def]
  simp only [hdots, if_true]
  congr 1
  cases element with
  | symbol name =>
    show _ = expandSymbol name bindings
    unfold expandSymbol
    simp only
    rcases macroBindingsLookup bindings name with _ | (value | list)
    · rfl
    · rfl
    · exact (congrArg (fun f => list.map f) (funext macroNodeDeepCopy_eq)).trans (List.map_id' list)
  | list children => rfl
  | _ => rfl

lemma instantiateChildren_cons (child : MacroNode D) {rest : List (MacroNode D)}
    (hrest : (rest.head?.any isEllipsis) = false) (bindings : List (MacroBinding D)) :
    instantiateChildren (child :: rest) bindings =
      vmMacroInstantiate child bindings :: instantiateChildren rest bindings := by
  cases rest with
  | nil => rw [instantiateChildren, instantiateChildren]
  | cons next rest =>
    have hnext : isEllipsis next = false := hrest
    rw [instantiateChildren.eq_def]
    simp only [hnext, Bool.false_eq_true, if_false]

lemma instantiateChildren_append (hbefore : ∀ p ∈ before, isEllipsis p = false) (rest : List (MacroNode D))
    (hrest : (rest.head?.any isEllipsis) = false) (bindings : List (MacroBinding D)) :
    instantiateChildren (before ++ rest) bindings =
      before.map (fun p => vmMacroInstantiate p bindings) ++ instantiateChildren rest bindings := by
  induction before with
  | nil => rfl
  | cons pattern before ih =>
    rw [List.forall_mem_cons] at hbefore
    have hhead : (before ++ rest).head?.any isEllipsis = false := by
      cases before with
      | nil => exact hrest
      | cons next before => exact hbefore.2 next List.mem_cons_self
    rw [List.cons_append, instantiateChildren_cons pattern hhead, ih hbefore.2]
    rfl

lemma instantiateChildren_eq_map (hno : ∀ p ∈ patterns, isEllipsis p = false) (bindings : List (MacroBinding D)) :
    instantiateChildren patterns bindings = patterns.map fun p => vmMacroInstantiate p bindings := by
  have happend := instantiateChildren_append hno [] rfl bindings
  rw [List.append_nil] at happend
  rw [happend, instantiateChildren, List.append_nil]

/-! ## The parts of a list -/

/-- The parts of elements at the same places. -/
def partsEach (literals : List String) : List (MacroNode D) → List (MacroNode D) → List (Part D)
  | pattern :: patterns, form :: forms => parts literals pattern form ++ partsEach literals patterns forms
  | _, _ => []

lemma partsOfList_cons (pattern form : MacroNode D) {rest : List (MacroNode D)}
    (hrest : (rest.head?.any isEllipsis) = false) (forms : List (MacroNode D)) :
    partsOfList literals (pattern :: rest) (form :: forms) =
      parts literals pattern form ++ partsOfList literals rest forms := by
  cases rest with
  | nil =>
    rw [partsOfList, partsOfList.eq_def]
    simp
  | cons next rest =>
    have hnext : isEllipsis next = false := hrest
    rw [partsOfList.eq_def]
    simp only [hnext, Bool.false_eq_true, if_false]

lemma partsOfList_append (literals : List String) (hbefore : ∀ p ∈ before, isEllipsis p = false)
    (rest : List (MacroNode D))
    (hrest : (rest.head?.any isEllipsis) = false) {first : List (MacroNode D)}
    (hlength : first.length = before.length) (forms : List (MacroNode D)) :
    partsOfList literals (before ++ rest) (first ++ forms) =
      partsEach literals before first ++ partsOfList literals rest forms := by
  induction before generalizing first with
  | nil =>
    obtain rfl := List.length_eq_zero_iff.1 hlength
    rfl
  | cons pattern before ih =>
    rw [List.forall_mem_cons] at hbefore
    cases first with
    | nil => cases hlength
    | cons form first =>
      have hhead : (before ++ rest).head?.any isEllipsis = false := by
        cases before with
        | nil => exact hrest
        | cons next before => exact hbefore.2 next List.mem_cons_self
      rw [List.cons_append, List.cons_append, partsOfList_cons pattern form hhead, ih hbefore.2 (Nat.succ.inj hlength),
        partsEach, List.append_assoc]

lemma partsOfList_each (hno : ∀ p ∈ patterns, isEllipsis p = false) (hlength : forms.length = patterns.length) :
    partsOfList literals patterns forms = partsEach literals patterns forms := by
  have happend := partsOfList_append literals hno [] rfl hlength []
  have hnil : partsOfList literals ([] : List (MacroNode D)) [] = [] := by simp [partsOfList]
  rw [List.append_nil, List.append_nil, hnil, List.append_nil] at happend
  exact happend

lemma partsOfList_repeated (hbefore : ∀ p ∈ before, isEllipsis p = false)
    (helement : isEllipsis element = false) (hafter : ∀ p ∈ after, isEllipsis p = false)
    {first items last : List (MacroNode D)} (hfirst : first.length = before.length)
    (hlast : last.length = after.length) :
    partsOfList literals (before ++ element :: .symbol "..." :: after) (first ++ (items ++ last)) =
      partsEach literals before first ++ (partsEach literals after last ++ repeatedParts element items) := by
  have hdots : isEllipsis (.symbol "..." : MacroNode D) = true := rfl
  have hcount : (items ++ last).length - after.length = items.length := by
    rw [List.length_append]
    omega
  rw [partsOfList_append literals hbefore (element :: .symbol "..." :: after) helement hfirst, partsOfList.eq_def]
  simp only [hdots, if_true, hcount, List.drop_left, List.take_left]
  rw [partsOfList_each hafter hlast]

lemma repeatedParts_list (names : List String) (forms : List (MacroNode D)) :
    repeatedParts (.list (names.map .symbol)) forms = [.lists names forms] := by
  rw [repeatedParts, List.filterMap_map]
  exact congrArg (fun names => [Part.lists names forms]) List.filterMap_some

lemma patternVariables_repeated (literals : List String) (before after : List (MacroNode D))
    (element : MacroNode D) : patternVariablesInList literals (before ++ element :: .symbol "..." :: after) =
      patternVariablesInList literals before ++
        (patternVariables literals element ++ patternVariablesInList literals after) := by
  have hdots : patternVariables literals (.symbol "..." : MacroNode D) = [] := by
    rw [patternVariables]
    simp
  induction before with
  | nil =>
    show patternVariables literals element ++
      (patternVariables literals (.symbol "...") ++ patternVariablesInList literals after) = _
    rw [hdots]
    rfl
  | cons p before ih => rw [List.cons_append, patternVariablesInList, ih, patternVariablesInList, List.append_assoc]

/-! ## What a match leaves in the table -/

/-- A binding as the table holds it. -/
def truncate (binding : MacroBinding D) : MacroBinding D := ⟨truncated binding.name, binding.captured⟩

/-- The bindings of some parts as the table holds them. -/
def table (ps : List (Part D)) : List (MacroBinding D) := (ps.flatMap Part.bindings).map truncate

lemma table_append (ps qs : List (Part D)) : table (ps ++ qs) = table ps ++ table qs := by
  rw [table, List.flatMap_append, List.map_append]
  rfl

/-- The names that a part binds. -/
def Part.names : Part D → List String
  | .one name _ => [name]
  | .literal _ => []
  | .many name _ => [name]
  | .lists names _ => names
  | .number _ _ => []

/-- The bindings give a part back. -/
def Part.Met (bindings : List (MacroBinding D)) : Part D → Prop
  | .one name form => vmMacroInstantiate (.symbol name) bindings = form
  | .literal name => vmMacroInstantiate (.symbol name) bindings = .symbol name
  | .many name forms => expandSymbol name bindings = forms
  | .lists names forms => expandList (names.map .symbol) bindings = forms
  | .number numval other => numval = other

/-- What is known of patterns and the forms that they match: the bindings that are added, when the instance is the
form, and the variables. -/
structure Explained (ps : List (Part D)) (bindings₀ bindings : List (MacroBinding D))
    (Returned : List (MacroBinding D) → Prop) (bound : List String) : Prop where
  bindings : bindings = bindings₀ ++ table ps
  returned : ∀ table, Returned table ↔ ∀ part ∈ ps, part.Met table
  names : (ps.flatMap Part.names).Perm bound

/-! ## The loops of a match -/

variable [BEq D]

/-- The patterns are matched with the elements at the same places. -/
@[grind =]
def matchEach (literals : List String) : List (MacroNode D) → List (MacroNode D) → List (MacroBinding D) →
    Option (List (MacroBinding D))
  | [], _, bindings => some bindings
  | pattern :: rest, input :: inputs, bindings =>
    (vmMacroMatch literals pattern input bindings).bind (matchEach literals rest inputs)
  | _ :: _, [], _ => none

lemma matchRange_zero (literals : List String) (patterns rest inputs : List (MacroNode D))
    (bindings : List (MacroBinding D)) :
    matchRange literals (patterns ++ rest) 0 patterns.length inputs bindings =
      matchEach literals patterns inputs bindings := by
  induction patterns generalizing inputs bindings with
  | nil => rw [List.length_nil, matchRange.eq_def, matchEach]
  | cons pattern patterns ih =>
    cases inputs with
    | nil => simp [matchRange, matchEach]
    | cons input inputs =>
      rw [List.cons_append, List.length_cons, matchRange, matchEach]
      exact congrArg _ (funext fun bindings => ih inputs bindings)

lemma matchRange_skip (before rest : List (MacroNode D)) (count : ℕ) (inputs : List (MacroNode D))
    (bindings : List (MacroBinding D)) : matchRange literals (before ++ rest) before.length count inputs bindings =
      matchRange literals rest 0 count inputs bindings := by
  induction before with
  | nil => rfl
  | cons pattern before ih =>
    cases count with
    | zero => simp only [matchRange]
    | succ count =>
      rw [List.cons_append, List.length_cons, matchRange]
      exact ih

lemma matchRepeated_skip (before rest items : List (MacroNode D)) (bindings : List (MacroBinding D)) :
    matchRepeated literals (before ++ rest) before.length items bindings =
      matchRepeated literals rest 0 items bindings := by
  induction before with
  | nil => rfl
  | cons pattern before ih =>
    rw [List.cons_append, List.length_cons, matchRepeated]
    exact ih

lemma matchEach_append (patterns inputs more : List (MacroNode D)) (h : inputs.length = patterns.length)
    (bindings : List (MacroBinding D)) :
    matchEach literals patterns (inputs ++ more) bindings = matchEach literals patterns inputs bindings := by
  induction patterns generalizing inputs bindings with
  | nil =>
    rw [matchEach.eq_def, matchEach.eq_def]
  | cons pattern patterns ih =>
    cases inputs with
    | nil => cases h
    | cons input inputs =>
      rw [List.cons_append, matchEach, matchEach]
      exact congrArg _ (funext fun bindings => ih inputs (Nat.succ.inj h) bindings)

/-- A list without an ellipsis matches a list of the same length, element by element. -/
lemma match_list (hno : ∀ p ∈ patterns, isEllipsis p = false)
    (h : vmMacroMatch literals (.list patterns) form bindings₀ = some bindings) :
    ∃ inputs, form = .list inputs ∧ inputs.length = patterns.length ∧
      matchEach literals patterns inputs bindings₀ = some bindings := by
  cases form with
  | list inputs =>
    rw [vmMacroMatch, findIdx_none hno] at h
    simp only at h
    split_ifs at h with hlength
    refine ⟨inputs, rfl, hlength.symm, ?_⟩
    have hrange := matchRange_zero literals patterns [] inputs bindings₀
    rw [List.append_nil] at hrange
    rw [← hrange, h]
  | _ => simp [vmMacroMatch] at h

/-- A list with an ellipsis: the elements before and after it are matched first, then those in between. -/
lemma match_repeated (hbefore : ∀ p ∈ before, isEllipsis p = false) (helement : isEllipsis element = false)
    (h : vmMacroMatch literals (.list (before ++ element :: .symbol "..." :: after)) form bindings₀ =
      some bindings) :
    ∃ first items last bindings₁ bindings₂, form = .list (first ++ (items ++ last)) ∧ first.length = before.length ∧
      last.length = after.length ∧ matchEach literals before first bindings₀ = some bindings₁ ∧
      matchEach literals after last bindings₁ = some bindings₂ ∧
      matchRepeated literals (element :: .symbol "..." :: after) 0 items bindings₂ = some bindings := by
  cases form with
  | list inputs =>
    have hsuffix : (before ++ element :: .symbol "..." :: after).length - (before.length + 1) - 1 = after.length := by
      simp only [List.length_append, List.length_cons]
      omega
    rw [vmMacroMatch, findIdx_repeated hbefore helement after] at h
    simp only [hsuffix] at h
    split_ifs at h with hlength
    obtain ⟨bindings₁, hfirst, h⟩ := Option.bind_eq_some_iff.1 h
    obtain ⟨bindings₂, hlast, h⟩ := Option.bind_eq_some_iff.1 h
    -- the elements of the form, in three pieces
    have hpieces : inputs = inputs.take before.length ++
        ((inputs.drop before.length).take (inputs.length - (before.length + after.length)) ++
          inputs.drop (inputs.length - after.length)) := by
      have hdrop : inputs.drop (inputs.length - after.length) =
          (inputs.drop before.length).drop (inputs.length - (before.length + after.length)) := by
        rw [List.drop_drop]
        congr 1
        omega
      rw [hdrop, List.take_append_drop, List.take_append_drop]
    have hfirstLength : (inputs.take before.length).length = before.length := by
      rw [List.length_take]
      omega
    refine ⟨_, _, _, bindings₁, bindings₂, congrArg MacroNode.list hpieces, hfirstLength, ?_, ?_, ?_, ?_⟩
    · rw [List.length_drop]
      omega
    · rw [matchRange_zero] at hfirst
      rw [← hfirst]
      conv_rhs => rw [← List.take_append_drop before.length inputs]
      exact (matchEach_append before _ _ hfirstLength bindings₀).symm
    · have hafter : before ++ element :: .symbol "..." :: after = (before ++ [element, .symbol "..."]) ++ after := by
        simp
      have hskip : before.length + 2 = (before ++ [element, (.symbol "..." : MacroNode D)]).length := by simp
      rw [hafter, hskip, matchRange_skip] at hlast
      have hrange := matchRange_zero literals after [] (inputs.drop (inputs.length - after.length))
        bindings₁
      rw [List.append_nil] at hrange
      rw [← hrange, hlast]
    · rw [matchRepeated_skip] at h
      exact h
  | _ => simp [vmMacroMatch] at h

/-! ## Patterns -/

lemma match_symbol {name : String} (hname : name ≠ "_" ∧ name ≠ "...")
    (h : vmMacroMatch literals (.symbol name) form bindings₀ = some bindings) :
    Explained (parts literals (.symbol name) form) bindings₀ bindings
      (fun table => vmMacroInstantiate (.symbol name) table = form)
      (patternVariables literals (.symbol name : MacroNode D)) := by
  have hunderscore : (name == "_") = false := by simpa using hname.1
  have hdots : (name != "...") = true := by simpa using hname.2
  have hvariable : isVariable literals name = !literals.contains name := by
    rw [isVariable, bne, hunderscore]
    rfl
  cases hliteral : literals.contains name with
  | true =>
    rw [hliteral] at hvariable
    have hparts : parts literals (.symbol name) form = [.literal name] := by
      rw [parts.eq_def]
      simp only [hvariable, Bool.not_true, Bool.false_eq_true, if_false]
    simp only [vmMacroMatch, hunderscore, hliteral, Bool.false_eq_true, if_false, if_true] at h
    cases form with
    | symbol other =>
      simp only at h
      split_ifs at h with hother
      obtain rfl := beq_iff_eq.1 hother
      refine ⟨?_, fun table => ?_, ?_⟩
      · rw [hparts, ← Option.some.inj h]
        exact (List.append_nil _).symm
      · rw [hparts, List.forall_mem_singleton]
        rfl
      · rw [hparts, patternVariables, hvariable]
        exact List.Perm.refl []
    | _ => cases h
  | false =>
    rw [hliteral] at hvariable
    have hparts : parts literals (.symbol name) form = [.one name form] := by
      rw [parts.eq_def]
      simp only [hvariable, Bool.not_false, if_true]
    simp only [vmMacroMatch, hunderscore, hliteral, Bool.false_eq_true, if_false, macroBindingsAdd] at h
    split_ifs at h
    refine ⟨?_, fun table => ?_, ?_⟩
    · rw [hparts, ← Option.some.inj h]
      rfl
    · rw [hparts, List.forall_mem_singleton]
      rfl
    · rw [hparts, patternVariables, hvariable, hdots]
      exact List.Perm.refl [name]

lemma match_each
    (ih : ∀ p ∈ patterns, ∀ {form bindings₀ bindings}, vmMacroMatch literals p form bindings₀ = some bindings →
      Explained (parts literals p form) bindings₀ bindings (fun table => vmMacroInstantiate p table = form)
        (patternVariables literals p))
    (hlength : forms.length = patterns.length)
    (h : matchEach literals patterns forms bindings₀ = some bindings) :
    Explained (partsEach literals patterns forms) bindings₀ bindings
      (fun table => patterns.map (fun p => vmMacroInstantiate p table) = forms)
      (patternVariablesInList literals patterns) := by
  induction patterns generalizing forms bindings₀ with
  | nil =>
    obtain rfl := List.length_eq_zero_iff.1 hlength
    rw [matchEach.eq_def] at h
    obtain rfl := Option.some.inj h
    refine ⟨(List.append_nil _).symm, fun table => ?_, List.Perm.refl []⟩
    exact ⟨fun _ _ hmem => absurd hmem List.not_mem_nil, fun _ => rfl⟩
  | cons pattern patterns ihes =>
    cases forms with
    | nil => cases hlength
    | cons form forms =>
      rw [matchEach] at h
      obtain ⟨bindings₁, hhead, hrest⟩ := Option.bind_eq_some_iff.1 h
      have head := ih pattern List.mem_cons_self hhead
      have rest := ihes (fun p hp => ih p (List.mem_cons_of_mem _ hp)) (Nat.succ.inj hlength) hrest
      refine ⟨?_, fun t => ?_, ?_⟩
      · rw [rest.bindings, head.bindings, partsEach, table_append, List.append_assoc]
      · rw [partsEach, List.forall_mem_append, ← head.returned t, ← rest.returned t, List.map_cons, List.cons.injEq]
      · rw [partsEach, List.flatMap_append, patternVariablesInList]
        exact head.names.append rest.names

/-- A variable is bound under the beginning of its name. -/
lemma match_variable {name : String} (hname : isVariable literals name = true)
    (h : vmMacroMatch literals (.symbol name) form bindings₀ = some bindings) :
    bindings = bindings₀ ++ [⟨truncated name, .single form⟩] := by
  simp only [isVariable, Bool.and_eq_true, bne_iff_ne, Bool.not_eq_true'] at hname
  have hunderscore : (name == "_") = false := by simpa using hname.1
  simp only [vmMacroMatch, hunderscore, hname.2, Bool.false_eq_true, if_false, macroBindingsAdd] at h
  split_ifs at h
  exact (Option.some.inj h).symm

lemma matchEach_variables {names : List String} (hnames : ∀ name ∈ names, isVariable literals name = true)
    (h : matchEach literals (names.map .symbol) forms bindings₀ = some bindings) :
    bindings = bindings₀ ++ ((names.zip forms).map fun pair => ⟨pair.1, .single pair.2⟩).map truncate := by
  induction names generalizing forms bindings₀ with
  | nil =>
    rw [List.map_nil, matchEach.eq_def] at h
    rw [← Option.some.inj h]
    exact (List.append_nil _).symm
  | cons name names ih =>
    rw [List.forall_mem_cons] at hnames
    cases forms with
    | nil => cases h
    | cons form forms =>
      rw [List.map_cons, matchEach] at h
      obtain ⟨bindings₁, hhead, hrest⟩ := Option.bind_eq_some_iff.1 h
      rw [ih hnames.2 hrest, match_variable hnames.1 hhead, List.append_assoc]
      rfl

/-- One repetition of a list of variables binds each of them. -/
lemma match_repetition {names : List String}
    (hnames : ∀ name ∈ names, isVariable literals name = true ∧ name ≠ "...")
    (h : vmMacroMatch literals (.list (names.map .symbol)) form bindings₀ = some bindings) :
    bindings = bindings₀ ++ ((names.zip (childrenOf form)).map fun pair => ⟨pair.1, .single pair.2⟩).map truncate := by
  have hno : ∀ p ∈ names.map (MacroNode.symbol (D := D)), isEllipsis p = false := by
    intro p hp
    obtain ⟨name, hname, rfl⟩ := List.mem_map.1 hp
    simpa [isEllipsis] using (hnames name hname).2
  obtain ⟨inputs, rfl, -, heach⟩ := match_list hno h
  exact matchEach_variables (fun name hname => (hnames name hname).1) heach

lemma match_repetitions {names : List String}
    (hnames : ∀ name ∈ names, isVariable literals name = true ∧ name ≠ "...")
    (h : items.foldlM (fun bindings item => vmMacroMatch literals (.list (names.map .symbol)) item bindings)
      bindings₀ = some bindings) : bindings = bindings₀ ++ table [.lists names items] := by
  induction items generalizing bindings₀ with
  | nil =>
    rw [List.foldlM_nil] at h
    rw [← Option.some.inj h]
    exact (List.append_nil _).symm
  | cons item items ih =>
    rw [List.foldlM_cons] at h
    obtain ⟨bindings₁, hhead, hrest⟩ := Option.bind_eq_some_iff.1 h
    rw [ih hrest, match_repetition hnames hhead, List.append_assoc]
    congr 1
    simp only [table, List.flatMap_cons, List.flatMap_nil, List.append_nil, Part.bindings, List.map_append]

/-- The elements that the pattern before an ellipsis takes. -/
lemma match_repeatedParts (helement : Repeatable literals element)
    (h : matchRepeated literals (element :: .symbol "..." :: after) 0 items bindings₀ = some bindings) :
    Explained (repeatedParts element items) bindings₀ bindings (fun table => expandRepeated element table = items)
      (patternVariables literals element) := by
  cases helement with
  | symbol name hname hdots =>
    have hdots' : (name != "...") = true := by simpa using hdots
    simp only [matchRepeated, hname, if_true, macroBindingsAdd] at h
    split_ifs at h
    refine ⟨?_, fun t => ?_, ?_⟩
    · rw [← Option.some.inj h]
      rfl
    · rw [repeatedParts, List.forall_mem_singleton]
      rfl
    · rw [patternVariables, hname, hdots']
      exact List.Perm.refl [name]
  | list names hnames =>
    rw [repeatedParts_list]
    simp only [matchRepeated] at h
    refine ⟨match_repetitions hnames h, fun t => ?_, ?_⟩
    · rw [List.forall_mem_singleton]
      rfl
    · have hvariables : patternVariables literals (.list (names.map MacroNode.symbol) : MacroNode D) = names := by
        clear h
        rw [patternVariables]
        induction names with
        | nil => rfl
        | cons name names ih =>
          rw [List.forall_mem_cons] at hnames
          have hdots : (name != "...") = true := by simpa using hnames.1.2
          rw [List.map_cons, patternVariablesInList, ih hnames.2, patternVariables, hnames.1.1, hdots]
          rfl
      rw [hvariables]
      show (names ++ []).Perm names
      rw [List.append_nil]

/-- A match adds the bindings of the parts, and the instance is the form when every part is given back. -/
lemma match_explained (hp : WellFormed literals pattern)
    (h : vmMacroMatch literals pattern form bindings₀ = some bindings) :
    Explained (parts literals pattern form) bindings₀ bindings
      (fun table => vmMacroInstantiate pattern table = form) (patternVariables literals pattern) := by
  induction hp generalizing form bindings₀ bindings with
  | number numval =>
    cases form with
    | number other =>
      simp only [vmMacroMatch] at h
      split_ifs at h
      refine ⟨?_, fun t => ?_, List.Perm.refl []⟩
      · rw [← Option.some.inj h]
        exact (List.append_nil _).symm
      · rw [parts, List.forall_mem_singleton]
        exact ⟨fun heq => MacroNode.number.inj heq, fun heq => congrArg MacroNode.number heq⟩
    | _ => simp [vmMacroMatch] at h
  | string text =>
    cases form with
    | string other =>
      simp only [vmMacroMatch] at h
      split_ifs at h with hother
      obtain rfl := beq_iff_eq.1 hother
      refine ⟨?_, fun t => ?_, List.Perm.refl []⟩
      · rw [← Option.some.inj h]
        exact (List.append_nil _).symm
      · exact ⟨fun _ _ hmem => absurd hmem List.not_mem_nil, fun _ => rfl⟩
    | _ => simp [vmMacroMatch] at h
  | bool numval =>
    cases form with
    | bool other =>
      simp only [vmMacroMatch] at h
      split_ifs at h with hother
      obtain rfl := beq_iff_eq.1 hother
      refine ⟨?_, fun t => ?_, List.Perm.refl []⟩
      · rw [← Option.some.inj h]
        exact (List.append_nil _).symm
      · exact ⟨fun _ _ hmem => absurd hmem List.not_mem_nil, fun _ => rfl⟩
    | _ => simp [vmMacroMatch] at h
  | symbol name hunderscore hdots => exact match_symbol ⟨hunderscore, hdots⟩ h
  | list patterns hpatterns ih =>
    have hno : ∀ p ∈ patterns, isEllipsis p = false := fun p hp => (hpatterns p hp).isEllipsis
    obtain ⟨inputs, rfl, hlength, heach⟩ := match_list hno h
    have each := match_each (fun p hp {_ _ _} h => ih p hp h) hlength heach
    have hparts : parts literals (.list patterns) (.list inputs) = partsEach literals patterns inputs := by
      rw [parts, partsOfList_each hno hlength]
    refine ⟨?_, fun t => ?_, ?_⟩
    · rw [hparts]
      exact each.bindings
    · rw [hparts, ← each.returned t, vmMacroInstantiate, MacroNode.list.injEq, instantiateChildren_eq_map hno]
    · rw [hparts, patternVariables]
      exact each.names
  | repeated before after element hbefore hafter helement ihbefore ihafter =>
    have hnobefore : ∀ p ∈ before, isEllipsis p = false := fun p hp => (hbefore p hp).isEllipsis
    have hnoafter : ∀ p ∈ after, isEllipsis p = false := fun p hp => (hafter p hp).isEllipsis
    obtain ⟨first, items, last, bindings₁, bindings₂, rfl, hfirst, hlast, hmatchFirst, hmatchLast, hmatchItems⟩ :=
      match_repeated hnobefore helement.isEllipsis h
    have first' := match_each (fun p hp {_ _ _} h => ihbefore p hp h) hfirst hmatchFirst
    have last' := match_each (fun p hp {_ _ _} h => ihafter p hp h) hlast hmatchLast
    have items' := match_repeatedParts helement hmatchItems
    have hparts : parts literals (.list (before ++ element :: .symbol "..." :: after)) (.list (first ++ (items ++ last))) =
        partsEach literals before first ++ (partsEach literals after last ++ repeatedParts element items) := by
      rw [parts, partsOfList_repeated hnobefore helement.isEllipsis hnoafter hfirst hlast]
    refine ⟨?_, fun t => ?_, ?_⟩
    · rw [hparts, table_append, table_append, items'.bindings, last'.bindings, first'.bindings]
      simp only [List.append_assoc]
    · rw [hparts, List.forall_mem_append, List.forall_mem_append, ← first'.returned t, ← last'.returned t,
        ← items'.returned t, vmMacroInstantiate, MacroNode.list.injEq,
        instantiateChildren_append hnobefore (element :: .symbol "..." :: after) helement.isEllipsis,
        instantiateChildren_repeated, instantiateChildren_eq_map hnoafter]
      -- the pieces have the lengths of those of the form
      constructor
      · intro heq
        obtain ⟨hpre, hrest⟩ := List.append_inj heq (by rw [List.length_map, hfirst])
        obtain ⟨hitems, hpost⟩ := List.append_inj' hrest (by rw [List.length_map, hlast])
        exact ⟨hpre, hpost, hitems⟩
      · rintro ⟨hpre, hpost, hitems⟩
        rw [hpre, hpost, hitems]
    · rw [hparts, List.flatMap_append, List.flatMap_append, patternVariables]
      rw [patternVariables_repeated]
      exact first'.names.append ((last'.names.append items'.names).trans List.perm_append_comm)

end Vm.SyntaxRules
