import Eshkol.Base.Cycles
import Eshkol.Base.PartialState
import Eshkol.Types.Aliases
import Mathlib.Order.Filter.AtTopBot.Basic
import Mathlib.Order.Filter.Finite

/-!
# When instantiating an alias captures nothing, and when resolution ends

Type expressions are compared up to the names of the variables that their foralls bind: a bound
variable is read as the place of its binder. Substituting as the code does is the substitution of
the arguments exactly when no forall around a parameter binds a variable of its argument. Resolution
ends exactly when no alias that it comes upon leads back to itself.
-/

namespace Types

/-! ## Bound variables by place -/

/-- A type expression in which a bound variable is the number of foralls between it and its binder,
with its position there. -/
inductive NamelessType where
  | nullptr
  | primitive (kind : PrimitiveKind)
  | bound (binder position : ℕ)
  | free (name : String)
  | arrow (params : List NamelessType) (returnType : NamelessType)
  | forallType (count : ℕ) (body : NamelessType)
  | container (kind : ContainerKind) (elementType : NamelessType)
  | pair (kind : PairKind) (left right : NamelessType)
  | universeType (level : UInt32)

/-- The place of the nearest binder of a name. -/
def position : List (List String) → String → Option (ℕ × ℕ)
  | [], _ => none
  | typeVars :: scopes, x =>
    if x ∈ typeVars then some (0, typeVars.idxOf x)
    else (position scopes x).map fun place => (place.1 + 1, place.2)

mutual

/-- A type expression under foralls that bind the names in `scopes`. -/
def nameless (scopes : List (List String)) : TypeExpr → NamelessType
  | .nullptr => .nullptr
  | .primitive kind => .primitive kind
  | .var name =>
    match position scopes name with
    | some place => .bound place.1 place.2
    | none => .free name
  | .arrow params returnType =>
    .arrow (namelessParams scopes params) (nameless scopes returnType)
  | .forallType typeVars body => .forallType typeVars.length (nameless (typeVars :: scopes) body)
  | .container kind elementType => .container kind (nameless scopes elementType)
  | .pair kind left right => .pair kind (nameless scopes left) (nameless scopes right)
  | .universeType level => .universeType level

def namelessParams (scopes : List (List String)) : List TypeExpr → List NamelessType
  | [] => []
  | t :: rest => nameless scopes t :: namelessParams scopes rest

end

namespace NamelessType

mutual

/-- Simultaneous substitution for the free names. Nothing can be captured: what is put in has no
bound variable of its surroundings. -/
def subst (put : String → NamelessType) : NamelessType → NamelessType
  | .free name => put name
  | .arrow params returnType => .arrow (substParams put params) (subst put returnType)
  | .forallType count body => .forallType count (subst put body)
  | .container kind elementType => .container kind (subst put elementType)
  | .pair kind left right => .pair kind (subst put left) (subst put right)
  | .nullptr => .nullptr
  | .primitive kind => .primitive kind
  | .bound binder position => .bound binder position
  | .universeType level => .universeType level

def substParams (put : String → NamelessType) : List NamelessType → List NamelessType
  | [] => []
  | t :: rest => subst put t :: substParams put rest

end

lemma substParams_eq (put : String → NamelessType) (ts : List NamelessType) :
    substParams put ts = ts.map (subst put) := by
  induction ts with
  | nil => rfl
  | cons t rest ih => rw [substParams, ih, List.map_cons]

end NamelessType

lemma namelessParams_eq (scopes : List (List String)) (ts : List TypeExpr) :
    namelessParams scopes ts = ts.map (nameless scopes) := by
  induction ts with
  | nil => rfl
  | cons t rest ih => rw [namelessParams, ih, List.map_cons]

lemma substituteInParams_eq (ts : List TypeExpr) (s : Substitutions) :
    substituteInParams ts s = ts.map fun t => substituteTypeVars t s := by
  induction ts with
  | nil => rfl
  | cons t rest ih => rw [substituteInParams, ih, List.map_cons]

lemma position_eq_none {scopes : List (List String)} {x : String} :
    position scopes x = none ↔ ∀ typeVars ∈ scopes, x ∉ typeVars := by
  induction scopes with
  | nil => simp [position]
  | cons typeVars scopes ih =>
    rw [position]
    split <;> simp_all

lemma position_cons_eq_none {typeVars : List String} {scopes : List (List String)} {x : String} :
    position (typeVars :: scopes) x = none ↔ x ∉ typeVars ∧ position scopes x = none := by
  simp only [position_eq_none, List.forall_mem_cons]

lemma position_append_eq_none {inner outer : List (List String)} {x : String} :
    position (inner ++ outer) x = none ↔ position inner x = none ∧ position outer x = none := by
  simp only [position_eq_none, List.forall_mem_append]

lemma nameless_var_free {scopes : List (List String)} {x : String}
    (h : position scopes x = none) : nameless scopes (.var x) = .free x := by
  rw [nameless, h]

lemma nameless_var_bound {scopes : List (List String)} {x : String} {place : ℕ × ℕ}
    (h : position scopes x = some place) :
    nameless scopes (.var x) = .bound place.1 place.2 := by
  rw [nameless, h]

lemma position_append {inner outer : List (List String)} {x : String}
    (h : (position inner x).isSome ∨ position outer x = none) :
    position (inner ++ outer) x = position inner x := by
  induction inner with
  | nil => simpa [position] using h
  | cons typeVars inner ih =>
    rw [List.cons_append, position, position]
    split
    · rfl
    · rename_i hx
      rw [ih (by simpa [position, hx] using h)]

/-! ## Free variables -/

/-- The variable `x` is free in a type expression, at a place under foralls that bind `scopes`. -/
inductive FreeIn : TypeExpr → String → List (List String) → Prop where
  | var (x : String) : FreeIn (.var x) x []
  | param {params : List TypeExpr} {returnType t : TypeExpr} {x : String}
    {scopes : List (List String)} : t ∈ params → FreeIn t x scopes →
    FreeIn (.arrow params returnType) x scopes
  | returnType {params : List TypeExpr} {t : TypeExpr} {x : String} {scopes : List (List String)} :
    FreeIn t x scopes → FreeIn (.arrow params t) x scopes
  | forallType {typeVars : List String} {body : TypeExpr} {x : String}
    {scopes : List (List String)} : x ∉ typeVars → FreeIn body x scopes →
    FreeIn (.forallType typeVars body) x (scopes ++ [typeVars])
  | container {kind : ContainerKind} {t : TypeExpr} {x : String} {scopes : List (List String)} :
    FreeIn t x scopes → FreeIn (.container kind t) x scopes
  | left {kind : PairKind} {t u : TypeExpr} {x : String} {scopes : List (List String)} :
    FreeIn t x scopes → FreeIn (.pair kind t u) x scopes
  | right {kind : PairKind} {t u : TypeExpr} {x : String} {scopes : List (List String)} :
    FreeIn u x scopes → FreeIn (.pair kind t u) x scopes

section FreeVariables

variable {P : String → List (List String) → Prop}

lemma forall_freeIn_var {y : String} : (∀ x bound, FreeIn (.var y) x bound → P x bound) ↔ P y [] := by
  refine ⟨fun h => h y [] (.var y), fun h x bound hx => ?_⟩
  cases hx with
  | var => exact h

lemma forall_freeIn_arrow {params : List TypeExpr} {returnType : TypeExpr} :
    (∀ x bound, FreeIn (.arrow params returnType) x bound → P x bound) ↔
      (∀ t ∈ params, ∀ x bound, FreeIn t x bound → P x bound) ∧
        ∀ x bound, FreeIn returnType x bound → P x bound := by
  refine ⟨fun h => ⟨fun t ht x bound hx => h x bound (.param ht hx),
    fun x bound hx => h x bound (.returnType hx)⟩, fun ⟨hparams, hreturn⟩ x bound hx => ?_⟩
  cases hx with
  | param ht hx => exact hparams _ ht x bound hx
  | returnType hx => exact hreturn x bound hx

lemma forall_freeIn_forallType {typeVars : List String} {body : TypeExpr} :
    (∀ x bound, FreeIn (.forallType typeVars body) x bound → P x bound) ↔
      ∀ x bound, FreeIn body x bound → x ∉ typeVars → P x (bound ++ [typeVars]) := by
  refine ⟨fun h x bound hx hfree => h x _ (.forallType hfree hx), fun h x bound hx => ?_⟩
  cases hx with
  | forallType hfree hx => exact h x _ hx hfree

lemma forall_freeIn_container {kind : ContainerKind} {t : TypeExpr} :
    (∀ x bound, FreeIn (.container kind t) x bound → P x bound) ↔
      ∀ x bound, FreeIn t x bound → P x bound := by
  refine ⟨fun h x bound hx => h x bound (.container hx), fun h x bound hx => ?_⟩
  cases hx with
  | container hx => exact h x bound hx

lemma forall_freeIn_pair {kind : PairKind} {t u : TypeExpr} :
    (∀ x bound, FreeIn (.pair kind t u) x bound → P x bound) ↔
      (∀ x bound, FreeIn t x bound → P x bound) ∧ ∀ x bound, FreeIn u x bound → P x bound := by
  refine ⟨fun h => ⟨fun x bound hx => h x bound (.left hx), fun x bound hx => h x bound (.right hx)⟩,
    fun ⟨hleft, hright⟩ x bound hx => ?_⟩
  cases hx with
  | left hx => exact hleft x bound hx
  | right hx => exact hright x bound hx

lemma forall_freeIn_nullptr : ∀ x bound, FreeIn .nullptr x bound → P x bound := nofun

lemma forall_freeIn_primitive {kind : PrimitiveKind} :
    ∀ x bound, FreeIn (.primitive kind) x bound → P x bound := nofun

lemma forall_freeIn_universeType {level : UInt32} :
    ∀ x bound, FreeIn (.universeType level) x bound → P x bound := nofun

end FreeVariables

/-! ## Substitution captures nothing -/

/-- What stands for a variable. -/
def Substitutions.put (s : Substitutions) (x : String) : TypeExpr := (s[x]?).getD (.var x)

lemma getElem?_eraseAll (typeVars : List String) (s : Substitutions) (x : String) :
    (typeVars.foldl (fun inner v => inner.erase v) s)[x]? = if x ∈ typeVars then none else s[x]? := by
  induction typeVars generalizing s with
  | nil => simp
  | cons v typeVars ih =>
    rw [List.foldl_cons, ih, Std.TreeMap.getElem?_erase]
    by_cases hx : x = v
    · simp [hx]
    · have hv : ¬ v = x := fun h => hx h.symm
      simp [hx, hv]

/-- An expression reads the same under further foralls exactly when they bind none of its free
variables. -/
lemma nameless_append {inner outer : List (List String)} {t : TypeExpr} :
    nameless (inner ++ outer) t = nameless inner t ↔
      ∀ x bound, FreeIn t x bound → position inner x = none → position outer x = none := by
  induction t generalizing inner with
  | nullptr => exact iff_of_true rfl forall_freeIn_nullptr
  | primitive kind => exact iff_of_true rfl forall_freeIn_primitive
  | universeType level => exact iff_of_true rfl forall_freeIn_universeType
  | var name =>
    rw [forall_freeIn_var]
    by_cases hfree : position inner name = none → position outer name = none
    · have hsame : position (inner ++ outer) name = position inner name := by
        apply position_append
        rw [← Option.ne_none_iff_isSome]
        exact (em (position inner name = none)).symm.imp_right hfree
      simp only [nameless, hsame, true_iff]
      exact hfree
    · obtain ⟨hinner, houter⟩ := Classical.not_imp.1 hfree
      obtain ⟨place, hplace⟩ : ∃ place, position (inner ++ outer) name = some place :=
        Option.ne_none_iff_exists'.1 fun h => houter (position_append_eq_none.1 h).2
      rw [nameless_var_free hinner, nameless_var_bound hplace]
      exact iff_of_false nofun hfree
  | arrow params returnType ihp ihr =>
    rw [forall_freeIn_arrow, ← ihr, nameless, nameless, namelessParams_eq, namelessParams_eq,
      NamelessType.arrow.injEq, List.map_inj_left]
    exact and_congr_left' (forall₂_congr fun t ht => ihp t ht)
  | forallType typeVars body ih =>
    have hbody := @ih (typeVars :: inner)
    rw [List.cons_append] at hbody
    rw [forall_freeIn_forallType, nameless, nameless, NamelessType.forallType.injEq,
      and_iff_right rfl, hbody]
    refine forall₃_congr fun x bound hx => ?_
    rw [position_cons_eq_none, and_imp]
  | container kind t ih =>
    rw [forall_freeIn_container, ← ih, nameless, nameless, NamelessType.container.injEq,
      and_iff_right rfl]
  | pair kind t u iht ihu =>
    rw [forall_freeIn_pair, ← iht, ← ihu, nameless, nameless, NamelessType.pair.injEq,
      and_iff_right rfl]

/-- Substituting as the code does is the substitution `meant` of the free names exactly when every
free variable is given, where it stands, what is meant for it. -/
lemma nameless_substituteTypeVars {s inner : Substitutions} {scopes : List (List String)}
    {meant : String → NamelessType} {t : TypeExpr}
    (hinner : ∀ x, inner[x]? = if position scopes x = none then s[x]? else none) :
    nameless scopes (substituteTypeVars t inner) = (nameless scopes t).subst meant ↔
      ∀ x bound, FreeIn t x bound → position scopes x = none →
        nameless (bound ++ scopes) (s.put x) = meant x := by
  induction t generalizing inner scopes with
  | nullptr => exact iff_of_true rfl forall_freeIn_nullptr
  | primitive kind => exact iff_of_true rfl forall_freeIn_primitive
  | universeType level => exact iff_of_true rfl forall_freeIn_universeType
  | var name =>
    rw [forall_freeIn_var, substituteTypeVars, hinner, List.nil_append]
    by_cases hfree : position scopes name = none
    · rw [if_pos hfree, nameless_var_free hfree, NamelessType.subst, Substitutions.put]
      exact ⟨fun h _ => h, fun h => h hfree⟩
    · obtain ⟨place, hplace⟩ := Option.ne_none_iff_exists'.1 hfree
      rw [if_neg hfree, Option.getD_none, nameless_var_bound hplace]
      exact iff_of_true rfl fun h => absurd h hfree
  | arrow params returnType ihp ihr =>
    rw [forall_freeIn_arrow, ← ihr hinner, substituteTypeVars, nameless, nameless,
      NamelessType.subst, NamelessType.arrow.injEq, namelessParams_eq, namelessParams_eq,
      NamelessType.substParams_eq, substituteInParams_eq, List.map_map, List.map_map,
      List.map_inj_left]
    exact and_congr_left' (forall₂_congr fun t ht => ihp t ht hinner)
  | forallType typeVars body ih =>
    have hbody : ∀ x, (typeVars.foldl (fun inner v => inner.erase v) inner)[x]? =
        if position (typeVars :: scopes) x = none then s[x]? else none := by
      intro x
      rw [getElem?_eraseAll, hinner]
      simp only [position_cons_eq_none]
      split <;> simp_all
    rw [forall_freeIn_forallType, substituteTypeVars, nameless, nameless, NamelessType.subst,
      NamelessType.forallType.injEq, and_iff_right rfl, ih hbody]
    refine forall₃_congr fun x bound hx => ?_
    rw [position_cons_eq_none, and_imp, List.append_assoc, List.singleton_append]
  | container kind t ih =>
    rw [forall_freeIn_container, ← ih hinner, substituteTypeVars, nameless, nameless,
      NamelessType.subst, NamelessType.container.injEq, and_iff_right rfl]
  | pair kind t u iht ihu =>
    rw [forall_freeIn_pair, ← iht hinner, ← ihu hinner, substituteTypeVars, nameless, nameless,
      NamelessType.subst, NamelessType.pair.injEq, and_iff_right rfl]

/-- At the top, where no forall is around. -/
lemma nameless_nil_substituteTypeVars {s : Substitutions} {meant : String → NamelessType}
    {t : TypeExpr} :
    nameless [] (substituteTypeVars t s) = (nameless [] t).subst meant ↔
      ∀ x bound, FreeIn t x bound → nameless bound (s.put x) = meant x := by
  have h := @nameless_substituteTypeVars s s [] meant t fun x => rfl
  simpa only [position, forall_const, List.append_nil] using h

/-! ## Instantiation -/

/-- The argument for a parameter; a variable that is no parameter, or has no argument, stands for
itself. Of two parameters of one name the later one counts. -/
def argumentFor (params : List String) (args : List TypeExpr) (x : String) : TypeExpr :=
  ((params.zip args).reverse.lookup x).getD (.var x)

lemma put_bindings (bindings : List (String × TypeExpr)) (x : String) :
    (bindings.foldl (fun s (param, arg) => s.insert param arg) (∅ : Substitutions)).put x =
      (bindings.reverse.lookup x).getD (.var x) := by
  induction bindings using List.reverseRecOn with
  | nil => rfl
  | append_singleton bindings binding ih =>
    obtain ⟨param, arg⟩ := binding
    rw [List.foldl_append, List.reverse_concat, List.foldl_cons, List.foldl_nil, Substitutions.put,
      Std.TreeMap.getElem?_insert, List.lookup_cons]
    by_cases hx : x = param
    · simp [hx]
    · have hbeq : (x == param) = false := by simpa using hx
      rw [if_neg (by simpa using fun h : param = x => hx h.symm), hbeq]
      exact ih

lemma substituteTypeVars_of_none {t : TypeExpr} {s : Substitutions}
    (hs : ∀ x : String, s[x]? = none) : substituteTypeVars t s = t := by
  induction t generalizing s with
  | nullptr => rfl
  | primitive kind => rfl
  | universeType level => rfl
  | var name => rw [substituteTypeVars, hs, Option.getD_none]
  | arrow params returnType ihp ihr =>
    have hparams : params.map (fun t => substituteTypeVars t s) = params := by
      conv_rhs => rw [← List.map_id params]
      exact List.map_congr_left fun t ht => ihp t ht hs
    rw [substituteTypeVars, substituteInParams_eq, hparams, ihr hs]
  | forallType typeVars body ih =>
    have hbody : ∀ x : String, (typeVars.foldl (fun inner v => inner.erase v) s)[x]? = none := by
      intro x
      rw [getElem?_eraseAll, hs, ite_self]
    rw [substituteTypeVars, ih hbody]
  | container kind t ih => rw [substituteTypeVars, ih hs]
  | pair kind t u iht ihu => rw [substituteTypeVars, iht hs, ihu hs]

/-- Instantiating is substituting the arguments for the parameters that the context knows. -/
lemma instantiateTypeAlias_eq {ctx : Context} {name : String} {typeExpr : TypeExpr}
    (h : ctx.lookupTypeAlias name = some typeExpr) (args : List TypeExpr) :
    ctx.instantiateTypeAlias name args = some (substituteTypeVars typeExpr
      (((ctx.getTypeAliasParams name).zip args).foldl (fun s (param, arg) => s.insert param arg) ∅)) := by
  rw [Context.lookupTypeAlias] at h
  rw [Context.instantiateTypeAlias, h, Context.getTypeAliasParams]
  cases ctx.typeAliasParams[name]? with
  | none =>
    rw [Option.getD_none, List.zip_nil_left, List.foldl_nil]
    exact congrArg some (substituteTypeVars_of_none fun x => rfl).symm
  | some params => rfl

/-- The definition of a name that counts: the latest one. -/
def latest (definitions : List AliasDefinition) (name : String) : Option AliasDefinition :=
  definitions.reverse.find? fun d => d.name == name

lemma contextAfter_concat (definitions : List AliasDefinition) (d : AliasDefinition) :
    contextAfter (definitions ++ [d]) =
      (contextAfter definitions).defineTypeAlias d.name d.typeExpr d.params := by
  rw [contextAfter, List.foldl_append]
  rfl

lemma latest_concat (definitions : List AliasDefinition) (d : AliasDefinition) (name : String) :
    latest (definitions ++ [d]) name = if d.name = name then some d else latest definitions name := by
  rw [latest, List.reverse_concat, List.find?_cons]
  by_cases h : d.name = name
  · simp [h]
  · have hbeq : (d.name == name) = false := by simpa using h
    rw [hbeq, if_neg h]
    rfl

lemma lookupTypeAlias_contextAfter (definitions : List AliasDefinition) (name : String) :
    (contextAfter definitions).lookupTypeAlias name =
      (latest definitions name).map AliasDefinition.typeExpr := by
  induction definitions using List.reverseRecOn with
  | nil => rfl
  | append_singleton definitions d ih =>
    have hinsert : (contextAfter (definitions ++ [d])).typeAliases =
        (contextAfter definitions).typeAliases.insert d.name d.typeExpr := by
      rw [contextAfter_concat, Context.defineTypeAlias]
      split <;> rfl
    rw [Context.lookupTypeAlias, hinsert, Std.TreeMap.getElem?_insert, latest_concat]
    by_cases h : d.name = name
    · simp [h]
    · simp only [Std.LawfulEqCmp.compare_eq_iff_eq, h, if_false]
      exact ih

/-- The parameters of a definition that has some are the ones that count. -/
lemma getTypeAliasParams_contextAfter {definitions : List AliasDefinition} {name : String}
    {d : AliasDefinition} (hd : latest definitions name = some d) (hparams : d.params ≠ []) :
    (contextAfter definitions).getTypeAliasParams name = d.params := by
  induction definitions using List.reverseRecOn with
  | nil => cases hd
  | append_singleton definitions e ih =>
    rw [latest_concat] at hd
    rw [contextAfter_concat, Context.defineTypeAlias]
    by_cases he : e.name = name
    · rw [if_pos he, Option.some.injEq] at hd
      subst hd
      rw [if_neg (by simpa using hparams), Context.getTypeAliasParams]
      simp [he]
    · rw [if_neg he] at hd
      have hrest := ih hd
      split
      · exact hrest
      · rw [Context.getTypeAliasParams, Std.TreeMap.getElem?_insert, if_neg (by simpa using he)]
        exact hrest

/-- Instantiating the alias gives its expression with the arguments in place of its parameters,
without capture and up to the names of bound variables. -/
def InstantiatesCorrectly (definitions : List AliasDefinition) (name : String)
    (args : List TypeExpr) : Prop :=
  ∀ d, latest definitions name = some d →
    ∃ result, (contextAfter definitions).instantiateTypeAlias name args = some result ∧
      nameless [] result =
        (nameless [] d.typeExpr).subst fun x => nameless [] (argumentFor d.params args x)

/-- No forall around a free variable of the alias binds a variable of its argument, and no parameters
are left over from an earlier definition that stand for something in this one. -/
def NoCapture (definitions : List AliasDefinition) (name : String) (args : List TypeExpr) : Prop :=
  ∀ d, latest definitions name = some d → ∀ x bound, FreeIn d.typeExpr x bound →
    argumentFor ((contextAfter definitions).getTypeAliasParams name) args x =
        argumentFor d.params args x ∧
      ∀ y inner, FreeIn (argumentFor d.params args x) y inner → ∀ typeVars ∈ bound, y ∉ typeVars

/-- A free variable is under no forall that binds it. -/
lemma FreeIn.position_eq_none {t : TypeExpr} {x : String} {bound : List (List String)}
    (h : FreeIn t x bound) : position bound x = none := by
  induction h with
  | var x => rfl
  | forallType hx _ ih =>
    exact position_append_eq_none.2 ⟨ih, position_cons_eq_none.2 ⟨hx, rfl⟩⟩
  | param _ _ ih => exact ih
  | returnType _ ih => exact ih
  | container _ ih => exact ih
  | left _ ih => exact ih
  | right _ ih => exact ih

/-- Only a variable reads as a free name. -/
lemma eq_var_of_nameless {scopes : List (List String)} {t : TypeExpr} {x : String}
    (h : nameless scopes t = .free x) : t = .var x := by
  cases t with
  | var name =>
    cases hname : position scopes name with
    | none =>
      rw [nameless_var_free hname] at h
      rw [NamelessType.free.inj h]
    | some place =>
      rw [nameless_var_bound hname] at h
      cases h
  | nullptr => cases h
  | primitive kind => cases h
  | arrow params returnType => cases h
  | forallType typeVars body => cases h
  | container kind t => cases h
  | pair kind t u => cases h
  | universeType level => cases h

/-- Instantiation is substitution unless a name is captured. -/
lemma instantiatesCorrectly_iff (definitions : List AliasDefinition) (name : String)
    (args : List TypeExpr) :
    InstantiatesCorrectly definitions name args ↔ NoCapture definitions name args := by
  refine forall₂_congr fun d hd => ?_
  have hlookup := lookupTypeAlias_contextAfter definitions name
  rw [hd, Option.map_some] at hlookup
  rw [instantiateTypeAlias_eq hlookup]
  simp only [Option.some.injEq, exists_eq_left', nameless_nil_substituteTypeVars, put_bindings]
  refine forall₃_congr fun x bound hx => ?_
  have hcapture : nameless bound (argumentFor d.params args x) =
      nameless [] (argumentFor d.params args x) ↔
      ∀ y inner, FreeIn (argumentFor d.params args x) y inner → ∀ typeVars ∈ bound, y ∉ typeVars := by
    simpa only [List.nil_append, position, forall_const, position_eq_none] using
      @nameless_append [] bound (argumentFor d.params args x)
  rw [← hcapture]
  constructor
  · intro h
    by_cases hparams : d.params = []
    · have hself : argumentFor d.params args x = .var x := by rw [hparams]; rfl
      rw [hself] at h ⊢
      exact ⟨eq_var_of_nameless h, nameless_var_free hx.position_eq_none⟩
    · rw [getTypeAliasParams_contextAfter hd hparams] at h ⊢
      exact ⟨rfl, h⟩
  · rintro ⟨hstored, h⟩
    rw [← h, ← hstored]
    rfl

/-! ## Resolution -/

/-- `resolveType` looks the name up if it is given the expression, and follows no alias. -/
inductive LooksUp : TypeExpr → String → Prop where
  | var (x : String) : LooksUp (.var x) x
  | param {params : List TypeExpr} {returnType t : TypeExpr} {x : String} : t ∈ params →
    LooksUp t x → LooksUp (.arrow params returnType) x
  | returnType {params : List TypeExpr} {t : TypeExpr} {x : String} :
    LooksUp t x → LooksUp (.arrow params t) x
  | forallType {typeVars : List String} {body : TypeExpr} {x : String} :
    LooksUp body x → LooksUp (.forallType typeVars body) x

/-- The expression of the alias `x` makes `resolveType` look `y` up. -/
def Context.LeadsTo (ctx : Context) (x y : String) : Prop :=
  ∃ typeExpr, ctx.lookupTypeAlias x = some typeExpr ∧ LooksUp typeExpr y

/-- `resolveType` returns the id of a type. -/
def Resolves (ctx : Context) (nameToId : Std.TreeMap String TypeId) (env : TypeEnvironment)
    (t : TypeExpr) : Prop :=
  ∃ depth type env', resolveTypeWithin ctx nameToId depth t env = some (type, env')

/-- No alias that resolution comes upon leads back to itself. -/
def NoAliasCycle (ctx : Context) (t : TypeExpr) : Prop :=
  ∀ x, LooksUp t x → Cycles.NoCycle ctx.LeadsTo x

/-- A program that returns from every environment. -/
def Returning {α : Type} (m : StateT TypeEnvironment Option α) : Prop :=
  ∀ env, ∃ a env', m env = some (a, env')

lemma Returning.bind {α β : Type} {m : StateT TypeEnvironment Option α}
    {f : α → StateT TypeEnvironment Option β} (hm : Returning m) (hf : ∀ a, Returning (f a)) :
    Returning (m >>= f) := by
  intro env
  obtain ⟨a, env', ha⟩ := hm env
  obtain ⟨b, env'', hb⟩ := hf a env'
  exact ⟨b, env'', by rw [PartialState.bind_apply, ha]; exact hb⟩

section Resolution

variable {ctx : Context} {nameToId : Std.TreeMap String TypeId}
  {resolveAlias : TypeExpr → StateT TypeEnvironment Option TypeId}

lemma resolveParamsWith_returning {ts : List TypeExpr}
    (h : ∀ t ∈ ts, Returning (resolveTypeWith ctx nameToId resolveAlias t)) :
    Returning (resolveParamsWith ctx nameToId resolveAlias ts) := by
  induction ts with
  | nil => exact fun env => ⟨_, _, rfl⟩
  | cons t rest ih =>
    have hrest := ih fun u hu => h u (List.mem_cons_of_mem t hu)
    rw [resolveParamsWith]
    exact (h t List.mem_cons_self).bind fun type => hrest.bind fun types env => ⟨_, _, rfl⟩

/-- Resolving returns if it does for the aliases that are looked up. -/
lemma resolveTypeWith_returning {t : TypeExpr}
    (h : ∀ x typeExpr, LooksUp t x → ctx.lookupTypeAlias x = some typeExpr →
      Returning (resolveAlias typeExpr)) :
    Returning (resolveTypeWith ctx nameToId resolveAlias t) := by
  induction t with
  | nullptr => exact fun env => ⟨_, _, rfl⟩
  | primitive kind => exact fun env => ⟨_, _, rfl⟩
  | universeType level => exact fun env => ⟨_, _, rfl⟩
  | container kind t _ => exact fun env => ⟨_, _, rfl⟩
  | pair kind t u _ _ => exact fun env => ⟨_, _, rfl⟩
  | var name =>
    rw [resolveTypeWith]
    cases hname : ctx.lookupTypeAlias name with
    | none => exact fun env => ⟨_, _, rfl⟩
    | some typeExpr => exact h name typeExpr (.var name) hname
  | arrow params returnType ihp ihr =>
    have hparams := resolveParamsWith_returning fun t ht =>
      ihp t ht fun x typeExpr hx => h x typeExpr (.param ht hx)
    have hreturn := ihr fun x typeExpr hx => h x typeExpr (.returnType hx)
    rw [resolveTypeWith]
    exact hparams.bind fun paramTypes => hreturn.bind fun type env => ⟨_, _, rfl⟩
  | forallType typeVars body ih =>
    rw [resolveTypeWith]
    exact ih fun x typeExpr hx => h x typeExpr (.forallType hx)

lemma exists_of_resolveParamsWith {ts : List TypeExpr} {env env' : TypeEnvironment}
    {types : List TypeId}
    (h : resolveParamsWith ctx nameToId resolveAlias ts env = some (types, env')) :
    ∀ t ∈ ts, ∃ env₁ type env₂,
      resolveTypeWith ctx nameToId resolveAlias t env₁ = some (type, env₂) := by
  induction ts generalizing env env' types with
  | nil => exact fun t ht => absurd ht List.not_mem_nil
  | cons u rest ih =>
    rw [resolveParamsWith] at h
    obtain ⟨type, env₁, htype, h⟩ := PartialState.bind_eq_some h
    obtain ⟨types, env₂, htypes, -⟩ := PartialState.bind_eq_some h
    intro t ht
    rcases List.mem_cons.1 ht with rfl | ht
    · exact ⟨env, type, env₁, htype⟩
    · exact ih htypes t ht

/-- If resolving returns, it has returned for every alias that is looked up. -/
lemma exists_of_resolveTypeWith {t : TypeExpr} {x : String} {typeExpr : TypeExpr}
    (hx : LooksUp t x) (hname : ctx.lookupTypeAlias x = some typeExpr) {env env' : TypeEnvironment}
    {type : TypeId} (h : resolveTypeWith ctx nameToId resolveAlias t env = some (type, env')) :
    ∃ env₁ type₁ env₂, resolveAlias typeExpr env₁ = some (type₁, env₂) := by
  induction hx generalizing env env' type with
  | var x =>
    rw [resolveTypeWith, hname] at h
    exact ⟨env, type, env', h⟩
  | param ht _ ih =>
    rw [resolveTypeWith] at h
    obtain ⟨types, env₁, htypes, -⟩ := PartialState.bind_eq_some h
    obtain ⟨env₂, type₂, env₃, htype⟩ := exists_of_resolveParamsWith htypes _ ht
    exact ih hname htype
  | returnType _ ih =>
    rw [resolveTypeWith] at h
    obtain ⟨types, env₁, -, h⟩ := PartialState.bind_eq_some h
    obtain ⟨type₂, env₂, htype, -⟩ := PartialState.bind_eq_some h
    exact ih hname htype
  | forallType _ ih =>
    rw [resolveTypeWith] at h
    exact ih hname h

/-- If resolving returns, following aliases ends. -/
lemma ends_of_resolves {depth : ℕ} {t : TypeExpr} {env env' : TypeEnvironment} {type : TypeId}
    (h : resolveTypeWithin ctx nameToId depth t env = some (type, env')) {x : String}
    (hx : LooksUp t x) : Cycles.Ends ctx.LeadsTo x := by
  induction depth generalizing t env env' type x with
  | zero => cases h
  | succ depth ih =>
    refine Cycles.ends_iff.2 ?_
    rintro y ⟨typeExpr, hname, hy⟩
    obtain ⟨env₁, type₁, env₂, halias⟩ := exists_of_resolveTypeWith hx hname h
    exact ih halias hy

lemma finite_looksUp (t : TypeExpr) : {x | LooksUp t x}.Finite := by
  induction t with
  | nullptr => exact Set.finite_empty.subset nofun
  | primitive kind => exact Set.finite_empty.subset nofun
  | universeType level => exact Set.finite_empty.subset nofun
  | container kind t _ => exact Set.finite_empty.subset nofun
  | pair kind t u _ _ => exact Set.finite_empty.subset nofun
  | var name =>
    refine (Set.finite_singleton name).subset fun x hx => ?_
    cases hx with
    | var => rfl
  | arrow params returnType ihp ihr =>
    have hparams := (List.finite_toSet params).biUnion ihp
    refine (hparams.union ihr).subset fun x hx => ?_
    cases hx with
    | param ht hx => exact .inl (Set.mem_biUnion ht hx)
    | returnType hx => exact .inr hx
  | forallType typeVars body ih =>
    refine ih.subset fun x hx => ?_
    cases hx with
    | forallType hx => exact hx

/-- Every depth from some on suffices. -/
def EventuallyReturns (ctx : Context) (nameToId : Std.TreeMap String TypeId) (t : TypeExpr) : Prop :=
  ∀ᶠ depth in Filter.atTop, Returning (resolveTypeWithin ctx nameToId depth t)

lemma eventuallyReturns_of_lookups {t : TypeExpr}
    (h : ∀ x, LooksUp t x → ∀ typeExpr, ctx.lookupTypeAlias x = some typeExpr →
      EventuallyReturns ctx nameToId typeExpr) : EventuallyReturns ctx nameToId t := by
  have hall : ∀ᶠ depth in Filter.atTop, ∀ x ∈ {x | LooksUp t x}, ∀ typeExpr,
      ctx.lookupTypeAlias x = some typeExpr →
        Returning (resolveTypeWithin ctx nameToId depth typeExpr) := by
    rw [Filter.eventually_all_finite (finite_looksUp t)]
    intro x hx
    cases hname : ctx.lookupTypeAlias x with
    | none => exact .of_forall nofun
    | some typeExpr =>
      filter_upwards [h x hx typeExpr hname] with depth hdepth e he
      cases he
      exact hdepth
  obtain ⟨bound, hbound⟩ := Filter.eventually_atTop.1 hall
  refine Filter.eventually_atTop.2 ⟨bound + 1, fun depth hdepth => ?_⟩
  obtain ⟨depth, rfl⟩ : ∃ d, depth = d + 1 := ⟨depth - 1, by omega⟩
  exact resolveTypeWith_returning fun x typeExpr hx hname =>
    hbound depth (by omega) x hx typeExpr hname

lemma eventuallyReturns_of_ends {x : String} (h : Cycles.Ends ctx.LeadsTo x) {typeExpr : TypeExpr}
    (hname : ctx.lookupTypeAlias x = some typeExpr) : EventuallyReturns ctx nameToId typeExpr := by
  induction h generalizing typeExpr with
  | intro x _ ih =>
    exact eventuallyReturns_of_lookups fun y hy e he => ih y ⟨typeExpr, hname, hy⟩ he

lemma finite_leadsTo (ctx : Context) : {x | ∃ y, ctx.LeadsTo x y}.Finite := by
  refine (List.finite_toSet ctx.typeAliases.keys).subset ?_
  rintro x ⟨y, typeExpr, hname, -⟩
  have hmem : x ∈ ctx.typeAliases := Std.TreeMap.mem_iff_isSome_getElem?.2 (by
    rw [Context.lookupTypeAlias] at hname
    rw [hname]
    rfl)
  exact Std.TreeMap.mem_keys.2 hmem

end Resolution

/-- Resolution ends exactly when no alias that it comes upon leads back to itself. -/
lemma resolves_iff (ctx : Context) (nameToId : Std.TreeMap String TypeId) (env : TypeEnvironment)
    (t : TypeExpr) : Resolves ctx nameToId env t ↔ NoAliasCycle ctx t := by
  constructor
  · rintro ⟨depth, type, env', h⟩ x hx
    exact (ends_of_resolves h hx).noCycle
  · intro h
    have hreturns : EventuallyReturns ctx nameToId t :=
      eventuallyReturns_of_lookups fun x hx typeExpr hname =>
        eventuallyReturns_of_ends ((h x hx).ends (finite_leadsTo ctx)) hname
    obtain ⟨depth, hdepth⟩ := Filter.eventually_atTop.1 hreturns
    exact ⟨depth, hdepth depth le_rfl env⟩

/-- Instantiating an alias is substitution without capture, and resolution ends with a type, exactly
when nothing is captured or left over and no alias leads back to itself. -/
theorem aliases_exact (definitions : List AliasDefinition) (nameToId : Std.TreeMap String TypeId)
    (env : TypeEnvironment) (name : String) (args : List TypeExpr) (t : TypeExpr) :
    (InstantiatesCorrectly definitions name args ↔ NoCapture definitions name args) ∧
      (Resolves (contextAfter definitions) nameToId env t ↔
        NoAliasCycle (contextAfter definitions) t) :=
  ⟨instantiatesCorrectly_iff definitions name args, resolves_iff _ nameToId env t⟩

/-- `(define-type (F a) (forall (b) (-> a b)))` binds the variable of an argument `b`, and
`(define-type Loop Loop)` is looked up for ever. -/
theorem capture_and_loop :
    ¬ InstantiatesCorrectly [⟨"F", ["a"], .forallType ["b"] (.arrow [.var "a"] (.var "b"))⟩] "F"
        [.var "b"] ∧
      ¬ Resolves (contextAfter [⟨"Loop", [], .var "Loop"⟩]) ∅ initial (.var "Loop") := by
  constructor
  · rw [instantiatesCorrectly_iff]
    intro h
    have hfree : FreeIn (.forallType ["b"] (.arrow [.var "a"] (.var "b"))) "a" ([] ++ [["b"]]) :=
      .forallType (by decide) (.param List.mem_cons_self (.var "a"))
    have hbound := (h _ rfl "a" _ hfree).2 "b" [] (.var "b") ["b"] List.mem_cons_self
    exact hbound List.mem_cons_self
  · rw [resolves_iff]
    intro h
    have hname : (contextAfter [⟨"Loop", [], .var "Loop"⟩]).lookupTypeAlias "Loop" =
        some (.var "Loop") :=
      lookupTypeAlias_contextAfter _ _
    exact h "Loop" (.var "Loop") "Loop" .refl (.single ⟨_, hname, .var "Loop"⟩)

end Types
