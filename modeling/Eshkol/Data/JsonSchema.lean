import Eshkol.Scheme.Primitives
import Eshkol.Scheme.StringLibrary

/-!
# The JSON Schema validator

Schemas and values are both parsed JSON. JSON `null`, the empty array and the default for a keyword
that is absent are the one value `'()`.
-/

namespace JsonSchema

open Scheme

/-- The numbers that the parser reads. None of them is a NaN: `<=` is the negation of `>`. -/
class JsonNumber (ν : Type) where
  isInteger : ν → Bool
  natural : ℕ → ν
  lt : ν → ν → Bool
  le : ν → ν → Bool
  text : ν → Text
  le_eq : ∀ x y, le x y = !lt y x

/-- A value of `json-parse`; `list []` is `'()`, and the pairs of a table are its entries. -/
inductive Value (ν : Type) where
  | bool (b : Bool)
  | number (x : ν)
  | string (s : Text)
  | list (items : List (Value ν))
  | table (entries : List (Text × Value ν))

/-- What ends a validation without a list of errors: an operation on a value of another type. -/
inductive Fault where
  | wrongType
deriving DecidableEq

variable {ν : Type}

/-- `'()`. -/
abbrev null : Value ν := .list []

/-- `null?`. -/
def Value.isNull : Value ν → Bool
  | .list [] => true
  | _ => false

/-- The entries of a hash table, none for another value. -/
def Value.entries : Value ν → List (Text × Value ν)
  | .table entries => entries
  | _ => []

/-- The value that a table holds for a key. -/
def Value.find (table : Value ν) (key : Text) : Option (Value ν) := table.entries.lookup key

/-- `hash-table-contains?`. -/
def Value.contains (table : Value ν) (key : Text) : Bool := (table.find key).isSome

/-- `hash-table-keys`. -/
def Value.keys (table : Value ν) : List Text := table.entries.map Prod.fst

/-- `hash-table-ref`. -/
def Value.ref (table : Value ν) (key : Text) (default : Value ν) : Value ν :=
  (table.find key).getD default

/-- `s-get`. -/
def sGet (schema : Value ν) (key : String) (default : Value ν) : Value ν :=
  schema.ref key.toList default

/-- `path-extend`. -/
def pathExtend (path segment : Text) : Text := path ++ '/' :: segment

/-- `mkerr`. -/
def mkerr (path : Text) (msg : Text) : Text := path ++ ": ".toList ++ msg

/-- A list of error strings. -/
abbrev Errors := Except Fault (List Text)

/-- An error when a check fails. -/
def errorWhen (failed : Bool) (path msg : Text) : List Text :=
  if failed then [mkerr path msg] else []

/-! ## Types, constants and bounds -/

section leaves

variable [JsonNumber ν]

/-- `jsv-type-name`. -/
def jsvTypeName : Value ν → Text
  | .bool _ => "boolean".toList
  | .list [] => "null".toList
  | .number x => if JsonNumber.isInteger x then "integer".toList else "number".toList
  | .string _ => "string".toList
  | .table _ => "object".toList
  | .list (_ :: _) => "array".toList

/-- `jsv-is-integer?`. -/
def jsvIsInteger : Value ν → Bool
  | .number x => JsonNumber.isInteger x
  | _ => false

/-- `jsv-matches-type?`. -/
def jsvMatchesType (v : Value ν) (type : Text) : Bool :=
  if type = "object".toList then v matches .table _
  else if type = "array".toList then v matches .list _
  else if type = "string".toList then v matches .string _
  else if type = "integer".toList then jsvIsInteger v
  else if type = "number".toList then v matches .number _
  else if type = "boolean".toList then v matches .bool _
  else if type = "null".toList then v.isNull
  else false

/-- The strings of a list of type names. -/
def typeName : Value ν → Except Fault Text
  | .string s => .ok s
  | _ => .error .wrongType

/-- The `any` of `check-type`, which stops at the first type that matches. -/
def anyType (value : Value ν) : List (Value ν) → Except Fault Bool
  | [] => .ok false
  | t :: rest => do
    if jsvMatchesType value (← typeName t) then return true
    else anyType value rest

/-- `check-type`. -/
def checkType (schema value : Value ν) (path : Text) : Errors :=
  match sGet schema "type" null with
  | .list [] => .ok []
  | .string t => .ok <| errorWhen (!jsvMatchesType value t) path
      ("expected ".toList ++ t ++ ", got ".toList ++ jsvTypeName value)
  | .list types => do
    if ← anyType value types then return []
    else
      let names ← types.mapM typeName
      return [mkerr path ("expected one of [".toList ++ ", ".toList.intercalate names ++
        "], got ".toList ++ jsvTypeName value)]
  | .table _ => .error .wrongType
  | .number _ => .ok []
  | .bool _ => .ok []

/-- `check-enum`. -/
def checkEnum (equal : Value ν → Value ν → Bool) (schema value : Value ν) (path : Text) :
    Errors :=
  match sGet schema "enum" null with
  | .list [] => .ok []
  | .list allowed =>
    .ok <| errorWhen (!allowed.any (equal value)) path "value not in `enum`".toList
  | _ => .error .wrongType

/-- `check-const`; its default is a symbol, which no document holds. -/
def checkConst (equal : Value ν → Value ν → Bool) (schema value : Value ν) (path : Text) :
    Errors :=
  match schema.find "const".toList with
  | none => .ok []
  | some c => .ok <| errorWhen (!equal value c) path "value does not match `const`".toList

/-- A bound that is an integer, compared with a length. -/
def lengthRule (bound : Value ν) (fails : ν → Bool) (path message : Text) : List Text :=
  match bound with
  | .number b =>
    errorWhen (JsonNumber.isInteger b && fails b) path (message ++ JsonNumber.text b)
  | _ => []

/-- A bound that is a number, compared with a number. -/
def numberRule (bound : Value ν) (fails : ν → Bool) (path message : Text) : List Text :=
  match bound with
  | .number b => errorWhen (fails b) path (message ++ JsonNumber.text b)
  | _ => []

/-- The rule for `pattern`: the string that it holds is contained. -/
def patternRule (pat : Value ν) (value path : Text) : List Text :=
  match pat with
  | .string p =>
    if p.length = 0 then []
    else errorWhen (!stringContains value p) path
      ("string does not contain pattern \"".toList ++ p ++ "\"".toList)
  | _ => []

/-- `check-string-rules`. -/
def checkStringRules (schema : Value ν) (value path : Text) : List Text :=
  let minl := sGet schema "minLength" null
  let maxl := sGet schema "maxLength" null
  let pat := sGet schema "pattern" null
  let n : ν := JsonNumber.natural value.length
  lengthRule minl (fun b => JsonNumber.lt n b) path "string shorter than minLength=".toList ++
  lengthRule maxl (fun b => JsonNumber.lt b n) path "string longer than maxLength=".toList ++
  patternRule pat value path

/-- `check-number-rules`. -/
def checkNumberRules (schema : Value ν) (value : ν) (path : Text) : List Text :=
  let mi := sGet schema "minimum" null
  let ma := sGet schema "maximum" null
  let xmi := sGet schema "exclusiveMinimum" null
  let xma := sGet schema "exclusiveMaximum" null
  numberRule mi (fun b => JsonNumber.lt value b) path "value < minimum=".toList ++
  numberRule ma (fun b => JsonNumber.lt b value) path "value > maximum=".toList ++
  numberRule xmi (fun b => JsonNumber.le value b) path "value <= exclusiveMinimum=".toList ++
  numberRule xma (fun b => JsonNumber.le b value) path "value >= exclusiveMaximum=".toList

/-- `check-required`. -/
def checkRequired (required : Value ν) (value : Value ν) (path : Text) : Errors :=
  match required with
  | .list names => do
    let errs ← names.mapM fun name => do
      let k ← typeName name
      return if value.contains k then [] else
        [mkerr (pathExtend path k) "missing required property".toList]
    return errs.flatten
  | .table _ => .error .wrongType
  | _ => .ok []

/-- `check-additional`. -/
def checkAdditional (props additional value : Value ν) (path : Text) : List Text :=
  match additional, props with
  | .bool false, .table _ =>
    value.keys.flatMap fun k =>
      if props.keys.contains k then [] else
        [mkerr (pathExtend path k) "additional property not allowed".toList]
  | _, _ => []

end leaves

/-! ## Schemas inside schemas -/

lemma mem_of_find {table sub : Value ν} {key : Text} (h : table.find key = some sub) :
    (key, sub) ∈ table.entries := by
  obtain ⟨before, after, hentries, -⟩ := List.lookup_eq_some_iff.1 h
  simp [hentries]

lemma sizeOf_of_mem {items : List (Value ν)} {item : Value ν} (h : item ∈ items) :
    sizeOf item < sizeOf (Value.list items) := by
  have := List.sizeOf_lt_of_mem h
  simp only [Value.list.sizeOf_spec]
  omega

lemma sizeOf_of_find {table sub : Value ν} {key : Text} (h : table.find key = some sub) :
    sizeOf sub < sizeOf table := by
  cases table with
  | table entries =>
    have := List.sizeOf_lt_of_mem (mem_of_find h)
    simp only [Value.entries, Value.table.sizeOf_spec, Prod.mk.sizeOf_spec] at this ⊢
    omega
  | _ => simp [Value.find, Value.entries] at h

/-- What a keyword holds, unless it is absent or `'()`, is smaller than its schema. -/
lemma sizeOf_of_sGet {schema v : Value ν} {key : String} (h : sGet schema key null = v)
    (hv : v.isNull = false) : sizeOf v < sizeOf schema := by
  subst h
  unfold sGet Value.ref at hv ⊢
  cases hfind : schema.find key.toList with
  | none => simp [hfind, Value.isNull] at hv
  | some sub => exact sizeOf_of_find hfind

lemma sizeOf_of_mem_sGet {schema sub : Value ν} {subs : List (Value ν)} {key : String}
    (h : sGet schema key null = .list subs) (hsub : sub ∈ subs) : sizeOf sub < sizeOf schema := by
  have hlist : (Value.list subs).isNull = false := by
    cases subs with
    | nil => simp at hsub
    | cons => rfl
  exact (sizeOf_of_mem hsub).trans (sizeOf_of_sGet h hlist)

lemma sizeOf_list_of_sGet {schema sub : Value ν} {subs : List (Value ν)} {key : String}
    (h : sGet schema key null = .list (sub :: subs)) :
    sizeOf (sub :: subs) < sizeOf schema := by
  have := sizeOf_of_sGet h rfl
  simp only [Value.list.sizeOf_spec] at this
  omega

lemma exists_find_of_mem_keys {table : Value ν} {key : Text} (h : key ∈ table.keys) :
    ∃ sub, table.find key = some sub := by
  rw [← Option.isSome_iff_exists, Value.find, List.lookup_isSome_iff]
  obtain ⟨entry, hentry, rfl⟩ := List.mem_map.1 h
  exact ⟨entry, hentry, beq_self_eq_true entry.1⟩

lemma sizeOf_ref {props : Value ν} {key : Text} (h : key ∈ props.keys) :
    sizeOf (props.ref key null) < sizeOf props := by
  obtain ⟨sub, hsub⟩ := exists_find_of_mem_keys h
  rw [Value.ref, hsub]
  exact sizeOf_of_find hsub

section validate

variable [JsonNumber ν] (equal : Value ν → Value ν → Bool)

mutual

/-- `validate`. -/
def validate (schema value : Value ν) (path : Text) : Errors :=
  match schema with
  | .bool true => .ok []
  | .bool false => .ok [mkerr path "schema is `false` — value rejected".toList]
  | .table entries => do
    let typeErrs ← checkType (.table entries) value path
    let enumErrs ← checkEnum equal (.table entries) value path
    let constErrs ← checkConst equal (.table entries) value path
    let comboErrs ← checkCombinators (.table entries) value path
    let ruleErrs ← checkRules (.table entries) value path
    return typeErrs ++ enumErrs ++ constErrs ++ comboErrs ++ ruleErrs
  | _ => .ok []
termination_by (sizeOf schema, 4)

/-- The string, number, array and object rules of `validate`, each for the values of its type. -/
def checkRules (schema value : Value ν) (path : Text) : Errors :=
  match value with
  | .string s => .ok (checkStringRules schema s path)
  | .number x => .ok (checkNumberRules schema x path)
  | .list items => checkArrayRules schema items path
  | .table entries => checkObjectRules schema (.table entries) path
  | .bool _ => .ok []
termination_by (sizeOf schema, 3)

/-- `check-combinators`. -/
def checkCombinators (schema value : Value ν) (path : Text) : Errors := do
  let allErrs ← checkAllof schema value path
  let anyErrs ← checkAnyof schema value path
  let oneErrs ← checkOneof schema value path
  let notErrs ← checkNot schema value path
  return allErrs ++ anyErrs ++ oneErrs ++ notErrs
termination_by (sizeOf schema, 2)

/-- `check-allof`. -/
def checkAllof (schema value : Value ν) (path : Text) : Errors :=
  match _h : sGet schema "allOf" null with
  | .list subs => do
    let errs ← subs.attach.mapM fun ⟨sub, _⟩ => validate sub value path
    return errs.flatten
  | _ => .error .wrongType
termination_by (sizeOf schema, 1)
decreasing_by exact Prod.Lex.left _ _ (sizeOf_of_mem_sGet _h ‹_›)

/-- `check-anyof`. -/
def checkAnyof (schema value : Value ν) (path : Text) : Errors :=
  match _h : sGet schema "anyOf" null with
  | .list [] => .ok []
  | .list (sub :: subs) => do
    let found ← anyMatching (sub :: subs) value path
    return errorWhen (!found) path "did not match any subschema in `anyOf`".toList
  | _ => .error .wrongType
termination_by (sizeOf schema, 1)
decreasing_by exact Prod.Lex.left _ _ (sizeOf_list_of_sGet _h)

/-- The `any` of `check-anyof`. -/
def anyMatching (subs : List (Value ν)) (value : Value ν) (path : Text) : Except Fault Bool :=
  match subs with
  | [] => .ok false
  | sub :: rest => do
    let errs ← validate sub value path
    if errs.isEmpty then return true else anyMatching rest value path
termination_by (sizeOf subs, 0)

/-- `count-matching`, its loop from `n` on. -/
def countMatching (subs : List (Value ν)) (n : ℕ) (value : Value ν) (path : Text) :
    Except Fault ℕ :=
  match subs with
  | [] => .ok n
  | sub :: rest => do
    let errs ← validate sub value path
    countMatching rest (if errs.isEmpty then n + 1 else n) value path
termination_by (sizeOf subs, 0)

/-- `check-oneof`. -/
def checkOneof (schema value : Value ν) (path : Text) : Errors :=
  match _h : sGet schema "oneOf" null with
  | .list [] => .ok []
  | .list (sub :: subs) => do
    let n ← countMatching (sub :: subs) 0 value path
    if n = 1 then return []
    else if n = 0 then return [mkerr path "matched no subschema in `oneOf`".toList]
    else return [mkerr path ("matched ".toList ++ integerText n ++
      " subschemas in `oneOf` (expected 1)".toList)]
  | _ => .error .wrongType
termination_by (sizeOf schema, 1)
decreasing_by exact Prod.Lex.left _ _ (sizeOf_list_of_sGet _h)

/-- `check-not`. -/
def checkNot (schema value : Value ν) (path : Text) : Errors :=
  if _h : (sGet schema "not" null).isNull then .ok []
  else do
    let errs ← validate (sGet schema "not" null) value path
    return errorWhen errs.isEmpty path "value matched `not` subschema".toList
termination_by (sizeOf schema, 1)
decreasing_by exact Prod.Lex.left _ _ (sizeOf_of_sGet rfl (Bool.eq_false_of_not_eq_true _h))

/-- `check-array-rules`. -/
def checkArrayRules (schema : Value ν) (items : List (Value ν)) (path : Text) : Errors := do
  let n := items.length
  let minErrs := lengthRule (sGet schema "minItems" null) (JsonNumber.lt (JsonNumber.natural n))
    path ("array length ".toList ++ integerText n ++ " < minItems=".toList)
  let maxErrs := lengthRule (sGet schema "maxItems" null) (JsonNumber.lt · (JsonNumber.natural n))
    path ("array length ".toList ++ integerText n ++ " > maxItems=".toList)
  let itemErrs ← match _h : sGet schema "items" null with
    | .table entries => validateArrayItems (.table entries) items path 0
    | _ => .ok []
  return minErrs ++ maxErrs ++ itemErrs
termination_by (sizeOf schema, 2)
decreasing_by exact Prod.Lex.left _ _ (sizeOf_of_sGet _h rfl)

/-- `validate-array-items`. -/
def validateArrayItems (itemSchema : Value ν) (items : List (Value ν)) (path : Text) (idx : ℕ) :
    Errors :=
  match items with
  | [] => .ok []
  | item :: rest => do
    let headErrs ← validate itemSchema item (pathExtend path (integerText idx))
    let restErrs ← validateArrayItems itemSchema rest path (idx + 1)
    return headErrs ++ restErrs
termination_by (sizeOf itemSchema, 5 + items.length)

/-- `check-object-rules`. -/
def checkObjectRules (schema value : Value ν) (path : Text) : Errors := do
  let props := sGet schema "properties" null
  let required := sGet schema "required" null
  let additional := sGet schema "additionalProperties" (.bool true)
  let requiredErrs ← checkRequired required value path
  let propertyErrs ← match _h : sGet schema "properties" null with
    | .table entries => checkProperties (.table entries) value path
    | _ => .ok []
  return requiredErrs ++ propertyErrs ++ checkAdditional props additional value path
termination_by (sizeOf schema, 2)
decreasing_by exact Prod.Lex.left _ _ (sizeOf_of_sGet _h rfl)

/-- `check-properties` of a table of schemas. -/
def checkProperties (props value : Value ν) (path : Text) : Errors := do
  let errs ← props.keys.attach.mapM fun ⟨k, _⟩ =>
    if value.contains k then
      validate (props.ref k null) (value.ref k null) (pathExtend path k)
    else .ok []
  return errs.flatten
termination_by (sizeOf props, 5)
decreasing_by exact Prod.Lex.left _ _ (sizeOf_ref ‹_›)

end

end validate

end JsonSchema
