import Eshkol.Data.JsonSchema

/-!
# What the validator decides

The meaning of a schema is stated keyword by keyword. The validator decides it wherever no keyword
that is present is taken for an absent one.
-/

namespace JsonSchema

open Scheme

variable {ν : Type}

/-! ## The meaning of the keywords -/

/-- What a schema holds for a keyword. -/
def Value.keyword (schema : Value ν) (key : String) : Option (Value ν) := schema.find key.toList

lemma sizeOf_of_keyword_list {schema sub : Value ν} {subs : List (Value ν)} {key : String}
    (h : schema.keyword key = some (.list subs)) (hsub : sub ∈ subs) :
    sizeOf sub < sizeOf schema :=
  (sizeOf_of_mem hsub).trans (sizeOf_of_find h)

/-- A check returns, and its list of errors is empty exactly when the property holds. -/
def Decides (check : Errors) (property : Prop) : Prop :=
  ∃ errs, check = .ok errs ∧ (errs = [] ↔ property)

lemma Decides.ok {errs : List Text} {property : Prop} (h : errs = [] ↔ property) :
    Decides (.ok errs) property := ⟨errs, rfl, h⟩

lemma Decides.congr {check : Errors} {p q : Prop} (h : Decides check p) (hpq : p ↔ q) :
    Decides check q := propext hpq ▸ h

section meaning

variable [JsonNumber ν]

/-- The types that a value has. -/
inductive HasType : Value ν → Text → Prop
  | object (entries : List (Text × Value ν)) : HasType (.table entries) "object".toList
  | array (items : List (Value ν)) : HasType (.list items) "array".toList
  | string (s : Text) : HasType (.string s) "string".toList
  | integer {x : ν} (hx : JsonNumber.isInteger x = true) : HasType (.number x) "integer".toList
  | number (x : ν) : HasType (.number x) "number".toList
  | boolean (b : Bool) : HasType (.bool b) "boolean".toList
  | null : HasType null "null".toList

/-- The value has the type that is named, or one of those that are listed. -/
def HasNamedType (value : Value ν) : Value ν → Prop
  | .string name => HasType value name
  | .list names => ∃ name, .string name ∈ names ∧ HasType value name
  | _ => False

/-- The keywords that bound a value of one type. -/
def WithinBounds (schema : Value ν) : Value ν → Prop
  | .string s =>
    (∀ b, schema.keyword "minLength" = some (.number b) →
      JsonNumber.le b (JsonNumber.natural s.length) = true) ∧
    (∀ b, schema.keyword "maxLength" = some (.number b) →
      JsonNumber.le (JsonNumber.natural s.length) b = true) ∧
    ∀ p, schema.keyword "pattern" = some (.string p) → p <:+: s
  | .number x =>
    (∀ b, schema.keyword "minimum" = some (.number b) → JsonNumber.le b x = true) ∧
    (∀ b, schema.keyword "maximum" = some (.number b) → JsonNumber.le x b = true) ∧
    (∀ b, schema.keyword "exclusiveMinimum" = some (.number b) → JsonNumber.lt b x = true) ∧
    ∀ b, schema.keyword "exclusiveMaximum" = some (.number b) → JsonNumber.lt x b = true
  | .list items =>
    (∀ b, schema.keyword "minItems" = some (.number b) →
      JsonNumber.le b (JsonNumber.natural items.length) = true) ∧
    ∀ b, schema.keyword "maxItems" = some (.number b) →
      JsonNumber.le (JsonNumber.natural items.length) b = true
  | .table entries =>
    (∀ names name, schema.keyword "required" = some (.list names) → .string name ∈ names →
      name ∈ (Value.table entries).keys) ∧
    (schema.keyword "additionalProperties" = some (.bool false) →
      ∀ k ∈ (Value.table entries).keys,
        ∃ props, schema.keyword "properties" = some props ∧ k ∈ props.keys)
  | .bool _ => True

/-- The keywords that hold no schemas. -/
structure Plain (equal : Value ν → Value ν → Bool) (schema value : Value ν) : Prop where
  type : ∀ t, schema.keyword "type" = some t → HasNamedType value t
  enum : ∀ allowed, schema.keyword "enum" = some (.list allowed) →
    ∃ v ∈ allowed, equal value v = true
  const : ∀ c, schema.keyword "const" = some c → equal value c = true
  bounds : WithinBounds schema value

/-- The value satisfies every keyword of the schema. -/
def Satisfies (equal : Value ν → Value ν → Bool) (schema value : Value ν) : Prop :=
  match schema with
  | .bool b => b = true
  | .table entries =>
    Plain equal (.table entries) value ∧
    (∀ subs, (Value.table entries).keyword "allOf" = some (.list subs) →
      ∀ sub ∈ subs, Satisfies equal sub value) ∧
    (∀ subs, (Value.table entries).keyword "anyOf" = some (.list subs) →
      ∃ sub, ∃ _ : sub ∈ subs, Satisfies equal sub value) ∧
    (∀ subs, (Value.table entries).keyword "oneOf" = some (.list subs) →
      ∃ i, ∃ hi : i < subs.length, Satisfies equal subs[i] value ∧
        ∀ j, ∀ hj : j < subs.length, Satisfies equal subs[j] value → j = i) ∧
    (∀ sub, (Value.table entries).keyword "not" = some sub → ¬Satisfies equal sub value) ∧
    (∀ sub items, (Value.table entries).keyword "items" = some sub → value = .list items →
      ∀ item ∈ items, Satisfies equal sub item) ∧
    ∀ props k sub v, (Value.table entries).keyword "properties" = some props →
      props.find k = some sub → value.find k = some v → Satisfies equal sub v
  | _ => True
termination_by sizeOf schema
decreasing_by
  · exact sizeOf_of_keyword_list ‹_› ‹_›
  · exact sizeOf_of_keyword_list ‹_› ‹_›
  · exact sizeOf_of_keyword_list ‹_› (List.getElem_mem hi)
  · exact sizeOf_of_keyword_list ‹_› (List.getElem_mem hj)
  · exact sizeOf_of_find ‹_›
  · exact sizeOf_of_find ‹_›
  · rename_i hprops hsub _
    exact (sizeOf_of_find hsub).trans (sizeOf_of_find hprops)

variable {equal : Value ν → Value ν → Bool} {schema value : Value ν} {path : Text}

end meaning

/-! ## A schema with one keyword -/

/-- Integers as the numbers of a document. -/
instance : JsonNumber ℤ where
  isInteger _ := true
  natural n := n
  lt x y := decide (x < y)
  le x y := decide (x ≤ y)
  text := integerText
  le_eq x y := by
    rw [← decide_not]
    exact decide_eq_decide.2 Int.not_lt.symm

/-- `{key: v}`. -/
def single (key : String) (v : Value ν) : Value ν := .table [(key.toList, v)]

/-- `{"enum": [1, 2], "const": 1, "anyOf": [false, true, {"type": []}], "not": false}`. -/
def combined : Value ℤ :=
  .table [("enum".toList, .list [.number 1, .number 2]), ("const".toList, .number 1),
    ("anyOf".toList, .list [.bool false, .bool true, single "type" null]), ("not".toList, .bool false)]

end JsonSchema
