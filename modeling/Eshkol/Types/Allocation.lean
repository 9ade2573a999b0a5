import Eshkol.Types.Environment
import Mathlib.Data.Finset.Card

/-!
# Allocation of type ids

User-defined types, pair types and function types each take their ids from a counter of their own,
from 1000, 300 and 500 on, in one 16-bit space. The counters do not look at each other: the ids are
those of different types exactly when no counter has run into the ids of another family or past the
end of the space.
-/

namespace Types

open Interning

/-! ## Runs of registrations -/

/-- A call of `registerUserType`, `makePairType` or `makeFunctionType`. -/
inductive Registration where
  | userType (name : String) (level : Universe) (flags : UInt8) (supertype : Option TypeId)
  | pairType (carType cdrType : TypeId)
  | functionType (paramTypes : List TypeId) (returnType : TypeId) (isVariadic : Bool)

def register (env : TypeEnvironment) : Registration → TypeId × TypeEnvironment
  | .userType name level flags supertype => env.registerUserType name level flags supertype
  | .pairType carType cdrType => env.makePairType carType cdrType
  | .functionType paramTypes returnType isVariadic => env.makeFunctionType paramTypes returnType isVariadic

/-- The ids that the calls return, and the environment after them. -/
def registerAll (env : TypeEnvironment) : List Registration → List TypeId × TypeEnvironment
  | [] => ([], env)
  | r :: rs =>
    let (ids, env') := registerAll (register env r).2 rs
    ((register env r).1 :: ids, env')

/-- The ids that the calls return in a new environment. -/
def idsOf (rs : List Registration) : List TypeId := (registerAll initial rs).1

/-- The environment after the calls. -/
@[grind =]
def envOf (rs : List Registration) : TypeEnvironment := (registerAll initial rs).2

lemma registerAll_snoc (env : TypeEnvironment) (rs : List Registration) (r : Registration) :
    registerAll env (rs ++ [r]) = ((registerAll env rs).1 ++ [(register (registerAll env rs).2 r).1],
      (register (registerAll env rs).2 r).2) := by
  induction rs generalizing env with
  | nil => rfl
  | cons r' rs ih =>
    rw [List.cons_append, registerAll, ih]
    rfl

lemma idsOf_snoc (rs : List Registration) (r : Registration) :
    idsOf (rs ++ [r]) = idsOf rs ++ [(register (envOf rs) r).1] := by
  rw [idsOf, registerAll_snoc]
  rfl

lemma envOf_snoc (rs : List Registration) (r : Registration) :
    envOf (rs ++ [r]) = (register (envOf rs) r).2 := by
  rw [envOf, registerAll_snoc]
  rfl

lemma idsOf_append (rs rs' : List Registration) : idsOf rs <+: idsOf (rs ++ rs') := by
  induction rs' using List.reverseRecOn with
  | nil => rw [List.append_nil]
  | append_singleton rs' r ih =>
    rw [← List.append_assoc, idsOf_snoc]
    exact ih.trans (List.prefix_append _ _)

@[simp] lemma length_idsOf (rs : List Registration) : (idsOf rs).length = rs.length := by
  induction rs using List.reverseRecOn with
  | nil => rfl
  | append_singleton rs r ih => simp [idsOf_snoc, ih]

/-! ## Which types are the same -/

/-- The families of ids. -/
inductive Family where
  | user | pair | function
  deriving DecidableEq

/-- Where the counter of a family starts. -/
def Family.start : Family → ℕ
  | .user => 1000
  | .pair => 300
  | .function => 500

/-- What makes a type the one it is: its components, for a user-defined type the call that made
it. -/
inductive Key where
  | user (call : ℕ)
  | pair (carType cdrType : UInt16)
  | function (paramTypes : List UInt16) (returnType : UInt16) (isVariadic : Bool)
  deriving DecidableEq

def Key.family : Key → Family
  | .user _ => .user
  | .pair _ _ => .pair
  | .function _ _ _ => .function

/-- The type that call number `n` registers. -/
def Registration.key (n : ℕ) : Registration → Key
  | .userType _ _ _ _ => .user n
  | .pairType carType cdrType => .pair carType.id cdrType.id
  | .functionType paramTypes returnType isVariadic =>
    .function (paramTypes.map TypeId.id) returnType.id isVariadic

@[grind =]
def keysOf (rs : List Registration) : List Key := rs.mapIdx fun n r => r.key n

lemma keysOf_snoc (rs : List Registration) (r : Registration) :
    keysOf (rs ++ [r]) = keysOf rs ++ [r.key rs.length] := by
  simp [keysOf]

@[simp] lemma length_keysOf (rs : List Registration) : (keysOf rs).length = rs.length := by
  simp [keysOf]

/-- How many types of the family the calls register. -/
def count (f : Family) (rs : List Registration) : ℕ :=
  ((keysOf rs).filter (·.family = f)).toFinset.card

/-! ## The calls of one family -/

/-- The types of a family have the numbers from its start on, in the order of the list. -/
structure Numbered (rs : List Registration) (f : Family) (keys : List Key) : Prop where
  nodup : keys.Nodup
  mem_iff : ∀ k, k ∈ keys ↔ k ∈ keysOf rs ∧ k.family = f
  number : ∀ (i : ℕ) (k : Key) (id : TypeId), (keysOf rs)[i]? = some k → k.family = f →
    (idsOf rs)[i]? = some id → ∃ n, id.id = UInt16.ofNat (f.start + n) ∧ keys[n]? = some k

variable {rs : List Registration} {r : Registration} {f g : Family} {keys keys' : List Key}

lemma Numbered.nil (f : Family) : Numbered [] f [] := ⟨List.nodup_nil, by simp [keysOf], by simp [keysOf]⟩

lemma Numbered.length_eq (h : Numbered rs f keys) : keys.length = count f rs := by
  rw [count, ← List.toFinset_card_of_nodup h.nodup]
  congr 1
  ext k
  simp [h.mem_iff]

/-- A call of another family. -/
lemma Numbered.other (h : Numbered rs f keys) (hr : (r.key rs.length).family ≠ f) :
    Numbered (rs ++ [r]) f keys := by
  refine ⟨h.nodup, fun k => ?_, fun i k id hk hf hid => ?_⟩
  · rw [h.mem_iff, keysOf_snoc, List.mem_append, List.mem_singleton]
    constructor
    · exact fun hk => ⟨.inl hk.1, hk.2⟩
    · rintro ⟨hk | rfl, hf⟩
      · exact ⟨hk, hf⟩
      · exact absurd hf hr
  · rw [keysOf_snoc] at hk
    rw [idsOf_snoc] at hid
    by_cases hi : i < rs.length
    · rw [List.getElem?_append_left (by simpa using hi)] at hk hid
      exact h.number i k id hk hf hid
    · rw [List.getElem?_append_right (by simpa using hi)] at hk
      obtain rfl : k = r.key rs.length := by
        have := List.mem_of_getElem? hk
        simpa using this
      exact absurd hf hr

/-- A call of the family. -/
lemma Numbered.snoc (h : Numbered rs f keys) (hr : (r.key rs.length).family = f)
    (hfront : keys <+: keys') (hnodup : keys'.Nodup)
    (hmem : ∀ k, k ∈ keys' ↔ k ∈ keys ∨ k = r.key rs.length)
    (hnumber : ∃ n, (register (envOf rs) r).1.id = UInt16.ofNat (f.start + n) ∧
      keys'[n]? = some (r.key rs.length)) : Numbered (rs ++ [r]) f keys' := by
  refine ⟨hnodup, fun k => ?_, fun i k id hk hf hid => ?_⟩
  · rw [hmem, h.mem_iff, keysOf_snoc, List.mem_append, List.mem_singleton]
    constructor
    · rintro (hk | rfl)
      · exact ⟨.inl hk.1, hk.2⟩
      · exact ⟨.inr rfl, hr⟩
    · rintro ⟨hk | rfl, hf⟩
      · exact .inl ⟨hk, hf⟩
      · exact .inr rfl
  · rw [keysOf_snoc] at hk
    rw [idsOf_snoc] at hid
    by_cases hi : i < rs.length
    · rw [List.getElem?_append_left (by simpa using hi)] at hk hid
      obtain ⟨n, hn, hkn⟩ := h.number i k id hk hf hid
      obtain ⟨rest, rfl⟩ := hfront
      refine ⟨n, hn, ?_⟩
      rw [List.getElem?_append_left (List.getElem?_eq_some_iff.1 hkn).1, hkn]
    · rw [List.getElem?_append_right (by simpa using hi)] at hk hid
      obtain rfl : k = r.key rs.length := by
        have := List.mem_of_getElem? hk
        simpa using this
      obtain rfl : id = (register (envOf rs) r).1 := by
        have := List.mem_of_getElem? hid
        simpa using this
      exact hnumber

/-- Calls that register the same type get the same id, calls that register others do not. -/
lemma Numbered.id_eq_iff (h : Numbered rs f keys) (hfits : f.start + count f rs ≤ 65536) {i j : ℕ}
    {k k' : Key} {id id' : TypeId} (hk : (keysOf rs)[i]? = some k) (hk' : (keysOf rs)[j]? = some k')
    (hf : k.family = f) (hf' : k'.family = f) (hid : (idsOf rs)[i]? = some id)
    (hid' : (idsOf rs)[j]? = some id') : id.id = id'.id ↔ k = k' := by
  obtain ⟨n, hn, hkn⟩ := h.number i k id hk hf hid
  obtain ⟨n', hn', hkn'⟩ := h.number j k' id' hk' hf' hid'
  have hlt : n < keys.length := (List.getElem?_eq_some_iff.1 hkn).1
  have hlt' : n' < keys.length := (List.getElem?_eq_some_iff.1 hkn').1
  rw [← h.length_eq] at hfits
  rw [hn, hn', ← UInt16.toNat_inj, toNat_number (by omega), toNat_number (by omega), Nat.add_right_inj]
  constructor
  · rintro rfl
    exact Option.some.inj (hkn.symm.trans hkn')
  · rintro rfl
    exact (List.getElem?_inj hlt h.nodup).1 (hkn.trans hkn'.symm)

lemma count_snoc (f : Family) (rs : List Registration) (r : Registration) :
    count f rs ≤ count f (rs ++ [r]) := by
  refine Finset.card_le_card fun k => ?_
  simp only [keysOf_snoc, List.mem_toFinset, List.mem_filter, List.mem_append]
  exact fun hk => ⟨.inl hk.1, hk.2⟩

lemma count_snoc_of_new (hr : (r.key rs.length).family = f) (hnew : r.key rs.length ∉ keysOf rs) :
    count f (rs ++ [r]) = count f rs + 1 := by
  rw [count, count, keysOf_snoc, List.filter_append, List.filter_singleton, decide_eq_true hr,
    List.toFinset_append]
  refine (Finset.card_union_of_disjoint ?_).trans (by simp)
  simp [hnew]

lemma count_snoc_of_old (h : (r.key rs.length).family = f → r.key rs.length ∈ keysOf rs) :
    count f (rs ++ [r]) = count f rs := by
  refine congrArg Finset.card ?_
  ext k
  simp only [keysOf_snoc, List.mem_toFinset, List.mem_filter, List.mem_append, List.mem_singleton,
    decide_eq_true_eq]
  constructor
  · rintro ⟨hk | rfl, hf⟩
    · exact ⟨hk, hf⟩
    · exact ⟨h hf, hf⟩
  · exact fun hk => ⟨.inl hk.1, hk.2⟩

/-- The call that takes a family past a number of types. -/
lemma exists_call_of_lt_count {n : ℕ} (h : n < count f rs) :
    ∃ rs₁ r rs₂, rs = rs₁ ++ [r] ++ rs₂ ∧ count f rs₁ = n ∧ (r.key rs₁.length).family = f ∧
      r.key rs₁.length ∉ keysOf rs₁ := by
  induction rs using List.reverseRecOn with
  | nil => simp [count, keysOf] at h
  | append_singleton rs r ih =>
    by_cases hlt : n < count f rs
    · obtain ⟨rs₁, r₁, rs₂, rfl, h₁⟩ := ih hlt
      exact ⟨rs₁, r₁, rs₂ ++ [r], by simp, h₁⟩
    · by_cases hnew : (r.key rs.length).family = f ∧ r.key rs.length ∉ keysOf rs
      · rw [count_snoc_of_new hnew.1 hnew.2] at h
        exact ⟨rs, r, [], by simp, by omega, hnew⟩
      · rw [count_snoc_of_old fun hf => not_not.1 fun hmem => hnew ⟨hf, hmem⟩] at h
        exact absurd h hlt

/-- A number of a family is the id of a call. -/
lemma Numbered.call (h : Numbered rs f keys) {n : ℕ} {k : Key} (hk : keys[n]? = some k) :
    k.family = f ∧ ∃ (i : ℕ) (id : TypeId), (keysOf rs)[i]? = some k ∧ (idsOf rs)[i]? = some id ∧
      id.id = UInt16.ofNat (f.start + n) := by
  obtain ⟨hmem, hf⟩ := (h.mem_iff k).1 (List.mem_of_getElem? hk)
  obtain ⟨i, hi⟩ := List.mem_iff_getElem?.1 hmem
  have hlt : i < (idsOf rs).length := by
    rw [length_idsOf, ← length_keysOf]
    exact (List.getElem?_eq_some_iff.1 hi).1
  have hid := List.getElem?_eq_getElem hlt
  obtain ⟨m, hm, hkm⟩ := h.number i k _ hi hf hid
  have hmn : n = m :=
    (List.getElem?_inj (List.getElem?_eq_some_iff.1 hk).1 h.nodup).1 (hk.trans hkm.symm)
  subst hmn
  exact ⟨hf, i, _, hi, hid, hm⟩

/-! ## The caches -/

namespace TypeEnvironment

variable (env : TypeEnvironment) (node : TypeNode)

@[simp] lemma addNode_pairElementCache : (env.addNode node).pairElementCache = env.pairElementCache := by
  rw [addNode]
  cases node.supertype <;> rfl

@[simp] lemma addNode_nextPairTypeId : (env.addNode node).nextPairTypeId = env.nextPairTypeId := by
  rw [addNode]
  cases node.supertype <;> rfl

@[simp] lemma addNode_functionTypeCache : (env.addNode node).functionTypeCache = env.functionTypeCache := by
  rw [addNode]
  cases node.supertype <;> rfl

@[simp] lemma addNode_nextFunctionTypeId : (env.addNode node).nextFunctionTypeId = env.nextFunctionTypeId := by
  rw [addNode]
  cases node.supertype <;> rfl

@[simp] lemma addNode_nextUserId : (env.addNode node).nextUserId = env.nextUserId := by
  rw [addNode]
  cases node.supertype <;> rfl

@[simp] lemma addNode_subtypeCache : (env.addNode node).subtypeCache = env.subtypeCache := by
  rw [addNode]
  cases node.supertype <;> rfl

/-- What registration leaves alone. -/
lemma foldl_addNode (nodes : List TypeNode) :
    (nodes.foldl addNode env).pairElementCache = env.pairElementCache ∧
      (nodes.foldl addNode env).nextPairTypeId = env.nextPairTypeId ∧
      (nodes.foldl addNode env).functionTypeCache = env.functionTypeCache ∧
      (nodes.foldl addNode env).nextFunctionTypeId = env.nextFunctionTypeId ∧
      (nodes.foldl addNode env).nextUserId = env.nextUserId ∧
      (nodes.foldl addNode env).subtypeCache = env.subtypeCache := by
  induction nodes generalizing env with
  | nil => exact ⟨rfl, rfl, rfl, rfl, rfl, rfl⟩
  | cons node nodes ih => simpa using ih (env.addNode node)

end TypeEnvironment

def pairKey (elements : TypeId × TypeId) : Key := .pair elements.1.id elements.2.id

def functionKey (signature : PiFunctionType) : Key :=
  .function (signature.params.map fun p => p.type.id) signature.returnType.id signature.isVariadic

lemma params_all_beq {params : List Parameter} {types : List TypeId}
    (hlen : params.length = types.length) :
    ((params.zip types).all fun (p, t) => p.type == t) = true ↔
      params.map (fun p => p.type.id) = types.map TypeId.id := by
  induction params generalizing types with
  | nil =>
    cases types with
    | nil => simp
    | cons t ts => cases hlen
  | cons p params ih =>
    cases types with
    | nil => cases hlen
    | cons t ts =>
      rw [List.zip_cons_cons, List.all_cons, Bool.and_eq_true, ih (by simpa using hlen)]
      simp

/-- The search of `makePairType` compares components. -/
lemma pairFound (carType cdrType : TypeId) (elements : TypeId × TypeId) :
    (elements.1 == carType && elements.2 == cdrType) = true ↔
      pairKey elements = pairKey (carType, cdrType) := by
  simp [pairKey]

lemma functionKey_make (paramTypes : List TypeId) (returnType : TypeId) (isVariadic : Bool) (n : ℕ) :
    functionKey (.make paramTypes returnType isVariadic) =
      (Registration.functionType paramTypes returnType isVariadic).key n := by
  simp [functionKey, PiFunctionType.make, Registration.key, Function.comp_def]

/-- The search of `makeFunctionType` compares components. -/
lemma functionFound (paramTypes : List TypeId) (returnType : TypeId) (isVariadic : Bool)
    (signature : PiFunctionType) : signature.hasTypes paramTypes returnType isVariadic = true ↔
      functionKey signature = functionKey (.make paramTypes returnType isVariadic) := by
  rw [functionKey_make _ _ _ 0, functionKey, Registration.key, Key.function.injEq, PiFunctionType.hasTypes]
  simp only [Bool.and_eq_true, typeId_beq, beq_iff_eq]
  constructor
  · rintro ⟨⟨⟨hreturn, hlen⟩, hvariadic⟩, hall⟩
    exact ⟨(params_all_beq hlen).1 hall, hreturn, hvariadic⟩
  · rintro ⟨hparams, hreturn, hvariadic⟩
    have hlen : signature.params.length = paramTypes.length := by
      simpa using congrArg List.length hparams
    exact ⟨⟨⟨hreturn, hlen⟩, hvariadic⟩, (params_all_beq hlen).2 hparams⟩

/-- The pair types, in the order of their ids. -/
lemma exists_pairs (hfits : 300 + count .pair rs ≤ 65536) :
    ∃ pairs, Interned pairKey 300 (envOf rs).pairElementCache (envOf rs).nextPairTypeId pairs ∧
      Numbered rs .pair (pairs.map pairKey) := by
  induction rs using List.reverseRecOn with
  | nil =>
    obtain ⟨hcache, hnext, -⟩ := emptyEnvironment.foldl_addNode builtinTypes
    refine ⟨[], ?_, .nil _⟩
    rw [envOf, registerAll, initial, hcache, hnext]
    exact .empty pairKey (by decide)
  | append_singleton rs r ih =>
    have hmono := count_snoc .pair rs r
    obtain ⟨pairs, hinterned, hnumbered⟩ := ih (by omega)
    rw [envOf_snoc]
    cases r with
    | userType name level flags supertype =>
      refine ⟨pairs, ?_, hnumbered.other (by simp [Registration.key, Key.family])⟩
      simpa [register, TypeEnvironment.registerUserType] using hinterned
    | functionType paramTypes returnType isVariadic =>
      exact ⟨pairs, hinterned, hnumbered.other (by simp [Registration.key, Key.family])⟩
    | pairType carType cdrType =>
      have hroom : pairKey (carType, cdrType) ∉ pairs.map pairKey → 300 + pairs.length < 65536 := by
        intro hnew
        rw [hnumbered.mem_iff] at hnew
        have hcount : count .pair (rs ++ [.pairType carType cdrType]) = count .pair rs + 1 :=
          count_snoc_of_new rfl fun hmem => hnew ⟨hmem, rfl⟩
        have hlen := hnumbered.length_eq
        rw [List.length_map] at hlen
        omega
      obtain ⟨pairs', hnew⟩ := hinterned.intern (pairFound carType cdrType) hroom
      exact ⟨pairs', hnew.interned, hnumbered.snoc rfl (hnew.extended.map _) hnew.interned.nodup
        hnew.mem_iff hnew.number⟩

/-- The function types, in the order of their ids. -/
lemma exists_functions (hfits : 500 + count .function rs ≤ 65536) :
    ∃ functions, Interned functionKey 500 (envOf rs).functionTypeCache (envOf rs).nextFunctionTypeId
      functions ∧ Numbered rs .function (functions.map functionKey) := by
  induction rs using List.reverseRecOn with
  | nil =>
    obtain ⟨-, -, hcache, hnext, -⟩ := emptyEnvironment.foldl_addNode builtinTypes
    refine ⟨[], ?_, .nil _⟩
    rw [envOf, registerAll, initial, hcache, hnext]
    exact .empty functionKey (by decide)
  | append_singleton rs r ih =>
    have hmono := count_snoc .function rs r
    obtain ⟨functions, hinterned, hnumbered⟩ := ih (by omega)
    rw [envOf_snoc]
    cases r with
    | userType name level flags supertype =>
      refine ⟨functions, ?_, hnumbered.other (by simp [Registration.key, Key.family])⟩
      simpa [register, TypeEnvironment.registerUserType] using hinterned
    | pairType carType cdrType =>
      exact ⟨functions, hinterned, hnumbered.other (by simp [Registration.key, Key.family])⟩
    | functionType paramTypes returnType isVariadic =>
      have hkey := functionKey_make paramTypes returnType isVariadic rs.length
      have hroom : functionKey (.make paramTypes returnType isVariadic) ∉ functions.map functionKey →
          500 + functions.length < 65536 := by
        intro hnew
        rw [hnumbered.mem_iff, hkey] at hnew
        have hcount : count .function (rs ++ [.functionType paramTypes returnType isVariadic]) =
            count .function rs + 1 :=
          count_snoc_of_new rfl fun hmem => hnew ⟨hmem, rfl⟩
        have hlen := hnumbered.length_eq
        rw [List.length_map] at hlen
        omega
      obtain ⟨functions', hnew⟩ := hinterned.intern (functionFound paramTypes returnType isVariadic) hroom
      refine ⟨functions', hnew.interned, hnumbered.snoc rfl (hnew.extended.map _) hnew.interned.nodup ?_ ?_⟩
      · rw [← hkey]
        exact hnew.mem_iff
      · rw [← hkey]
        exact hnew.number

/-! ## The type graph -/

/-- What a type was registered with: its node without the subtypes registered later. -/
def TypeNode.definition (node : TypeNode) : TypeNode := { node with subtypes := [] }

lemma addNode_definition (env : TypeEnvironment) (node : TypeNode) (id : UInt16) :
    ((env.addNode node).types[id]?).map TypeNode.definition =
      if node.id.id = id then some node.definition else (env.types[id]?).map TypeNode.definition := by
  rw [TypeEnvironment.addNode]
  cases node.supertype with
  | none =>
    simp only [Std.TreeMap.getElem?_insert, Std.compare_eq_iff_eq]
    split_ifs <;> rfl
  | some supertype =>
    have hsub : ∀ n : TypeNode, ({ n with subtypes := n.subtypes ++ [node.id] } : TypeNode).definition =
        n.definition := fun _ => rfl
    simp only [TypeEnvironment.addSubtype, Std.TreeMap.getElem?_modify, Std.TreeMap.getElem?_insert,
      Std.compare_eq_iff_eq]
    by_cases hnode : node.id.id = id
    · subst hnode
      by_cases hsuper : supertype.id = node.id.id <;> simp [hsub, hsuper]
    · by_cases hsuper : supertype.id = id
      · subst hsuper
        simp [hsub, hnode, Function.comp_def]
      · simp [hnode, hsuper]

/-- The built-in type with the id. -/
def builtinNode (id : UInt16) : Option TypeNode := builtinTypes.reverse.find? (·.id.id == id)

lemma initial_definition (id : UInt16) :
    (initial.types[id]?).map TypeNode.definition = (builtinNode id).map TypeNode.definition := by
  have hfold : ∀ nodes : List TypeNode, ((nodes.foldl .addNode emptyEnvironment).types[id]?).map
      TypeNode.definition = (nodes.reverse.find? (·.id.id == id)).map TypeNode.definition := by
    intro nodes
    induction nodes using List.reverseRecOn with
    | nil => simp [emptyEnvironment]
    | append_singleton nodes node ih =>
      rw [List.foldl_append, List.foldl_cons, List.foldl_nil, addNode_definition, ih, List.reverse_append,
        List.reverse_singleton, List.singleton_append, List.find?_cons]
      by_cases h : node.id.id = id
      · simp [h]
      · rw [if_neg h, beq_eq_false_iff_ne.2 h]
  exact hfold builtinTypes

lemma builtinNode_definition {node : TypeNode} (h : node ∈ builtinTypes) :
    (builtinNode node.id.id).map TypeNode.definition = some node := by
  have hsubtypes : ∀ node ∈ builtinTypes, node.subtypes.isEmpty = true := by decide
  have hnumbers : ((builtinTypes.map (·.id.id)).map UInt16.toNat).Nodup := by decide +kernel
  have hnodup : (builtinTypes.map (·.id.id)).Nodup := hnumbers.of_map
  have hfound : builtinNode node.id.id = some node := by
    rw [builtinNode]
    obtain ⟨found, hfound⟩ : ∃ found, builtinTypes.reverse.find? (·.id.id == node.id.id) = some found :=
      Option.isSome_iff_exists.1 (List.find?_isSome.2 ⟨node, by simpa using h, by simp⟩)
    have hid : found.id.id = node.id.id := by simpa using List.find?_some hfound
    have hmem : found ∈ builtinTypes := List.mem_reverse.1 (List.mem_of_find?_eq_some hfound)
    rw [hfound, List.inj_on_of_nodup_map hnodup hmem h hid]
  have hempty : node.subtypes = [] := by simpa using hsubtypes node h
  rw [hfound, Option.map_some, TypeNode.definition, ← hempty]

/-- The ids of the built-in types, and the invalid id, are below the counters. -/
lemma builtinNode_lt {id : UInt16} {node : TypeNode} (h : builtinNode id = some node) :
    0 < id.toNat ∧ id.toNat < 300 := by
  have hall : ∀ node ∈ builtinTypes, 0 < node.id.id.toNat ∧ node.id.id.toNat < 300 := by decide
  have hid : node.id.id = id := by simpa using List.find?_some h
  rw [← hid]
  exact hall node (List.mem_reverse.1 (List.mem_of_find?_eq_some h))

/-- The user-defined types, in the order of their ids. -/
structure Users (rs : List Registration) (keys : List Key) (nodes : List TypeNode) : Prop where
  numbered : Numbered rs .user keys
  length_eq : keys.length = nodes.length
  next_eq : (envOf rs).nextUserId = UInt16.ofNat (1000 + nodes.length)
  types : ∀ id : UInt16, ((envOf rs).types[id]?).map TypeNode.definition =
    if 1000 ≤ id.toNat then nodes[id.toNat - 1000]? else (builtinNode id).map TypeNode.definition
  defined : ∀ (n i : ℕ) name level flags supertype, keys[n]? = some (.user i) →
    rs[i]? = some (.userType name level flags supertype) →
    nodes[n]? = some (.userNode ⟨UInt16.ofNat (1000 + n), level, flags⟩ name supertype)

lemma user_lt {n : ℕ} (h : .user n ∈ keysOf rs) : n < rs.length := by
  rw [keysOf, List.mem_mapIdx] at h
  obtain ⟨i, hi, hkey⟩ := h
  cases hr : rs[i] <;> rw [hr] at hkey <;> simp only [Registration.key, reduceCtorEq, Key.user.injEq] at hkey
  omega

/-- A call that defines no type. -/
lemma Users.other {nodes : List TypeNode} (h : Users rs keys nodes)
    (hr : (r.key rs.length).family ≠ .user) (htypes : (envOf (rs ++ [r])).types = (envOf rs).types)
    (hnext : (envOf (rs ++ [r])).nextUserId = (envOf rs).nextUserId) : Users (rs ++ [r]) keys nodes := by
  refine ⟨h.numbered.other hr, h.length_eq, by rw [hnext, h.next_eq], fun id => by rw [htypes, h.types], ?_⟩
  intro n i name level flags supertype hk hri
  refine h.defined n i name level flags supertype hk ?_
  have hlt : i < rs.length := user_lt ((h.numbered.mem_iff _).1 (List.mem_of_getElem? hk)).1
  rwa [List.getElem?_append_left hlt] at hri

/-- Users get the ids from 1000 on. -/
lemma exists_users (hfits : 1000 + count .user rs ≤ 65536) : ∃ keys nodes, Users rs keys nodes := by
  induction rs using List.reverseRecOn with
  | nil =>
    refine ⟨[], [], .nil _, rfl, ?_, fun id => ?_, by simp⟩
    · obtain ⟨-, -, -, -, hnext, -⟩ := emptyEnvironment.foldl_addNode builtinTypes
      exact hnext
    · refine (initial_definition id).trans ?_
      split_ifs with h
      · cases hnode : builtinNode id with
        | none => rfl
        | some node =>
          have := builtinNode_lt hnode
          omega
      · rfl
  | append_singleton rs r ih =>
    have hmono := count_snoc .user rs r
    obtain ⟨keys, nodes, husers⟩ := ih (by omega)
    cases r with
    | pairType carType cdrType =>
      exact ⟨keys, nodes, husers.other (by simp [Registration.key, Key.family]) (by rw [envOf_snoc]; rfl)
        (by rw [envOf_snoc]; rfl)⟩
    | functionType paramTypes returnType isVariadic =>
      exact ⟨keys, nodes, husers.other (by simp [Registration.key, Key.family]) (by rw [envOf_snoc]; rfl)
        (by rw [envOf_snoc]; rfl)⟩
    | userType name level flags supertype =>
      have hnew : .user rs.length ∉ keysOf rs := fun hmem => Nat.lt_irrefl _ (user_lt hmem)
      have hcount : count .user (rs ++ [.userType name level flags supertype]) = count .user rs + 1 :=
        count_snoc_of_new rfl hnew
      have hlen : nodes.length = count .user rs := by rw [← husers.length_eq, husers.numbered.length_eq]
      have hnext := husers.next_eq
      have hnextNat : (envOf rs).nextUserId.toNat = 1000 + nodes.length := by
        rw [hnext, toNat_number (by omega)]
      let node : TypeNode := .userNode ⟨(envOf rs).nextUserId, level, flags⟩ name supertype
      refine ⟨keys ++ [.user rs.length], nodes ++ [node], ?_, by simp [husers.length_eq], ?_, fun id => ?_, ?_⟩
      · refine husers.numbered.snoc rfl (List.prefix_append _ _) ?_ (by simp [Registration.key]) ?_
        · refine List.nodup_append.2 ⟨husers.numbered.nodup, by simp, ?_⟩
          rintro k hk _ (_ | ⟨_, hmem⟩) rfl
          · exact hnew ((husers.numbered.mem_iff _).1 hk).1
          · cases hmem
        · exact ⟨nodes.length, hnext, by rw [← husers.length_eq]; simp [Registration.key]⟩
      · rw [envOf_snoc, List.length_append, List.length_singleton, ← Nat.add_assoc, UInt16.ofNat_add _ 1]
        simp [register, TypeEnvironment.registerUserType, hnext]
      · have hadd : ((envOf (rs ++ [.userType name level flags supertype])).types[id]?).map
            TypeNode.definition = if (envOf rs).nextUserId = id then some node
              else ((envOf rs).types[id]?).map TypeNode.definition := by
          rw [envOf_snoc]
          exact addNode_definition _ node id
        rw [hadd, husers.types id]
        by_cases hid : (envOf rs).nextUserId = id
        · subst hid
          rw [if_pos rfl, if_pos (by omega), hnextNat, Nat.add_sub_cancel_left]
          simp
        · rw [if_neg hid]
          have hne : id.toNat ≠ 1000 + nodes.length := by
            rw [← hnextNat]
            exact fun heq => hid (UInt16.toNat_inj.1 heq.symm)
          split_ifs with hle
          · obtain hlt | hge := Nat.lt_or_ge (id.toNat - 1000) nodes.length
            · rw [List.getElem?_append_left hlt]
            · rw [List.getElem?_eq_none hge, List.getElem?_eq_none]
              rw [List.length_append, List.length_singleton]
              omega
          · rfl
      · intro n i name' level' flags' supertype' hk hri
        by_cases hn : n < nodes.length
        · rw [List.getElem?_append_left (by rwa [husers.length_eq])] at hk
          rw [List.getElem?_append_left hn]
          have hlt : i < rs.length := user_lt ((husers.numbered.mem_iff _).1 (List.mem_of_getElem? hk)).1
          rw [List.getElem?_append_left hlt] at hri
          exact husers.defined n i _ _ _ _ hk hri
        · rw [List.getElem?_append_right (by rw [husers.length_eq]; omega)] at hk
          have hk0 : n = nodes.length := by
            have hlt := (List.getElem?_eq_some_iff.1 hk).1
            rw [List.length_singleton, husers.length_eq] at hlt
            omega
          subst hk0
          rw [husers.length_eq, Nat.sub_self] at hk
          cases hk
          simp only [List.getElem?_append_right (Nat.le_refl _), Nat.sub_self, List.getElem?_cons_zero,
            Option.some.injEq, Registration.userType.injEq] at hri ⊢
          obtain ⟨rfl, rfl, rfl, rfl⟩ := hri
          simp [node, hnext]

/-! ## Injectivity -/

/-- The environment gives back under the id what it was registered with, and nothing of another
family. -/
def Retrieves (env : TypeEnvironment) (id : TypeId) : Registration → Prop
  | .userType name _ _ supertype =>
    (env.getTypeNode id).map TypeNode.definition = some (.userNode id name supertype) ∧
      env.getPairElementTypes id = none ∧ env.getFunctionType id = none
  | .pairType carType cdrType =>
    (env.getPairElementTypes id).map pairKey = some (.pair carType.id cdrType.id) ∧
      env.getFunctionType id = none ∧ env.getTypeNode id = none
  | .functionType paramTypes returnType isVariadic =>
    (env.getFunctionType id).map functionKey =
        some (.function (paramTypes.map TypeId.id) returnType.id isVariadic) ∧
      env.getPairElementTypes id = none ∧ env.getTypeNode id = none

structure AllocatesInjectively (rs : List Registration) : Prop where
  distinct : ∀ (i j : ℕ) k k' id id', (keysOf rs)[i]? = some k → (keysOf rs)[j]? = some k' →
    (idsOf rs)[i]? = some id → (idsOf rs)[j]? = some id' → (id.id = id'.id ↔ k = k')
  notBuiltin : ∀ id ∈ idsOf rs, id.id ≠ BuiltinTypes.invalid.id ∧ builtinNode id.id = none
  retrieves : ∀ (i : ℕ) r id, rs[i]? = some r → (idsOf rs)[i]? = some id → Retrieves (envOf rs) id r
  builtins : ∀ node ∈ builtinTypes, ((envOf rs).getTypeNode node.id).map TypeNode.definition = some node ∧
    (envOf rs).getPairElementTypes node.id = none ∧ (envOf rs).getFunctionType node.id = none

/-- No counter has run past the end of the id space, or into the ids that another family has given
out. -/
def Fits (rs : List Registration) : Prop :=
  (∀ f : Family, f.start + count f rs ≤ 65536) ∧
    ∀ f g : Family, f.start < g.start → count g rs ≠ 0 → f.start + count f rs ≤ g.start

lemma exists_numbered (f : Family) (hfits : f.start + count f rs ≤ 65536) :
    ∃ keys, Numbered rs f keys := by
  cases f with
  | user =>
    obtain ⟨keys, nodes, h⟩ := exists_users hfits
    exact ⟨keys, h.numbered⟩
  | pair =>
    obtain ⟨pairs, -, h⟩ := exists_pairs hfits
    exact ⟨_, h⟩
  | function =>
    obtain ⟨functions, -, h⟩ := exists_functions hfits
    exact ⟨_, h⟩

lemma start_inj {f g : Family} (h : f.start = g.start) : f = g := by
  cases f <;> cases g <;> first | rfl | cases h

/-- The ids of one family are not among those of another. -/
lemma Fits.apart (h : Fits rs) (hfg : f ≠ g) {n : ℕ} (hn : n < count f rs) :
    f.start + n < g.start ∨ g.start + count g rs ≤ f.start + n := by
  obtain hlt | heq | hgt := Nat.lt_trichotomy f.start g.start
  · by_cases hg : count g rs = 0
    · omega
    · have := h.2 f g hlt hg
      omega
  · exact absurd (start_inj heq) hfg
  · have := h.2 g f hgt (by omega)
    omega

lemma Numbered.range (h : Numbered rs f keys) (hfits : f.start + count f rs ≤ 65536) {i : ℕ} {k : Key}
    {id : TypeId} (hk : (keysOf rs)[i]? = some k) (hf : k.family = f) (hid : (idsOf rs)[i]? = some id) :
    ∃ n < count f rs, id.id = UInt16.ofNat (f.start + n) ∧ id.id.toNat = f.start + n ∧
      keys[n]? = some k := by
  obtain ⟨n, hn, hkn⟩ := h.number i k id hk hf hid
  have hlt : n < keys.length := (List.getElem?_eq_some_iff.1 hkn).1
  rw [h.length_eq] at hlt
  exact ⟨n, hlt, hn, by rw [hn, toNat_number (by omega)], hkn⟩

lemma keysOf_getElem? {i : ℕ} (hr : rs[i]? = some r) : (keysOf rs)[i]? = some (r.key i) := by
  rw [keysOf, List.getElem?_mapIdx, hr]
  rfl

lemma idsOf_user {i : ℕ} {id : TypeId} {name : String} {level : Universe} {flags : UInt8}
    {supertype : Option TypeId} (hr : rs[i]? = some (.userType name level flags supertype))
    (hid : (idsOf rs)[i]? = some id) : id.level = level ∧ id.flags = flags := by
  induction rs using List.reverseRecOn with
  | nil => simp at hr
  | append_singleton rs r ih =>
    rw [idsOf_snoc] at hid
    by_cases hi : i < rs.length
    · rw [List.getElem?_append_left hi] at hr
      rw [List.getElem?_append_left (by simpa using hi)] at hid
      exact ih hr hid
    · rw [List.getElem?_append_right (by omega)] at hr
      rw [List.getElem?_append_right (by simpa using hi), length_idsOf] at hid
      obtain rfl := List.mem_singleton.1 (List.mem_of_getElem? hr)
      obtain rfl := List.mem_singleton.1 (List.mem_of_getElem? hid)
      exact ⟨rfl, rfl⟩

lemma builtinNode_eq_none {id : UInt16} (h : 300 ≤ id.toNat) : builtinNode id = none := by
  cases hnode : builtinNode id with
  | none => rfl
  | some node =>
    have := builtinNode_lt hnode
    omega

/-- The ids of the three families in one environment. -/
structure Families (rs : List Registration) (pairs : List (TypeId × TypeId))
    (functions : List PiFunctionType) (keys : List Key) (nodes : List TypeNode) : Prop where
  fits : Fits rs
  pair : Interned pairKey 300 (envOf rs).pairElementCache (envOf rs).nextPairTypeId pairs
  pairNumbered : Numbered rs .pair (pairs.map pairKey)
  function : Interned functionKey 500 (envOf rs).functionTypeCache (envOf rs).nextFunctionTypeId functions
  functionNumbered : Numbered rs .function (functions.map functionKey)
  user : Users rs keys nodes

lemma Fits.families (h : Fits rs) : ∃ pairs functions keys nodes, Families rs pairs functions keys nodes := by
  obtain ⟨pairs, hpairs, hpairsNumbered⟩ := exists_pairs (h.1 .pair)
  obtain ⟨functions, hfunctions, hfunctionsNumbered⟩ := exists_functions (h.1 .function)
  obtain ⟨keys, nodes, husers⟩ := exists_users (h.1 .user)
  exact ⟨pairs, functions, keys, nodes, h, hpairs, hpairsNumbered, hfunctions, hfunctionsNumbered, husers⟩

section families
variable {pairs : List (TypeId × TypeId)} {functions : List PiFunctionType} {nodes : List TypeNode}

lemma Families.no_pair (h : Families rs pairs functions keys nodes) {id : TypeId}
    (hid : id.id.toNat < 300 ∨ 300 + count .pair rs ≤ id.id.toNat) :
    (envOf rs).getPairElementTypes id = none := by
  refine h.pair.get_none ?_
  rw [← h.pairNumbered.length_eq, List.length_map] at hid
  exact hid

lemma Families.no_function (h : Families rs pairs functions keys nodes) {id : TypeId}
    (hid : id.id.toNat < 500 ∨ 500 + count .function rs ≤ id.id.toNat) :
    (envOf rs).getFunctionType id = none := by
  refine h.function.get_none ?_
  rw [← h.functionNumbered.length_eq, List.length_map] at hid
  exact hid

lemma Families.no_node (h : Families rs pairs functions keys nodes) {id : TypeId}
    (hge : 300 ≤ id.id.toNat) (hid : id.id.toNat < 1000 ∨ 1000 + count .user rs ≤ id.id.toNat) :
    (envOf rs).getTypeNode id = none := by
  rw [← h.user.numbered.length_eq, h.user.length_eq] at hid
  have hnone : ((envOf rs).types[id.id]?).map TypeNode.definition = none := by
    rw [h.user.types]
    split_ifs with hle
    · exact List.getElem?_eq_none (by omega)
    · rw [builtinNode_eq_none hge]
      rfl
  exact Option.map_eq_none_iff.1 hnone

lemma Families.retrieves (h : Families rs pairs functions keys nodes) {i : ℕ} {id : TypeId}
    (hr : rs[i]? = some r) (hid : (idsOf rs)[i]? = some id) :
    Retrieves (envOf rs) id r := by
  have hkey := keysOf_getElem? hr
  cases r with
  | userType name level flags supertype =>
    obtain ⟨n, hn, hofNat, hnat, hkn⟩ := h.user.numbered.range (h.fits.1 .user) hkey rfl hid
    have hpair := h.fits.apart (g := .pair) (by decide) hn
    have hfunction := h.fits.apart (g := .function) (by decide) hn
    rw [← hnat] at hpair hfunction
    refine ⟨?_, h.no_pair hpair, h.no_function hfunction⟩
    have hge : 1000 ≤ id.id.toNat := by
      rw [hnat]
      exact Nat.le_add_right _ _
    have hsub : id.id.toNat - 1000 = n := by
      rw [hnat]
      exact Nat.add_sub_cancel_left 1000 n
    rw [TypeEnvironment.getTypeNode, h.user.types, if_pos hge, hsub, h.user.defined n i _ _ _ _ hkn hr]
    obtain ⟨number, level', flags'⟩ := id
    obtain ⟨rfl, rfl⟩ := idsOf_user hr hid
    obtain rfl : number = UInt16.ofNat (1000 + n) := hofNat
    rfl
  | pairType carType cdrType =>
    obtain ⟨n, hn, hofNat, hnat, hkn⟩ := h.pairNumbered.range (h.fits.1 .pair) hkey rfl hid
    have huser := h.fits.apart (g := .user) (by decide) hn
    have hfunction := h.fits.apart (g := .function) (by decide) hn
    rw [← hnat] at huser hfunction
    refine ⟨?_, h.no_function hfunction, h.no_node (by rw [hnat]; exact Nat.le_add_right _ _) huser⟩
    have hfits := h.fits.1 .pair
    have hget : (envOf rs).getPairElementTypes id = pairs[n]? := by
      rw [TypeEnvironment.getPairElementTypes, hofNat]
      exact h.pair.get_number (by simp only [Family.start] at hfits; omega)
    rw [hget, ← List.getElem?_map, hkn]
    rfl
  | functionType paramTypes returnType isVariadic =>
    obtain ⟨n, hn, hofNat, hnat, hkn⟩ := h.functionNumbered.range (h.fits.1 .function) hkey rfl hid
    have huser := h.fits.apart (g := .user) (by decide) hn
    have hpair := h.fits.apart (g := .pair) (by decide) hn
    rw [← hnat] at huser hpair
    have hge : 300 ≤ id.id.toNat := by
      rw [hnat]
      simp only [Family.start]
      omega
    refine ⟨?_, h.no_pair hpair, h.no_node hge huser⟩
    have hfits := h.fits.1 .function
    have hget : (envOf rs).getFunctionType id = functions[n]? := by
      rw [TypeEnvironment.getFunctionType, hofNat]
      exact h.function.get_number (by simp only [Family.start] at hfits; omega)
    rw [hget, ← List.getElem?_map, hkn]
    rfl

end families

/-- Within the ids there are no clashes. -/
lemma Fits.allocatesInjectively (h : Fits rs) : AllocatesInjectively rs := by
  obtain ⟨pairs, functions, keys, nodes, hfamilies⟩ := h.families
  have hnumbered : ∀ f : Family, ∃ keys, Numbered rs f keys := fun f => exists_numbered f (h.1 f)
  have hkey : ∀ (i : ℕ) id, (idsOf rs)[i]? = some id → ∃ k, (keysOf rs)[i]? = some k := by
    intro i id hid
    have hlt := (List.getElem?_eq_some_iff.1 hid).1
    rw [length_idsOf, ← length_keysOf] at hlt
    exact ⟨_, List.getElem?_eq_getElem hlt⟩
  refine ⟨fun i j k k' id id' hk hk' hid hid' => ?_, fun id hid => ?_, fun i r id hr hid => ?_, fun node hnode => ?_⟩
  · obtain ⟨ks, hks⟩ := hnumbered k.family
    by_cases hf : k.family = k'.family
    · exact hks.id_eq_iff (h.1 _) hk hk' rfl hf.symm hid hid'
    · obtain ⟨ks', hks'⟩ := hnumbered k'.family
      obtain ⟨n, hn, -, hnat, -⟩ := hks.range (h.1 _) hk rfl hid
      obtain ⟨n', hn', -, hnat', -⟩ := hks'.range (h.1 _) hk' rfl hid'
      have hapart := h.apart hf hn
      refine iff_of_false (fun heq => ?_) (fun heq => hf (by rw [heq]))
      rw [← UInt16.toNat_inj] at heq
      omega
  · obtain ⟨i, hi⟩ := List.mem_iff_getElem?.1 hid
    obtain ⟨k, hk⟩ := hkey i id hi
    obtain ⟨ks, hks⟩ := hnumbered k.family
    obtain ⟨n, -, -, hnat, -⟩ := hks.range (h.1 _) hk rfl hi
    have hge : 300 ≤ k.family.start := by cases k.family <;> decide
    refine ⟨fun heq => ?_, builtinNode_eq_none (by omega)⟩
    rw [heq] at hnat
    change 0 = _ at hnat
    omega
  · exact hfamilies.retrieves hr hid
  · have hlt : node.id.id.toNat < 300 := by
      have hall : ∀ node ∈ builtinTypes, node.id.id.toNat < 300 := by decide
      exact hall node hnode
    refine ⟨?_, hfamilies.no_pair (.inl hlt), hfamilies.no_function (.inl (by omega))⟩
    rw [TypeEnvironment.getTypeNode, hfamilies.user.types, if_neg (by omega)]
    exact builtinNode_definition hnode

/-- A new type gets the id that its family's counter has come to. -/
lemma register_new (hf : (r.key rs.length).family = f) (hnew : r.key rs.length ∉ keysOf rs)
    (hfits : f.start + count f rs ≤ 65536) :
    (register (envOf rs) r).1.id = UInt16.ofNat (f.start + count f rs) := by
  cases r with
  | userType name level flags supertype =>
    subst hf
    obtain ⟨keys, nodes, husers⟩ := exists_users hfits
    have hlen : nodes.length = count .user rs := by rw [← husers.length_eq, husers.numbered.length_eq]
    exact husers.next_eq.trans (by rw [hlen]; rfl)
  | pairType carType cdrType =>
    subst hf
    obtain ⟨pairs, hpairs, hnumbered⟩ := exists_pairs hfits
    have hlen := hnumbered.length_eq
    rw [List.length_map] at hlen
    have hid := intern_new hpairs.toHolds (pairFound carType cdrType)
      (fun hmem => hnew ((hnumbered.mem_iff _).1 hmem).1)
    refine (congrArg Prod.fst hid).trans (hpairs.next_eq.trans ?_)
    rw [hlen]
    rfl
  | functionType paramTypes returnType isVariadic =>
    subst hf
    obtain ⟨functions, hfunctions, hnumbered⟩ := exists_functions hfits
    have hlen := hnumbered.length_eq
    rw [List.length_map] at hlen
    have hid := intern_new hfunctions.toHolds (functionFound paramTypes returnType isVariadic) (by
      rw [functionKey_make _ _ _ rs.length]
      exact fun hmem => hnew ((hnumbered.mem_iff _).1 hmem).1)
    refine (congrArg Prod.fst hid).trans (hfunctions.next_eq.trans ?_)
    rw [hlen]
    rfl

/-- Past the ids there are. -/
lemma AllocatesInjectively.fits (h : AllocatesInjectively rs) : Fits rs := by
  have hspace : ∀ f : Family, f.start + count f rs ≤ 65536 := by
    intro f
    by_contra hover
    have hstart : f.start ≤ 65536 := by cases f <;> decide
    have hlt : 65536 - f.start < count f rs := by omega
    obtain ⟨rs₁, r, rs₂, rfl, hcount, hf, hnew⟩ := exists_call_of_lt_count hlt
    have hid := register_new hf hnew (by omega)
    have hmem : (register (envOf rs₁) r).1 ∈ idsOf (rs₁ ++ [r] ++ rs₂) := by
      refine (idsOf_append _ _).subset ?_
      rw [idsOf_snoc]
      exact List.mem_append_right _ List.mem_cons_self
    refine (h.notBuiltin _ hmem).1 (hid.trans ?_)
    rw [hcount, Nat.add_sub_cancel' hstart]
    rfl
  refine ⟨hspace, fun f g hfg hg => ?_⟩
  by_contra hover
  obtain ⟨ks, hks⟩ := exists_numbered f (hspace f)
  obtain ⟨ks', hks'⟩ := exists_numbered g (hspace g)
  have hlt : g.start - f.start < ks.length := by
    rw [hks.length_eq]
    omega
  have hlt' : 0 < ks'.length := by
    rw [hks'.length_eq]
    omega
  obtain ⟨hf, i, id, hk, hid, hnumber⟩ := hks.call (List.getElem?_eq_getElem hlt)
  obtain ⟨hf', j, id', hk', hid', hnumber'⟩ := hks'.call (List.getElem?_eq_getElem hlt')
  have heq : id.id = id'.id := by
    rw [hnumber, hnumber']
    congr 1
    omega
  have hkeys := (h.distinct i j _ _ id id' hk hk' hid hid').1 heq
  rw [hkeys, hf'] at hf
  rw [hf] at hfg
  exact Nat.lt_irrefl _ hfg

/-- Different types have different ids and are found under them exactly when every counter has stayed
in its range. -/
theorem allocatesInjectively_iff (rs : List Registration) : AllocatesInjectively rs ↔ Fits rs :=
  ⟨AllocatesInjectively.fits, Fits.allocatesInjectively⟩

/-- The pair types of `(cons 1 (cons 1 … '()))`, from the innermost on, and a function type. -/
def longList : List Registration :=
  (List.range 201).map (fun n => .pairType BuiltinTypes.int64
      (if n = 0 then BuiltinTypes.null else ⟨UInt16.ofNat (299 + n), .u1, 0⟩)) ++
    [.functionType [] BuiltinTypes.value false]

lemma count_longList : count .pair longList = 201 ∧ count .function longList = 1 := by
  let innerKey : ℕ → Key := fun n => .pair 13 (if n = 0 then 26 else UInt16.ofNat (299 + n))
  have hkeys : keysOf longList = (List.range 201).map innerKey ++ [.function [] 10 false] := by
    rw [longList, keysOf_snoc]
    apply congrArg (· ++ [Key.function [] 10 false])
    apply List.ext_getElem?
    intro i
    by_cases hi : i < 201
    · simp [keysOf, hi, Registration.key, innerKey, BuiltinTypes.int64, BuiltinTypes.null, apply_ite TypeId.id]
    · simp [keysOf, hi]
  have hpairs : (keysOf longList).filter (·.family = .pair) = (List.range 201).map innerKey := by
    rw [hkeys, List.filter_append, List.filter_eq_self.2 (by simp [innerKey, Key.family])]
    simp [Key.family]
  have hfunctions : (keysOf longList).filter (·.family = .function) = [.function [] 10 false] := by
    rw [hkeys, List.filter_append, List.filter_eq_nil_iff.2 (by simp [innerKey, Key.family])]
    simp [Key.family]
  have hnodup : ((List.range 201).map innerKey).Nodup := by
    refine List.Nodup.map_on (fun m hm n hn heq => ?_) List.nodup_range
    rw [List.mem_range] at hm hn
    have hcdr := congrArg UInt16.toNat (Key.pair.inj heq).2
    split_ifs at hcdr <;> simp only [UInt16.toNat_ofNat', UInt16.reduceToNat] at hcdr <;> omega
  rw [count, count, hpairs, hfunctions, List.toFinset_card_of_nodup hnodup, List.length_map,
    List.length_range]
  exact ⟨rfl, rfl⟩

/-- The outermost pair type and the function type have one id. -/
theorem longList_not_injective : ¬ AllocatesInjectively longList := by
  intro h
  have hfits := h.fits.2 .pair .function (by decide) (by rw [count_longList.2]; decide)
  rw [count_longList.1] at hfits
  exact absurd hfits (by decide)

end Types
