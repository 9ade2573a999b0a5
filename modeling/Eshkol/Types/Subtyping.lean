import Eshkol.Types.Allocation
import Eshkol.Base.Forest

/-!
# Subtyping

The type graph is a forest: a pair type lies below `Pair`, any other type below its supertype. As
long as types are registered in order, a query and the memo table answer whether one type is below
another, and the least common supertype is the place where two lines meet.
-/

namespace Types

open Forest

/-! ## The type graph as a forest -/

namespace TypeEnvironment

variable {env : TypeEnvironment}

/-- What a type lies directly below. -/
def parent (env : TypeEnvironment) (id : UInt16) : Option UInt16 :=
  if env.pairElementCache.contains id then some BuiltinTypes.pair.id
  else ((env.types[id]?).bind TypeNode.supertype).map TypeId.id

/-- The type graph is a forest whose lines never pass an unregistered id or, but for their first type,
a pair type; the memo table agrees with it. -/
structure WellFormed (env : TypeEnvironment) : Prop where
  line : ∀ id, ∃ l, Line env.parent id l
  pairNode : (env.types[BuiltinTypes.pair.id]?).isSome
  noNode : ∀ id : UInt16, env.pairElementCache.contains id = true → env.types[id]? = none
  supertype : ∀ (id : UInt16) (node : TypeNode) (s : TypeId), env.types[id]? = some node → node.supertype = some s →
    env.pairElementCache.contains s.id = false ∧
      ((env.types[s.id]?).isSome ∨ env.functionTypeCache.contains s.id = true)
  cache : ∀ a b v, env.subtypeCache[(a, b)]? = some v → (v = true ↔ Below env.parent a b)

lemma WellFormed.pair_untracked (h : env.WellFormed) :
    env.pairElementCache.contains BuiltinTypes.pair.id = false := by
  cases hc : env.pairElementCache.contains BuiltinTypes.pair.id with
  | false => rfl
  | true =>
    have hnode := h.pairNode
    rw [h.noNode _ hc] at hnode
    cases hnode

lemma parent_of_untracked {id : UInt16} (hid : env.pairElementCache.contains id = false) :
    env.parent id = ((env.types[id]?).bind TypeNode.supertype).map TypeId.id := by
  rw [parent, hid, if_neg Bool.false_ne_true]

/-- The types of a line that does not start with a pair type have nodes, but for the last. -/
lemma WellFormed.line_nodes (h : env.WellFormed) {id : UInt16} {l : List UInt16}
    (hl : Line env.parent id l) (hid : env.pairElementCache.contains id = false) :
    ∀ x ∈ l.dropLast, x ∈ env.types.keys := by
  induction hl with
  | root => simp
  | @step a b l hstep hl ih =>
    rw [parent_of_untracked hid] at hstep
    obtain ⟨s, hs, rfl⟩ := Option.map_eq_some_iff.1 hstep
    obtain ⟨node, hnode, hsuper⟩ := Option.bind_eq_some_iff.1 hs
    obtain ⟨rest, rfl⟩ := hl.head
    rw [List.dropLast_cons_cons]
    rintro x (_ | ⟨_, hx⟩)
    · rw [Std.TreeMap.mem_keys, ← Std.TreeMap.isSome_getElem?_iff_mem, hnode]
      rfl
    · exact ih (h.supertype a node s hnode hsuper).1 x hx

/-- Such a line is no longer than the type graph allows. -/
lemma WellFormed.line_length (h : env.WellFormed) {id : UInt16} {l : List UInt16}
    (hl : Line env.parent id l) (hid : env.pairElementCache.contains id = false) :
    l.length ≤ env.types.size + 1 := by
  have hnodup : l.dropLast.Nodup := hl.nodup.sublist (List.dropLast_sublist l)
  have hle := (List.subperm_of_subset hnodup (h.line_nodes hl hid)).length_le
  rw [List.length_dropLast, Std.TreeMap.length_keys] at hle
  omega

/-- The loop along the supertypes of a node. -/
lemma WellFormed.walkSupertypes_spec (h : env.WellFormed) (super : TypeId) {id : UInt16}
    {l : List UInt16} (hl : Line env.parent id l) (hid : env.pairElementCache.contains id = false)
    {node : TypeNode} (hnode : env.types[id]? = some node) {fuel : ℕ} (hfuel : l.length ≤ fuel) :
    ∃ v, env.walkSupertypes super fuel node = some v ∧ (v = true ↔ super.id ∈ l.tail) := by
  induction hl generalizing node fuel with
  | @root a hroot =>
    obtain ⟨fuel, rfl⟩ : ∃ k, fuel = k + 1 := ⟨fuel - 1, by simp at hfuel; omega⟩
    rw [parent_of_untracked hid, hnode] at hroot
    have hnone : node.supertype = none := by simpa using hroot
    exact ⟨false, by rw [walkSupertypes, hnone], by simp⟩
  | @step a b l hstep hl ih =>
    obtain ⟨fuel, rfl⟩ : ∃ k, fuel = k + 1 := ⟨fuel - 1, by simp at hfuel; omega⟩
    rw [parent_of_untracked hid, hnode] at hstep
    obtain ⟨s, hs, rfl⟩ : ∃ s, node.supertype = some s ∧ s.id = b := by simpa using hstep
    obtain ⟨rest, rfl⟩ := hl.head
    rw [walkSupertypes, hs]
    by_cases heq : s.id = super.id
    · exact ⟨true, by simp [heq], by simp [heq]⟩
    · have hneq : ¬ (s == super) = true := by simpa using heq
      simp only [if_neg hneq]
      have huntracked := (h.supertype a node s hnode hs).1
      cases hsnode : env.getTypeNode s with
      | none =>
        -- the line ends with a type without a node
        have hroot : env.parent s.id = none := by
          rw [parent_of_untracked huntracked, show env.types[s.id]? = none from hsnode]
          rfl
        cases hl.unique (.root hroot)
        refine ⟨false, rfl, ?_⟩
        simpa using fun hmem => heq hmem.symm
      | some node' =>
        obtain ⟨v, hv, hiff⟩ := ih huntracked hsnode (Nat.le_of_succ_le_succ hfuel)
        refine ⟨v, hv, hiff.trans ?_⟩
        simp only [List.tail_cons, List.mem_cons]
        exact ⟨.inr, fun hmem => hmem.resolve_left fun hs => heq hs.symm⟩

/-! ## Queries -/

lemma pairOrder_eq_iff {p q : UInt16 × UInt16} : pairOrder p q = .eq ↔ p = q := by
  rw [pairOrder, compareLex_eq_eq, compareOn, compareOn, Std.compare_eq_iff_eq, Std.compare_eq_iff_eq,
    Prod.ext_iff]

lemma below_parent {a b c : UInt16} (h : env.parent a = some b) :
    Below env.parent a c ↔ a = c ∨ Below env.parent b c := by
  constructor
  · intro hac
    obtain rfl | ⟨x, hx, hxc⟩ := Relation.ReflTransGen.cases_head hac
    · exact .inl rfl
    · cases h.symm.trans hx
      exact .inr hxc
  · rintro (rfl | hbc)
    · exact .refl
    · exact .head h hbc

lemma parent_of_tracked {id : UInt16} (h : env.pairElementCache.contains id = true) :
    env.parent id = some BuiltinTypes.pair.id := by
  rw [parent, if_pos h]

/-- The right answer, with an environment that differs in the memo table only. -/
def Answers (env : TypeEnvironment) (sub super : TypeId) (result : Bool × TypeEnvironment) : Prop :=
  (result.1 = true ↔ Below env.parent sub.id super.id) ∧
    ∃ cache, result.2 = { env with subtypeCache := cache } ∧ result.2.WellFormed

lemma WellFormed.answers_self (h : env.WellFormed) {sub super : TypeId} {v : Bool}
    (hv : v = true ↔ Below env.parent sub.id super.id) : env.Answers sub super (v, env) :=
  ⟨hv, env.subtypeCache, rfl, h⟩

lemma WellFormed.isSubtypeUncachedWith_spec (h : env.WellFormed)
    {isSubtype : TypeEnvironment → TypeId → TypeId → Option (Bool × TypeEnvironment)} {sub super : TypeId}
    (hcall : env.isTrackedPairType sub = true → ∃ result, isSubtype env BuiltinTypes.pair super = some result ∧
      env.Answers BuiltinTypes.pair super result) :
    ∃ result, isSubtypeUncachedWith isSubtype env sub super = some result ∧ env.Answers sub super result := by
  rw [isSubtypeUncachedWith]
  by_cases heq : (sub == super) = true
  · rw [if_pos heq]
    rw [typeId_beq] at heq
    exact ⟨_, rfl, h.answers_self (iff_of_true rfl (heq ▸ .refl))⟩
  rw [if_neg heq]
  rw [typeId_beq] at heq
  by_cases htracked : env.isTrackedPairType sub = true
  · rw [if_pos htracked]
    have hbelow := below_parent (c := super.id) (parent_of_tracked htracked)
    by_cases hpair : (super == BuiltinTypes.pair) = true
    · rw [if_pos hpair]
      rw [typeId_beq] at hpair
      refine ⟨_, rfl, h.answers_self (iff_of_true rfl (hbelow.2 (.inr ?_)))⟩
      rw [hpair]
      exact .refl
    · rw [if_neg hpair]
      obtain ⟨result, hresult, hiff, hcache⟩ := hcall htracked
      refine ⟨result, hresult, hiff.trans ?_, hcache⟩
      rw [hbelow]
      exact ⟨.inr, fun hor => hor.resolve_left heq⟩
  · rw [if_neg htracked]
    have huntracked : env.pairElementCache.contains sub.id = false := Bool.eq_false_iff.2 htracked
    obtain ⟨l, hl⟩ := h.line sub.id
    cases hnode : env.getTypeNode sub with
    | none =>
      have hroot : env.parent sub.id = none := by
        rw [parent_of_untracked huntracked, show env.types[sub.id]? = none from hnode]
        rfl
      refine ⟨_, rfl, h.answers_self (iff_of_false Bool.false_ne_true fun hbelow => ?_)⟩
      have hmem := (Line.root hroot).mem_iff.2 hbelow
      exact heq (List.mem_singleton.1 hmem).symm
    | some node =>
      obtain ⟨v, hv, hiff⟩ :=
        h.walkSupertypes_spec super hl huntracked hnode (h.line_length hl huntracked)
      refine ⟨(v, env), ?_, h.answers_self (hiff.trans ?_)⟩
      · simp only [hv, Option.map_some]
      · obtain ⟨rest, rfl⟩ := hl.head
        rw [← hl.mem_iff, List.tail_cons, List.mem_cons]
        exact ⟨.inr, fun hor => hor.resolve_left fun hs => heq hs.symm⟩

/-- Remembering an answer. -/
lemma Answers.remember {sub super : TypeId} {result : Bool × TypeEnvironment}
    (h : env.Answers sub super result) : env.Answers sub super
      (result.1, { result.2 with subtypeCache := result.2.subtypeCache.insert (sub.id, super.id) result.1 }) := by
  obtain ⟨hiff, cache, henv, hwf⟩ := h
  refine ⟨hiff, result.2.subtypeCache.insert (sub.id, super.id) result.1, by rw [henv], ?_⟩
  refine ⟨hwf.line, hwf.pairNode, hwf.noNode, hwf.supertype, fun a b v hv => ?_⟩
  rw [Std.TreeMap.getElem?_insert] at hv
  by_cases hab : pairOrder (sub.id, super.id) (a, b) = .eq
  · rw [if_pos hab] at hv
    obtain ⟨rfl, rfl⟩ := Prod.ext_iff.1 (pairOrder_eq_iff.1 hab)
    cases hv
    rw [hiff, henv]
    rfl
  · rw [if_neg hab] at hv
    exact hwf.cache a b v hv

lemma WellFormed.isSubtypeWithin_succ (h : env.WellFormed) {depth : ℕ} {sub super : TypeId}
    (hcall : env.isTrackedPairType sub = true →
      ∃ result, isSubtypeWithin depth env BuiltinTypes.pair super = some result ∧
        env.Answers BuiltinTypes.pair super result) :
    ∃ result, isSubtypeWithin (depth + 1) env sub super = some result ∧ env.Answers sub super result := by
  rw [isSubtypeWithin]
  cases hcached : env.subtypeCache[(sub.id, super.id)]? with
  | some v => exact ⟨(v, env), rfl, h.answers_self (h.cache _ _ v hcached)⟩
  | none =>
    obtain ⟨result, hresult, hanswers⟩ := h.isSubtypeUncachedWith_spec hcall
    exact ⟨_, by rw [hresult]; rfl, hanswers.remember⟩

/-- A query returns the right answer. -/
lemma WellFormed.isSubtype_spec (h : env.WellFormed) (sub super : TypeId) :
    ∃ result, env.isSubtype sub super = some result ∧ env.Answers sub super result := by
  refine h.isSubtypeWithin_succ fun _ => h.isSubtypeWithin_succ fun hpair => ?_
  have := h.pair_untracked
  rw [isTrackedPairType, this] at hpair
  cases hpair

/-- So does the computation without the memo table. -/
lemma WellFormed.isSubtypeUncached_spec (h : env.WellFormed) (sub super : TypeId) :
    ∃ result, env.isSubtypeUncached sub super = some result ∧ env.Answers sub super result :=
  h.isSubtypeUncachedWith_spec fun _ => h.isSubtype_spec _ _

/-! ## Common supertypes -/

lemma WellFormed.supertypes_spec (h : env.WellFormed) {id : UInt16} {l : List UInt16}
    (hl : Line env.parent id l) (hid : env.pairElementCache.contains id = false) {fuel : ℕ}
    (hfuel : l.length ≤ fuel) :
    ∃ chain, env.supertypes fuel (env.types[id]?) = some chain ∧ chain.map TypeId.id = l.tail := by
  induction hl generalizing fuel with
  | @root a hroot =>
    obtain ⟨fuel, rfl⟩ : ∃ k, fuel = k + 1 := ⟨fuel - 1, by simp at hfuel; omega⟩
    rw [parent_of_untracked hid] at hroot
    exact ⟨[], by rw [supertypes, Option.map_eq_none_iff.1 hroot], rfl⟩
  | @step a b l hstep hl ih =>
    obtain ⟨fuel, rfl⟩ : ∃ k, fuel = k + 1 := ⟨fuel - 1, by simp at hfuel; omega⟩
    rw [parent_of_untracked hid] at hstep
    obtain ⟨s, hs, rfl⟩ := Option.map_eq_some_iff.1 hstep
    obtain ⟨node, hnode, hsuper⟩ := Option.bind_eq_some_iff.1 hs
    obtain ⟨chain, hchain, hmap⟩ :=
      ih (h.supertype a node s hnode hsuper).1 (Nat.le_of_succ_le_succ hfuel)
    obtain ⟨rest, rfl⟩ := hl.head
    refine ⟨s :: chain, ?_, by simpa using hmap⟩
    rw [supertypes, hs]
    simp only [getTypeNode, hchain, Option.map_some]

lemma WellFormed.getSupertypeChainWithin_untracked (h : env.WellFormed) {depth : ℕ} {type : TypeId}
    (hid : env.pairElementCache.contains type.id = false) :
    ∃ chain, env.getSupertypeChainWithin (depth + 1) type = some chain ∧
      Line env.parent type.id (chain.map TypeId.id) := by
  obtain ⟨l, hl⟩ := h.line type.id
  obtain ⟨chain, hchain, hmap⟩ := h.supertypes_spec hl hid (h.line_length hl hid)
  obtain ⟨rest, rfl⟩ := hl.head
  refine ⟨type :: chain, ?_, ?_⟩
  · rw [getSupertypeChainWithin, isTrackedPairType, hid, if_neg Bool.false_ne_true, getTypeNode, hchain]
    rfl
  · rw [List.map_cons, hmap]
    exact hl

/-- The chain of a type is its line. -/
lemma WellFormed.getSupertypeChain_spec (h : env.WellFormed) (type : TypeId) :
    ∃ chain, env.getSupertypeChain type = some chain ∧ Line env.parent type.id (chain.map TypeId.id) := by
  cases hid : env.pairElementCache.contains type.id with
  | false => exact h.getSupertypeChainWithin_untracked hid
  | true =>
    obtain ⟨chain, hchain, hline⟩ : ∃ chain, env.getSupertypeChainWithin 1 BuiltinTypes.pair = some chain ∧
        Line env.parent BuiltinTypes.pair.id (chain.map TypeId.id) :=
      h.getSupertypeChainWithin_untracked h.pair_untracked
    refine ⟨type :: chain, ?_, .step (parent_of_tracked hid) hline⟩
    rw [getSupertypeChain, getSupertypeChainWithin, isTrackedPairType, hid, if_pos rfl, hchain]
    rfl

lemma find?_common (chainA chainB : List TypeId) :
    (chainA.find? fun t => chainB.any fun u => t == u).map TypeId.id =
      common (chainA.map TypeId.id) (chainB.map TypeId.id) := by
  rw [common, List.find?_map]
  congr 2
  funext t
  rw [Function.comp_apply, Bool.eq_iff_iff, List.any_eq_true, decide_eq_true_eq, List.mem_map]
  exact exists_congr fun u => and_congr_right fun _ =>
    ⟨fun h => (typeId_beq.1 h).symm, fun h => typeId_beq.2 h.symm⟩

/-- The least common supertype is where the lines meet. -/
lemma WellFormed.leastCommonSupertype_spec (h : env.WellFormed) (a b : TypeId) :
    ∃ la lb r, Line env.parent a.id la ∧ Line env.parent b.id lb ∧
      env.leastCommonSupertype a b = some r ∧ r.map TypeId.id = common la lb := by
  obtain ⟨chainA, hchainA, hlineA⟩ := h.getSupertypeChain_spec a
  obtain ⟨chainB, hchainB, hlineB⟩ := h.getSupertypeChain_spec b
  rw [leastCommonSupertype]
  by_cases heq : (a == b) = true
  · refine ⟨_, _, some a, hlineA, hlineB, if_pos heq, ?_⟩
    rw [typeId_beq] at heq
    obtain ⟨rest, hrest⟩ := hlineA.head
    obtain ⟨rest', hrest'⟩ := hlineB.head
    rw [hrest, hrest', common, List.find?_cons, heq]
    simp [heq]
  · rw [if_neg heq, hchainA, hchainB]
    exact ⟨_, _, _, hlineA, hlineB, rfl, find?_common chainA chainB⟩

/-! ## Registration in order -/

/-- Some type has the id. -/
def Taken (env : TypeEnvironment) (id : UInt16) : Prop :=
  (env.types[id]?).isSome ∨ env.pairElementCache.contains id = true ∨
    env.functionTypeCache.contains id = true

/-- No query has been answered with `false` that the type below the given one would answer
otherwise. -/
def Unasked (env : TypeEnvironment) (id above : UInt16) : Prop :=
  ∀ b, Below env.parent above b → env.subtypeCache[(id, b)]? ≠ some false

/-- Where the calls do not register types out of order: an id is free that is given out, a supertype
has been registered and is no pair type, and no query has told the type and its supertypes apart
before. -/
def InOrder (env : TypeEnvironment) : Registration → Prop
  | .userType _ _ _ supertype => ¬ env.Taken env.nextUserId ∧ ∀ s ∈ supertype,
      env.Taken s.id ∧ env.isTrackedPairType s = false ∧ env.Unasked env.nextUserId s.id
  | .pairType carType cdrType =>
    (∃ (id : UInt16) (elements : TypeId × TypeId), env.pairElementCache[id]? = some elements ∧
        pairKey elements = pairKey (carType, cdrType)) ∨
      (¬ env.Taken env.nextPairTypeId ∧ env.Unasked env.nextPairTypeId BuiltinTypes.pair.id)
  | .functionType _ _ _ => True

lemma parent_of_free {id : UInt16} (h : ¬ env.Taken id) : env.parent id = none := by
  simp only [Taken, not_or, Bool.not_eq_true, Option.isSome_eq_false_iff, Option.isNone_iff_eq_none] at h
  rw [parent_of_untracked h.2.1, h.1]
  rfl

/-- No line goes through a free id. -/
lemma WellFormed.free_not_mem (h : env.WellFormed) {id n : UInt16} {l : List UInt16}
    (hl : Line env.parent id l) (hn : ¬ env.Taken n) (hne : id ≠ n) : n ∉ l := by
  induction hl with
  | root => simpa using hne.symm
  | @step a b l hstep hl ih =>
    rw [List.mem_cons, not_or]
    refine ⟨hne.symm, ih ?_⟩
    rintro rfl
    refine hn ?_
    rw [parent] at hstep
    split_ifs at hstep with htracked
    · cases hstep
      exact .inl h.pairNode
    · obtain ⟨s, hs, rfl⟩ := Option.map_eq_some_iff.1 hstep
      obtain ⟨node, hnode, hsuper⟩ := Option.bind_eq_some_iff.1 hs
      exact (h.supertype a node s hnode hsuper).2.imp (fun hnode => hnode) .inr

/-- Giving a parent to a free id leaves the other lines and answers as they are. -/
lemma WellFormed.below_update (h : env.WellFormed) {env' : TypeEnvironment} {n : UInt16}
    (hn : ¬ env.Taken n) (hsame : ∀ x, x ≠ n → env'.parent x = env.parent x) {a : UInt16} (ha : a ≠ n) :
    ∃ l, Line env.parent a l ∧ Line env'.parent a l := by
  obtain ⟨l, hl⟩ := h.line a
  exact ⟨l, hl, hl.update (h.free_not_mem hl hn ha) hsame⟩

lemma WellFormed.line_update (h : env.WellFormed) {env' : TypeEnvironment} {n : UInt16}
    (hn : ¬ env.Taken n) (hsame : ∀ x, x ≠ n → env'.parent x = env.parent x)
    (hparent : ∀ s, env'.parent n = some s → s ≠ n) (a : UInt16) : ∃ l, Line env'.parent a l := by
  have hother : ∀ x, x ≠ n → ∃ l, Line env'.parent x l := fun x hx => by
    obtain ⟨l, -, hl⟩ := h.below_update hn hsame hx
    exact ⟨l, hl⟩
  by_cases ha : a = n
  · subst ha
    cases hp : env'.parent a with
    | none => exact ⟨_, .root hp⟩
    | some s =>
      obtain ⟨l, hl⟩ := hother s (hparent s hp)
      exact ⟨_, .step hp hl⟩
  · exact hother a ha

/-- The memo table stays right. -/
lemma WellFormed.cache_update (h : env.WellFormed) {env' : TypeEnvironment} {n : UInt16}
    (hn : ¬ env.Taken n) (hsame : ∀ x, x ≠ n → env'.parent x = env.parent x)
    (hparent : ∀ s, env'.parent n = some s → s ≠ n ∧ env.Unasked n s)
    (hcache : env'.subtypeCache = env.subtypeCache) (a b : UInt16) (v : Bool)
    (hv : env'.subtypeCache[(a, b)]? = some v) : v = true ↔ Below env'.parent a b := by
  rw [hcache] at hv
  have hold := h.cache a b v hv
  by_cases ha : a = n
  · subst ha
    have hroot := Line.root (parent_of_free hn)
    rw [← hroot.mem_iff, List.mem_singleton] at hold
    cases hp : env'.parent a with
    | none => rw [hold, ← (Line.root hp).mem_iff, List.mem_singleton]
    | some s =>
      obtain ⟨hs, hunasked⟩ := hparent s hp
      obtain ⟨l, hl, hl'⟩ := h.below_update hn hsame hs
      rw [below_parent hp, ← hl'.mem_iff, hl.mem_iff, hold]
      refine ⟨fun hb => .inl hb.symm, fun hor => ?_⟩
      obtain rfl | hbelow := hor
      · rfl
      · cases v with
        | true => exact hold.1 rfl
        | false => exact absurd hv (hunasked b hbelow)
  · obtain ⟨l, hl, hl'⟩ := h.below_update hn hsame ha
    rw [hold, ← hl.mem_iff, hl'.mem_iff]

/-! ## Steps -/

lemma supertype_addNode (env : TypeEnvironment) (node : TypeNode) (id : UInt16) :
    ((env.addNode node).types[id]?).bind TypeNode.supertype =
      if node.id.id = id then node.supertype else (env.types[id]?).bind TypeNode.supertype := by
  have hdefinition : ∀ o : Option TypeNode, o.bind TypeNode.supertype =
      (o.map TypeNode.definition).bind TypeNode.supertype := by
    rintro (_ | node) <;> rfl
  rw [hdefinition, addNode_definition]
  split_ifs with h
  · rfl
  · rw [← hdefinition]

lemma isSome_addNode (env : TypeEnvironment) (node : TypeNode) (id : UInt16) :
    ((env.addNode node).types[id]?).isSome ↔ node.id.id = id ∨ (env.types[id]?).isSome := by
  rw [← Option.isSome_map (f := TypeNode.definition), addNode_definition]
  split_ifs with h <;> simp [h]

/-- A type under a free id, below a type that is there and is no pair type. -/
lemma WellFormed.addNode (h : env.WellFormed) {node : TypeNode} (hn : ¬ env.Taken node.id.id)
    (hsuper : ∀ s ∈ node.supertype, env.Taken s.id ∧ env.isTrackedPairType s = false ∧
      env.Unasked node.id.id s.id) : (env.addNode node).WellFormed := by
  have huntracked : env.pairElementCache.contains node.id.id = false := by
    simp only [Taken, not_or, Bool.not_eq_true] at hn
    exact hn.2.1
  have hparentNew : (env.addNode node).parent node.id.id = node.supertype.map TypeId.id := by
    rw [parent, addNode_pairElementCache, huntracked, if_neg Bool.false_ne_true, supertype_addNode, if_pos rfl]
  have hsame : ∀ x, x ≠ node.id.id → (env.addNode node).parent x = env.parent x := by
    intro x hx
    rw [parent, parent, addNode_pairElementCache, supertype_addNode, if_neg hx.symm]
  have hparent : ∀ s, (env.addNode node).parent node.id.id = some s →
      s ≠ node.id.id ∧ env.Unasked node.id.id s := by
    intro s hs
    rw [hparentNew] at hs
    obtain ⟨t, ht, rfl⟩ := Option.map_eq_some_iff.1 hs
    obtain ⟨htaken, -, hunasked⟩ := hsuper t ht
    exact ⟨fun heq => hn (heq ▸ htaken), hunasked⟩
  refine ⟨h.line_update hn hsame fun s hs => (hparent s hs).1, ?_, fun id hid => ?_,
    fun id node' s hnode' hs => ?_, h.cache_update hn hsame hparent (addNode_subtypeCache env node)⟩
  · exact (isSome_addNode env node _).2 (.inr h.pairNode)
  · rw [addNode_pairElementCache] at hid
    have hne : node.id.id ≠ id := by
      rintro rfl
      rw [huntracked] at hid
      cases hid
    have hnone := h.noNode id hid
    rw [← Option.isNone_iff_eq_none, ← Option.not_isSome] at hnone ⊢
    rw [Bool.not_eq_true', Bool.eq_false_iff] at hnone ⊢
    exact fun hsome => hnone (((isSome_addNode env node id).1 hsome).resolve_left hne)
  · rw [addNode_pairElementCache, addNode_functionTypeCache]
    have hbind : ((env.addNode node).types[id]?).bind TypeNode.supertype = some s := by
      rw [hnode', Option.bind_some, hs]
    have htaken : (env.pairElementCache.contains s.id = false) ∧ env.Taken s.id := by
      rw [supertype_addNode] at hbind
      split_ifs at hbind with hid
      · obtain ⟨htaken, hpair, -⟩ := hsuper s hbind
        exact ⟨hpair, htaken⟩
      · obtain ⟨old, hold, hsold⟩ := Option.bind_eq_some_iff.1 hbind
        obtain ⟨hpair, hor⟩ := h.supertype id old s hold hsold
        exact ⟨hpair, hor.imp (fun h => h) .inr⟩
    refine ⟨htaken.1, ?_⟩
    rw [isSome_addNode]
    obtain hnode | hpair | hfunction := htaken.2
    · exact .inl (.inr hnode)
    · rw [htaken.1] at hpair
      cases hpair
    · exact .inr hfunction

/-- A pair type under a free id. -/
lemma WellFormed.addPair (h : env.WellFormed) {n next : UInt16} {elements : TypeId × TypeId}
    (hn : ¬ env.Taken n) (hunasked : env.Unasked n BuiltinTypes.pair.id) :
    ({ env with pairElementCache := env.pairElementCache.insert n elements, nextPairTypeId := next } :
      TypeEnvironment).WellFormed := by
  let env' : TypeEnvironment :=
    { env with pairElementCache := env.pairElementCache.insert n elements, nextPairTypeId := next }
  have hcontains : ∀ x, env'.pairElementCache.contains x =
      (decide (n = x) || env.pairElementCache.contains x) := by
    intro x
    simp [env', Std.TreeMap.contains_insert, BEq.beq]
  have hsame : ∀ x, x ≠ n → env'.parent x = env.parent x := by
    intro x hx
    rw [parent, parent, hcontains, decide_eq_false hx.symm, Bool.false_or]
  have hparentNew : env'.parent n = some BuiltinTypes.pair.id := by
    rw [parent, hcontains, decide_eq_true rfl, Bool.true_or, if_pos rfl]
  have hpair : BuiltinTypes.pair.id ≠ n := by
    rintro rfl
    exact hn (.inl h.pairNode)
  have hparent : ∀ s, env'.parent n = some s → s ≠ n ∧ env.Unasked n s := by
    intro s hs
    cases hparentNew.symm.trans hs
    exact ⟨hpair, hunasked⟩
  refine ⟨h.line_update hn hsame fun s hs => (hparent s hs).1, h.pairNode, fun id hid => ?_,
    fun id node s hnode hs => ?_, h.cache_update hn hsame hparent rfl⟩
  · rw [hcontains, Bool.or_eq_true, decide_eq_true_eq] at hid
    obtain rfl | hid := hid
    · simp only [Taken, not_or, Bool.not_eq_true, Option.isSome_eq_false_iff,
        Option.isNone_iff_eq_none] at hn
      exact hn.1
    · exact h.noNode id hid
  · obtain ⟨huntracked, hor⟩ := h.supertype id node s hnode hs
    refine ⟨?_, hor⟩
    have hne : n ≠ s.id := by
      rintro rfl
      exact hn (hor.imp (fun h => h) .inr)
    rw [hcontains, decide_eq_false hne, Bool.false_or, huntracked]

/-- More function types. -/
lemma WellFormed.addFunction (h : env.WellFormed) {cache : Std.TreeMap UInt16 PiFunctionType}
    {next : UInt16}
    (hcache : ∀ id, env.functionTypeCache.contains id = true → cache.contains id = true) :
    ({ env with functionTypeCache := cache, nextFunctionTypeId := next } : TypeEnvironment).WellFormed :=
  ⟨h.line, h.pairNode, h.noNode, fun id node s hnode hs =>
    (h.supertype id node s hnode hs).imp_right fun hor => hor.imp_right (hcache _), h.cache⟩

/-- A call in order keeps the environment well formed. -/
lemma WellFormed.register (h : env.WellFormed) {r : Registration} (hr : env.InOrder r) :
    (register env r).2.WellFormed := by
  cases r with
  | userType name level flags supertype =>
    have hnext : ({ env with nextUserId := env.nextUserId + 1 } : TypeEnvironment).WellFormed :=
      ⟨h.line, h.pairNode, h.noNode, h.supertype, h.cache⟩
    show (TypeEnvironment.addNode _ (.userNode _ name supertype)).WellFormed
    exact hnext.addNode hr.1 hr.2
  | pairType carType cdrType =>
    let found : TypeId × TypeId → Bool := fun elements => elements.1 == carType && elements.2 == cdrType
    let result := Interning.intern env.pairElementCache env.nextPairTypeId found (carType, cdrType)
    show ({ env with pairElementCache := result.2.1, nextPairTypeId := result.2.2 } :
      TypeEnvironment).WellFormed
    obtain ⟨id, elements, hget, hkey⟩ | ⟨hfree, hunasked⟩ := hr
    · have hfound : found elements = true := (pairFound carType cdrType elements).2 hkey
      rw [show result.2 = _ from Interning.intern_old hget hfound]
      exact h
    · obtain hold | hnew :=
        Interning.intern_cases env.pairElementCache env.nextPairTypeId found (carType, cdrType)
      · rw [show result.2 = _ from hold]
        exact h
      · rw [show result.2 = _ from hnew]
        exact h.addPair hfree hunasked
  | functionType paramTypes returnType isVariadic =>
    let result := Interning.intern env.functionTypeCache env.nextFunctionTypeId
      (PiFunctionType.hasTypes paramTypes returnType isVariadic) (.make paramTypes returnType isVariadic)
    show ({ env with functionTypeCache := result.2.1, nextFunctionTypeId := result.2.2 } :
      TypeEnvironment).WellFormed
    refine h.addFunction fun id hid => ?_
    obtain hold | hnew := Interning.intern_cases env.functionTypeCache env.nextFunctionTypeId
      (PiFunctionType.hasTypes paramTypes returnType isVariadic) (.make paramTypes returnType isVariadic)
    · rw [show result.2 = _ from hold]
      exact hid
    · rw [show result.2 = _ from hnew, Std.TreeMap.contains_insert, hid, Bool.or_true]

/-! ## The built-in types -/

lemma supertype_initial (id : UInt16) :
    (initial.types[id]?).bind TypeNode.supertype = (builtinNode id).bind TypeNode.supertype := by
  have hdefinition : ∀ o : Option TypeNode, o.bind TypeNode.supertype =
      (o.map TypeNode.definition).bind TypeNode.supertype := by
    rintro (_ | node) <;> rfl
  rw [hdefinition, initial_definition, ← hdefinition]

lemma isSome_initial (id : UInt16) : (initial.types[id]?).isSome = (builtinNode id).isSome := by
  rw [← Option.isSome_map (f := TypeNode.definition), initial_definition, Option.isSome_map]

lemma untracked_initial (id : UInt16) : initial.pairElementCache.contains id = false := by
  rw [initial, (emptyEnvironment.foldl_addNode builtinTypes).1]
  simp [emptyEnvironment]

/-- The built-in types are registered in order. -/
lemma initial_wellFormed : initial.WellFormed := by
  have hrank : ∀ node ∈ builtinTypes, ∀ s ∈ node.supertype, (builtinNode s.id).isSome ∧
      builtinTypes.findIdx (·.id.id == s.id) < builtinTypes.findIdx (·.id.id == node.id.id) := by decide
  have hbuiltin : ∀ id s, (initial.types[id]?).bind TypeNode.supertype = some s →
      (builtinNode s.id).isSome ∧
        builtinTypes.findIdx (·.id.id == s.id) < builtinTypes.findIdx (·.id.id == id) := by
    intro id s hs
    rw [supertype_initial] at hs
    obtain ⟨node, hnode, hsuper⟩ := Option.bind_eq_some_iff.1 hs
    have hid : node.id.id = id := by simpa using List.find?_some hnode
    rw [← hid]
    exact hrank node (List.mem_reverse.1 (List.mem_of_find?_eq_some hnode)) s hsuper
  refine ⟨exists_line (fun id => builtinTypes.findIdx (·.id.id == id)) fun x y hxy => ?_, ?_,
    fun id hid => ?_, fun id node s hnode hs => ⟨untracked_initial _, .inl ?_⟩, fun a b v hv => ?_⟩
  · rw [parent_of_untracked (untracked_initial x)] at hxy
    obtain ⟨s, hs, rfl⟩ := Option.map_eq_some_iff.1 hxy
    exact (hbuiltin x s hs).2
  · rw [isSome_initial]
    decide
  · rw [untracked_initial] at hid
    cases hid
  · rw [isSome_initial]
    exact (hbuiltin id s (by rw [hnode, Option.bind_some, hs])).1
  · rw [initial, (emptyEnvironment.foldl_addNode builtinTypes).2.2.2.2.2] at hv
    simp [emptyEnvironment] at hv

/-! ## Runs -/

/-- The environments that queries and registrations in order lead to. -/
inductive Reachable : TypeEnvironment → Prop where
  | initial : Reachable initial
  | register {env : TypeEnvironment} {r : Registration} (h : Reachable env) (hr : env.InOrder r) :
    Reachable (register env r).2
  | query {env env' : TypeEnvironment} {sub super : TypeId} {v : Bool} (h : Reachable env)
    (hquery : env.isSubtype sub super = some (v, env')) : Reachable env'

/-- Run lemma of the type environment. -/
lemma Reachable.wellFormed (h : Reachable env) : env.WellFormed := by
  induction h with
  | initial => exact initial_wellFormed
  | register _ hr ih => exact ih.register hr
  | query _ hquery ih =>
    obtain ⟨result, hresult, -, cache, -, hwf⟩ := ih.isSubtype_spec _ _
    cases hresult.symm.trans hquery
    exact hwf

lemma unasked_of_all {id : UInt16} (h : env.subtypeCache.toList.all (fun e => e.1.1 != id || e.2) = true)
    (above : UInt16) : env.Unasked id above := by
  intro b _ hb
  have : Std.LawfulEqCmp pairOrder := ⟨pairOrder_eq_iff.1⟩
  have hentry := List.all_eq_true.1 h _ (Std.TreeMap.mem_toList_iff_getElem?_eq_some.2 hb)
  simp at hentry

/-- The environment that a query leaves. -/
def asked (env : TypeEnvironment) (sub super : TypeId) : TypeEnvironment :=
  ((env.isSubtype sub super).map Prod.snd).getD env

lemma Reachable.asked (h : Reachable env) (sub super : TypeId) : Reachable (env.asked sub super) := by
  rw [TypeEnvironment.asked]
  cases hquery : env.isSubtype sub super with
  | none => exact h
  | some result => exact .query (v := result.1) h hquery

/-- `isSubtype` answers `true`. -/
def IsSubtype (env : TypeEnvironment) (a b : TypeId) : Prop :=
  (env.isSubtype a b).map Prod.fst = some true

/-- The memo table is never stale, and subtyping is a partial order in which types with a common
supertype have a least one. -/
structure SubtypesSoundly (env : TypeEnvironment) : Prop where
  cached : ∀ a b, (env.isSubtype a b).map Prod.fst = (env.isSubtypeUncached a b).map Prod.fst ∧
    (env.isSubtype a b).isSome
  refl : ∀ a, env.IsSubtype a a
  trans : ∀ a b c, env.IsSubtype a b → env.IsSubtype b c → env.IsSubtype a c
  antisymm : ∀ a b, env.IsSubtype a b → env.IsSubtype b a → a == b
  common_comm : ∀ a b, ∃ r r', env.leastCommonSupertype a b = some r ∧
    env.leastCommonSupertype b a = some r' ∧ r.map TypeId.id = r'.map TypeId.id
  common_least : ∀ a b c, env.IsSubtype a c → env.IsSubtype b c → ∃ m,
    env.leastCommonSupertype a b = some (some m) ∧ env.IsSubtype a m ∧ env.IsSubtype b m ∧
      ∀ c, env.IsSubtype a c → env.IsSubtype b c → env.IsSubtype m c

lemma WellFormed.isSubtype_iff (h : env.WellFormed) (a b : TypeId) :
    env.IsSubtype a b ↔ Below env.parent a.id b.id := by
  obtain ⟨result, hresult, hiff, -⟩ := h.isSubtype_spec a b
  rw [IsSubtype, hresult, Option.map_some, Option.some_inj, hiff]

/-- The cache answers as the hierarchy does. -/
lemma WellFormed.subtypesSoundly (h : env.WellFormed) : env.SubtypesSoundly := by
  refine ⟨fun a b => ?_, fun a => ?_, fun a b c => ?_, fun a b => ?_, fun a b => ?_, fun a b c => ?_⟩
  · obtain ⟨result, hresult, hiff, -⟩ := h.isSubtype_spec a b
    obtain ⟨result', hresult', hiff', -⟩ := h.isSubtypeUncached_spec a b
    rw [hresult, hresult']
    refine ⟨congrArg some (Bool.eq_iff_iff.2 (hiff.trans hiff'.symm)), rfl⟩
  · rw [h.isSubtype_iff]
    exact .refl
  · simp only [h.isSubtype_iff]
    exact .trans
  · simp only [h.isSubtype_iff, typeId_beq]
    obtain ⟨l, hl⟩ := h.line a.id
    exact Below.antisymm hl
  · obtain ⟨la, lb, r, hla, hlb, hr, hmap⟩ := h.leastCommonSupertype_spec a b
    obtain ⟨lb', la', r', hlb', hla', hr', hmap'⟩ := h.leastCommonSupertype_spec b a
    cases hla.unique hla'
    cases hlb.unique hlb'
    exact ⟨r, r', hr, hr', by rw [hmap, hmap', common_comm hla hlb]⟩
  · simp only [h.isSubtype_iff]
    intro hac hbc
    obtain ⟨la, lb, r, hla, hlb, hr, hmap⟩ := h.leastCommonSupertype_spec a b
    cases r with
    | none => exact absurd hbc ((common_eq_none hla hlb).1 hmap.symm c.id hac)
    | some m =>
      obtain ⟨ham, hbm, hleast⟩ := common_eq_some hla hlb hmap.symm
      exact ⟨m, hr, ham, hbm, fun c hac hbc => hleast c.id hac hbc⟩

/-- In every environment reached by queries and by registrations in order. -/
theorem reachable_subtypesSoundly (h : Reachable env) : env.SubtypesSoundly := h.wellFormed.subtypesSoundly

/-- A first user-defined type, below `Value`. -/
def firstUserType : Registration := .userType "T" .u0 0 (some BuiltinTypes.value)

def firstUserTypeId : TypeId := ⟨1000, .u0, 0⟩

/-- A user-defined type below the first one. -/
def secondUserType : Registration := .userType "U" .u0 0 (some firstUserTypeId)

/-- The environment after the first user-defined type and two queries about it, which are answered
with `true` and `false`. -/
def askedInOrder : TypeEnvironment :=
  ((register initial firstUserType).2.asked firstUserTypeId BuiltinTypes.value).asked
    firstUserTypeId BuiltinTypes.pair

/-- Both types, and the type of their pairs. -/
def threeTypes : TypeEnvironment :=
  (register (register askedInOrder secondUserType).2 (.pairType firstUserTypeId ⟨1001, .u0, 0⟩)).2

theorem reachable_subtypesSoundly_threeTypes :
    Reachable threeTypes ∧ threeTypes.SubtypesSoundly ∧
      threeTypes.IsSubtype ⟨1001, .u0, 0⟩ BuiltinTypes.value ∧
      threeTypes.IsSubtype ⟨300, .u1, 0⟩ BuiltinTypes.pair := by
  have hfirst : Reachable (register initial firstUserType).2 := by
    refine .register .initial ⟨by rw [Taken]; decide +kernel, ?_⟩
    rintro s ⟨⟩
    exact ⟨.inl (by decide +kernel), by decide +kernel, unasked_of_all (by decide +kernel) _⟩
  have hsecond : Reachable (register askedInOrder secondUserType).2 := by
    refine .register ((hfirst.asked _ _).asked _ _) ⟨by rw [Taken]; decide +kernel, ?_⟩
    rintro s ⟨⟩
    exact ⟨.inl (by decide +kernel), by decide +kernel, unasked_of_all (by decide +kernel) _⟩
  have hpair : Reachable threeTypes :=
    .register hsecond (.inr ⟨by rw [Taken]; decide +kernel, unasked_of_all (by decide +kernel) _⟩)
  exact ⟨hpair, reachable_subtypesSoundly hpair, by rw [IsSubtype]; decide +kernel,
    by rw [IsSubtype]; decide +kernel⟩
/-- The environment after a query about the type before it is registered. -/
def askedEarly : TypeEnvironment := initial.asked firstUserTypeId BuiltinTypes.value

/-- The type stays unrelated to its supertype. -/
theorem askedEarly_stale : (initial.isSubtype firstUserTypeId BuiltinTypes.value).isSome = true ∧
    ¬ (register askedEarly firstUserType).2.SubtypesSoundly := by
  refine ⟨by decide +kernel, fun h => ?_⟩
  have hcached := (h.cached firstUserTypeId BuiltinTypes.value).1
  have hno : ((register askedEarly firstUserType).2.isSubtype firstUserTypeId BuiltinTypes.value).map Prod.fst =
      some false := by decide +kernel
  have hyes : ((register askedEarly firstUserType).2.isSubtypeUncached firstUserTypeId
      BuiltinTypes.value).map Prod.fst = some true := by decide +kernel
  rw [hno, hyes] at hcached
  exact absurd hcached (by decide)

end TypeEnvironment

end Types
