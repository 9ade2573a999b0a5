import Eshkol.Types.Promotion
import Eshkol.Types.Subtyping

/-!
# Promotion does not depend on the order of the operands

The memo table changes while types are promoted, but no answer does. With the answers as truth values the cases are
symmetric, and so is the last of them, the least common supertype, as long as `Pair` has kept its node.
-/

namespace Types

open Forest

namespace TypeEnvironment

variable {env env' : TypeEnvironment}

/-! ## Answers -/

/-- The answer of `isSubtype`. -/
def answer (env : TypeEnvironment) (sub super : TypeId) : Option Bool := (env.isSubtype sub super).map Prod.fst

/-- Another memo table with the same answers. -/
def SameAnswers (env env' : TypeEnvironment) : Prop :=
  (∃ cache, env' = { env with subtypeCache := cache }) ∧ ∀ sub super, env'.answer sub super = env.answer sub super

lemma SameAnswers.refl (env : TypeEnvironment) : env.SameAnswers env := ⟨⟨env.subtypeCache, rfl⟩, fun _ _ => rfl⟩

lemma SameAnswers.trans {env'' : TypeEnvironment} (h : env.SameAnswers env') (h' : env'.SameAnswers env'') :
    env.SameAnswers env'' := by
  obtain ⟨⟨cache, rfl⟩, hanswer⟩ := h
  obtain ⟨⟨cache', rfl⟩, hanswer'⟩ := h'
  exact ⟨⟨cache', rfl⟩, fun sub super => (hanswer' sub super).trans (hanswer sub super)⟩

/-- `Pair` is no pair type itself, and has no supertype. -/
structure PairRoot (env : TypeEnvironment) : Prop where
  untracked : env.isTrackedPairType BuiltinTypes.pair = false
  root : (env.types[BuiltinTypes.pair.id]?).bind TypeNode.supertype = none

/-- The answer for a type that is no pair type, without the memo table. -/
def walkAnswer (env : TypeEnvironment) (sub super : TypeId) : Option Bool :=
  if sub == super then some true
  else match env.getTypeNode sub with
    | none => some false
    | some node => env.walkSupertypes super (env.types.size + 1) node

/-- The environment that remembers an answer. -/
def remember (env : TypeEnvironment) (sub super : TypeId) (v : Bool) : TypeEnvironment :=
  { env with subtypeCache := env.subtypeCache.insert (sub.id, super.id) v }

lemma isSubtypeUncachedWith_untracked
    (isSubtype : TypeEnvironment → TypeId → TypeId → Option (Bool × TypeEnvironment)) {sub : TypeId} (super : TypeId)
    (hsub : env.isTrackedPairType sub = false) :
    isSubtypeUncachedWith isSubtype env sub super = (env.walkAnswer sub super).map (·, env) := by
  unfold isSubtypeUncachedWith walkAnswer
  split_ifs with heq htracked
  · rfl
  · rw [hsub] at htracked
    cases htracked
  · rw [hsub] at htracked
    cases htracked
  · cases env.getTypeNode sub with
    | none => rfl
    | some node => rfl

/-- The memo table comes first. -/
lemma isSubtypeWithin_untracked (depth : ℕ) {sub : TypeId} (super : TypeId)
    (hsub : env.isTrackedPairType sub = false) :
    (isSubtypeWithin (depth + 1) env sub super).map Prod.fst =
        (env.subtypeCache[(sub.id, super.id)]?).or (env.walkAnswer sub super) ∧
      ∀ v env', isSubtypeWithin (depth + 1) env sub super = some (v, env') →
        env' = env ∨ env' = env.remember sub super v := by
  rw [isSubtypeWithin]
  cases hcached : env.subtypeCache[(sub.id, super.id)]? with
  | some v =>
    refine ⟨rfl, fun v' env' hresult => Or.inl ?_⟩
    exact (Prod.ext_iff.1 (Option.some.inj hresult)).2.symm
  | none =>
    simp only [isSubtypeUncachedWith_untracked _ super hsub, Option.map_map, Option.none_or]
    constructor
    · cases env.walkAnswer sub super with
      | none => rfl
      | some v => rfl
    · intro v env' hresult
      obtain ⟨v', -, hv⟩ := Option.map_eq_some_iff.1 hresult
      obtain ⟨rfl, rfl⟩ := Prod.ext_iff.1 hv
      exact Or.inr rfl

lemma answer_untracked {sub : TypeId} (super : TypeId) (hsub : env.isTrackedPairType sub = false) :
    env.answer sub super = (env.subtypeCache[(sub.id, super.id)]?).or (env.walkAnswer sub super) :=
  (isSubtypeWithin_untracked 1 super hsub).1

/-- A pair type is below what `Pair` is below. -/
lemma answer_tracked (hroot : env.PairRoot) {sub : TypeId} (super : TypeId)
    (hsub : env.isTrackedPairType sub = true) :
    env.answer sub super = (env.subtypeCache[(sub.id, super.id)]?).or
      (if sub == super then some true else if super == BuiltinTypes.pair then some true
        else env.answer BuiltinTypes.pair super) := by
  unfold answer isSubtype
  rw [isSubtypeWithin]
  cases env.subtypeCache[(sub.id, super.id)]? with
  | some v => rfl
  | none =>
    simp only [isSubtypeUncachedWith, Option.none_or, Option.map_map, hsub, if_true]
    split_ifs
    · rfl
    · rfl
    · have hone := (@isSubtypeWithin_untracked env 0 _ super hroot.untracked).1
      have htwo := (@isSubtypeWithin_untracked env 1 _ super hroot.untracked).1
      rw [htwo, ← hone]
      cases isSubtypeWithin 1 env BuiltinTypes.pair super with
      | none => rfl
      | some result => rfl

lemma SameAnswers.pairRoot (h : env.SameAnswers env') (hroot : env.PairRoot) : env'.PairRoot := by
  obtain ⟨⟨cache, rfl⟩, -⟩ := h
  exact ⟨hroot.untracked, hroot.root⟩

lemma beq_congr {a a' b b' : TypeId} (ha : a.id = a'.id) (hb : b.id = b'.id) : (a == b) = (a' == b') := by
  show (a.id == b.id) = (a'.id == b'.id)
  rw [ha, hb]

lemma walkSupertypes_congr {super super' : TypeId} (h : super.id = super'.id) (fuel : ℕ) (node : TypeNode) :
    env.walkSupertypes super fuel node = env.walkSupertypes super' fuel node := by
  induction fuel generalizing node with
  | zero => rfl
  | succ fuel ih =>
    unfold walkSupertypes
    cases node.supertype with
    | none => rfl
    | some supertype => simp only [beq_congr rfl h, ih]

/-- The memo table is not asked along the walk. -/
lemma walkAnswer_remember (sub super x s : TypeId) (v : Bool) :
    (env.remember sub super v).walkAnswer x s = env.walkAnswer x s := by
  have hwalk (fuel : ℕ) (node : TypeNode) :
      (env.remember sub super v).walkSupertypes s fuel node = env.walkSupertypes s fuel node := by
    induction fuel generalizing node with
    | zero => rfl
    | succ fuel ih =>
      unfold walkSupertypes
      cases node.supertype with
      | none => rfl
      | some supertype => simp only [ih]; rfl
  unfold walkAnswer
  simp only [hwalk]
  rfl

/-- Types are told apart by their numbers. -/
lemma answer_congr (hroot : env.PairRoot) {sub sub' super super' : TypeId} (hsub : sub.id = sub'.id)
    (hsuper : super.id = super'.id) : env.answer sub super = env.answer sub' super' := by
  have huntracked {sub sub' : TypeId} (hsub : sub.id = sub'.id) (h : env.isTrackedPairType sub = false) :
      env.answer sub super = env.answer sub' super' := by
    have h' : env.isTrackedPairType sub' = false := by
      rw [← h, isTrackedPairType, isTrackedPairType, hsub]
    rw [answer_untracked _ h, answer_untracked _ h', hsub, hsuper]
    unfold walkAnswer getTypeNode
    simp only [beq_congr hsub hsuper, hsub, walkSupertypes_congr hsuper]
  cases h : env.isTrackedPairType sub with
  | false => exact huntracked hsub h
  | true =>
    have h' : env.isTrackedPairType sub' = true := by
      rw [← h, isTrackedPairType, isTrackedPairType, hsub]
    rw [answer_tracked hroot _ h, answer_tracked hroot _ h', hsub, hsuper, beq_congr hsub hsuper,
      beq_congr hsuper rfl, huntracked rfl hroot.untracked]

/-- Remembering an answer changes none. -/
lemma SameAnswers.remember (hroot : env.PairRoot) {sub super : TypeId} {v : Bool}
    (h : env.answer sub super = some v) : env.SameAnswers (env.remember sub super v) := by
  have hroot' : (env.remember sub super v).PairRoot := ⟨hroot.untracked, hroot.root⟩
  have hcache (x s : TypeId) : (env.remember sub super v).subtypeCache[(x.id, s.id)]? =
      if sub.id = x.id ∧ super.id = s.id then some v else env.subtypeCache[(x.id, s.id)]? := by
    unfold TypeEnvironment.remember
    rw [Std.TreeMap.getElem?_insert]
    refine if_congr ?_ rfl rfl
    rw [pairOrder_eq_iff, Prod.ext_iff]
  have hsame {x s : TypeId} (hkey : sub.id = x.id ∧ super.id = s.id) : env.answer x s = some v :=
    (answer_congr hroot hkey.1.symm hkey.2.symm).trans h
  have huntracked {x : TypeId} (s : TypeId) (hx : env.isTrackedPairType x = false) :
      (env.remember sub super v).answer x s = env.answer x s := by
    rw [@answer_untracked (env.remember sub super v) x s hx, hcache]
    split_ifs with hkey
    · rw [hsame hkey]
      rfl
    · rw [walkAnswer_remember]
      exact (answer_untracked s hx).symm
  refine ⟨⟨_, rfl⟩, fun x s => ?_⟩
  cases hx : env.isTrackedPairType x with
  | false => exact huntracked s hx
  | true =>
    have htracked := answer_tracked hroot s hx
    rw [answer_tracked hroot' s hx, hcache, huntracked s hroot.untracked]
    by_cases hkey : sub.id = x.id ∧ super.id = s.id
    · rw [if_pos hkey, hsame hkey]
      rfl
    · rw [if_neg hkey, htracked]

/-- A query changes no answer. -/
lemma sameAnswers_query (hroot : env.PairRoot) {sub super : TypeId} {v : Bool}
    (hquery : env.isSubtype sub super = some (v, env')) : env.SameAnswers env' := by
  have hanswer : env.answer sub super = some v := by
    rw [answer, hquery]
    rfl
  cases hsub : env.isTrackedPairType sub with
  | false =>
    rcases (isSubtypeWithin_untracked 1 super hsub).2 v env' hquery with rfl | rfl
    · exact .refl _
    · exact .remember hroot hanswer
  | true =>
    unfold isSubtype at hquery
    rw [isSubtypeWithin] at hquery
    cases hcached : env.subtypeCache[(sub.id, super.id)]? with
    | some v' =>
      rw [hcached] at hquery
      obtain ⟨-, rfl⟩ := Prod.ext_iff.1 (Option.some.inj hquery)
      exact .refl _
    | none =>
      rw [hcached] at hquery
      obtain ⟨⟨v', env₁⟩, huncached, hresult⟩ := Option.map_eq_some_iff.1 hquery
      obtain ⟨rfl, rfl⟩ := Prod.ext_iff.1 hresult
      -- the question about `Pair` has been remembered first, if it was asked
      have hfirst : env.SameAnswers env₁ := by
        simp only [isSubtypeUncachedWith, hsub, if_true] at huncached
        split_ifs at huncached
        · obtain ⟨-, rfl⟩ := Prod.ext_iff.1 (Option.some.inj huncached)
          exact .refl _
        · obtain ⟨-, rfl⟩ := Prod.ext_iff.1 (Option.some.inj huncached)
          exact .refl _
        · rcases (isSubtypeWithin_untracked 0 super hroot.untracked).2 v' env₁ huncached with rfl | rfl
          · exact .refl _
          · refine .remember hroot ?_
            rw [answer_untracked _ hroot.untracked, ← (isSubtypeWithin_untracked 0 super hroot.untracked).1, huncached]
            rfl
      exact hfirst.trans (.remember (hfirst.pairRoot hroot) ((hfirst.2 sub super).trans hanswer))

/-! ## Promotion with truth values -/

end TypeEnvironment

/-- A relation between computations and values that sequencing keeps. -/
structure Related {m : Type → Type} [Monad m] (R : ∀ α, m α → Id α → Prop) : Prop where
  pure {α : Type} (value : α) : R α (pure value) value
  bind {α β : Type} {x : m α} {value : Id α} {next : α → m β} {next' : α → Id β} (hx : R α x value)
    (hnext : ∀ v, R β (next v) (next' v)) : R β (x >>= next) (value >>= next')

namespace Related

variable {m : Type → Type} [Monad m] {R : ∀ α, m α → Id α → Prop}

lemma ite (_ : Related R) {α : Type} {x y : m α} {a b : Id α} {p : Prop} [Decidable p] (hx : R α x a)
    (hy : R α y b) : R α (if p then x else y) (if p then a else b) := by
  split_ifs
  · exact hx
  · exact hy

lemma and (h : Related R) {x y : m Bool} {a b : Id Bool} (hx : R Bool x a) (hy : R Bool y b) :
    R Bool (x <&&> y) (a <&&> b) :=
  h.bind hx fun
    | false => h.pure false
    | true => hy

lemma or (h : Related R) {x y : m Bool} {a b : Id Bool} (hx : R Bool x a) (hy : R Bool y b) :
    R Bool (x <||> y) (a <||> b) :=
  h.bind hx fun
    | false => hy
    | true => h.pure true

/-- Promotion with queries that are related to truth values. -/
lemma promoteWith (h : Related R) {isSubtype : TypeId → TypeId → m Bool}
    {leastCommonSupertype : TypeId → TypeId → m (Option TypeId)} (holds : TypeId → TypeId → Bool)
    (least : TypeId → TypeId → Option TypeId)
    (hquery : ∀ sub super, R _ (isSubtype sub super) (holds sub super)) (a b : TypeId)
    (hleast : R _ (leastCommonSupertype a b) (least a b)) :
    R _ (promoteWith isSubtype leastCommonSupertype a b) (promoteWith (m := Id) holds least a b) := by
  unfold Types.promoteWith
  refine h.ite (h.pure a) (h.ite (h.pure b) (h.ite (h.pure a) ?_))
  refine h.bind (h.and (h.pure _) (h.or (hquery b _) (hquery b _))) fun _ => h.ite (h.pure b) ?_
  refine h.bind (h.and (h.pure _) (h.or (hquery a _) (hquery a _))) fun _ => h.ite (h.pure a) ?_
  refine h.ite (h.pure _) ?_
  have hbig (type : TypeId) := h.or (h.and (h.pure (a == BuiltinTypes.bigInt)) (hquery b type))
    (h.and (h.pure (b == BuiltinTypes.bigInt)) (hquery a type))
  have hboth (type type' : TypeId) := h.and (hquery a type) (hquery b type')
  refine h.bind (hbig _) fun _ => h.ite (h.pure _) (h.bind (hbig _) fun _ => h.ite (h.pure _) ?_)
  refine h.bind (h.or (hboth _ _) (hboth _ _)) fun _ => h.ite (h.pure _) ?_
  refine h.bind (hboth _ _) fun _ => h.ite (h.pure _) (h.bind (hboth _ _) fun _ => h.ite (h.pure _) ?_)
  exact h.bind hleast fun _ => h.pure _

end Related

namespace TypeEnvironment

variable {env : TypeEnvironment}

/-- What a computation returns, if it ends, in the environments with these answers. -/
def Returns {α : Type} (env : TypeEnvironment) (x : StateT TypeEnvironment Option α) (value : α) : Prop :=
  ∀ env', env.SameAnswers env' → ∀ r env'', x env' = some (r, env'') → r = value ∧ env.SameAnswers env''

lemma Returns.pure {α : Type} (value : α) : Returns env (pure value) value := by
  intro env' hsame r env'' hrun
  obtain ⟨rfl, rfl⟩ := Prod.ext_iff.1 (Option.some.inj hrun)
  exact ⟨rfl, hsame⟩

lemma related_returns : Related (m := StateT TypeEnvironment Option) fun _ => Returns env where
  pure := .pure
  bind hx hnext := by
    intro env' hsame r env'' hrun
    obtain ⟨⟨v, env₁⟩, hfirst, hrest⟩ := Option.bind_eq_some_iff.1 hrun
    obtain ⟨rfl, hsame₁⟩ := hx env' hsame v env₁ hfirst
    exact hnext v env₁ hsame₁ r env'' hrest

lemma supertypes_cache (cache : Std.TreeMap (UInt16 × UInt16) Bool pairOrder) (fuel : ℕ) (node : Option TypeNode) :
    ({ env with subtypeCache := cache } : TypeEnvironment).supertypes fuel node = env.supertypes fuel node := by
  induction fuel generalizing node with
  | zero => rfl
  | succ fuel ih =>
    unfold supertypes
    cases node.bind TypeNode.supertype with
    | none => rfl
    | some supertype => simp only [ih]; rfl

lemma leastCommonSupertype_cache (cache : Std.TreeMap (UInt16 × UInt16) Bool pairOrder) (a b : TypeId) :
    ({ env with subtypeCache := cache } : TypeEnvironment).leastCommonSupertype a b = env.leastCommonSupertype a b := by
  have hchain (depth : ℕ) (type : TypeId) :
      ({ env with subtypeCache := cache } : TypeEnvironment).getSupertypeChainWithin depth type =
        env.getSupertypeChainWithin depth type := by
    induction depth generalizing type with
    | zero => rfl
    | succ depth ih =>
      unfold getSupertypeChainWithin
      simp only [ih, supertypes_cache]
      rfl
  unfold leastCommonSupertype getSupertypeChain
  simp only [hchain]

/-- The answer as a truth value. -/
def holds (env : TypeEnvironment) (sub super : TypeId) : Bool := (env.answer sub super).getD false

/-- The least common supertype, if there is one. -/
def least (env : TypeEnvironment) (a b : TypeId) : Option TypeId := (env.leastCommonSupertype a b).getD none

lemma Returns.query (hroot : env.PairRoot) (sub super : TypeId) :
    Returns env (fun env => env.isSubtype sub super) (env.holds sub super) := by
  intro env' hsame r env'' hrun
  have hanswer : env'.answer sub super = some r := congrArg (Option.map Prod.fst) hrun
  refine ⟨?_, hsame.trans (sameAnswers_query (hsame.pairRoot hroot) hrun)⟩
  rw [holds, ← hsame.2, hanswer]
  rfl

lemma Returns.least (a b : TypeId) :
    Returns env (fun env => (env.leastCommonSupertype a b).map (·, env)) (env.least a b) := by
  intro env' hsame r env'' hrun
  obtain ⟨v, hleast, hv⟩ := Option.map_eq_some_iff.1 hrun
  obtain ⟨rfl, rfl⟩ := Prod.ext_iff.1 hv
  refine ⟨?_, hsame⟩
  obtain ⟨⟨cache, rfl⟩, -⟩ := hsame
  rw [leastCommonSupertype_cache] at hleast
  rw [TypeEnvironment.least, hleast]
  rfl

/-- The promoted type, from truth values. -/
def promoted (env : TypeEnvironment) (a b : TypeId) : TypeId := promoteWith (m := Id) env.holds env.least a b

lemma promoteForArithmetic_returns (hroot : env.PairRoot) (a b : TypeId) :
    Returns env (promoteForArithmetic a b) (env.promoted a b) :=
  related_returns.promoteWith _ _ (.query hroot) a b (.least a b)

lemma id_pure {α : Type} (a : α) : (pure a : Id α) = a := rfl

lemma id_bind {α β : Type} (a : α) (f : α → Id β) : ((a : Id α) >>= f) = f a := rfl

lemma id_and (x y : Bool) : (x <&&> y : Id Bool) = (x && y) := by
  cases x <;> rfl

lemma id_or (x y : Bool) : (x <||> y : Id Bool) = (x || y) := by
  cases x <;> rfl

/-- The cases as conditions on truth values. -/
lemma promoted_eq (a b : TypeId) : env.promoted a b =
    if a == b then a
    else if a == BuiltinTypes.value then b
    else if b == BuiltinTypes.value then a
    else if a == BuiltinTypes.number && (env.holds b BuiltinTypes.integer || env.holds b BuiltinTypes.real) then b
    else if b == BuiltinTypes.number && (env.holds a BuiltinTypes.integer || env.holds a BuiltinTypes.real) then a
    else if isComplex a || isComplex b then BuiltinTypes.complex
    else if a == BuiltinTypes.bigInt && env.holds b BuiltinTypes.integer ||
      b == BuiltinTypes.bigInt && env.holds a BuiltinTypes.integer then BuiltinTypes.bigInt
    else if a == BuiltinTypes.bigInt && env.holds b BuiltinTypes.real ||
      b == BuiltinTypes.bigInt && env.holds a BuiltinTypes.real then BuiltinTypes.float64
    else if env.holds a BuiltinTypes.integer && env.holds b BuiltinTypes.real ||
      env.holds a BuiltinTypes.real && env.holds b BuiltinTypes.integer then BuiltinTypes.float64
    else if env.holds a BuiltinTypes.integer && env.holds b BuiltinTypes.integer then BuiltinTypes.int64
    else if env.holds a BuiltinTypes.real && env.holds b BuiltinTypes.real then BuiltinTypes.float64
    else (env.least a b).getD BuiltinTypes.number := by
  unfold promoted promoteWith
  simp only [id_bind, id_pure, id_and, id_or]

/-- The cases do not depend on the order. -/
lemma promoted_comm (a b : TypeId) (hleast : (env.least a b).map TypeId.id = (env.least b a).map TypeId.id) :
    (env.promoted a b).id = (env.promoted b a).id := by
  have hcomm : (b == a) = (a == b) := by
    show (b.id == a.id) = (a.id == b.id)
    exact Bool.beq_comm
  have hget : ((env.least a b).getD BuiltinTypes.number).id = ((env.least b a).getD BuiltinTypes.number).id := by
    have hid (o : Option TypeId) : (o.getD BuiltinTypes.number).id = (o.map TypeId.id).getD BuiltinTypes.number.id := by
      cases o <;> rfl
    rw [hid, hid, hleast]
  rw [promoted_eq, promoted_eq, hcomm]
  by_cases heq : (a == b) = true
  · rw [if_pos heq, if_pos heq]
    exact typeId_beq.1 heq
  rw [if_neg heq, if_neg heq]
  -- not both are `Value`, and not both are `Number`
  have hdistinct (t : TypeId) (ha : (a == t) = true) : (b == t) = false := by
    rw [Bool.eq_false_iff]
    intro hb
    exact heq (typeId_beq.2 ((typeId_beq.1 ha).trans (typeId_beq.1 hb).symm))
  rw [Bool.or_comm (isComplex b) (isComplex a),
    Bool.or_comm (b == BuiltinTypes.bigInt && env.holds a BuiltinTypes.integer),
    Bool.or_comm (b == BuiltinTypes.bigInt && env.holds a BuiltinTypes.real),
    Bool.or_comm (env.holds b BuiltinTypes.integer && env.holds a BuiltinTypes.real),
    Bool.and_comm (env.holds b BuiltinTypes.real) (env.holds a BuiltinTypes.integer),
    Bool.and_comm (env.holds b BuiltinTypes.integer) (env.holds a BuiltinTypes.real),
    Bool.and_comm (env.holds b BuiltinTypes.integer) (env.holds a BuiltinTypes.integer),
    Bool.and_comm (env.holds b BuiltinTypes.real) (env.holds a BuiltinTypes.real)]
  cases haValue : a == BuiltinTypes.value with
  | true =>
    rw [hdistinct _ haValue]
    rfl
  | false =>
    cases hbValue : b == BuiltinTypes.value with
    | true => rfl
    | false =>
      cases haNumber : a == BuiltinTypes.number with
      | true =>
        rw [hdistinct _ haNumber]
        simp only [Bool.true_and, Bool.false_and, Bool.false_eq_true, if_false]
        split_ifs <;> first | rfl | exact hget
      | false =>
        simp only [Bool.false_and, Bool.false_eq_true, if_false]
        split_ifs <;> first | rfl | exact hget

/-! ## Common supertypes of any two types -/

/-- The supertype that the node of a type names. -/
def nodeParent (env : TypeEnvironment) (id : UInt16) : Option UInt16 :=
  ((env.types[id]?).bind TypeNode.supertype).map TypeId.id

lemma supertypes_line {fuel : ℕ} {id : UInt16} {chain : List TypeId}
    (h : env.supertypes fuel (env.types[id]?) = some chain) : Line env.nodeParent id (id :: chain.map TypeId.id) := by
  induction fuel generalizing id chain with
  | zero => cases h
  | succ fuel ih =>
    rw [supertypes] at h
    cases hsuper : (env.types[id]?).bind TypeNode.supertype with
    | none =>
      rw [hsuper] at h
      obtain rfl := Option.some.inj h
      exact .root (by rw [nodeParent, hsuper]; rfl)
    | some supertype =>
      rw [hsuper] at h
      obtain ⟨rest, hrest, rfl⟩ := Option.map_eq_some_iff.1 h
      exact .step (by rw [nodeParent, hsuper]; rfl) (ih hrest)

/-- The chain of a pair type goes to `Pair`, and that of another type from node to node. -/
lemma getSupertypeChain_shape (hroot : env.PairRoot) {type : TypeId} {chain : List TypeId}
    (h : env.getSupertypeChain type = some chain) :
    Line env.nodeParent type.id (chain.map TypeId.id) ∨
      type.id ≠ BuiltinTypes.pair.id ∧ chain.map TypeId.id = [type.id, BuiltinTypes.pair.id] := by
  have huntracked {depth : ℕ} {type : TypeId} {chain : List TypeId} (htype : env.isTrackedPairType type = false)
      (h : env.getSupertypeChainWithin (depth + 1) type = some chain) :
      Line env.nodeParent type.id (chain.map TypeId.id) := by
    rw [getSupertypeChainWithin, htype, if_neg Bool.false_ne_true] at h
    obtain ⟨rest, hrest, rfl⟩ := Option.map_eq_some_iff.1 h
    exact supertypes_line hrest
  cases htype : env.isTrackedPairType type with
  | false => exact Or.inl (huntracked htype h)
  | true =>
    right
    constructor
    · intro hpair
      have huntracked := hroot.untracked
      rw [isTrackedPairType, ← hpair, ← isTrackedPairType, htype] at huntracked
      cases huntracked
    · unfold getSupertypeChain at h
      rw [getSupertypeChainWithin, htype, if_pos rfl] at h
      obtain ⟨rest, hrest, rfl⟩ := Option.map_eq_some_iff.1 h
      have hpairRoot : Line env.nodeParent BuiltinTypes.pair.id [BuiltinTypes.pair.id] :=
        .root (by rw [nodeParent, hroot.root]; rfl)
      rw [List.map_cons, (huntracked hroot.untracked hrest).unique hpairRoot]

/-- A pair type meets the line of another type where that line meets it. -/
lemma common_pair {id a p : UInt16} {l : List UInt16} (hl : Line env.nodeParent id l)
    (hp : env.nodeParent p = none) : common [a, p] l = common l [a, p] := by
  induction hl with
  | @root b hb =>
    unfold common
    by_cases ha : a = b
    · simp [ha]
    · by_cases hpb : p = b
      · simp [hpb, Classical.em]
      · simp [ha, hpb, Ne.symm ha, Ne.symm hpb]
  | @step b c l hstep hl ih =>
    have hpb : p ≠ b := by
      rintro rfl
      rw [hp] at hstep
      cases hstep
    unfold common at ih ⊢
    by_cases ha : a = b
    · simp [ha]
    · simp only [List.find?_cons, List.mem_cons, ha, hpb, Ne.symm ha, Ne.symm hpb, false_or, decide_false,
        List.not_mem_nil, or_false] at ih ⊢
      exact ih

/-- The order of the operands does not matter. -/
lemma least_comm (hroot : env.PairRoot) (a b : TypeId) :
    (env.least a b).map TypeId.id = (env.least b a).map TypeId.id := by
  have hp : env.nodeParent BuiltinTypes.pair.id = none := by
    rw [nodeParent, hroot.root]
    rfl
  have hcomm : (b == a) = (a == b) := by
    show (b.id == a.id) = (a.id == b.id)
    exact Bool.beq_comm
  unfold least leastCommonSupertype
  rw [hcomm]
  by_cases heq : (a == b) = true
  · rw [if_pos heq, if_pos heq]
    exact congrArg some (typeId_beq.1 heq)
  rw [if_neg heq, if_neg heq]
  cases hchainA : env.getSupertypeChain a with
  | none => cases env.getSupertypeChain b <;> rfl
  | some chainA =>
    cases hchainB : env.getSupertypeChain b with
    | none => rfl
    | some chainB =>
      show (chainA.find? fun t => chainB.any fun u => t == u).map TypeId.id =
        (chainB.find? fun t => chainA.any fun u => t == u).map TypeId.id
      rw [find?_common, find?_common]
      rcases getSupertypeChain_shape hroot hchainA with hlineA | ⟨hneA, hpairA⟩
      · rcases getSupertypeChain_shape hroot hchainB with hlineB | ⟨hneB, hpairB⟩
        · exact common_comm hlineA hlineB
        · rw [hpairB]
          exact (common_pair hlineA hp).symm
      · rcases getSupertypeChain_shape hroot hchainB with hlineB | ⟨hneB, hpairB⟩
        · rw [hpairA]
          exact common_pair hlineB hp
        · rw [hpairA, hpairB, common, common]
          have hne : a.id ≠ b.id := fun h => heq (typeId_beq.2 h)
          simp [hne, hneA, hneB, hne.symm]

/-! ## Runs -/

/-- `Pair` is looked up where it was registered first: the counters have not come to its number. -/
def PairKept (env : TypeEnvironment) : Registration → Prop
  | .userType _ _ _ _ => env.nextUserId ≠ BuiltinTypes.pair.id
  | .pairType _ _ => env.nextPairTypeId ≠ BuiltinTypes.pair.id
  | .functionType _ _ _ => True

lemma PairRoot.register (h : env.PairRoot) {r : Registration} (hr : env.PairKept r) :
    (register env r).2.PairRoot := by
  cases r with
  | userType name level flags supertype =>
    constructor
    · show ((TypeEnvironment.addNode _ _).pairElementCache).contains BuiltinTypes.pair.id = false
      rw [addNode_pairElementCache]
      exact h.untracked
    · show ((TypeEnvironment.addNode _ _).types[BuiltinTypes.pair.id]?).bind TypeNode.supertype = none
      rw [supertype_addNode, if_neg]
      · exact h.root
      · exact hr
  | pairType carType cdrType =>
    let found : TypeId × TypeId → Bool := fun elements => elements.1 == carType && elements.2 == cdrType
    let result := Interning.intern env.pairElementCache env.nextPairTypeId found (carType, cdrType)
    show ({ env with pairElementCache := result.2.1, nextPairTypeId := result.2.2 } : TypeEnvironment).PairRoot
    refine ⟨?_, h.root⟩
    show result.2.1.contains BuiltinTypes.pair.id = false
    obtain hold | hnew := Interning.intern_cases env.pairElementCache env.nextPairTypeId found (carType, cdrType)
    · rw [show result.2 = _ from hold]
      exact h.untracked
    · have huntracked : env.pairElementCache.contains BuiltinTypes.pair.id = false := h.untracked
      rw [show result.2 = _ from hnew, Std.TreeMap.contains_insert, huntracked, Bool.or_false]
      simpa [BEq.beq, PairKept] using hr
  | functionType paramTypes returnType isVariadic => exact ⟨h.untracked, h.root⟩

end TypeEnvironment

/-- The environments that registrations, in any order, and queries lead to. -/
inductive Built : TypeEnvironment → Prop where
  | initial : Built initial
  | register {env : TypeEnvironment} {r : Registration} (h : Built env) (hr : env.PairKept r) :
    Built (register env r).2
  | query {env env' : TypeEnvironment} {sub super : TypeId} {v : Bool} (h : Built env)
    (hquery : env.isSubtype sub super = some (v, env')) : Built env'

lemma Built.pairRoot {env : TypeEnvironment} (h : Built env) : env.PairRoot := by
  induction h with
  | initial =>
    have hnone : (builtinNode BuiltinTypes.pair.id).bind TypeNode.supertype = none := by rfl
    exact ⟨TypeEnvironment.untracked_initial _, (TypeEnvironment.supertype_initial _).trans hnone⟩
  | register _ hr ih => exact ih.register hr
  | query _ hquery ih => exact (TypeEnvironment.sameAnswers_query ih hquery).pairRoot ih

/-! ## Promotion ends -/

/-- A computation that ends in well-formed environments, and leaves one. -/
def Ends {α : Type} (x : StateT TypeEnvironment Option α) : Prop :=
  ∀ env : TypeEnvironment, env.WellFormed → ∃ r env', x env = some (r, env') ∧ env'.WellFormed

lemma related_ends : Related (m := StateT TypeEnvironment Option) fun _ x _ => Ends x where
  pure value := fun env h => ⟨value, env, rfl, h⟩
  bind hx hnext := by
    intro env h
    obtain ⟨v, env₁, hfirst, h₁⟩ := hx env h
    obtain ⟨r, env₂, hrest, h₂⟩ := hnext v env₁ h₁
    exact ⟨r, env₂, Option.bind_eq_some_iff.2 ⟨(v, env₁), hfirst, hrest⟩, h₂⟩

/-- Promotion ends. -/
lemma promoteForArithmetic_ends (a b : TypeId) : Ends (TypeEnvironment.promoteForArithmetic a b) := by
  refine related_ends.promoteWith default default (fun sub super env h => ?_) a b fun env h => ?_
  · obtain ⟨result, hresult, -, cache, -, hwellFormed⟩ := h.isSubtype_spec sub super
    exact ⟨result.1, result.2, hresult, hwellFormed⟩
  · obtain ⟨-, -, r, -, -, hr, -⟩ := h.leastCommonSupertype_spec a b
    exact ⟨r, env, congrArg (Option.map (·, env)) hr, h⟩

/-! ## Sums of any number of operands -/

/-- The promotion of all operand types, from the left. -/
def promoteAll (first : TypeId) (types : List TypeId) : StateT TypeEnvironment Option TypeId :=
  types.foldlM TypeEnvironment.promoteForArithmetic first

/-- Types that leave the promoted type as it is. -/
lemma promoteAll_absorbed {env : TypeEnvironment} (hroot : env.PairRoot) {type : TypeId} {types : List TypeId}
    (habsorbed : ∀ t ∈ types, env.promoted type t = type) : env.Returns (promoteAll type types) type := by
  induction types with
  | nil => exact .pure type
  | cons t types ih =>
    have hfirst := TypeEnvironment.promoteForArithmetic_returns hroot type t
    rw [habsorbed t List.mem_cons_self] at hfirst
    intro env' hsame r env'' hrun
    obtain ⟨⟨v, env₁⟩, hstep, hrest⟩ := Option.bind_eq_some_iff.1 hrun
    obtain ⟨rfl, hsame₁⟩ := hfirst env' hsame v env₁ hstep
    exact ih (fun t ht => habsorbed t (List.mem_cons_of_mem _ ht)) env₁ hsame₁ r env'' hrest

/-- Promotion does not depend on the order of its operands, and ends where types are registered in order. The type of
an arithmetic expression is the promoted type of its first two operands, and that of all operands if the others leave
it as it is. -/
theorem arithmetic_types {env : TypeEnvironment} (h : Built env) :
    (∀ a b r r' env₁ env₂, TypeEnvironment.promoteForArithmetic a b env = some (r, env₁) →
      TypeEnvironment.promoteForArithmetic b a env = some (r', env₂) → (r == r') = true) ∧
    (TypeEnvironment.Reachable env → ∀ a b, (TypeEnvironment.promoteForArithmetic a b env).isSome = true) ∧
    (∀ left right rest, synthesizeArithmeticCall (.ok left :: .ok right :: rest) env =
        (TypeEnvironment.promoteForArithmetic left right env).map (fun result => (.ok result.1, result.2)) ∧
      synthesizeArithmetic (.ok left :: .ok right :: rest) env =
        synthesizeArithmeticCall (.ok left :: .ok right :: rest) env) ∧
    (∀ left right types type env₁,
      synthesizeArithmeticCall (.ok left :: .ok right :: types.map .ok) env = some (.ok type, env₁) →
      (∀ t ∈ types, env.promoted type t = type) →
      ∀ r env₂, promoteAll left (right :: types) env = some (r, env₂) → r = type) ∧
    ∀ operands, (¬∃ left right rest, operands = .ok left :: .ok right :: rest) →
      synthesizeArithmeticCall operands env = some (.ok BuiltinTypes.number, env) := by
  have hroot := h.pairRoot
  have hpromoted := TypeEnvironment.promoteForArithmetic_returns hroot
  refine ⟨?_, ?_, ?_, ?_, ?_⟩
  · intro a b r r' env₁ env₂ hab hba
    obtain ⟨rfl, -⟩ := hpromoted a b env (.refl env) r env₁ hab
    obtain ⟨rfl, -⟩ := hpromoted b a env (.refl env) r' env₂ hba
    exact typeId_beq.2 (TypeEnvironment.promoted_comm a b (TypeEnvironment.least_comm hroot a b))
  · intro hreachable a b
    obtain ⟨r, env', hrun, -⟩ := promoteForArithmetic_ends a b env hreachable.wellFormed
    rw [hrun]
    rfl
  · intro left right rest
    refine ⟨?_, rfl⟩
    show (TypeEnvironment.promoteForArithmetic left right env).bind _ = _
    cases TypeEnvironment.promoteForArithmetic left right env with
    | none => rfl
    | some result => rfl
  · intro left right types type env₁ hcall habsorbed r env₂ hall
    obtain ⟨⟨v, env₃⟩, hfirst, hrest⟩ := Option.bind_eq_some_iff.1 hall
    obtain ⟨⟨v', env₄⟩, hfirst', hpure⟩ := Option.bind_eq_some_iff.1 hcall
    cases hfirst.symm.trans hfirst'
    obtain ⟨hok, -⟩ := Prod.ext_iff.1 (Option.some.inj hpure)
    obtain rfl : v = type := Except.ok.inj hok
    have hsame := (hpromoted left right env (.refl env) v env₃ hfirst).2
    exact (promoteAll_absorbed hroot habsorbed env₃ hsame r env₂ hrest).1
  · intro operands hnone
    cases operands with
    | nil => rfl
    | cons first operands =>
      cases first with
      | error message => rfl
      | ok left =>
        cases operands with
        | nil => rfl
        | cons second rest =>
          cases second with
          | error message => rfl
          | ok right => exact absurd ⟨left, right, rest, rfl⟩ hnone

theorem arithmetic_types_example : ∃ r r',
    (TypeEnvironment.promoteForArithmetic BuiltinTypes.int64 BuiltinTypes.float64 initial).map Prod.fst = some r ∧
    (TypeEnvironment.promoteForArithmetic BuiltinTypes.float64 BuiltinTypes.int64 initial).map Prod.fst = some r' ∧
    (r == r') = true := by
  obtain ⟨hcomm, hends, -⟩ := arithmetic_types Built.initial
  obtain ⟨⟨r, env₁⟩, hr⟩ := Option.isSome_iff_exists.1
    (hends .initial BuiltinTypes.int64 BuiltinTypes.float64)
  obtain ⟨⟨r', env₂⟩, hr'⟩ := Option.isSome_iff_exists.1
    (hends .initial BuiltinTypes.float64 BuiltinTypes.int64)
  exact ⟨r, r', by rw [hr]; rfl, by rw [hr']; rfl, hcomm _ _ r r' env₁ env₂ hr hr'⟩

/-- A sum of two integers and a double has an integer type. -/
theorem later_operands_ignored :
    (synthesizeArithmeticCall [.ok BuiltinTypes.int64, .ok BuiltinTypes.int64, .ok BuiltinTypes.float64]
      initial).map (fun result => result.1.toOption.map TypeId.id) = some (some BuiltinTypes.int64.id) ∧
    (promoteAll BuiltinTypes.int64 [BuiltinTypes.int64, BuiltinTypes.float64] initial).map
      (fun result => result.1.id) = some BuiltinTypes.float64.id ∧
    (initial.isSubtype BuiltinTypes.float64 BuiltinTypes.int64).map Prod.fst = some false := by
  decide +kernel

end Types
