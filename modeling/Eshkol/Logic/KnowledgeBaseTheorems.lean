import Eshkol.Logic.KnowledgeBase

/-!
# Queries find what unifies

In a run that interns every predicate a query returns the unifier of each fact that unifies with the
pattern, and nothing else. Where a name could not be interned a query passes over facts that unify.
-/

namespace Logic

variable {α φ : Type}

/-! ## Chains of variables -/

/-- Each variable was bound once, to a walked term other than itself. -/
inductive Chained : List (ℕ × Term α φ) → Prop where
  | nil : Chained []
  | snoc {bs : List (ℕ × Term α φ)} {x : ℕ} {t : Term α φ} (h : Chained bs) (hnew : x ∉ domain bs)
    (hwalked : Walked bs t) (hne : t ≠ .var x) : Chained (bs ++ [(x, t)])

/-- Every chain of variables ends. -/
lemma Chained.walk_returns {bs : List (ℕ × Term α φ)} (h : Chained bs) (t : Term α φ) :
    ∃ w, walk (some bs) t = some w ∧ Walked bs w := by
  induction h with
  | nil => exact ⟨t, walk_nil t, fun x _ => by simp [domain]⟩
  | @snoc bs x u h hnew hwalked hne ih =>
    obtain ⟨w, hwalk, hw⟩ := ih
    have hself : Walked (bs ++ [(x, u)]) u := by
      intro y hy
      rw [domain_snoc, List.mem_append, List.mem_singleton, not_or]
      refine ⟨hwalked y hy, ?_⟩
      rintro rfl
      exact hne hy
    obtain ⟨w', hwalk', ⟨rfl, hne'⟩ | ⟨rfl, rfl⟩⟩ := walkFrom_snoc hwalk hself
    · refine ⟨w', by rw [walk, List.length_append]; exact hwalk', fun y hy => ?_⟩
      rw [domain_snoc, List.mem_append, List.mem_singleton, not_or]
      refine ⟨hw y hy, ?_⟩
      rintro rfl
      exact hne' hy
    · exact ⟨w', by rw [walk, List.length_append]; exact hwalk', hself⟩

/-- A walked variable occurs in itself. -/
lemma bindVar_chained {bs bs' : List (ℕ × Term α φ)} (h : Chained bs) {x : ℕ} {w : Term α φ}
    (hx : x ∉ domain bs) (hw : Walked bs w) (hbind : bindVar (some bs) x w = some (some bs')) :
    Chained bs' := by
  rw [bindVar] at hbind
  cases hocc : occurs (some bs) x w with
  | none => simp [hocc] at hbind
  | some found =>
    cases found with
    | true => simp [hocc] at hbind
    | false =>
      have heq : bs ++ [(x, w)] = bs' := by simpa [hocc, extendSubst] using hbind
      rw [← heq]
      refine .snoc h hx hw ?_
      rintro rfl
      rw [occurs, occursImpl, walk, walkFrom_of_walked hw, Option.bind_some] at hocc
      simp at hocc

lemma unifyArgs_chained {unify : Subst α φ → Term α φ → Term α φ → Option (Subst α φ)}
    (hunify : ∀ bs bs' t1 t2, Chained bs → unify (some bs) t1 t2 = some (some bs') → Chained bs')
    {bs bs' : List (ℕ × Term α φ)} {as cs : List (Term α φ)} (h : Chained bs)
    (hargs : unifyArgs unify (some bs) as cs = some (some bs')) : Chained bs' := by
  induction as generalizing bs cs with
  | nil =>
    cases hargs
    exact h
  | cons a as ih =>
    cases cs with
    | nil =>
      cases hargs
      exact h
    | cons c cs =>
      rw [unifyArgs] at hargs
      cases hac : unify (some bs) a c with
      | none => simp [hac] at hargs
      | some r =>
        rw [hac, Option.bind_some] at hargs
        cases r with
        | none => cases hargs
        | some bs₁ => exact ih (hunify bs bs₁ a c h hac) hargs

section unify
variable [BEq α] [DecidableEq φ]

lemma unify_chained {fuel : ℕ} {bs bs' : List (ℕ × Term α φ)} {t1 t2 : Term α φ} (h : Chained bs)
    (hunify : unify fuel (some bs) t1 t2 = some (some bs')) : Chained bs' := by
  induction fuel generalizing bs bs' t1 t2 with
  | zero => cases hunify
  | succ fuel ih =>
    obtain ⟨w1, hw1, hwalked1⟩ := h.walk_returns t1
    obtain ⟨w2, hw2, hwalked2⟩ := h.walk_returns t2
    rw [unify, hw1, hw2, Option.bind_some, Option.bind_some] at hunify
    split at hunify
    · cases hunify
      exact h
    · cases w1 with
      | var x => exact bindVar_chained h (hwalked1 x rfl) hwalked2 hunify
      | atom a =>
        cases w2 with
        | var x => exact bindVar_chained h (hwalked2 x rfl) hwalked1 hunify
        | atom b => cases hunify
        | fact q g cs => cases hunify
      | fact p f as =>
        cases w2 with
        | var x => exact bindVar_chained h (hwalked2 x rfl) hwalked1 hunify
        | atom b => cases hunify
        | fact q g cs =>
          rw [unifyWalked] at hunify
          split at hunify
          · cases hunify
          · split at hunify
            · cases hunify
            · exact unifyArgs_chained (fun _ _ _ _ => ih) h hunify

/-- The substitutions that calls of the unifier build. -/
inductive Built : Subst α φ → Prop where
  | null : Built none
  | empty : Built (some [])
  | unify {s : Subst α φ} {bs : List (ℕ × Term α φ)} {t1 t2 : Term α φ} (h : Built s)
    (hreturns : Returns s t1 t2 (some bs)) : Built (some bs)

lemma Built.chained {s : Subst α φ} (h : Built s) : Chained (s.getD []) := by
  induction h with
  | null => exact .nil
  | empty => exact .nil
  | unify _ hreturns ih =>
    obtain ⟨n, hn⟩ := hreturns.of_some
    exact unify_chained ih (hn n (Nat.le_refl n))

end unify

/-! ## One fact -/

section query
variable [BEq α] {base : Subst α (Option Name)} {pattern fact : Fact α}

lemma kbQueryFact_mono {fuel fuel' : ℕ} (hle : fuel ≤ fuel') {r : Subst α (Option Name)}
    (h : kbQueryFact fuel base pattern fact = some r) : kbQueryFact fuel' base pattern fact = some r := by
  rw [kbQueryFact] at h ⊢
  split at h
  · rw [if_pos ‹_›]
    exact h
  · rw [if_neg ‹_›]
    split at h
    · rw [if_pos ‹_›]
      exact h
    · rw [if_neg ‹_›]
      exact unifyArgs_mono (fun s a b r => unify_mono hle) h

/-- The arguments of the pattern are equal to themselves once walked, as everything is but NaN. -/
def SelfEqual (base : Subst α (Option Name)) (pattern : Fact α) : Prop :=
  ∀ a ∈ pattern.args, ∀ w, walk base a = some w → taggedValuesEqual w w = true

lemma unifyArgs_self {fuel : ℕ} {bs : List (ℕ × Term α (Option Name))}
    {args : List (Term α (Option Name))}
    (h : ∀ a ∈ args, ∃ w, walk (some bs) a = some w ∧ taggedValuesEqual w w = true) :
    unifyArgs (unify (fuel + 1)) (some bs) args args = some (some bs) := by
  induction args with
  | nil => rfl
  | cons a args ih =>
    obtain ⟨w, hw, hself⟩ := h a List.mem_cons_self
    have hunify : unify (fuel + 1) (some bs) a a = some (some bs) := by
      rw [unify, hw, Option.bind_some, Option.bind_some, if_pos hself]
    rw [unifyArgs, hunify, Option.bind_some]
    exact ih fun b hb => h b (List.mem_cons_of_mem _ hb)

/-- The query of a fact is the unifier's, where equal pointers mean equal names. -/
lemma kbQueryFact_iff {bs : List (ℕ × Term α (Option Name))} (hbs : Chained bs)
    (hname : predicatesDiffer pattern fact = true ↔ pattern.name ≠ fact.name)
    (haddr : pattern.addr = fact.addr → pattern = fact ∧ SelfEqual (some bs) pattern)
    {r : Subst α (Option Name)} :
    (∃ fuel, kbQueryFact fuel (some bs) pattern fact = some r) ↔
      Returns (some bs) pattern.term fact.term r := by
  have hwalk : ∀ f : Fact α, walk (some bs) f.term = some f.term := fun f => rfl
  by_cases heq : pattern.addr = fact.addr
  · obtain ⟨rfl, hself⟩ := haddr heq
    have hquery : kbQueryFact 1 (some bs) pattern pattern = some (some bs) := by
      rw [kbQueryFact, if_neg fun h => hname.1 h rfl, if_neg fun h => h rfl]
      refine unifyArgs_self fun a ha => ?_
      obtain ⟨w, hw, -⟩ := hbs.walk_returns a
      exact ⟨w, hw, hself a ha w hw⟩
    have hreturns : Returns (some bs) pattern.term pattern.term (some bs) := by
      refine .of_unify 1 ?_
      rw [unify, hwalk, Option.bind_some, Option.bind_some, if_pos]
      simp [Fact.term, taggedValuesEqual]
    constructor
    · rintro ⟨fuel, h⟩
      have := (kbQueryFact_mono (Nat.le_max_left fuel 1) h).symm.trans
        (kbQueryFact_mono (Nat.le_max_right fuel 1) hquery)
      rw [Option.some.inj this]
      exact hreturns
    · intro h
      rw [h.unique hreturns]
      exact ⟨1, hquery⟩
  · have hstep : ∀ fuel, unify (fuel + 1) (some bs) pattern.term fact.term =
        kbQueryFact fuel (some bs) pattern fact := by
      intro fuel
      have hne : taggedValuesEqual pattern.term fact.term = false := by
        simpa [Fact.term, taggedValuesEqual] using heq
      rw [unify, hwalk, hwalk, Option.bind_some, Option.bind_some, hne, if_neg Bool.false_ne_true,
        kbQueryFact, Fact.term, Fact.term, unifyWalked]
      simp only [hname]
    constructor
    · rintro ⟨fuel, h⟩
      exact .of_unify (fuel + 1) ((hstep fuel).trans h)
    · rintro ⟨n, hn⟩
      exact ⟨n, (hstep n).symm.trans (hn (n + 1) (Nat.le_succ n))⟩

/-! ## All facts -/

lemma kbQueryLoop_mono {fuel fuel' : ℕ} (hle : fuel ≤ fuel')
    {acc results : List (List (ℕ × Term α (Option Name)))} {kb : List (Fact α)}
    (h : kbQueryLoop fuel base pattern acc kb = some results) :
    kbQueryLoop fuel' base pattern acc kb = some results := by
  induction kb generalizing acc with
  | nil => exact h
  | cons fact kb ih =>
    rw [kbQueryLoop] at h ⊢
    obtain ⟨r, hr, h⟩ := Option.bind_eq_some_iff.1 h
    rw [kbQueryFact_mono hle hr, Option.bind_some]
    cases r with
    | none => exact ih h
    | some subst => exact ih h

/-- The loop returns just when the query of every fact does. -/
lemma kbQueryLoop_iff {acc results : List (List (ℕ × Term α (Option Name)))} {kb : List (Fact α)} :
    (∃ fuel, kbQueryLoop fuel base pattern acc kb = some results) ↔
      ∃ unifiers : List (Subst α (Option Name)),
        List.Forall₂ (fun fact r => ∃ fuel, kbQueryFact fuel base pattern fact = some r) kb unifiers ∧
          results = (unifiers.filterMap id).reverse ++ acc := by
  induction kb generalizing acc with
  | nil =>
    constructor
    · rintro ⟨fuel, h⟩
      cases h
      exact ⟨[], .nil, rfl⟩
    · rintro ⟨unifiers, hall, rfl⟩
      cases hall
      exact ⟨0, rfl⟩
  | cons fact kb ih =>
    constructor
    · rintro ⟨fuel, h⟩
      rw [kbQueryLoop] at h
      obtain ⟨r, hr, h⟩ := Option.bind_eq_some_iff.1 h
      cases r with
      | none =>
        obtain ⟨unifiers, hall, rfl⟩ := ih.1 ⟨fuel, h⟩
        exact ⟨none :: unifiers, .cons ⟨fuel, hr⟩ hall, rfl⟩
      | some subst =>
        obtain ⟨unifiers, hall, rfl⟩ := ih.1 ⟨fuel, h⟩
        exact ⟨some subst :: unifiers, .cons ⟨fuel, hr⟩ hall, by simp⟩
    · rintro ⟨unifiers, hall, rfl⟩
      cases hall with
      | @cons _ r _ unifiers hfact hall =>
        obtain ⟨fuel, hr⟩ := hfact
        -- the rest of the loop, after the result for this fact
        cases r with
        | none =>
          obtain ⟨fuel', h⟩ := ih.2 ⟨unifiers, hall, rfl⟩
          refine ⟨max fuel fuel', ?_⟩
          rw [kbQueryLoop, kbQueryFact_mono (Nat.le_max_left fuel fuel') hr, Option.bind_some]
          exact kbQueryLoop_mono (Nat.le_max_right fuel fuel') h
        | some subst =>
          obtain ⟨fuel', h⟩ := (@ih (subst :: acc)).2 ⟨unifiers, hall, by simp⟩
          refine ⟨max fuel fuel', ?_⟩
          rw [kbQueryLoop, kbQueryFact_mono (Nat.le_max_left fuel fuel') hr, Option.bind_some]
          exact kbQueryLoop_mono (Nat.le_max_right fuel fuel') h

/-- A query unifies the pattern with each fact. -/
lemma queryReturns_iff {kb : List (Fact α)} {initial : Subst α (Option Name)}
    {results : List (List (ℕ × Term α (Option Name)))} :
    QueryReturns kb pattern initial results ↔
      ∃ unifiers : List (Subst α (Option Name)), List.Forall₂
          (fun fact r => ∃ fuel, kbQueryFact fuel (baseSubst initial) pattern fact = some r) kb unifiers ∧
        results = (unifiers.filterMap id).reverse := by
  have hloop : (∃ fuel, kbQueryLoop fuel (baseSubst initial) pattern [] kb = some results) ↔ _ :=
    kbQueryLoop_iff
  simp only [List.append_nil] at hloop
  rw [← hloop]
  constructor
  · rintro ⟨n, hn⟩
    exact ⟨n, hn n (Nat.le_refl n)⟩
  · rintro ⟨n, hn⟩
    exact ⟨n, fun fuel hle => kbQueryLoop_mono hle hn⟩

/-- In a run that interns every predicate, a query returns the unifiers of the facts. The one fact
that it may take otherwise is the pattern itself, when an argument is not equal to itself. -/
theorem query_answers {texts : ℕ → Name} {st : KbState α} (h : KbReached texts st)
    (hpattern : pattern ∈ st.facts) {initial : Subst α (Option Name)} (hinitial : Built initial)
    (hself : pattern ∈ st.kb → SelfEqual (baseSubst initial) pattern)
    (results : List (List (ℕ × Term α (Option Name)))) :
    QueryReturns st.kb pattern initial results ↔ Answers st.kb pattern initial results := by
  have hinv := h.inv
  rw [queryReturns_iff, Answers]
  have hfact : ∀ fact ∈ st.kb, ∀ r, (∃ fuel, kbQueryFact fuel (baseSubst initial) pattern fact = some r) ↔
      Returns (baseSubst initial) pattern.term fact.term r := by
    intro fact hmem r
    have hmade := hinv.kb_made fact hmem
    refine kbQueryFact_iff hinitial.chained (hinv.predicatesDiffer_iff hpattern hmade) fun haddr => ?_
    obtain rfl := hinv.eq_of_addr hpattern hmade haddr
    exact ⟨rfl, hself hmem⟩
  constructor
  · rintro ⟨unifiers, hall, rfl⟩
    refine ⟨unifiers, ?_, rfl⟩
    exact ((List.forall₂_and_left _ _).2 ⟨fun fact hmem => hmem, hall⟩).imp fun fact r h =>
      (hfact fact h.1 r).1 h.2
  · rintro ⟨unifiers, hall, rfl⟩
    refine ⟨unifiers, ?_, rfl⟩
    exact ((List.forall₂_and_left _ _).2 ⟨fun fact hmem => hmem, hall⟩).imp fun fact r h =>
      (hfact fact h.1 r).2 h.2

end query

/-- The name `q` at the address 1, and `p` at every other. -/
def shortNames : ℕ → Name := fun name => if name = 1 then [113] else [112]

/-- The knowledge base of `(p 1 2)`, `(q 3 3)` and `(p 4 ?7)`, and the pattern `(p ?0 2)`. -/
def threeFacts : List (KbOp Int64) :=
  [.makeFact (some 0) [.atom 1, .atom 2], .kbAssert 0, .makeFact (some 1) [.atom 3, .atom 3],
    .kbAssert 1, .makeFact (some 2) [.atom 4, .var 7], .kbAssert 2,
    .makeFact (some 3) [.var 0, .atom 2]]

theorem query_answers_threeFacts :
    KbReached shortNames (threeFacts.foldl (kbStep shortNames) .initial) ∧
      QueryReturns (threeFacts.foldl (kbStep shortNames) .initial).kb
        ⟨3, some (.pooled 0), some [112], [.var 0, .atom 2]⟩ none
        [[(0, .atom 4), (7, .atom 2)], [(0, .atom 1)]] := by
  have hreached : KbReached shortNames (threeFacts.foldl (kbStep shortNames) .initial) := by
    have h0 : KbReached shortNames (.initial : KbState Int64) := .initial
    have h1 := h0.step (.makeFact (some 0) [.atom 1, .atom 2]) ⟨0, rfl, .inr (by decide)⟩
    have h2 := h1.step (.kbAssert 0) trivial
    have h3 := h2.step (.makeFact (some 1) [.atom 3, .atom 3]) ⟨1, rfl, .inr (by decide)⟩
    have h4 := h3.step (.kbAssert 1) trivial
    have h5 := h4.step (.makeFact (some 2) [.atom 4, .var 7]) ⟨2, rfl, .inl (by decide)⟩
    have h6 := h5.step (.kbAssert 2) trivial
    exact h6.step (.makeFact (some 3) [.var 0, .atom 2]) ⟨3, rfl, .inl (by decide)⟩
  refine ⟨hreached, ?_⟩
  have hpattern : (⟨3, some (.pooled 0), some [112], [.var 0, .atom 2]⟩ : Fact Int64) ∈
      (threeFacts.foldl (kbStep shortNames) .initial).facts :=
    List.mem_of_mem_drop (i := 3) List.mem_cons_self
  refine (query_answers hreached hpattern .null (fun hmem => ?_) _).2
    ⟨[some [(0, .atom 1)], none, some [(0, .atom 4), (7, .atom 2)]],
      .cons (.of_unify 2 rfl) (.cons (.of_unify 2 rfl) (.cons (.of_unify 2 rfl) .nil)), rfl⟩
  have haddr : 3 ∈ [0, 1, 2] := List.mem_map_of_mem (f := Fact.addr) hmem
  exact absurd haddr (by decide)

/-- A name as long as the pool, at every address. -/
def longName : ℕ → Name := fun _ => List.replicate predPoolSize 112

lemma internPredicate_longName (name : ℕ) :
    internPredicate longName ⟨[], 0⟩ name = (.object name, ⟨[], 0⟩) := by
  rw [internPredicate, List.findIdx?_nil]
  simp [longName, predTableSize]

/-- A knowledge base of one fact, and another fact of the same name. -/
def longNamed : List (KbOp Int64) := [.makeFact (some 0) [], .kbAssert 0, .makeFact (some 1) []]

/-- Where nothing is interned the query with that fact passes over the first, though they unify. -/
lemma query_misses {texts : ℕ → Name} (hname : texts 1 = texts 0)
    (hintern : ∀ name, internPredicate texts ⟨[], 0⟩ name = (.object name, ⟨[], 0⟩)) :
    ∃ pattern ∈ (longNamed.foldl (kbStep texts) .initial).facts,
      pattern ∉ (longNamed.foldl (kbStep texts) .initial).kb ∧
      ¬ ∀ results, QueryReturns (longNamed.foldl (kbStep texts) .initial).kb pattern none results ↔
        Answers (longNamed.foldl (kbStep texts) .initial).kb pattern none results := by
  have hrun : longNamed.foldl (kbStep texts) .initial =
      ⟨⟨[], 0⟩, [⟨0, some (.object 0), some (texts 0), []⟩, ⟨1, some (.object 1), some (texts 0), []⟩],
        [⟨0, some (.object 0), some (texts 0), []⟩]⟩ := by
    simp [longNamed, kbStep, makeFactTagged, KbState.initial, hintern, kbAssert, hname]
  rw [hrun]
  refine ⟨⟨1, some (.object 1), some (texts 0), []⟩, by simp, by simp, fun h => ?_⟩
  have hanswers : Answers [⟨0, some (.object 0), some (texts 0), []⟩]
      (⟨1, some (.object 1), some (texts 0), []⟩ : Fact Int64) none [[]] := by
    refine ⟨[some []], .cons (.of_unify 1 ?_) .nil, rfl⟩
    show unifyWalked (unify 0) (some []) (.fact 1 (some (texts 0)) []) (.fact 0 (some (texts 0)) []) = _
    rw [unifyWalked_facts _ _ rfl]
    rfl
  obtain ⟨n, hn⟩ := (h [[]]).2 hanswers
  have hquery := hn n (Nat.le_refl n)
  cases hquery

theorem query_misses_longName :
    ∃ pattern ∈ (longNamed.foldl (kbStep longName) .initial).facts,
      pattern ∉ (longNamed.foldl (kbStep longName) .initial).kb ∧
      ¬ ∀ results, QueryReturns (longNamed.foldl (kbStep longName) .initial).kb pattern none results ↔
        Answers (longNamed.foldl (kbStep longName) .initial).kb pattern none results :=
  query_misses rfl internPredicate_longName

end Logic
