import Eshkol.Logic.UnifyTheorems

/-!
# Queries of a knowledge base

Predicates are interned in a table of fixed size: equal names get one pointer, until the table or its
pool of characters is full. A query skips the facts whose predicate is another pointer and unifies the
arguments of the rest; the unifier compares names. As long as every name is interned the two agree.
-/

namespace Logic

/-- A text, up to its terminating zero. -/
abbrev Name := List UInt8

/-! ## Predicates -/

/-- A pointer to a predicate name: into the pool, by the entry of the table, or to an object. -/
inductive PredPtr where
  | pooled (entry : ℕ)
  | object (addr : ℕ)
deriving DecidableEq

/-- `g_pred_table` and `g_pred_pool_offset`. -/
structure PredTable where
  names : List Name
  poolOffset : ℕ

/-- `PRED_POOL_SIZE`. -/
def predPoolSize : ℕ := 64 * 1024

/-- `PRED_TABLE_SIZE`. -/
def predTableSize : ℕ := 1024

/-- `eshkol_intern_predicate`. With the table or the pool full the name itself comes back. -/
def internPredicate (texts : ℕ → Name) (table : PredTable) (name : ℕ) : PredPtr × PredTable :=
  match table.names.findIdx? (· == texts name) with
  | some i => (.pooled i, table)
  | none =>
    if predTableSize ≤ table.names.length then (.object name, table)
    else
      let needed := (texts name).length + 1
      if predPoolSize < table.poolOffset + needed then (.object name, table)
      else (.pooled table.names.length, ⟨table.names ++ [texts name], table.poolOffset + needed⟩)

/-! ## Facts -/

variable {α : Type}

/-- `eshkol_fact_t`, with its address and the name that its predicate leads to. A predicate of zero
has none. -/
structure Fact (α : Type) where
  addr : ℕ
  predicate : Option PredPtr
  name : Option Name
  args : List (Term α (Option Name))

/-- The fact as a term. -/
def Fact.term (f : Fact α) : Term α (Option Name) := .fact f.addr f.name f.args

/-- The interned predicates, the facts made so far in order, and those of the knowledge base. -/
structure KbState (α : Type) where
  preds : PredTable
  facts : List (Fact α)
  kb : List (Fact α)

def KbState.initial : KbState α := ⟨⟨[], 0⟩, [], []⟩

inductive KbOp (α : Type) where
  | makeFact (pred : Option ℕ) (args : List (Term α (Option Name)))
  | kbAssert (fact : ℕ)

/-- `eshkol_make_fact_tagged`, of the object that `pred` points to. -/
def makeFactTagged (texts : ℕ → Name) (st : KbState α) (pred : Option ℕ)
    (args : List (Term α (Option Name))) : KbState α :=
  match pred with
  | none => { st with facts := st.facts ++ [⟨st.facts.length, none, none, args⟩] }
  | some name =>
    let interned := internPredicate texts st.preds name
    { st with
      preds := interned.2
      facts := st.facts ++ [⟨st.facts.length, some interned.1, some (texts name), args⟩] }

/-- `eshkol_kb_assert`. -/
def kbAssert (st : KbState α) (fact : ℕ) : KbState α :=
  match st.facts[fact]? with
  | none => st
  | some f => { st with kb := st.kb ++ [f] }

def kbStep (texts : ℕ → Name) (st : KbState α) : KbOp α → KbState α
  | .makeFact pred args => makeFactTagged texts st pred args
  | .kbAssert fact => kbAssert st fact

/-! ## Queries -/

section query
variable [BEq α]

/-- The quick check: both predicates are set, and differ. -/
def predicatesDiffer (pattern fact : Fact α) : Bool :=
  pattern.predicate.isSome && fact.predicate.isSome && pattern.predicate != fact.predicate

/-- The query of one fact; nothing is returned for a fact that is passed over. -/
def kbQueryFact (fuel : ℕ) (base : Subst α (Option Name)) (pattern fact : Fact α) :
    Option (Subst α (Option Name)) :=
  if predicatesDiffer pattern fact then some none
  else if pattern.args.length ≠ fact.args.length then some none
  else unifyArgs (unify fuel) base pattern.args fact.args

/-- The loop of `eshkol_kb_query`: the substitutions found so far, the last one first. -/
def kbQueryLoop (fuel : ℕ) (base : Subst α (Option Name)) (pattern : Fact α) :
    List (List (ℕ × Term α (Option Name))) → List (Fact α) → Option (List (List (ℕ × Term α (Option Name))))
  | results, [] => some results
  | results, fact :: facts => (kbQueryFact fuel base pattern fact).bind fun
    | none => kbQueryLoop fuel base pattern results facts
    | some subst => kbQueryLoop fuel base pattern (subst :: results) facts

/-- The substitution that a query starts from. -/
def baseSubst (initial : Subst α (Option Name)) : Subst α (Option Name) := some (initial.getD [])

/-- `eshkol_kb_query`. -/
def kbQuery (fuel : ℕ) (kb : List (Fact α)) (pattern : Fact α) (initial : Subst α (Option Name)) :
    Option (List (List (ℕ × Term α (Option Name)))) :=
  kbQueryLoop fuel (baseSubst initial) pattern [] kb

/-- The query returns. -/
def QueryReturns (kb : List (Fact α)) (pattern : Fact α) (initial : Subst α (Option Name))
    (results : List (List (ℕ × Term α (Option Name)))) : Prop :=
  ∃ n, ∀ fuel, n ≤ fuel → kbQuery fuel kb pattern initial = some results

/-- One substitution for each fact that unifies with the pattern, the unifier, the last fact first. -/
def Answers (kb : List (Fact α)) (pattern : Fact α) (initial : Subst α (Option Name))
    (results : List (List (ℕ × Term α (Option Name)))) : Prop :=
  ∃ unifiers : List (Subst α (Option Name)),
    List.Forall₂ (fun fact r => Returns (baseSubst initial) pattern.term fact.term r) kb unifiers ∧
      results = (unifiers.filterMap id).reverse

end query

/-! ## Interning -/

/-- The name is in the table, or there is room for it. -/
def Interns (texts : ℕ → Name) (table : PredTable) (name : ℕ) : Prop :=
  texts name ∈ table.names ∨ (table.names.length < predTableSize ∧
    table.poolOffset + ((texts name).length + 1) ≤ predPoolSize)

/-- A fact is made of a predicate that can be interned. -/
def KbOp.Interned (texts : ℕ → Name) (st : KbState α) : KbOp α → Prop
  | .makeFact pred _ => ∃ name, pred = some name ∧ Interns texts st.preds name
  | .kbAssert _ => True

/-- The states of runs that intern every predicate. -/
inductive KbReached (texts : ℕ → Name) : KbState α → Prop where
  | initial : KbReached texts .initial
  | step {st : KbState α} (h : KbReached texts st) (op : KbOp α) (hop : op.Interned texts st) :
    KbReached texts (kbStep texts st op)

/-- The pointer leads to the name, which is interned. -/
def NamedBy (table : PredTable) (f : Fact α) : Prop :=
  ∃ i name, f.predicate = some (.pooled i) ∧ f.name = some name ∧ table.names[i]? = some name

/-- Pointers and names, and addresses and facts, determine each other. -/
structure KbInv (st : KbState α) : Prop where
  nodup : st.preds.names.Nodup
  named : ∀ f ∈ st.facts, NamedBy st.preds f
  addr : ∀ (i : ℕ) (f : Fact α), st.facts[i]? = some f → f.addr = i
  kb_made : ∀ f ∈ st.kb, f ∈ st.facts

lemma internPredicate_spec {texts : ℕ → Name} {table : PredTable} {name : ℕ}
    (hnodup : table.names.Nodup) (h : Interns texts table name) :
    (internPredicate texts table name).2.names.Nodup ∧
      (∃ more, (internPredicate texts table name).2.names = table.names ++ more) ∧
      ∃ i, (internPredicate texts table name).1 = .pooled i ∧
        (internPredicate texts table name).2.names[i]? = some (texts name) := by
  rw [internPredicate]
  cases hfind : table.names.findIdx? (· == texts name) with
  | some i =>
    obtain ⟨hi, heq, -⟩ := List.findIdx?_eq_some_iff_getElem.1 hfind
    refine ⟨hnodup, ⟨[], (List.append_nil _).symm⟩, i, rfl, ?_⟩
    rw [List.getElem?_eq_getElem hi]
    exact congrArg some (beq_iff_eq.1 heq)
  | none =>
    have hnew : texts name ∉ table.names := fun hmem => by
      simpa using List.findIdx?_eq_none_iff.1 hfind _ hmem
    obtain ⟨hroom, hpool⟩ := h.resolve_left hnew
    simp only
    rw [if_neg (by omega), if_neg (by omega)]
    refine ⟨?_, ⟨[texts name], rfl⟩, _, rfl, by simp⟩
    rw [List.nodup_append]
    refine ⟨hnodup, by simp, fun a ha b hb => ?_⟩
    rintro rfl
    exact hnew (List.mem_singleton.1 hb ▸ ha)

lemma NamedBy.mono {table table' : PredTable} {f : Fact α} (h : NamedBy table f)
    (hmore : ∃ more, table'.names = table.names ++ more) : NamedBy table' f := by
  obtain ⟨i, name, hpred, hname, hi⟩ := h
  obtain ⟨more, hmore⟩ := hmore
  refine ⟨i, name, hpred, hname, ?_⟩
  rw [hmore, List.getElem?_append_left (List.getElem?_eq_some_iff.1 hi).1, hi]

lemma KbInv.step {texts : ℕ → Name} {st : KbState α} {op : KbOp α} (h : KbInv st)
    (hop : op.Interned texts st) : KbInv (kbStep texts st op) := by
  cases op with
  | makeFact pred args =>
    obtain ⟨name, rfl, hinterns⟩ := hop
    obtain ⟨hnodup, hmore, i, hptr, hi⟩ := internPredicate_spec h.nodup hinterns
    refine ⟨hnodup, fun f hf => ?_, fun j f hj => ?_, fun f hf => ?_⟩
    · rcases List.mem_append.1 hf with hf | hf
      · exact (h.named f hf).mono hmore
      · obtain rfl := List.mem_singleton.1 hf
        exact ⟨i, texts name, by rw [hptr], rfl, hi⟩
    · rw [show (kbStep texts st (.makeFact (some name) args)).facts =
          st.facts ++ [⟨st.facts.length, some (internPredicate texts st.preds name).1, some (texts name), args⟩]
          from rfl, List.getElem?_append] at hj
      split at hj
      · exact h.addr j f hj
      · rename_i hlen
        obtain ⟨hlt, rfl⟩ := List.getElem?_eq_some_iff.1 hj
        simp only [List.length_singleton] at hlt
        simp only [List.getElem_singleton]
        omega
    · exact List.mem_append_left _ (h.kb_made f hf)
  | kbAssert fact =>
    show KbInv (kbAssert st fact)
    rw [kbAssert]
    split
    · exact h
    · rename_i f hf
      refine ⟨h.nodup, h.named, h.addr, fun g hg => ?_⟩
      rcases List.mem_append.1 hg with hg | hg
      · exact h.kb_made g hg
      · rw [List.mem_singleton.1 hg]
        exact List.mem_of_getElem? hf

/-- Run lemma of the knowledge base. -/
lemma KbReached.inv {texts : ℕ → Name} {st : KbState α} (h : KbReached texts st) : KbInv st := by
  induction h with
  | initial => exact ⟨.nil, by simp [KbState.initial], by simp [KbState.initial], by simp [KbState.initial]⟩
  | step _ op hop ih => exact ih.step hop

/-- Two facts of one state have the same pointer just when they have the same name, and the same
address just when they are the same. -/
lemma KbInv.predicatesDiffer_iff [BEq α] {st : KbState α} (h : KbInv st) {f g : Fact α} (hf : f ∈ st.facts)
    (hg : g ∈ st.facts) : predicatesDiffer f g = true ↔ f.name ≠ g.name := by
  obtain ⟨i, name, hfp, hfn, hi⟩ := h.named f hf
  obtain ⟨j, name', hgp, hgn, hj⟩ := h.named g hg
  have hindex : i = j ↔ name = name' := by
    constructor
    · rintro rfl
      exact Option.some.inj (hi.symm.trans hj)
    · rintro rfl
      exact (List.getElem?_inj (List.getElem?_eq_some_iff.1 hi).1 h.nodup).1 (hi.trans hj.symm)
  rw [predicatesDiffer, hfp, hgp, hfn, hgn]
  simp [hindex]

lemma KbInv.eq_of_addr {st : KbState α} (h : KbInv st) {f g : Fact α} (hf : f ∈ st.facts)
    (hg : g ∈ st.facts) (haddr : f.addr = g.addr) : f = g := by
  obtain ⟨i, hi⟩ := List.mem_iff_getElem?.1 hf
  obtain ⟨j, hj⟩ := List.mem_iff_getElem?.1 hg
  have hij : i = j := by rw [← h.addr i f hi, ← h.addr j g hj, haddr]
  subst hij
  exact Option.some.inj (hi.symm.trans hj)

end Logic
