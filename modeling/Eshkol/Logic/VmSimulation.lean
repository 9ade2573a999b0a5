import Eshkol.Logic.VmLogic

/-!
# The VM's unifier follows the runtime's

Terms of the VM and of the runtime correspond when they are the same up to addresses and a renaming
of predicates. As long as the runtime is not asked to bind a variable to a term that it occurs in, the
two unifiers take the same decisions on corresponding terms and bind the same variables; a comparison
of addresses that only one of them finds equal makes no difference. Without that condition the VM
makes bindings that the runtime refuses.
-/

namespace Logic

open FirstOrder FirstOrder.Tree

variable {α β φ ψ : Type}

/-! ## More fuel -/

section mono
variable [DecidableEq φ] {occurs : Subst α φ → ℕ → Term α φ → Option Bool}

lemma unifyWalkedWith_facts (unify : Subst α φ → Term α φ → Term α φ → Option (Subst α φ))
    (s : Subst α φ) {p q : ℕ} {f : φ} {as bs : List (Term α φ)} (hlen : as.length = bs.length) :
    unifyWalkedWith occurs unify s (.fact p f as) (.fact q f bs) = unifyArgs unify s as bs := by
  rw [unifyWalkedWith, if_neg (not_not.2 rfl), if_neg (not_not.2 hlen)]

lemma unifyWalkedWith_mono {u u' : Subst α φ → Term α φ → Term α φ → Option (Subst α φ)}
    (h : ∀ s a b r, u s a b = some r → u' s a b = some r) {s r : Subst α φ} {w1 w2 : Term α φ}
    (hr : unifyWalkedWith occurs u s w1 w2 = some r) :
    unifyWalkedWith occurs u' s w1 w2 = some r := by
  cases w1 with
  | var x => exact hr
  | atom a => cases w2 <;> exact hr
  | fact p f as =>
    cases w2 with
    | var x => exact hr
    | atom b => exact hr
    | fact q g cs =>
      rw [unifyWalkedWith] at hr ⊢
      split_ifs at hr ⊢
      · exact hr
      · exact hr
      · exact unifyArgs_mono h hr

variable [BEq α]

/-- A call that has returned returns the same with more fuel. -/
lemma unifyWith_mono {fuel fuel' : ℕ} (hle : fuel ≤ fuel') {s r : Subst α φ} {t1 t2 : Term α φ}
    (hr : unifyWith occurs fuel s t1 t2 = some r) : unifyWith occurs fuel' s t1 t2 = some r := by
  induction fuel generalizing fuel' s t1 t2 r with
  | zero => cases hr
  | succ fuel ih =>
    obtain ⟨fuel', rfl⟩ : ∃ k, fuel' = k + 1 := ⟨fuel' - 1, by omega⟩
    rw [unifyWith] at hr ⊢
    obtain ⟨w1, hw1, hr⟩ := Option.bind_eq_some_iff.1 hr
    obtain ⟨w2, hw2, hr⟩ := Option.bind_eq_some_iff.1 hr
    rw [hw1, Option.bind_some, hw2, Option.bind_some]
    by_cases heq : taggedValuesEqual w1 w2 = true
    · rw [if_pos heq] at hr ⊢
      exact hr
    · rw [if_neg heq] at hr ⊢
      exact unifyWalkedWith_mono (fun s a b r => ih (by omega)) hr

lemma VmReturns.of_vmUnify (fuel : ℕ) {s r : Subst α φ} {t1 t2 : Term α φ}
    (h : vmUnify fuel s t1 t2 = some r) : VmReturns s t1 t2 r :=
  ⟨fuel, fun _ hle => unifyWith_mono hle h⟩

lemma VmReturns.unique {s r r' : Subst α φ} {t1 t2 : Term α φ} (h : VmReturns s t1 t2 r)
    (h' : VmReturns s t1 t2 r') : r = r' := by
  obtain ⟨n, hn⟩ := h
  obtain ⟨n', hn'⟩ := h'
  have := (hn (max n n') (by omega)).symm.trans (hn' (max n n') (by omega))
  simpa using this

end mono

/-- The VM's check finds nothing when it is asked about another walked term than the variable. -/
lemma vmOccurs_eq_false {bs : List (ℕ × Term α φ)} {v : Term α φ} {x : ℕ}
    (hv : Walked bs v) (hne : v ≠ .var x) :
    vmOccurs (some bs) x v = some false := by
  have hwalk : vmWalk (some bs) v = some v := walkFrom_of_walked hv _
  rw [vmOccurs, vmOccursImpl, if_neg (by omega), hwalk, Option.map_some]
  cases v with
  | var y =>
    have hyx : y ≠ x := fun hyx => hne (by rw [hyx])
    simpa using hyx
  | atom a => rfl
  | fact p f args => rfl

variable [BEq α] [Atoms α β]

/-! ## Equal terms -/

lemma taggedValuesEqual_self {α β φ : Type} [BEq α] [Atoms α β] (t : Term α φ) :
    taggedValuesEqual t t = true := by
  cases t with
  | var x => simp [taggedValuesEqual]
  | atom a => exact (Atoms.beq_iff a a).2 rfl
  | fact p f args => simp [taggedValuesEqual]

section equal
variable [DecidableEq φ] {mem : Memory β φ} {bs : List (ℕ × Term α φ)}
  {occurs : Subst α φ → ℕ → Term α φ → Option Bool}

lemma unifyArgs_equal {as cs : List (Term α φ)} (heq : as.map Term.tree = cs.map Term.tree)
    (h : ∀ a ∈ as, ∀ c : Term α φ, a.tree = c.tree →
      ∃ fuel, unifyWith occurs fuel (some bs) a c = some (some bs)) :
    ∃ fuel, unifyArgs (unifyWith occurs fuel) (some bs) as cs = some (some bs) := by
  induction as generalizing cs with
  | nil => exact ⟨0, by rw [unifyArgs.eq_def]⟩
  | cons a as ih =>
    cases cs with
    | nil => simp at heq
    | cons c cs =>
      simp only [List.map_cons, List.cons.injEq] at heq
      obtain ⟨fuel₁, h₁⟩ := h a List.mem_cons_self c heq.1
      obtain ⟨fuel₂, h₂⟩ := ih heq.2 fun b hb => h b (List.mem_cons_of_mem _ hb)
      refine ⟨max fuel₁ fuel₂, ?_⟩
      rw [unifyArgs, unifyWith_mono (by omega) h₁, Option.bind_some]
      exact unifyArgs_mono (fun _ _ _ _ => unifyWith_mono (by omega)) h₂

/-- Terms that differ in their addresses only unify without a binding. -/
lemma WellFormed.unifyWith_equal (h : WellFormed mem bs) {t1 t2 : Term α φ}
    (heq : t1.tree = t2.tree) : ∃ fuel, unifyWith occurs fuel (some bs) t1 t2 = some (some bs) := by
  induction hn : sizeOf t1 using Nat.strong_induction_on generalizing t1 t2 with
  | _ n ih =>
    cases t1 with
    | var x =>
      cases t2 with
      | var y =>
        obtain rfl : x = y := by simpa using heq
        obtain ⟨w, hw⟩ := h.walksTo (.var x)
        refine ⟨1, ?_⟩
        rw [unifyWith, hw.walk_eq, Option.bind_some, Option.bind_some, if_pos (taggedValuesEqual_self w)]
      | atom b => simp at heq
      | fact q g cs => simp at heq
    | atom a =>
      cases t2 with
      | var y => simp at heq
      | atom b =>
        have hab : taggedValuesEqual (.atom a : Term α φ) (.atom b) = true :=
          (Atoms.beq_iff a b).2 (by simpa using heq)
        exact ⟨1, if_pos hab⟩
      | fact q g cs => simp at heq
    | fact p f as =>
      cases t2 with
      | var y => simp at heq
      | atom b => simp at heq
      | fact q g cs =>
        simp only [tree_fact, node.injEq] at heq
        obtain ⟨rfl, hargs⟩ := heq
        obtain ⟨fuel, hfuel⟩ : ∃ fuel, unifyArgs (unifyWith occurs fuel) (some bs) as cs = some (some bs) :=
          unifyArgs_equal hargs fun a ha c hac => by
            have hlt := List.sizeOf_lt_of_mem ha
            exact ih (sizeOf a) (by subst hn; simp only [Term.fact.sizeOf_spec]; omega) hac rfl
        have hlen : as.length = cs.length := by simpa using congrArg List.length hargs
        refine ⟨fuel + 1, ?_⟩
        by_cases hpq : taggedValuesEqual (.fact p f as : Term α φ) (.fact q f cs) = true
        · exact if_pos hpq
        · refine (if_neg hpq).trans ?_
          rw [unifyWalkedWith_facts _ _ hlen]
          exact hfuel

end equal

/-! ## Corresponding terms -/

/-- A term of the VM and a term of the runtime that differ in their addresses and, by `name`, in how
they name predicates. -/
def Same (name : φ → ψ) (v : Term α φ) (t : Term α ψ) : Prop := v.tree.mapHead name = t.tree

section same
variable {name : φ → ψ} {v : Term α φ} {t : Term α ψ} {bs : List (ℕ × Term α φ)}
  {cs : List (ℕ × Term α ψ)}

lemma same_var {x : ℕ} : Same name (.var x : Term α φ) (.var x) := by simp [Same]

lemma Same.cases (h : Same name v t) : (∃ x, v = .var x ∧ t = .var x) ∨
    (∃ a b, v = .atom a ∧ t = .atom b ∧ Atoms.meaning a = Atoms.meaning b) ∨
    ∃ p q f as cs, v = .fact p f as ∧ t = .fact q (name f) cs ∧ List.Forall₂ (Same name) as cs := by
  cases v with
  | var x =>
    cases t with
    | var y => exact .inl ⟨x, rfl, by simp_all [Same]⟩
    | atom b => simp [Same] at h
    | fact q g cs => simp [Same] at h
  | atom a =>
    cases t with
    | var y => simp [Same] at h
    | atom b => exact .inr (.inl ⟨a, b, rfl, rfl, by simpa [Same] using h⟩)
    | fact q g cs => simp [Same] at h
  | fact p f as =>
    cases t with
    | var y => simp [Same] at h
    | atom b => simp [Same] at h
    | fact q g cs =>
      simp only [Same, tree_fact, mapHead_node, List.map_map, node.injEq] at h
      have hargs : List.Forall₂ Eq (as.map (mapHead name ∘ Term.tree)) (cs.map Term.tree) := by
        rw [List.forall₂_eq_eq_eq]
        exact h.2
      rw [List.forall₂_map_left_iff, List.forall₂_map_right_iff] at hargs
      exact .inr (.inr ⟨p, q, f, as, cs, rfl, by rw [h.1], hargs⟩)

/-- Corresponding bindings, in the same order. -/
def SameBindings (name : φ → ψ) (bs : List (ℕ × Term α φ)) (cs : List (ℕ × Term α ψ)) : Prop :=
  List.Forall₂ (fun b c => b.1 = c.1 ∧ Same name b.2 c.2) bs cs

lemma SameBindings.length_eq (h : SameBindings name bs cs) : bs.length = cs.length :=
  List.Forall₂.length_eq h

lemma SameBindings.domain_eq (h : SameBindings name bs cs) : domain bs = domain cs := by
  induction h with
  | nil => rfl
  | cons hbc _ ih => rw [domain, domain, List.map_cons, List.map_cons, hbc.1, ← domain, ih, ← domain]

lemma SameBindings.equations_eq (h : SameBindings name bs cs) :
    equations cs = (equations bs).map fun b => (b.1, b.2.mapHead name) := by
  induction h with
  | nil => rfl
  | cons hbc _ ih =>
    simp only [equations, List.map_cons, List.cons.injEq, Prod.mk.injEq] at ih ⊢
    exact ⟨⟨hbc.1.symm, hbc.2.symm⟩, ih⟩

lemma SameBindings.snoc (h : SameBindings name bs cs) (x : ℕ) (hs : Same name v t) :
    SameBindings name (bs ++ [(x, v)]) (cs ++ [(x, t)]) :=
  List.rel_append h (.cons ⟨rfl, hs⟩ .nil)

/-- They resolve every term in the same way. -/
lemma SameBindings.resolve_eq (h : SameBindings name bs cs) (hs : Same name v t) :
    (resolve bs v).mapHead name = resolve cs t := by
  have hs : v.tree.mapHead name = t.tree := hs
  rw [resolve, resolve, h.equations_eq, ← hs, mapHead_bind]
  exact bind_congr fun x _ => (solve_mapHead name _ x).symm

lemma SameBindings.substLookup (h : SameBindings name bs cs) (x : ℕ) :
    Option.Rel (Same name) (substLookup bs x) (substLookup cs x) := by
  induction h with
  | nil => exact .none
  | @cons b c bs cs hbc _ ih =>
    obtain ⟨y, u⟩ := b
    obtain ⟨z, w⟩ := c
    obtain ⟨rfl, huw⟩ : y = z ∧ Same name u w := hbc
    rw [Logic.substLookup, Logic.substLookup, List.lookup_cons, List.lookup_cons]
    cases x == y
    · exact ih
    · exact .some huw

/-- Corresponding terms walk to corresponding terms. -/
lemma SameBindings.walkFrom (h : SameBindings name bs cs) (n : ℕ) (hs : Same name v t) :
    Option.Rel (Same name) (walkFrom bs n v) (walkFrom cs n t) := by
  induction n generalizing v t with
  | zero => exact .none
  | succ n ih =>
    obtain ⟨x, rfl, rfl⟩ | ⟨a, b, rfl, rfl, hab⟩ | ⟨p, q, f, as, cs', rfl, rfl, hargs⟩ := hs.cases
    · rw [Logic.walkFrom, Logic.walkFrom]
      have hrel := h.substLookup x
      generalize Logic.substLookup bs x = b, Logic.substLookup cs x = c at hrel ⊢
      cases hrel with
      | none => exact .some same_var
      | some huw => exact ih huw
    · exact .some hs
    · exact .some hs

/-! ## Substitutions in step -/

variable {memv : Memory β φ} {memt : Memory β ψ}

/-- The VM and the runtime hold the same bindings, and both substitutions are well formed. -/
structure Agree (name : φ → ψ) (memv : Memory β φ) (memt : Memory β ψ) (bs : List (ℕ × Term α φ))
    (cs : List (ℕ × Term α ψ)) : Prop where
  vm : WellFormed memv bs
  runtime : WellFormed memt cs
  same : SameBindings name bs cs

lemma Agree.nil : Agree name memv memt ([] : List (ℕ × Term α φ)) [] := ⟨.nil, .nil, .nil⟩

lemma Agree.walksTo (h : Agree name memv memt bs cs) (hs : Same name v t) :
    ∃ w w', WalksTo memv bs v w ∧ WalksTo memt cs t w' ∧ Same name w w' := by
  obtain ⟨w, hw⟩ := h.vm.walksTo v
  obtain ⟨w', hw'⟩ := h.runtime.walksTo t
  have hrel := h.same.walkFrom (bs.length + 1) hs
  have hv : walkFrom bs (bs.length + 1) v = some w := hw.walk_eq
  have ht : walkFrom cs (cs.length + 1) t = some w' := hw'.walk_eq
  rw [← h.same.length_eq] at ht
  rw [hv, ht] at hrel
  cases hrel with
  | some hs => exact ⟨w, w', hw, hw', hs⟩

lemma resolve_unbound {x : ℕ} (hx : x ∉ domain cs) : resolve cs (.var x) = .var x := by
  rw [resolve, tree_var, bind_var, solve_of_unbound]
  rw [map_fst_equations]
  exact hx

/-- Both bind the variable. -/
lemma Agree.bind (h : Agree name memv memt bs cs) (hs : Same name v t) {x : ℕ}
    (hx : x ∉ domain cs) (hv : Walked bs v) (ht : Walked cs t) (hinv : v.In memv) (hint : t.In memt)
    (hfree : ¬ Occurs x (resolve cs t)) {r : Subst α ψ} (hr : bindVar (some cs) x t = some r) :
    ∃ r', bindVarWith vmOccurs (some bs) x v = some r' ∧ Option.Rel (Agree name memv memt) r' r := by
  have hne : v ≠ .var x := by
    rintro rfl
    obtain ⟨y, hy, rfl⟩ | ⟨a, b, ha, -⟩ | ⟨p, q, f, as, ds, hf, -⟩ := hs.cases
    · cases hy
      exact hfree (by rw [resolve_unbound hx]; exact .var)
    · cases ha
    · cases hf
  obtain ⟨found, hfound, htrue, -⟩ := h.runtime.occursImpl_spec x (occursCheckMaxDepth + 1) t
  have hnot : found = false := by
    cases found with
    | false => rfl
    | true => exact absurd (htrue rfl) hfree
  rw [bindVar, occurs, hfound, hnot] at hr
  cases hr
  refine ⟨some (bs ++ [(x, v)]), by rw [bindVarWith, vmOccurs_eq_false hv hne]; rfl, .some ?_⟩
  refine ⟨.snoc h.vm ?_ hv ?_ hinv, .snoc h.runtime hx ht hfree hint, h.same.snoc x hs⟩
  · rw [h.same.domain_eq]
    exact hx
  · rw [← h.same.resolve_eq hs, occurs_mapHead] at hfree
    exact hfree

/-! ## Resolving in full -/

lemma SameBindings.walk (h : SameBindings name bs cs) (hs : Same name v t) :
    Option.Rel (Same name) (vmWalk (some bs) v) (walk (some cs) t) := by
  have hrel := h.walkFrom (bs.length + 1) hs
  rw [vmWalk, Logic.walk, Logic.walk, ← h.length_eq]
  exact hrel

lemma mapM_same {f : Term α φ → Option (Tree ℕ β φ)} {g : Term α ψ → Option (Tree ℕ β ψ)}
    {vs : List (Term α φ)} {ts : List (Term α ψ)} (h : List.Forall₂ (Same name) vs ts)
    (hfg : ∀ v t, Same name v t → (f v).map (mapHead name) = g t) :
    (vs.mapM f).map (List.map (mapHead name)) = ts.mapM g := by
  induction h with
  | nil => rfl
  | cons hs _ ih =>
    rw [List.mapM_cons, List.mapM_cons, ← hfg _ _ hs, ← ih]
    cases f _ <;> cases List.mapM f _ <;> rfl

/-- Both resolve a term in full in the same way. -/
lemma SameBindings.walkDeepFull (h : SameBindings name bs cs) (level : ℕ) (hs : Same name v t) :
    (vmWalkDeepFull (some bs) level v).map (mapHead name) = walkDeepImpl (some cs) level t := by
  induction level generalizing v t with
  | zero => exact congrArg some hs
  | succ level ih =>
    rw [vmWalkDeepFull, walkDeepImpl]
    have hrel := h.walk hs
    generalize vmWalk (some bs) v = w, Logic.walk (some cs) t = u at hrel ⊢
    cases hrel with
    | none => rfl
    | some hs =>
      obtain ⟨x, rfl, rfl⟩ | ⟨a, b, rfl, rfl, hab⟩ | ⟨p, q, f, as, ds, rfl, rfl, hargs⟩ := hs.cases
      · exact congrArg some hs
      · exact congrArg some hs
      · have hmap := mapM_same hargs fun v t hs => ih hs
        simp only [Option.bind_some, ← hmap, Option.map_map]
        congr 1
        funext ts
        simp

/-! ## Calls in step -/

variable [DecidableEq φ]

lemma simulate_args {free : List (ℕ × Term α ψ) → Term α ψ → Term α ψ → Prop}
    {u : Subst α ψ → Term α ψ → Term α ψ → Option (Subst α ψ)}
    (hcall : ∀ {bs cs v1 v2 t1 t2 r}, Agree name memv memt bs cs → v1.In memv → v2.In memv →
      t1.In memt → t2.In memt → Same name v1 t1 → Same name v2 t2 → free cs t1 t2 →
      u (some cs) t1 t2 = some r →
      ∃ fuel r', vmUnify fuel (some bs) v1 v2 = some r' ∧ Option.Rel (Agree name memv memt) r' r)
    {vs1 vs2 : List (Term α φ)} {ts1 ts2 : List (Term α ψ)} {r : Subst α ψ}
    (h : Agree name memv memt bs cs) (hv1 : ∀ v ∈ vs1, v.In memv) (hv2 : ∀ v ∈ vs2, v.In memv)
    (ht1 : ∀ t ∈ ts1, t.In memt) (ht2 : ∀ t ∈ ts2, t.In memt) (hs1 : List.Forall₂ (Same name) vs1 ts1)
    (hs2 : List.Forall₂ (Same name) vs2 ts2) (hfree : ArgsBindSoundly free u cs ts1 ts2)
    (hr : unifyArgs u (some cs) ts1 ts2 = some r) :
    ∃ fuel r', unifyArgs (vmUnify fuel) (some bs) vs1 vs2 = some r' ∧
      Option.Rel (Agree name memv memt) r' r := by
  induction hs1 generalizing bs cs vs2 ts2 with
  | nil =>
    rw [unifyArgs.eq_def] at hr
    cases hr
    exact ⟨0, some bs, by rw [unifyArgs.eq_def], .some h⟩
  | @cons v1 t1 vs1 ts1 hs hss ih =>
    cases hs2 with
    | nil =>
      cases hr
      exact ⟨0, some bs, rfl, .some h⟩
    | @cons v2 t2 vs2 ts2 hs2 hss2 =>
      rw [unifyArgs] at hr
      obtain ⟨r₁, hr₁, hr⟩ := Option.bind_eq_some_iff.1 hr
      obtain ⟨fuel₁, r₁', hvm₁, hagree₁⟩ := hcall h (hv1 _ List.mem_cons_self)
        (hv2 _ List.mem_cons_self) (ht1 _ List.mem_cons_self) (ht2 _ List.mem_cons_self) hs hs2 hfree.1 hr₁
      cases hagree₁ with
      | none =>
        cases hr
        exact ⟨fuel₁, none, by rw [unifyArgs, hvm₁, Option.bind_some], .none⟩
      | @some bs₁ cs₁ hagree₁ =>
        obtain ⟨fuel₂, r', hvm, hagree⟩ := ih hagree₁ (fun v hv => hv1 v (List.mem_cons_of_mem _ hv))
          (fun v hv => hv2 v (List.mem_cons_of_mem _ hv)) (fun t ht => ht1 t (List.mem_cons_of_mem _ ht))
          (fun t ht => ht2 t (List.mem_cons_of_mem _ ht)) hss2 (hfree.2 cs₁ hr₁) hr
        refine ⟨max fuel₁ fuel₂, r', ?_, hagree⟩
        rw [unifyArgs, vmUnify, unifyWith_mono (by omega) hvm₁, Option.bind_some]
        exact unifyArgs_mono (fun _ _ _ _ => unifyWith_mono (by omega)) hvm

lemma unifyWith_walked (occurs : Subst α φ → ℕ → Term α φ → Option Bool) {v1 v2 w1 w2 : Term α φ}
    (h1 : WalksTo memv bs v1 w1) (h2 : WalksTo memv bs v2 w2) (fuel : ℕ) :
    unifyWith occurs fuel (some bs) v1 v2 = unifyWith occurs fuel (some bs) w1 w2 := by
  have hwalk1 : walk (some bs) w1 = some w1 := walkFrom_of_walked h1.walked _
  have hwalk2 : walk (some bs) w2 = some w2 := walkFrom_of_walked h2.walked _
  cases fuel with
  | zero => rfl
  | succ fuel => rw [unifyWith, unifyWith, h1.walk_eq, h2.walk_eq, hwalk1, hwalk2]

lemma unifyWith_of_walked {occurs : Subst α φ → ℕ → Term α φ → Option Bool} {fuel : ℕ}
    {w1 w2 : Term α φ} {r : Subst α φ} (h1 : Walked bs w1) (h2 : Walked bs w2)
    (hne : taggedValuesEqual w1 w2 = false)
    (hr : unifyWalkedWith occurs (unifyWith occurs fuel) (some bs) w1 w2 = some r) :
    unifyWith occurs (fuel + 1) (some bs) w1 w2 = some r := by
  have hwalk1 : walk (some bs) w1 = some w1 := walkFrom_of_walked h1 _
  have hwalk2 : walk (some bs) w2 = some w2 := walkFrom_of_walked h2 _
  rw [unifyWith, hwalk1, hwalk2, Option.bind_some, Option.bind_some, hne, if_neg Bool.false_ne_true, hr]

variable [DecidableEq ψ]

/-- A call of the VM does what the runtime's does. -/
lemma simulate_call (hname : Function.Injective name) {fuel : ℕ} {v1 v2 : Term α φ}
    {t1 t2 : Term α ψ} {r : Subst α ψ} (h : Agree name memv memt bs cs) (hv1 : v1.In memv)
    (hv2 : v2.In memv) (ht1 : t1.In memt) (ht2 : t2.In memt) (hs1 : Same name v1 t1)
    (hs2 : Same name v2 t2) (hfree : CallBindsFreely fuel cs t1 t2)
    (hr : unify fuel (some cs) t1 t2 = some r) :
    ∃ fuel r', vmUnify fuel (some bs) v1 v2 = some r' ∧ Option.Rel (Agree name memv memt) r' r := by
  induction fuel generalizing bs cs v1 v2 t1 t2 r with
  | zero => cases hr
  | succ fuel ih =>
    obtain ⟨w1, u1, hw1, hu1, hs1⟩ := h.walksTo hs1
    obtain ⟨w2, u2, hw2, hu2, hs2⟩ := h.walksTo hs2
    replace hv1 := hw1.inMem hv1
    replace hv2 := hw2.inMem hv2
    replace ht1 := hu1.inMem ht1
    replace ht2 := hu2.inMem ht2
    simp only [vmUnify, unifyWith_walked vmOccurs hw1 hw2]
    by_cases hequal : w1.tree = w2.tree
    · -- neither binds anything, whichever addresses it compares
      have hu : u1.tree = u2.tree := by rw [← hs1, ← hs2, hequal]
      have hvm : ∃ n, unifyWith vmOccurs n (some bs) w1 w2 = some (some bs) := h.vm.unifyWith_equal hequal
      obtain ⟨n, hvm⟩ := hvm
      have hrt : ∃ n, unifyWith occurs n (some cs) u1 u2 = some (some cs) := h.runtime.unifyWith_equal hu
      obtain ⟨m, hrt⟩ := hrt
      rw [← unifyWith_walked occurs hu1 hu2, ← unify_eq_unifyWith] at hrt
      cases (Returns.of_unify _ hr).unique (.of_unify _ hrt)
      exact ⟨n, some bs, hvm, .some h⟩
    have hne : taggedValuesEqual w1 w2 = false := by
      rw [Bool.eq_false_iff]
      exact fun heq => hequal (tree_eq_of_equal hv1 hv2 heq)
    have hne' : taggedValuesEqual u1 u2 = false := by
      rw [Bool.eq_false_iff]
      intro heq
      refine hequal (mapHead_injective hname ?_)
      rw [hs1, hs2]
      exact tree_eq_of_equal ht1 ht2 heq
    rw [unify, hu1.walk_eq, Option.bind_some, hu2.walk_eq, Option.bind_some, hne',
      if_neg Bool.false_ne_true] at hr
    replace hfree := hfree u1 u2 hu1.walk_eq hu2.walk_eq hne'
    suffices hwalked : ∃ fuel r', unifyWalkedWith vmOccurs (unifyWith vmOccurs fuel) (some bs) w1 w2 =
        some r' ∧ Option.Rel (Agree name memv memt) r' r by
      obtain ⟨n, r', hvm, hagree⟩ := hwalked
      exact ⟨n + 1, r', unifyWith_of_walked hw1.walked hw2.walked hne hvm, hagree⟩
    obtain ⟨x, rfl, rfl⟩ | ⟨a, a', rfl, rfl, ha⟩ | ⟨p, p', f, as, as', rfl, rfl, has⟩ := hs1.cases
    · exact ⟨0, h.bind hs2 (hu1.walked x rfl) hw2.walked hu2.walked hv2 ht2 hfree hr⟩
    · obtain ⟨y, rfl, rfl⟩ | ⟨b, b', rfl, rfl, hb⟩ | ⟨q, q', g, ds, ds', rfl, rfl, hds⟩ := hs2.cases
      · exact ⟨0, h.bind hs1 (hu2.walked y rfl) hw1.walked hu1.walked hv1 ht1 hfree hr⟩
      · cases hr
        exact ⟨0, none, rfl, .none⟩
      · cases hr
        exact ⟨0, none, rfl, .none⟩
    · obtain ⟨y, rfl, rfl⟩ | ⟨b, b', rfl, rfl, hb⟩ | ⟨q, q', g, ds, ds', rfl, rfl, hds⟩ := hs2.cases
      · exact ⟨0, h.bind hs1 (hu2.walked y rfl) hw1.walked hu1.walked hv1 ht1 hfree hr⟩
      · cases hr
        exact ⟨0, none, rfl, .none⟩
      · by_cases hfg : f = g
        · subst hfg
          by_cases hlen : as.length = ds.length
          · have hlen' : as'.length = ds'.length := by rw [← has.length_eq, ← hds.length_eq, hlen]
            rw [unifyWalked_facts _ _ hlen'] at hr
            cases hv1 with | fact _ hv1 =>
            cases hv2 with | fact _ hv2 =>
            cases ht1 with | fact _ ht1 =>
            cases ht2 with | fact _ ht2 =>
            obtain ⟨n, r', hvm, hagree⟩ := simulate_args ih h hv1 hv2 ht1 ht2 has hds (hfree rfl hlen') hr
            exact ⟨n, r', by rw [unifyWalkedWith_facts _ _ hlen]; exact hvm, hagree⟩
          · have hlen' : as'.length ≠ ds'.length := by rwa [← has.length_eq, ← hds.length_eq]
            rw [unifyWalked, if_neg (not_not.2 rfl), if_pos hlen'] at hr
            cases hr
            exact ⟨0, none, by rw [unifyWalkedWith, if_neg (not_not.2 rfl), if_pos hlen], .none⟩
        · rw [unifyWalked, if_pos (hname.ne hfg)] at hr
          cases hr
          exact ⟨0, none, by rw [unifyWalkedWith, if_pos hfg], .none⟩

/-! ## Runs -/

/-- Corresponding arguments of a call of the VM and of a call of the runtime, which is not asked to
bind a variable to a term that it occurs in. -/
structure FreeCall (name : φ → ψ) (memv : Memory β φ) (memt : Memory β ψ) (cs : List (ℕ × Term α ψ))
    (v1 v2 : Term α φ) (t1 t2 : Term α ψ) : Prop where
  inVm1 : v1.In memv
  inVm2 : v2.In memv
  inRuntime1 : t1.In memt
  inRuntime2 : t2.In memt
  same1 : Same name v1 t1
  same2 : Same name v2 t2
  free : ∀ fuel, CallBindsFreely fuel cs t1 t2

/-- The substitutions that such calls build from the empty ones. -/
inductive BothReached (name : φ → ψ) (memv : Memory β φ) (memt : Memory β ψ) :
    List (ℕ × Term α φ) → List (ℕ × Term α ψ) → Prop where
  | empty : BothReached name memv memt [] []
  | unify {bs bs' : List (ℕ × Term α φ)} {cs cs' : List (ℕ × Term α ψ)} {v1 v2 : Term α φ}
    {t1 t2 : Term α ψ} (h : BothReached name memv memt bs cs)
    (hcall : FreeCall name memv memt cs v1 v2 t1 t2) (hvm : VmReturns (some bs) v1 v2 (some bs'))
    (hruntime : Returns (some cs) t1 t2 (some cs')) : BothReached name memv memt bs' cs'

/-- Without circular bindings the checks let none pass. -/
lemma CallBindsFreely.soundly {fuel : ℕ} {t1 t2 : Term α ψ} (h : CallBindsFreely fuel cs t1 t2) :
    CallBindsSoundly fuel cs t1 t2 := by
  induction fuel generalizing cs t1 t2 with
  | zero => trivial
  | succ fuel ih =>
    intro w1 w2 hw1 hw2 hne
    have hw := h w1 w2 hw1 hw2 hne
    cases w1 with
    | var x => exact fun _ => hw
    | atom a =>
      cases w2 with
      | var y => exact fun _ => hw
      | atom b => trivial
      | fact q g ds => trivial
    | fact p f as =>
      cases w2 with
      | var y => exact fun _ => hw
      | atom b => trivial
      | fact q g ds => exact fun hfg hlen => (hw hfg hlen).anti (fun _ _ _ => ih) (fun _ _ _ _ hr => hr)

/-- One call of a run. -/
lemma Agree.call (hname : Function.Injective name) (h : Agree name memv memt bs cs)
    {v1 v2 : Term α φ} {t1 t2 : Term α ψ} (hcall : FreeCall name memv memt cs v1 v2 t1 t2) :
    ∃ r' r, VmReturns (some bs) v1 v2 r' ∧ Returns (some cs) t1 t2 r ∧
      Option.Rel (Agree name memv memt) r' r := by
  obtain ⟨r, n, hn⟩ := h.runtime.unify_returns hcall.inRuntime1 hcall.inRuntime2
    fun fuel => (hcall.free fuel).soundly
  obtain ⟨m, r', hm, hagree⟩ := simulate_call hname h hcall.inVm1 hcall.inVm2 hcall.inRuntime1
    hcall.inRuntime2 hcall.same1 hcall.same2 (hcall.free n) (hn n (Nat.le_refl n))
  exact ⟨r', r, .of_vmUnify m hm, ⟨n, hn⟩, hagree⟩

/-- Run lemma: the two engines stay in step. -/
lemma BothReached.agree (hname : Function.Injective name) (h : BothReached name memv memt bs cs) :
    Agree name memv memt bs cs := by
  induction h with
  | empty => exact .nil
  | unify _ hcall hvm hruntime ih =>
    obtain ⟨r', r, hvm', hruntime', hagree⟩ := ih.call hname hcall
    cases hvm'.unique hvm
    cases hruntime'.unique hruntime
    cases hagree with
    | some hagree => exact hagree

/-- Every term is resolved to corresponding terms. -/
def ResolveAlike (name : φ → ψ) (bs : List (ℕ × Term α φ)) (cs : List (ℕ × Term α ψ)) : Prop :=
  ∀ (v : Term α φ) (t : Term α ψ), Same name v t → (resolve bs v).mapHead name = resolve cs t ∧
    (vmWalkDeep (some bs) v).map (mapHead name) = walkDeep (some cs) t

/-- Along every run of calls without circular bindings, both calls return, one succeeds if and only
if the other does, and then both substitutions resolve every term identically and no variable depends
on itself. -/
theorem vmUnify_follows_unify (hname : Function.Injective name)
    (h : BothReached name memv memt bs cs) {v1 v2 : Term α φ} {t1 t2 : Term α ψ}
    (hcall : FreeCall name memv memt cs v1 v2 t1 t2) :
    ∃ r' r, VmReturns (some bs) v1 v2 r' ∧ Returns (some cs) t1 t2 r ∧ (r'.isSome ↔ r.isSome) ∧
      ∀ bs' cs', r' = some bs' → r = some cs' → ResolveAlike name bs' cs' ∧
        ∀ x, ¬ Relation.TransGen (Depends (equations bs')) x x := by
  obtain ⟨r', r, hvm, hruntime, hagree⟩ := (h.agree hname).call hname hcall
  refine ⟨r', r, hvm, hruntime, ?_, ?_⟩
  · cases hagree <;> simp
  · rintro bs' cs' rfl rfl
    cases hagree with
    | some hagree =>
      exact ⟨fun v t hs => ⟨hagree.same.resolve_eq hs, hagree.same.walkDeepFull _ hs⟩,
        hagree.vm.triangular.acyclic⟩

end same

/-- Predicate `n` of the VM is written with `n` letters `p`. -/
def nameOf (n : UInt64) : List UInt8 := List.replicate n.toNat 112

lemma nameOf_injective : Function.Injective nameOf := fun m n h => by
  have hlen := congrArg List.length h
  simp only [nameOf, List.length_replicate] at hlen
  exact UInt64.toNat_inj.1 hlen

/-- `(p ?0)` in the VM. -/
def vmFactOfZero : Term Int64 UInt64 := .fact 8 1 [.var 0]

/-- `(p ?0)` in the runtime. -/
def runtimeFactOfZero : Term Int64 (List UInt8) := .fact 8 [112] [.var 0]

def vmOnlyFact : Memory Int64 UInt64 := fun _ => (1, [.var 0])

def runtimeOnlyFact : Memory Int64 (List UInt8) := fun _ => ([112], [.var 0])

lemma same_factOfZero : Same nameOf vmFactOfZero runtimeFactOfZero := by
  rw [Same, vmFactOfZero, runtimeFactOfZero, tree_fact, tree_fact, mapHead_node]
  rfl

/-- `?1` and `(p ?0)` unify in both. -/
theorem vmUnify_follows_unify_factOfZero :
    ∃ r' r, VmReturns (some []) (.var 1) vmFactOfZero r' ∧
      Returns (some []) (.var 1) runtimeFactOfZero r ∧ (r'.isSome ↔ r.isSome) := by
  have hcall : FreeCall nameOf vmOnlyFact runtimeOnlyFact [] (.var 1) vmFactOfZero (.var 1)
      runtimeFactOfZero := by
    refine ⟨.var 1, .fact rfl (by simp [Term.In.var]), .var 1, .fact rfl (by simp [Term.In.var]),
      same_var, same_factOfZero, fun fuel => ?_⟩
    cases fuel with
    | zero => trivial
    | succ fuel =>
      intro w1 w2 hw1 hw2 _
      cases hw1
      cases hw2
      show ¬ Occurs 1 (resolve [] runtimeFactOfZero)
      simp [resolve, runtimeFactOfZero, solve, equations]
  obtain ⟨r', r, hvm, hruntime, hiff, -⟩ := vmUnify_follows_unify nameOf_injective .empty hcall
  exact ⟨r', r, hvm, hruntime, hiff⟩

/-- The VM binds `?0` to `(p ?0)`; the runtime refuses. -/
theorem vmUnify_binds_circularly :
    Same nameOf vmFactOfZero runtimeFactOfZero ∧
      VmReturns (some []) (.var 0) vmFactOfZero (some [(0, vmFactOfZero)]) ∧
      Returns (some []) (.var 0) runtimeFactOfZero none ∧
      Relation.TransGen (Depends (equations [(0, vmFactOfZero)])) 0 0 := by
  refine ⟨same_factOfZero, .of_vmUnify 1 rfl, .of_unify 1 rfl, .single ⟨_, List.mem_cons_self, ?_⟩⟩
  rw [vmFactOfZero, tree_fact]
  exact .node List.mem_cons_self (occurs_var.2 rfl)

end Logic
