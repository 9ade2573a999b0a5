import Eshkol.Logic.UnifySpec

/-!
# The unifier finds most general unifiers

A call that makes no circular binding returns a well-formed extension of its substitution that makes
the terms equal and that every unifier factors through, or fails when there is no unifier. With the
null pointer for the empty substitution, success without a binding is returned as failure.
-/

namespace Logic

open FirstOrder FirstOrder.Tree

variable {α β φ : Type} [BEq α] [Atoms α β] {mem : Memory β φ} {bs : List (ℕ × Term α φ)}

/-! ## Calls that make no circular binding -/

section exact
variable [DecidableEq φ]

/-- The calls on the arguments make none, each with the substitution it is given. -/
def ArgsBindSoundly (sound : List (ℕ × Term α φ) → Term α φ → Term α φ → Prop)
    (unify : Subst α φ → Term α φ → Term α φ → Option (Subst α φ)) :
    List (ℕ × Term α φ) → List (Term α φ) → List (Term α φ) → Prop
  | bs, a :: as, b :: cs => sound bs a b ∧
      ∀ bs', unify (some bs) a b = some (some bs') → ArgsBindSoundly sound unify bs' as cs
  | _, _, _ => True

/-- On walked terms. -/
def WalkedBindSoundly (sound : List (ℕ × Term α φ) → Term α φ → Term α φ → Prop)
    (unify : Subst α φ → Term α φ → Term α φ → Option (Subst α φ)) (bs : List (ℕ × Term α φ)) :
    Term α φ → Term α φ → Prop
  | .var x, w2 => BindsSoundly bs x w2
  | w1, .var x => BindsSoundly bs x w1
  | .fact _ f as, .fact _ g cs =>
    f = g → as.length = cs.length → ArgsBindSoundly sound unify bs as cs
  | _, _ => True

/-- No occurs check that the call makes within `fuel` nested calls lets a circular binding pass. -/
def CallBindsSoundly : ℕ → List (ℕ × Term α φ) → Term α φ → Term α φ → Prop
  | 0, _, _, _ => True
  | fuel + 1, bs, t1, t2 => ∀ w1 w2, walk (some bs) t1 = some w1 → walk (some bs) t2 = some w2 →
      taggedValuesEqual w1 w2 = false →
      WalkedBindSoundly (CallBindsSoundly fuel) (unify fuel) bs w1 w2

end exact

/-! ## The outcome of a call -/

/-- The variables of a term or a list of bindings are in `V`. -/
def Inside (V : Set ℕ) (t : Term α φ) : Prop := ∀ x, Occurs x t.tree → x ∈ V

def BindingsInside (V : Set ℕ) (bs : List (ℕ × Term α φ)) : Prop :=
  ∀ x t, (x, t) ∈ bs → x ∈ V ∧ Inside V t

/-- `bs'` solves `bs` and the equations between `ts` and `us`, and nothing that solves them is
lost. -/
structure Extends (mem : Memory β φ) (bs bs' : List (ℕ × Term α φ)) (ts us : List (Term α φ)) :
    Prop where
  wellFormed : WellFormed mem bs'
  appended : ∃ new, bs' = bs ++ new
  solves : ts.map (resolve bs') = us.map (resolve bs')
  general : ∀ θ, Satisfies θ (equations bs) →
    ts.map (fun t => t.tree.bind θ) = us.map (fun t => t.tree.bind θ) → Satisfies θ (equations bs')
  inside : ∀ V, BindingsInside V bs → (∀ t ∈ ts, Inside V t) → (∀ u ∈ us, Inside V u) →
    BindingsInside V bs'

/-- What a call returns on `ts` and `us` under `bs`. -/
def Outcome (mem : Memory β φ) (bs : List (ℕ × Term α φ)) (ts us : List (Term α φ)) :
    Subst α φ → Prop
  | some bs' => Extends mem bs bs' ts us
  | none => ∀ θ, Satisfies θ (equations bs) →
      ts.map (fun t => t.tree.bind θ) ≠ us.map (fun t => t.tree.bind θ)

lemma Satisfies.of_append {θ : ℕ → Tree ℕ β φ} {new : List (ℕ × Term α φ)}
    (h : Satisfies θ (equations (bs ++ new))) : Satisfies θ (equations bs) := by
  intro x t hx
  refine h x t ?_
  rw [equations, List.map_append]
  exact List.mem_append_left _ hx

/-- Terms that are equal under a substitution are equal under its extensions. -/
lemma resolve_eq_of_append {new : List (ℕ × Term α φ)} (h : WellFormed mem (bs ++ new))
    {t u : Term α φ} (heq : resolve bs t = resolve bs u) :
    resolve (bs ++ new) t = resolve (bs ++ new) u := by
  have hsat : Satisfies (solve (equations (bs ++ new))) (equations bs) :=
    Satisfies.of_append h.triangular.satisfies
  rw [resolve, resolve, ← hsat.factors_bind, ← hsat.factors_bind u.tree]
  exact congrArg _ heq

lemma Extends.refl (h : WellFormed mem bs) {ts us : List (Term α φ)}
    (heq : ts.map (resolve bs) = us.map (resolve bs)) : Extends mem bs bs ts us :=
  ⟨h, ⟨[], by simp⟩, heq, fun _ hθ _ => hθ, fun _ hV _ _ => hV⟩

/-- The first arguments, then the others. -/
lemma Extends.cons {bs₁ bs₂ : List (ℕ × Term α φ)} {a b : Term α φ} {as cs : List (Term α φ)}
    (h₁ : Extends mem bs bs₁ [a] [b]) (h₂ : Extends mem bs₁ bs₂ as cs) :
    Extends mem bs bs₂ (a :: as) (b :: cs) := by
  obtain ⟨new₁, rfl⟩ := h₁.appended
  obtain ⟨new₂, rfl⟩ := h₂.appended
  have hab : resolve (bs ++ new₁) a = resolve (bs ++ new₁) b := by simpa using h₁.solves
  refine ⟨h₂.wellFormed, ⟨new₁ ++ new₂, by simp⟩, ?_, fun θ hθ heq => ?_, fun V hV hts hus => ?_⟩
  · rw [List.map_cons, List.map_cons, h₂.solves, resolve_eq_of_append h₂.wellFormed hab]
  · simp only [List.map_cons, List.cons.injEq] at heq
    exact h₂.general θ (h₁.general θ hθ (by simpa using heq.1)) heq.2
  · refine h₂.inside V (h₁.inside V hV ?_ ?_) (fun t ht => hts t (List.mem_cons_of_mem _ ht))
      (fun u hu => hus u (List.mem_cons_of_mem _ hu))
    · intro t ht
      exact List.mem_singleton.1 ht ▸ hts a List.mem_cons_self
    · intro u hu
      exact List.mem_singleton.1 hu ▸ hus b List.mem_cons_self

lemma Outcome.cons_some {bs₁ : List (ℕ × Term α φ)} {a b : Term α φ} {as cs : List (Term α φ)}
    {r : Subst α φ} (h₁ : Extends mem bs bs₁ [a] [b]) (h₂ : Outcome mem bs₁ as cs r) :
    Outcome mem bs (a :: as) (b :: cs) r := by
  cases r with
  | some bs₂ => exact h₁.cons h₂
  | none =>
    intro θ hθ heq
    simp only [List.map_cons, List.cons.injEq] at heq
    exact h₂ θ (h₁.general θ hθ (by simpa using heq.1)) heq.2

lemma Outcome.cons_none {a b : Term α φ} {as cs : List (Term α φ)}
    (h : Outcome mem bs [a] [b] none) : Outcome mem bs (a :: as) (b :: cs) none := by
  intro θ hθ heq
  simp only [List.map_cons, List.cons.injEq] at heq
  exact h θ hθ (by simpa using heq.1)

/-- Binding a walked variable to a walked term that it does not occur in. -/
lemma Extends.bind (h : WellFormed mem bs) {x : ℕ} {w : Term α φ} (hx : x ∉ domain bs)
    (hw : Walked bs w) (hin : w.In mem) (hoccurs : ¬ Occurs x (resolve bs w)) :
    Extends mem bs (bs ++ [(x, w)]) [.var x] [w] := by
  have hwf : WellFormed mem (bs ++ [(x, w)]) := .snoc h hx hw hoccurs hin
  refine ⟨hwf, ⟨_, rfl⟩, ?_, fun θ hθ heq y t hy => ?_, fun V hV hts hus y t hy => ?_⟩
  · have := hwf.triangular.satisfies x w.tree (by rw [equations_snoc]; simp)
    simpa [resolve] using this
  · rw [equations_snoc] at hy
    obtain hy | hy := List.mem_append.1 hy
    · exact hθ y t hy
    · cases List.mem_singleton.1 hy
      simpa using heq
  · obtain hy | hy := List.mem_append.1 hy
    · exact hV y t hy
    · cases List.mem_singleton.1 hy
      exact ⟨hts _ List.mem_cons_self x (by simp), hus w List.mem_cons_self⟩

lemma Extends.symm {bs' : List (ℕ × Term α φ)} {ts us : List (Term α φ)}
    (h : Extends mem bs bs' ts us) : Extends mem bs bs' us ts :=
  ⟨h.wellFormed, h.appended, h.solves.symm, fun θ hθ heq => h.general θ hθ heq.symm,
    fun V hV hts hus => h.inside V hV hus hts⟩

lemma Outcome.symm {ts us : List (Term α φ)} {r : Subst α φ} (h : Outcome mem bs ts us r) :
    Outcome mem bs us ts r := by
  cases r with
  | some bs' => exact Extends.symm h
  | none => exact fun θ hθ heq => h θ hθ heq.symm

/-- What is known of the walked terms is known of the terms. -/
lemma Outcome.of_walked {t1 t2 w1 w2 : Term α φ} {r : Subst α φ} (hw1 : WalksTo mem bs t1 w1)
    (hw2 : WalksTo mem bs t2 w2) (h : Outcome mem bs [w1] [w2] r) :
    Outcome mem bs [t1] [t2] r := by
  cases r with
  | none =>
    intro θ hθ heq
    refine h θ hθ ?_
    simpa [hw1.same θ hθ, hw2.same θ hθ] using heq
  | some bs' =>
    obtain ⟨hwf, ⟨new, rfl⟩, hsolves, hgeneral, hinside⟩ := h
    have hsat : Satisfies (solve (equations (bs ++ new))) (equations bs) :=
      Satisfies.of_append hwf.triangular.satisfies
    have hside : ∀ {t w : Term α φ} {V : Set ℕ}, WalksTo mem bs t w → BindingsInside V bs →
        Inside V t → Inside V w := by
      intro t w V hw hV ht
      obtain rfl | ⟨x, hx⟩ := hw.source
      · exact ht
      · exact (hV x w hx).2
    refine ⟨hwf, ⟨new, rfl⟩, ?_, fun θ hθ heq => hgeneral θ hθ ?_, fun V hV hts hus => ?_⟩
    · simpa [resolve, hw1.same _ hsat, hw2.same _ hsat] using hsolves
    · simpa [hw1.same θ hθ, hw2.same θ hθ] using heq
    · refine hinside V hV ?_ ?_
      · simpa using hside hw1 hV (hts t1 List.mem_cons_self)
      · simpa using hside hw2 hV (hus t2 List.mem_cons_self)

/-- Two facts of one predicate and arity are equal when their arguments are. -/
lemma Outcome.of_args {p q : ℕ} {f : φ} {as cs : List (Term α φ)} {r : Subst α φ}
    (h : Outcome mem bs as cs r) : Outcome mem bs [.fact p f as] [.fact q f cs] r := by
  cases r with
  | none =>
    intro θ hθ heq
    refine h θ hθ ?_
    simpa [Function.comp_def] using heq
  | some bs' =>
    refine ⟨h.wellFormed, h.appended, ?_, fun θ hθ heq => h.general θ hθ ?_, fun V hV hts hus => ?_⟩
    · simp [resolve_fact, h.solves]
    · simpa [Function.comp_def] using heq
    · refine h.inside V hV (fun a ha x hx => ?_) (fun c hc x hx => ?_)
      · refine hts _ List.mem_cons_self x ?_
        rw [tree_fact]
        exact .node (List.mem_map_of_mem ha) hx
      · refine hus _ List.mem_cons_self x ?_
        rw [tree_fact]
        exact .node (List.mem_map_of_mem hc) hx

/-! ## The calls -/

/-- Values that compare equal are the same term. -/
lemma tree_eq_of_equal {w1 w2 : Term α φ} (h1 : w1.In mem) (h2 : w2.In mem)
    (h : taggedValuesEqual w1 w2 = true) : w1.tree = w2.tree := by
  cases h1 <;> cases h2 <;> simp only [taggedValuesEqual, beq_iff_eq, Bool.false_eq_true] at h
  · rw [h]
  · rw [tree_atom, tree_atom, (Atoms.beq_iff _ _).1 h]
  case fact.fact p f as hp _ q g cs hq _ =>
    subst h
    rw [hp, Prod.mk.injEq] at hq
    rw [tree_fact, tree_fact, hq.1, hq.2]

lemma bindVar_spec (h : WellFormed mem bs) {x : ℕ} {w : Term α φ} {r : Subst α φ}
    (hx : x ∉ domain bs) (hw : Walked bs w) (hin : w.In mem) (hne : w ≠ .var x)
    (hsound : BindsSoundly bs x w) (hr : bindVar (some bs) x w = some r) :
    Outcome mem bs [.var x] [w] r := by
  obtain ⟨found, hfound, htrue, -⟩ := h.occursImpl_spec x (occursCheckMaxDepth + 1) w
  rw [bindVar, occurs, hfound, Option.map_some, Option.some.injEq] at hr
  subst hr
  cases found with
  | false => exact Extends.bind h hx hw hin (hsound hfound)
  | true =>
    intro θ hθ heq
    have hθx : θ x = (resolve bs w).bind θ := by
      rw [resolve, hθ.factors_bind]
      simpa using heq
    -- the variable occurs strictly inside what it would have to equal
    have hstrict : resolve bs w ≠ .var x := by
      cases w with
      | var y =>
        rw [resolve, tree_var, bind_var, solve_of_unbound (by rw [map_fst_equations]; exact hw y rfl)]
        simpa using hne
      | atom a => simp [resolve]
      | fact p f args => simp [resolve_fact]
    have hlt := sizeOf_lt_of_occurs θ (htrue rfl) hstrict
    rw [← hθx] at hlt
    exact Nat.lt_irrefl _ hlt

lemma unifyArgs_spec {sound : List (ℕ × Term α φ) → Term α φ → Term α φ → Prop}
    {unify : Subst α φ → Term α φ → Term α φ → Option (Subst α φ)}
    (hunify : ∀ bs t1 t2 r, WellFormed mem bs → t1.In mem → t2.In mem → sound bs t1 t2 →
      unify (some bs) t1 t2 = some r → Outcome mem bs [t1] [t2] r)
    {as cs : List (Term α φ)} {r : Subst α φ} (h : WellFormed mem bs)
    (has : ∀ a ∈ as, a.In mem) (hcs : ∀ c ∈ cs, c.In mem) (hlen : as.length = cs.length)
    (hsound : ArgsBindSoundly sound unify bs as cs)
    (hr : unifyArgs unify (some bs) as cs = some r) : Outcome mem bs as cs r := by
  induction as generalizing bs cs with
  | nil =>
    cases cs with
    | nil =>
      cases hr
      exact Extends.refl h rfl
    | cons c cs => cases hlen
  | cons a as ih =>
    cases cs with
    | nil => cases hlen
    | cons c cs =>
      rw [unifyArgs] at hr
      obtain ⟨r₁, hr₁, hr⟩ := Option.bind_eq_some_iff.1 hr
      have h₁ := hunify bs a c r₁ h (has a List.mem_cons_self) (hcs c List.mem_cons_self) hsound.1 hr₁
      cases r₁ with
      | none =>
        cases hr
        exact h₁.cons_none
      | some bs₁ =>
        refine Outcome.cons_some h₁ (ih h₁.wellFormed (fun a ha => has a (List.mem_cons_of_mem _ ha))
          (fun c hc => hcs c (List.mem_cons_of_mem _ hc)) (by simpa using hlen) (hsound.2 bs₁ hr₁) hr)

section calls
variable [DecidableEq φ]

/-- Partial correctness: whatever the call returns is right. -/
lemma unify_spec {fuel : ℕ} {t1 t2 : Term α φ} {r : Subst α φ} (h : WellFormed mem bs)
    (h1 : t1.In mem) (h2 : t2.In mem) (hsound : CallBindsSoundly fuel bs t1 t2)
    (hr : unify fuel (some bs) t1 t2 = some r) : Outcome mem bs [t1] [t2] r := by
  induction fuel generalizing bs t1 t2 r with
  | zero => cases hr
  | succ fuel ih =>
    obtain ⟨w1, hw1⟩ := h.walksTo t1
    obtain ⟨w2, hw2⟩ := h.walksTo t2
    have hin1 := hw1.inMem h1
    have hin2 := hw2.inMem h2
    have hsound := hsound w1 w2 hw1.walk_eq hw2.walk_eq
    rw [unify, hw1.walk_eq, Option.bind_some, hw2.walk_eq, Option.bind_some] at hr
    refine Outcome.of_walked hw1 hw2 ?_
    by_cases heq : taggedValuesEqual w1 w2 = true
    · rw [if_pos heq] at hr
      cases hr
      refine Extends.refl h ?_
      simp [resolve, tree_eq_of_equal hin1 hin2 heq]
    rw [if_neg heq] at hr
    have hsound := hsound (by simpa using heq)
    have hne : ∀ x y, w1 = .var x → w2 = .var y → x ≠ y := by
      rintro x y rfl rfl rfl
      simp [taggedValuesEqual] at heq
    cases w1 with
    | var x =>
      refine bindVar_spec h (hw1.walked x rfl) hw2.walked hin2 ?_ hsound hr
      rintro rfl
      exact hne x x rfl rfl rfl
    | atom a =>
      cases w2 with
      | var x => exact (bindVar_spec h (hw2.walked x rfl) hw1.walked hin1 (by simp) hsound hr).symm
      | atom b =>
        cases hr
        intro θ hθ hab
        have hmeaning : Atoms.meaning a = Atoms.meaning b := by simpa using hab
        exact heq ((Atoms.beq_iff a b).2 hmeaning)
      | fact q g cs =>
        cases hr
        intro θ hθ hab
        simp at hab
    | fact p f as =>
      cases w2 with
      | var x => exact (bindVar_spec h (hw2.walked x rfl) hw1.walked hin1 (by simp) hsound hr).symm
      | atom b =>
        cases hr
        intro θ hθ hab
        simp at hab
      | fact q g cs =>
        rw [unifyWalked] at hr
        by_cases hfg : f = g
        · subst hfg
          rw [if_neg (not_not.2 rfl)] at hr
          by_cases hlen : as.length = cs.length
          · rw [if_neg (not_not.2 hlen)] at hr
            cases hin1 with
            | fact _ has =>
            cases hin2 with
            | fact _ hcs =>
            refine Outcome.of_args (unifyArgs_spec (fun bs t1 t2 r => ih) h has hcs hlen
              (hsound rfl hlen) hr)
          · rw [if_pos hlen] at hr
            cases hr
            intro θ hθ hab
            have := congrArg List.length (show as.map _ = cs.map _ by simpa using hab)
            exact hlen (by simpa using this)
        · rw [if_pos hfg] at hr
          cases hr
          intro θ hθ hab
          exact hfg (by simpa using (show f = g ∧ _ by simpa using hab).1)

end calls

end Logic
