import Eshkol.Logic.UnifyCorrect

/-!
# The unifier returns

Each call either binds one more of the finitely many variables in play, or descends into facts that
get smaller once resolved.
-/

namespace Logic

open FirstOrder FirstOrder.Tree

variable {α β φ : Type} {bs : List (ℕ × Term α φ)}

lemma unifyArgs_mono {u u' : Subst α φ → Term α φ → Term α φ → Option (Subst α φ)}
    (h : ∀ s a b r, u s a b = some r → u' s a b = some r) {s r : Subst α φ} {as cs : List (Term α φ)}
    (hr : unifyArgs u s as cs = some r) : unifyArgs u' s as cs = some r := by
  induction as generalizing s cs with
  | nil => exact hr
  | cons a as ih =>
    cases cs with
    | nil => exact hr
    | cons c cs =>
      rw [unifyArgs] at hr ⊢
      obtain ⟨r₁, hr₁, hr⟩ := Option.bind_eq_some_iff.1 hr
      rw [h _ _ _ _ hr₁, Option.bind_some]
      cases r₁ with
      | none => exact hr
      | some bs₁ => exact ih hr

lemma ArgsBindSoundly.anti {P P' : List (ℕ × Term α φ) → Term α φ → Term α φ → Prop}
    {u u' : Subst α φ → Term α φ → Term α φ → Option (Subst α φ)}
    (hP : ∀ bs a b, P' bs a b → P bs a b) (hu : ∀ s a b r, u s a b = some r → u' s a b = some r)
    {as cs : List (Term α φ)} (h : ArgsBindSoundly P' u' bs as cs) : ArgsBindSoundly P u bs as cs := by
  induction as generalizing bs cs with
  | nil => trivial
  | cons a as ih =>
    cases cs with
    | nil => trivial
    | cons c cs => exact ⟨hP _ _ _ h.1, fun bs' hbs' => ih (h.2 bs' (hu _ _ _ _ hbs'))⟩

section mono
variable [DecidableEq φ]

lemma unifyWalked_facts (unify : Subst α φ → Term α φ → Term α φ → Option (Subst α φ))
    (s : Subst α φ) {p q : ℕ} {f : φ} {as bs : List (Term α φ)} (hlen : as.length = bs.length) :
    unifyWalked unify s (.fact p f as) (.fact q f bs) = unifyArgs unify s as bs := by
  rw [unifyWalked, if_neg (not_not.2 rfl), if_neg (not_not.2 hlen)]

lemma unifyWalked_mono {u u' : Subst α φ → Term α φ → Term α φ → Option (Subst α φ)}
    (h : ∀ s a b r, u s a b = some r → u' s a b = some r) {s r : Subst α φ} {w1 w2 : Term α φ}
    (hr : unifyWalked u s w1 w2 = some r) : unifyWalked u' s w1 w2 = some r := by
  cases w1 with
  | var x => exact hr
  | atom a => cases w2 <;> exact hr
  | fact p f as =>
    cases w2 with
    | var x => exact hr
    | atom b => exact hr
    | fact q g cs =>
      rw [unifyWalked] at hr ⊢
      by_cases hfg : f = g
      · rw [if_neg (not_not.2 hfg)] at hr ⊢
        by_cases hlen : as.length = cs.length
        · rw [if_neg (not_not.2 hlen)] at hr ⊢
          exact unifyArgs_mono h hr
        · rw [if_pos hlen] at hr ⊢
          exact hr
      · rw [if_pos hfg] at hr ⊢
        exact hr

variable [BEq α] [Atoms α β]

/-- A call that has returned returns the same with more fuel. -/
lemma unify_mono {fuel fuel' : ℕ} (hle : fuel ≤ fuel') {s r : Subst α φ} {t1 t2 : Term α φ}
    (hr : unify fuel s t1 t2 = some r) : unify fuel' s t1 t2 = some r := by
  induction fuel generalizing fuel' s t1 t2 r with
  | zero => cases hr
  | succ fuel ih =>
    obtain ⟨fuel', rfl⟩ : ∃ k, fuel' = k + 1 := ⟨fuel' - 1, by omega⟩
    rw [unify] at hr ⊢
    obtain ⟨w1, hw1, hr⟩ := Option.bind_eq_some_iff.1 hr
    obtain ⟨w2, hw2, hr⟩ := Option.bind_eq_some_iff.1 hr
    rw [hw1, Option.bind_some, hw2, Option.bind_some]
    by_cases heq : taggedValuesEqual w1 w2 = true
    · rw [if_pos heq] at hr ⊢
      exact hr
    · rw [if_neg heq] at hr ⊢
      exact unifyWalked_mono (fun s a b r => ih (by omega)) hr

lemma Returns.of_unify (fuel : ℕ) {s r : Subst α φ} {t1 t2 : Term α φ}
    (h : unify fuel s t1 t2 = some r) : Returns s t1 t2 r :=
  ⟨fuel, fun _ hle => unify_mono hle h⟩

/-- The fuel does not matter. -/
lemma Returns.unique {s r r' : Subst α φ} {t1 t2 : Term α φ} (h : Returns s t1 t2 r)
    (h' : Returns s t1 t2 r') : r = r' := by
  obtain ⟨n, hn⟩ := h
  obtain ⟨n', hn'⟩ := h'
  have := (hn (max n n') (by omega)).symm.trans (hn' (max n n') (by omega))
  simpa using this

/-- A sound call is sound within less fuel. -/
lemma CallBindsSoundly.anti {fuel fuel' : ℕ} (hle : fuel ≤ fuel') {t1 t2 : Term α φ}
    (h : CallBindsSoundly fuel' bs t1 t2) : CallBindsSoundly fuel bs t1 t2 := by
  induction fuel generalizing fuel' bs t1 t2 with
  | zero => trivial
  | succ fuel ih =>
    obtain ⟨fuel', rfl⟩ : ∃ k, fuel' = k + 1 := ⟨fuel' - 1, by omega⟩
    intro w1 w2 hw1 hw2 hne
    have hw := h w1 w2 hw1 hw2 hne
    cases w1 with
    | var x => exact hw
    | atom a => cases w2 <;> exact hw
    | fact p f as =>
      cases w2 with
      | var x => exact hw
      | atom b => exact hw
      | fact q g cs =>
        intro hfg hlen
        exact (hw hfg hlen).anti (fun _ _ _ => ih (by omega)) (fun _ _ _ _ => unify_mono (by omega))

end mono

variable [BEq α] [Atoms α β] {mem : Memory β φ}

/-! ## The measure -/

lemma WellFormed.nodup (h : WellFormed mem bs) : (domain bs).Nodup := by
  induction h with
  | nil => simp [domain]
  | @snoc bs x t _ hnew _ _ _ ih =>
    rw [domain_snoc, List.nodup_append]
    refine ⟨ih, by simp, ?_⟩
    rintro y hy _ (_ | ⟨_, hz⟩) rfl
    · exact hnew hy
    · cases hz

/-- The variables of `V` that are not bound. -/
def remaining (V : Finset ℕ) (bs : List (ℕ × Term α φ)) : ℕ := (V.filter (· ∉ domain bs)).card

lemma remaining_lt {V : Finset ℕ} {new : List (ℕ × Term α φ)} (h : WellFormed mem (bs ++ new))
    (hV : BindingsInside (V : Set ℕ) (bs ++ new)) (hnew : new ≠ []) :
    remaining V (bs ++ new) < remaining V bs := by
  obtain ⟨⟨x, t⟩, hx⟩ := List.exists_mem_of_ne_nil new hnew
  have hdom : domain (bs ++ new) = domain bs ++ domain new := by simp [domain]
  have hxnew : x ∈ domain new := List.mem_map_of_mem (f := Prod.fst) hx
  have hxold : x ∉ domain bs := by
    have hnodup := h.nodup
    rw [hdom, List.nodup_append] at hnodup
    exact fun hmem => hnodup.2.2 x hmem x hxnew rfl
  have hxV : x ∈ V := (hV x t (List.mem_append_right _ hx)).1
  refine Finset.card_lt_card (Finset.ssubset_iff_of_subset ?_ |>.mpr ⟨x, ?_, ?_⟩)
  · intro y hy
    rw [Finset.mem_filter, hdom, List.mem_append, not_or] at hy
    exact Finset.mem_filter.2 ⟨hy.1, hy.2.1⟩
  · exact Finset.mem_filter.2 ⟨hxV, hxold⟩
  · rw [Finset.mem_filter, hdom]
    exact fun hmem => hmem.2 (List.mem_append_right _ hxnew)

lemma bindVar_returns (h : WellFormed mem bs) (x : ℕ) (w : Term α φ) :
    ∃ r, bindVar (some bs) x w = some r := by
  obtain ⟨found, hfound, -⟩ := h.occursImpl_spec x (occursCheckMaxDepth + 1) w
  exact ⟨_, by rw [bindVar, occurs, hfound]; rfl⟩

/-- A term has finitely many variables. -/
lemma finite_vars (t : Tree ℕ β φ) : {x | Occurs x t}.Finite := by
  induction t using induct with
  | var x => simp
  | atom a => simp
  | node f args ih =>
    have hunion : {x | Occurs x (node f args)} = ⋃ t ∈ {t | t ∈ args}, {x | Occurs x t} := by
      ext x
      simp
    rw [hunion]
    exact (List.finite_toSet args).biUnion fun t ht => ih t ht

lemma exists_inside (bs : List (ℕ × Term α φ)) (t1 t2 : Term α φ) :
    ∃ V : Finset ℕ, BindingsInside (V : Set ℕ) bs ∧ Inside (V : Set ℕ) t1 ∧ Inside (V : Set ℕ) t2 := by
  have hbs : {x | ∃ b ∈ bs, x = b.1 ∨ Occurs x b.2.tree}.Finite := by
    have hunion : {x | ∃ b ∈ bs, x = b.1 ∨ Occurs x b.2.tree} =
        ⋃ b ∈ {b | b ∈ bs}, ({b.1} ∪ {x | Occurs x b.2.tree}) := by
      ext x
      simp
    rw [hunion]
    exact (List.finite_toSet bs).biUnion fun b _ => (Set.finite_singleton b.1).union (finite_vars _)
  have hall := hbs.union ((finite_vars t1.tree).union (finite_vars t2.tree))
  refine ⟨hall.toFinset, fun x t hx => ⟨?_, fun y hy => ?_⟩, fun x hx => ?_, fun x hx => ?_⟩ <;>
    rw [Set.Finite.coe_toFinset]
  · exact .inl ⟨(x, t), hx, .inl rfl⟩
  · exact .inl ⟨(x, t), hx, .inr hy⟩
  · exact .inr (.inl hx)
  · exact .inr (.inr hx)

section returns
variable [DecidableEq φ]

/-- The calls that the measure covers: `n` variables left at most, and with `n` left the first term
smaller than `m`. -/
structure Covered (mem : Memory β φ) (V : Finset ℕ) (n m : ℕ) (bs : List (ℕ × Term α φ))
    (t1 t2 : Term α φ) : Prop where
  wellFormed : WellFormed mem bs
  inMem1 : t1.In mem
  inMem2 : t2.In mem
  sound : ∀ fuel, CallBindsSoundly fuel bs t1 t2
  inside : BindingsInside (V : Set ℕ) bs
  inside1 : Inside (V : Set ℕ) t1
  inside2 : Inside (V : Set ℕ) t2
  measure : remaining V bs < n ∨ (remaining V bs = n ∧ sizeOf (resolve bs t1) < m)

lemma unifyArgs_returns {V : Finset ℕ} {n m : ℕ}
    (hcalls : ∀ (bs : List (ℕ × Term α φ)) t1 t2, Covered mem V n m bs t1 t2 → ∃ fuel r, unify fuel (some bs) t1 t2 = some r)
    {as cs : List (Term α φ)} (hlen : as.length = cs.length) (h : WellFormed mem bs)
    (has : ∀ a ∈ as, a.In mem) (hcs : ∀ c ∈ cs, c.In mem)
    (hsound : ∀ fuel, ArgsBindSoundly (CallBindsSoundly fuel) (unify fuel) bs as cs)
    (hV : BindingsInside (V : Set ℕ) bs) (hasV : ∀ a ∈ as, Inside (V : Set ℕ) a)
    (hcsV : ∀ c ∈ cs, Inside (V : Set ℕ) c)
    (hmeasure : remaining V bs < n ∨ (remaining V bs = n ∧ ∀ a ∈ as, sizeOf (resolve bs a) < m)) :
    ∃ fuel r, unifyArgs (unify fuel) (some bs) as cs = some r := by
  induction as generalizing bs cs with
  | nil => exact ⟨0, some bs, rfl⟩
  | cons a as ih =>
    cases cs with
    | nil => cases hlen
    | cons c cs =>
      have hhead : Covered mem V n m bs a c :=
        ⟨h, has a List.mem_cons_self, hcs c List.mem_cons_self, fun fuel => (hsound fuel).1, hV,
          hasV a List.mem_cons_self, hcsV c List.mem_cons_self,
          hmeasure.imp id fun hm => ⟨hm.1, hm.2 a List.mem_cons_self⟩⟩
      obtain ⟨fuel₁, r₁, hr₁⟩ := hcalls bs a c hhead
      cases r₁ with
      | none => exact ⟨fuel₁, none, by rw [unifyArgs, hr₁]; rfl⟩
      | some bs₁ =>
        have hext : Extends mem bs bs₁ [a] [c] :=
          unify_spec h hhead.inMem1 hhead.inMem2 (hhead.sound fuel₁) hr₁
        have hV₁ : BindingsInside (V : Set ℕ) bs₁ :=
          hext.inside V hV (by simpa using hhead.inside1) (by simpa using hhead.inside2)
        have hsound₁ : ∀ fuel, ArgsBindSoundly (CallBindsSoundly fuel) (unify fuel) bs₁ as cs := by
          intro fuel
          have htail := (hsound (max fuel fuel₁)).2 bs₁ (unify_mono (by omega) hr₁)
          exact htail.anti (fun _ _ _ => CallBindsSoundly.anti (by omega))
            (fun _ _ _ _ => unify_mono (by omega))
        -- either nothing was bound, or one variable fewer is left
        have hmeasure₁ : remaining V bs₁ < n ∨
            (remaining V bs₁ = n ∧ ∀ b ∈ as, sizeOf (resolve bs₁ b) < m) := by
          obtain ⟨new, rfl⟩ := hext.appended
          by_cases hnew : new = []
          · subst hnew
            rw [List.append_nil]
            exact hmeasure.imp id fun hm => ⟨hm.1, fun b hb => hm.2 b (List.mem_cons_of_mem _ hb)⟩
          · have := remaining_lt hext.wellFormed hV₁ hnew
            omega
        obtain ⟨fuel₂, r₂, hr₂⟩ := ih (by simpa using hlen) hext.wellFormed
          (fun b hb => has b (List.mem_cons_of_mem _ hb)) (fun b hb => hcs b (List.mem_cons_of_mem _ hb))
          hsound₁ hV₁ (fun b hb => hasV b (List.mem_cons_of_mem _ hb))
          (fun b hb => hcsV b (List.mem_cons_of_mem _ hb)) hmeasure₁
        refine ⟨max fuel₁ fuel₂, r₂, ?_⟩
        rw [unifyArgs, unify_mono (by omega) hr₁, Option.bind_some]
        exact unifyArgs_mono (fun _ _ _ _ => unify_mono (by omega)) hr₂

/-- One call, with the calls on smaller arguments known to return. -/
lemma unify_returns_step {V : Finset ℕ} {n m : ℕ}
    (hcalls : ∀ (bs : List (ℕ × Term α φ)) t1 t2, Covered mem V n m bs t1 t2 → ∃ fuel r, unify fuel (some bs) t1 t2 = some r)
    {t1 t2 : Term α φ} (h : Covered mem V n (m + 1) bs t1 t2) :
    ∃ fuel r, unify fuel (some bs) t1 t2 = some r := by
  obtain ⟨w1, hw1⟩ := h.wellFormed.walksTo t1
  obtain ⟨w2, hw2⟩ := h.wellFormed.walksTo t2
  have hstep : ∀ fuel, unify (fuel + 1) (some bs) t1 t2 = if taggedValuesEqual w1 w2 then some (some bs)
      else unifyWalked (unify fuel) (some bs) w1 w2 := by
    intro fuel
    rw [unify, hw1.walk_eq, Option.bind_some, hw2.walk_eq, Option.bind_some]
  by_cases heq : taggedValuesEqual w1 w2 = true
  · exact ⟨1, some bs, by rw [hstep, if_pos heq]⟩
  suffices hwalked : ∃ fuel r, unifyWalked (unify fuel) (some bs) w1 w2 = some r by
    obtain ⟨fuel, r, hr⟩ := hwalked
    exact ⟨fuel + 1, r, by rw [hstep, if_neg heq, hr]⟩
  have hbind : ∀ x w, ∃ fuel r, (fun _ : ℕ => bindVar (some bs) x w) fuel = some r := fun x w => by
    obtain ⟨r, hr⟩ := bindVar_returns h.wellFormed x w
    exact ⟨0, r, hr⟩
  cases w1 with
  | var x => exact hbind x w2
  | atom a =>
    cases w2 with
    | var x => exact hbind x (.atom a)
    | atom b => exact ⟨0, none, rfl⟩
    | fact q g cs => exact ⟨0, none, rfl⟩
  | fact p f as =>
    cases w2 with
    | var x => exact hbind x (.fact p f as)
    | atom b => exact ⟨0, none, rfl⟩
    | fact q g cs =>
      by_cases hfg : f = g
      · by_cases hlen : as.length = cs.length
        · have hside : ∀ {t w : Term α φ}, WalksTo mem bs t w → Inside (V : Set ℕ) t →
              Inside (V : Set ℕ) w := by
            intro t w hw ht
            obtain rfl | ⟨x, hx⟩ := hw.source
            · exact ht
            · exact (h.inside x w hx).2
          have hV1 := hside hw1 h.inside1
          have hV2 := hside hw2 h.inside2
          have hsize : ∀ a ∈ as, sizeOf (resolve bs a) < sizeOf (resolve bs t1) := by
            intro a ha
            have := List.sizeOf_lt_of_mem (List.mem_map_of_mem (f := resolve bs) ha)
            rw [← hw1.resolve_eq h.wellFormed, resolve_fact, node.sizeOf_spec]
            omega
          have hargs := unifyArgs_returns hcalls hlen h.wellFormed
            (fun a ha => by cases hw1.inMem h.inMem1 with | fact _ has => exact has a ha)
            (fun c hc => by cases hw2.inMem h.inMem2 with | fact _ hcs => exact hcs c hc)
            (fun fuel => h.sound (fuel + 1) _ _ hw1.walk_eq hw2.walk_eq (by simpa using heq) hfg hlen)
            h.inside
            (fun a ha x hx => hV1 x (by rw [tree_fact]; exact .node (List.mem_map_of_mem ha) hx))
            (fun c hc x hx => hV2 x (by rw [tree_fact]; exact .node (List.mem_map_of_mem hc) hx))
            (h.measure.imp id fun hm => ⟨hm.1, fun a ha => by have := hsize a ha; omega⟩)
          obtain ⟨fuel, r, hr⟩ := hargs
          refine ⟨fuel, r, ?_⟩
          rw [unifyWalked, if_neg (not_not.2 hfg), if_neg (not_not.2 hlen)]
          exact hr
        · exact ⟨0, none, by rw [unifyWalked, if_neg (not_not.2 hfg), if_pos hlen]⟩
      · exact ⟨0, none, by rw [unifyWalked, if_pos hfg]⟩

lemma unify_returns_covered {V : Finset ℕ} (n m : ℕ) :
    ∀ (bs : List (ℕ × Term α φ)) t1 t2, Covered mem V n m bs t1 t2 → ∃ fuel r, unify fuel (some bs) t1 t2 = some r := by
  induction n generalizing m with
  | zero =>
    induction m with
    | zero =>
      intro bs t1 t2 h
      have := h.measure
      omega
    | succ m ih => exact fun bs t1 t2 h => unify_returns_step ih h
  | succ n ihn =>
    induction m with
    | zero =>
      intro bs t1 t2 h
      have hm := h.measure
      refine ihn (sizeOf (resolve bs t1) + 1) bs t1 t2 ⟨h.wellFormed, h.inMem1, h.inMem2, h.sound,
        h.inside, h.inside1, h.inside2, ?_⟩
      omega
    | succ m ih => exact fun bs t1 t2 h => unify_returns_step ih h

/-- A call that makes no circular binding returns. -/
lemma WellFormed.unify_returns (h : WellFormed mem bs) {t1 t2 : Term α φ} (h1 : t1.In mem)
    (h2 : t2.In mem) (hsound : ∀ fuel, CallBindsSoundly fuel bs t1 t2) :
    ∃ r, Returns (some bs) t1 t2 r := by
  obtain ⟨V, hbs, hV1, hV2⟩ := exists_inside bs t1 t2
  obtain ⟨fuel, r, hr⟩ := unify_returns_covered (remaining V bs) (sizeOf (resolve bs t1) + 1) bs t1 t2
    ⟨h, h1, h2, hsound, hbs, hV1, hV2, by omega⟩
  exact ⟨r, .of_unify fuel hr⟩

end returns

end Logic
