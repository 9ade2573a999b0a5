import Eshkol.Base.Lambda
import Eshkol.Blc.Term

/-!
# Redexes, positions and the terms of the lambda calculus

The positions of a term, in the order in which their subterms start in it, and the translation
of terms to the lambda calculus, under which contracting a redex is a beta step.
-/

namespace Blc

open Lambda (Tm)

/-! ## Positions -/

/-- The way from a term to one of its subterms: into a body or a function with `false`, into an
argument with `true`. -/
abbrev Position := List Bool

/-- The order in which the subterms start: a term before its parts, a function before its
argument. -/
inductive Position.NoLater : Position → Position → Prop where
  | whole (q : Position) : NoLater [] q
  | part (d : Bool) {p q : Position} : NoLater p q → NoLater (d :: p) (d :: q)
  | funArg (p q : Position) : NoLater (false :: p) (true :: q)

namespace Term

/-- The subterm at a position. -/
def sub : Term → Position → Option Term
  | t, [] => some t
  | lam b, false :: p => b.sub p
  | app m _, false :: p => m.sub p
  | app _ n, true :: p => n.sub p
  | _, _ => none

/-- A beta redex stands at the position. -/
def RedexAt (t : Term) (p : Position) : Prop := ∃ b n, t.sub p = some (app (lam b) n)

/-- The position of the leftmost-outermost redex. -/
def FirstRedex (t : Term) (p : Position) : Prop :=
  t.RedexAt p ∧ ∀ q, t.RedexAt q → p.NoLater q

/-- The term with the redex at a position contracted. -/
def contractAt : Term → Position → Term
  | app (lam b) n, [] => beta b n
  | lam b, false :: p => lam (b.contractAt p)
  | app m n, false :: p => app (m.contractAt p) n
  | app m n, true :: p => app m (n.contractAt p)
  | t, _ => t

variable {b m n : Term} {p : Position}

lemma redexAt_var {i : ℤ} : ¬ (var i).RedexAt p := by
  rintro ⟨b, n, h⟩
  cases p <;> simp [sub] at h

lemma redexAt_lam_cons : (lam b).RedexAt (false :: p) ↔ b.RedexAt p := Iff.rfl

lemma redexAt_fun_cons : (app m n).RedexAt (false :: p) ↔ m.RedexAt p := by
  cases m <;> exact Iff.rfl

lemma redexAt_arg_cons : (app m n).RedexAt (true :: p) ↔ n.RedexAt p := Iff.rfl

lemma redexAt_lam : (lam b).RedexAt p ↔ ∃ q, p = false :: q ∧ b.RedexAt q := by
  match p with
  | [] => simp [RedexAt, sub]
  | false :: q => simp [redexAt_lam_cons]
  | true :: q => simp [RedexAt, sub]

lemma redexAt_app_nil : (app m n).RedexAt [] ↔ m.isLam = true := by
  cases m <;> simp [RedexAt, sub, isLam]

end Term

open Term

/-- One contraction anywhere in a term. -/
def BetaStep (t u : Term) : Prop := ∃ p, t.RedexAt p ∧ u = t.contractAt p

/-! ## Leftmost-outermost -/

lemma step_app_of_not_isLam {m n : Term} (h : m.isLam = false) :
    step (.app m n) =
      if (step m).1 then (true, .app (step m).2 n)
      else if (step n).1 then (true, .app m (step n).2) else (false, .app m n) := by
  cases m with
  | lam b => cases h
  | var i => rfl
  | app f a => rfl

lemma contractAt_fun_cons {m n : Term} {p : Position} :
    (Term.app m n).contractAt (false :: p) = .app (m.contractAt p) n := by
  cases m <;> rfl

lemma contractAt_arg_cons {m n : Term} {p : Position} :
    (Term.app m n).contractAt (true :: p) = .app m (n.contractAt p) := by
  cases m <;> rfl

/-- A step contracts the redex whose position comes first, and there is none where no step is
reported. -/
lemma step_spec (t : Term) :
    (step t = (false, t) ∧ ∀ p, ¬ t.RedexAt p) ∨
      ∃ p, t.FirstRedex p ∧ step t = (true, t.contractAt p) := by
  induction t with
  | var i => exact .inl ⟨rfl, fun _ => redexAt_var⟩
  | lam b ih =>
    rcases ih with ⟨hstep, hnone⟩ | ⟨p, ⟨hp, hfirst⟩, hstep⟩
    · refine .inl ⟨by rw [step, hstep]; rfl, fun q hq => ?_⟩
      obtain ⟨r, -, hr⟩ := redexAt_lam.1 hq
      exact hnone r hr
    · refine .inr ⟨false :: p, ⟨hp, fun q hq => ?_⟩, by rw [step, hstep]; rfl⟩
      obtain ⟨r, rfl, hr⟩ := redexAt_lam.1 hq
      exact .part false (hfirst r hr)
  | app m n ihm ihn =>
    cases hm : m.isLam with
    | true =>
      cases m with
      | lam b =>
        exact .inr ⟨[], ⟨redexAt_app_nil.2 hm, fun q _ => .whole q⟩, rfl⟩
      | var i => cases hm
      | app f a => cases hm
    | false =>
      have hnil : ¬ (Term.app m n).RedexAt [] := fun h => by
        rw [redexAt_app_nil, hm] at h
        cases h
      rw [step_app_of_not_isLam hm]
      rcases ihm with ⟨hstepm, hnonem⟩ | ⟨p, ⟨hp, hfirst⟩, hstepm⟩
      · rcases ihn with ⟨hstepn, hnonen⟩ | ⟨p, ⟨hp, hfirst⟩, hstepn⟩
        · refine .inl ⟨by simp [hstepm, hstepn], fun q hq => ?_⟩
          match q with
          | [] => exact hnil hq
          | false :: r => exact hnonem r (redexAt_fun_cons.1 hq)
          | true :: r => exact hnonen r hq
        · refine .inr ⟨true :: p, ⟨hp, fun q hq => ?_⟩, ?_⟩
          · match q with
            | [] => exact absurd hq hnil
            | false :: r => exact absurd (redexAt_fun_cons.1 hq) (hnonem r)
            | true :: r => exact .part true (hfirst r hq)
          · simp [hstepm, hstepn, contractAt_arg_cons]
      · refine .inr ⟨false :: p, ⟨redexAt_fun_cons.2 hp, fun q hq => ?_⟩, ?_⟩
        · match q with
          | [] => exact absurd hq hnil
          | false :: r => exact .part false (hfirst r (redexAt_fun_cons.1 hq))
          | true :: r => exact .funArg p r
        · simp [hstepm, contractAt_fun_cons]

/-! ## Positive indices -/

variable {t u s : Term}

lemma isTerm_shift {d c : ℤ} (ht : isTerm t = true) (hd : 0 ≤ d) :
    isTerm (shift d c t) = true := by
  induction t generalizing c with
  | var k =>
    simp only [isTerm, decide_eq_true_eq] at ht
    rw [shift]
    split <;> simp only [isTerm, decide_eq_true_eq] <;> omega
  | lam b ih => exact ih ht
  | app m n ihm ihn =>
    simp only [isTerm, Bool.and_eq_true] at ht
    simp only [shift, isTerm, Bool.and_eq_true]
    exact ⟨ihm ht.1, ihn ht.2⟩

/-! ## Translation to the lambda calculus -/

/-- The term with zero-based indices. -/
def toTm : Term → Tm
  | .var i => .var (i - 1).toNat
  | .lam b => .lam (toTm b)
  | .app m n => .app (toTm m) (toTm n)

lemma toTm_injective (ht : isTerm t = true) (hu : isTerm u = true) (h : toTm t = toTm u) :
    t = u := by
  induction t generalizing u with
  | var i =>
    cases u with
    | var j =>
      simp only [isTerm, decide_eq_true_eq] at ht hu
      simp only [toTm, Tm.var.injEq] at h
      exact congrArg Term.var (by omega)
    | lam b => cases h
    | app m n => cases h
  | lam b ih =>
    cases u with
    | lam c => exact congrArg Term.lam (ih ht hu (Tm.lam.inj h))
    | var j => cases h
    | app m n => cases h
  | app m n ihm ihn =>
    cases u with
    | app m' n' =>
      simp only [isTerm, Bool.and_eq_true] at ht hu
      obtain ⟨hm, hn⟩ := Tm.app.inj h
      rw [ihm ht.1 hu.1 hm, ihn ht.2 hu.2 hn]
    | var j => cases h
    | lam b => cases h

/-- The renaming that makes room for one index after the first `k`. -/
def bump (k n : ℕ) : ℕ := if k ≤ n then n + 1 else n

lemma lift_bump (k : ℕ) : Tm.lift (bump k) = bump (k + 1) := by
  funext n
  cases n with
  | zero => rfl
  | succ n =>
    simp only [Tm.lift, bump]
    split <;> split <;> omega

lemma bump_zero : bump 0 = Nat.succ := by
  funext n
  rfl

lemma toTm_shift (ht : isTerm t = true) (k : ℕ) :
    toTm (shift 1 (k + 1) t) = (toTm t).rename (bump k) := by
  induction t generalizing k with
  | var i =>
    simp only [isTerm, decide_eq_true_eq] at ht
    simp only [toTm, Tm.rename, bump, shift]
    split <;> split <;> simp only [toTm, Tm.var.injEq] <;> omega
  | lam b ih =>
    have hb := ih ht (k + 1)
    push_cast at hb
    simp only [shift, toTm, Tm.rename, hb, lift_bump]
  | app m n ihm ihn =>
    simp only [isTerm, Bool.and_eq_true] at ht
    simp only [shift, toTm, Tm.rename, ihm ht.1, ihn ht.2]

/-- The substitution of the index `k` under `k` binders. -/
def singleUnder (a : Tm) (k : ℕ) : ℕ → Tm := Tm.up^[k] (Tm.single a)

lemma singleUnder_succ (a : Tm) (k : ℕ) : singleUnder a (k + 1) = Tm.up (singleUnder a k) :=
  Function.iterate_succ_apply' _ _ _

/-- Under `k` binders, an index below `k` stays, the index `k` gets the shifted argument, and the
indices beyond lose one. -/
lemma singleUnder_apply (a : Tm) (k n : ℕ) :
    singleUnder a k n =
      if n < k then .var n else if n = k then a.rename (· + k) else .var (n - 1) := by
  induction k generalizing n with
  | zero =>
    cases n with
    | zero =>
      have hid : a.rename (fun n => n + 0) = a := by
        rw [Tm.rename_eq_subst]
        exact Tm.subst_var a
      rw [if_neg (Nat.lt_irrefl 0), if_pos rfl, hid]
      rfl
    | succ n => simp [singleUnder, Tm.single]
  | succ k ih =>
    rw [singleUnder_succ]
    cases n with
    | zero => simp [Tm.up]
    | succ n =>
      rw [Tm.up, ih]
      by_cases hlt : n < k
      · simp [hlt, Tm.rename]
      · by_cases heq : n = k
        · subst heq
          simp only [Nat.lt_irrefl, if_false, if_true, Tm.rename_rename]
          rfl
        · rw [if_neg hlt, if_neg heq, if_neg (by omega), if_neg (by omega), Tm.rename]
          congr 1
          omega

/-- Taking out an index that does not occur undoes making room for it. -/
lemma toTm_unshift {v : Tm} {k : ℕ} (hs : isTerm s = true) (h : toTm s = v.rename (bump k)) :
    isTerm (shift (-1) (k + 1) s) = true ∧ toTm (shift (-1) (k + 1) s) = v := by
  induction s generalizing v k with
  | var i =>
    cases v with
    | var n =>
      simp only [isTerm, decide_eq_true_eq] at hs
      simp only [toTm, Tm.rename, bump, Tm.var.injEq] at h
      rw [shift]
      split at h
      · rw [if_pos (by omega)]
        simp only [isTerm, decide_eq_true_eq, toTm, Tm.var.injEq]
        omega
      · rw [if_neg (by omega)]
        simp only [isTerm, decide_eq_true_eq, toTm, Tm.var.injEq]
        omega
    | lam b => cases h
    | app f a => cases h
  | lam b ih =>
    cases v with
    | lam c =>
      rw [Tm.rename, lift_bump] at h
      have hb := ih hs (Tm.lam.inj h)
      push_cast at hb
      exact ⟨hb.1, congrArg Tm.lam hb.2⟩
    | var n => cases h
    | app f a => cases h
  | app m n ihm ihn =>
    cases v with
    | app f a =>
      simp only [isTerm, Bool.and_eq_true] at hs
      obtain ⟨hm, hn⟩ := Tm.app.inj h
      obtain ⟨htm, hvm⟩ := ihm hs.1 hm
      obtain ⟨htn, hvn⟩ := ihn hs.2 hn
      simp only [shift, isTerm, toTm, htm, htn, hvm, hvn, Bool.and_self, and_self]
    | var n => cases h
    | lam b => cases h

/-- `s` is the argument `a` of a redex as it stands under `k` binders of the body, with room for
the index that is substituted. -/
structure ArgumentUnder (a : Tm) (k : ℕ) (s : Term) : Prop where
  isTerm : isTerm s = true
  toTm : toTm s = a.rename (· + (k + 1))

lemma ArgumentUnder.shift {a : Tm} {k : ℕ} (h : ArgumentUnder a k s) :
    ArgumentUnder a (k + 1) (shift 1 1 s) where
  isTerm := isTerm_shift h.isTerm (by decide)
  toTm := by
    have hshift : Blc.toTm (Blc.shift 1 1 s) = (Blc.toTm s).rename (bump 0) :=
      toTm_shift h.isTerm 0
    rw [hshift, h.toTm, bump_zero, Tm.rename_rename]
    rfl

/-- Replacing an index and closing the gap it leaves is the substitution of that index. -/
lemma toTm_shift_subst {a : Tm} {k : ℕ} {b : Term} (hb : isTerm b = true)
    (hs : ArgumentUnder a k s) :
    isTerm (shift (-1) (k + 1) (subst b (k + 1) s)) = true ∧
      toTm (shift (-1) (k + 1) (subst b (k + 1) s)) = (toTm b).subst (singleUnder a k) := by
  induction b generalizing k s with
  | var i =>
    simp only [isTerm, decide_eq_true_eq] at hb
    rw [toTm, Tm.subst, singleUnder_apply, subst]
    by_cases hi : i = k + 1
    · have hgap : toTm s = (a.rename (· + k)).rename (bump k) := by
        rw [hs.toTm, Tm.rename_rename]
        congr 1
        funext n
        simp [bump, Nat.add_assoc]
      rw [if_pos hi, if_neg (by omega), if_pos (by omega)]
      exact toTm_unshift hs.isTerm hgap
    · rw [if_neg hi, shift]
      by_cases hlt : i < k + 1
      · rw [if_neg (by omega), if_pos (by omega)]
        simp only [isTerm, decide_eq_true_eq, toTm, and_true]
        exact hb
      · rw [if_pos (by omega), if_neg (by omega), if_neg (by omega)]
        simp only [isTerm, decide_eq_true_eq, toTm, Tm.var.injEq]
        omega
  | lam b ih =>
    have hbody := ih hb hs.shift
    push_cast at hbody
    rw [toTm, Tm.subst, ← singleUnder_succ, ← hbody.2]
    exact ⟨hbody.1, rfl⟩
  | app m n ihm ihn =>
    simp only [isTerm, Bool.and_eq_true] at hb
    obtain ⟨htm, hm⟩ := ihm hb.1 hs
    obtain ⟨htn, hn⟩ := ihn hb.2 hs
    rw [toTm, Tm.subst, ← hm, ← hn]
    simp only [subst, shift, isTerm, htm, htn, Bool.and_self, toTm, and_self]

/-- Contracting a redex of terms with positive indices is instantiating its body. -/
lemma toTm_beta {b n : Term} (hb : isTerm b = true) (hn : isTerm n = true) :
    isTerm (beta b n) = true ∧ toTm (beta b n) = (toTm b).inst (toTm n) := by
  have hshift : toTm (shift 1 1 n) = (toTm n).rename (bump 0) := toTm_shift hn 0
  rw [bump_zero] at hshift
  exact toTm_shift_subst (k := 0) hb ⟨isTerm_shift hn (by decide), hshift⟩

/-! ## Steps are beta steps -/

/-- Contracting a redex keeps the indices positive and is a beta step. -/
lemma RedexAt.beta {p : Position} (ht : isTerm t = true) (hp : t.RedexAt p) :
    isTerm (t.contractAt p) = true ∧ Lambda.Beta (toTm t) (toTm (t.contractAt p)) := by
  induction t generalizing p with
  | var i => exact absurd hp redexAt_var
  | lam b ih =>
    obtain ⟨q, rfl, hq⟩ := redexAt_lam.1 hp
    obtain ⟨hterm, hbeta⟩ := ih ht hq
    exact ⟨hterm, .lam hbeta⟩
  | app m n ihm ihn =>
    have hmn := ht
    simp only [isTerm, Bool.and_eq_true] at hmn
    match p with
    | [] =>
      cases m with
      | lam b =>
        obtain ⟨hterm, hbeta⟩ := toTm_beta (b := b) hmn.1 hmn.2
        rw [contractAt, hbeta]
        exact ⟨hterm, .redex _ _⟩
      | var i => exact absurd (redexAt_app_nil.1 hp) (by simp [isLam])
      | app f a => exact absurd (redexAt_app_nil.1 hp) (by simp [isLam])
    | false :: q =>
      obtain ⟨hterm, hbeta⟩ := ihm hmn.1 (redexAt_fun_cons.1 hp)
      rw [contractAt_fun_cons]
      exact ⟨by simp [isTerm, hterm, hmn.2], .appFun _ hbeta⟩
    | true :: q =>
      obtain ⟨hterm, hbeta⟩ := ihn hmn.2 hp
      rw [contractAt_arg_cons]
      exact ⟨by simp [isTerm, hterm, hmn.1], .appArg _ hbeta⟩

/-- Every beta step of the translated term contracts a redex of the term. -/
lemma exists_redexAt {v : Tm} (h : Lambda.Beta (toTm t) v) : ∃ p, t.RedexAt p := by
  induction t generalizing v with
  | var i => cases h
  | lam b ih =>
    cases h with
    | lam hb =>
      obtain ⟨p, hp⟩ := ih hb
      exact ⟨false :: p, hp⟩
  | app m n ihm ihn =>
    cases hm : m.isLam with
    | true => exact ⟨[], redexAt_app_nil.2 hm⟩
    | false =>
      rw [toTm] at h
      generalize hf : toTm m = f at h
      cases h with
      | redex b a => cases m <;> simp [toTm, isLam] at hf hm
      | appFun a hfun =>
        obtain ⟨p, hp⟩ := ihm (hf ▸ hfun)
        exact ⟨false :: p, redexAt_fun_cons.2 hp⟩
      | appArg f harg =>
        obtain ⟨p, hp⟩ := ihn harg
        exact ⟨true :: p, hp⟩

lemma normal_toTm_iff (ht : isTerm t = true) :
    Lambda.Normal (toTm t) ↔ ∀ p, ¬ t.RedexAt p := by
  refine ⟨fun h p hp => h _ (RedexAt.beta ht hp).2, fun h v hv => ?_⟩
  obtain ⟨p, hp⟩ := exists_redexAt hv
  exact h p hp

lemma step_eq_of_normal (h : ∀ p, ¬ t.RedexAt p) : step t = (false, t) := by
  rcases step_spec t with ⟨hstep, -⟩ | ⟨p, ⟨hp, -⟩, -⟩
  · exact hstep
  · exact absurd hp (h p)

/-- A leftmost step of the translated term is what a step does. -/
lemma step_of_leftmost {v : Tm} (ht : isTerm t = true) (h : Lambda.Leftmost (toTm t) v) :
    ∃ u, step t = (true, u) ∧ isTerm u = true ∧ toTm u = v := by
  induction t generalizing v with
  | var i => cases h
  | lam b ih =>
    cases h with
    | lam hb =>
      obtain ⟨u, hstep, hu, rfl⟩ := ih ht hb
      exact ⟨.lam u, by rw [step, hstep]; rfl, hu, rfl⟩
  | app m n ihm ihn =>
    simp only [isTerm, Bool.and_eq_true] at ht
    rw [toTm] at h
    generalize hf : toTm m = f at h
    have hlam : (∀ b, f ≠ .lam b) → m.isLam = false := by
      intro hne
      cases m with
      | lam b => exact absurd hf.symm (hne _)
      | var i => rfl
      | app f a => rfl
    cases h with
    | redex b a =>
      cases m with
      | lam c =>
        obtain ⟨hterm, hbeta⟩ := toTm_beta (b := c) ht.1 ht.2
        obtain rfl : toTm c = b := Tm.lam.inj hf
        exact ⟨beta c n, rfl, hterm, hbeta⟩
      | var i => cases hf
      | app f a => cases hf
    | appFun a hne hfun =>
      obtain ⟨u, hstep, hu, rfl⟩ := ihm ht.1 (hf ▸ hfun)
      refine ⟨.app u n, ?_, by simp [isTerm, hu, ht.2], rfl⟩
      rw [step_app_of_not_isLam (hlam hne), hstep]
      rfl
    | appArg hne hnormal harg =>
      obtain ⟨u, hstep, hu, rfl⟩ := ihn ht.2 harg
      have hnone := step_eq_of_normal ((normal_toTm_iff ht.1).1 (hf ▸ hnormal))
      refine ⟨.app m u, ?_, by simp [isTerm, hu, ht.1], by rw [toTm, hf]⟩
      rw [step_app_of_not_isLam (hlam hne), hnone, hstep]
      rfl

end Blc

/-!
## Normal-order evaluation

Steps contract the leftmost-outermost redex, contraction is capture-avoiding substitution, and
iterating steps reaches every normal form that a term can be reduced to.
-/

namespace Blc

open Lambda Relation

/-- The term after `k` steps. -/
def stepN (k : ℕ) (t : Term) : Term := (fun t => (step t).2)^[k] t

lemma stepN_succ (k : ℕ) (t : Term) : stepN (k + 1) t = stepN k (step t).2 := rfl

variable {t u : Term}

/-- A term steps to another in exactly `k` steps, each of which is reported. -/
def StepsIn (k : ℕ) (t u : Term) : Prop :=
  stepN k t = u ∧ ∀ j < k, (step (stepN j t)).1 = true

lemma StepsIn.head {k : ℕ} {s : Term} (hstep : step t = (true, s)) (h : StepsIn k s u) :
    StepsIn (k + 1) t u := by
  refine ⟨?_, fun j hj => ?_⟩
  · rw [stepN_succ, hstep]
    exact h.1
  · cases j with
    | zero => exact congrArg Prod.fst hstep
    | succ j =>
      rw [stepN_succ, hstep]
      exact h.2 j (Nat.lt_of_succ_lt_succ hj)

/-- A beta reduction of a term with positive indices is one of its translation. -/
lemma betaSteps_toTm (ht : isTerm t = true) (h : ReflTransGen BetaStep t u) :
    isTerm u = true ∧ ReflTransGen Beta (toTm t) (toTm u) := by
  induction h with
  | refl => exact ⟨ht, .refl⟩
  | tail _ hstep ih =>
    obtain ⟨p, hp, rfl⟩ := hstep
    obtain ⟨hterm, hbeta⟩ := RedexAt.beta ih.1 hp
    exact ⟨hterm, ih.2.tail hbeta⟩

/-- Leftmost reduction of the translation is iterating steps. -/
lemma stepsIn_of_leftmostSteps {v : Tm} (ht : isTerm t = true)
    (h : ReflTransGen Leftmost (toTm t) v) :
    ∃ k u, StepsIn k t u ∧ isTerm u = true ∧ toTm u = v := by
  generalize hw : toTm t = w at h
  induction h using ReflTransGen.head_induction_on generalizing t with
  | refl => exact ⟨0, t, ⟨rfl, fun j hj => absurd hj (Nat.not_lt_zero j)⟩, ht, hw⟩
  | head hstep _ ih =>
    obtain ⟨s, hs, hterm, hval⟩ := step_of_leftmost ht (hw ▸ hstep)
    obtain ⟨k, u, hk, hu⟩ := ih hterm hval
    exact ⟨k + 1, u, hk.head hs, hu⟩

/-- A term that can be reduced to a normal form is brought to it by steps, and no step is
reported there. -/
lemma stepsIn_of_betaSteps (ht : isTerm t = true) (h : ReflTransGen BetaStep t u)
    (hu : ∀ p, ¬ u.RedexAt p) : ∃ k, StepsIn k t u ∧ step u = (false, u) := by
  obtain ⟨hterm, hbeta⟩ := betaSteps_toTm ht h
  have hleftmost := leftmost_normalizes hbeta ((normal_toTm_iff hterm).2 hu)
  obtain ⟨k, v, hk, hv, hval⟩ := stepsIn_of_leftmostSteps ht hleftmost
  obtain rfl := toTm_injective hv hterm hval
  exact ⟨k, hk, step_eq_of_normal hu⟩

/-- The named reading of a contraction: substituting the argument for the bound name, without
capture, in any reading of the body and the argument. -/
lemma reads_beta {V : Type*} [DecidableEq V] {choose : Finset V → V → V}
    (hchoose : ∀ avoid x, choose avoid x ∉ avoid) {b n : Term} (hb : isTerm b = true)
    (hn : isTerm n = true) {ctx : List V} {x : V} {body arg : Named V}
    (hbody : Reads (x :: ctx) body (toTm b)) (harg : Reads ctx arg (toTm n)) :
    Reads ctx (body.inst choose x arg) (toTm (beta b n)) := by
  rw [(toTm_beta hb hn).2]
  exact hbody.inst hchoose harg

/-- Every term has a reading by names from an infinite supply. -/
lemma exists_reading (V : Type*) [Infinite V] (t : Term) :
    ∃ (ctx : List V) (m : Named V), Reads ctx m (toTm t) := by
  obtain ⟨names, hlength⟩ := Infinite.exists_subset_card_eq V (toTm t).height
  refine ⟨names.toList, exists_reads (toTm t) names.nodup_toList ?_⟩
  rw [Finset.length_toList, hlength]

/-- Normal-order evaluation. A step contracts exactly the redex that starts first and reports none
only on normal forms; contraction keeps the indices positive and is capture-avoiding substitution
under every named reading; and iterated steps reach every normal form that some sequence of
contractions leads to. -/
theorem step_normal_order {V : Type*} [DecidableEq V] [Infinite V] :
    (∀ t, (step t = (false, t) ∧ ∀ p, ¬ t.RedexAt p) ∨
      ∃ p, t.FirstRedex p ∧ step t = (true, t.contractAt p)) ∧
    (∀ b n, isTerm b = true → isTerm n = true → isTerm (beta b n) = true ∧
      ∀ choose : Finset V → V → V, (∀ avoid x, choose avoid x ∉ avoid) →
        ∀ (ctx : List V) (x : V) (body arg : Named V),
          Reads (x :: ctx) body (toTm b) → Reads ctx arg (toTm n) →
            Reads ctx (body.inst choose x arg) (toTm (beta b n))) ∧
    (∀ t : Term, ∃ (ctx : List V) (m : Named V), Reads ctx m (toTm t)) ∧
    (∀ t u, isTerm t = true → ReflTransGen BetaStep t u → (∀ p, ¬ u.RedexAt p) →
      ∃ k, StepsIn k t u ∧ step u = (false, u)) :=
  ⟨step_spec,
    fun _ _ hb hn => ⟨(toTm_beta hb hn).1,
      fun _ hchoose _ _ _ _ hbody harg => reads_beta hchoose hb hn hbody harg⟩,
    exists_reading V,
    fun _ _ ht h hu => stepsIn_of_betaSteps ht h hu⟩

/-- Iterated steps find the normal form of a term with a divergent argument. -/
theorem step_normal_order_discard :
    ∃ k, StepsIn k (.app (.app blcK blcI) blcOmega) blcI ∧ step blcI = (false, blcI) := by
  have hfirst : BetaStep (.app (.app blcK blcI) blcOmega) (.app (.lam blcI) blcOmega) :=
    ⟨[false], ⟨_, _, rfl⟩, by decide⟩
  have hsecond : BetaStep (.app (.lam blcI) blcOmega) blcI := ⟨[], ⟨_, _, rfl⟩, by decide⟩
  refine (step_normal_order (V := ℕ)).2.2.2 _ _ (by decide)
    (.tail (.single hfirst) hsecond) fun p hp => ?_
  obtain ⟨q, -, hq⟩ := Term.redexAt_lam.1 hp
  exact Term.redexAt_var hq

end Blc
