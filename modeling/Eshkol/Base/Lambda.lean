import Mathlib.Data.Finset.Union
import Mathlib.Data.Fintype.EquivFin

/-!
# The untyped lambda calculus

Terms with zero-based De Bruijn indices, renaming and parallel substitution, beta reduction, and
the normalisation theorem: leftmost reduction finds every normal form that beta reduction
reaches. The theorem goes through standard reductions, which contract head redexes before they
enter the parts of a term.
-/

namespace Lambda

/-- A term. -/
inductive Tm where
  | var (n : ℕ)
  | lam (b : Tm)
  | app (f a : Tm)
  deriving DecidableEq

namespace Tm

/-! ## Renaming and substitution -/

/-- A renaming under a binder. -/
def lift (ρ : ℕ → ℕ) : ℕ → ℕ
  | 0 => 0
  | n + 1 => ρ n + 1

/-- The term with its free indices renamed. -/
@[grind =]
def rename : Tm → (ℕ → ℕ) → Tm
  | var n, ρ => var (ρ n)
  | lam b, ρ => lam (b.rename (lift ρ))
  | app f a, ρ => app (f.rename ρ) (a.rename ρ)

/-- A substitution under a binder. -/
@[grind =]
def up (σ : ℕ → Tm) : ℕ → Tm
  | 0 => var 0
  | n + 1 => (σ n).rename Nat.succ

/-- The term with its free indices replaced. -/
@[grind =]
def subst : Tm → (ℕ → Tm) → Tm
  | var n, σ => σ n
  | lam b, σ => lam (b.subst (up σ))
  | app f a, σ => app (f.subst σ) (a.subst σ)

/-- The substitution of the innermost index. -/
def single (a : Tm) : ℕ → Tm
  | 0 => a
  | n + 1 => var n

/-- The body `b` of an abstraction, instantiated with the argument `a`. -/
def inst (b a : Tm) : Tm := b.subst (single a)

variable {ρ ρ' : ℕ → ℕ} {σ τ : ℕ → Tm} {t : Tm}

lemma lift_comp (ρ ρ' : ℕ → ℕ) : lift ρ ∘ lift ρ' = lift (ρ ∘ ρ') := by
  funext n
  cases n <;> rfl

lemma up_comp_lift (σ : ℕ → Tm) (ρ : ℕ → ℕ) : up σ ∘ lift ρ = up (σ ∘ ρ) := by
  funext n
  cases n <;> rfl

@[simp]
lemma rename_rename (t : Tm) (ρ ρ' : ℕ → ℕ) : (t.rename ρ).rename ρ' = t.rename (ρ' ∘ ρ) := by
  induction t generalizing ρ ρ' with
  | var n => rfl
  | lam b ih => rw [rename, rename, rename, ih, lift_comp]
  | app f a ihf iha => rw [rename, rename, rename, ihf, iha]

lemma subst_rename (t : Tm) (ρ : ℕ → ℕ) (σ : ℕ → Tm) :
    (t.rename ρ).subst σ = t.subst (σ ∘ ρ) := by
  induction t generalizing ρ σ with
  | var n => rfl
  | lam b ih => rw [rename, subst, subst, ih, up_comp_lift]
  | app f a ihf iha => rw [rename, subst, subst, ihf, iha]

lemma rename_subst (t : Tm) (σ : ℕ → Tm) (ρ : ℕ → ℕ) :
    (t.subst σ).rename ρ = t.subst fun n => (σ n).rename ρ := by
  induction t generalizing σ ρ with
  | var n => rfl
  | lam b ih =>
    rw [subst, rename, subst, ih]
    congr 2
    funext n
    cases n with
    | zero => rfl
    | succ n =>
      simp only [up, rename_rename]
      rfl
  | app f a ihf iha => rw [subst, rename, subst, ihf, iha]

lemma subst_subst (t : Tm) (σ τ : ℕ → Tm) :
    (t.subst σ).subst τ = t.subst fun n => (σ n).subst τ := by
  induction t generalizing σ τ with
  | var n => rfl
  | lam b ih =>
    rw [subst, subst, subst, ih]
    congr 2
    funext n
    cases n with
    | zero => rfl
    | succ n =>
      simp only [up, subst_rename, rename_subst]
      rfl
  | app f a ihf iha => rw [subst, subst, subst, ihf, iha]

lemma up_var : up var = var := by
  funext n
  cases n <;> rfl

@[simp]
lemma subst_var (t : Tm) : t.subst var = t := by
  induction t with
  | var n => rfl
  | lam b ih => rw [subst, up_var, ih]
  | app f a ihf iha => rw [subst, ihf, iha]

/-- Renaming is substituting variables. -/
theorem rename_eq_subst (t : Tm) (ρ : ℕ → ℕ) : t.rename ρ = t.subst fun n => var (ρ n) := by
  have h := rename_subst t var ρ
  rw [subst_var] at h
  exact h

/-- Instantiating commutes with substituting. -/
theorem inst_subst (b a : Tm) (σ : ℕ → Tm) :
    (b.inst a).subst σ = (b.subst (up σ)).inst (a.subst σ) := by
  rw [inst, inst, subst_subst, subst_subst]
  congr 1
  funext n
  cases n with
  | zero => rfl
  | succ n =>
    rw [up, subst_rename]
    exact (subst_var (σ n)).symm

end Tm

open Tm Relation

/-! ## Reduction -/

/-- One beta step anywhere in a term. -/
inductive Beta : Tm → Tm → Prop where
  | redex (b a : Tm) : Beta (.app (.lam b) a) (b.inst a)
  | lam {b b' : Tm} : Beta b b' → Beta (.lam b) (.lam b')
  | appFun {f f' : Tm} (a : Tm) : Beta f f' → Beta (.app f a) (.app f' a)
  | appArg (f : Tm) {a a' : Tm} : Beta a a' → Beta (.app f a) (.app f a')

/-- No beta step is possible. -/
def Normal (t : Tm) : Prop := ∀ u, ¬ Beta t u

/-- The step that contracts the redex which starts first in the term. -/
inductive Leftmost : Tm → Tm → Prop where
  | redex (b a : Tm) : Leftmost (.app (.lam b) a) (b.inst a)
  | lam {b b' : Tm} : Leftmost b b' → Leftmost (.lam b) (.lam b')
  | appFun {f f' : Tm} (a : Tm) : (∀ b, f ≠ .lam b) → Leftmost f f' →
    Leftmost (.app f a) (.app f' a)
  | appArg {f a a' : Tm} : (∀ b, f ≠ .lam b) → Normal f → Leftmost a a' →
    Leftmost (.app f a) (.app f a')

/-- The step at the head of a spine of applications. -/
inductive Head : Tm → Tm → Prop where
  | redex (b a : Tm) : Head (.app (.lam b) a) (b.inst a)
  | app {f f' : Tm} (a : Tm) : Head f f' → Head (.app f a) (.app f' a)

/-- A reduction that contracts head redexes before it enters the parts of the term. -/
inductive Standard : Tm → Tm → Prop where
  | var {t : Tm} {n : ℕ} : ReflTransGen Head t (.var n) → Standard t (.var n)
  | lam {t b b' : Tm} : ReflTransGen Head t (.lam b) → Standard b b' → Standard t (.lam b')
  | app {t f f' a a' : Tm} : ReflTransGen Head t (.app f a) → Standard f f' → Standard a a' →
    Standard t (.app f' a')

section Standardization

variable {t u v f f' a a' b b' : Tm} {σ τ : ℕ → Tm}

lemma Head.ne_lam (h : Head t u) : ∀ b, t ≠ .lam b := by
  rintro b rfl
  cases h

lemma Head.subst (h : Head t u) (σ : ℕ → Tm) : Head (t.subst σ) (u.subst σ) := by
  induction h with
  | redex b a =>
    rw [inst_subst]
    exact .redex _ _
  | app a _ ih => exact .app _ ih

lemma headSteps_app (a : Tm) (h : ReflTransGen Head f f') :
    ReflTransGen Head (.app f a) (.app f' a) :=
  ReflTransGen.lift (fun f => Tm.app f a) (fun _ _ hstep => Head.app a hstep) f f' h

lemma headSteps_subst (h : ReflTransGen Head t u) (σ : ℕ → Tm) :
    ReflTransGen Head (t.subst σ) (u.subst σ) :=
  ReflTransGen.lift (fun t => t.subst σ) (fun _ _ hstep => hstep.subst σ) t u h

lemma Standard.refl (t : Tm) : Standard t t := by
  induction t with
  | var n => exact .var .refl
  | lam b ih => exact .lam .refl ih
  | app f a ihf iha => exact .app .refl ihf iha

/-- Head steps may be put in front of a standard reduction. -/
theorem Standard.head (h : ReflTransGen Head t u) (hu : Standard u v) : Standard t v := by
  cases hu with
  | var hv => exact .var (h.trans hv)
  | lam hb hs => exact .lam (h.trans hb) hs
  | app hfa hf ha => exact .app (h.trans hfa) hf ha

lemma Standard.rename (h : Standard t u) (ρ : ℕ → ℕ) :
    Standard (t.rename ρ) (u.rename ρ) := by
  have hhead : ∀ {t u : Tm} (ρ : ℕ → ℕ), ReflTransGen Head t u →
      ReflTransGen Head (t.rename ρ) (u.rename ρ) := by
    intro t u ρ h
    rw [rename_eq_subst, rename_eq_subst]
    exact headSteps_subst h _
  induction h generalizing ρ with
  | var h => exact .var (hhead ρ h)
  | lam h _ ih => exact .lam (hhead ρ h) (ih _)
  | app h _ _ ihf iha => exact .app (hhead ρ h) (ihf _) (iha _)

lemma standard_up (h : ∀ n, Standard (σ n) (τ n)) (n : ℕ) : Standard (up σ n) (up τ n) := by
  cases n with
  | zero => exact .refl _
  | succ n => exact (h n).rename _

/-- Standard reductions are kept by substituting on both sides. -/
theorem Standard.subst (h : Standard t u) (hσ : ∀ n, Standard (σ n) (τ n)) :
    Standard (t.subst σ) (u.subst τ) := by
  induction h generalizing σ τ with
  | var h => exact .head (headSteps_subst h σ) (hσ _)
  | lam h _ ih => exact .lam (headSteps_subst h σ) (ih (standard_up hσ))
  | app h _ _ ihf iha => exact .app (headSteps_subst h σ) (ihf hσ) (iha hσ)

lemma Standard.inst (hb : Standard b b') (ha : Standard a a') :
    Standard (b.inst a) (b'.inst a') := by
  refine hb.subst fun n => ?_
  cases n with
  | zero => exact ha
  | succ n => exact .refl _

/-- A redex at the end of a standard reduction may be contracted: its abstraction came to the
head by head steps, so that contracting the redex is one head step more. -/
theorem Standard.redex (h : Standard t (.app (.lam b) a)) : Standard t (b.inst a) := by
  cases h with
  | app hfa hf ha =>
    cases hf with
    | lam hlam hb =>
      have hspine := hfa.trans (headSteps_app _ hlam)
      exact .head (hspine.tail (.redex _ _)) (hb.inst ha)

/-- A beta step may be put behind a standard reduction. -/
theorem Standard.beta (h : Standard t u) (hstep : Beta u v) : Standard t v := by
  induction hstep generalizing t with
  | redex b a => exact h.redex
  | lam _ ih =>
    cases h with
    | lam hlam hb => exact .lam hlam (ih hb)
  | appFun a _ ih =>
    cases h with
    | app hfa hf ha => exact .app hfa (ih hf) ha
  | appArg f _ ih =>
    cases h with
    | app hfa hf ha => exact .app hfa hf (ih ha)

/-- Every beta reduction can be made standard. -/
theorem standardization (h : ReflTransGen Beta t u) : Standard t u := by
  induction h with
  | refl => exact .refl t
  | tail _ hstep ih => exact ih.beta hstep

end Standardization

/-! ## Leftmost reduction -/

section Leftmost

variable {t u f f' a a' b b' : Tm}

lemma Head.leftmost (h : Head t u) : Leftmost t u := by
  induction h with
  | redex b a => exact .redex b a
  | app a h ih => exact .appFun a h.ne_lam ih

lemma normal_lam : Normal (.lam b) ↔ Normal b := by
  refine ⟨fun h u hu => h _ (.lam hu), fun h u hu => ?_⟩
  cases hu with
  | lam hb => exact h _ hb

lemma Normal.appFun (h : Normal (.app f a)) : Normal f := fun _ hu => h _ (.appFun a hu)

lemma Normal.appArg (h : Normal (.app f a)) : Normal a := fun _ hu => h _ (.appArg f hu)

lemma Normal.fun_ne_lam (h : Normal (.app f a)) : ∀ b, f ≠ .lam b := by
  rintro b rfl
  exact h _ (.redex b a)

/-- Leftmost reduction leaves an abstraction an abstraction. -/
theorem leftmostSteps_of_lam (h : ReflTransGen Leftmost (.lam b) u) : ∃ b', u = .lam b' := by
  induction h with
  | refl => exact ⟨b, rfl⟩
  | tail _ hstep ih =>
    obtain ⟨b', rfl⟩ := ih
    cases hstep with
    | lam _ => exact ⟨_, rfl⟩

lemma leftmostSteps_lam (h : ReflTransGen Leftmost b b') :
    ReflTransGen Leftmost (.lam b) (.lam b') :=
  ReflTransGen.lift Tm.lam (fun _ _ => Leftmost.lam) b b' h

/-- Leftmost reduction of a function that does not end in an abstraction never passes one. -/
theorem leftmostSteps_appFun (a : Tm) (h : ReflTransGen Leftmost f f')
    (hf : ∀ b, f' ≠ .lam b) : ReflTransGen Leftmost (.app f a) (.app f' a) := by
  induction h using ReflTransGen.head_induction_on with
  | refl => exact .refl
  | @head f g hstep hrest ih =>
    have hlam : ∀ b, f ≠ .lam b := by
      rintro b rfl
      obtain ⟨b', hb'⟩ := leftmostSteps_of_lam (ReflTransGen.head hstep hrest)
      exact hf b' hb'
    exact .head (.appFun a hlam hstep) ih

lemma leftmostSteps_appArg (hf : ∀ b, f ≠ .lam b) (hnormal : Normal f)
    (h : ReflTransGen Leftmost a a') : ReflTransGen Leftmost (.app f a) (.app f a') :=
  ReflTransGen.lift (Tm.app f) (fun _ _ => Leftmost.appArg hf hnormal) a a' h

/-- A standard reduction to a normal form can be made leftmost. -/
theorem Standard.leftmostSteps (h : Standard t u) (hu : Normal u) :
    ReflTransGen Leftmost t u := by
  have hhead : ∀ {t u : Tm}, ReflTransGen Head t u → ReflTransGen Leftmost t u :=
    fun h => ReflTransGen.mono (fun _ _ => Head.leftmost) _ _ h
  induction h with
  | var h => exact hhead h
  | lam h _ ih => exact (hhead h).trans (leftmostSteps_lam (ih (normal_lam.1 hu)))
  | @app t f f' a a' h _ _ ihf iha =>
    have hfun := leftmostSteps_appFun a (ihf hu.appFun) hu.fun_ne_lam
    have harg := leftmostSteps_appArg hu.fun_ne_lam hu.appFun (iha hu.appArg)
    exact ((hhead h).trans hfun).trans harg

/-- Normalisation: leftmost reduction reaches every normal form that beta reduction reaches. -/
theorem leftmost_normalizes (h : ReflTransGen Beta t u) (hu : Normal u) :
    ReflTransGen Leftmost t u :=
  (standardization h).leftmostSteps hu

end Leftmost

end Lambda

/-!
## Lambda terms with names

Terms whose variables are names, their capture-avoiding substitution, and the relation between
a named term and the term with indices that it reads as.
-/

namespace Lambda

/-- A term with names for variables. -/
inductive Named (V : Type*) where
  | var (x : V)
  | lam (x : V) (b : Named V)
  | app (f a : Named V)

variable {V : Type*}

/-- The index of `x` in a context: the number of binders between `x` and the nearest one that
binds it. -/
inductive Index : List V → V → ℕ → Prop where
  | here {ctx : List V} {x : V} : Index (x :: ctx) x 0
  | there {ctx : List V} {x y : V} {n : ℕ} : x ≠ y → Index ctx x n → Index (y :: ctx) x (n + 1)

/-- The named term is a reading of the term with indices, under the names of a context. -/
inductive Reads : List V → Named V → Tm → Prop where
  | var {ctx : List V} {x : V} {n : ℕ} : Index ctx x n → Reads ctx (.var x) (.var n)
  | lam {ctx : List V} {x : V} {b : Named V} {b' : Tm} : Reads (x :: ctx) b b' →
    Reads ctx (.lam x b) (.lam b')
  | app {ctx : List V} {f a : Named V} {f' a' : Tm} : Reads ctx f f' → Reads ctx a a' →
    Reads ctx (.app f a) (.app f' a')

section Substitution

variable [DecidableEq V]

namespace Named

/-- The names that occur free. -/
def free : Named V → Finset V
  | var x => {x}
  | lam x b => b.free.erase x
  | app f a => f.free ∪ a.free

/-- Capture-avoiding substitution. At a binder, `choose` picks a name that is free in nothing
that is put under it; it may keep the binder's own name where that is safe. -/
def subst (choose : Finset V → V → V) : Named V → (V → Named V) → Named V
  | var x, s => s x
  | lam x b, s =>
    let y := choose ((b.free.erase x).biUnion fun w => (s w).free) x
    lam y (b.subst choose (Function.update s x (var y)))
  | app f a, s => app (f.subst choose s) (a.subst choose s)

/-- The term `b` with the argument `a` for the name `x`. -/
def inst (choose : Finset V → V → V) (x : V) (b a : Named V) : Named V :=
  b.subst choose (Function.update var x a)

end Named

variable {ctx ctx' : List V} {m b a : Named V} {t b' a' : Tm} {choose : Finset V → V → V}

/-- A reading stays one when the context changes and the indices with it. -/
theorem Reads.rename (h : Reads ctx m t) {ρ : ℕ → ℕ}
    (hρ : ∀ x ∈ m.free, ∀ n, Index ctx x n → Index ctx' x (ρ n)) :
    Reads ctx' m (t.rename ρ) := by
  induction h generalizing ctx' ρ with
  | @var ctx x n hx => exact .var (hρ x (Finset.mem_singleton_self x) n hx)
  | @lam ctx x b b' _ ih =>
    refine .lam (ih fun w hw n hn => ?_)
    cases hn with
    | here => exact .here
    | there hne hn => exact .there hne (hρ w (Finset.mem_erase.2 ⟨hne, hw⟩) _ hn)
  | app _ _ ihf iha =>
    exact .app (ihf fun x hx => hρ x (Finset.mem_union_left _ hx))
      (iha fun x hx => hρ x (Finset.mem_union_right _ hx))

/-- Substituting in a reading reads as substituting for the indices. -/
theorem Reads.subst (hchoose : ∀ avoid x, choose avoid x ∉ avoid) (h : Reads ctx m t)
    {s : V → Named V} {σ : ℕ → Tm}
    (hσ : ∀ x ∈ m.free, ∀ n, Index ctx x n → Reads ctx' (s x) (σ n)) :
    Reads ctx' (m.subst choose s) (t.subst σ) := by
  induction h generalizing ctx' s σ with
  | @var ctx x n hx => exact hσ x (Finset.mem_singleton_self x) n hx
  | @lam ctx x b b' _ ih =>
    set y := choose ((b.free.erase x).biUnion fun w => (s w).free) x with hy
    refine .lam (ih fun w hw n hn => ?_)
    cases hn with
    | here =>
      rw [Function.update_self]
      exact .var .here
    | there hne hn =>
      have hmem : w ∈ b.free.erase x := Finset.mem_erase.2 ⟨hne, hw⟩
      rw [Function.update_of_ne hne]
      -- the new binder is free in no substituted term, so it only shifts their indices
      refine (hσ w hmem _ hn).rename fun z hz k hk => .there ?_ hk
      rintro rfl
      exact hchoose _ x (Finset.mem_biUnion.2 ⟨w, hmem, hy ▸ hz⟩)
  | app _ _ ihf iha =>
    exact .app (ihf fun x hx => hσ x (Finset.mem_union_left _ hx))
      (iha fun x hx => hσ x (Finset.mem_union_right _ hx))

/-- The capture-avoiding instance of a body reads as the instance of what the body reads as. -/
theorem Reads.inst (hchoose : ∀ avoid x, choose avoid x ∉ avoid) {x : V}
    (hb : Reads (x :: ctx) b b') (ha : Reads ctx a a') :
    Reads ctx (b.inst choose x a) (b'.inst a') := by
  refine hb.subst hchoose fun w _ n hn => ?_
  cases hn with
  | here =>
    rw [Function.update_self]
    exact ha
  | there hne hn =>
    rw [Function.update_of_ne hne]
    exact .var hn

end Substitution

/-! ## Every term has a reading -/

lemma exists_index {ctx : List V} (hctx : ctx.Nodup) {n : ℕ} (hn : n < ctx.length) :
    ∃ x, x ∈ ctx ∧ Index ctx x n := by
  induction ctx generalizing n with
  | nil => exact absurd hn (Nat.not_lt_zero n)
  | cons y ctx ih =>
    rw [List.nodup_cons] at hctx
    cases n with
    | zero => exact ⟨y, List.mem_cons_self, .here⟩
    | succ n =>
      obtain ⟨x, hx, hindex⟩ := ih hctx.2 (Nat.lt_of_succ_lt_succ hn)
      exact ⟨x, List.mem_cons_of_mem y hx, .there (fun h => hctx.1 (h ▸ hx)) hindex⟩

/-- One more than the largest free index, or zero. -/
def Tm.height : Tm → ℕ
  | .var n => n + 1
  | .lam b => b.height - 1
  | .app f a => max f.height a.height

/-- Over any long enough context of distinct names, a term has a reading. -/
theorem exists_reads [Infinite V] (t : Tm) {ctx : List V} (hctx : ctx.Nodup)
    (ht : t.height ≤ ctx.length) : ∃ m, Reads ctx m t := by
  induction t generalizing ctx with
  | var n =>
    obtain ⟨x, -, hx⟩ := exists_index hctx (Nat.lt_of_succ_le ht)
    exact ⟨.var x, .var hx⟩
  | lam b ih =>
    classical
    obtain ⟨x, hx⟩ := Infinite.exists_notMem_finset ctx.toFinset
    have hfresh : (x :: ctx).Nodup := List.nodup_cons.2 ⟨fun h => hx (List.mem_toFinset.2 h), hctx⟩
    have hb : b.height ≤ (x :: ctx).length := by
      rw [Tm.height] at ht
      rw [List.length_cons]
      omega
    obtain ⟨m, hm⟩ := ih hfresh hb
    exact ⟨.lam x m, .lam hm⟩
  | app f a ihf iha =>
    rw [Tm.height, max_le_iff] at ht
    obtain ⟨m, hm⟩ := ihf hctx ht.1
    obtain ⟨k, hk⟩ := iha hctx ht.2
    exact ⟨.app m k, .app hm hk⟩

end Lambda
