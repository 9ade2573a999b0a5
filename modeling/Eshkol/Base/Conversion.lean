import Eshkol.Base.Lambda

/-!
# Conversion of lambda terms

Terms up to beta conversion form an applicative structure, in which contracting a redex is an
equation. An abstraction under a substitution, applied to an argument, is its body under the
substitution extended by the argument, so that a closed term is run without renaming anything.
Scott pairs and booleans are the terms a program of the calculus builds its data from.
-/

namespace Lambda

open Tm Relation

/-! ## Extended substitutions -/

namespace Tm

/-- The substitution that replaces the innermost index by `a` and the others by `σ`. -/
def scons (a : Tm) (σ : ℕ → Tm) : ℕ → Tm
  | 0 => a
  | n + 1 => σ n

@[simp]
lemma scons_zero (a : Tm) (σ : ℕ → Tm) : scons a σ 0 = a := rfl

@[simp]
lemma scons_succ (a : Tm) (σ : ℕ → Tm) (n : ℕ) : scons a σ (n + 1) = σ n := rfl

/-- Instantiating the body of an abstraction under `σ` extends `σ`. -/
theorem subst_up_inst (b a : Tm) (σ : ℕ → Tm) : (b.subst (up σ)).inst a = b.subst (scons a σ) := by
  rw [inst, subst_subst]
  congr 1
  funext n
  cases n with
  | zero => rfl
  | succ n =>
    rw [up, subst_rename]
    exact subst_var (σ n)

/-! ## Closed terms -/

/-- No substitution changes the term. -/
def Closed (t : Tm) : Prop := ∀ σ, t.subst σ = t

lemma Closed.subst_eq {t : Tm} (h : t.Closed) (σ : ℕ → Tm) : t.subst σ = t := h σ

lemma Closed.rename {t : Tm} (h : t.Closed) (ρ : ℕ → ℕ) : t.rename ρ = t := by
  rw [rename_eq_subst]
  exact h _

/-- Every index that is free in the term is below `n`. -/
def FreeBelow (n : ℕ) : Tm → Prop
  | var i => i < n
  | lam b => b.FreeBelow (n + 1)
  | app f a => f.FreeBelow n ∧ a.FreeBelow n

end Tm

/-! ## Terms up to conversion -/

/-- A term up to beta conversion. -/
def Value : Type := Quot Beta

/-- The value of a term. -/
def val (t : Tm) : Value := Quot.mk Beta t

/-- Two terms have one value exactly when beta conversion leads from one to the other. -/
theorem val_eq_iff {t u : Tm} : val t = val u ↔ EqvGen Beta t u := Quot.eq

lemma val_eq_of_beta {t u : Tm} (h : Beta t u) : val t = val u := Quot.sound h

/-- Application of values. -/
def Value.app : Value → Value → Value :=
  Quot.map₂ Tm.app (fun f _ _ h => .appArg f h) (fun _ _ a h => .appFun a h)

instance : CoeFun Value fun _ => Value → Value := ⟨Value.app⟩

/-- Abstraction over a value. -/
def Value.lam : Value → Value := Quot.map Tm.lam fun _ _ => Beta.lam

lemma val_app (f a : Tm) : val (.app f a) = val f (val a) := rfl

lemma val_lam (b : Tm) : val (.lam b) = (val b).lam := rfl

lemma Beta.rename {t u : Tm} (h : Beta t u) (ρ : ℕ → ℕ) : Beta (t.rename ρ) (u.rename ρ) := by
  induction h generalizing ρ with
  | redex b a =>
    have hup : up (fun n => var (ρ n)) = fun n => var (lift ρ n) := by
      funext n
      cases n <;> rfl
    rw [rename_eq_subst (b.inst a), inst_subst, hup, ← rename_eq_subst, ← rename_eq_subst]
    exact .redex _ _
  | lam _ ih => exact .lam (ih _)
  | appFun a _ ih => exact .appFun _ (ih ρ)
  | appArg f _ ih => exact .appArg _ (ih ρ)

/-- Renaming of a value. -/
def Value.rename (ρ : ℕ → ℕ) : Value → Value :=
  Quot.map (fun t => t.rename ρ) fun _ _ h => h.rename ρ

lemma val_rename (t : Tm) (ρ : ℕ → ℕ) : val (t.rename ρ) = (val t).rename ρ := rfl

/-- An abstraction under a substitution, applied to an argument. -/
theorem val_closure (b a : Tm) (σ : ℕ → Tm) :
    val ((Tm.lam b).subst σ) (val a) = val (b.subst (scons a σ)) := by
  rw [← val_app, subst, val_eq_of_beta (.redex _ _), subst_up_inst]

/-- An abstraction applied to an argument. -/
theorem val_redex (b a : Tm) : val (.lam b) (val a) = val (b.subst (scons a var)) := by
  have h := val_closure b a var
  rwa [subst_var] at h

/-- `b` under `n` abstractions. -/
def Tm.lams : ℕ → Tm → Tm
  | 0, b => b
  | n + 1, b => .lam (lams n b)

/-- Nested abstractions under a substitution, applied to as many arguments. -/
theorem val_lams (b : Tm) (args : List Tm) (σ : ℕ → Tm) :
    args.foldl (fun v a => v (val a)) (val ((lams args.length b).subst σ)) =
      val (b.subst (args.foldl (fun τ a => scons a τ) σ)) := by
  induction args generalizing σ with
  | nil => rfl
  | cons a args ih =>
    rw [List.length_cons, lams, List.foldl_cons, List.foldl_cons, val_closure]
    exact ih (scons a σ)

/-! ## Booleans and pairs -/

/-- The function that returns the first of two arguments. -/
def tru : Tm := .lam (.lam (.var 1))

/-- The function that returns the second of two arguments. -/
def fls : Tm := .lam (.lam (.var 0))

/-- The pair of two terms: the function that hands both to its argument. -/
def pair (h t : Tm) : Tm := .lam (.app (.app (.var 0) (h.rename Nat.succ)) (t.rename Nat.succ))

lemma closed_tru : tru.Closed := fun _ => rfl

lemma closed_fls : fls.Closed := fun _ => rfl

lemma val_tru (a b : Tm) : val tru (val a) (val b) = val a := by
  have h := val_lams (.var 1) [a, b] var
  rwa [subst_var] at h

lemma val_fls (a b : Tm) : val fls (val a) (val b) = val b := by
  have h := val_lams (.var 0) [a, b] var
  rwa [subst_var] at h

lemma val_pair (h t f : Tm) : val (pair h t) (val f) = val f (val h) (val t) := by
  have hcancel (u : Tm) : (u.rename Nat.succ).subst (scons f var) = u := by
    rw [subst_rename]
    exact subst_var u
  rw [pair, val_redex, subst, subst, hcancel, hcancel]
  rfl

/-- Entry `i` of a stream of nested pairs. -/
def Value.nth : Value → ℕ → Value
  | v, 0 => v (val tru)
  | v, i + 1 => (v (val fls)).nth i

lemma Value.rename_app (v w : Value) (ρ : ℕ → ℕ) :
    (v w).rename ρ = (v.rename ρ) (w.rename ρ) := by
  induction v using Quot.ind
  induction w using Quot.ind
  rfl

lemma Value.rename_nth (v : Value) (i : ℕ) (ρ : ℕ → ℕ) :
    (v.nth i).rename ρ = (v.rename ρ).nth i := by
  induction i generalizing v with
  | zero => exact rename_app v (val tru) ρ
  | succ i ih => rw [nth, nth, ih, rename_app, ← val_rename fls, closed_fls.rename]

lemma nth_pair_zero (h t : Tm) : (val (pair h t)).nth 0 = val h := by
  rw [Value.nth, val_pair, val_tru]

lemma nth_pair_succ (h t : Tm) (i : ℕ) : (val (pair h t)).nth (i + 1) = (val t).nth i := by
  rw [Value.nth, val_pair, val_fls]

lemma closed_pair {h t : Tm} (hh : h.Closed) (ht : t.Closed) : (pair h t).Closed := by
  intro σ
  rw [pair, hh.rename, ht.rename, subst, subst, subst, hh, ht]
  rfl

end Lambda
