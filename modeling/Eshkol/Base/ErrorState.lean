import Mathlib.Logic.Basic

/-!
# Programs with a state and an error exit

A C routine that fills a caller-owned structure and bails out with an error code is an
`EStateM` program: it threads a state, and an error keeps the state as it was at the exit.
This file has the two ways in which such programs are reasoned about:

* `Runs`, the forward direction: the program ends normally, in a known state;
* `Spec`, the backward direction: a precondition, a postcondition for the normal exit and
  one for the error exit, composed along `>>=`.
-/

namespace ErrorState

variable {ε σ α β : Type}

/-! ## Forward runs -/

/-- `m` started in `s` ends normally with `a`, in `s'`. -/
def Runs (m : EStateM ε σ α) (s : σ) (a : α) (s' : σ) : Prop :=
  m s = .ok a s'

/-- After a normal end of its first half, a program goes on with the second. -/
theorem Runs.bind_eq {m : EStateM ε σ α} {s s' : σ} {a : α} (hm : Runs m s a s')
    (f : α → EStateM ε σ β) : (m >>= f) s = f a s' := by
  show EStateM.bind m f s = f a s'
  unfold EStateM.bind
  rw [show m s = .ok a s' from hm]

lemma Runs.bind {m : EStateM ε σ α} {f : α → EStateM ε σ β} {s t u : σ} {a : α} {b : β}
    (hm : Runs m s a t) (hf : Runs (f a) t b u) : Runs (m >>= f) s b u :=
  (hm.bind_eq f).trans hf

lemma Runs.get (s : σ) : Runs (get : EStateM ε σ σ) s s s := rfl

/-- A program that ends normally ended normally at its first half. -/
theorem Runs.of_bind {m : EStateM ε σ α} {f : α → EStateM ε σ β} {s s'' : σ} {b : β}
    (h : Runs (m >>= f) s b s'') : ∃ a s', Runs m s a s' ∧ Runs (f a) s' b s'' := by
  have h' : EStateM.bind m f s = .ok b s'' := h
  unfold EStateM.bind at h'
  cases hm : m s with
  | ok a s' => exact ⟨a, s', hm, by rwa [hm] at h'⟩
  | error e s' => rw [hm] at h'; cases h'

lemma Runs.of_pure {a b : α} {s s' : σ} (h : Runs (Pure.pure a : EStateM ε σ α) s b s') :
    b = a ∧ s' = s := by
  cases h
  exact ⟨rfl, rfl⟩

/-- A run's result and final state are determined by its start. -/
theorem Runs.unique {m : EStateM ε σ α} {s s₁ s₂ : σ} {a b : α} (h₁ : Runs m s a s₁)
    (h₂ : Runs m s b s₂) : a = b ∧ s₁ = s₂ := by
  have h : (EStateM.Result.ok a s₁ : EStateM.Result ε σ α) = .ok b s₂ := h₁.symm.trans h₂
  cases h
  exact ⟨rfl, rfl⟩

/-! ## Specifications -/

/-- From a state in `P`, `m` either ends normally in `Q` or leaves through an error in `E`. -/
def Spec (P : σ → Prop) (m : EStateM ε σ α) (Q : α → σ → Prop) (E : ε → σ → Prop) : Prop :=
  ∀ s, P s → match m s with
    | .ok a s' => Q a s'
    | .error e s' => E e s'

section rules
variable {P P' : σ → Prop} {Q Q' : α → σ → Prop} {R : β → σ → Prop} {E : ε → σ → Prop}

lemma Spec.pure {a : α} (h : ∀ s, P s → Q a s) : Spec P (pure a : EStateM ε σ α) Q E :=
  fun s hs => h s hs

lemma Spec.throw {e : ε} (h : ∀ s, P s → E e s) :
    Spec P (throw e : EStateM ε σ α) Q E :=
  fun s hs => h s hs

lemma Spec.bind {m : EStateM ε σ α} {f : α → EStateM ε σ β} (hm : Spec P m Q E)
    (hf : ∀ a, Spec (Q a) (f a) R E) : Spec P (m >>= f) R E := by
  intro s hs
  show match EStateM.bind m f s with
    | .ok a s' => R a s'
    | .error e s' => E e s'
  unfold EStateM.bind
  have hms := hm s hs
  cases h : m s with
  | ok a s' =>
    rw [h] at hms
    exact hf a s' hms
  | error e s' =>
    rw [h] at hms
    exact hms

lemma Spec.weaken {m : EStateM ε σ α} (hm : Spec P m Q E) (hP : ∀ s, P' s → P s)
    (hQ : ∀ a s, Q a s → Q' a s) : Spec P' m Q' E := by
  intro s hs
  have h := hm s (hP s hs)
  cases hr : m s with
  | ok a s' =>
    rw [hr] at h
    exact hQ a s' h
  | error e s' =>
    rw [hr] at h
    exact h

lemma Spec.modify {g : σ → σ} {Q : σ → Prop} (h : ∀ s, P s → Q (g s)) :
    Spec P (modify g : EStateM ε σ PUnit) (fun _ => Q) E :=
  fun s hs => h s hs

lemma Spec.ite {c : Prop} [Decidable c] {m n : EStateM ε σ α}
    (ht : c → Spec P m Q E) (he : ¬c → Spec P n Q E) : Spec P (if c then m else n) Q E := by
  by_cases h : c
  · rw [if_pos h]; exact ht h
  · rw [if_neg h]; exact he h

end rules

end ErrorState
