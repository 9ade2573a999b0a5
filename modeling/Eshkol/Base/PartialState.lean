import Mathlib.Data.Nat.Basic
import Mathlib.Data.Option.Basic
import Mathlib.Data.List.Forall2

/-!
# Runs of a partial step function

A machine whose step may be undefined is a function `σ → Option σ`. `runN` iterates it. Two rules
are used on such machines: an invariant that every good step preserves holds along a good run, and
two machines that stay related over every good step stay related along a good run.
-/

namespace PartialRun

variable {σ τ : Type*}

/-- `n` steps from `s`. -/
def runN (step : σ → Option σ) : ℕ → σ → Option σ
  | 0, s => some s
  | n + 1, s => (runN step n s).bind step

lemma runN_succ (step : σ → Option σ) (n : ℕ) (s : σ) :
    runN step (n + 1) s = (runN step n s).bind step := rfl

/-- A run of `n + 1` steps passes through the state after `n` steps. -/
theorem exists_of_runN_succ {step : σ → Option σ} {n : ℕ} {s u : σ}
    (h : runN step (n + 1) s = some u) : ∃ t, runN step n s = some t ∧ step t = some u :=
  Option.bind_eq_some_iff.1 h

lemma runN_add (step : σ → Option σ) (m n : ℕ) (s : σ) :
    runN step (m + n) s = (runN step m s).bind (runN step n) := by
  induction n with
  | zero => simp [show runN step 0 = some from rfl]
  | succ n ih =>
    rw [Nat.add_succ, runN_succ, ih]
    cases runN step m s with
    | none => rfl
    | some t => rfl

/-- What every step of the run preserves holds in every state it reaches. -/
theorem invariant {step : σ → Option σ} {P : σ → Prop} {s : σ} (h₀ : P s) {n : ℕ}
    (hstep : ∀ k < n, ∀ t u, runN step k s = some t → P t → step t = some u → P u) {u : σ}
    (hrun : runN step n s = some u) : P u := by
  induction n generalizing u with
  | zero =>
    cases hrun
    exact h₀
  | succ n ih =>
    obtain ⟨t, ht, htu⟩ := exists_of_runN_succ hrun
    exact hstep n (Nat.lt_succ_self n) t u ht
      (ih (fun k hk => hstep k (Nat.lt_succ_of_lt hk)) ht) htu

/-- `R` holds between two results that are both undefined, or both defined and related. -/
def Lifted (R : σ → τ → Prop) (a : Option σ) (b : Option τ) : Prop :=
  match a, b with
  | none, none => True
  | some s, some t => R s t
  | _, _ => False

lemma Lifted.of_some {R : σ → τ → Prop} {a : Option σ} {b : Option τ} (h : Lifted R a b) {s : σ}
    (hs : a = some s) : ∃ t, b = some t ∧ R s t := by
  subst hs
  cases b with
  | none => exact h.elim
  | some t => exact ⟨t, rfl, h⟩

lemma Lifted.of_none {R : σ → τ → Prop} {a : Option σ} {b : Option τ} (h : Lifted R a b)
    (ha : a = none) : b = none := by
  subst ha
  cases b with
  | none => rfl
  | some t => exact h.elim

lemma Lifted.bind {ρ υ : Type*} {R : σ → τ → Prop} {S : ρ → υ → Prop} {a : Option σ}
    {b : Option τ} {f : σ → Option ρ} {g : τ → Option υ} (h : Lifted R a b)
    (hf : ∀ s t, a = some s → R s t → Lifted S (f s) (g t)) : Lifted S (a.bind f) (b.bind g) := by
  cases a with
  | none =>
    rw [h.of_none rfl]
    trivial
  | some s =>
    obtain ⟨t, rfl, hrel⟩ := h.of_some rfl
    exact hf s t rfl hrel

/-- Two machines that move in step: if every step the first takes from a state of the run is
matched by the second, the runs stay related. -/
theorem lockstep {f : σ → Option σ} {g : τ → Option τ} {R : σ → τ → Prop} {s : σ} {t : τ}
    (h₀ : R s t) {n : ℕ}
    (hstep : ∀ k < n, ∀ a b, runN f k s = some a → runN g k t = some b → R a b →
      Lifted R (f a) (g b)) : Lifted R (runN f n s) (runN g n t) := by
  induction n with
  | zero => exact h₀
  | succ n ih =>
    have hn := ih fun k hk => hstep k (Nat.lt_succ_of_lt hk)
    rw [runN_succ, runN_succ]
    cases ha : runN f n s with
    | none =>
      rw [hn.of_none ha]
      trivial
    | some a =>
      obtain ⟨b, hb, hab⟩ := hn.of_some ha
      rw [hb]
      exact hstep n (Nat.lt_succ_self n) a b ha hb hab

end PartialRun

/-!
## Partial state-passing programs

`StateT σ Option` is a program over a state that may be undefined. Facts about such programs are
proved along `>>=`, on one run or on two related runs.
-/

namespace PartialState

open PartialRun

variable {σ α β : Type}

lemma bind_apply (m : StateT σ Option α) (f : α → StateT σ Option β) (s : σ) :
    (m >>= f) s = (m s).bind fun p => f p.1 p.2 := rfl

lemma get_bind_apply (f : σ → StateT σ Option β) (s : σ) : (get >>= f) s = f s s := rfl

lemma modify_bind_apply (g : σ → σ) (f : PUnit → StateT σ Option β) (s : σ) :
    ((modify g : StateT σ Option PUnit) >>= f) s = f () (g s) := rfl

/-- Two continuations that agree on what the first half can produce. -/
theorem bind_congr {m : StateT σ Option α} {f g : α → StateT σ Option β} {s : σ}
    (h : ∀ a t, m s = some (a, t) → f a t = g a t) : (m >>= f) s = (m >>= g) s := by
  rw [bind_apply, bind_apply]
  cases hm : m s with
  | none => rfl
  | some p => exact h p.1 p.2 hm

/-- A defined run of a sequence passes through a defined run of its first half. -/
theorem bind_eq_some {m : StateT σ Option α} {f : α → StateT σ Option β} {s u : σ} {b : β}
    (h : (m >>= f) s = some (b, u)) : ∃ a t, m s = some (a, t) ∧ f a t = some (b, u) := by
  rw [bind_apply] at h
  obtain ⟨p, hp, hf⟩ := Option.bind_eq_some_iff.1 h
  exact ⟨p.1, p.2, hp, hf⟩

/-! ## Programs that move the state along a preorder -/

/-- Every run of `m` moves the state along `R`. -/
class Moves (R : σ → σ → Prop) (m : StateT σ Option α) : Prop where
  moves : ∀ {s a t}, m s = some (a, t) → R s t

section moves
variable {R : σ → σ → Prop} [IsPreorder σ R]

instance Moves.pure (a : α) : Moves R (pure a : StateT σ Option α) where
  moves h := by
    cases h
    exact refl_of R _

instance Moves.get : Moves R (get : StateT σ Option σ) where
  moves h := by
    cases h
    exact refl_of R _

instance Moves.bind {m : StateT σ Option α} {f : α → StateT σ Option β} [Moves R m]
    [∀ a, Moves R (f a)] : Moves R (m >>= f) where
  moves h := by
    obtain ⟨a, t, hm, hf⟩ := bind_eq_some h
    exact trans_of R (Moves.moves hm) (Moves.moves hf)

omit [IsPreorder σ R] in
lemma Moves.modify {g : σ → σ} (h : ∀ s, R s (g s)) :
    Moves R (modify g : StateT σ Option PUnit) where
  moves hm := by
    cases hm
    exact h _

omit [IsPreorder σ R] in
instance Moves.ite {c : Prop} [Decidable c] {m n : StateT σ Option α} [Moves R m] [Moves R n] :
    Moves R (if c then m else n) := by
  split
  · infer_instance
  · infer_instance

lemma Moves.seq {m : StateT σ Option α} {f : α → StateT σ Option β} [Moves R m]
    (hf : ∀ a, Moves R (f a)) : Moves R (m >>= f) := inferInstance

lemma Moves.modify_seq {g : σ → σ} {f : PUnit → StateT σ Option β} (h : ∀ s, R s (g s))
    (hf : ∀ u, Moves R (f u)) : Moves R ((MonadState.modifyGet fun s => (⟨⟩, g s)) >>= f) :=
  have : Moves R (MonadState.modifyGet fun s => (⟨⟩, g s) : StateT σ Option PUnit) := Moves.modify h
  inferInstance

omit [IsPreorder σ R] in
lemma Moves.branch {c : Prop} [Decidable c] {m n : StateT σ Option α} (hm : Moves R m)
    (hn : Moves R n) : Moves R (if c then m else n) := inferInstance

end moves

/-! ## Programs that finish -/

/-- From `s` the program finishes, above `s` in the order `R`, with `Q` true of its result. -/
def Reaches (R : σ → σ → Prop) (s : σ) (m : StateT σ Option α) (Q : α → σ → Prop) : Prop :=
  ∃ a t, m s = some (a, t) ∧ R s t ∧ Q a t

section reaches
variable {R : σ → σ → Prop} {s : σ}

lemma Reaches.mono {m : StateT σ Option α} {Q Q' : α → σ → Prop} (h : Reaches R s m Q)
    (hQ : ∀ a t, R s t → Q a t → Q' a t) : Reaches R s m Q' := by
  obtain ⟨a, t, hm, hst, hq⟩ := h
  exact ⟨a, t, hm, hst, hQ a t hst hq⟩

/-- A first half that only looks at the state. -/
theorem Reaches.look {m : StateT σ Option α} {f : α → StateT σ Option β} {Q : β → σ → Prop} {a : α}
    (hm : m s = some (a, s)) (hf : Reaches R s (f a) Q) : Reaches R s (m >>= f) Q := by
  obtain ⟨b, t, hft, hst, hq⟩ := hf
  refine ⟨b, t, ?_, hst, hq⟩
  rw [bind_apply, hm]
  exact hft

variable [IsPreorder σ R]

lemma Reaches.pure {a : α} {Q : α → σ → Prop} (h : Q a s) :
    Reaches R s (pure a : StateT σ Option α) Q :=
  ⟨a, s, rfl, refl_of R s, h⟩

lemma Reaches.bind {m : StateT σ Option α} {f : α → StateT σ Option β} {Q : α → σ → Prop}
    {Q' : β → σ → Prop} (h : Reaches R s m Q)
    (hf : ∀ a t, R s t → Q a t → Reaches R t (f a) Q') : Reaches R s (m >>= f) Q' := by
  obtain ⟨a, t, hm, hst, hq⟩ := h
  obtain ⟨b, u, hfu, htu, hq'⟩ := hf a t hst hq
  refine ⟨b, u, ?_, trans_of R hst htu, hq'⟩
  rw [bind_apply, hm]
  exact hfu

/-- A loop over a list keeps `I`, and what it learns of each element stays true to its end. -/
theorem Reaches.mapM {f : α → StateT σ Option β} {I : σ → Prop} {P : α → β → σ → Prop}
    (hP : ∀ x y t u, R t u → P x y t → P x y u) {xs : List α} (hI : I s)
    (hf : ∀ x ∈ xs, ∀ t, R s t → I t → Reaches R t (f x) fun y u => I u ∧ P x y u) :
    Reaches R s (xs.mapM f) fun ys u => I u ∧ List.Forall₂ (P · · u) xs ys := by
  induction xs generalizing s with
  | nil =>
    rw [List.mapM_nil]
    exact Reaches.pure ⟨hI, .nil⟩
  | cons x xs ih =>
    rw [List.mapM_cons]
    apply Reaches.bind (hf x List.mem_cons_self s (refl_of R s) hI)
    rintro y t hst ⟨hIt, hxy⟩
    have hrest := ih hIt fun z hz u htu => hf z (List.mem_cons_of_mem x hz) u (trans_of R hst htu)
    apply Reaches.bind hrest
    rintro ys u htu ⟨hIu, hall⟩
    exact Reaches.pure ⟨hIu, .cons (hP x y t u htu hxy) hall⟩

end reaches

end PartialState
