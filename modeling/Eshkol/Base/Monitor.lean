import Mathlib.Data.List.Basic
import Mathlib.Data.List.Induction

/-!
# Monitors

Threads that work on shared state under one mutex and wait on condition variables. An operation is a
loop of passes: each pass runs under the mutex, and at its end the thread either sleeps on a condition
variable, which releases the mutex, or releases it and returns. A thread that wakes up, for a signal or
for none, first has to take the mutex again.

The history lists the operations that returned. A property of the shared state and the history that every
returning pass preserves holds after any interleaving, and the history of a monitor that simulates a
sequential object is a run of that object.
-/

namespace Monitor

/-- What a pass does for the threads that sleep on a condition variable. -/
inductive Wake (χ : Type*) where
  | signal (condvar : χ)
  | broadcast (condvar : χ)

/-- The end of a pass: to sleep, or to return with the shared state changed. -/
inductive Pass (σ ρ χ : Type*) where
  | wait (condvar : χ)
  | done (state : σ) (result : ρ) (wakes : List (Wake χ))

/-- A monitor is given by the passes of its operations. There is none when the operation fails in the
middle, with the mutex taken. -/
abbrev Passes (σ ω ρ χ : Type*) := ω → σ → Option (Pass σ ρ χ)

/-- Where a thread stands. -/
inductive Status (ω χ : Type*) where
  | idle
  | locking (op : ω)
  | holding (op : ω)
  | waiting (op : ω) (condvar : χ)
  | failed (op : ω)

/-- The operation that a thread has called and that has not returned. -/
def Status.pending {ω χ : Type*} : Status ω χ → Option ω
  | .idle => none
  | .locking op => some op
  | .holding op => some op
  | .waiting op _ => some op
  | .failed op => some op

/-- An operation that returned. -/
structure Event (τ ω ρ : Type*) where
  thread : τ
  op : ω
  result : ρ

/-- The shared state, the owner of the mutex and the threads; the operations that were called and those
that returned. -/
structure Config (τ σ ω ρ χ : Type*) where
  shared : σ
  owner : Option τ
  threads : τ → Status ω χ
  calls : List (τ × ω)
  history : List (Event τ ω ρ)

variable {τ σ ω ρ χ : Type*} [DecidableEq τ]

/-- The threads after one wake-up: a signal reaches one of those that sleep, if there is one. -/
inductive WokenBy (threads : τ → Status ω χ) : Wake χ → (τ → Status ω χ) → Prop where
  | nobody {condvar : χ} : (∀ t op, threads t ≠ .waiting op condvar) →
    WokenBy threads (.signal condvar) threads
  | one {condvar : χ} {t : τ} {op : ω} : threads t = .waiting op condvar →
    WokenBy threads (.signal condvar) (Function.update threads t (.locking op))
  | all {condvar : χ} {threads' : τ → Status ω χ} :
    (∀ t, (∃ op, threads t = .waiting op condvar ∧ threads' t = .locking op) ∨
      (∀ op, threads t ≠ .waiting op condvar) ∧ threads' t = threads t) →
    WokenBy threads (.broadcast condvar) threads'

/-- The threads after the wake-ups of a pass. -/
inductive Woken : (τ → Status ω χ) → List (Wake χ) → (τ → Status ω χ) → Prop where
  | nil {threads : τ → Status ω χ} : Woken threads [] threads
  | cons {threads threads' threads'' : τ → Status ω χ} {wake : Wake χ} {wakes : List (Wake χ)} :
    WokenBy threads wake threads' → Woken threads' wakes threads'' → Woken threads (wake :: wakes) threads''

/-- One step of one thread. A sleeping thread may wake up at any time. -/
inductive Step (passes : Passes σ ω ρ χ) (c : Config τ σ ω ρ χ) : Config τ σ ω ρ χ → Prop where
  | call (t : τ) (op : ω) : c.threads t = .idle →
    Step passes c
      { c with threads := Function.update c.threads t (.locking op), calls := c.calls ++ [(t, op)] }
  | lock (t : τ) {op : ω} : c.threads t = .locking op → c.owner = none →
    Step passes c { c with owner := some t, threads := Function.update c.threads t (.holding op) }
  | wait (t : τ) {op : ω} {condvar : χ} : c.threads t = .holding op →
    passes op c.shared = some (.wait condvar) →
    Step passes c { c with owner := none, threads := Function.update c.threads t (.waiting op condvar) }
  | done (t : τ) {op : ω} {state : σ} {result : ρ} {wakes : List (Wake χ)} {threads : τ → Status ω χ} :
    c.threads t = .holding op → passes op c.shared = some (.done state result wakes) →
    Woken (Function.update c.threads t .idle) wakes threads →
    Step passes c ⟨state, none, threads, c.calls, c.history ++ [⟨t, op, result⟩]⟩
  | fail (t : τ) {op : ω} : c.threads t = .holding op → passes op c.shared = none →
    Step passes c { c with threads := Function.update c.threads t (.failed op) }
  | wake (t : τ) {op : ω} {condvar : χ} : c.threads t = .waiting op condvar →
    Step passes c { c with threads := Function.update c.threads t (.locking op) }

/-- Nothing has been called. -/
def initial (state : σ) : Config τ σ ω ρ χ := ⟨state, none, fun _ => .idle, [], []⟩

/-- The configurations of any interleaving. -/
inductive Reachable (passes : Passes σ ω ρ χ) (state : σ) : Config τ σ ω ρ χ → Prop where
  | initial : Reachable passes state (initial state)
  | step {c c' : Config τ σ ω ρ χ} : Reachable passes state c → Step passes c c' →
    Reachable passes state c'

variable {passes : Passes σ ω ρ χ} {c c' : Config τ σ ω ρ χ} {s₀ : σ}

/-! ## Threads -/

/-- A wake-up sends threads from their sleep to the mutex and leaves the others alone. -/
theorem WokenBy.apply {threads threads' : τ → Status ω χ} {wake : Wake χ} (h : WokenBy threads wake threads')
    (t : τ) : threads' t = threads t ∨ ∃ op condvar, threads t = .waiting op condvar ∧ threads' t = .locking op := by
  cases h with
  | nobody => exact .inl rfl
  | @one condvar u op hwaiting =>
    by_cases ht : t = u
    · subst ht
      exact .inr ⟨op, condvar, hwaiting, Function.update_self ..⟩
    · exact .inl (Function.update_of_ne ht ..)
  | @all condvar _ hall =>
    rcases hall t with ⟨op, hwaiting, hlocking⟩ | ⟨-, hsame⟩
    · exact .inr ⟨op, condvar, hwaiting, hlocking⟩
    · exact .inl hsame

lemma Woken.apply {threads threads' : τ → Status ω χ} {wakes : List (Wake χ)}
    (h : Woken threads wakes threads') (t : τ) :
    threads' t = threads t ∨ ∃ op condvar, threads t = .waiting op condvar ∧ threads' t = .locking op := by
  induction h with
  | nil => exact .inl rfl
  | cons hwake _ ih =>
    rcases hwake.apply t with hsame | ⟨op, condvar, hwaiting, hlocking⟩
    · rwa [hsame] at ih
    · rcases ih with hsame | ⟨op', condvar', hwaiting', -⟩
      · exact .inr ⟨op, condvar, hwaiting, hsame.trans hlocking⟩
      · rw [hlocking] at hwaiting'
        cases hwaiting'

lemma Woken.pending {threads threads' : τ → Status ω χ} {wakes : List (Wake χ)}
    (h : Woken threads wakes threads') (t : τ) : (threads' t).pending = (threads t).pending := by
  rcases h.apply t with hsame | ⟨op, condvar, hwaiting, hlocking⟩
  · rw [hsame]
  · rw [hwaiting, hlocking]
    rfl

/-- What a thread called returned, each call once and in order, but for the last one that is pending. -/
theorem calls_of_thread (h : Reachable passes s₀ c) (t : τ) :
    (c.calls.filter (·.1 = t)).map Prod.snd =
      (c.history.filter (·.thread = t)).map Event.op ++ (c.threads t).pending.toList := by
  induction h with
  | initial => rfl
  | @step c _ _ hstep ih =>
    have hsame : ∀ {u : τ} {status : Status ω χ}, status.pending = (c.threads u).pending →
        (Function.update c.threads u status t).pending = (c.threads t).pending := by
      intro u status hpending
      rw [Function.update_apply]
      split
      · rename_i hu
        rw [hpending, hu]
      · rfl
    cases hstep with
    | call u op hidle =>
      by_cases hu : u = t
      · subst hu
        rw [hidle] at ih
        simpa [List.filter_append, Status.pending] using ih
      · simp [List.filter_append, hu, Function.update_of_ne (Ne.symm hu), ih]
    | lock u hlocking hfree =>
      rw [hsame (by rw [hlocking]; rfl)]
      exact ih
    | wait u hholding hpass =>
      rw [hsame (by rw [hholding]; rfl)]
      exact ih
    | fail u hholding hpass =>
      rw [hsame (by rw [hholding]; rfl)]
      exact ih
    | wake u hwaiting =>
      rw [hsame (by rw [hwaiting]; rfl)]
      exact ih
    | done u hholding hpass hwoken =>
      rw [hwoken.pending]
      by_cases hu : u = t
      · subst hu
        rw [hholding] at ih
        simpa [List.filter_append, Status.pending] using ih
      · simp [List.filter_append, hu, Function.update_of_ne (Ne.symm hu), ih]

/-! ## Invariants -/

/-- What every pass that returns preserves, of the shared state and the history. -/
structure Invariant (passes : Passes σ ω ρ χ) (s₀ : σ) (I : σ → List (Event τ ω ρ) → Prop) : Prop where
  init : I s₀ []
  done : ∀ {s h t op s' r wakes}, I s h → passes op s = some (.done s' r wakes) →
    I s' (h ++ [⟨t, op, r⟩])

/-- An invariant holds after any interleaving. -/
theorem Invariant.reachable {I : σ → List (Event τ ω ρ) → Prop} (hI : Invariant passes s₀ I)
    (h : Reachable passes s₀ c) : I c.shared c.history := by
  induction h with
  | initial => exact hI.init
  | step _ hstep ih =>
    cases hstep with
    | call | lock | wait | fail | wake => exact ih
    | done t _ hpass _ => exact hI.done ih hpass

/-- Nothing fails when the invariant excludes it. -/
theorem Invariant.not_failed {I : σ → List (Event τ ω ρ) → Prop} (hI : Invariant passes s₀ I)
    (hpass : ∀ {s h} op, I s h → passes op s ≠ none) (h : Reachable passes s₀ c) (t : τ) (op : ω) :
    c.threads t ≠ .failed op := by
  induction h with
  | initial => simp [Monitor.initial]
  | @step c _ hreach hstep ih =>
    have hupdate : ∀ {u : τ} {status : Status ω χ}, status ≠ .failed op →
        Function.update c.threads u status t ≠ .failed op := by
      intro u status hstatus
      rw [Function.update_apply]
      split
      · exact hstatus
      · exact ih
    cases hstep with
    | call | lock | wait | wake => exact hupdate (by simp)
    | fail u hholding hnone => exact absurd hnone (hpass _ (hI.reachable hreach))
    | done u hholding _ hwoken =>
      rcases hwoken.apply t with hsame | ⟨op', condvar, -, hlocking⟩
      · dsimp only
        rw [hsame]
        exact hupdate (by simp)
      · simp [hlocking]

/-! ## Linearizability -/

/-- A sequential object: what an operation may answer at a state, and the state after it. -/
abbrev Object (α ω ρ : Type*) := α → ω → ρ → α → Prop

/-- A run of an object, with its answers. -/
inductive Run (object : Object α ω ρ) (a : α) : List (Event τ ω ρ) → α → Prop where
  | nil : Run object a [] a
  | snoc {h : List (Event τ ω ρ)} {b b' : α} {e : Event τ ω ρ} : Run object a h b →
    object b e.op e.result b' → Run object a (h ++ [e]) b'

omit [DecidableEq τ] in
lemma run_nil {α : Type*} {object : Object α ω ρ} {a b : α} :
    Run object a ([] : List (Event τ ω ρ)) b ↔ b = a := by
  constructor
  · generalize hh : ([] : List (Event τ ω ρ)) = h
    intro hrun
    cases hrun with
    | nil => rfl
    | snoc => exact absurd hh (by simp)
  · rintro rfl
    exact .nil

omit [DecidableEq τ] in
lemma run_concat {α : Type*} {object : Object α ω ρ} {a b : α} {h : List (Event τ ω ρ)} {e : Event τ ω ρ} :
    Run object a (h ++ [e]) b ↔ ∃ m, Run object a h m ∧ object m e.op e.result b := by
  constructor
  · generalize hh : h ++ [e] = h'
    intro hrun
    cases hrun with
    | nil => exact absurd hh (by simp)
    | snoc hrun hstep =>
      obtain ⟨rfl, he⟩ := List.append_inj' hh rfl
      cases he
      exact ⟨_, hrun, hstep⟩
  · rintro ⟨m, hrun, hstep⟩
    exact hrun.snoc hstep

omit [DecidableEq τ] in
/-- A run goes on from where its first part ends. -/
theorem Run.split {α : Type*} {object : Object α ω ρ} {a b : α} {h h' : List (Event τ ω ρ)}
    (hrun : Run object a (h ++ h') b) : ∃ m, Run object a h m ∧ Run object m h' b := by
  induction h' using List.reverseRecOn generalizing b with
  | nil => exact ⟨b, by simpa using hrun, .nil⟩
  | append_singleton h' e ih =>
    rw [← List.append_assoc, run_concat] at hrun
    obtain ⟨m, hrun, hstep⟩ := hrun
    obtain ⟨k, hfirst, hsecond⟩ := ih hrun
    exact ⟨k, hfirst, hsecond.snoc hstep⟩

omit [DecidableEq τ] in
/-- A run by its first operation. -/
theorem Run.cons_inv {α : Type*} {object : Object α ω ρ} {a b : α} {h : List (Event τ ω ρ)} {e : Event τ ω ρ}
    (hrun : Run object a (e :: h) b) : ∃ m, object a e.op e.result m ∧ Run object m h b := by
  rw [← List.singleton_append] at hrun
  obtain ⟨m, hfirst, hrest⟩ := hrun.split
  rw [← List.nil_append [e], run_concat] at hfirst
  obtain ⟨k, hnil, hstep⟩ := hfirst
  rw [run_nil] at hnil
  exact ⟨m, hnil ▸ hstep, hrest⟩

/-- Every pass that returns does what the object may do. -/
structure Simulates (passes : Passes σ ω ρ χ) (s₀ : σ) (object : Object α ω ρ) (a₀ : α)
    (R : σ → α → Prop) : Prop where
  init : R s₀ a₀
  done : ∀ {s a op s' r wakes}, R s a → passes op s = some (.done s' r wakes) →
    ∃ a', object a op r a' ∧ R s' a'

omit [DecidableEq τ] in
lemma Simulates.invariant {α : Type*} {object : Object α ω ρ} {a₀ : α} {R : σ → α → Prop}
    (hR : Simulates passes s₀ object a₀ R) :
    Invariant passes s₀ fun s (h : List (Event τ ω ρ)) => ∃ a, Run object a₀ h a ∧ R s a := by
  refine ⟨⟨a₀, .nil, hR.init⟩, ?_⟩
  rintro s h t op s' r wakes ⟨a, hrun, hrel⟩ hpass
  obtain ⟨a', hstep, hrel'⟩ := hR.done hrel hpass
  exact ⟨a', hrun.snoc hstep, hrel'⟩

/-- The operations in the order in which they returned are a run of the object. -/
theorem Simulates.linearizable {α : Type*} {object : Object α ω ρ} {a₀ : α} {R : σ → α → Prop}
    (hR : Simulates passes s₀ object a₀ R) (h : Reachable passes s₀ c) :
    ∃ a, Run object a₀ c.history a ∧ R c.shared a :=
  hR.invariant.reachable h

/-- No thread fails where no pass does. -/
lemma Simulates.not_failed {α : Type*} {object : Object α ω ρ} {a₀ : α} {R : σ → α → Prop}
    (hR : Simulates passes s₀ object a₀ R) (hpass : ∀ {s a} op, R s a → passes op s ≠ none)
    (h : Reachable passes s₀ c) (t : τ) (op : ω) : c.threads t ≠ .failed op :=
  hR.invariant.not_failed (fun op ⟨_, _, hrel⟩ => hpass op hrel) h t op

end Monitor
