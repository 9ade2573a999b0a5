import Mathlib.Data.Finset.Insert
import Mathlib.Data.Finset.Lattice.Basic

/-!
# State-based replication

Replicas that change their own state and merge states they receive. A world keeps, beside the
states, the log of all operations issued so far and what every state knows of it, so that
properties of states can be stated in terms of the operations that went into them. Any state a
replica has ever been in may be received, any number of times and in any order.
-/

namespace Replication

/-- What a replica does: `ι` names the replicas, `σ` are the states, `υ` the local updates and
`κ` the labels that updates give to their operations. A replica at `s` that receives `t` may move
to any `u` with `absorbs s t u`. -/
structure System (ι σ υ κ : Type*) where
  init : ι → σ
  update : ι → υ → σ → σ
  label : ι → υ → σ → κ
  absorbs : σ → σ → σ → Prop

/-- An operation: who issued it, what it was, its label, and the operations known where it was
issued. -/
structure Operation (ι υ κ : Type*) where
  node : ι
  update : υ
  label : κ
  past : Finset ℕ

/-- A state and the positions of the operations in the log that went into it. -/
structure Snapshot (σ : Type*) where
  state : σ
  known : Finset ℕ

/-- The log, the snapshot of every replica, and every snapshot a replica has been at. -/
structure World (ι σ υ κ : Type*) where
  log : List (Operation ι υ κ)
  replica : ι → Snapshot σ
  sent : List (Snapshot σ)

section log

variable {ι υ κ : Type*} {log : List (Operation ι υ κ)} {o : Operation ι υ κ}
  {P : Operation ι υ κ → Prop} {i m : ℕ}

/-- The operation at a position of the log satisfies `P`. -/
def At (log : List (Operation ι υ κ)) (i : ℕ) (P : Operation ι υ κ → Prop) : Prop :=
  ∃ o, log[i]? = some o ∧ P o

/-- The operation at position `m` was issued where the one at position `i` was known. -/
def ObservedBy (log : List (Operation ι υ κ)) (i m : ℕ) : Prop := At log m fun o => i ∈ o.past

lemma At.lt (h : At log i P) : i < log.length := by
  obtain ⟨o, ho, -⟩ := h
  exact (List.getElem?_eq_some_iff.1 ho).1

lemma at_append (hi : i < log.length) : At (log ++ [o]) i P ↔ At log i P := by
  rw [At, List.getElem?_append_left hi, At]

lemma at_last : At (log ++ [o]) log.length P ↔ P o := by simp [At]

/-- What holds at a position of a longer log. -/
theorem at_concat : At (log ++ [o]) i P ↔ At log i P ∨ i = log.length ∧ P o := by
  constructor
  · intro h
    have hlt := h.lt
    rw [List.length_append, List.length_singleton] at hlt
    rcases Nat.lt_succ_iff_lt_or_eq.1 hlt with hlt | rfl
    · exact .inl ((at_append hlt).1 h)
    · exact .inr ⟨rfl, at_last.1 h⟩
  · rintro (h | ⟨rfl, h⟩)
    · exact (at_append h.lt).2 h
    · exact at_last.2 h

lemma At.concat (h : At log i P) : At (log ++ [o]) i P := at_concat.2 (.inl h)

/-- Operations have observed earlier ones only. -/
def PastInLog (log : List (Operation ι υ κ)) : Prop := ∀ {i m}, ObservedBy log i m → i < log.length

lemma PastInLog.concat (h : PastInLog log) (ho : ∀ i ∈ o.past, i < log.length) :
    PastInLog (log ++ [o]) := by
  intro i m hobserved
  rw [List.length_append, List.length_singleton]
  rcases at_concat.1 hobserved with hold | ⟨-, hnew⟩
  · exact Nat.lt_succ_of_lt (h hold)
  · exact Nat.lt_succ_of_lt (ho i hnew)

end log

/-- A replica is or has been at the snapshot. -/
def World.Has {ι σ υ κ : Type*} (w : World ι σ υ κ) (s : Snapshot σ) : Prop :=
  (∃ r, w.replica r = s) ∨ s ∈ w.sent

namespace System

variable {ι σ υ κ : Type*} [DecidableEq ι] (S : System ι σ υ κ)

/-- Before anything has happened. -/
def initial : World ι σ υ κ where
  log := []
  replica r := ⟨S.init r, ∅⟩
  sent := []

/-- The operation of an update at a snapshot. -/
def operation (r : ι) (u : υ) (s : Snapshot σ) : Operation ι υ κ :=
  ⟨r, u, S.label r u s.state, s.known⟩

/-- The snapshot after the update that is the operation at position `n`. -/
def updated (r : ι) (u : υ) (n : ℕ) (s : Snapshot σ) : Snapshot σ :=
  ⟨S.update r u s.state, insert n s.known⟩

/-- The world with a replica moved to a snapshot. -/
def move (w : World ι σ υ κ) (r : ι) (s : Snapshot σ) : World ι σ υ κ :=
  { w with replica := Function.update w.replica r s, sent := s :: w.sent }

@[simp]
lemma move_log (w : World ι σ υ κ) (r : ι) (s : Snapshot σ) : (move w r s).log = w.log := rfl

@[simp]
lemma move_replica_self (w : World ι σ υ κ) (r : ι) (s : Snapshot σ) :
    (move w r s).replica r = s := by simp [move]

lemma move_replica_of_ne (w : World ι σ υ κ) {r r' : ι} (h : r' ≠ r) (s : Snapshot σ) :
    (move w r s).replica r' = w.replica r' := by simp [move, h]

/-- One replica updates its state, or absorbs a state received from another. -/
inductive Step (w : World ι σ υ κ) : World ι σ υ κ → Prop where
  | update (r : ι) (u : υ) :
    Step w (move { w with log := w.log ++ [S.operation r u (w.replica r)] } r
      (S.updated r u w.log.length (w.replica r)))
  | absorb (r : ι) {s : Snapshot σ} {t : σ} : s ∈ w.sent →
    S.absorbs (w.replica r).state s.state t →
    Step w (move w r ⟨t, (w.replica r).known ∪ s.known⟩)

/-- The worlds that some interleaving of steps leads to. -/
def Reachable (w : World ι σ υ κ) : Prop := Relation.ReflTransGen S.Step S.initial w

variable {S} {w w' : World ι σ υ κ}

lemma Reachable.init : S.Reachable S.initial := .refl

lemma Reachable.step (h : S.Reachable w) (hstep : S.Step w w') : S.Reachable w' := h.tail hstep

/-! ## Invariants -/

/-- A property holds of every snapshot of a world. -/
def AllSnapshots (P : Snapshot σ → Prop) (w : World ι σ υ κ) : Prop :=
  (∀ r, P (w.replica r)) ∧ ∀ s ∈ w.sent, P s

omit [DecidableEq ι] in
lemma AllSnapshots.imp {P Q : Snapshot σ → Prop} (h : AllSnapshots P w)
    (hPQ : ∀ s, P s → Q s) : AllSnapshots Q w :=
  ⟨fun r => hPQ _ (h.1 r), fun s hs => hPQ s (h.2 s hs)⟩

omit [DecidableEq ι] in
lemma AllSnapshots.of_has {P : Snapshot σ → Prop} (h : AllSnapshots P w) {s : Snapshot σ}
    (hs : w.Has s) : P s := by
  rcases hs with ⟨r, rfl⟩ | hs
  · exact h.1 r
  · exact h.2 s hs

lemma AllSnapshots.move {P : Snapshot σ → Prop} (h : AllSnapshots P w) {r : ι}
    {s : Snapshot σ} (hs : P s) : AllSnapshots P (move w r s) := by
  refine ⟨fun r' => ?_, fun t ht => ?_⟩
  · by_cases hr : r' = r
    · subst hr
      rw [move_replica_self]
      exact hs
    · rw [move_replica_of_ne w hr]
      exact h.1 r'
  · rcases List.mem_cons.1 ht with rfl | ht
    · exact hs
    · exact h.2 t ht

/-- What is known is in the log, and a replica knows its own operations. -/
structure Aware (w : World ι σ υ κ) : Prop where
  known_lt : AllSnapshots (fun s => ∀ i ∈ s.known, i < w.log.length) w
  own : ∀ r i o, w.log[i]? = some o → o.node = r → i ∈ (w.replica r).known

lemma Aware.step (h : Aware w) (hstep : S.Step w w') : Aware w' := by
  cases hstep with
  | update r u =>
    have hlt : AllSnapshots (fun s => ∀ i ∈ s.known, i < w.log.length + 1) w :=
      h.known_lt.imp fun s hs i hi => Nat.lt_succ_of_lt (hs i hi)
    refine ⟨?_, fun r' i o ho hnode => ?_⟩
    · refine AllSnapshots.move (w := { w with log := _ }) ?_ ?_
      · simp only [move_log, List.length_append, List.length_singleton]
        exact hlt
      · intro i hi
        rw [move_log, List.length_append, List.length_singleton]
        rcases Finset.mem_insert.1 hi with rfl | hi
        · exact Nat.lt_succ_self _
        · exact hlt.1 r i hi
    · have hcase : w.log[i]? = some o ∨ i = w.log.length ∧ S.operation r u (w.replica r) = o := by
        rcases Nat.lt_trichotomy i w.log.length with hi | hi | hi
        · left
          rwa [move_log, List.getElem?_append_left hi] at ho
        · right
          rw [move_log, hi, List.getElem?_concat_length] at ho
          exact ⟨hi, Option.some.inj ho⟩
        · rw [move_log, List.getElem?_eq_none (by simp; omega)] at ho
          cases ho
      by_cases hr : r' = r
      · subst hr
        rw [move_replica_self]
        rcases hcase with hold | ⟨rfl, -⟩
        · exact Finset.mem_insert_of_mem (h.own r' i o hold hnode)
        · exact Finset.mem_insert_self _ _
      · rw [move_replica_of_ne _ hr]
        rcases hcase with hold | ⟨-, rfl⟩
        · exact h.own r' i o hold hnode
        · exact absurd hnode.symm hr
  | @absorb r s t hs habsorb =>
    refine ⟨h.known_lt.move fun i hi => ?_, fun r' i o ho hnode => ?_⟩
    · rcases Finset.mem_union.1 hi with hi | hi
      · exact h.known_lt.1 r i hi
      · exact h.known_lt.2 s hs i hi
    · by_cases hr : r' = r
      · subst hr
        rw [move_replica_self]
        exact Finset.mem_union_left _ (h.own r' i o ho hnode)
      · rw [move_replica_of_ne w hr]
        exact h.own r' i o ho hnode

lemma aware_of_reachable (h : S.Reachable w) : Aware w := by
  induction h with
  | refl =>
    refine ⟨⟨fun _ i hi => ?_, fun s hs => ?_⟩, fun _ i o ho => ?_⟩
    · cases Finset.notMem_empty i hi
    · cases hs
    · cases ho
  | tail _ hstep ih => exact ih.step hstep

/-- A snapshot at which the replica `r` stands: the positions it knows are in the log, and among
them are all operations that `r` issued. -/
structure Current (log : List (Operation ι υ κ)) (r : ι) (s : Snapshot σ) : Prop where
  known_lt : ∀ i ∈ s.known, i < log.length
  own : ∀ i o, log[i]? = some o → o.node = r → i ∈ s.known

/-- A replica knows all of its own operations. -/
lemma current_of_reachable (h : S.Reachable w) (r : ι) : Current w.log r (w.replica r) :=
  ⟨(aware_of_reachable h).known_lt.1 r, (aware_of_reachable h).own r⟩

/-- The rules for an invariant of the log and an invariant of snapshots against the log. -/
structure Invariants (S : System ι σ υ κ) (L : List (Operation ι υ κ) → Prop)
    (P : List (Operation ι υ κ) → Snapshot σ → Prop) : Prop where
  init_log : L []
  init : ∀ r, P [] ⟨S.init r, ∅⟩
  log : ∀ {log r s} (u : υ), L log → P log s → Current log r s → L (log ++ [S.operation r u s])
  grow : ∀ {log s} (o : Operation ι υ κ), L log → L (log ++ [o]) → P log s →
    (∀ i ∈ s.known, i < log.length) → P (log ++ [o]) s
  update : ∀ {log r s} (u : υ), L log → L (log ++ [S.operation r u s]) → P log s →
    Current log r s → P (log ++ [S.operation r u s]) (S.updated r u log.length s)
  absorb : ∀ {log s t u}, L log → P log s → P log t → S.absorbs s.state t.state u →
    P log ⟨u, s.known ∪ t.known⟩

/-- Invariants hold in every reachable world. -/
theorem Invariants.reachable {L : List (Operation ι υ κ) → Prop}
    {P : List (Operation ι υ κ) → Snapshot σ → Prop} (h : Invariants S L P)
    (hw : S.Reachable w) : L w.log ∧ AllSnapshots (P w.log) w := by
  induction hw with
  | refl =>
    refine ⟨h.init_log, h.init, fun s hs => ?_⟩
    cases hs
  | @tail w w' hw hstep ih =>
    obtain ⟨hlog, hall⟩ := ih
    have haware := aware_of_reachable hw
    cases hstep with
    | update r u =>
      have hcurrent := current_of_reachable hw r
      have hnew := h.log u hlog (hall.1 r) hcurrent
      have hgrown : AllSnapshots (P (w.log ++ [S.operation r u (w.replica r)])) w :=
        ⟨fun r' => h.grow _ hlog hnew (hall.1 r') (haware.known_lt.1 r'),
          fun s hs => h.grow _ hlog hnew (hall.2 s hs) (haware.known_lt.2 s hs)⟩
      exact ⟨hnew, AllSnapshots.move (w := { w with log := _ }) hgrown
        (h.update u hlog hnew (hall.1 r) hcurrent)⟩
    | absorb r hs habsorb =>
      exact ⟨hlog, hall.move (h.absorb hlog (hall.1 r) (hall.2 _ hs) habsorb)⟩

end System

/-! ## Refinement -/

section refinement

variable {ι σ υ κ τ ω μ : Type*}

/-- An operation as another system sees it, which finds its update and label in the label. -/
def Operation.map (g : κ → ω) (l : κ → μ) (o : Operation ι υ κ) : Operation ι ω μ :=
  ⟨o.node, g o.label, l o.label, o.past⟩

def Snapshot.map (f : σ → τ) (s : Snapshot σ) : Snapshot τ := ⟨f s.state, s.known⟩

def World.map (f : σ → τ) (g : κ → ω) (l : κ → μ) (w : World ι σ υ κ) : World ι τ ω μ where
  log := w.log.map (Operation.map g l)
  replica r := (w.replica r).map f
  sent := w.sent.map (Snapshot.map f)

variable [DecidableEq ι]

/-- `T` can do on the images of states what `S` does on states that satisfy `Own`, which replicas
of `S` keep. -/
structure Refinement (S : System ι σ υ κ) (T : System ι τ ω μ) (f : σ → τ) (g : κ → ω) (l : κ → μ)
    (Own : ι → σ → Prop) : Prop where
  own_init : ∀ r, Own r (S.init r)
  own_update : ∀ {r s} u, Own r s → Own r (S.update r u s)
  own_absorb : ∀ {r r' s t u}, Own r s → Own r' t → S.absorbs s t u → Own r u
  init : ∀ r, T.init r = f (S.init r)
  update : ∀ {r s} u, Own r s → T.update r (g (S.label r u s)) (f s) = f (S.update r u s)
  label : ∀ {r s} u, Own r s → T.label r (g (S.label r u s)) (f s) = l (S.label r u s)
  absorb : ∀ {r r' s t u}, Own r s → Own r' t → S.absorbs s t u → T.absorbs (f s) (f t) (f u)

variable {S : System ι σ υ κ} {T : System ι τ ω μ} {f : σ → τ} {g : κ → ω} {l : κ → μ}
  {Own : ι → σ → Prop} {w w' : World ι σ υ κ}

lemma map_move (w : World ι σ υ κ) (r : ι) (s : Snapshot σ) :
    (System.move w r s).map f g l = System.move (w.map f g l) r (s.map f) := by
  have hreplica : (fun r' => ((System.move w r s).replica r').map f) =
      Function.update (fun r' => (w.replica r').map f) r (s.map f) := by
    funext r'
    by_cases hr : r' = r
    · subst hr
      rw [System.move_replica_self, Function.update_self]
    · rw [System.move_replica_of_ne w hr, Function.update_of_ne hr]
  rw [World.map, hreplica]
  rfl

/-- The image of a reachable world is reachable. -/
theorem Refinement.reachable (h : Refinement S T f g l Own) (hw : S.Reachable w) :
    T.Reachable (w.map f g l) ∧ (∀ r, Own r (w.replica r).state) ∧
      ∀ s ∈ w.sent, ∃ r, Own r s.state := by
  induction hw with
  | refl =>
    refine ⟨?_, h.own_init, fun s hs => ?_⟩
    · have hinit : (S.initial).map f g l = T.initial := by
        simp [World.map, System.initial, Snapshot.map, h.init]
      rw [hinit]
      exact .init
    · cases hs
  | @tail w w' hw hstep ih =>
    obtain ⟨hreach, hown, hsent⟩ := ih
    have hmove : ∀ (w : World ι σ υ κ) r s, (∀ r, Own r (w.replica r).state) →
        (∀ s ∈ w.sent, ∃ r, Own r s.state) → Own r s.state →
        (∀ r', Own r' ((System.move w r s).replica r').state) ∧
          ∀ t ∈ (System.move w r s).sent, ∃ r, Own r t.state := by
      intro w r s hown hsent hs
      refine ⟨fun r' => ?_, fun t ht => ?_⟩
      · by_cases hr : r' = r
        · subst hr
          rw [System.move_replica_self]
          exact hs
        · rw [System.move_replica_of_ne w hr]
          exact hown r'
      · rcases List.mem_cons.1 ht with rfl | ht
        · exact ⟨r, hs⟩
        · exact hsent t ht
    cases hstep with
    | update r u =>
      refine ⟨?_, hmove _ r _ hown hsent (h.own_update u (hown r))⟩
      have hstep' := hreach.step (.update r (g (S.label r u (w.replica r).state)))
      rw [map_move]
      have hlog : (w.map f g l).log ++ [T.operation r (g (S.label r u (w.replica r).state))
          ((w.map f g l).replica r)] =
          (w.log ++ [S.operation r u (w.replica r)]).map (Operation.map g l) := by
        rw [List.map_append, List.map_singleton]
        congr 2
        simp [System.operation, Operation.map, World.map, Snapshot.map, h.label u (hown r)]
      have hstate : T.updated r (g (S.label r u (w.replica r).state)) (w.map f g l).log.length
          ((w.map f g l).replica r) = (S.updated r u w.log.length (w.replica r)).map f := by
        simp [System.updated, Snapshot.map, World.map, h.update u (hown r)]
      rw [hlog, hstate] at hstep'
      exact hstep'
    | @absorb r s t hs habsorb =>
      obtain ⟨r', hr'⟩ := hsent s hs
      refine ⟨?_, hmove _ r _ hown hsent (h.own_absorb (hown r) hr' habsorb)⟩
      rw [map_move]
      have hsent' : s.map f ∈ (w.map f g l).sent := List.mem_map_of_mem hs
      have hmerged : T.absorbs ((w.map f g l).replica r).state (s.map f).state (f t) :=
        h.absorb (hown r) hr' habsorb
      exact hreach.step (.absorb r hsent' hmerged)

end refinement

end Replication
