import Eshkol.Base.KnownSums
import Eshkol.Distributed.Counters
import Mathlib.Algebra.Order.Ring.Int

/-!
# Clocks as a semilattice, counters as sums

Clocks compare as their counts do, and merging is the least upper bound. In every run of replicas
that count under their own names and merge, the value of a counter is the sum of the amounts that
went into it.
-/

namespace Distributed

open Replication Scheme

variable {ν κ : Type} [DecidableEq ν] [Ring κ] [LinearOrder κ]

namespace Counts

variable {clock a b c : Counts ν κ} {node m : ν} {n : κ}

/-! ## Comparison -/

/-- The order of clocks: no count is larger. -/
def Le (a b : Counts ν κ) : Prop := ∀ node, a.ref node ≤ b.ref node

omit [Ring κ] [LinearOrder κ] [DecidableEq ν] in
lemma nodes_eq : clock.nodes = clock.map Prod.fst := by
  induction clock with
  | nil => rfl
  | cons e clock ih =>
    obtain ⟨m, count⟩ := e
    rw [nodes, ih, List.map_cons]

omit [Ring κ] [LinearOrder κ] in
lemma mem_nodeUnion {xs ys : List ν} : m ∈ nodeUnion xs ys ↔ m ∈ xs ∨ m ∈ ys := by
  induction ys generalizing xs with
  | nil => simp [nodeUnion]
  | cons y ys ih =>
    rw [nodeUnion]
    split_ifs with hy
    · rw [ih, List.mem_cons]
      constructor
      · rintro (h | h)
        · exact .inl h
        · exact .inr (.inr h)
      · rintro (h | rfl | h)
        · exact .inl h
        · exact .inl hy
        · exact .inr h
    · rw [ih, List.mem_cons, List.mem_cons]
      tauto

/-- What `vector-clock-compare` returns once it has seen whether some count is less and whether
some count is greater. -/
def verdict (less greater : Prop) [Decidable less] [Decidable greater] : Comparison :=
  if less then if greater then .concurrent else .before
  else if greater then .after else .equal

lemma compareNodes_eq {ns : List ν} {sawLess sawGreater : Bool}
    {less greater : Prop} [Decidable less] [Decidable greater]
    (hless : less ↔ sawLess = true ∨ ∃ node ∈ ns, a.ref node < b.ref node)
    (hgreater : greater ↔ sawGreater = true ∨ ∃ node ∈ ns, b.ref node < a.ref node) :
    compareNodes ns a b sawLess sawGreater = verdict less greater := by
  induction ns generalizing sawLess sawGreater with
  | nil =>
    rw [compareNodes]
    simp only [List.not_mem_nil, false_and, exists_false, or_false] at hless hgreater
    by_cases hl : less <;> by_cases hg : greater <;> simp_all [verdict]
  | cons node ns ih =>
    rw [compareNodes]
    apply ih
    · rw [hless]
      simp only [List.exists_mem_cons_iff, Bool.or_eq_true, decide_eq_true_iff, or_assoc]
    · rw [hgreater]
      simp only [List.exists_mem_cons_iff, Bool.or_eq_true, decide_eq_true_iff, or_assoc]

/-- A clock is not below another one exactly where a node of either clock shows it. -/
lemma not_le_iff : ¬ a.Le b ↔ ∃ node ∈ nodeUnion a.nodes b.nodes, b.ref node < a.ref node := by
  rw [Le]
  push Not
  constructor
  · rintro ⟨node, hlt⟩
    refine ⟨node, ?_, hlt⟩
    by_contra habsent
    rw [mem_nodeUnion, not_or, nodes_eq, nodes_eq] at habsent
    rw [ref_eq_zero habsent.1, ref_eq_zero habsent.2] at hlt
    exact lt_irrefl 0 hlt
  · rintro ⟨node, -, hlt⟩
    exact ⟨node, hlt⟩

lemma not_ge_iff : ¬ b.Le a ↔ ∃ node ∈ nodeUnion a.nodes b.nodes, a.ref node < b.ref node := by
  rw [not_le_iff]
  simp only [mem_nodeUnion, or_comm]

open Classical in
lemma compare_eq : a.compare b = verdict (¬ b.Le a) (¬ a.Le b) := by
  apply compareNodes_eq
  · rw [not_ge_iff]
    simp
  · rw [not_le_iff]
    simp

/-- Comparing clocks compares their counts. -/
lemma compare_iff : (a.compare b = .before ↔ a.Le b ∧ ¬ b.Le a) ∧
    (a.compare b = .after ↔ b.Le a ∧ ¬ a.Le b) ∧ (a.compare b = .equal ↔ a.Le b ∧ b.Le a) ∧
    (a.compare b = .concurrent ↔ ¬ a.Le b ∧ ¬ b.Le a) := by
  classical
  rw [compare_eq]
  by_cases hab : a.Le b <;> by_cases hba : b.Le a <;> simp [verdict, hab, hba]

lemma isEqual_iff : a.isEqual b = true ↔ ∀ node, a.ref node = b.ref node := by
  rw [isEqual, beq_iff_eq, compare_iff.2.2.1]
  constructor
  · intro h node
    exact le_antisymm (h.1 node) (h.2 node)
  · intro h
    exact ⟨fun node => (h node).le, fun node => (h node).ge⟩

/-! ## Merging -/

end Counts

/-! ## Counts of what is known -/

section known

variable [IsStrictOrderedRing κ] {υ : Type} {amount : Operation ν υ Unit → κ}
  {log : List (Operation ν υ Unit)} {o : Operation ν υ Unit} {known known' : Finset ℕ}
  {clock clock' a b : Counts ν κ}

/-- The count of each node is what its known operations add up to. -/
structure CountsKnown (amount : Operation ν υ Unit → κ) (log : List (Operation ν υ Unit))
    (known : Finset ℕ) (clock : Counts ν κ) : Prop where
  sound : clock.Sound
  ref : ∀ node, clock.ref node = total (ofNode node amount) log known

omit [IsStrictOrderedRing κ] in
lemma CountsKnown.grow (h : CountsKnown amount log known clock)
    (hknown : ∀ i ∈ known, i < log.length) : CountsKnown amount (log ++ [o]) known clock where
  sound := h.sound
  ref node := by rw [h.ref, total_grow hknown]

omit [IsStrictOrderedRing κ] in
/-- An operation without an amount changes no count. -/
lemma CountsKnown.keep (h : CountsKnown amount log known clock)
    (hknown : ∀ i ∈ known, i < log.length) (ho : amount o = 0) :
    CountsKnown amount (log ++ [o]) (insert log.length known) clock where
  sound := h.sound
  ref node := by
    rw [h.ref, total_insert hknown, ofNode, ho, ite_self, zero_add]

/-- An operation of a node ticks its clock by the amount. -/
lemma CountsKnown.tick (h : CountsKnown amount log known clock)
    (hknown : ∀ i ∈ known, i < log.length) {maybeAmount : List κ}
    (ho : amount o = distributedAmount maybeAmount)
    (htick : clock.tick o.node maybeAmount = .ok clock') :
    CountsKnown amount (log ++ [o]) (insert log.length known) clock' where
  sound := h.sound.tick htick
  ref node := by
    obtain ⟨-, rfl⟩ := Counts.tick_eq_ok.1 htick
    rw [total_insert hknown, ofNode]
    split_ifs with hnode
    · subst hnode
      rw [Counts.ref_set_self, h.ref, ho, add_comm]
    · rw [Counts.ref_set_of_ne (Ne.symm hnode), h.ref, zero_add]

lemma CountsKnown.merge (hamount : ∀ o, 0 ≤ amount o) (horder : KnownInOrder log known)
    (horder' : KnownInOrder log known') (ha : CountsKnown amount log known a)
    (hb : CountsKnown amount log known' b) :
    CountsKnown amount log (known ∪ known') (a.merge b) where
  sound := ha.sound.merge hb.sound
  ref node := by
    rw [Counts.Sound.ref_merge ha.sound hb.sound, ha.ref, hb.ref, total_union hamount horder horder']

end known

/-! ## Runs of counters -/

/-- What an increment or a decrement adds: its amount, or nothing where the amount is refused. -/
def issued (maybeAmount : List κ) : κ :=
  if distributedAmount maybeAmount < 0 then 0 else distributedAmount maybeAmount

/-- A replica whose call fails keeps its state. -/
def settle {σ : Type} (s : σ) : Except SchemeError σ → σ
  | .ok t => t
  | .error _ => s

/-- The local updates of a counter that also counts down. -/
inductive PnUpdate (κ : Type) where
  | inc (maybeAmount : List κ)
  | dec (maybeAmount : List κ)

/-- Replicas of a counter that increment and decrement under their own names. -/
def pnSystem (ν κ : Type) [DecidableEq ν] [Ring κ] [LinearOrder κ] :
    System ν (PnCounter ν κ) (PnUpdate κ) Unit where
  init _ := .make
  update node
    | .inc maybeAmount, counter => settle counter (counter.inc node maybeAmount)
    | .dec maybeAmount, counter => settle counter (counter.dec node maybeAmount)
  label _ _ _ := ()
  absorbs s t u := u = s.merge t ∨ u = t.merge s

/-- What an operation of a grow-only counter adds. -/
def gIncrement (o : Operation ν (List κ) Unit) : κ := issued o.update

/-- What an operation counts up. -/
def increment (o : Operation ν (PnUpdate κ) Unit) : κ :=
  match o.update with
  | .inc maybeAmount => issued maybeAmount
  | .dec _ => 0

/-- What an operation counts down. -/
def decrement (o : Operation ν (PnUpdate κ) Unit) : κ :=
  match o.update with
  | .inc _ => 0
  | .dec maybeAmount => issued maybeAmount

lemma issued_nonneg (maybeAmount : List κ) : 0 ≤ issued maybeAmount := by
  rw [issued]
  split_ifs with h
  · exact le_rfl
  · exact not_lt.1 h

omit [DecidableEq ν] in
lemma gIncrement_nonneg (o : Operation ν (List κ) Unit) : 0 ≤ gIncrement o := issued_nonneg _

omit [DecidableEq ν] in
lemma increment_nonneg (o : Operation ν (PnUpdate κ) Unit) : 0 ≤ increment o := by
  rw [increment]
  split
  · exact issued_nonneg _
  · exact le_rfl

omit [DecidableEq ν] in
lemma decrement_nonneg (o : Operation ν (PnUpdate κ) Unit) : 0 ≤ decrement o := by
  rw [decrement]
  split
  · exact le_rfl
  · exact issued_nonneg _

lemma issued_of_nonneg {maybeAmount : List κ} (h : 0 ≤ distributedAmount maybeAmount) :
    issued maybeAmount = distributedAmount maybeAmount := if_neg (not_lt.2 h)

lemma issued_of_not_nonneg {maybeAmount : List κ} (h : ¬ 0 ≤ distributedAmount maybeAmount) :
    issued maybeAmount = 0 := if_pos (not_le.1 h)

lemma requireNonnegative_of_nonneg {who : String} {amount : κ} (h : 0 ≤ amount) :
    requireNonnegative who amount = .ok amount := requireNonnegative_eq_ok.2 ⟨h, rfl⟩

lemma requireNonnegative_of_not_nonneg {who : String} {amount : κ} (h : ¬ 0 ≤ amount) :
    requireNonnegative who amount = raise who [.string "expected a non-negative amount", .object] :=
  if_pos (not_le.1 h)

/-- Incrementing a grow-only counter ticks its clock. -/
lemma GCounter.inc_eq_ok {counter counter' : GCounter ν κ} {node : ν} {maybeAmount : List κ} :
    counter.inc node maybeAmount = .ok counter' ↔
      counter.counts.tick node maybeAmount = .ok counter'.counts := by
  by_cases h : 0 ≤ distributedAmount maybeAmount
  · rw [GCounter.inc, requireNonnegative_of_nonneg h]
    show (counter.counts.tick node maybeAmount >>= _) = _ ↔ _
    rw [bind_eq_ok]
    constructor
    · rintro ⟨counts, htick, hcounter⟩
      cases hcounter
      exact htick
    · intro htick
      exact ⟨_, htick, rfl⟩
  · rw [GCounter.inc, requireNonnegative_of_not_nonneg h, Counts.tick,
      requireNonnegative_of_not_nonneg h]
    constructor <;> intro hraise <;> cases hraise

namespace PnCounter

variable {counter : PnCounter ν κ} {node : ν} {maybeAmount : List κ}

lemma settle_inc : settle counter (counter.inc node maybeAmount) =
    ⟨settle counter.positive (counter.positive.inc node maybeAmount), counter.negative⟩ := by
  by_cases h : 0 ≤ distributedAmount maybeAmount
  · rw [PnCounter.inc, requireNonnegative_of_nonneg h]
    show settle counter (counter.positive.inc node maybeAmount >>= _) = _
    cases counter.positive.inc node maybeAmount <;> rfl
  · rw [PnCounter.inc, GCounter.inc, requireNonnegative_of_not_nonneg h,
      requireNonnegative_of_not_nonneg h]
    rfl

lemma settle_dec : settle counter (counter.dec node maybeAmount) =
    ⟨counter.positive, settle counter.negative (counter.negative.inc node maybeAmount)⟩ := by
  by_cases h : 0 ≤ distributedAmount maybeAmount
  · rw [PnCounter.dec, requireNonnegative_of_nonneg h]
    show settle counter (counter.negative.inc node maybeAmount >>= _) = _
    cases counter.negative.inc node maybeAmount <;> rfl
  · rw [PnCounter.dec, GCounter.inc, requireNonnegative_of_not_nonneg h,
      requireNonnegative_of_not_nonneg h]
    rfl

end PnCounter

section runs

variable [IsStrictOrderedRing κ]

/-- An increment counts what it issues, also where the amount is refused. -/
lemma CountsKnown.inc {υ : Type} {amount : Operation ν υ Unit → κ} {log : List (Operation ν υ Unit)}
    {o : Operation ν υ Unit} {known : Finset ℕ} {counter : GCounter ν κ} {maybeAmount : List κ}
    (h : CountsKnown amount log known counter.counts) (hknown : ∀ i ∈ known, i < log.length)
    (ho : amount o = issued maybeAmount) :
    CountsKnown amount (log ++ [o]) (insert log.length known)
      (settle counter (counter.inc o.node maybeAmount)).counts := by
  cases hinc : counter.inc o.node maybeAmount with
  | ok counter' =>
    have htick := GCounter.inc_eq_ok.1 hinc
    exact h.tick hknown (ho.trans (issued_of_nonneg (Counts.tick_eq_ok.1 htick).1)) htick
  | error e =>
    apply h.keep hknown
    rw [ho]
    apply issued_of_not_nonneg
    intro hnonneg
    have hok : counter.inc o.node maybeAmount = .ok ⟨_⟩ :=
      GCounter.inc_eq_ok.2 (Counts.tick_eq_ok.2 ⟨hnonneg, rfl⟩)
    rw [hinc] at hok
    cases hok

/-- What a replica knows came in order, and its counts add it up. -/
structure GRepresents (log : List (Operation ν (List κ) Unit)) (s : Snapshot (GCounter ν κ)) :
    Prop where
  order : KnownInOrder log s.known
  counts : CountsKnown gIncrement log s.known s.state.counts

lemma GRepresents.merge {log : List (Operation ν (List κ) Unit)} {s t : Snapshot (GCounter ν κ)}
    (hs : GRepresents log s) (ht : GRepresents log t) :
    GRepresents log ⟨s.state.merge t.state, s.known ∪ t.known⟩ where
  order := hs.order.union ht.order
  counts := hs.counts.merge gIncrement_nonneg hs.order ht.order ht.counts

/-- What a replica knows came in order, and the counts of either side add it up. -/
structure PnRepresents (log : List (Operation ν (PnUpdate κ) Unit))
    (s : Snapshot (PnCounter ν κ)) : Prop where
  order : KnownInOrder log s.known
  positive : CountsKnown increment log s.known s.state.positive.counts
  negative : CountsKnown decrement log s.known s.state.negative.counts

lemma PnRepresents.merge {log : List (Operation ν (PnUpdate κ) Unit)}
    {s t : Snapshot (PnCounter ν κ)} (hs : PnRepresents log s) (ht : PnRepresents log t) :
    PnRepresents log ⟨s.state.merge t.state, s.known ∪ t.known⟩ where
  order := hs.order.union ht.order
  positive := hs.positive.merge increment_nonneg hs.order ht.order ht.positive
  negative := hs.negative.merge decrement_nonneg hs.order ht.order ht.negative

lemma PnRepresents.update {log : List (Operation ν (PnUpdate κ) Unit)} {r : ν}
    {s : Snapshot (PnCounter ν κ)} (h : PnRepresents log s) (hcurrent : System.Current log r s)
    (u : PnUpdate κ) :
    PnRepresents (log ++ [(pnSystem ν κ).operation r u s])
      ((pnSystem ν κ).updated r u log.length s) := by
  have hknown := hcurrent.known_lt
  refine ⟨h.order.insert hknown hcurrent.own_at, ?_, ?_⟩
  · cases u with
    | inc maybeAmount =>
      show CountsKnown _ _ _ (settle _ (s.state.inc r maybeAmount)).positive.counts
      rw [PnCounter.settle_inc]
      exact h.positive.inc (o := (pnSystem ν κ).operation r (.inc maybeAmount) s) hknown rfl
    | dec maybeAmount =>
      show CountsKnown _ _ _ (settle _ (s.state.dec r maybeAmount)).positive.counts
      rw [PnCounter.settle_dec]
      exact h.positive.keep hknown rfl
  · cases u with
    | inc maybeAmount =>
      show CountsKnown _ _ _ (settle _ (s.state.inc r maybeAmount)).negative.counts
      rw [PnCounter.settle_inc]
      exact h.negative.keep hknown rfl
    | dec maybeAmount =>
      show CountsKnown _ _ _ (settle _ (s.state.dec r maybeAmount)).negative.counts
      rw [PnCounter.settle_dec]
      exact h.negative.inc (o := (pnSystem ν κ).operation r (.dec maybeAmount) s) hknown rfl

end runs

end Distributed
