import Eshkol.Base.Replication
import Eshkol.Distributed.VectorClock
import Eshkol.Scheme.Primitives
import Mathlib.Algebra.Order.Ring.Defs
import Mathlib.Algebra.Ring.Nat

/-!
# Vector clocks and counters

Vector clocks that advance by amounts, their comparison, and the counters that are made of them.
Counts are exact numbers of any kind.
-/

namespace Distributed

open Scheme

variable {ν κ : Type} [DecidableEq ν] [LinearOrder κ]

/-! ## Amounts -/

section amounts

variable [AddMonoidWithOne κ]

/-- `distributed-amount`: the optional argument, or one. -/
def distributedAmount (maybeAmount : List κ) : κ := maybeAmount.headD 1

/-- `distributed-require-nonnegative`. -/
def requireNonnegative (who : String) (amount : κ) : Except SchemeError κ :=
  if amount < 0 then raise who [.string "expected a non-negative amount", .object] else .ok amount

/-- `vector-clock-tick`. -/
def Counts.tick (clock : Counts ν κ) (node : ν) (maybeAmount : List κ) : Except SchemeError (Counts ν κ) := do
  let delta ← requireNonnegative "vector-clock-tick" (distributedAmount maybeAmount)
  return clock.set node (clock.ref node + delta)

end amounts

variable [Ring κ]

/-! ## Vector clocks -/

/-- What `vector-clock-compare` returns. -/
inductive Comparison where
  | before | after | equal | concurrent
deriving DecidableEq

namespace Counts

/-- `vector-clock-nodes`. -/
def nodes : Counts ν κ → List ν
  | [] => []
  | (node, _) :: clock => node :: nodes clock

/-- `vector-clock-node-union`. -/
def nodeUnion : List ν → List ν → List ν
  | a, [] => a
  | a, node :: b => if node ∈ a then nodeUnion a b else nodeUnion (node :: a) b

/-- `vector-clock-compare-nodes`. -/
def compareNodes : List ν → Counts ν κ → Counts ν κ → Bool → Bool → Comparison
  | [], _, _, sawLess, sawGreater =>
    if sawLess && sawGreater then .concurrent
    else if sawLess then .before
    else if sawGreater then .after
    else .equal
  | node :: nodes, a, b, sawLess, sawGreater =>
    let av := a.ref node
    let bv := b.ref node
    compareNodes nodes a b (sawLess || decide (av < bv)) (sawGreater || decide (bv < av))

/-- `vector-clock-compare`. -/
def compare (a b : Counts ν κ) : Comparison :=
  compareNodes (nodeUnion a.nodes b.nodes) a b false false

/-- `vector-clock-equal?`. -/
def isEqual (a b : Counts ν κ) : Bool := a.compare b == .equal

/-- `vector-clock-sum`. -/
def sum : Counts ν κ → κ
  | [] => 0
  | (_, count) :: clock => count + sum clock

/-- The clocks that ticks and merges build. -/
inductive Built : Counts ν κ → Prop where
  | empty : Built []
  | tick {clock clock' : Counts ν κ} {node : ν} {maybeAmount : List κ} :
    Built clock → clock.tick node maybeAmount = .ok clock' → Built clock'
  | merge {a b : Counts ν κ} : Built a → Built b → Built (a.merge b)

end Counts

/-! ## Counters -/

/-- `make-g-counter` and what becomes of it. -/
structure GCounter (ν κ : Type) where
  counts : Counts ν κ

namespace GCounter

/-- `make-g-counter`. -/
def make : GCounter ν κ := ⟨[]⟩

/-- `g-counter-inc`. -/
def inc (counter : GCounter ν κ) (node : ν) (maybeAmount : List κ) :
    Except SchemeError (GCounter ν κ) := do
  let delta ← requireNonnegative "g-counter-inc" (distributedAmount maybeAmount)
  let counts ← counter.counts.tick node [delta]
  return ⟨counts⟩

/-- `g-counter-value`. -/
def value (counter : GCounter ν κ) : κ := counter.counts.sum

/-- `g-counter-merge`. -/
def merge (a b : GCounter ν κ) : GCounter ν κ := ⟨a.counts.merge b.counts⟩

end GCounter

/-- `make-pn-counter` and what becomes of it. -/
structure PnCounter (ν κ : Type) where
  positive : GCounter ν κ
  negative : GCounter ν κ

namespace PnCounter

/-- `make-pn-counter`. -/
def make : PnCounter ν κ := ⟨.make, .make⟩

/-- `pn-counter-inc`. -/
def inc (counter : PnCounter ν κ) (node : ν) (maybeAmount : List κ) :
    Except SchemeError (PnCounter ν κ) := do
  let delta ← requireNonnegative "pn-counter-inc" (distributedAmount maybeAmount)
  let positive ← counter.positive.inc node [delta]
  return ⟨positive, counter.negative⟩

/-- `pn-counter-dec`. -/
def dec (counter : PnCounter ν κ) (node : ν) (maybeAmount : List κ) :
    Except SchemeError (PnCounter ν κ) := do
  let delta ← requireNonnegative "pn-counter-dec" (distributedAmount maybeAmount)
  let negative ← counter.negative.inc node [delta]
  return ⟨counter.positive, negative⟩

/-- `pn-counter-value`. -/
def value (counter : PnCounter ν κ) : κ := counter.positive.value - counter.negative.value

/-- `pn-counter-merge`. -/
def merge (a b : PnCounter ν κ) : PnCounter ν κ :=
  ⟨a.positive.merge b.positive, a.negative.merge b.negative⟩

end PnCounter

/-! ## What the operations do to the counts -/

lemma requireNonnegative_eq_ok {who : String} {amount delta : κ} :
    requireNonnegative who amount = .ok delta ↔ 0 ≤ amount ∧ delta = amount := by
  rw [requireNonnegative]
  split_ifs with h
  · simp [not_le.2 h]
  · rw [Except.ok.injEq, eq_comm]
    exact ⟨fun heq => ⟨not_lt.1 h, heq⟩, fun heq => heq.2⟩

namespace Counts

variable {clock a b : Counts ν κ} {node m : ν} {n : κ}

/-- No node has two entries, and no count is negative. -/
structure Sound (clock : Counts ν κ) : Prop where
  distinct : clock.Distinct
  nonneg : ∀ node, 0 ≤ clock.ref node

lemma Sound.set (h : clock.Sound) (hn : 0 ≤ n) : (clock.set node n).Sound where
  distinct := h.distinct.set
  nonneg m := by
    by_cases hm : m = node
    · rw [hm, ref_set_self]
      exact hn
    · rw [ref_set_of_ne hm]
      exact h.nonneg m

lemma sound_nil : Sound ([] : Counts ν κ) := ⟨List.nodup_nil, fun _ => le_rfl⟩

lemma Sound.ref_merge (ha : a.Sound) (hb : b.Sound) : (a.merge b).ref node = max (a.ref node) (b.ref node) :=
  Counts.ref_merge hb.distinct (ha.nonneg node)

lemma Sound.merge (ha : a.Sound) (hb : b.Sound) : (a.merge b).Sound where
  distinct := ha.distinct.merge
  nonneg node := by
    rw [ha.ref_merge hb]
    exact (ha.nonneg node).trans (le_max_left _ _)

lemma tick_eq_ok {maybeAmount : List κ} {clock' : Counts ν κ} :
    clock.tick node maybeAmount = .ok clock' ↔ 0 ≤ distributedAmount maybeAmount ∧
      clock' = clock.set node (clock.ref node + distributedAmount maybeAmount) := by
  rw [tick, bind_eq_ok]
  constructor
  · rintro ⟨delta, hdelta, hclock⟩
    obtain ⟨hnonneg, rfl⟩ := requireNonnegative_eq_ok.1 hdelta
    cases hclock
    exact ⟨hnonneg, rfl⟩
  · rintro ⟨hnonneg, rfl⟩
    exact ⟨_, requireNonnegative_eq_ok.2 ⟨hnonneg, rfl⟩, rfl⟩

lemma Sound.tick [IsStrictOrderedRing κ] (h : clock.Sound) {maybeAmount : List κ}
    {clock' : Counts ν κ} (htick : clock.tick node maybeAmount = .ok clock') : clock'.Sound := by
  obtain ⟨hnonneg, rfl⟩ := tick_eq_ok.1 htick
  exact h.set (add_nonneg (h.nonneg node) hnonneg)

/-- Clocks that ticks and merges build are sound. -/
lemma Built.sound [IsStrictOrderedRing κ] (h : clock.Built) : clock.Sound := by
  induction h with
  | empty => exact sound_nil
  | tick _ htick ih => exact ih.tick htick
  | merge _ _ iha ihb => exact iha.merge ihb

/-- A tick without an amount is one by one. -/
lemma tick_nil (clock : Clock ν) : Counts.tick clock node [] = .ok (Clock.tick clock node) := rfl

end Counts

end Distributed
