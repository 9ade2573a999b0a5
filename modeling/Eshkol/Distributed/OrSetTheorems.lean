import Eshkol.Distributed.OrSet

/-!
# Observed-remove semantics

In every run of replicas that add, remove and merge, a value is a member exactly when some known
add of it was observed by no known remove of it.
-/

namespace Distributed

open Replication

variable {ν α : Type*}

/-- The local updates of an observed-remove set. -/
inductive OrUpdate (α : Type*) where
  | add (value : α)
  | remove (value : α)

/-- Replicas of an observed-remove set, under their node names. An add is labelled with its
dot, and a received state is merged on either side. -/
def orSystem (ν α : Type*) [DecidableEq ν] [DecidableEq α] :
    System ν (OrSet ν α) (OrUpdate α) (Option (Dot ν)) where
  init _ := OrSet.make
  update node
    | .add value, set => set.add node value
    | .remove value, set => set.remove value
  label node
    | .add _, set => some (set.nextDot node)
    | .remove _, _ => none
  absorbs s t u := u = s.merge t ∨ u = t.merge s

/-- The operations of a run. -/
abbrev OrLog (ν α : Type*) := List (Operation ν (OrUpdate α) (Option (Dot ν)))

/-- The operation at position `i` added `value`, with a dot. -/
def AddedAt (log : OrLog ν α) (i : ℕ) (value : α) (dot : Dot ν) : Prop :=
  At log i fun o => o.update = .add value ∧ o.label = some dot

/-- The operation at position `i` added `value`. -/
def AddsAt (log : OrLog ν α) (i : ℕ) (value : α) : Prop := At log i fun o => o.update = .add value

/-- The operation at position `m` removed `value`. -/
def RemovedAt (log : OrLog ν α) (m : ℕ) (value : α) : Prop :=
  At log m fun o => o.update = .remove value

/-- Adds and only they have dots, which are unique and belong to the node that issued them, and
operations only observe earlier ones. -/
structure DotsUnique (log : OrLog ν α) : Prop where
  node : ∀ {i : ℕ} {o dot}, log[i]? = some o → o.label = some dot → dot.1 = o.node
  isAdd : ∀ {i dot}, (At log i fun o => o.label = some dot) → ∃ value, AddedAt log i value dot
  hasDot : ∀ {i value}, AddsAt log i value → ∃ dot, AddedAt log i value dot
  unique : ∀ {i j dot}, (At log i fun o => o.label = some dot) →
    (At log j fun o => o.label = some dot) → i = j
  past : PastInLog log

section Log

variable {log : OrLog ν α} {o : Operation ν (OrUpdate α) (Option (Dot ν))} {i m : ℕ} {value : α}
  {dot : Dot ν}

/-- Positions with one dot are one position, and it added one value. -/
lemma AddedAt.unique {j : ℕ} {x y : α} {dot : Dot ν} (hlog : DotsUnique log)
    (hi : AddedAt log i x dot) (hj : AddedAt log j y dot) : i = j ∧ x = y := by
  obtain ⟨o, ho, hx, hdot⟩ := hi
  obtain ⟨o', ho', hy, hdot'⟩ := hj
  obtain rfl := hlog.unique ⟨o, ho, hdot⟩ ⟨o', ho', hdot'⟩
  rw [ho] at ho'
  obtain rfl := Option.some.inj ho'
  rw [hx] at hy
  exact ⟨rfl, OrUpdate.add.inj hy⟩

end Log

variable [DecidableEq ν]

/-- A state is what the known operations make of it. -/
structure OrRepresents (log : OrLog ν α) (s : Snapshot (OrSet ν α)) : Prop where
  distinct : s.state.clock.Distinct
  adds : ∀ value dot, (value, dot) ∈ s.state.adds ↔ ∃ i ∈ s.known, AddedAt log i value dot
  removes : ∀ dot, dot ∈ s.state.removes ↔
    ∃ m ∈ s.known, ∃ value, RemovedAt log m value ∧
      ∃ i, ObservedBy log i m ∧ AddedAt log i value dot
  clock : ∀ i ∈ s.known, ∀ value dot, AddedAt log i value dot →
    dot.2 ≤ s.state.clock.ref dot.1

variable {log : OrLog ν α} {s t : Snapshot (OrSet ν α)}

/-- Growing the log changes nothing for the states that do not know the new operation. -/
lemma OrRepresents.grow (h : OrRepresents log s) (hlog : DotsUnique log)
    (hknown : ∀ i ∈ s.known, i < log.length)
    (o : Operation ν (OrUpdate α) (Option (Dot ν))) : OrRepresents (log ++ [o]) s where
  distinct := h.distinct
  adds value dot := by
    rw [h.adds]
    exact exists_congr fun i => and_congr_right fun hi => (at_append (hknown i hi)).symm
  removes dot := by
    rw [h.removes]
    refine exists_congr fun m => and_congr_right fun hm => exists_congr fun value =>
      and_congr (at_append (hknown m hm)).symm (exists_congr fun i => ?_)
    rw [ObservedBy, ObservedBy, at_append (hknown m hm)]
    exact and_congr_right fun hobs => (at_append (hlog.past hobs)).symm
  clock i hi value dot hadd := h.clock i hi value dot ((at_append (hknown i hi)).1 hadd)

/-- The dot of the next add of a replica is larger than every dot that it has issued. -/
lemma nextDot_fresh {r : ν} (hlog : DotsUnique log) (h : OrRepresents log s)
    (hcurrent : System.Current log r s) {i : ℕ} :
    ¬ At log i fun o => o.label = some (s.state.nextDot r) := by
  rintro ⟨o, ho, hlabel⟩
  have hnode : r = o.node := hlog.node ho hlabel
  obtain ⟨value, hadd⟩ := hlog.isAdd ⟨o, ho, hlabel⟩
  have hle := h.clock i (hcurrent.own i o ho hnode.symm) value _ hadd
  simp only [OrSet.nextDot, Clock.ref_tick_self] at hle
  omega

variable [DecidableEq α]

/-- A merged state is what the operations known on either side make of it. -/
lemma OrRepresents.merge (hs : OrRepresents log s) (ht : OrRepresents log t) :
    OrRepresents log ⟨s.state.merge t.state, s.known ∪ t.known⟩ where
  distinct := hs.distinct.merge
  adds value dot := by
    show _ ∈ listUnion _ _ ↔ _
    rw [mem_listUnion, hs.adds, ht.adds]
    simp only [Finset.mem_union, or_and_right, exists_or]
  removes dot := by
    show _ ∈ listUnion _ _ ↔ _
    rw [mem_listUnion, hs.removes, ht.removes]
    simp only [Finset.mem_union, or_and_right, exists_or]
  clock i hi value dot hadd := by
    show _ ≤ (s.state.clock.merge t.state.clock).ref _
    rw [Clock.ref_merge ht.distinct]
    rcases Finset.mem_union.1 hi with hi | hi
    · exact Nat.le_trans (hs.clock i hi value dot hadd) (Nat.le_max_left _ _)
    · exact Nat.le_trans (ht.clock i hi value dot hadd) (Nat.le_max_right _ _)

/-- Issuing an operation keeps the dots unique. -/
lemma DotsUnique.append {r : ν} (hlog : DotsUnique log) (h : OrRepresents log s)
    (hcurrent : System.Current log r s) (u : OrUpdate α) :
    DotsUnique (log ++ [(orSystem ν α).operation r u s]) where
  node {i o dot} ho hdot := by
    rcases at_concat.1 ⟨o, ho, rfl⟩ with ⟨o', ho', rfl⟩ | ⟨-, rfl⟩
    · exact hlog.node ho' hdot
    · cases u with
      | add value =>
        obtain rfl := Option.some.inj hdot
        rfl
      | remove value => cases hdot
  isAdd {i dot} hdot := by
    rcases at_concat.1 hdot with hold | ⟨rfl, hnew⟩
    · obtain ⟨value, hadd⟩ := hlog.isAdd hold
      exact ⟨value, hadd.concat⟩
    · cases u with
      | add value => exact ⟨value, at_last.2 ⟨rfl, hnew⟩⟩
      | remove value => cases hnew
  hasDot {i value} hadd := by
    rcases at_concat.1 hadd with hold | ⟨rfl, hnew⟩
    · obtain ⟨dot, hadd⟩ := hlog.hasDot hold
      exact ⟨dot, hadd.concat⟩
    · cases u with
      | add value => exact ⟨_, at_last.2 ⟨hnew, rfl⟩⟩
      | remove value => cases hnew
  unique {i j dot} hi hj := by
    have hnext : ((orSystem ν α).operation r u s).label = some dot → dot = s.state.nextDot r := by
      intro hlabel
      cases u with
      | add value => exact (Option.some.inj hlabel).symm
      | remove value => cases hlabel
    rcases at_concat.1 hi with holdi | ⟨hi', hnewi⟩
    · rcases at_concat.1 hj with holdj | ⟨-, hnewj⟩
      · exact hlog.unique holdi holdj
      · exact absurd (hnext hnewj ▸ holdi) (nextDot_fresh hlog h hcurrent)
    · rcases at_concat.1 hj with holdj | ⟨hj', -⟩
      · exact absurd (hnext hnewi ▸ holdj) (nextDot_fresh hlog h hcurrent)
      · exact hi'.trans hj'.symm
  past := PastInLog.concat hlog.past hcurrent.known_lt

/-- Adding keeps the state what the known operations make of it. -/
lemma OrRepresents.add {r : ν} (hlog : DotsUnique log) (h : OrRepresents log s)
    (hcurrent : System.Current log r s) (value : α) :
    OrRepresents (log ++ [(orSystem ν α).operation r (.add value) s])
      ((orSystem ν α).updated r (.add value) log.length s) := by
  have hold := h.grow hlog hcurrent.known_lt ((orSystem ν α).operation r (.add value) s)
  refine ⟨h.distinct.tick, fun x dot => ?_, fun dot => ?_, fun i hi x dot hadd => ?_⟩
  · show _ ∈ consUnique _ _ ↔ _
    rw [mem_consUnique, hold.adds, System.updated, Finset.exists_mem_insert]
    refine or_congr_left ?_
    rw [AddedAt, at_last]
    rw [Prod.mk.injEq]
    constructor
    · rintro ⟨rfl, rfl⟩
      exact ⟨rfl, rfl⟩
    · rintro ⟨hx, hd⟩
      exact ⟨(OrUpdate.add.inj hx).symm, (Option.some.inj hd).symm⟩
  · have hremove : ∀ x, ¬ RemovedAt (log ++ [(orSystem ν α).operation r (.add value) s])
        log.length x := fun x hx => by cases at_last.1 hx
    show dot ∈ s.state.removes ↔ _
    rw [hold.removes, System.updated, Finset.exists_mem_insert]
    simp only [hremove, false_and, exists_false, false_or]
  · show dot.2 ≤ (s.state.clock.tick r).ref dot.1
    rcases Finset.mem_insert.1 hi with rfl | hi
    · obtain ⟨-, hlabel⟩ := at_last.1 hadd
      obtain rfl := Option.some.inj hlabel
      exact Nat.le_refl _
    · exact Nat.le_trans (hold.clock i hi x dot hadd) Clock.le_ref_tick

/-- Removing keeps the state what the known operations make of it. -/
lemma OrRepresents.remove {r : ν} (hlog : DotsUnique log) (h : OrRepresents log s)
    (hcurrent : System.Current log r s) (value : α) :
    OrRepresents (log ++ [(orSystem ν α).operation r (.remove value) s])
      ((orSystem ν α).updated r (.remove value) log.length s) := by
  have hold := h.grow hlog hcurrent.known_lt ((orSystem ν α).operation r (.remove value) s)
  have hadd : ∀ x dot, ¬ AddedAt (log ++ [(orSystem ν α).operation r (.remove value) s])
      log.length x dot := fun x dot hx => by
    obtain ⟨hx, -⟩ := at_last.1 hx
    cases hx
  refine ⟨h.distinct, fun x dot => ?_, fun dot => ?_, fun i hi x dot hx => ?_⟩
  · show _ ∈ s.state.adds ↔ _
    rw [hold.adds, System.updated, Finset.exists_mem_insert]
    simp only [hadd, false_or]
  · show dot ∈ listUnion _ _ ↔ _
    rw [mem_listUnion, OrSet.mem_activeDotsFor, hold.adds, System.updated,
      Finset.exists_mem_insert, ← hold.removes]
    have hnew : (∃ x, RemovedAt (log ++ [(orSystem ν α).operation r (.remove value) s])
        log.length x ∧ ∃ i, ObservedBy (log ++ [(orSystem ν α).operation r (.remove value) s]) i
          log.length ∧ AddedAt (log ++ [(orSystem ν α).operation r (.remove value) s]) i x dot) ↔
        ∃ i ∈ s.known, AddedAt (log ++ [(orSystem ν α).operation r (.remove value) s]) i value
          dot := by
      simp only [RemovedAt, ObservedBy, at_last]
      constructor
      · rintro ⟨x, hx, i, hi, hadded⟩
        obtain rfl := OrUpdate.remove.inj hx
        exact ⟨i, hi, hadded⟩
      · rintro ⟨i, hi, hadded⟩
        exact ⟨value, rfl, i, hi, hadded⟩
    rw [hnew, or_comm]
    -- a dot that is removed already is removed either way
    by_cases hdot : dot ∈ s.state.removes
    · simp only [hdot, or_true]
    · simp only [hdot, not_false_eq_true, and_true]
  · rcases Finset.mem_insert.1 hi with rfl | hi
    · exact absurd hx (hadd x dot)
    · exact hold.clock i hi x dot hx

end Distributed
