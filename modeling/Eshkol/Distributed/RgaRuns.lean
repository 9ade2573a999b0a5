import Eshkol.Base.Replication
import Eshkol.Distributed.RgaWalk

/-!
# Runs of sequence replicas

Replicas insert, append, delete and merge in any order. The entries of every state are the
insertions known to it, marked where a known deletion had observed them.
-/

namespace Distributed

open Replication

variable {ν α : Type}

/-- The local updates of a sequence. -/
inductive RgaUpdate (ν α : Type) where
  | insertAfter (prev : RgaId ν) (value : α)
  | append (value : α)
  | delete (id : RgaId ν)

/-- Replicas of a sequence, under their node names. An insertion is labelled with its entry, and a
received state is merged on either side. An append that does not return has no effect. -/
def rgaSystem (ν α : Type) [DecidableEq ν] [NodeName ν] :
    System ν (Rga ν α) (RgaUpdate ν α) (Option (RgaEntry ν α)) where
  init _ := Rga.make
  update node
    | .insertAfter prev value, rga => rga.insertAfter node prev value
    | .append value, rga => (rga.append node value).getD rga
    | .delete id, rga => rga.delete id
  label node
    | .insertAfter prev value, rga => some ⟨rga.nextId node, prev, value, false⟩
    | .append value, rga => rga.lastId.map fun last => ⟨rga.nextId node, last, value, false⟩
    | .delete _, _ => none
  absorbs s t u := u = s.merge t ∨ u = t.merge s

/-- The worlds of sequence replicas. -/
abbrev RgaWorld (ν α : Type) := World ν (Rga ν α) (RgaUpdate ν α) (Option (RgaEntry ν α))

/-- The operations of a run. -/
abbrev RgaLog (ν α : Type) := List (Operation ν (RgaUpdate ν α) (Option (RgaEntry ν α)))

/-- The operation at position `i` inserted `e`. -/
def InsertedAt (log : RgaLog ν α) (i : ℕ) (e : RgaEntry ν α) : Prop :=
  At log i fun o => o.label = some e

/-- The operation at position `m` deleted what had the identifier `id`. -/
def DeletedAt (log : RgaLog ν α) (m : ℕ) (id : RgaId ν) : Prop :=
  At log m fun o => o.update = .delete id

/-- Identifiers are issued once, by the node they name, and have positive counters. -/
structure IdsUnique (log : RgaLog ν α) : Prop where
  node : ∀ {i : ℕ} {o e}, log[i]? = some o → o.label = some e → e.id.1 = o.node
  issued : ∀ {i e}, InsertedAt log i e → 0 < e.id.2 ∧ e.deleted = false
  unique : ∀ {i j e e'}, InsertedAt log i e → InsertedAt log j e' → e.id = e'.id → i = j
  past : PastInLog log

lemma IdsUnique.entry {log : RgaLog ν α} (h : IdsUnique log) {i j : ℕ} {e e' : RgaEntry ν α}
    (hi : InsertedAt log i e) (hj : InsertedAt log j e') (hid : e.id = e'.id) : e = e' := by
  obtain rfl := h.unique hi hj hid
  obtain ⟨o, ho, he⟩ := hi
  obtain ⟨o', ho', he'⟩ := hj
  rw [ho] at ho'
  obtain rfl := Option.some.inj ho'
  exact Option.some.inj (he.symm.trans he')

/-- Among the operations at the positions `known` is a deletion of `id` that had observed its
insertion. -/
def KnownDeleted (log : RgaLog ν α) (known : Finset ℕ) (id : RgaId ν) : Prop :=
  ∃ m ∈ known, DeletedAt log m id ∧ ∃ i e, ObservedBy log i m ∧ InsertedAt log i e ∧ e.id = id

section log

variable {log : RgaLog ν α} {o : Operation ν (RgaUpdate ν α) (Option (RgaEntry ν α))}
  {id : RgaId ν}

lemma knownDeleted_concat (hpast : PastInLog log) {known : Finset ℕ}
    (hknown : ∀ i ∈ known, i < log.length) :
    KnownDeleted (log ++ [o]) known id ↔ KnownDeleted log known id := by
  refine exists_congr fun m => and_congr_right fun hm => and_congr (at_append (hknown m hm))
    (exists_congr fun i => exists_congr fun e => ?_)
  rw [ObservedBy, ObservedBy, at_append (hknown m hm)]
  exact and_congr_right fun hobserved => and_congr_left fun _ => at_append (hpast hobserved)

/-- An operation that deletes nothing adds no mark. -/
lemma knownDeleted_insert {n : ℕ} {known : Finset ℕ} (h : ∀ id, ¬ DeletedAt log n id) :
    KnownDeleted log (insert n known) id ↔ KnownDeleted log known id := by
  rw [KnownDeleted, Finset.exists_mem_insert, KnownDeleted]
  simp only [h, false_and, false_or]

end log

variable [DecidableEq ν]

/-- A state is what the known operations make of it. -/
structure RgaRepresents (log : RgaLog ν α) (s : Snapshot (Rga ν α)) : Prop where
  clock_distinct : s.state.clock.Distinct
  distinct : DistinctIds s.state.entries
  inserted : ∀ e, e ∈ s.state.entries.map RgaEntry.inserted ↔ ∃ i ∈ s.known, InsertedAt log i e
  tombstone : ∀ id, IsTombstone s.state.entries id ↔ KnownDeleted log s.known id
  clock : ∀ i ∈ s.known, ∀ e, InsertedAt log i e → e.id.2 ≤ s.state.clock.ref e.id.1

variable {log : RgaLog ν α} {s t : Snapshot (Rga ν α)}
  {o : Operation ν (RgaUpdate ν α) (Option (RgaEntry ν α))} {r : ν} {id : RgaId ν}

/-- Entries of two states with one identifier were inserted by one operation. -/
lemma RgaRepresents.agree (hlog : IdsUnique log) (hs : RgaRepresents log s)
    (ht : RgaRepresents log t) : ∀ e ∈ s.state.entries, ∀ e' ∈ t.state.entries, e.id = e'.id →
      e.inserted = e'.inserted := by
  intro e he e' he' hid
  obtain ⟨i, -, hi⟩ := (hs.inserted _).1 (List.mem_map_of_mem he)
  obtain ⟨j, -, hj⟩ := (ht.inserted _).1 (List.mem_map_of_mem he')
  exact hlog.entry hi hj hid

lemma RgaRepresents.mem_ids (h : RgaRepresents log s) : id ∈ s.state.entries.map RgaEntry.id ↔
    ∃ i ∈ s.known, ∃ e, InsertedAt log i e ∧ e.id = id := by
  constructor
  · intro hid
    obtain ⟨e, he, rfl⟩ := List.mem_map.1 hid
    obtain ⟨i, hi, hinserted⟩ := (h.inserted _).1 (List.mem_map_of_mem he)
    exact ⟨i, hi, _, hinserted, rfl⟩
  · rintro ⟨i, hi, e, hinserted, rfl⟩
    obtain ⟨e', he', rfl⟩ := List.mem_map.1 ((h.inserted e).2 ⟨i, hi, hinserted⟩)
    exact List.mem_map.2 ⟨e', he', rfl⟩

/-- Growing the log changes nothing for the states that do not know the new operation. -/
lemma RgaRepresents.grow (h : RgaRepresents log s) (hpast : PastInLog log)
    (hknown : ∀ i ∈ s.known, i < log.length) : RgaRepresents (log ++ [o]) s where
  clock_distinct := h.clock_distinct
  distinct := h.distinct
  inserted e := by
    rw [h.inserted]
    exact exists_congr fun i => and_congr_right fun hi => (at_append (hknown i hi)).symm
  tombstone id := by rw [h.tombstone, knownDeleted_concat hpast hknown]
  clock i hi e he := h.clock i hi e ((at_append (hknown i hi)).1 he)

/-- The identifier of the next insertion of a replica has not been issued. -/
lemma nextId_fresh (hlog : IdsUnique log) (h : RgaRepresents log s)
    (hcurrent : System.Current log r s) {i : ℕ} {e : RgaEntry ν α} (he : InsertedAt log i e) :
    e.id ≠ s.state.nextId r := by
  intro hid
  obtain ⟨o, ho, hlabel⟩ := he
  have hnode : o.node = r := (hlog.node ho hlabel).symm.trans (congrArg Prod.fst hid)
  have hle := h.clock i (hcurrent.own i o ho hnode) e ⟨o, ho, hlabel⟩
  rw [hid, Rga.nextId] at hle
  simp only [Clock.ref_tick_self] at hle
  omega

lemma nextId_notMem (hlog : IdsUnique log) (h : RgaRepresents log s)
    (hcurrent : System.Current log r s) :
    s.state.nextId r ∉ s.state.entries.map RgaEntry.id := by
  intro hmem
  obtain ⟨i, -, e, he, hid⟩ := h.mem_ids.1 hmem
  exact nextId_fresh hlog h hcurrent he hid

/-- States that know the same operations have the same entries. -/
lemma RgaRepresents.perm (hs : RgaRepresents log s) (ht : RgaRepresents log t)
    (hknown : s.known = t.known) : s.state.entries.Perm t.state.entries := by
  refine (List.perm_ext_iff_of_nodup hs.distinct.nodup ht.distinct.nodup).2 fun e => ?_
  rw [hs.distinct.mem_iff, ht.distinct.mem_iff, hs.inserted, ht.inserted, hs.tombstone,
    ht.tombstone, hknown]

/-! ## One step -/

/-- A merge has the insertions of both sides. -/
lemma RgaRepresents.mem_inserted_merge [NodeName ν] (hlog : IdsUnique log) (hs : RgaRepresents log s)
    (ht : RgaRepresents log t) (e : RgaEntry ν α) :
    e ∈ (s.state.merge t.state).entries.map RgaEntry.inserted ↔
      e ∈ s.state.entries.map RgaEntry.inserted ∨ e ∈ t.state.entries.map RgaEntry.inserted :=
  mem_inserted_mergeEntries (hs.agree hlog ht) (ht.agree hlog ht)

/-- A merged state is what the operations known on either side make of it. -/
lemma RgaRepresents.merge [NodeName ν] (hlog : IdsUnique log) (hs : RgaRepresents log s)
    (ht : RgaRepresents log t) : RgaRepresents log ⟨s.state.merge t.state, s.known ∪ t.known⟩ where
  clock_distinct := hs.clock_distinct.merge
  distinct := hs.distinct.mergeEntries
  inserted e := by
    rw [hs.mem_inserted_merge hlog ht, hs.inserted, ht.inserted]
    simp only [Finset.mem_union, or_and_right, exists_or]
  tombstone id := by
    show IsTombstone (rgaMergeEntries _ _) _ ↔ _
    rw [isTombstone_mergeEntries, hs.tombstone, ht.tombstone]
    simp only [KnownDeleted, Finset.mem_union, or_and_right, exists_or]
  clock i hi e he := by
    show _ ≤ (s.state.clock.merge t.state.clock).ref _
    rw [Clock.ref_merge ht.clock_distinct]
    rcases Finset.mem_union.1 hi with hi | hi
    · exact Nat.le_trans (hs.clock i hi e he) (Nat.le_max_left _ _)
    · exact Nat.le_trans (ht.clock i hi e he) (Nat.le_max_right _ _)

/-- Inserting keeps the state what the known operations make of it. -/
lemma RgaRepresents.insertAfter [NodeName ν] (hlog : IdsUnique log) (h : RgaRepresents log s)
    (hcurrent : System.Current log r s) (prev : RgaId ν) (value : α)
    (hlabel : o.label = some ⟨s.state.nextId r, prev, value, false⟩)
    (hupdate : ∀ id, o.update ≠ .delete id) :
    RgaRepresents (log ++ [o]) ⟨s.state.insertAfter r prev value, insert log.length s.known⟩ := by
  have hold := h.grow (o := o) hlog.past hcurrent.known_lt
  have hfresh := nextId_notMem hlog h hcurrent
  have hagree : ∀ e ∈ s.state.entries, e.id = s.state.nextId r →
      e.inserted = RgaEntry.inserted ⟨s.state.nextId r, prev, value, false⟩ :=
    fun e he hid => absurd (hid ▸ List.mem_map_of_mem he) hfresh
  refine ⟨h.clock_distinct.tick, h.distinct.entrySet, fun e => ?_, fun id => ?_, fun i hi e he => ?_⟩
  · show _ ∈ (rgaEntrySet _ _).map _ ↔ _
    rw [mem_inserted_entrySet hagree, hold.inserted, Finset.exists_mem_insert, or_comm]
    refine or_congr_left ?_
    rw [InsertedAt, at_last, hlabel, Option.some.injEq, eq_comm]
    rfl
  · show IsTombstone (rgaEntrySet _ _) _ ↔ _
    rw [isTombstone_entrySet, hold.tombstone,
      knownDeleted_insert fun id hdeleted => hupdate id (at_last.1 hdeleted)]
    simp
  · show e.id.2 ≤ (s.state.clock.tick r).ref e.id.1
    rcases Finset.mem_insert.1 hi with rfl | hi
    · obtain rfl := Option.some.inj (hlabel.symm.trans (at_last.1 he))
      exact Nat.le_refl _
    · exact Nat.le_trans (hold.clock i hi e he) Clock.le_ref_tick

/-- An operation that neither inserts nor deletes leaves the state what it was. -/
lemma RgaRepresents.keep (hlog : IdsUnique log) (h : RgaRepresents log s)
    (hcurrent : System.Current log r s) (hlabel : o.label = none)
    (hupdate : ∀ id, o.update ≠ .delete id) :
    RgaRepresents (log ++ [o]) ⟨s.state, insert log.length s.known⟩ := by
  have hold := h.grow (o := o) hlog.past hcurrent.known_lt
  have hnone : ∀ e, ¬ InsertedAt (log ++ [o]) log.length e := fun e he => by
    cases hlabel.symm.trans (at_last.1 he)
  refine ⟨h.clock_distinct, h.distinct, fun e => ?_, fun id => ?_, fun i hi e he => ?_⟩
  · rw [hold.inserted, Finset.exists_mem_insert]
    simp only [hnone, false_or]
  · rw [hold.tombstone, knownDeleted_insert fun id hdeleted => hupdate id (at_last.1 hdeleted)]
  · rcases Finset.mem_insert.1 hi with rfl | hi
    · exact absurd he (hnone e)
    · exact hold.clock i hi e he

/-- Deleting keeps the state what the known operations make of it. -/
lemma RgaRepresents.delete [NodeName ν] (hlog : IdsUnique log) (h : RgaRepresents log s)
    (hcurrent : System.Current log r s) (hlabel : o.label = none) (hupdate : o.update = .delete id)
    (hpast : o.past = s.known) :
    RgaRepresents (log ++ [o]) ⟨s.state.delete id, insert log.length s.known⟩ := by
  have hold := h.grow (o := o) hlog.past hcurrent.known_lt
  have hnone : ∀ e, ¬ InsertedAt (log ++ [o]) log.length e := fun e he => by
    cases hlabel.symm.trans (at_last.1 he)
  refine ⟨h.clock_distinct, ?_, fun e => ?_, fun x => ?_, fun i hi e he => ?_⟩
  · show ((rgaEntryDelete _ _).map _).Nodup
    rw [ids_entryDelete]
    exact h.distinct
  · show _ ∈ (rgaEntryDelete _ _).map _ ↔ _
    rw [inserted_entryDelete, hold.inserted, Finset.exists_mem_insert]
    simp only [hnone, false_or]
  · show IsTombstone (rgaEntryDelete _ _) _ ↔ _
    rw [isTombstone_entryDelete, hold.tombstone, hold.mem_ids, KnownDeleted, KnownDeleted,
      Finset.exists_mem_insert, or_comm]
    refine or_congr_left ?_
    rw [DeletedAt, at_last, hupdate, RgaUpdate.delete.injEq, eq_comm]
    refine and_congr_right fun hx => ?_
    subst hx
    simp only [ObservedBy, at_last, hpast]
    constructor
    · rintro ⟨i, hi, e, he⟩
      exact ⟨i, e, hi, he⟩
    · rintro ⟨i, e, hi, he⟩
      exact ⟨i, hi, e, he⟩
  · rcases Finset.mem_insert.1 hi with rfl | hi
    · exact absurd he (hnone e)
    · exact hold.clock i hi e he

variable [NodeName ν]

/-- Issuing an operation keeps the identifiers unique. -/
lemma IdsUnique.append (hlog : IdsUnique log) (h : RgaRepresents log s)
    (hcurrent : System.Current log r s) (u : RgaUpdate ν α) :
    IdsUnique (log ++ [(rgaSystem ν α).operation r u s]) := by
  have hnext : ∀ {e}, ((rgaSystem ν α).operation r u s).label = some e →
      e.id = s.state.nextId r ∧ e.deleted = false := by
    intro e hlabel
    cases u with
    | insertAfter prev value =>
      obtain rfl := Option.some.inj hlabel
      exact ⟨rfl, rfl⟩
    | append value =>
      obtain ⟨last, -, rfl⟩ := Option.map_eq_some_iff.1 hlabel
      exact ⟨rfl, rfl⟩
    | delete id => cases hlabel
  refine ⟨fun {i o e} ho hlabel => ?_, fun {i e} he => ?_, fun {i j e e'} hi hj hid => ?_,
    PastInLog.concat hlog.past hcurrent.known_lt⟩
  · rcases at_concat.1 ⟨o, ho, rfl⟩ with ⟨o', ho', rfl⟩ | ⟨-, rfl⟩
    · exact hlog.node ho' hlabel
    · exact congrArg Prod.fst (hnext hlabel).1
  · rcases at_concat.1 he with hold | ⟨-, hnew⟩
    · exact hlog.issued hold
    · obtain ⟨hid, hdeleted⟩ := hnext hnew
      refine ⟨?_, hdeleted⟩
      rw [hid, Rga.nextId, Clock.ref_tick_self]
      exact Nat.succ_pos _
  · rcases at_concat.1 hi with holdi | ⟨hi', hnewi⟩
    · rcases at_concat.1 hj with holdj | ⟨-, hnewj⟩
      · exact hlog.unique holdi holdj hid
      · exact absurd (hid.trans (hnext hnewj).1) (nextId_fresh hlog h hcurrent holdi)
    · rcases at_concat.1 hj with holdj | ⟨hj', -⟩
      · exact absurd (hid.symm.trans (hnext hnewi).1) (nextId_fresh hlog h hcurrent holdj)
      · exact hi'.trans hj'.symm

/-- In every reachable world, identifiers are unique and every state is what the operations known
to it make of it. -/
lemma rgaInvariants : (rgaSystem ν α).Invariants IdsUnique RgaRepresents where
  init_log := ⟨by simp, by simp [InsertedAt, At], by simp [InsertedAt, At],
    by simp [PastInLog, ObservedBy, At]⟩
  init _ := ⟨List.nodup_nil, List.nodup_nil, by simp [rgaSystem, Rga.make],
    by simp [rgaSystem, Rga.make, KnownDeleted], by simp⟩
  log u hlog h hcurrent := hlog.append h hcurrent u
  grow _ hlog _ h hknown := h.grow hlog.past hknown
  update {log r s} u hlog _ h hcurrent := by
    cases u with
    | insertAfter prev value =>
      exact h.insertAfter hlog hcurrent prev value rfl fun id hid => by cases hid
    | append value =>
      have hdelete : ∀ id, ((rgaSystem ν α).operation r (.append value) s).update ≠ .delete id :=
        fun id hid => by cases hid
      cases hlast : s.state.lastId with
      | none =>
        have hkeep := h.keep hlog hcurrent (o := (rgaSystem ν α).operation r (.append value) s)
          (by simp [System.operation, rgaSystem, hlast]) hdelete
        simpa [System.updated, rgaSystem, Rga.append, hlast] using hkeep
      | some last =>
        have hinsert := h.insertAfter hlog hcurrent last value
          (o := (rgaSystem ν α).operation r (.append value) s)
          (by simp [System.operation, rgaSystem, hlast]) hdelete
        simpa [System.updated, rgaSystem, Rga.append, hlast] using hinsert
    | delete id => exact h.delete hlog hcurrent rfl rfl rfl
  absorb hlog hs ht habsorb := by
    rcases habsorb with rfl | rfl
    · exact hs.merge hlog ht
    · rw [Finset.union_comm]
      exact ht.merge hlog hs

end Distributed
