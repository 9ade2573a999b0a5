import Eshkol.Distributed.LwwMap
import Mathlib.Data.Finset.Max

/-!
# The last write of a key

Replicas that set, remove and merge, under distinct writers whose timestamps increase. While no replica
writes what is older than the entry it has, an entry is that of the latest known operation on its key.
-/

namespace Distributed

open Replication
open Scheme (Text)

/-- The local updates of a map. -/
inductive LwwUpdate (V T : Type) where
  | set (key value : V) (timestamp : T)
  | remove (key : V) (timestamp : T)

namespace LwwUpdate

variable {V T : Type}

def key : LwwUpdate V T → V
  | .set key _ _ => key
  | .remove key _ => key

def timestamp : LwwUpdate V T → T
  | .set _ _ timestamp => timestamp
  | .remove _ timestamp => timestamp

/-- The value that the update leaves visible. -/
def visible : LwwUpdate V T → Option V
  | .set _ value _ => some value
  | .remove _ _ => none

/-- The register that a writer makes of an update. -/
def register [LwwValue V] (writer : V) : LwwUpdate V T → LwwRegister V T
  | .set _ value timestamp => .make value timestamp writer
  | .remove _ timestamp => (LwwRegister.make LwwValue.ofFalse timestamp writer).delete timestamp writer

end LwwUpdate

variable {V T : Type} [LwwValue V] [LinearOrder T] [DecidableEq V]

/-- A local update. -/
def LwwMap.apply (map : LwwMap V T) (writer : V) : LwwUpdate V T → LwwMap V T
  | .set key value timestamp => map.set key value timestamp writer
  | .remove key timestamp => map.remove key timestamp writer

omit [LinearOrder T] in
lemma LwwMap.apply_eq (map : LwwMap V T) (writer : V) (u : LwwUpdate V T) :
    map.apply writer u = ⟨lwwMapEntrySet map.entries u.key (u.register writer)⟩ := by
  cases u <;> rfl

/-- The update is later than the entry that it replaces. -/
def LwwMap.Advances (map : LwwMap V T) (writer : V) (u : LwwUpdate V T) : Prop :=
  ∀ r, lwwLookup map.entries u.key = some r → r.stamp < (u.register writer).stamp

/-- Replicas of a map, under the names that they write with. An operation is labelled with whether it is
later than the entry it replaces; a received state is merged on either side. -/
def lwwSystem (V T : Type) [LwwValue V] [LinearOrder T] [DecidableEq V] :
    System V (LwwMap V T) (LwwUpdate V T) Prop where
  init _ := LwwMap.make
  update writer u map := map.apply writer u
  label writer u map := map.Advances writer u
  absorbs s t u := u = s.merge t ∨ u = t.merge s

/-- The operations of a run. -/
abbrev LwwLog (V T : Type) := List (Operation V (LwwUpdate V T) Prop)

/-- The register of an operation. -/
def registerOf (o : Operation V (LwwUpdate V T) Prop) : LwwRegister V T := o.update.register o.node

/-- Writers have texts of their own, and the timestamps of a writer increase. -/
structure Timestamped (log : LwwLog V T) : Prop where
  writers : ∀ o ∈ log, ∀ o' ∈ log,
    LwwValue.distributedKey o.node = LwwValue.distributedKey o'.node → o.node = o'.node
  increasing : log.Pairwise fun o o' => o.node = o'.node → o.update.timestamp < o'.update.timestamp

/-- Every operation was later than the entry it replaced. -/
def Advancing (log : LwwLog V T) : Prop := ∀ o ∈ log, o.label

/-- The operation at position `i` is the latest known one on the key. -/
structure Latest (log : LwwLog V T) (known : Finset ℕ) (key : V) (i : ℕ)
    (o : Operation V (LwwUpdate V T) Prop) : Prop where
  mem : i ∈ known
  issued : log[i]? = some o
  key_eq : o.update.key = key
  greatest : ∀ j ∈ known, ∀ o', log[j]? = some o' → o'.update.key = key →
    (registerOf o').stamp ≤ (registerOf o).stamp

section log

variable {log : LwwLog V T} {o o' : Operation V (LwwUpdate V T) Prop} {known : Finset ℕ} {key : V} {i j : ℕ}

omit [LinearOrder T] [DecidableEq V] in
lemma stamp_registerOf (o : Operation V (LwwUpdate V T) Prop) :
    (registerOf o).stamp = toLex (o.update.timestamp, LwwValue.distributedKey o.node) := by
  rw [registerOf]
  cases o.update <;> rfl

omit [DecidableEq V] in
lemma Timestamped.init (h : Timestamped (log ++ [o])) : Timestamped log where
  writers p hp p' hp' := h.writers p (List.mem_append_left _ hp) p' (List.mem_append_left _ hp')
  increasing := (List.pairwise_append.1 h.increasing).1

omit [LwwValue V] [LinearOrder T] [DecidableEq V] in
lemma Advancing.init (h : Advancing (log ++ [o])) : Advancing log :=
  fun p hp => h p (List.mem_append_left _ hp)

omit [DecidableEq V] in
/-- Operations have different stamps. -/
lemma Timestamped.stamp_inj (h : Timestamped log) (hi : log[i]? = some o) (hj : log[j]? = some o')
    (hstamp : (registerOf o).stamp = (registerOf o').stamp) : i = j := by
  rw [stamp_registerOf, stamp_registerOf] at hstamp
  obtain ⟨htime, hwriter⟩ := Prod.mk.inj (toLex_inj.1 hstamp)
  have hnode := h.writers o (List.mem_of_getElem? hi) o' (List.mem_of_getElem? hj) hwriter
  obtain ⟨hi_lt, hi⟩ := List.getElem?_eq_some_iff.1 hi
  obtain ⟨hj_lt, hj⟩ := List.getElem?_eq_some_iff.1 hj
  rcases Nat.lt_trichotomy i j with hlt | heq | hlt
  · have hincreasing := List.pairwise_iff_getElem.1 h.increasing i j hi_lt hj_lt hlt
    rw [hi, hj] at hincreasing
    exact absurd htime (hincreasing hnode).ne
  · exact heq
  · have hincreasing := List.pairwise_iff_getElem.1 h.increasing j i hj_lt hi_lt hlt
    rw [hi, hj] at hincreasing
    exact absurd htime.symm (hincreasing hnode.symm).ne

omit [DecidableEq V] in
/-- Two operations of different writers. -/
lemma timestamped_pair (h : LwwValue.distributedKey o.node ≠ LwwValue.distributedKey o'.node) :
    Timestamped [o, o'] where
  writers p hp q hq hkey := by
    simp only [List.mem_cons, List.not_mem_nil, or_false] at hp hq
    rcases hp with rfl | rfl <;> rcases hq with rfl | rfl
    · rfl
    · exact absurd hkey h
    · exact absurd hkey.symm h
    · rfl
  increasing := by
    refine List.pairwise_pair.2 fun hnode => absurd ?_ h
    rw [hnode]

omit [DecidableEq V] in
/-- Only one operation on a key is the latest. -/
lemma Latest.unique (h : Timestamped log) (hi : Latest log known key i o) (hj : Latest log known key j o') :
    o = o' := by
  have hstamp := le_antisymm (hj.greatest i hi.mem o hi.issued hi.key_eq)
    (hi.greatest j hj.mem o' hj.issued hj.key_eq)
  have hij := h.stamp_inj hi.issued hj.issued hstamp
  exact Option.some.inj (hi.issued.symm.trans (hij ▸ hj.issued))

omit [LwwValue V] [LinearOrder T] [DecidableEq V] in
lemma getElem?_known {n : ℕ} (hknown : ∀ i ∈ known, i < log.length) (hn : n ∈ known) :
    (log ++ [o])[n]? = log[n]? := List.getElem?_append_left (hknown n hn)

end log

/-! ## Entries -/

/-- The entry of a key is that of the latest known operation, or there is none. -/
structure EntryOf (log : LwwLog V T) (known : Finset ℕ) (key : V) (entry : Option (LwwRegister V T)) :
    Prop where
  absent : entry = none → ∀ i ∈ known, ∀ o, log[i]? = some o → o.update.key ≠ key
  latest : ∀ r, entry = some r → ∃ i o, Latest log known key i o ∧ r = registerOf o

/-- A map holds the entries of the operations that are known to it. -/
structure LwwRepresents (log : LwwLog V T) (s : Snapshot (LwwMap V T)) : Prop where
  distinct : (s.state.entries.map Prod.fst).Nodup
  entry : ∀ key, EntryOf log s.known key (lwwLookup s.state.entries key)

section entries

variable {log : LwwLog V T} {o : Operation V (LwwUpdate V T) Prop} {known known' : Finset ℕ} {key : V}
  {a b : Option (LwwRegister V T)} {s t : Snapshot (LwwMap V T)}

omit [DecidableEq V] in
lemma Latest.entryOf {i : ℕ} (h : Latest log known key i o) :
    EntryOf log known key (some (registerOf o)) where
  absent ha := by cases ha
  latest _ hr := ⟨i, o, h, (Option.some.inj hr).symm⟩

omit [DecidableEq V] in
/-- An operation that is not known changes nothing. -/
lemma EntryOf.grow (h : EntryOf log known key a) (hknown : ∀ i ∈ known, i < log.length) :
    EntryOf (log ++ [o]) known key a where
  absent ha i hi p hp := h.absent ha i hi p (getElem?_known hknown hi ▸ hp)
  latest r hr := by
    obtain ⟨i, p, hp, rfl⟩ := h.latest r hr
    refine ⟨i, p, ⟨hp.mem, (getElem?_known hknown hp.mem).trans hp.issued, hp.key_eq, ?_⟩, rfl⟩
    intro j hj q hq hkey
    exact hp.greatest j hj q (getElem?_known hknown hj ▸ hq) hkey

omit [DecidableEq V] in
/-- An operation on another key changes nothing. -/
lemma EntryOf.other (h : EntryOf (log ++ [o]) known key a) (hkey : o.update.key ≠ key) :
    EntryOf (log ++ [o]) (insert log.length known) key a where
  absent ha i hi p hp := by
    rcases Finset.mem_insert.1 hi with rfl | hi
    · rw [List.getElem?_concat_length] at hp
      exact Option.some.inj hp ▸ hkey
    · exact h.absent ha i hi p hp
  latest r hr := by
    obtain ⟨i, p, hp, rfl⟩ := h.latest r hr
    refine ⟨i, p, ⟨Finset.mem_insert_of_mem hp.mem, hp.issued, hp.key_eq, ?_⟩, rfl⟩
    intro j hj q hq hq_key
    rcases Finset.mem_insert.1 hj with rfl | hj
    · rw [List.getElem?_concat_length] at hq
      exact absurd (Option.some.inj hq ▸ hq_key) hkey
    · exact hp.greatest j hj q hq hq_key

omit [DecidableEq V] in
/-- An operation that is later than the entry takes its place. -/
lemma EntryOf.advance (h : EntryOf (log ++ [o]) known o.update.key a)
    (hlater : ∀ r, a = some r → r.stamp < (registerOf o).stamp) :
    EntryOf (log ++ [o]) (insert log.length known) o.update.key (some (registerOf o)) := by
  have hlatest : Latest (log ++ [o]) (insert log.length known) o.update.key log.length o := by
    refine ⟨Finset.mem_insert_self _ _, List.getElem?_concat_length, rfl, fun j hj q hq hq_key => ?_⟩
    rcases Finset.mem_insert.1 hj with rfl | hj
    · rw [List.getElem?_concat_length] at hq
      rw [Option.some.inj hq]
    · cases a with
      | none => exact absurd hq_key (h.absent rfl j hj q hq)
      | some r' =>
        obtain ⟨i, p, hp, rfl⟩ := h.latest r' rfl
        exact (hp.greatest j hj q hq hq_key).trans (hlater _ rfl).le
  exact hlatest.entryOf

omit [DecidableEq V] in
/-- The newer of two entries is that of the operations known on either side. -/
lemma EntryOf.merge (hlog : Timestamped log) (ha : EntryOf log known key a) (hb : EntryOf log known' key b) :
    EntryOf log (known ∪ known') key (mergeLookup a b) := by
  have hunion : ∀ {k k' : Finset ℕ} {i p}, Latest log k key i p →
      (∀ j ∈ k', ∀ q, log[j]? = some q → q.update.key = key → (registerOf q).stamp ≤ (registerOf p).stamp) →
      i ∈ known ∪ known' → known ∪ known' ⊆ k ∪ k' → Latest log (known ∪ known') key i p := by
    intro k k' i p hp hother hi hsub
    refine ⟨hi, hp.issued, hp.key_eq, fun j hj q hq hkey => ?_⟩
    rcases Finset.mem_union.1 (hsub hj) with hj | hj
    · exact hp.greatest j hj q hq hkey
    · exact hother j hj q hq hkey
  have hswap : known ∪ known' ⊆ known' ∪ known := (Finset.union_comm known known').subset
  cases a with
  | none =>
    cases b with
    | none =>
      refine ⟨fun _ i hi => ?_, fun r hr => absurd hr (by simp [mergeLookup])⟩
      rcases Finset.mem_union.1 hi with hi | hi
      · exact ha.absent rfl i hi
      · exact hb.absent rfl i hi
    | some rb =>
      obtain ⟨i, p, hp, rfl⟩ := hb.latest rb rfl
      exact (hunion hp (fun j hj q hq hkey => absurd hkey (ha.absent rfl j hj q hq))
        (Finset.mem_union_right _ hp.mem) hswap).entryOf
  | some ra =>
    obtain ⟨i, p, hp, rfl⟩ := ha.latest ra rfl
    cases b with
    | none =>
      exact (hunion hp (fun j hj q hq hkey => absurd hkey (hb.absent rfl j hj q hq))
        (Finset.mem_union_left _ hp.mem) (Finset.Subset.refl _)).entryOf
    | some rb =>
      obtain ⟨j, q, hq, rfl⟩ := hb.latest rb rfl
      have hleft : (registerOf q).stamp ≤ (registerOf p).stamp → Latest log (known ∪ known') key i p := fun hle =>
        hunion hp (fun j' hj' q' hq' hkey => (hq.greatest j' hj' q' hq' hkey).trans hle)
          (Finset.mem_union_left _ hp.mem) (Finset.Subset.refl _)
      have hright : (registerOf p).stamp ≤ (registerOf q).stamp → Latest log (known ∪ known') key j q := fun hle =>
        hunion hq (fun j' hj' q' hq' hkey => (hp.greatest j' hj' q' hq' hkey).trans hle)
          (Finset.mem_union_right _ hq.mem) hswap
      rw [mergeLookup, LwwRegister.merge]
      by_cases hstamp : (registerOf q).stamp = (registerOf p).stamp
      · -- both are the same operation
        have hij := hlog.stamp_inj hq.issued hp.issued hstamp
        have hqp : q = p := Option.some.inj (hq.issued.symm.trans (hij ▸ hp.issued))
        rw [hqp, ite_self]
        exact (hleft hstamp.le).entryOf
      · by_cases hnewer : (registerOf q).newer (registerOf p) = true
        · rw [if_pos hnewer]
          exact (hright ((LwwRegister.newer_iff hstamp).1 hnewer).le).entryOf
        · rw [if_neg hnewer]
          rw [LwwRegister.newer_iff hstamp, not_lt] at hnewer
          exact (hleft hnewer).entryOf

end entries

/-! ## Runs -/

section runs

variable {log : LwwLog V T} {s t : Snapshot (LwwMap V T)} {w : World V (LwwMap V T) (LwwUpdate V T) Prop}

lemma LwwRepresents.merge (hlog : Timestamped log) (hs : LwwRepresents log s) (ht : LwwRepresents log t) :
    LwwRepresents log ⟨s.state.merge t.state, s.known ∪ t.known⟩ where
  distinct := nodup_keys_mergeEntries t.state.entries hs.distinct
  entry key := by
    show EntryOf log _ key (lwwLookup (lwwMapMergeEntries t.state.entries s.state.entries) key)
    rw [lwwLookup_mergeEntries ht.distinct]
    exact (hs.entry key).merge hlog (ht.entry key)

/-- In the runs under consideration every snapshot holds the entries of the operations known to it. -/
lemma lwwInvariants : System.Invariants (lwwSystem V T) (fun _ => True)
    fun log s => Timestamped log → Advancing log → LwwRepresents log s where
  init_log := trivial
  init r _ _ := by
    refine ⟨List.nodup_nil, fun key => ⟨fun _ i hi => ?_, fun r hr => ?_⟩⟩
    · cases Finset.notMem_empty i hi
    · cases hr
  log _ _ _ _ := trivial
  grow o _ _ h hknown htime hadvancing := by
    have hs := h htime.init hadvancing.init
    exact ⟨hs.distinct, fun key => (hs.entry key).grow hknown⟩
  update {log r s} u _ _ h hcurrent htime hadvancing := by
    have hs := h htime.init hadvancing.init
    have hgrown : ∀ key, EntryOf (log ++ [(lwwSystem V T).operation r u s]) s.known key
        (lwwLookup s.state.entries key) := fun key => (hs.entry key).grow hcurrent.known_lt
    have hadvances : s.state.Advances r u :=
      hadvancing ((lwwSystem V T).operation r u s) (List.mem_append_right _ (List.mem_singleton_self _))
    refine ⟨?_, fun key => ?_⟩
    · show ((s.state.apply r u).entries.map Prod.fst).Nodup
      rw [LwwMap.apply_eq]
      exact nodup_keys_set hs.distinct _ _
    · show EntryOf _ _ key (lwwLookup (s.state.apply r u).entries key)
      rw [LwwMap.apply_eq, lwwLookup_set]
      by_cases hkey : key = u.key
      · rw [if_pos hkey, hkey]
        exact (hgrown u.key).advance hadvances
      · rw [if_neg hkey]
        exact (hgrown key).other (Ne.symm hkey)
  absorb _ hs ht habsorb htime hadvancing := by
    rcases habsorb with rfl | rfl
    · exact (hs htime hadvancing).merge htime (ht htime hadvancing)
    · rw [Finset.union_comm]
      exact (ht htime hadvancing).merge htime (hs htime hadvancing)

/-- What a snapshot of a run shows of a key: what the latest known operation on it wrote, or nothing; and
the same as any other that knows the same operations. -/
structure LwwSound (w : World V (LwwMap V T) (LwwUpdate V T) Prop) : Prop where
  latest : ∀ s, w.Has s → ∀ key i o, Latest w.log s.known key i o →
    (∀ default, s.state.ref key default = o.update.visible.getD default) ∧
      s.state.contains key = o.update.visible.isSome
  absent : ∀ s, w.Has s → ∀ key, (∀ i ∈ s.known, ∀ o, w.log[i]? = some o → o.update.key ≠ key) →
    (∀ default, s.state.ref key default = default) ∧ s.state.contains key = false
  exists_latest : ∀ s, w.Has s → ∀ i ∈ s.known, ∀ o, w.log[i]? = some o →
    ∃ j p, Latest w.log s.known o.update.key j p
  agree : ∀ s t, w.Has s → w.Has t → s.known = t.known → ∀ key,
    (∀ default, s.state.ref key default = t.state.ref key default) ∧
      s.state.contains key = t.state.contains key

/-- A key shows its latest known write. -/
lemma LwwRepresents.lookup_of_latest (hlog : Timestamped log) (h : LwwRepresents log s) {key : V} {i : ℕ}
    {o : Operation V (LwwUpdate V T) Prop} (ho : Latest log s.known key i o) :
    lwwLookup s.state.entries key = some (registerOf o) := by
  cases hentry : lwwLookup s.state.entries key with
  | none => exact absurd ho.key_eq ((h.entry key).absent hentry i ho.mem o ho.issued)
  | some r =>
    obtain ⟨j, p, hp, rfl⟩ := (h.entry key).latest r hentry
    rw [hp.unique hlog ho]

/-- A key without a known write has no register. -/
lemma LwwRepresents.lookup_of_absent (h : LwwRepresents log s) {key : V}
    (hkey : ∀ i ∈ s.known, ∀ o, log[i]? = some o → o.update.key ≠ key) :
    lwwLookup s.state.entries key = none := by
  cases hentry : lwwLookup s.state.entries key with
  | none => rfl
  | some r =>
    obtain ⟨j, p, hp, rfl⟩ := (h.entry key).latest r hentry
    exact absurd hp.key_eq (hkey j hp.mem p hp.issued)

/-- Replicas that know the same operations have the same entries. -/
lemma LwwRepresents.lookup_eq (hlog : Timestamped log) (hs : LwwRepresents log s) (ht : LwwRepresents log t)
    (hknown : s.known = t.known) (key : V) :
    lwwLookup s.state.entries key = lwwLookup t.state.entries key := by
  cases hentry : lwwLookup t.state.entries key with
  | none => exact hs.lookup_of_absent (hknown ▸ (ht.entry key).absent hentry)
  | some r =>
    obtain ⟨i, o, ho, rfl⟩ := (ht.entry key).latest r hentry
    exact hs.lookup_of_latest hlog (hknown ▸ ho)

theorem lwwSound_of_advancing (h : (lwwSystem V T).Reachable w) (htime : Timestamped w.log)
    (hadvancing : Advancing w.log) : LwwSound w := by
  obtain ⟨-, hall⟩ := lwwInvariants.reachable h
  have hrep : ∀ s, w.Has s → LwwRepresents w.log s := fun s hs => hall.of_has hs htime hadvancing
  refine ⟨fun s hs key i o ho => ?_, fun s hs key hkey => ?_, fun s hs i hi o ho => ?_,
    fun s t hs ht hknown key => ?_⟩
  · have hentry := (hrep s hs).lookup_of_latest htime ho
    rw [LwwMap.contains_eq, hentry]
    refine ⟨fun default => ?_, ?_⟩
    · rw [LwwMap.ref_eq, hentry, registerOf]
      cases o.update <;> rfl
    · rw [registerOf]
      cases o.update <;> rfl
  · have hentry := (hrep s hs).lookup_of_absent hkey
    rw [LwwMap.contains_eq, hentry]
    refine ⟨fun default => ?_, rfl⟩
    rw [LwwMap.ref_eq, hentry]
    rfl
  · cases hentry : lwwLookup s.state.entries o.update.key with
    | none => exact absurd rfl (((hrep s hs).entry o.update.key).absent hentry i hi o ho)
    | some r =>
      obtain ⟨j, p, hp, -⟩ := ((hrep s hs).entry o.update.key).latest r hentry
      exact ⟨j, p, hp⟩
  · have hentry := (hrep s hs).lookup_eq htime (hrep t ht) hknown key
    refine ⟨fun default => ?_, ?_⟩
    · rw [LwwMap.ref_eq, LwwMap.ref_eq, hentry]
    · rw [LwwMap.contains_eq, LwwMap.contains_eq, hentry]

end runs

/-! ## Two runs -/

/-- Values whose doubles are their texts. -/
abbrev WrittenValue := Scheme.Datum Scheme.WrittenDouble

/-- `b` writes after it has merged what `a` wrote, and `a` merges that. -/
theorem lwwSound_of_advancing_handover :
    ∃ w : World WrittenValue (LwwMap WrittenValue ℕ) (LwwUpdate WrittenValue ℕ) Prop,
      (w.replica (.symbol ['a'])).state.ref .null .null = .integer 2 ∧ LwwSound w := by
  have hset := (System.Reachable.init (S := lwwSystem WrittenValue ℕ)).step
    (.update (.symbol ['a']) (.set .null (.integer 1) 1))
  have hsecond := (hset.step (.absorb (.symbol ['b']) List.mem_cons_self (.inl rfl))).step
    (.update (.symbol ['b']) (.set .null (.integer 2) 2))
  have hrun := hsecond.step (.absorb (.symbol ['a']) List.mem_cons_self (.inl rfl))
  refine ⟨_, by decide, lwwSound_of_advancing hrun (timestamped_pair (by decide)) ?_⟩
  intro o ho
  rcases List.mem_append.1 ho with ho | ho
  · rw [List.mem_singleton.1 ho]
    intro r hr
    cases hr
  · rw [List.mem_singleton.1 ho]
    intro r hr
    rw [← Option.some.inj hr]
    decide

/-- `b` merges the write of `a` at 10 and then writes at 5; `a` merges that. Both know the two writes, `a`
has its own and `b` the other. -/
theorem not_lwwSound_older :
    ∃ w : World WrittenValue (LwwMap WrittenValue ℕ) (LwwUpdate WrittenValue ℕ) Prop,
      (lwwSystem WrittenValue ℕ).Reachable w ∧ Timestamped w.log ∧ ¬ LwwSound w := by
  have hset := (System.Reachable.init (S := lwwSystem WrittenValue ℕ)).step
    (.update (.symbol ['a']) (.set .null (.integer 1) 10))
  have hsecond := (hset.step (.absorb (.symbol ['b']) List.mem_cons_self (.inl rfl))).step
    (.update (.symbol ['b']) (.set .null (.integer 2) 5))
  have hrun := hsecond.step (.absorb (.symbol ['a']) List.mem_cons_self (.inl rfl))
  refine ⟨_, hrun, timestamped_pair (by decide), fun hsound => ?_⟩
  have hagree := (hsound.agree _ _ (.inl ⟨.symbol ['a'], rfl⟩) (.inl ⟨.symbol ['b'], rfl⟩) (by decide) .null).1
    .null
  exact absurd hagree (by decide)

end Distributed
