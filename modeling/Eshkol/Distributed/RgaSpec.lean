import Eshkol.Distributed.Rga
import Mathlib.Data.Char
import Mathlib.Data.List.Lex
import Mathlib.Data.Prod.Lex

/-!
# What the operations on entries do

Of a list of entries matter the entries without their marks, which of them are marked as deleted,
and that no identifier occurs twice. Two lists with the same entries have the same walks as long as
the order of siblings is strict.
-/

namespace Distributed

open Scheme (Text)
open Forest

variable {ν α β : Type}

/-- An entry as it was inserted. -/
def RgaEntry.inserted (e : RgaEntry ν α) : RgaEntry ν α := { e with deleted := false }

/-- Some entry of the identifier is marked as deleted. -/
def IsTombstone (entries : List (RgaEntry ν α)) (id : RgaId ν) : Prop :=
  ∃ e ∈ entries, e.id = id ∧ e.deleted = true

@[simp]
lemma isTombstone_nil {id : RgaId ν} : ¬ IsTombstone ([] : List (RgaEntry ν α)) id := by
  simp [IsTombstone]

@[simp]
lemma isTombstone_cons {entries : List (RgaEntry ν α)} {e : RgaEntry ν α} {id : RgaId ν} :
    IsTombstone (e :: entries) id ↔ e.id = id ∧ e.deleted = true ∨ IsTombstone entries id := by
  simp only [IsTombstone, List.mem_cons, exists_eq_or_imp]

/-- No identifier occurs twice. -/
def DistinctIds (entries : List (RgaEntry ν α)) : Prop := (entries.map RgaEntry.id).Nodup

lemma DistinctIds.eq {entries : List (RgaEntry ν α)} (h : DistinctIds entries)
    {e e' : RgaEntry ν α} (he : e ∈ entries) (he' : e' ∈ entries) (hid : e.id = e'.id) : e = e' :=
  List.inj_on_of_nodup_map h he he' hid

lemma DistinctIds.nodup {entries : List (RgaEntry ν α)} (h : DistinctIds entries) :
    entries.Nodup := List.Nodup.of_map _ h

/-- An entry is its insertion and its mark. -/
lemma DistinctIds.mem_iff {entries : List (RgaEntry ν α)} (h : DistinctIds entries)
    {e : RgaEntry ν α} : e ∈ entries ↔
      e.inserted ∈ entries.map RgaEntry.inserted ∧ (e.deleted = true ↔ IsTombstone entries e.id) := by
  constructor
  · intro he
    refine ⟨List.mem_map_of_mem he, fun hdeleted => ⟨e, he, rfl, hdeleted⟩, ?_⟩
    rintro ⟨e', he', hid, hdeleted⟩
    rwa [h.eq he he' hid.symm]
  · rintro ⟨hinserted, hdeleted⟩
    obtain ⟨e', he', heq⟩ := List.mem_map.1 hinserted
    have hid : e'.id = e.id := congrArg (fun x => x.id) heq
    have hmark : e'.deleted = e.deleted := by
      rw [Bool.eq_iff_iff, hdeleted, ← hid]
      refine ⟨fun hmark => ⟨e', he', rfl, hmark⟩, ?_⟩
      rintro ⟨e'', he'', hid', hmark⟩
      rwa [h.eq he' he'' hid'.symm]
    obtain ⟨id, prev, value, deleted⟩ := e
    obtain ⟨id', prev', value', deleted'⟩ := e'
    simp only [RgaEntry.inserted, RgaEntry.mk.injEq] at heq hmark
    obtain ⟨rfl, rfl, rfl, -⟩ := heq
    rwa [← hmark]

section ids

variable [DecidableEq ν] {entries acc : List (RgaEntry ν α)} {e entry : RgaEntry ν α}
  {id x p : RgaId ν}

/-! ## Setting, deleting and merging entries -/

lemma mem_ids_entrySet : x ∈ (rgaEntrySet acc entry).map RgaEntry.id ↔
    x ∈ acc.map RgaEntry.id ∨ x = entry.id := by
  induction acc with
  | nil => simp [rgaEntrySet]
  | cons e acc ih =>
    by_cases h : e.id = entry.id
    · simp only [rgaEntrySet, h, if_true, List.map_cons, List.mem_cons, RgaEntry.merge]
      tauto
    · simp only [rgaEntrySet, h, if_false, List.map_cons, List.mem_cons, ih]
      tauto

lemma DistinctIds.entrySet (h : DistinctIds acc) : DistinctIds (rgaEntrySet acc entry) := by
  induction acc with
  | nil => simp [rgaEntrySet, DistinctIds]
  | cons e acc ih =>
    obtain ⟨hnot, hacc⟩ := List.nodup_cons.1 h
    by_cases heq : e.id = entry.id
    · simp only [rgaEntrySet, heq, if_true]
      exact List.nodup_cons.2 ⟨hnot, hacc⟩
    · simp only [rgaEntrySet, heq, if_false]
      refine List.nodup_cons.2 ⟨fun hmem => ?_, ih hacc⟩
      rcases mem_ids_entrySet.1 hmem with hmem | hmem
      · exact hnot hmem
      · exact heq hmem

/-- An entry of a new identifier goes to the end of the list. -/
lemma entrySet_of_notMem (h : entry.id ∉ acc.map RgaEntry.id) :
    rgaEntrySet acc entry = acc ++ [entry] := by
  induction acc with
  | nil => rfl
  | cons e acc ih =>
    simp only [List.map_cons, List.mem_cons, not_or] at h
    rw [rgaEntrySet, if_neg (Ne.symm h.1), ih h.2, List.cons_append]

/-- Setting an entry adds its insertion. -/
lemma mem_inserted_entrySet {f : RgaEntry ν α}
    (h : ∀ e ∈ acc, e.id = entry.id → e.inserted = entry.inserted) :
    f ∈ (rgaEntrySet acc entry).map RgaEntry.inserted ↔
      f ∈ acc.map RgaEntry.inserted ∨ f = entry.inserted := by
  induction acc with
  | nil => simp [rgaEntrySet]
  | cons e acc ih =>
    have hacc := ih fun e' he' => h e' (List.mem_cons_of_mem _ he')
    by_cases heq : e.id = entry.id
    · have hsame := h e List.mem_cons_self heq
      simp only [rgaEntrySet, heq, if_true, List.map_cons, List.mem_cons]
      rw [← hsame]
      show f = e.inserted ∨ _ ↔ _
      tauto
    · simp only [rgaEntrySet, heq, if_false, List.map_cons, List.mem_cons, hacc]
      tauto

/-- Setting an entry adds its mark. -/
lemma isTombstone_entrySet : IsTombstone (rgaEntrySet acc entry) id ↔
    IsTombstone acc id ∨ entry.id = id ∧ entry.deleted = true := by
  induction acc with
  | nil => simp [rgaEntrySet]
  | cons e acc ih =>
    by_cases heq : e.id = entry.id
    · simp only [rgaEntrySet, heq, if_true, isTombstone_cons, RgaEntry.merge, Bool.or_eq_true]
      tauto
    · simp only [rgaEntrySet, heq, if_false, isTombstone_cons, ih]
      tauto

@[simp]
lemma ids_entryDelete : (rgaEntryDelete entries id).map RgaEntry.id = entries.map RgaEntry.id := by
  induction entries with
  | nil => rfl
  | cons e entries ih =>
    rw [rgaEntryDelete]
    split
    · rfl
    · rw [List.map_cons, ih, List.map_cons]

@[simp]
lemma inserted_entryDelete :
    (rgaEntryDelete entries id).map RgaEntry.inserted = entries.map RgaEntry.inserted := by
  induction entries with
  | nil => rfl
  | cons e entries ih =>
    rw [rgaEntryDelete]
    split
    · rfl
    · rw [List.map_cons, ih, List.map_cons]

lemma isTombstone_entryDelete : IsTombstone (rgaEntryDelete entries id) x ↔
    IsTombstone entries x ∨ x = id ∧ id ∈ entries.map RgaEntry.id := by
  induction entries with
  | nil => simp [rgaEntryDelete]
  | cons e entries ih =>
    by_cases heq : e.id = id
    · subst heq
      simp only [rgaEntryDelete, if_true, isTombstone_cons, List.map_cons, List.mem_cons,
        true_or, and_true, eq_comm (a := x)]
      tauto
    · simp only [rgaEntryDelete, heq, if_false, isTombstone_cons, ih, List.map_cons, List.mem_cons,
        Ne.symm heq, false_or]
      tauto

lemma DistinctIds.mergeEntries (h : DistinctIds acc) :
    DistinctIds (rgaMergeEntries entries acc) := by
  induction entries generalizing acc with
  | nil => exact h
  | cons e entries ih => exact ih h.entrySet

/-- Merging keeps the insertions of both sides, which agree where they share an identifier. -/
lemma mem_inserted_mergeEntries {f : RgaEntry ν α}
    (h : ∀ e ∈ acc, ∀ e' ∈ entries, e.id = e'.id → e.inserted = e'.inserted)
    (hentries : ∀ e ∈ entries, ∀ e' ∈ entries, e.id = e'.id → e.inserted = e'.inserted) :
    f ∈ (rgaMergeEntries entries acc).map RgaEntry.inserted ↔
      f ∈ acc.map RgaEntry.inserted ∨ f ∈ entries.map RgaEntry.inserted := by
  induction entries generalizing acc with
  | nil => simp [rgaMergeEntries]
  | cons entry entries ih =>
    have hset : ∀ f, f ∈ (rgaEntrySet acc entry).map RgaEntry.inserted ↔
        f ∈ acc.map RgaEntry.inserted ∨ f = entry.inserted := fun f =>
      mem_inserted_entrySet fun e he => h e he entry List.mem_cons_self
    have hagree : ∀ e ∈ rgaEntrySet acc entry, ∀ e' ∈ entries, e.id = e'.id →
        e.inserted = e'.inserted := by
      intro e he e' he' hid
      rcases (hset e.inserted).1 (List.mem_map_of_mem he) with hold | hnew
      · obtain ⟨d, hd, hde⟩ := List.mem_map.1 hold
        have hdid : d.id = e.id := congrArg (fun x => x.id) hde
        rw [← hde]
        exact h d hd e' (List.mem_cons_of_mem _ he') (hdid.trans hid)
      · have hentry : entry.id = e.id := (congrArg (fun x => x.id) hnew).symm
        rw [hnew]
        exact hentries entry List.mem_cons_self e' (List.mem_cons_of_mem _ he') (hentry.trans hid)
    rw [rgaMergeEntries, ih hagree fun d hd d' hd' =>
      hentries d (List.mem_cons_of_mem _ hd) d' (List.mem_cons_of_mem _ hd'), hset, List.map_cons,
      List.mem_cons, or_assoc]

lemma isTombstone_mergeEntries : IsTombstone (rgaMergeEntries entries acc) id ↔
    IsTombstone acc id ∨ IsTombstone entries id := by
  induction entries generalizing acc with
  | nil => simp [rgaMergeEntries]
  | cons e entries ih =>
    rw [rgaMergeEntries, ih, isTombstone_entrySet, isTombstone_cons, or_assoc]

/-! ## Children -/

lemma children_eq_filter : rgaChildren entries p = entries.filter (·.prev = p) := by
  induction entries with
  | nil => rfl
  | cons e entries ih => by_cases h : e.prev = p <;> simp [rgaChildren, h, ih]

lemma mem_children : e ∈ rgaChildren entries p ↔ e ∈ entries ∧ e.prev = p := by
  rw [children_eq_filter, List.mem_filter, decide_eq_true_iff]

lemma mem_of_entryRef (h : rgaEntryRef entries x = some e) : e ∈ entries ∧ e.id = x := by
  induction entries with
  | nil => cases h
  | cons d entries ih =>
    rw [rgaEntryRef] at h
    split at h
    · next heq =>
      obtain rfl := Option.some.inj h
      exact ⟨List.mem_cons_self, heq⟩
    · exact ⟨List.mem_cons_of_mem _ (ih h).1, (ih h).2⟩

lemma entryRef_isSome (h : e ∈ entries) : ∃ d, rgaEntryRef entries e.id = some d := by
  induction entries with
  | nil => cases h
  | cons d entries ih =>
    rw [rgaEntryRef]
    split
    · exact ⟨d, rfl⟩
    · next hne =>
      rcases List.mem_cons.1 h with rfl | h
      · exact absurd rfl hne
      · exact ih h

lemma entryRef_eq_some (h : DistinctIds entries) :
    rgaEntryRef entries x = some e ↔ e ∈ entries ∧ e.id = x := by
  refine ⟨mem_of_entryRef, ?_⟩
  rintro ⟨he, rfl⟩
  obtain ⟨d, hd⟩ := entryRef_isSome he
  obtain ⟨hmem, hid⟩ := mem_of_entryRef hd
  rw [hd, h.eq hmem he hid]

/-! ## Parents -/

/-- The identifier that the entry of an identifier was inserted after. -/
def rgaParent (entries : List (RgaEntry ν α)) (id : RgaId ν) : Option (RgaId ν) :=
  (rgaEntryRef entries id).map RgaEntry.prev

lemma rgaParent_eq_some (h : DistinctIds entries) (he : e ∈ entries) :
    rgaParent entries e.id = some e.prev := by
  rw [rgaParent, (entryRef_eq_some h).2 ⟨he, rfl⟩, Option.map_some]

/-- An identifier that no entry has is a root. -/
lemma line_of_notMem (h : id ∉ entries.map RgaEntry.id) : Line (rgaParent entries) id [id] := by
  refine .root ?_
  rw [rgaParent, Option.map_eq_none_iff, ← Option.not_isSome_iff_eq_none, Option.isSome_iff_exists]
  rintro ⟨e, he⟩
  obtain ⟨hmem, rfl⟩ := mem_of_entryRef he
  exact h (List.mem_map_of_mem hmem)

/-- A node is below one identifier at most that no entry has. -/
lemma root_unique {p q : RgaId ν} (hp : p ∉ entries.map RgaEntry.id) (hq : q ∉ entries.map RgaEntry.id)
    (hbp : Below (rgaParent entries) id p) (hbq : Below (rgaParent entries) id q) : p = q := by
  rcases hbp.total hbq with hup | hup
  · exact (List.mem_singleton.1 ((line_of_notMem hp).mem_iff.2 hup)).symm
  · exact List.mem_singleton.1 ((line_of_notMem hq).mem_iff.2 hup)

end ids

end Distributed
