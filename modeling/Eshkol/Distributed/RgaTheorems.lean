import Eshkol.Distributed.RgaRuns

/-!
# Convergence of the sequence

What a state shows depends on the operations known to it only, as long as siblings do not tie.
Merging keeps what is shown and not deleted, deletions are final, and an append comes at the end
unless something was inserted beforehand after the identifier that the append is about to issue.
-/

namespace Distributed

open Replication
open Forest

variable {ν α : Type} [DecidableEq ν] [NodeName ν]

/-- An entry as an element. -/
def RgaEntry.element (e : RgaEntry ν α) : RgaId ν × α := (e.id, e.value)

/-- No two insertions after one identifier have equal counters and nodes with the same text. -/
def TieFree (log : RgaLog ν α) : Prop :=
  ∀ {i j e e'}, InsertedAt log i e → InsertedAt log j e' → e.prev = e'.prev → e.id.2 = e'.id.2 →
    NodeName.distributedKey e.id.1 = NodeName.distributedKey e'.id.1 → e.id = e'.id

variable {log : RgaLog ν α} {s t : Snapshot (Rga ν α)} {rga : Rga ν α} {id : RgaId ν}
  {entries l : List (RgaEntry ν α)} {xs : List (RgaId ν × α)}

/-- An append inserts after the last element shown, or at the root. -/
lemma Rga.append_eq {nodes : List (RgaEntry ν α)} (r : ν) (value : α)
    (hnodes : visibleFrom rga.entries rgaRootId = some nodes) : rga.append r value =
      some (rga.insertAfter r ((nodes.map RgaEntry.id).getLast?.getD rgaRootId) value) := by
  rw [Rga.append, Rga.lastId, Rga.ids, rgaIdsFrom, rgaReadFrom_eq, hnodes]
  rfl

lemma RgaRepresents.root_notMem (hlog : IdsUnique log) (h : RgaRepresents log s) :
    rgaRootId ∉ s.state.entries.map RgaEntry.id := by
  intro hmem
  obtain ⟨i, -, e, he, hid⟩ := h.mem_ids.1 hmem
  have hpos := (hlog.issued he).1
  rw [hid] at hpos
  exact Nat.lt_irrefl 0 hpos

/-- What is shown stays below the root in a list with more insertions. -/
lemma below_mono (h : DistinctIds entries) (hl : DistinctIds l)
    (hsub : ∀ e ∈ entries.map RgaEntry.inserted, e ∈ l.map RgaEntry.inserted) {p q : RgaId ν}
    (hbelow : Below (rgaParent entries) p q) : Below (rgaParent l) p q := by
  refine Relation.ReflTransGen.mono (fun x y hxy => ?_) p q hbelow
  obtain ⟨e, he, rfl⟩ := h.linked.parent_eq_some.1 hxy
  obtain ⟨hmem, rfl⟩ := mem_sortedChildren.1 he
  obtain ⟨e', he', heq⟩ := List.mem_map.1 (hsub _ (List.mem_map_of_mem hmem))
  have hid : e'.id = e.id := congrArg (fun x => x.id) heq
  have hprev : e'.prev = e.prev := congrArg (fun x => x.prev) heq
  rw [← hid, ← hprev]
  exact rgaParent_eq_some hl he'

/-- States that know the same operations show the same if no siblings tie. -/
lemma RgaRepresents.values_eq (htie : TieFree log) (hs : RgaRepresents log s)
    (ht : RgaRepresents log t) (hknown : s.known = t.known) : s.state.values = t.state.values := by
  rw [Rga.values, Rga.values, rgaValuesFrom, rgaValuesFrom, rgaReadFrom_eq, rgaReadFrom_eq,
    visibleFrom_eq_of_perm (hs.perm ht hknown) fun a ha b hb hprev hrank => ?_]
  obtain ⟨i, -, hi⟩ := (hs.inserted _).1 (List.mem_map_of_mem ha)
  obtain ⟨j, -, hj⟩ := (hs.inserted _).1 (List.mem_map_of_mem hb)
  obtain ⟨hcounter, hkey⟩ := Prod.mk.inj (toLex.injective hrank)
  have hid : a.inserted.id = b.inserted.id := htie hi hj hprev hcounter hkey
  exact hs.distinct.eq ha hb hid

lemma Rga.nextId_ne_root (rga : Rga ν α) (node : ν) : rga.nextId node ≠ rgaRootId := by
  intro heq
  have hcounter := congrArg Prod.snd heq
  rw [Rga.nextId, Clock.ref_tick_self] at hcounter
  exact Nat.succ_ne_zero _ hcounter

variable {w : RgaWorld ν α}

/-- What a node has appended to a sequence of its own. -/
structure Rga.AppendedBy (rga : Rga ν α) (node : ν) (values : List α) : Prop where
  distinct : DistinctIds rga.entries
  issued : ∀ e ∈ rga.entries, e.id.1 = node ∧ 0 < e.id.2 ∧ e.id.2 ≤ rga.clock.ref node
  attached : ∀ e ∈ rga.entries, e.prev = rgaRootId ∨ e.prev ∈ rga.entries.map RgaEntry.id
  shown : ∃ nodes, visibleFrom rga.entries rgaRootId = some nodes ∧ nodes.map RgaEntry.value = values

namespace Rga.AppendedBy

variable {node : ν} {values : List α}

lemma make (node : ν) : (Rga.make : Rga ν α).AppendedBy node [] where
  distinct := List.nodup_nil
  issued := by simp [Rga.make]
  attached := by simp [Rga.make]
  shown := by
    have hdistinct : DistinctIds (Rga.make : Rga ν α).entries := List.nodup_nil
    obtain ⟨nodes, hnodes⟩ := visibleFrom_isSome hdistinct
      (by simp [Rga.make] : rgaRootId ∉ (Rga.make : Rga ν α).entries.map RgaEntry.id)
    refine ⟨nodes, hnodes, ?_⟩
    rw [List.map_eq_nil_iff, List.eq_nil_iff_forall_not_mem]
    intro e he
    exact List.not_mem_nil ((mem_visibleFrom hdistinct hnodes).1 he).1

lemma values_eq (h : rga.AppendedBy node values) : rga.values = some values := by
  obtain ⟨nodes, hnodes, rfl⟩ := h.shown
  rw [Rga.values, rgaValuesFrom, rgaReadFrom_eq, hnodes]
  rfl

lemma root_notMem (h : rga.AppendedBy node values) : rgaRootId ∉ rga.entries.map RgaEntry.id := by
  intro hmem
  obtain ⟨e, he, hid⟩ := List.mem_map.1 hmem
  have hpos := (h.issued e he).2.1
  rw [hid] at hpos
  exact Nat.lt_irrefl 0 hpos

lemma nextId_notMem (h : rga.AppendedBy node values) : rga.nextId node ∉ rga.entries.map RgaEntry.id := by
  intro hmem
  obtain ⟨e, he, hid⟩ := List.mem_map.1 hmem
  have hle := (h.issued e he).2.2
  rw [hid, Rga.nextId, Clock.ref_tick_self] at hle
  exact Nat.not_succ_le_self _ hle

/-- The next value comes after those appended before it. -/
lemma append (h : rga.AppendedBy node values) (value : α) :
    ∃ rga', rga.append node value = some rga' ∧ rga'.AppendedBy node (values ++ [value]) := by
  obtain ⟨nodes, hnodes, rfl⟩ := h.shown
  have hroot := h.root_notMem
  have hfresh := h.nextId_notMem
  have hcounter : (rga.nextId node).2 = rga.clock.ref node + 1 := Clock.ref_tick_self
  have hne := rga.nextId_ne_root node
  have hnone : ∀ d, HangsBelow rga.entries (rga.nextId node) d → d.deleted = true := by
    intro d hangs
    exfalso
    induction hangs with
    | after he hprev =>
      rcases h.attached _ he with hroot' | hmem
      · exact hne (hprev.symm.trans hroot')
      · exact hfresh (hprev ▸ hmem)
    | deeper _ _ _ ih => exact ih
  obtain ⟨last, hlast⟩ : ∃ last, last = (nodes.map RgaEntry.id).getLast?.getD rgaRootId := ⟨_, rfl⟩
  have hentries : (rga.insertAfter node last value).entries =
      rga.entries ++ [⟨rga.nextId node, last, value, false⟩] := entrySet_of_notMem hfresh
  have hmem : ∀ e, e ∈ (rga.insertAfter node last value).entries ↔
      e ∈ rga.entries ∨ e = ⟨rga.nextId node, last, value, false⟩ := by
    intro e
    rw [hentries, List.mem_append, List.mem_singleton]
  have hclock : (rga.insertAfter node last value).clock.ref node = rga.clock.ref node + 1 :=
    Clock.ref_tick_self
  refine ⟨rga.insertAfter node last value, hlast ▸ Rga.append_eq node value hnodes, h.distinct.entrySet, ?_, ?_, ?_⟩
  · intro e he
    rw [hclock]
    rcases (hmem e).1 he with he | rfl
    · obtain ⟨hnode, hpos, hle⟩ := h.issued e he
      exact ⟨hnode, hpos, Nat.le_succ_of_le hle⟩
    · rw [hcounter]
      exact ⟨rfl, Nat.succ_pos _, Nat.le_refl _⟩
  · intro e he
    rw [hentries, List.map_append, List.mem_append]
    rcases (hmem e).1 he with he | rfl
    · exact (h.attached e he).imp_right .inl
    · -- the last visible entry, or the root where there is none
      show last = _ ∨ _
      cases hgetLast : nodes.getLast? with
      | none =>
        rw [List.getLast?_map, hgetLast] at hlast
        exact .inl hlast
      | some d =>
        rw [List.getLast?_map, hgetLast] at hlast
        have hd := ((mem_visibleFrom h.distinct hnodes).1 (List.mem_of_getLast? hgetLast)).1
        exact .inr (.inl (hlast ▸ List.mem_map_of_mem hd))
  · refine ⟨nodes ++ [⟨rga.nextId node, last, value, false⟩], ?_, by rw [List.map_append]; rfl⟩
    rw [hentries]
    exact visibleFrom_concat h.distinct hroot hfresh hne rfl hnone hnodes hlast

end Rga.AppendedBy

end Distributed
