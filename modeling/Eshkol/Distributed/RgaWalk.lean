import Eshkol.Distributed.RgaSpec

/-!
# The walk over the entries

The entries form a forest, whose roots are the root identifier and the identifiers that some entry
was inserted after although no entry has them. The values are those of the entries below the root.
-/

namespace Distributed

open Scheme (Text)
open Forest

variable {ν α β : Type} [NodeName ν]

/-! ## The order of siblings -/

/-- Identifiers are ordered by their counter, then by the text of the node. -/
def rgaRank (id : RgaId ν) : ℕ ×ₗ Text := toLex (id.2, NodeName.distributedKey id.1)

lemma rgaIdLt_iff {a b : RgaId ν} : rgaIdLt a b = true ↔ rgaRank a < rgaRank b := by
  rw [rgaRank, rgaRank, Prod.Lex.toLex_lt_toLex]
  unfold rgaIdLt
  rcases Nat.lt_trichotomy a.2 b.2 with h | h | h
  · simp [h]
  · simp [h]
  · simp [h, Nat.lt_asymm h, Nat.ne_of_gt h]

/-- Siblings in order. -/
def RgaSorted (entries : List (RgaEntry ν α)) : Prop :=
  entries.Pairwise fun a b => rgaRank a.id ≤ rgaRank b.id

variable {entries l l' pre post : List (RgaEntry ν α)} {e x : RgaEntry ν α}

lemma perm_insertEntrySorted : (rgaInsertEntrySorted e l).Perm (e :: l) := by
  induction l with
  | nil => exact .refl _
  | cons a l ih =>
    rw [rgaInsertEntrySorted]
    split
    · exact .refl _
    · exact (ih.cons a).trans (.swap e a l)

lemma perm_sortEntries : (rgaSortEntries l).Perm l := by
  induction l with
  | nil => exact .refl _
  | cons a l ih => exact perm_insertEntrySorted.trans (ih.cons a)

lemma RgaSorted.insertEntrySorted (h : RgaSorted l) : RgaSorted (rgaInsertEntrySorted e l) := by
  induction l with
  | nil => exact List.pairwise_singleton _ _
  | cons a l ih =>
    obtain ⟨ha, hl⟩ := List.pairwise_cons.1 h
    rw [rgaInsertEntrySorted]
    split
    · next hlt =>
      have hea := (rgaIdLt_iff.1 hlt).le
      refine List.pairwise_cons.2 ⟨fun b hb => ?_, h⟩
      rcases List.mem_cons.1 hb with rfl | hb
      · exact hea
      · exact hea.trans (ha b hb)
    · next hlt =>
      rw [rgaIdLt_iff, not_lt] at hlt
      refine List.pairwise_cons.2 ⟨fun b hb => ?_, ih hl⟩
      rcases List.mem_cons.1 (perm_insertEntrySorted.mem_iff.1 hb) with rfl | hb
      · exact hlt
      · exact ha b hb

lemma sorted_sortEntries : RgaSorted (rgaSortEntries l) := by
  induction l with
  | nil => exact List.Pairwise.nil
  | cons a l ih => exact ih.insertEntrySorted

/-- The order of siblings does not depend on the order of the list where no two of them tie. -/
lemma sortEntries_eq_of_perm (h : l.Perm l')
    (htie : ∀ a ∈ l, ∀ b ∈ l, rgaRank a.id = rgaRank b.id → a = b) :
    rgaSortEntries l = rgaSortEntries l' := by
  refine List.Perm.eq_of_pairwise (fun a b ha hb hab hba => ?_) sorted_sortEntries
    sorted_sortEntries (perm_sortEntries.trans (h.trans perm_sortEntries.symm))
  have ha := perm_sortEntries.mem_iff.1 ha
  have hb := h.mem_iff.2 (perm_sortEntries.mem_iff.1 hb)
  exact htie a ha b hb (le_antisymm hab hba)

/-- Entries of smaller identifiers than that of an entry, and others that are not smaller. -/
def Around (x : RgaEntry ν α) (pre post : List (RgaEntry ν α)) : Prop :=
  (∀ a ∈ pre, rgaIdLt a.id x.id = true) ∧ ∀ a ∈ post, rgaIdLt a.id x.id = false

/-- Inserting before or after an entry that is taken out makes no difference to the others. -/
lemma insertEntrySorted_split (h : RgaSorted (pre ++ x :: post)) (haround : Around x pre post) :
    ∃ pre' post', rgaInsertEntrySorted e (pre ++ x :: post) = pre' ++ x :: post' ∧
      rgaInsertEntrySorted e (pre ++ post) = pre' ++ post' ∧ Around x pre' post' := by
  induction pre with
  | nil =>
    obtain ⟨hx, -⟩ := List.pairwise_cons.1 h
    by_cases hlt : rgaIdLt e.id x.id
    · refine ⟨[e], post, by simp [rgaInsertEntrySorted, hlt], ?_, by simpa using hlt, haround.2⟩
      cases post with
      | nil => rfl
      | cons y post =>
        have hy := rgaIdLt_iff.2 ((rgaIdLt_iff.1 hlt).trans_le (hx y List.mem_cons_self))
        simp [rgaInsertEntrySorted, hy]
    · refine ⟨[], rgaInsertEntrySorted e post, by simp [rgaInsertEntrySorted, hlt], rfl, by simp, ?_⟩
      intro a ha
      rcases List.mem_cons.1 (perm_insertEntrySorted.mem_iff.1 ha) with rfl | ha
      · exact eq_false_of_ne_true hlt
      · exact haround.2 a ha
  | cons a pre ih =>
    obtain ⟨-, hrest⟩ := List.pairwise_cons.1 h
    obtain ⟨ha, hpre⟩ := List.forall_mem_cons.1 haround.1
    by_cases hlt : rgaIdLt e.id a.id
    · have he : rgaIdLt e.id x.id = true :=
        rgaIdLt_iff.2 ((rgaIdLt_iff.1 hlt).trans (rgaIdLt_iff.1 ha))
      exact ⟨e :: a :: pre, post, by simp [rgaInsertEntrySorted, hlt],
        by simp [rgaInsertEntrySorted, hlt], List.forall_mem_cons.2 ⟨he, haround.1⟩, haround.2⟩
    · obtain ⟨pre', post', hwith, hwithout, hpre', hpost'⟩ := ih hrest ⟨hpre, haround.2⟩
      exact ⟨a :: pre', post', by simp [rgaInsertEntrySorted, hlt, hwith],
        by simp [rgaInsertEntrySorted, hlt, hwithout], List.forall_mem_cons.2 ⟨ha, hpre'⟩, hpost'⟩

/-- Sorting one entry more puts it between the smaller ones and the others without changing their
order. -/
lemma sortEntries_concat : ∃ pre post, rgaSortEntries (l ++ [x]) = pre ++ x :: post ∧
    rgaSortEntries l = pre ++ post ∧ Around x pre post := by
  induction l with
  | nil => exact ⟨[], [], rfl, rfl, by simp, by simp⟩
  | cons a l ih =>
    obtain ⟨pre, post, hwith, hwithout, haround⟩ := ih
    have hsorted : RgaSorted (pre ++ x :: post) := hwith ▸ sorted_sortEntries
    obtain ⟨pre', post', hwith', hwithout', haround'⟩ :=
      insertEntrySorted_split (e := a) hsorted haround
    exact ⟨pre', post', by rw [List.cons_append, rgaSortEntries, hwith, hwith'],
      by rw [rgaSortEntries, hwithout, hwithout'], haround'⟩

/-! ## The forest of entries -/

section forest

variable [DecidableEq ν] {p q id : RgaId ν} {nodes : List (RgaEntry ν α)}

lemma mem_sortedChildren : e ∈ rgaSortedChildren entries p ↔ e ∈ entries ∧ e.prev = p := by
  rw [rgaSortedChildren, perm_sortEntries.mem_iff, mem_children]

lemma DistinctIds.linked (h : DistinctIds entries) :
    Preorder.Linked RgaEntry.id (rgaSortedChildren entries) (rgaParent entries) where
  parent_eq_some := by
    intro x p
    simp only [rgaParent, Option.map_eq_some_iff, entryRef_eq_some h, mem_sortedChildren]
    tauto
  id_inj hc hd hid := h.eq (mem_sortedChildren.1 hc).1 (mem_sortedChildren.1 hd).1 hid
  nodup p := by
    rw [rgaSortedChildren, perm_sortEntries.nodup_iff, children_eq_filter]
    exact h.nodup.filter _

/-- The entries that a walk shows. -/
def visibleFrom (entries : List (RgaEntry ν α)) (p : RgaId ν) : Option (List (RgaEntry ν α)) :=
  Preorder.walk RgaEntry.id (Preorder.visitVisible fun e => !e.deleted)
    (rgaSortedChildren entries) (entries.length + 1) p

lemma rgaReadFrom_eq (read : RgaEntry ν α → β) :
    rgaReadFrom read entries p = (visibleFrom entries p).map (List.map read) := by
  rw [rgaReadFrom, visibleFrom, ← Preorder.walk_map]
  congr 1
  funext e
  cases h : e.deleted <;> simp [Preorder.visitVisible, h]

/-- A walk from an identifier that no entry has ends. -/
lemma visibleFrom_isSome (h : DistinctIds entries) (hp : p ∉ entries.map RgaEntry.id) :
    ∃ nodes, visibleFrom entries p = some nodes := by
  have hids : ∀ x y, rgaParent entries x = some y → x ∈ entries.map RgaEntry.id := by
    intro x y hxy
    obtain ⟨e, he, rfl⟩ := h.linked.parent_eq_some.1 hxy
    exact List.mem_map_of_mem (mem_sortedChildren.1 he).1
  exact Option.isSome_iff_exists.1
    (Preorder.walk_isSome h.linked hids (line_of_notMem hp) (by simp))

lemma mem_visibleFrom (h : DistinctIds entries) (hnodes : visibleFrom entries p = some nodes) :
    e ∈ nodes ↔ e ∈ entries ∧ e.deleted = false ∧ Below (rgaParent entries) e.prev p := by
  rw [Preorder.mem_walk h.linked hnodes]
  constructor
  · rintro ⟨c, q, hc, he, hbelow⟩
    obtain ⟨rfl, hvisible⟩ := Preorder.mem_visitVisible.1 he
    obtain ⟨hmem, rfl⟩ := mem_sortedChildren.1 hc
    exact ⟨hmem, by simpa using hvisible, hbelow⟩
  · rintro ⟨hmem, hdeleted, hbelow⟩
    exact ⟨e, e.prev, mem_sortedChildren.2 ⟨hmem, rfl⟩,
      Preorder.mem_visitVisible.2 ⟨rfl, by simp [hdeleted]⟩, hbelow⟩

lemma nodup_visibleFrom (h : DistinctIds entries) (hp : p ∉ entries.map RgaEntry.id)
    (hnodes : visibleFrom entries p = some nodes) : nodes.Nodup :=
  Preorder.walk_nodup h.linked (line_of_notMem hp) hnodes

/-- Two lists of the same entries have the same walks if no siblings tie. -/
lemma visibleFrom_eq_of_perm (h : entries.Perm l)
    (htie : ∀ a ∈ entries, ∀ b ∈ entries, a.prev = b.prev → rgaRank a.id = rgaRank b.id → a = b) :
    visibleFrom entries p = visibleFrom l p := by
  have hchildren : rgaSortedChildren entries = rgaSortedChildren l := by
    funext q
    rw [rgaSortedChildren, rgaSortedChildren, children_eq_filter, children_eq_filter]
    refine sortEntries_eq_of_perm (h.filter _) fun a ha b hb => ?_
    simp only [List.mem_filter, decide_eq_true_iff] at ha hb
    exact htie a ha.1 b hb.1 (ha.2.trans hb.2.symm)
  rw [visibleFrom, visibleFrom, hchildren, h.length_eq]

/-- An entry below an identifier: inserted after it, or after an entry below it. -/
inductive HangsBelow (entries : List (RgaEntry ν α)) (id : RgaId ν) : RgaEntry ν α → Prop where
  | after {e : RgaEntry ν α} : e ∈ entries → e.prev = id → HangsBelow entries id e
  | deeper {d e : RgaEntry ν α} : HangsBelow entries id d → e ∈ entries → e.prev = d.id →
    HangsBelow entries id e

lemma hangsBelow_of_below (h : DistinctIds entries) (he : e ∈ entries)
    (hbelow : Below (rgaParent entries) e.prev id) : HangsBelow entries id e := by
  generalize hq : e.prev = q at hbelow
  induction hbelow using Relation.ReflTransGen.head_induction_on generalizing e with
  | refl => exact .after he hq
  | head hstep _ ih =>
    obtain ⟨d, hd, hdq⟩ := h.linked.parent_eq_some.1 hstep
    obtain ⟨hd, hprev⟩ := mem_sortedChildren.1 hd
    exact .deeper (ih hd hprev) he (hq.trans hdq.symm)

omit [NodeName ν] in
lemma HangsBelow.mem_below (h : DistinctIds entries) (hangs : HangsBelow entries id e) :
    e ∈ entries ∧ Below (rgaParent entries) e.prev id := by
  induction hangs with
  | after he hprev => exact ⟨he, hprev ▸ .refl⟩
  | deeper _ he hprev ih => exact ⟨he, hprev ▸ .head (rgaParent_eq_some h ih.1) ih.2⟩

/-- The last visible entry is below the start of the walk. -/
lemma below_last (h : DistinctIds entries) (hnodes : visibleFrom entries p = some nodes) :
    Below (rgaParent entries) ((nodes.map RgaEntry.id).getLast?.getD p) p := by
  rw [List.getLast?_map]
  cases hlast : nodes.getLast? with
  | none => exact .refl
  | some last =>
    obtain ⟨hmem, -, hbelow⟩ := (mem_visibleFrom h hnodes).1 (List.mem_of_getLast? hlast)
    exact .head (rgaParent_eq_some h hmem) hbelow

lemma hangsBelow_iff (h : DistinctIds entries) :
    HangsBelow entries id e ↔ e ∈ entries ∧ Below (rgaParent entries) e.prev id :=
  ⟨HangsBelow.mem_below h, fun ⟨he, hbelow⟩ => hangsBelow_of_below h he hbelow⟩

/-- A visible entry of a new identifier goes between what its smaller siblings show and what the
others do, together with what hangs below it. -/
lemma visibleFrom_insert (h : DistinctIds entries) (hroot : p ∉ entries.map RgaEntry.id)
    (hnew : e.id ∉ entries.map RgaEntry.id) (hne : e.id ≠ p) (hvisible : e.deleted = false)
    (hnodes : visibleFrom entries p = some nodes) (htarget : Below (rgaParent entries) e.prev p) :
    ∃ before first hung rest, nodes = before ++ (first ++ rest) ∧
      visibleFrom (entries ++ [e]) p = some (before ++ (first ++ e :: (hung ++ rest))) ∧
      (∀ d, d ∈ first ↔ d.deleted = false ∧ ∃ c ∈ entries, c.prev = e.prev ∧
        rgaIdLt c.id e.id = true ∧ (d = c ∨ HangsBelow entries c.id d)) ∧
      (∀ d, d ∈ hung ↔ d.deleted = false ∧ HangsBelow entries e.id d) ∧
      (p = e.prev ∧ before = [] ∨ ∃ t ∈ entries, ∃ start, t.id = e.prev ∧
        before = start ++ Preorder.visitVisible (fun e => !e.deleted) t) := by
  have hnew' : DistinctIds (entries ++ [e]) := by
    have hconcat : DistinctIds (rgaEntrySet entries e) := h.entrySet
    rwa [entrySet_of_notMem hnew] at hconcat
  have hroot' : p ∉ (entries ++ [e]).map RgaEntry.id := by
    rw [List.map_append, List.mem_append, not_or]
    exact ⟨hroot, by simpa using hne.symm⟩
  obtain ⟨line, hline⟩ := (line_of_notMem hroot).of_below htarget
  have hfresh : ¬ Below (rgaParent entries) e.prev e.id := fun hbelow =>
    hne (root_unique hnew hroot hbelow htarget)
  obtain ⟨hung, hhung⟩ := visibleFrom_isSome h hnew
  have hchildren : ∀ q ≠ e.prev,
      rgaSortedChildren (entries ++ [e]) q = rgaSortedChildren entries q := by
    intro q hq
    simp [rgaSortedChildren, children_eq_filter, List.filter_append, Ne.symm hq]
  obtain ⟨pre, post, hwith, hwithout, hpre, hpost⟩ :=
    sortEntries_concat (l := rgaChildren entries e.prev) (x := e)
  have hwith' : rgaSortedChildren (entries ++ [e]) e.prev = pre ++ e :: post := by
    rw [← hwith, rgaSortedChildren, children_eq_filter, children_eq_filter]
    simp [List.filter_append]
  obtain ⟨before, first, second, after, k, hfirst, -, hsplit, hwalk, hbefore⟩ :=
    Preorder.walk_insert h.linked hline hchildren hwith' hwithout
      (by simp [hvisible]) hhung hfresh (line_of_notMem hroot) htarget hnodes
  obtain ⟨nodes', hnodes'⟩ := visibleFrom_isSome hnew' hroot'
  have hsmaller : ∀ c, c ∈ pre ↔ c ∈ entries ∧ c.prev = e.prev ∧ rgaIdLt c.id e.id = true := by
    intro c
    have hc : c ∈ pre ∨ c ∈ post ↔ c ∈ entries ∧ c.prev = e.prev := by
      rw [← mem_sortedChildren, rgaSortedChildren, hwithout, List.mem_append]
    constructor
    · intro hin
      obtain ⟨hmem, hprev⟩ := hc.1 (.inl hin)
      exact ⟨hmem, hprev, hpre c hin⟩
    · rintro ⟨hmem, hprev, hlt⟩
      apply (hc.2 ⟨hmem, hprev⟩).resolve_right
      intro hin
      exact Bool.false_ne_true ((hpost c hin).symm.trans hlt)
  refine ⟨before, first, hung, second ++ after, hsplit, ?_, fun d => ?_, fun d => ?_, ?_⟩
  · rw [hnodes', Preorder.walk_unique hnodes' hwalk]
  · rw [Preorder.mem_walkAll_visible h.linked hfirst, Bool.not_eq_true']
    simp only [hsmaller, mem_sortedChildren, hangsBelow_iff h, and_assoc,
      exists_and_left, exists_eq_left']
  · rw [mem_visibleFrom h hhung, hangsBelow_iff h]
    tauto
  · rcases hbefore with hstart | ⟨t, r, start, htr, ht, hbefore⟩
    · exact .inl hstart
    · exact .inr ⟨t, (mem_sortedChildren.1 htr).1, start, ht, hbefore⟩

/-- Where nothing visible hangs below an identifier that no entry has, a new entry of it inserted
after the last visible one, or after the root if none is visible, is the last visible one. -/
lemma visibleFrom_concat (h : DistinctIds entries) (hroot : p ∉ entries.map RgaEntry.id)
    (hnew : e.id ∉ entries.map RgaEntry.id) (hne : e.id ≠ p)
    (hvisible : e.deleted = false)
    (hnone : ∀ d, HangsBelow entries e.id d → d.deleted = true)
    (hnodes : visibleFrom entries p = some nodes)
    (hlast : e.prev = (nodes.map RgaEntry.id).getLast?.getD p) :
    visibleFrom (entries ++ [e]) p = some (nodes ++ [e]) := by
  have htarget : Below (rgaParent entries) e.prev p := hlast ▸ below_last h hnodes
  obtain ⟨before, first, hung, rest, hsplit, hwalk, -, hmem, hbefore⟩ :=
    visibleFrom_insert h hroot hnew hne hvisible hnodes htarget
  obtain rfl : hung = [] := List.eq_nil_iff_forall_not_mem.2 fun d hd => by
    obtain ⟨hdeleted, hbelow⟩ := (hmem d).1 hd
    exact Bool.false_ne_true (hdeleted.symm.trans (hnone d hbelow))
  have hrest : first ++ rest = [] := by
    rw [List.getLast?_map] at hlast
    cases hgetLast : nodes.getLast? with
    | none =>
      rw [List.getLast?_eq_none_iff.1 hgetLast] at hsplit
      exact (List.append_eq_nil_iff.1 hsplit.symm).2
    | some c =>
      rw [hgetLast] at hlast
      obtain ⟨hc, hcv, -⟩ := (mem_visibleFrom h hnodes).1 (List.mem_of_getLast? hgetLast)
      rcases hbefore with ⟨hp, -⟩ | ⟨t, ht, start, hid, rfl⟩
      · exact absurd (List.mem_map_of_mem hc) (hp.trans hlast ▸ hroot)
      · obtain rfl := h.eq ht hc (hid.trans hlast)
        -- the last visible entry is the target, after which the rest would come
        by_contra hne
        have hnodup := nodup_visibleFrom h hroot hnodes
        rw [hsplit, List.getLast?_append_of_ne_nil _ hne] at hgetLast
        rw [hsplit, List.nodup_append] at hnodup
        have hin : t ∈ start ++ Preorder.visitVisible (fun e => !e.deleted) t := by
          simp [Preorder.visitVisible, hcv]
        exact hnodup.2.2 t hin t (List.mem_of_getLast? hgetLast) rfl
  obtain ⟨rfl, rfl⟩ := List.append_eq_nil_iff.1 hrest
  rw [hwalk, hsplit]
  simp

end forest

end Distributed
