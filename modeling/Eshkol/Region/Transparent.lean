import Eshkol.Region.EvacuateSpec
import Eshkol.Region.Machine

/-!
# Regions are transparent to programs that read no stale copy

The run with regions is compared with the run in which the region operations are erased. Every live
block stands for the block that the erased run has for its allocation. A mutation is seen through
the block it was made to; the other representatives of the allocation, left behind or made earlier
by promotions, miss it. As long as the program accesses none of these, it observes the same values
in both runs.
-/

namespace Region

open PartialRun

/-! ## The simulation -/

/-- The contents of a heap without regions. -/
def blocks (m : Mem) : Addr → Option Block := fun a => (m.heap a).map Obj.block

/-- Scope by scope from the innermost: a scope only refers to what its region and the regions
around it hold. -/
def ScopesOk (m : Mem) : List (List Capture) → Prop
  | [] => True
  | scope :: outer => LinksOk m outer.length scope ∧ ScopesOk m outer

/-- Every active region's forwarding map leads to live copies outside the region. -/
def RegionsOk (m : Mem) : List ActiveRegion → Prop
  | [] => True
  | r :: outer =>
    (∀ t, r.fwdTarget = some t → t ≤ outer.length ∧ FwdOk m t r.fwd) ∧ RegionsOk m outer

structure StoreSim (s e : Store) : Prop where
  erased : e.regions = []
  nextId_eq : e.mem.nextId = s.mem.nextId
  heap : HeapInv (blocks e.mem) s.regions.length s.mem
  regions : RegionsOk s.mem s.regions

structure Sim (s e : State) : Prop where
  store : StoreSim s.store e.store
  trace_eq : e.trace = s.trace
  scopes_eq : e.scopes = erase s.scopes
  depth : s.scopes.length = s.store.regions.length + 1
  locals : ScopesOk s.store.mem s.scopes

lemma FwdOk.keeps {m m' : Mem} {t : ℕ} {fwd : Addr → Option Addr} (h : FwdOk m t fwd)
    (hm : Keeps m m') : FwdOk m' t fwd := by
  intro a a' ha
  obtain ⟨hobj, o, ho, hl⟩ := h a a' ha
  obtain ⟨o', ho', hl', -⟩ := hm a' o ho
  exact ⟨hobj, o', ho', hl'.trans hl⟩

lemma RegionsOk.keeps {m m' : Mem} {rs : List ActiveRegion} (h : RegionsOk m rs)
    (hm : Keeps m m') : RegionsOk m' rs := by
  induction rs with
  | nil => trivial
  | cons r outer ih => exact ⟨fun t ht => ⟨(h.1 t ht).1, (h.1 t ht).2.keeps hm⟩, ih h.2⟩

lemma ScopesOk.keeps {m m' : Mem} {scopes : List (List Capture)} (h : ScopesOk m scopes)
    (hm : Keeps m m') : ScopesOk m' scopes := by
  induction scopes with
  | nil => trivial
  | cons scope outer ih => exact ⟨h.1.keeps hm le_rfl, ih h.2⟩

/-- Whatever is in scope is live. -/
lemma ScopesOk.lookup {m : Mem} {scopes : List (List Capture)} (h : ScopesOk m scopes)
    {i : ℕ} {scope : List Capture} (hs : scopes[i]? = some scope) :
    LinksOk m (scopes.length - 1) scope := by
  induction scopes generalizing i with
  | nil => cases hs
  | cons first outer ih =>
    cases i with
    | zero =>
      cases hs
      exact h.1
    | succ i =>
      have hlen : 0 < outer.length := List.length_pos_of_mem (List.mem_of_getElem? hs)
      exact (ih h.2 hs).ext (Ext.refl m) (by simp)

lemma StoreSim.image {s e : Store} (h : StoreSim s e) {a : Addr} {o : Obj}
    (ha : s.mem.heap a = some o) : ∃ o', e.mem.heap a.origin = some o' ∧
      o'.block.kind = o.block.kind ∧ (o.current → o'.block = erase o.block) := by
  obtain ⟨b, hb, hkind, hcur⟩ := (h.heap.represents a o ha).image
  obtain ⟨o', ho', rfl⟩ := Option.map_eq_some_iff.1 hb
  exact ⟨o', ho', hkind, hcur⟩

/-! ## The runtime operations -/

section runtime
variable {s e : Store} {own : ℤ → ℕ}

/-- What a promotion leaves alone. -/
structure Promoted (own : ℤ → ℕ) (s s' e : Store) : Prop where
  sim : StoreSim s' e
  ints : IntsOk own s'.mem
  ext : Ext s.mem s'.mem
  depth_eq : s'.regions.length = s.regions.length

lemma Promoted.refl (h : StoreSim s e) (hints : IntsOk own s.mem) : Promoted own s s e :=
  ⟨h, hints, Ext.refl _, rfl⟩

lemma regionEvacuateValue_sim {t : ℕ} {v : Val} (h : StoreSim s e) (ht : t < s.regions.length)
    (hints : IntsOk own s.mem)
    (hv : LinksOk s.mem s.regions.length v) :
    ∃ v' s', regionEvacuateValue own t v s = some (v', s') ∧ Promoted own s s' e ∧
      erase v' = erase v ∧ LinksOk s'.mem t v' := by
  obtain ⟨owner, outer, hregions⟩ : ∃ owner outer, s.regions = owner :: outer := by
    cases hr : s.regions with
    | nil => simp [hr] at ht
    | cons owner outer => exact ⟨owner, outer, rfl⟩
  have hok := h.regions
  rw [hregions] at hok ht
  have hfwd : FwdOk s.mem t (if owner.fwdTarget = some t then owner.fwd else fun _ => none) := by
    split
    · exact (hok.1 t ‹_›).2
    · intro a a' ha
      cases ha
  obtain ⟨v', st', hrun, hext, hheap, hfwd', hints', hids, herase, hlinks⟩ :=
    evacuate_spec h.heap (by rw [hregions]; omega) hfwd
      hints hv
  refine ⟨v', ⟨st'.mem, ⟨st'.fwd, some t⟩ :: outer⟩, ?_, ⟨⟨h.erased, ?_, ?_, ?_⟩, hints', hext, ?_⟩,
    herase, hlinks⟩
  · simp [regionEvacuateValue, hregions, hrun]
  · exact h.nextId_eq.trans hids.symm
  · simpa [hregions] using hheap
  · refine ⟨fun t' ht' => ?_, hok.2.keeps hext.keeps⟩
    obtain rfl := Option.some.inj ht'
    exact ⟨Nat.lt_succ_iff.1 ht, hfwd'⟩
  · simp [hregions]

lemma regionWriteBarrierInto_sim {dst : Addr} {od : Obj} {v : Val} (h : StoreSim s e)
    (hints : IntsOk own s.mem)
    (hdst : s.mem.heap dst = some od) (hv : LinksOk s.mem s.regions.length v) :
    ∃ v' s', regionWriteBarrierInto own dst v s = some (v', s') ∧ Promoted own s s' e ∧
      erase v' = erase v ∧ LinksOk s'.mem od.level v' := by
  have hlevel : s.mem.levelOf dst = od.level := by simp [Mem.levelOf, hdst]
  unfold regionWriteBarrierInto
  by_cases hempty : s.regions.isEmpty = true
  · rw [if_pos hempty]
    have hzero : s.regions.length = 0 := by simpa using hempty
    exact ⟨v, s, rfl, .refl h hints, rfl, hv.ext (Ext.refl _) (by omega)⟩
  · rw [if_neg hempty]
    cases v with
    | int n => exact ⟨_, s, rfl, .refl h hints, rfl, by simp [LinksOk]⟩
    | imm c => exact ⟨_, s, rfl, .refl h hints, rfl, by simp [LinksOk]⟩
    | ref a =>
      obtain ⟨o, ho, hle, htarget⟩ := hv ⟨.object, a⟩ (by simp)
      have ha : s.mem.levelOf a = o.level := by simp [Mem.levelOf, ho]
      have hstay : o.level ≤ od.level → LinksOk s.mem od.level (Val.ref a) := by
        intro hlt
        simp only [LinksOk, links_ref, List.mem_singleton, forall_eq]
        exact ⟨o, ho, hlt, htarget⟩
      simp only [ha, hlevel]
      by_cases hout : o.level ≤ od.level
      · refine ⟨_, s, ?_, .refl h hints, rfl, hstay hout⟩
        by_cases hzero : o.level = 0
        · rw [if_pos hzero]
        · rw [if_neg hzero, if_pos hout]
      · rw [if_neg (by omega), if_neg hout]
        exact regionEvacuateValue_sim h (by omega) hints hv

lemma regionWriteBarrierRange_sim {dst : Addr} {od : Obj} {vs : List Val} (h : StoreSim s e)
    (hints : IntsOk own s.mem) (hdst : s.mem.heap dst = some od)
    (hvs : LinksOk s.mem s.regions.length vs) :
    ∃ vs' s', regionWriteBarrierRange own dst vs s = some (vs', s') ∧ Promoted own s s' e ∧
      vs'.map erase = vs.map erase ∧ LinksOk s'.mem od.level vs' := by
  induction vs generalizing s od with
  | nil => exact ⟨[], s, rfl, .refl h hints, rfl, by simp [LinksOk]⟩
  | cons v vs ih =>
    have hv : LinksOk s.mem s.regions.length v := fun l hl => hvs l (by simpa using Or.inl hl)
    obtain ⟨v', s₁, hrun₁, hprom₁, herase₁, hlinks₁⟩ :=
      regionWriteBarrierInto_sim h hints hdst hv
    obtain ⟨od', hdst', hlevel', -⟩ := hprom₁.ext dst od hdst
    have hrest : LinksOk s₁.mem s₁.regions.length vs := fun l hl =>
      (hvs l (by simpa using Or.inr hl)).ext hprom₁.ext hprom₁.depth_eq.ge
    obtain ⟨vs', s₂, hrun₂, hprom₂, herase₂, hlinks₂⟩ := ih hprom₁.sim hprom₁.ints hdst' hrest
    refine ⟨v' :: vs', s₂, ?_, ⟨hprom₂.sim, hprom₂.ints, hprom₁.ext.trans hprom₂.ext,
      hprom₂.depth_eq.trans hprom₁.depth_eq⟩, ?_, ?_⟩
    · simp [regionWriteBarrierRange, hrun₁, hrun₂]
    · simp [herase₁, herase₂]
    · intro l hl
      obtain hl | hl := List.mem_append.1 (by simpa using hl : l ∈ links v' ++ links vs')
      · exact (hlinks₁ l hl).ext hprom₂.ext le_rfl
      · exact hlevel' ▸ hlinks₂ l hl

/-- With no active region the barrier is the identity. -/
lemma regionWriteBarrierRange_erased (he : e.regions = []) (dst : Addr) (vs : List Val) :
    regionWriteBarrierRange own dst vs e = some (vs, e) := by
  induction vs with
  | nil => rfl
  | cons v vs ih => simp [regionWriteBarrierRange, regionWriteBarrierInto, he, ih]

lemma regionEscapeTaggedValue_sim {v : Val} {r : ActiveRegion} {outer : List ActiveRegion}
    (h : StoreSim s e) (hr : s.regions = r :: outer) (hints : IntsOk own s.mem)
    (hv : LinksOk s.mem s.regions.length v) :
    ∃ v' s', regionEscapeTaggedValue own v s = some (v', s') ∧ Promoted own s s' e ∧
      erase v' = erase v ∧ LinksOk s'.mem outer.length v' := by
  cases v with
  | int n => exact ⟨_, s, rfl, .refl h hints, rfl, by simp [LinksOk]⟩
  | imm c => exact ⟨_, s, rfl, .refl h hints, rfl, by simp [LinksOk]⟩
  | ref a =>
    simp only [regionEscapeTaggedValue, hr]
    exact regionEvacuateValue_sim h (by simp [hr]) hints hv

lemma keeps_alloc {m : Mem} {k d : ℕ} {b : Block} {f : Addr → Option Block}
    (h : HeapInv f d m) : Keeps m (m.alloc k b).2 := by
  intro a o ho
  have hne : a ≠ ⟨m.nextId, 0⟩ := by
    rintro rfl
    exact absurd (h.represents _ o ho).obj_lt (lt_irrefl _)
  exact ⟨o, by simpa [Mem.alloc, Mem.put, hne] using ho, rfl, rfl⟩

/-- Both runs allocate. -/
lemma alloc_sim {k : ℕ} {b : Block} (h : StoreSim s e) (k' : ℕ) (hk : k ≤ s.regions.length)
    (hpos : 0 < b.bytes) (hmax : b.kind.target = .object → b.bytes ≤ maxObjectBytes)
    (hlinks : LinksOk s.mem k b) (hhome : b.AtHome s.mem k) :
    StoreSim { s with mem := (s.mem.alloc k b).2 } { e with mem := (e.mem.alloc k' (erase b)).2 } ∧
      (e.mem.alloc k' (erase b)).1 = (s.mem.alloc k b).1 ∧
      (s.mem.alloc k b).2.heap (s.mem.alloc k b).1 = some ⟨b, k, true⟩ := by
  have hkeeps := keeps_alloc (k := k) (b := b) h.heap
  have hself : (s.mem.alloc k b).2.heap ⟨s.mem.nextId, 0⟩ = some ⟨b, k, true⟩ := by
    simp [Mem.alloc, Mem.put]
  have hold : ∀ a o, a ≠ ⟨s.mem.nextId, 0⟩ → (s.mem.alloc k b).2.heap a = some o →
      s.mem.heap a = some o := by
    intro a o hne ho
    simpa [Mem.alloc, Mem.put, hne] using ho
  refine ⟨⟨h.erased, by simp [Mem.alloc, h.nextId_eq], ⟨fun a o ho => ?_, fun a o ho => ?_⟩,
    h.regions.keeps hkeeps⟩, by simp [Mem.alloc, h.nextId_eq], hself⟩
  · by_cases hne : a = ⟨s.mem.nextId, 0⟩
    · subst hne
      cases hself.symm.trans ho
      refine ⟨by simp [Mem.alloc], Nat.zero_le _, hk, hpos, hmax, erase b, ?_, kind_erase b,
        fun _ => rfl⟩
      simp [blocks, Mem.alloc, Mem.put, Addr.origin, h.nextId_eq]
    · have hrep := h.heap.represents a o (hold a o hne ho)
      have hobj := hrep.obj_lt
      obtain ⟨c, hc, hkind, hcur⟩ := hrep.image
      refine { hrep with obj_lt := Nat.lt_succ_of_lt hobj, image := ⟨c, ?_, hkind, hcur⟩ }
      have hother : a.origin ≠ ⟨e.mem.nextId, 0⟩ := by
        rw [h.nextId_eq]
        intro heq
        exact absurd (congrArg Addr.obj heq) (Nat.ne_of_lt hobj)
      simpa [blocks, Mem.alloc, Mem.put, hother] using hc
  · by_cases hne : a = ⟨s.mem.nextId, 0⟩
    · subst hne
      cases hself.symm.trans ho
      exact ⟨hlinks.keeps hkeeps le_rfl, hhome.keeps hkeeps hlinks⟩
    · obtain ⟨hl, hh⟩ := h.heap.closed a o (hold a o hne ho)
      exact ⟨hl.keeps hkeeps le_rfl, hh.keeps hkeeps hl⟩

lemma keeps_store {m : Mem} {a : Addr} {o : Obj} {b : Block} (ha : m.heap a = some o)
    (hkind : b.kind = o.block.kind) : Keeps m (m.store a b) := by
  intro x ox hx
  by_cases hxa : x = a
  · subst hxa
    cases ha.symm.trans hx
    exact ⟨{ o with block := b }, by simp [Mem.store, ha], rfl, hkind⟩
  · by_cases hobj : x.obj = a.obj
    · exact ⟨{ ox with current := false }, by simp [Mem.store, hxa, hobj, hx], rfl, rfl⟩
    · exact ⟨ox, by simp [Mem.store, hxa, hobj, hx], rfl, rfl⟩

/-- What a store leaves of a block. -/
lemma store_cases {m : Mem} {a x : Addr} {b : Block} {ox : Obj}
    (hx : (m.store a b).heap x = some ox) :
    ∃ o, m.heap x = some o ∧ ox.level = o.level ∧
      ((x = a ∧ ox.block = b) ∨
        (x ≠ a ∧ x.obj = a.obj ∧ ox.block = o.block ∧ ox.current = false) ∨
        (x.obj ≠ a.obj ∧ ox = o)) := by
  by_cases hxa : x = a
  · subst hxa
    obtain ⟨o, ho, rfl⟩ := Option.map_eq_some_iff.1 (by simpa [Mem.store] using hx)
    exact ⟨o, ho, rfl, Or.inl ⟨rfl, rfl⟩⟩
  · by_cases hobj : x.obj = a.obj
    · obtain ⟨o, ho, rfl⟩ := Option.map_eq_some_iff.1 (by simpa [Mem.store, hxa, hobj] using hx)
      exact ⟨o, ho, rfl, Or.inr (Or.inl ⟨hxa, hobj, rfl, rfl⟩)⟩
    · exact ⟨ox, by simpa [Mem.store, hxa, hobj] using hx, rfl, Or.inr (Or.inr ⟨hobj, rfl⟩)⟩

/-- Both runs store to the block of the same allocation. -/
lemma store_sim {a : Addr} {o : Obj} {b : Block} (h : StoreSim s e)
    (ha : s.mem.heap a = some o) (hkind : b.kind = o.block.kind) (hpos : 0 < b.bytes)
    (hmax : b.kind.target = .object → b.bytes ≤ maxObjectBytes)
    (hlinks : LinksOk s.mem o.level b) (hhome : b.AtHome s.mem o.level) :
    StoreSim { s with mem := s.mem.store a b } { e with mem := e.mem.store a.origin (erase b) } := by
  have hkeeps := keeps_store ha hkind
  obtain ⟨oe, hoe, hkinde, -⟩ := h.image ha
  refine ⟨h.erased, h.nextId_eq, ⟨fun x ox hx => ?_, fun x ox hx => ?_⟩, h.regions.keeps hkeeps⟩
  · obtain ⟨o', ho', hlevel, hcases⟩ := store_cases hx
    have hrep := h.heap.represents x o' ho'
    obtain ⟨c, hc, hckind, hccur⟩ := hrep.image
    obtain ⟨rfl, hb⟩ | ⟨-, hobj, hb, hstale⟩ | ⟨hobj, rfl⟩ := hcases
    · refine ⟨hrep.obj_lt, hrep.copy_le, hlevel ▸ hrep.level_le, hb ▸ hpos,
        fun ht => hb ▸ hmax (hb ▸ ht), erase b, ?_, by rw [kind_erase, hb], fun _ => by rw [hb]⟩
      simp [blocks, Mem.store, hoe]
    · refine ⟨hrep.obj_lt, hrep.copy_le, hlevel ▸ hrep.level_le, hb ▸ hrep.bytes_pos,
        fun ht => hb ▸ hrep.bytes_le (hb ▸ ht), erase b, ?_, ?_, fun hcur => by simp [hstale] at hcur⟩
      · simp [blocks, Mem.store, origin_eq_iff.2 hobj, hoe]
      · obtain ⟨oe', hoe', hkinde', -⟩ := h.image ho'
        rw [origin_eq_iff.2 hobj] at hoe'
        cases hoe.symm.trans hoe'
        rw [kind_erase, hkind, ← hkinde, hkinde', hb]
    · refine { hrep with image := ⟨c, ?_, hckind, hccur⟩ }
      have hne : x.origin ≠ a.origin := fun heq => hobj (origin_eq_iff.1 heq)
      simpa [blocks, Mem.store, hne, hobj] using hc
  · obtain ⟨o', ho', hlevel, hcases⟩ := store_cases hx
    obtain ⟨hl, hh⟩ := h.heap.closed x o' ho'
    obtain ⟨rfl, hb⟩ | ⟨-, -, hb, -⟩ | ⟨-, rfl⟩ := hcases
    · cases ha.symm.trans ho'
      rw [hb, hlevel]
      exact ⟨hlinks.keeps hkeeps le_rfl, hhome.keeps hkeeps hlinks⟩
    · rw [hb, hlevel]
      exact ⟨hl.keeps hkeeps le_rfl, hh.keeps hkeeps hl⟩
    · exact ⟨hl.keeps hkeeps le_rfl, hh.keeps hkeeps hl⟩

/-! Freeing an arena leaves what lies outside it. -/

lemma heap_free {m : Mem} {k : ℕ} {a : Addr} {o : Obj} :
    (m.free k).heap a = some o ↔ m.heap a = some o ∧ o.level ≠ k := by
  simp [Mem.free, Option.filter_eq_some_iff]

lemma LinkOk.free {m : Mem} {k lvl : ℕ} {l : Link} (h : LinkOk m k l) (hk : k < lvl) :
    LinkOk (m.free lvl) k l := by
  obtain ⟨o, ho, hle, htarget⟩ := h
  exact ⟨o, heap_free.2 ⟨ho, by omega⟩, hle, htarget⟩

lemma RegionsOk.free {m : Mem} {lvl : ℕ} {rs : List ActiveRegion} (h : RegionsOk m rs)
    (hlen : rs.length < lvl) : RegionsOk (m.free lvl) rs := by
  induction rs with
  | nil => trivial
  | cons r outer ih =>
    rw [List.length_cons] at hlen
    refine ⟨fun t ht => ⟨(h.1 t ht).1, fun a a' ha => ?_⟩, ih h.2 (by omega)⟩
    have hle := (h.1 t ht).1
    obtain ⟨hobj, o, ho, hl⟩ := (h.1 t ht).2 a a' ha
    exact ⟨hobj, o, heap_free.2 ⟨ho, by omega⟩, hl⟩

lemma ScopesOk.free {m : Mem} {lvl : ℕ} {scopes : List (List Capture)} (h : ScopesOk m scopes)
    (hlen : scopes.length ≤ lvl) : ScopesOk (m.free lvl) scopes := by
  induction scopes with
  | nil => trivial
  | cons scope outer ih =>
    rw [List.length_cons] at hlen
    exact ⟨fun l hl => (h.1 l hl).free (by omega), ih h.2 (by omega)⟩

lemma regionPop_sim {r : ActiveRegion} {outer : List ActiveRegion} (h : StoreSim s e)
    (hr : s.regions = r :: outer) : StoreSim (regionPop s) e := by
  have hdepth : s.regions.length = outer.length + 1 := by simp [hr]
  have hok := h.regions
  rw [hr] at hok
  simp only [regionPop, hr]
  refine ⟨h.erased, h.nextId_eq, ⟨fun a o ho => ?_, fun a o ho => ?_⟩,
    hok.2.free (Nat.lt_succ_self _)⟩
  · obtain ⟨ho, hne⟩ := heap_free.1 ho
    have hrep := h.heap.represents a o ho
    have hle := hrep.level_le
    exact ⟨hrep.obj_lt, hrep.copy_le, by simp only; omega, hrep.bytes_pos, hrep.bytes_le,
      hrep.image⟩
  · obtain ⟨ho, hne⟩ := heap_free.1 ho
    have hle := (h.heap.represents a o ho).level_le
    obtain ⟨hl, hh⟩ := h.heap.closed a o ho
    refine ⟨fun l hlink => (hl l hlink).free (by omega), ?_⟩
    cases hb : o.block with
    | hash capacity size tombstones arrays home =>
      rw [hb] at hh hl
      obtain ⟨oa, hoa, -⟩ := hl ⟨.storage, arrays⟩ (by simp)
      have hlevel : oa.level = o.level := by simpa [Mem.levelOf, hoa] using hh.2
      refine ⟨hh.1, ?_⟩
      have : (s.mem.free (outer.length + 1)).heap arrays = some oa :=
        heap_free.2 ⟨hoa, by omega⟩
      simp [Mem.levelOf, this, hlevel]
    | _ => trivial

lemma regionPush_sim (h : StoreSim s e) (hroom : s.regions.length < maxRegionDepth) :
    StoreSim (regionPush s) e ∧ (regionPush s).mem = s.mem ∧
      (regionPush s).regions.length = s.regions.length + 1 := by
  have hpush : regionPush s = { s with regions := ⟨fun _ => none, none⟩ :: s.regions } := by
    rw [regionPush, if_neg (by omega)]
  rw [hpush]
  refine ⟨⟨h.erased, h.nextId_eq, ⟨fun a o ho => ?_, h.heap.closed⟩, ?_, h.regions⟩, rfl, rfl⟩
  · have hrep := h.heap.represents a o ho
    exact { hrep with level_le := Nat.le_succ_of_le hrep.level_le }
  · intro t ht
    cases ht

end runtime

/-! ## Variables -/

section locals
variable {s e : State}

lemma Sim.lookup_eq (h : Sim s e) (x : Loc) : e.lookup x = (s.lookup x).map erase := by
  simp only [State.lookup, h.scopes_eq, erase_list, List.getElem?_map]
  cases s.scopes[x.scope]? with
  | none => rfl
  | some scope => simp

lemma Sim.lookupVal_eq (h : Sim s e) (x : Loc) : e.lookupVal x = (s.lookupVal x).map erase := by
  simp only [State.lookupVal, h.lookup_eq]
  cases s.lookup x with
  | none => rfl
  | some c => cases c <;> rfl

lemma Sim.address_eq (h : Sim s e) (x : Loc) :
    e.address x = (s.address x).map Addr.origin := by
  simp only [State.address, h.lookup_eq]
  cases s.lookup x with
  | none => rfl
  | some c =>
    cases c with
    | val v => cases v <;> rfl
    | cell a => rfl

lemma Sim.linksOk_lookup (h : Sim s e) {x : Loc} {c : Capture} (hx : s.lookup x = some c) :
    LinksOk s.store.mem s.store.regions.length c := by
  obtain ⟨scope, hscope, hc⟩ := Option.bind_eq_some_iff.1 hx
  have hok := h.locals.lookup hscope
  rw [h.depth, Nat.add_sub_cancel] at hok
  exact fun l hl => hok l (links_getElem?_subset hc hl)

lemma Sim.linksOk_lookupVal (h : Sim s e) {x : Loc} {v : Val} (hx : s.lookupVal x = some v) :
    LinksOk s.store.mem s.store.regions.length v := by
  obtain ⟨c, hc, hv⟩ := Option.bind_eq_some_iff.1 hx
  have hok := h.linksOk_lookup hc
  cases c with
  | val w =>
    cases hv
    exact hok
  | cell a => cases hv

/-- A variable refers to a live block. -/
lemma Sim.live_address (h : Sim s e) {x : Loc} {a : Addr} (hx : s.address x = some a) :
    ∃ o, s.store.mem.heap a = some o := by
  obtain ⟨c, hc, ha⟩ := Option.bind_eq_some_iff.1 hx
  have hok := h.linksOk_lookup hc
  cases c with
  | val v =>
    cases v with
    | ref b =>
      cases ha
      obtain ⟨o, ho, -⟩ := hok ⟨.object, a⟩ (by simp)
      exact ⟨o, ho⟩
    | _ => cases ha
  | cell b =>
    cases ha
    obtain ⟨o, ho, -⟩ := hok ⟨.cell, a⟩ (by simp)
    exact ⟨o, ho⟩

/-- A list of variables read in both runs. -/
lemma mapM_eq {α β : Type} {f g : α → Option β} {φ : β → β} (h : ∀ x, g x = (f x).map φ)
    (xs : List α) : xs.mapM g = (xs.mapM f).map (List.map φ) := by
  induction xs with
  | nil => rfl
  | cons x xs ih =>
    rw [List.mapM_cons, List.mapM_cons, h, ih]
    cases f x with
    | none => rfl
    | some y =>
      cases xs.mapM f with
      | none => rfl
      | some ys => rfl

lemma mapM_forall {α β : Type} {f : α → Option β} {P : β → Prop} (h : ∀ x y, f x = some y → P y)
    {xs : List α} {ys : List β} (hxs : xs.mapM f = some ys) : ∀ y ∈ ys, P y := by
  induction xs generalizing ys with
  | nil =>
    cases hxs
    simp
  | cons x xs ih =>
    rw [List.mapM_cons] at hxs
    obtain ⟨y, hy, hrest⟩ := Option.bind_eq_some_iff.1 hxs
    obtain ⟨ys', hys, hcons⟩ := Option.bind_eq_some_iff.1 hrest
    cases hcons
    simp only [List.mem_cons, forall_eq_or_imp]
    exact ⟨h x y hy, ih hys⟩

lemma Sim.emit (h : Sim s e) (o : Obs) : Sim (s.emit o) (e.emit o) :=
  ⟨h.store, congrArg (o :: ·) h.trace_eq, h.scopes_eq, h.depth, h.locals⟩

lemma Sim.bindLocal (h : Sim s e) {c : Capture}
    (hc : LinksOk s.store.mem s.store.regions.length c) :
    Sim (s.bindLocal c) (e.bindLocal (erase c)) := by
  have hdepth := h.depth
  have hlocals := h.locals
  cases hs : s.scopes with
  | nil => simp [hs] at hdepth
  | cons scope outer =>
    rw [hs] at hdepth hlocals
    refine ⟨h.store, h.trace_eq, ?_, ?_, ?_⟩
    · simp [State.bindLocal, h.scopes_eq, hs]
    · simpa [State.bindLocal, hs] using hdepth
    · simp only [State.bindLocal, hs, List.modifyHead_cons]
      refine ⟨fun l hl => ?_, hlocals.2⟩
      have hlen : outer.length = s.store.regions.length := by simpa using hdepth
      obtain hl | hl := List.mem_append.1 (by simpa using hl : l ∈ links scope ++ links c)
      · exact hlocals.1 l hl
      · exact hlen ▸ hc l hl

/-- Both runs allocate a block; the variables are still what they were. -/
lemma Sim.alloc (h : Sim s e) {b : Block} (hpos : 0 < b.bytes)
    (hmax : b.kind.target = .object → b.bytes ≤ maxObjectBytes)
    (hlinks : LinksOk s.store.mem s.store.regions.length b)
    (hhome : b.AtHome s.store.mem s.store.regions.length) :
    Sim (s.alloc b).2 (e.alloc (erase b)).2 ∧ (e.alloc (erase b)).1 = (s.alloc b).1.origin ∧
      (s.alloc b).2.store.mem.heap (s.alloc b).1 = some ⟨b, s.store.regions.length, true⟩ ∧
      Keeps s.store.mem (s.alloc b).2.store.mem := by
  have hkeeps := keeps_alloc (k := s.store.regions.length) (b := b) h.store.heap
  obtain ⟨hsim, haddr, hself⟩ := alloc_sim h.store e.store.regions.length le_rfl hpos
    hmax hlinks hhome
  exact ⟨⟨hsim, h.trace_eq, h.scopes_eq, h.depth, h.locals.keeps hkeeps⟩, haddr, hself, hkeeps⟩

lemma Sim.allocLocal (h : Sim s e) {b : Block} (hobj : b.kind.target = .object)
    (hpos : 0 < b.bytes) (hmax : b.bytes ≤ maxObjectBytes)
    (hlinks : LinksOk s.store.mem s.store.regions.length b)
    (hhome : b.AtHome s.store.mem s.store.regions.length) :
    Sim (s.allocLocal b) (e.allocLocal (erase b)) := by
  obtain ⟨hsim, haddr, hself, -⟩ := h.alloc hpos (fun _ => hmax) hlinks hhome
  have hlink : LinksOk (s.alloc b).2.store.mem (s.alloc b).2.store.regions.length
      (Capture.val (.ref (s.alloc b).1)) := by
    simp only [LinksOk, links_captureVal, links_ref, List.mem_singleton, forall_eq]
    exact ⟨_, hself, le_rfl, hobj⟩
  have hbind := (hsim.bindLocal hlink).emit .done
  rw [erase_captureVal, erase_ref, ← haddr] at hbind
  exact hbind

lemma mapM_length {α β : Type} {f : α → Option β} {xs : List α} {ys : List β}
    (hxs : xs.mapM f = some ys) : ys.length = xs.length := by
  induction xs generalizing ys with
  | nil =>
    cases hxs
    rfl
  | cons x xs ih =>
    rw [List.mapM_cons] at hxs
    obtain ⟨y, -, hrest⟩ := Option.bind_eq_some_iff.1 hxs
    obtain ⟨ys', hys, hcons⟩ := Option.bind_eq_some_iff.1 hrest
    cases hcons
    simp [ih hys]

end locals

/-! ## The operations -/

section operations
variable {s e : State} {arenaAt : Mem → ℤ → ℕ}

lemma Lifted.of_map {σ τ α β : Type} {R : σ → τ → Prop} {a : Option α} {φ : α → β}
    {f : α → Option σ} {g : β → Option τ} (h : ∀ x, a = some x → Lifted R (f x) (g (φ x))) :
    Lifted R (a.bind f) ((a.map φ).bind g) := by
  cases a with
  | none => trivial
  | some x => exact h x rfl

/-- Allocations do the same in both runs. -/
lemma execAlloc_sim (h : Sim s e) {op : Op} (hevacuable : op.evacuable = true) :
    Lifted Sim (execAlloc op s) (execAlloc op e) := by
  cases op with
  | cons x y =>
    simp only [execAlloc, h.lookupVal_eq]
    apply Lifted.of_map
    intro car hcar
    apply Lifted.of_map
    intro cdr hcdr
    apply h.allocLocal (b := .cons car cdr) rfl (by simp [Block.bytes])
      (by simp [Block.bytes, maxObjectBytes]) ?_ trivial
    intro l hl
    exact (List.mem_append.1 hl).elim (h.linksOk_lookupVal hcar l) (h.linksOk_lookupVal hcdr l)
  | vector xs =>
    simp only [execAlloc, mapM_eq h.lookupVal_eq]
    apply Lifted.of_map
    intro vs hvs
    have hlen : vs.length = xs.length := mapM_length hvs
    apply h.allocLocal (b := .vector vs) rfl (by simp only [Block.bytes]; omega) ?_ ?_
      trivial
    · simpa [Op.evacuable, Block.bytes, hlen] using hevacuable
    · intro l hl
      obtain ⟨v, hv, hlv⟩ := List.mem_flatMap.1 hl
      exact mapM_forall (P := LinksOk s.store.mem s.store.regions.length)
        (fun x v => h.linksOk_lookupVal) hvs v hv l hlv
  | promise forced thunk cached =>
    simp only [execAlloc, h.lookupVal_eq]
    apply Lifted.of_map
    intro thunk' hthunk
    apply Lifted.of_map
    intro cached' hcached
    apply h.allocLocal (b := .promise forced thunk' cached') rfl (by simp [Block.bytes])
      (by simp [Block.bytes, maxObjectBytes]) ?_ trivial
    intro l hl
    exact (List.mem_append.1 hl).elim (h.linksOk_lookupVal hthunk l)
      (h.linksOk_lookupVal hcached l)
  | leaf bytes =>
    simp only [Op.evacuable, decide_eq_true_eq] at hevacuable
    exact h.allocLocal (b := .leaf bytes) rfl hevacuable.1 hevacuable.2 (by simp [LinksOk]) trivial
  | hash capacity =>
    by_cases hzero : capacity = 0
    · simp [execAlloc, hzero, Lifted]
    · simp only [execAlloc, if_neg hzero]
      have halloc := h.alloc (b := .storage (List.replicate capacity .empty))
        (by simp [Block.bytes]; omega) (by simp [Block.kind, Kind.target])
        (by simp [LinksOk]) trivial
      obtain ⟨hsim, haddr, hself, -⟩ := halloc
      have htable := hsim.allocLocal (b := .hash capacity 0 0
        (s.alloc (.storage (List.replicate capacity .empty))).1 s.store.regions.length) rfl
        (by simp [Block.bytes]) (by simp [Block.bytes, maxObjectBytes])
        (by
          simp only [LinksOk, links_hash, List.mem_singleton, forall_eq]
          exact ⟨_, hself, le_rfl, rfl⟩)
        ⟨rfl, by rw [Mem.levelOf, hself]; rfl⟩
      simp only [erase_storage, List.map_replicate, erase_empty, erase_hash, ← haddr] at htable
      simpa [Lifted, h.store.erased] using htable
  | closure funcPtr captures =>
    simp only [execAlloc, mapM_eq h.lookup_eq]
    apply Lifted.of_map
    intro cs hcs
    have hlinks : ∀ l ∈ cs.flatMap links, LinkOk s.store.mem s.store.regions.length l := by
      intro l hl
      obtain ⟨c, hc, hlc⟩ := List.mem_flatMap.1 hl
      exact mapM_forall (P := LinksOk s.store.mem s.store.regions.length)
        (fun x c => h.linksOk_lookup) hcs c hc l hlc
    cases cs with
    | nil =>
      exact h.allocLocal (b := .closure funcPtr none) rfl (by simp [Block.bytes])
        (by simp [Block.bytes, maxObjectBytes]) (by simp [LinksOk]) trivial
    | cons c cs =>
      obtain ⟨hsim, haddr, hself, -⟩ := h.alloc (b := .env (c :: cs))
        (by simp only [Block.bytes]; omega) (by simp [Block.kind, Kind.target]) hlinks trivial
      have hclosure := hsim.allocLocal (b := .closure funcPtr (some (s.alloc (.env (c :: cs))).1))
        rfl (by simp [Block.bytes]) (by simp [Block.bytes, maxObjectBytes])
        (by
          simp only [LinksOk, links_closure, Option.toList_some, List.map_cons, List.map_nil,
            List.mem_singleton, forall_eq]
          exact ⟨_, hself, le_rfl, rfl⟩) trivial
      simp only [erase_closure, Option.map_some, ← haddr] at hclosure
      exact hclosure
  | cell x =>
    simp only [execAlloc, h.lookupVal_eq]
    apply Lifted.of_map
    intro v hv
    obtain ⟨hsim, haddr, hself, -⟩ := h.alloc (b := .cell v) (by simp [Block.bytes])
      (by simp [Block.kind, Kind.target]) (h.linksOk_lookupVal hv) trivial
    have hlink : LinksOk (s.alloc (.cell v)).2.store.mem (s.alloc (.cell v)).2.store.regions.length
        (Capture.cell (s.alloc (.cell v)).1) := by
      simp only [LinksOk, links_captureCell, List.mem_singleton, forall_eq]
      exact ⟨_, hself, le_rfl, rfl⟩
    have hbind := (hsim.bindLocal hlink).emit .done
    rw [erase_captureCell, ← haddr] at hbind
    exact hbind
  | _ => trivial

/-- The contents of a block that missed no mutation. -/
lemma Sim.heap_current (h : Sim s e) {a : Addr} {o : Obj} (ha : s.store.mem.heap a = some o)
    (hcur : o.current = true) : ∃ o', e.store.mem.heap a.origin = some o' ∧
      o'.block = erase o.block := by
  obtain ⟨o', ho', -, himage⟩ := h.store.image ha
  exact ⟨o', ho', himage hcur⟩

/-- The part of a block that an operation goes to is live. -/
lemma Sim.live_holder (h : Sim s e) {a x : Addr} {o : Obj} {p : Target}
    (ha : s.store.mem.heap a = some o) (hx : o.block.holder a p = some x) :
    ∃ ox, s.store.mem.heap x = some ox := by
  obtain ⟨rfl, -⟩ | hlink := holder_cases hx
  · exact ⟨o, ha⟩
  · obtain ⟨ox, hox, -⟩ := (h.store.heap.closed a o ha).1 _ hlink
    exact ⟨ox, hox⟩

lemma Sim.observe_eq (h : Sim s e) {c : Capture} {k : ℕ} (hc : LinksOk s.store.mem k c) :
    e.observe (erase c) = s.observe c := by
  cases c with
  | cell a => rfl
  | val v =>
    cases v with
    | int n => rfl
    | imm c => rfl
    | ref a =>
      obtain ⟨o, ho, -⟩ := hc ⟨.object, a⟩ (by simp)
      obtain ⟨o', ho', hkind, -⟩ := h.store.image ho
      simp [State.observe, ho, ho', hkind]

/-- Both runs get to the same part of the same block. -/
lemma holder_sim {R : State → State → Prop} (h : Sim s e) {x : Loc} {p : Target}
    {f g : Addr → Addr → Option State}
    (hcur : ∀ a ∈ State.accessed.access s x p, ∀ o, s.store.mem.heap a = some o →
      o.current = true)
    (hfg : ∀ a b oa ob, s.address x = some a → s.store.mem.heap a = some oa →
      oa.block.holder a p = some b → s.store.mem.heap b = some ob → ob.current = true →
      Lifted R (f a b) (g a.origin b.origin)) :
    Lifted R ((s.address x).bind fun a => (s.holder a p).bind (f a))
      ((e.address x).bind fun a => (e.holder a p).bind (g a)) := by
  rw [h.address_eq]
  apply Lifted.of_map
  intro a ha
  obtain ⟨oa, hoa⟩ := h.live_address ha
  have hmem : a ∈ State.accessed.access s x p := by simp [State.accessed.access, ha]
  obtain ⟨oa', hoa', hblock⟩ := h.heap_current hoa (hcur a hmem oa hoa)
  have hholder : e.holder a.origin p = (s.holder a p).map Addr.origin := by
    simp [State.holder, hoa, hoa', hblock, holder_erase]
  rw [hholder]
  apply Lifted.of_map
  intro b hb
  have hb' : oa.block.holder a p = some b := by simpa [State.holder, hoa] using hb
  obtain ⟨ob, hob⟩ := h.live_holder hoa hb'
  have hmem' : b ∈ State.accessed.access s x p := by simp [State.accessed.access, ha, hb]
  exact hfg a b oa ob ha hoa hb' hob (hcur b hmem' ob hob)

lemma execRead_sim (h : Sim s e) {x : Loc} {f : Field}
    (hcur : ∀ a ∈ State.accessed.access s x f.part, ∀ o, s.store.mem.heap a = some o →
      o.current = true) : Lifted Sim (execRead x f s) (execRead x f e) := by
  apply holder_sim h hcur
  intro a b oa ob _ _ _ hob hbcur
  obtain ⟨ob', hob', hblock⟩ := h.heap_current hob hbcur
  simp only [Option.bind_eq_bind, hob, hob', Option.bind_some, hblock, get_erase]
  apply Lifted.of_map
  intro c hc
  have hlevel := (h.store.heap.represents b ob hob).level_le
  have hlinks : LinksOk s.store.mem s.store.regions.length c := fun l hl =>
    ((h.store.heap.closed b ob hob).1 l (links_get hc hl)).ext (Ext.refl _) hlevel
  rw [h.observe_eq hlinks]
  cases s.observe c with
  | none => trivial
  | some seen => exact (h.bindLocal hlinks).emit seen

/-- Where the parts of a container live: the barrier for the container is the barrier for the
part. -/
lemma level_holder {f : Addr → Option Block} {d : ℕ} {m : Mem} (h : HeapInv f d m) {a b : Addr}
    {oa ob : Obj} {p : Target} (ha : m.heap a = some oa) (hb : oa.block.holder a p = some b)
    (hob : m.heap b = some ob) (hp : p ≠ .env) : oa.level = ob.level := by
  have hself : b = a → oa.level = ob.level := by
    rintro rfl
    cases ha.symm.trans hob
    rfl
  obtain ⟨hba, -⟩ | hlink := holder_cases hb
  · exact hself hba
  · cases p with
    | env => exact absurd rfl hp
    | storage =>
      obtain ⟨_, _, _, _, hblock⟩ := eq_hash_of_mem_links hlink rfl
      have hhome := (h.closed a oa ha).2
      rw [hblock] at hhome
      simpa [Mem.levelOf, hob] using hhome.2.symm
    | object =>
      cases hblock : oa.block <;> simp_all [Block.holder]
    | cell =>
      cases hblock : oa.block <;> simp_all [Block.holder]

lemma update_atHome {b b' : Block} {u : Update} {vs : List Val} {m : Mem} {k : ℕ}
    (h : b.update u vs = some b') (hhome : b.AtHome m k) : b'.AtHome m k := by
  revert h
  fun_cases Block.update b u vs
  case case9 =>
    rintro ⟨⟩
    exact hhome
  case case12 =>
    intro h
    obtain ⟨key, -, rfl⟩ := Option.map_eq_some_iff.1 h
    trivial
  all_goals
    rintro ⟨⟩
  all_goals trivial

/-- Both runs store the same values in the same part. -/
lemma storeInto_sim (h : Sim s e) (hints : IntsOk (arenaAt s.store.mem) s.store.mem)
    {a b : Addr} {oa ob : Obj} {u : Update} {vs : List Val}
    (ha : s.store.mem.heap a = some oa) (hob : s.store.mem.heap b = some ob)
    (hab : oa.level = ob.level) (hcur : ob.current = true)
    (hvs : LinksOk s.store.mem s.store.regions.length vs) :
    Lifted Sim (storeInto arenaAt a b u vs s)
      (storeInto arenaAt a.origin b.origin u (vs.map erase) e) := by
  obtain ⟨vs', st, hrun, hprom, herase, hlinks⟩ :=
    regionWriteBarrierRange_sim h.store hints ha hvs
  obtain ⟨ob₁, hob₁, hlevel₁, hkind₁, hcur₁⟩ := hprom.ext b ob hob
  obtain ⟨oe, hoe, -, himage⟩ := hprom.sim.image hob₁
  have hblock : oe.block = erase ob₁.block := himage (hcur₁.trans hcur)
  simp only [storeInto, hrun, regionWriteBarrierRange_erased h.store.erased,
    Option.bind_eq_bind, Option.bind_some, hob₁, hoe, hblock, ← herase, update_erase]
  apply Lifted.of_map
  intro b' hb'
  obtain ⟨hkind, hbytes, hsub⟩ := update_facts hb'
  have hrep := hprom.sim.heap.represents b ob₁ hob₁
  obtain ⟨hclosed, hhome⟩ := hprom.sim.heap.closed b ob₁ hob₁
  have hlevel : oa.level = ob₁.level := hab.trans hlevel₁.symm
  have hblinks : LinksOk st.mem ob₁.level b' := by
    intro l hl
    obtain hl | hl := List.mem_append.1 (hsub hl)
    · exact hclosed l hl
    · exact hlevel ▸ hlinks l hl
  have hstore := store_sim hprom.sim hob₁ hkind (hbytes ▸ hrep.bytes_pos)
    (fun ht => hbytes ▸ hrep.bytes_le (hkind ▸ ht)) hblinks (update_atHome hb' hhome)
  have hkeeps := keeps_store hob₁ hkind
  refine ⟨hstore, congrArg (Obs.done :: ·) h.trace_eq, h.scopes_eq, ?_,
    (h.locals.keeps hprom.ext.keeps).keeps hkeeps⟩
  exact h.depth.trans (congrArg (· + 1) hprom.depth_eq.symm)

lemma execWrite_sim (h : Sim s e) (hints : IntsOk (arenaAt s.store.mem) s.store.mem) {x : Loc}
    {u : Update} {args : List Loc}
    (hcur : ∀ a ∈ State.accessed.access s x u.part, ∀ o, s.store.mem.heap a = some o →
      o.current = true) : Lifted Sim (execWrite arenaAt x u args s) (execWrite arenaAt x u args e) := by
  apply holder_sim h hcur
  intro a b oa ob _ hoa hb hob hbcur
  simp only [Option.bind_eq_bind, mapM_eq h.lookupVal_eq]
  apply Lifted.of_map
  intro vs hvs
  have hp : u.part ≠ .env := by cases u <;> simp [Update.part]
  apply storeInto_sim h hints hoa hob (level_holder h.store.heap hoa hb hob hp) hbcur
  · intro l hl
    obtain ⟨v, hv, hlv⟩ := List.mem_flatMap.1 hl
    exact mapM_forall (P := LinksOk s.store.mem s.store.regions.length)
      (fun x v => h.linksOk_lookupVal) hvs v hv l hlv

lemma slice_erase (b : Block) (start stop : ℕ) :
    (erase b).slice start stop = (b.slice start stop).map (List.map erase) := by
  cases b with
  | vector elems =>
    by_cases hbounds : start ≤ stop ∧ stop ≤ elems.length
    · simp [Block.slice, hbounds, List.map_take, List.map_drop]
    · simp [Block.slice, hbounds]
  | _ => rfl

lemma links_slice {b : Block} {start stop : ℕ} {vs : List Val}
    (h : b.slice start stop = some vs) : vs.flatMap links ⊆ links b := by
  cases b with
  | vector elems =>
    simp only [Block.slice, Option.ite_none_right_eq_some, Option.some.injEq] at h
    obtain ⟨-, rfl⟩ := h
    intro l hl
    obtain ⟨v, hv, hlv⟩ := List.mem_flatMap.1 hl
    exact List.mem_flatMap.2 ⟨v, List.mem_of_mem_drop (List.mem_of_mem_take hv), hlv⟩
  | _ => cases h

lemma execVectorCopy_sim (h : Sim s e) (hints : IntsOk (arenaAt s.store.mem) s.store.mem)
    {dst src : Loc} {at_ start stop : ℕ}
    (hcur : ∀ a ∈ s.accessed (.vectorCopy dst at_ src start stop), ∀ o,
      s.store.mem.heap a = some o → o.current = true) :
    Lifted Sim (execVectorCopy arenaAt dst at_ src start stop s)
      (execVectorCopy arenaAt dst at_ src start stop e) := by
  simp only [execVectorCopy, Option.bind_eq_bind, h.address_eq]
  apply Lifted.of_map
  intro a ha
  apply Lifted.of_map
  intro b hb
  obtain ⟨oa, hoa⟩ := h.live_address ha
  obtain ⟨ob, hob⟩ := h.live_address hb
  have hacur := hcur a (by simp [State.accessed, State.accessed.access, ha]) oa hoa
  have hbcur := hcur b (by simp [State.accessed, State.accessed.access, hb]) ob hob
  obtain ⟨ob', hob', hblock⟩ := h.heap_current hob hbcur
  simp only [hob, hob', Option.bind_some, hblock, slice_erase]
  apply Lifted.of_map
  intro vs hvs
  apply storeInto_sim h hints hoa hoa rfl hacur
  intro l hl
  have hlevel := (h.store.heap.represents b ob hob).level_le
  exact ((h.store.heap.closed b ob hob).1 l (links_slice hvs hl)).ext (Ext.refl _) hlevel

lemma rehash_erase (entries : List Entry) (layout : List (Option ℕ)) :
    rehash (entries.map erase) layout = (rehash entries layout).map (List.map erase) := by
  apply mapM_eq
  rintro (_ | j)
  · rfl
  · simp only [List.getElem?_map]
    cases entries[j]? with
    | none => rfl
    | some x => cases x <;> rfl

lemma links_rehash {entries entries' : List Entry} {layout : List (Option ℕ)}
    (h : rehash entries layout = some entries') : entries'.flatMap links ⊆ entries.flatMap links := by
  have hall : ∀ x ∈ entries', links x ⊆ entries.flatMap links := by
    refine mapM_forall ?_ h
    rintro (_ | j) x hx
    · cases hx
      simp
    · exact links_getElem?_subset (Option.filter_eq_some_iff.1 hx).1
  intro l hl
  obtain ⟨x, hx, hlx⟩ := List.mem_flatMap.1 hl
  exact hall x hx hlx

lemma execHashResize_sim (h : Sim s e) {x : Loc} {layout : List (Option ℕ)}
    (hcur : ∀ a ∈ State.accessed.access s x .storage, ∀ o, s.store.mem.heap a = some o →
      o.current = true) :
    Lifted Sim (execHashResize x layout s) (execHashResize x layout e) := by
  simp only [execHashResize, Option.bind_eq_bind, h.address_eq]
  apply Lifted.of_map
  intro a ha
  obtain ⟨oa, hoa⟩ := h.live_address ha
  have hacur := hcur a (by simp [State.accessed.access, ha]) oa hoa
  obtain ⟨oa', hoa', hblock⟩ := h.heap_current hoa hacur
  simp only [hoa, hoa', Option.bind_some, hblock]
  cases hb : oa.block with
  | hash capacity size tombstones arrays home =>
    by_cases hlen : 0 < capacity ∧ layout.length = 2 * capacity
    · have hholder : s.holder a .storage = some arrays := by
        simp [State.holder, hoa, hb, Block.holder]
      obtain ⟨or, hor, -, hkind⟩ := (h.store.heap.closed a oa hoa).1 ⟨.storage, arrays⟩
        (by simp [hb])
      have hrcur := hcur arrays (by simp [State.accessed.access, ha, hholder]) or hor
      obtain ⟨or', hor', hblock'⟩ := h.heap_current hor hrcur
      simp only [erase_hash, if_pos hlen, hor, hor', Option.bind_some, hblock']
      cases hr : or.block with
      | storage entries =>
        simp only [erase_storage, rehash_erase]
        apply Lifted.of_map
        intro entries' hentries
        have hhome := (h.store.heap.closed a oa hoa).2
        rw [hb] at hhome
        obtain ⟨rfl, hlevel⟩ := hhome
        have hrlevel : or.level = oa.level := by simpa [Mem.levelOf, hor] using hlevel
        have hsize : entries'.length = layout.length := mapM_length hentries
        have hpos : 0 < (Block.storage entries').bytes := by
          simp only [Block.bytes, hsize]
          omega
        have hlinks : LinksOk s.store.mem oa.level (Block.storage entries') := by
          intro l hl
          have hmem : l ∈ links or.block := hr ▸ links_rehash hentries hl
          exact hrlevel ▸ (h.store.heap.closed arrays or hor).1 l hmem
        obtain ⟨hsim, haddr, hself⟩ := alloc_sim h.store 0 (h.store.heap.represents a oa hoa).level_le
          hpos (by simp [Block.kind, Kind.target]) hlinks trivial
        have hkeeps := keeps_alloc (k := oa.level) (b := .storage entries') h.store.heap
        obtain ⟨oa₁, hoa₁, hlevel₁, hkind₁⟩ := hkeeps a oa hoa
        have hstore := store_sim (b := .hash (2 * capacity) size 0
            (s.store.mem.alloc oa.level (.storage entries')).1 oa.level) hsim hoa₁
          (by rw [hkind₁, hb]; rfl) (by simp [Block.bytes])
          (by simp [Block.bytes, maxObjectBytes])
          (by
            simp only [LinksOk, links_hash, List.mem_singleton, forall_eq]
            exact ⟨_, hself, hlevel₁.ge, rfl⟩)
          ⟨hlevel₁.symm, by rw [Mem.levelOf, hself]; exact hlevel₁.symm⟩
        have hkeeps' := keeps_store (b := .hash (2 * capacity) size 0
          (s.store.mem.alloc oa.level (.storage entries')).1 oa.level) hoa₁ (by rw [hkind₁, hb]; rfl)
        refine ⟨?_, congrArg (Obs.done :: ·) h.trace_eq, h.scopes_eq, h.depth,
          (h.locals.keeps hkeeps).keeps hkeeps'⟩
        rw [erase_hash, show (s.store.mem.alloc oa.level (.storage entries')).1.origin =
          (e.store.mem.alloc 0 (.storage (entries'.map erase))).1 from haddr.symm] at hstore
        exact hstore
      | _ => simp [hr, Block.kind, Kind.target] at hkind
    · simp [hlen, Lifted]
  | _ => simp [Lifted]

lemma execRegionPush_sim (h : Sim s e) (hroom : s.store.regions.length < maxRegionDepth) :
    Sim (execRegionPush false s) (execRegionPush true e) := by
  obtain ⟨hsim, hmem, hlen⟩ := regionPush_sim h.store hroom
  refine ⟨hsim, congrArg (Obs.done :: ·) h.trace_eq, ?_, ?_, ?_⟩
  · simp [execRegionPush, h.scopes_eq]
  · simp only [execRegionPush, List.length_cons, h.depth]
    exact (congrArg (· + 1) hlen).symm
  · refine ⟨by simp [LinksOk], ?_⟩
    simp only [execRegionPush, Bool.false_eq_true, if_false, hmem]
    exact h.locals

/-- The result is promoted before the region's arena is freed. -/
lemma execRegionPop_sim (h : Sim s e) (hints : IntsOk (arenaAt s.store.mem) s.store.mem)
    (result : Loc) :
    Lifted Sim (execRegionPop arenaAt false result s) (execRegionPop arenaAt true result e) := by
  simp only [execRegionPop, Option.bind_eq_bind, h.lookupVal_eq]
  apply Lifted.of_map
  intro v hv
  have hdepth := h.depth
  have hlocals := h.locals
  have hscopes := h.scopes_eq
  cases hs : s.scopes with
  | nil => simp [hs] at hdepth
  | cons inner rest =>
    cases rest with
    | nil => simp [hscopes, hs, Lifted]
    | cons outer rest =>
      rw [hs] at hdepth hlocals
      obtain ⟨r, regions, hregions⟩ : ∃ r regions, s.store.regions = r :: regions := by
        cases hr : s.store.regions with
        | nil => simp [hr] at hdepth
        | cons r regions => exact ⟨r, regions, rfl⟩
      have hlen : regions.length = rest.length := by simpa [hregions] using hdepth.symm
      obtain ⟨v', st, hrun, hprom, herase, hlinks⟩ :=
        regionEscapeTaggedValue_sim h.store hregions hints (h.linksOk_lookupVal hv)
      obtain ⟨r', regions', hregions'⟩ : ∃ r' regions', st.regions = r' :: regions' := by
        cases hr : st.regions with
        | nil => simpa [hr, hregions] using hprom.depth_eq
        | cons r' regions' => exact ⟨r', regions', rfl⟩
      have hlen' : regions'.length = regions.length := by
        simpa [hregions, hregions'] using hprom.depth_eq
      have hpop : (regionPop st).regions = regions' ∧
          (regionPop st).mem = st.mem.free (regions'.length + 1) := by simp [regionPop, hregions']
      simp only [hscopes, hs, erase_list, List.map_cons, hrun, Option.bind_some,
        Bool.false_eq_true, if_false, if_true]
      refine ⟨regionPop_sim hprom.sim hregions', congrArg (Obs.done :: ·) h.trace_eq, ?_, ?_, ?_⟩
      · simp [herase]
      · simp [hpop.1, hlen', hlen]
      · have houter : ScopesOk (st.mem.free (regions'.length + 1)) (outer :: rest) :=
          (hlocals.2.keeps hprom.ext.keeps).free (by simp [hlen', hlen])
        simp only [hpop.2]
        refine ⟨fun l hl => ?_, houter.2⟩
        obtain hl | hl := List.mem_append.1 (by simpa using hl : l ∈ links outer ++ links v')
        · exact houter.1 l hl
        · exact hlen ▸ (hlinks l hl).free (by omega)

/-- Every operation that finds the state in order does the same in both runs. -/
lemma exec_sim (h : Sim s e) {op : Op} (hop : Allowed arenaAt s op) :
    Lifted Sim (exec arenaAt false op s) (exec arenaAt true op e) := by
  have hints : IntsOk (arenaAt s.store.mem) s.store.mem := hop.ints
  cases op with
  | int n => exact (h.bindLocal (c := .val (.int n)) (by simp [LinksOk])).emit .done
  | imm c => exact (h.bindLocal (c := .val (.imm c)) (by simp [LinksOk])).emit .done
  | read x f => exact execRead_sim h hop.current
  | write x u args => exact execWrite_sim h hints hop.current
  | vectorCopy dst at_ src start stop => exact execVectorCopy_sim h hints hop.current
  | hashResize x layout => exact execHashResize_sim h hop.current
  | regionPush => exact execRegionPush_sim h (hop.room rfl)
  | regionPop result => exact execRegionPop_sim h hints result
  | _ => exact execAlloc_sim h hop.evacuable

lemma sim_init : Sim .init .init := by
  refine ⟨⟨rfl, rfl, ⟨fun a o ho => ?_, fun a o ho => ?_⟩, trivial⟩, rfl, rfl, rfl, ?_⟩
  · cases ho
  · cases ho
  · exact ⟨by simp [LinksOk], trivial⟩

end operations

/-- In every run whose operations find the state in order, the program observes what it observes
with the region operations erased, and comes as far. -/
theorem run_transparent (arenaAt : Mem → ℤ → ℕ) (prog : Prog) (n : ℕ)
    (h : ∀ k < n, ∀ s op, run arenaAt false prog k = some s → prog s.trace = some op →
      Allowed arenaAt s op) :
    (run arenaAt false prog n).map State.trace = (run arenaAt true prog n).map State.trace := by
  have hlock : Lifted Sim (run arenaAt false prog n) (run arenaAt true prog n) := by
    refine lockstep sim_init fun k hk s e hs _ hsim => ?_
    simp only [step, hsim.trace_eq]
    cases hop : prog s.trace with
    | none => trivial
    | some op => exact exec_sim hsim (h k hk s op hs hop)
  cases hs : run arenaAt false prog n with
  | none => rw [hlock.of_none hs]
  | some s =>
    obtain ⟨e, he, hsim⟩ := hlock.of_some hs
    simp [he, hsim.trace_eq]

/-! ## Two programs -/

/-- The program that performs the given operations in order. -/
def straightLine (ops : List Op) : Prog := fun trace => ops[trace.length]?

/-- The decidable part of `Allowed`. -/
def State.inOrder (s : State) (op : Op) : Bool :=
  ((s.accessed op).all fun a => (s.store.mem.heap a).all (·.current)) &&
    (op != .regionPush || decide (s.store.regions.length < maxRegionDepth)) && op.evacuable

lemma allowed_of_inOrder {s : State} {op : Op} (h : s.inOrder op = true) :
    Allowed (fun _ _ => 0) s op := by
  simp only [State.inOrder, Bool.and_eq_true, List.all_eq_true, Bool.or_eq_true, bne_iff_ne,
    decide_eq_true_eq] at h
  obtain ⟨⟨hcurrent, hroom⟩, hevacuable⟩ := h
  refine ⟨fun a ha o ho => ?_, fun hop => hroom.resolve_left (not_not.2 hop), hevacuable,
    fun _ _ _ _ _ => rfl⟩
  simpa [ho] using hcurrent a ha

/-- A pair made in a region is stored in a vector outside, read there, and mutated there after the
region is gone. -/
def storeThenLeave : List Op :=
  [.imm 0, .vector [⟨0, 0⟩], .regionPush, .int 1, .int 2, .cons ⟨0, 0⟩ ⟨0, 1⟩,
    .write ⟨1, 1⟩ (.vectorSet 0) [⟨0, 2⟩], .regionPop ⟨0, 0⟩, .read ⟨0, 1⟩ (.elem 0), .int 5,
    .write ⟨0, 3⟩ .setCar [⟨0, 4⟩], .read ⟨0, 1⟩ (.elem 0), .read ⟨0, 5⟩ .car]

theorem run_transparent_storeThenLeave :
    (run (fun _ _ => 0) false (straightLine storeThenLeave) 13).map (fun s => s.trace.head?) =
        some (some (.int 5)) ∧
      (run (fun _ _ => 0) false (straightLine storeThenLeave) 13).map State.trace =
        (run (fun _ _ => 0) true (straightLine storeThenLeave) 13).map State.trace := by
  refine ⟨by decide +kernel, run_transparent _ _ 13 fun k hk s op hs hop => ?_⟩
  have hcheck : ∀ k < 13, (run (fun _ _ => 0) false (straightLine storeThenLeave) k).all
      (fun s => (straightLine storeThenLeave s.trace).all s.inOrder) = true := by decide +kernel
  have hk' := hcheck k hk
  rw [hs] at hk'
  simp only [Option.all_some, hop] at hk'
  exact allowed_of_inOrder hk'

/-- The pair is mutated inside the region after it was stored outside. -/
def storeThenMutate : List Op :=
  [.imm 0, .vector [⟨0, 0⟩], .regionPush, .int 1, .int 2, .cons ⟨0, 0⟩ ⟨0, 1⟩,
    .write ⟨1, 1⟩ (.vectorSet 0) [⟨0, 2⟩], .int 5, .write ⟨0, 2⟩ .setCar [⟨0, 3⟩],
    .read ⟨1, 1⟩ (.elem 0), .read ⟨0, 4⟩ .car]

/-- The vector holds the promoted copy, which still has the old car. -/
theorem storeThenMutate_observed :
    (run (fun _ _ => 0) false (straightLine storeThenMutate) 11).map (fun s => s.trace.head?) =
        some (some (.int 1)) ∧
      (run (fun _ _ => 0) true (straightLine storeThenMutate) 11).map (fun s => s.trace.head?) =
        some (some (.int 5)) := by
  constructor <;> decide +kernel

end Region
