import Eshkol.Region.Evacuate
import Mathlib.Data.Finset.Prod

/-!
# What an evacuation does

It finishes, it keeps the level and the kind of every block that was there before, and the value
it returns denotes the same allocations as the value it was given, all of them at or outside the
boundary. The heap is compared with the heap `e` of the run without regions, which has one block
for each allocation.
-/

namespace Region

open PartialState

/-! ## Heaps that represent a heap without regions -/

/-- A pointer to a live block of the right kind, at or outside level `k`. -/
def LinkOk (m : Mem) (k : ℕ) (l : Link) : Prop :=
  ∃ o, m.heap l.addr = some o ∧ o.level ≤ k ∧ o.block.kind.target = l.target

/-- All pointers of `x` are live and at or outside level `k`. -/
def LinksOk {α : Type} [Slotted α] (m : Mem) (k : ℕ) (x : α) : Prop :=
  ∀ l ∈ links x, LinkOk m k l

/-- A table's arrays live, and are allocated again, where the table lives. -/
def Block.AtHome (m : Mem) (k : ℕ) : Block → Prop
  | .hash _ _ _ arrays home => home = k ∧ m.levelOf arrays = k
  | _ => True

/-- The live block `o` at `a` stands for the block that `e` has for its allocation; if no
mutation was missed, it has the same contents. -/
structure Represents (e : Addr → Option Block) (m : Mem) (d : ℕ) (a : Addr) (o : Obj) :
    Prop where
  obj_lt : a.obj < m.nextId
  copy_le : a.copy ≤ m.copies
  level_le : o.level ≤ d
  bytes_pos : 0 < o.block.bytes
  bytes_le : o.block.kind.target = .object → o.block.bytes ≤ maxObjectBytes
  image : ∃ b, e a.origin = some b ∧ b.kind = o.block.kind ∧ (o.current → b = erase o.block)

/-- No captured integer is the address of something inside an active region. -/
def IntsOk (own : ℤ → ℕ) (m : Mem) : Prop :=
  ∀ a o, m.heap a = some o → ∀ n ∈ o.block.capturedInts, own n = 0

/-- Live blocks stay live, where they are and what they are. -/
def Keeps (m m' : Mem) : Prop :=
  ∀ a o, m.heap a = some o → ∃ o', m'.heap a = some o' ∧ o'.level = o.level ∧
    o'.block.kind = o.block.kind

/-- Moreover nothing is mutated. -/
def Ext (m m' : Mem) : Prop :=
  ∀ a o, m.heap a = some o → ∃ o', m'.heap a = some o' ∧ o'.level = o.level ∧
    o'.block.kind = o.block.kind ∧ o'.current = o.current

lemma Ext.refl (m : Mem) : Ext m m := fun _ o h => ⟨o, h, rfl, rfl, rfl⟩

lemma Ext.trans {m₁ m₂ m₃ : Mem} (h : Ext m₁ m₂) (h' : Ext m₂ m₃) : Ext m₁ m₃ := by
  intro a o ho
  obtain ⟨o₂, ho₂, hl, hk, hc⟩ := h a o ho
  obtain ⟨o₃, ho₃, hl', hk', hc'⟩ := h' a o₂ ho₂
  exact ⟨o₃, ho₃, hl'.trans hl, hk'.trans hk, hc'.trans hc⟩

lemma Ext.keeps {m m' : Mem} (h : Ext m m') : Keeps m m' := by
  intro a o ho
  obtain ⟨o', ho', hl, hk, -⟩ := h a o ho
  exact ⟨o', ho', hl, hk⟩

lemma LinkOk.keeps {m m' : Mem} {k k' : ℕ} {l : Link} (h : LinkOk m k l) (hm : Keeps m m')
    (hk : k ≤ k') : LinkOk m' k' l := by
  obtain ⟨o, ho, hlevel, htarget⟩ := h
  obtain ⟨o', ho', hl, hkind⟩ := hm l.addr o ho
  exact ⟨o', ho', by omega, hkind ▸ htarget⟩

lemma LinkOk.ext {m m' : Mem} {k k' : ℕ} {l : Link} (h : LinkOk m k l) (hm : Ext m m')
    (hk : k ≤ k') : LinkOk m' k' l := h.keeps hm.keeps hk

lemma LinksOk.keeps {α : Type} [Slotted α] {m m' : Mem} {k k' : ℕ} {x : α}
    (h : LinksOk m k x) (hm : Keeps m m') (hk : k ≤ k') : LinksOk m' k' x :=
  fun l hl => (h l hl).keeps hm hk

lemma LinksOk.ext {α : Type} [Slotted α] {m m' : Mem} {k k' : ℕ} {x : α}
    (h : LinksOk m k x) (hm : Ext m m') (hk : k ≤ k') : LinksOk m' k' x := h.keeps hm.keeps hk

lemma Keeps.levelOf {m m' : Mem} (h : Keeps m m') {a : Addr} {o : Obj}
    (ho : m.heap a = some o) : m'.levelOf a = m.levelOf a := by
  obtain ⟨o', ho', hl, -⟩ := h a o ho
  simp [Mem.levelOf, ho, ho', hl]

lemma Ext.levelOf {m m' : Mem} (h : Ext m m') {a : Addr} {o : Obj} (ho : m.heap a = some o) :
    m'.levelOf a = m.levelOf a := h.keeps.levelOf ho

/-- The arrays of a table stay where they are. -/
lemma Block.AtHome.keeps {m m' : Mem} {k : ℕ} {b : Block} (h : b.AtHome m k) (hm : Keeps m m')
    (hlinks : LinksOk m k b) : b.AtHome m' k := by
  cases b with
  | hash capacity size tombstones arrays home =>
    obtain ⟨o, ho, -⟩ := hlinks ⟨.storage, arrays⟩ (by simp)
    exact ⟨h.1, (hm.levelOf ho).trans h.2⟩
  | _ => trivial

lemma Block.AtHome.ext {m m' : Mem} {k : ℕ} {b : Block} (h : b.AtHome m k) (hm : Ext m m')
    (hlinks : LinksOk m k b) : b.AtHome m' k := h.keeps hm.keeps hlinks

/-! ## The state of an evacuation -/

section evacuation

/- `e` is the heap without regions, `d` the current depth, `t` the boundary, `own` the placement of
arenas in the address space, `U` the addresses inside the boundary. -/
variable (e : Addr → Option Block) (d t : ℕ) (own : ℤ → ℕ) (U : Finset Addr)

/-- `Q` holds of the copies that are being rewritten; like those on the worklist, their contents
may still point inside the boundary. -/
structure EvacInv (Q : Addr → Prop) (st : EvacState) : Prop where
  boundary_le : t ≤ d
  represents : ∀ a o, st.mem.heap a = some o → Represents e st.mem d a o
  closed : ∀ a o, st.mem.heap a = some o → a ∉ st.worklist → ¬ Q a →
    LinksOk st.mem o.level o.block ∧ o.block.AtHome st.mem o.level
  pending : ∀ a o, st.mem.heap a = some o → a ∈ st.worklist ∨ Q a → o.level = t ∧
    LinksOk st.mem d o.block ∧
    ∀ l ∈ links o.block, l.target = .storage → t < st.mem.levelOf l.addr
  ints : IntsOk own st.mem
  fwd_ok : ∀ a a', st.fwd a = some a' → a'.obj = a.obj ∧
    ∃ o, st.mem.heap a' = some o ∧ o.level = t
  inner : ∀ a o, st.mem.heap a = some o → t < o.level → a ∈ U
  work_live : ∀ a, a ∈ st.worklist ∨ Q a → ∃ o, st.mem.heap a = some o
  work_object : ∀ a ∈ st.worklist, ∀ o, st.mem.heap a = some o → o.block.kind.target = .object
  work_nodup : st.worklist.Nodup

/-- The blocks that can still be copied, and the copies that still have to be rewritten. -/
def remaining (st : EvacState) : ℕ := (U.filter fun a => st.fwd a = none).card + st.worklist.length

/-- How an evacuation moves its state. -/
structure Advances (st st' : EvacState) : Prop where
  ext : Ext st.mem st'.mem
  nextId_eq : st'.mem.nextId = st.mem.nextId
  work : ∀ a ∈ st'.worklist, a ∈ st.worklist ∨ st.mem.heap a = none
  remaining_le : remaining U st' ≤ remaining U st

instance : IsPreorder EvacState (Advances U) where
  refl st := ⟨Ext.refl st.mem, rfl, fun _ h => Or.inl h, le_refl _⟩
  trans st₁ st₂ st₃ h h' := by
    refine ⟨h.ext.trans h'.ext, h'.nextId_eq.trans h.nextId_eq, fun a ha => ?_,
      h'.remaining_le.trans h.remaining_le⟩
    obtain ha | ha := h'.work a ha
    · exact h.work a ha
    · right
      cases hm : st₁.mem.heap a with
      | none => rfl
      | some o =>
        obtain ⟨o', ho', -⟩ := h.ext a o hm
        rw [ha] at ho'
        cases ho'

variable {e : Addr → Option Block} {d t : ℕ} {own : ℤ → ℕ} {U : Finset Addr} {Q : Addr → Prop}
  {st : EvacState} {a : Addr} {o : Obj}

namespace EvacInv

/-- The address of the next copy is free. -/
lemma fresh (h : EvacInv e d t own U Q st) (n : ℕ) :
    st.mem.heap ⟨n, st.mem.copies + 1⟩ = none := by
  cases hm : st.mem.heap ⟨n, st.mem.copies + 1⟩ with
  | none => rfl
  | some o =>
    have hle := (h.represents _ o hm).copy_le
    exact absurd hle (Nat.not_succ_le_self _)

/-- What lies inside the boundary is not under construction. -/
lemma closed_of_inner (h : EvacInv e d t own U Q st) (ha : st.mem.heap a = some o)
    (hin : t < o.level) : LinksOk st.mem o.level o.block ∧ o.block.AtHome st.mem o.level := by
  apply h.closed a o ha
  · intro hw
    exact absurd (h.pending a o ha (Or.inl hw)).1 (by omega)
  · intro hq
    exact absurd (h.pending a o ha (Or.inr hq)).1 (by omega)

end EvacInv

/-- Writing to a free address, or to a block whose place and kind stay the same. -/
lemma ext_put {m : Mem} (h : ∀ o', m.heap a = some o' → o'.level = o.level ∧
    o'.block.kind = o.block.kind ∧ o'.current = o.current) (n : ℕ) :
    Ext m { m.put a o with copies := n } := by
  intro x ox hx
  by_cases hxa : x = a
  · subst hxa
    obtain ⟨hl, hk, hc⟩ := h ox hx
    exact ⟨o, by simp [Mem.put], hl.symm, hk.symm, hc.symm⟩
  · exact ⟨ox, by simpa [Mem.put, hxa] using hx, rfl, rfl, rfl⟩

lemma remaining_update (ha : a ∈ U) (hf : st.fwd a = none) (b : Addr) :
    (U.filter fun x => Function.update st.fwd a (some b) x = none).card + 1 =
      (U.filter fun x => st.fwd x = none).card := by
  have hmem : a ∈ U.filter fun x => st.fwd x = none := Finset.mem_filter.2 ⟨ha, hf⟩
  rw [← Finset.card_erase_add_one hmem]
  congr 2
  ext x
  by_cases hx : x = a <;> simp [hx, Function.update_apply]

/-- A step of the evacuator changes one block, and whether that block is under construction. -/
lemma EvacInv.change (h : EvacInv e d t own U Q st) {st' : EvacState} {Q' : Addr → Prop}
    (hext : Ext st.mem st'.mem) (hother : ∀ x, x ≠ a → st'.mem.heap x = st.mem.heap x)
    (hself : st'.mem.heap a = some o) (hlevel : o.level = t)
    (hids : st.mem.nextId = st'.mem.nextId) (hcopies : st.mem.copies ≤ st'.mem.copies)
    (hrep : Represents e st'.mem d a o) (hints : ∀ n ∈ o.block.capturedInts, own n = 0)
    (hfwd : ∀ x x', st'.fwd x = some x' → st.fwd x = some x' ∨ x' = a ∧ x'.obj = x.obj)
    (hsame : ∀ x, x ≠ a → (x ∈ st'.worklist ∨ Q' x ↔ x ∈ st.worklist ∨ Q x))
    (hclosed : a ∉ st'.worklist → ¬ Q' a →
      LinksOk st'.mem t o.block ∧ o.block.AtHome st'.mem t)
    (hpending : a ∈ st'.worklist ∨ Q' a → LinksOk st'.mem d o.block ∧
      ∀ l ∈ links o.block, l.target = .storage → t < st'.mem.levelOf l.addr)
    (hwork : ∀ x, x ≠ a → x ∈ st'.worklist → x ∈ st.worklist)
    (hobject : a ∈ st'.worklist → o.block.kind.target = .object) (hnodup : st'.worklist.Nodup) :
    EvacInv e d t own U Q' st' where
  boundary_le := h.boundary_le
  represents x ox hx := by
    by_cases hxa : x = a
    · subst hxa
      cases hself.symm.trans hx
      exact hrep
    · rw [hother x hxa] at hx
      have hold := h.represents x ox hx
      exact { hold with obj_lt := hids ▸ hold.obj_lt, copy_le := hold.copy_le.trans hcopies }
  closed x ox hx hw hq := by
    by_cases hxa : x = a
    · subst hxa
      cases hself.symm.trans hx
      rw [hlevel]
      exact hclosed hw hq
    · rw [hother x hxa] at hx
      have hout : ¬ (x ∈ st.worklist ∨ Q x) := by
        rw [← hsame x hxa]
        exact not_or.2 ⟨hw, hq⟩
      obtain ⟨hlinks, hhome⟩ := h.closed x ox hx (not_or.1 hout).1 (not_or.1 hout).2
      exact ⟨hlinks.ext hext le_rfl, hhome.ext hext hlinks⟩
  pending x ox hx hpend := by
    by_cases hxa : x = a
    · subst hxa
      cases hself.symm.trans hx
      exact ⟨hlevel, hpending hpend⟩
    · rw [hother x hxa] at hx
      obtain ⟨hl, hlinks, harrays⟩ := h.pending x ox hx ((hsame x hxa).1 hpend)
      refine ⟨hl, hlinks.ext hext le_rfl, fun l hlink htarget => ?_⟩
      obtain ⟨ol, hol, -⟩ := hlinks l hlink
      rw [hext.levelOf hol]
      exact harrays l hlink htarget
  ints x ox hx := by
    by_cases hxa : x = a
    · subst hxa
      cases hself.symm.trans hx
      exact hints
    · rw [hother x hxa] at hx
      exact h.ints x ox hx
  fwd_ok x x' hx := by
    obtain hx | ⟨rfl, hobj⟩ := hfwd x x' hx
    · obtain ⟨hobj, ox, hox, hl⟩ := h.fwd_ok x x' hx
      obtain ⟨ox', hox', hl', -⟩ := hext x' ox hox
      exact ⟨hobj, ox', hox', hl'.trans hl⟩
    · exact ⟨hobj, o, hself, hlevel⟩
  inner x ox hx hin := by
    by_cases hxa : x = a
    · subst hxa
      cases hself.symm.trans hx
      omega
    · rw [hother x hxa] at hx
      exact h.inner x ox hx hin
  work_live x hx := by
    by_cases hxa : x = a
    · exact ⟨o, hxa ▸ hself⟩
    · obtain ⟨ox, hox⟩ := h.work_live x ((hsame x hxa).1 hx)
      exact ⟨ox, (hother x hxa).trans hox⟩
  work_object x hx ox hox := by
    by_cases hxa : x = a
    · subst hxa
      cases hself.symm.trans hox
      exact hobject hx
    · rw [hother x hxa] at hox
      exact h.work_object x (hwork x hxa hx) ox hox
  work_nodup := hnodup

/-- A copy has the contents of the original, and waits for them to be rewritten. -/
lemma reaches_copyBlock (h : EvacInv e d t own U Q st) (ha : st.mem.heap a = some o)
    (hf : st.fwd a = none) (hin : t < o.level) :
    Reaches (Advances U) st (copyBlock t a o) fun a' st' =>
      EvacInv e d t own U (fun x => Q x ∨ x = a') st' ∧ a'.obj = a.obj ∧
      st'.mem.heap a' = some { o with level := t } ∧ st.mem.heap a' = none ∧
      st'.worklist = st.worklist ∧ remaining U st' + 1 = remaining U st := by
  have hfree := h.fresh a.obj
  have hrep := h.represents a o ha
  obtain ⟨hlinks, hhome⟩ := h.closed_of_inner ha hin
  set a' : Addr := ⟨a.obj, st.mem.copies + 1⟩ with ha'
  set st' : EvacState :=
    ⟨{ st.mem.put a' { o with level := t } with copies := st.mem.copies + 1 },
      Function.update st.fwd a (some a'), st.worklist⟩ with hst'
  have hext : Ext st.mem st'.mem := ext_put (fun o' ho' => by simp [hfree] at ho') _
  have hself : st'.mem.heap a' = some { o with level := t } := by simp [hst', Mem.put]
  have hrem : remaining U st' + 1 = remaining U st := by
    have := remaining_update (h.inner a o ha hin) hf a'
    simp only [remaining, hst']
    omega
  refine ⟨a', st', rfl, ⟨hext, rfl, fun x hx => Or.inl hx, by omega⟩, ?_, rfl, hself, hfree, rfl, hrem⟩
  apply h.change hext (fun x hx => by simp [hst', Mem.put, hx]) hself rfl rfl (Nat.le_succ _)
  · exact { hrep with
      copy_le := le_rfl
      level_le := (Nat.le_of_lt hin).trans hrep.level_le }
  · exact h.ints a o ha
  · intro x x' hx
    by_cases hxa : x = a
    · subst hxa
      simp only [hst', Function.update_self] at hx
      have hx' : x' = a' := (Option.some.inj hx).symm
      exact Or.inr ⟨hx', by rw [hx']⟩
    · exact Or.inl (by simpa [hst', Function.update_of_ne hxa] using hx)
  · intro x hx
    simp [hx, hst']
  · intro _ hq
    exact absurd (Or.inr rfl) hq
  · intro _
    refine ⟨hlinks.ext hext hrep.level_le, fun l hl htarget => ?_⟩
    -- the arrays of a table inside the boundary are inside it too
    obtain ⟨capacity, size, tombstones, home, hb⟩ := eq_hash_of_mem_links hl htarget
    rw [hb] at hhome
    obtain ⟨ol, hol, -⟩ := hlinks l hl
    rw [hext.levelOf hol, hhome.2]
    exact hin
  · exact fun x _ hx => hx
  · intro hx
    obtain ⟨o', ho'⟩ := h.work_live a' (Or.inl hx)
    simp [hfree] at ho'
  · exact h.work_nodup

/-! ## Rewriting -/

/-- `f` finishes on `x`, with a result that denotes the same allocations and has no pointer inside
the boundary. -/
def Rewrites {α : Type} [Slotted α] (e : Addr → Option Block) (d t : ℕ) (own : ℤ → ℕ)
    (U : Finset Addr) (f : α → EvacM α) (x : α) : Prop :=
  ∀ (Q : Addr → Prop) (st : EvacState), EvacInv e d t own U Q st → LinksOk st.mem d x →
    Reaches (Advances U) st (f x) fun y st' =>
      EvacInv e d t own U Q st' ∧ erase y = erase x ∧ LinksOk st'.mem t y

/-- A copy without pointers is finished. -/
lemma EvacInv.finish_leaf (h : EvacInv e d t own U (fun x => Q x ∨ x = a) st)
    (ha : st.mem.heap a = some o) (hleaf : o.block.kind = .leaf) (hw : a ∉ st.worklist)
    (hq : ¬ Q a) : EvacInv e d t own U Q st := by
  obtain ⟨hlevel, -, -⟩ := h.pending a o ha (Or.inr (Or.inr rfl))
  obtain ⟨bytes, hb⟩ : ∃ bytes, o.block = .leaf bytes := by
    cases hb : o.block <;> simp_all [Block.kind]
  apply h.change (Ext.refl _) (fun x _ => rfl) ha hlevel rfl le_rfl (h.represents a o ha)
    (h.ints a o ha) (fun x x' hx => Or.inl hx)
  · intro x hx
    simp [hx]
  · intro _ _
    rw [hb]
    exact ⟨by simp [LinksOk], trivial⟩
  · intro hpend
    exact absurd hpend (not_or.2 ⟨hw, hq⟩)
  · exact fun x _ hx => hx
  · exact fun hx => absurd hx hw
  · exact h.work_nodup

/-- A copy moves to the worklist. -/
lemma reaches_enqueue (h : EvacInv e d t own U (fun x => Q x ∨ x = a) st)
    (ha : st.mem.heap a = some o) (hobj : o.block.kind.target = .object) (hw : a ∉ st.worklist) :
    ∃ st', enqueue a st = some ((), st') ∧ EvacInv e d t own U Q st' ∧ st'.mem = st.mem ∧
      st'.worklist = a :: st.worklist ∧ remaining U st' = remaining U st + 1 := by
  obtain ⟨hlevel, hpending⟩ := h.pending a o ha (Or.inr (Or.inr rfl))
  refine ⟨{ st with worklist := a :: st.worklist }, rfl, ?_, rfl, rfl, rfl⟩
  refine h.change (Ext.refl _) (fun x _ => rfl) ha hlevel rfl le_rfl (h.represents a o ha)
    (h.ints a o ha) (fun x x' hx => Or.inl hx) ?_ ?_ ?_ ?_ ?_ ?_
  · intro x hx
    simp [hx]
  · intro hout _
    exact absurd List.mem_cons_self hout
  · exact fun _ => hpending
  · exact fun x hx hmem => (List.mem_cons.1 hmem).resolve_left hx
  · exact fun _ => hobj
  · exact List.nodup_cons.2 ⟨hw, h.work_nodup⟩

/-- What a forwarding map gives is as good as a new copy. -/
lemma EvacInv.linkOk_fwd (h : EvacInv e d t own U Q st) {a' : Addr} {g : Target}
    (ha : LinkOk st.mem d ⟨g, a⟩) (hf : st.fwd a = some a') :
    a'.obj = a.obj ∧ LinkOk st.mem t ⟨g, a'⟩ := by
  obtain ⟨o, ho, -, htarget⟩ := ha
  obtain ⟨hobj, o', ho', hlevel⟩ := h.fwd_ok a a' hf
  obtain ⟨b, hb, hkind, -⟩ := (h.represents a o ho).image
  obtain ⟨b', hb', hkind', -⟩ := (h.represents a' o' ho').image
  rw [origin_eq_iff.2 hobj] at hb'
  cases hb.symm.trans hb'
  refine ⟨hobj, o', ho', hlevel.le, ?_⟩
  rw [← hkind', hkind]
  exact htarget

lemma evacObject_spec (h : EvacInv e d t own U Q st) (ha : LinkOk st.mem d ⟨.object, a⟩)
    (hin : t < st.mem.levelOf a) :
    Reaches (Advances U) st (evacObject t a) fun a' st' =>
      EvacInv e d t own U Q st' ∧ a'.obj = a.obj ∧ LinkOk st'.mem t ⟨.object, a'⟩ := by
  apply Reaches.look (show lookupFwd a st = some (st.fwd a, st) from rfl)
  cases hf : st.fwd a with
  | some a' => exact Reaches.pure ⟨h, h.linkOk_fwd ha hf⟩
  | none =>
    obtain ⟨o, ho, hle, htarget⟩ := ha
    have hrep := h.represents a o ho
    have hin' : t < o.level := by simpa [Mem.levelOf, ho] using hin
    apply Reaches.look (show readObj a st = some (o, st) by simp [readObj, ho])
    rw [if_neg (by
      have := hrep.bytes_pos
      have := hrep.bytes_le htarget
      omega)]
    obtain ⟨a', st', hcopy, hadv, h', hobj, ha', hnew, hwork, hrem⟩ :=
      reaches_copyBlock h ho hf hin'
    have hout : ¬ (a' ∈ st.worklist ∨ Q a') := by
      intro hx
      obtain ⟨o', ho'⟩ := h.work_live a' hx
      simp [hnew] at ho'
    have hw : a' ∉ st'.worklist := hwork ▸ (not_or.1 hout).1
    have hlink : LinkOk st'.mem t ⟨.object, a'⟩ := ⟨_, ha', le_rfl, htarget⟩
    by_cases hleaf : o.block.kind = .leaf
    · refine ⟨a', st', ?_, hadv, h'.finish_leaf ha' hleaf hw (not_or.1 hout).2, hobj, hlink⟩
      rw [bind_apply, hcopy, Option.bind_some, if_pos hleaf]
      rfl
    · obtain ⟨st'', hrun, h'', hmem, hwork', hrem'⟩ := reaches_enqueue h' ha' htarget hw
      refine ⟨a', st'', ?_, ⟨hmem ▸ hadv.ext, hmem ▸ hadv.nextId_eq, ?_, by omega⟩, h'', hobj, hmem ▸ hlink⟩
      · rw [bind_apply, hcopy, Option.bind_some, if_neg hleaf]
        show (enqueue a' >>= fun _ => pure a') st' = _
        rw [bind_apply, hrun]
        rfl
      · intro x hx
        rw [hwork', hwork] at hx
        obtain rfl | hx := List.mem_cons.1 hx
        · exact Or.inr hnew
        · exact Or.inl hx

lemma evacValue_spec (v : Val) : Rewrites e d t own U (evacValue t) v := by
  intro Q st h hv
  cases v with
  | int n => exact Reaches.pure ⟨h, rfl, by simp [LinksOk]⟩
  | imm c => exact Reaches.pure ⟨h, rfl, by simp [LinksOk]⟩
  | ref a =>
    have hlink : LinkOk st.mem d ⟨.object, a⟩ := hv _ (by simp)
    apply Reaches.look (show levelOf a st = some (st.mem.levelOf a, st) from rfl)
    by_cases hle : st.mem.levelOf a ≤ t
    · rw [if_pos hle]
      obtain ⟨o, ho, -, htarget⟩ := hlink
      refine Reaches.pure ⟨h, rfl, ?_⟩
      simp only [LinksOk, links_ref, List.mem_singleton, forall_eq]
      exact ⟨o, ho, by simpa [Mem.levelOf, ho] using hle, htarget⟩
    · rw [if_neg hle]
      apply Reaches.bind (evacObject_spec h hlink (by omega))
      rintro a' st' - ⟨h', hobj, hlink'⟩
      refine Reaches.pure ⟨h', ?_, ?_⟩
      · simp [origin_eq_iff.2 hobj]
      · simpa [LinksOk] using hlink'

/-- The contents read at `st₁` were rewritten, and are stored back. -/
lemma reaches_setBlock {Q₁ Q' : Addr → Prop} {st₁ : EvacState} {b : Block}
    (h₁ : EvacInv e d t own U Q₁ st₁) (ha : st₁.mem.heap a = some o) (hlevel : o.level = t)
    (h : EvacInv e d t own U Q st) (hext : Ext st₁.mem st.mem) (herase : erase b = erase o.block)
    (hlinks : LinksOk st.mem t b) (hhome : b.AtHome st.mem t)
    (hsame : ∀ x, x ≠ a → (Q' x ↔ Q x))
    (hplain : a ∈ st.worklist ∨ Q' a → ∀ l ∈ links b, l.target ≠ .storage) :
    Reaches (Advances U) st (setBlock a b) fun _ st' => EvacInv e d t own U Q' st' ∧
      st'.worklist = st.worklist ∧ ∃ o', st'.mem.heap a = some o' ∧ o'.level = t ∧
      o'.block.kind = o.block.kind := by
  obtain ⟨o', ho', hlevel', hkind', hcurrent'⟩ := hext a o ha
  have hkind : b.kind = o.block.kind := by rw [← kind_erase b, herase, kind_erase]
  have hbytes : b.bytes = o.block.bytes := by rw [← bytes_erase b, herase, bytes_erase]
  have hrep := h₁.represents a o ha
  have hrep' := h.represents a o' ho'
  have hput : Ext st.mem (st.mem.put a { o' with block := b }) := by
    refine ext_put (n := st.mem.copies) fun o'' ho'' => ?_
    cases ho'.symm.trans ho''
    exact ⟨rfl, hkind'.trans hkind.symm, rfl⟩
  have hself : (st.mem.put a { o' with block := b }).heap a = some { o' with block := b } := by
    simp [Mem.put]
  refine ⟨(), { st with mem := st.mem.put a { o' with block := b } }, by simp [setBlock, ho'],
    ⟨hput, rfl, fun x hx => Or.inl hx, le_rfl⟩, ?_, rfl, _, hself, hlevel'.trans hlevel, hkind⟩
  refine h.change hput (fun x hx => by simp [Mem.put, hx]) hself (hlevel'.trans hlevel) rfl le_rfl
    ?_ ?_ (fun x x' hx => Or.inl hx) ?_ ?_ ?_ (fun x _ hx => hx) ?_ h.work_nodup
  · obtain ⟨c, hc, hckind, hceq⟩ := hrep.image
    exact { hrep' with
      bytes_pos := hbytes ▸ hrep.bytes_pos
      bytes_le := fun ht => hbytes ▸ hrep.bytes_le (hkind ▸ ht)
      image := ⟨c, hc, hckind.trans hkind.symm,
        fun hcur => (hceq (hcurrent' ▸ hcur)).trans herase.symm⟩ }
  · intro n hn
    apply h₁.ints a o ha n
    rw [← capturedInts_erase, ← herase, capturedInts_erase]
    exact hn
  · intro x hx
    rw [hsame x hx]
  · intro _ _
    exact ⟨hlinks.ext hput le_rfl, hhome.ext hput hlinks⟩
  · intro hpend
    exact ⟨hlinks.ext hput h.boundary_le, fun l hl ht => absurd ht (hplain hpend l hl)⟩
  · intro hx
    have := h.work_object a hx o' ho'
    rwa [hkind', ← hkind] at this

lemma Rewrites.mapM {α : Type} [Slotted α] {f : α → EvacM α} {xs : List α}
    (hf : ∀ x ∈ xs, Rewrites e d t own U f x) : Rewrites e d t own U (List.mapM f) xs := by
  intro Q st h hxs
  have hloop := Reaches.mapM (R := Advances U) (I := EvacInv e d t own U Q)
    (P := fun x y st' => erase y = erase x ∧ LinksOk st'.mem t y)
    (fun x y st₁ st₂ hadv hP => ⟨hP.1, hP.2.ext hadv.ext le_rfl⟩) h
    (fun x hx st' hadv h' => hf x hx Q st' h' fun l hl =>
      (hxs l (List.mem_flatMap.2 ⟨x, hx, hl⟩)).ext hadv.ext le_rfl)
  apply hloop.mono
  rintro ys st' - ⟨h', hall⟩
  refine ⟨h', ?_, fun l hl => ?_⟩
  · have hmap : List.Forall₂ (· = ·) (xs.map erase) (ys.map erase) :=
      List.forall₂_map_left_iff.2 (List.forall₂_map_right_iff.2
        (hall.imp fun x y hxy => hxy.1.symm))
    rw [List.forall₂_eq_eq_eq] at hmap
    exact hmap.symm
  · obtain ⟨y, hy, hly⟩ := List.mem_flatMap.1 hl
    obtain ⟨i, hi, rfl⟩ := List.getElem_of_mem hy
    have hlen := hall.length_eq
    exact (hall.get (by omega) hi).2 l hly

lemma plain_of_buffer {b : Block} (h : b.kind.target ≠ .object) (m : Mem) (k : ℕ) :
    b.AtHome m k ∧ ∀ l ∈ links b, l.target ≠ .storage := by
  refine ⟨?_, fun l hl ht => ?_⟩
  · cases b with
    | hash => exact absurd rfl h
    | _ => trivial
  · obtain ⟨_, _, _, _, rfl⟩ := eq_hash_of_mem_links hl ht
    exact h rfl

lemma evacBuffer_spec {g : Target} {f : Block → EvacM Block} (h : EvacInv e d t own U Q st)
    (ha : LinkOk st.mem d ⟨g, a⟩) (hg : g ≠ .object) (hin : t < st.mem.levelOf a)
    (hf : ∀ b : Block, b.kind.target = g → (∀ n ∈ b.capturedInts, own n = 0) →
      Rewrites e d t own U f b) :
    Reaches (Advances U) st (evacBuffer t a f) fun a' st' =>
      EvacInv e d t own U Q st' ∧ a'.obj = a.obj ∧ LinkOk st'.mem t ⟨g, a'⟩ ∧
      st'.mem.levelOf a' = t := by
  obtain ⟨o, ho, hle, htarget⟩ := id ha
  have hin' : t < o.level := by simpa [Mem.levelOf, ho] using hin
  -- the copy is new and under construction, or was made before
  have hraw : Reaches (Advances U) st (evacRaw t a) fun a' st' => ∃ Q₁ : Addr → Prop,
      EvacInv e d t own U Q₁ st' ∧ (∀ x, x ≠ a' → (Q x ↔ Q₁ x)) ∧ a'.obj = a.obj ∧
      ∃ o', st'.mem.heap a' = some o' ∧ o'.level = t ∧ o'.block.kind.target = g := by
    apply Reaches.look (show readObj a st = some (o, st) by simp [readObj, ho])
    rw [if_neg (by
      have := (h.represents a o ho).bytes_pos
      omega)]
    apply Reaches.look (show lookupFwd a st = some (st.fwd a, st) from rfl)
    cases hfwd : st.fwd a with
    | some a' =>
      obtain ⟨hobj, o', ho', -, htarget'⟩ := h.linkOk_fwd ha hfwd
      obtain ⟨-, o'', ho'', hlevel⟩ := h.fwd_ok a a' hfwd
      cases ho'.symm.trans ho''
      exact Reaches.pure ⟨Q, h, fun x _ => Iff.rfl, hobj, o', ho', hlevel, htarget'⟩
    | none =>
      apply (reaches_copyBlock h ho hfwd hin').mono
      rintro a' st' - ⟨h', hobj, ha', -⟩
      exact ⟨_, h', fun x hx => by simp [hx], hobj, _, ha', rfl, htarget⟩
  apply Reaches.bind hraw
  rintro a' st₁ - ⟨Q₁, h₁, hsame, hobj, o', ho', hlevel, htarget'⟩
  apply Reaches.look (show readObj a' st₁ = some (o', st₁) by simp [readObj, ho'])
  have hlinks : LinksOk st₁.mem d o'.block := by
    by_cases hpend : a' ∈ st₁.worklist ∨ Q₁ a'
    · exact (h₁.pending a' o' ho' hpend).2.1
    · have hcl := (h₁.closed a' o' ho' (not_or.1 hpend).1 (not_or.1 hpend).2).1
      exact hcl.ext (Ext.refl _) (hlevel ▸ h₁.boundary_le)
  apply Reaches.bind (hf o'.block htarget' (h₁.ints a' o' ho') Q₁ st₁ h₁ hlinks)
  rintro b st₂ hadv ⟨h₂, herase, hb⟩
  have hkind : b.kind = o'.block.kind := by rw [← kind_erase b, herase, kind_erase]
  have hplain := plain_of_buffer (b := b) (by rw [hkind, htarget']; exact hg) st₂.mem t
  apply Reaches.bind (reaches_setBlock h₁ ho' hlevel h₂ hadv.ext herase hb hplain.1 hsame
    fun _ => hplain.2)
  rintro - st₃ - ⟨h₃, -, o₃, ho₃, hlevel₃, hkind₃⟩
  refine Reaches.pure ⟨h₃, hobj, ⟨o₃, ho₃, hlevel₃.le, ?_⟩, ?_⟩
  · rw [hkind₃, htarget']
  · simp [Mem.levelOf, ho₃, hlevel₃]

lemma evacCell_spec {b : Block} (hb : b.kind.target = .cell) :
    Rewrites e d t own U (evacCell t) b := by
  intro Q st h hlinks
  cases b with
  | cell v =>
    apply Reaches.bind (evacValue_spec v Q st h hlinks)
    rintro v' st' - ⟨h', herase, hlinks'⟩
    exact Reaches.pure ⟨h', by simp [herase], hlinks'⟩
  | _ => cases hb

/-- Two values rewritten one after the other. -/
lemma reaches_two {β : Type} {v w : Val} {k : Val → Val → EvacM β} {P : β → EvacState → Prop}
    (h : EvacInv e d t own U Q st) (hlinks : ∀ l ∈ links v ++ links w, LinkOk st.mem d l)
    (hk : ∀ v' w' st', EvacInv e d t own U Q st' → erase v' = erase v → erase w' = erase w →
      (∀ l ∈ links v' ++ links w', LinkOk st'.mem t l) → Reaches (Advances U) st' (k v' w') P) :
    Reaches (Advances U) st (evacValue t v >>= fun v' => evacValue t w >>= k v') P := by
  apply Reaches.bind (evacValue_spec v Q st h fun l hl => hlinks l (List.mem_append_left _ hl))
  rintro v' st₁ hadv₁ ⟨h₁, hv, hvlinks⟩
  have hw : LinksOk st₁.mem d w :=
    fun l hl => (hlinks l (List.mem_append_right _ hl)).ext hadv₁.ext le_rfl
  apply Reaches.bind (evacValue_spec w Q st₁ h₁ hw)
  rintro w' st₂ hadv₂ ⟨h₂, hw', hwlinks⟩
  refine hk v' w' st₂ h₂ hv hw' fun l hl => ?_
  obtain hl | hl := List.mem_append.1 hl
  · exact (hvlinks l hl).ext hadv₂.ext le_rfl
  · exact hwlinks l hl

lemma evacEntry_spec (x : Entry) : Rewrites e d t own U (evacEntry t) x := by
  intro Q st h hlinks
  cases x with
  | empty => exact Reaches.pure ⟨h, rfl, by simp [LinksOk]⟩
  | deleted => exact Reaches.pure ⟨h, rfl, by simp [LinksOk]⟩
  | occupied key value =>
    apply reaches_two h hlinks
    intro key' value' st' h' hkey hvalue hlinks'
    exact Reaches.pure ⟨h', by simp [hkey, hvalue], hlinks'⟩

lemma evacStorage_spec {b : Block} (hb : b.kind.target = .storage) :
    Rewrites e d t own U (evacStorage t) b := by
  intro Q st h hlinks
  cases b with
  | storage entries =>
    apply Reaches.bind (Rewrites.mapM (fun x _ => evacEntry_spec x) Q st h hlinks)
    rintro entries' st' - ⟨h', herase, hlinks'⟩
    exact Reaches.pure ⟨h', congrArg Block.storage herase, hlinks'⟩
  | _ => cases hb

/-- A capture cell is copied like any buffer; a captured integer outside every arena is left. -/
lemma evacCapture_spec {c : Capture} (hint : ∀ n, c = .val (.int n) → own n = 0) :
    Rewrites e d t own U (evacCapture own t) c := by
  intro Q st h hlinks
  cases c with
  | cell a =>
    have hlink : LinkOk st.mem d ⟨.cell, a⟩ := hlinks _ (by simp)
    apply Reaches.look (show levelOf a st = some (st.mem.levelOf a, st) from rfl)
    by_cases hin : t < st.mem.levelOf a
    · rw [if_pos hin]
      apply Reaches.bind (evacBuffer_spec h hlink (by decide) hin fun b hb _ => evacCell_spec hb)
      rintro a' st' - ⟨h', hobj, hlink', -⟩
      refine Reaches.pure ⟨h', ?_, ?_⟩
      · simp [origin_eq_iff.2 hobj]
      · simpa [LinksOk] using hlink'
    · rw [if_neg hin]
      obtain ⟨o, ho, -, htarget⟩ := hlink
      refine Reaches.pure ⟨h, rfl, ?_⟩
      simp only [LinksOk, links_captureCell, List.mem_singleton, forall_eq]
      exact ⟨o, ho, by simpa [Mem.levelOf, ho] using hin, htarget⟩
  | val v =>
    have hvalue : Reaches (Advances U) st (evacValue t v >>= fun v' => pure (Capture.val v'))
        fun y st' => EvacInv e d t own U Q st' ∧ erase y = erase (Capture.val v) ∧
          LinksOk st'.mem t y := by
      apply Reaches.bind (evacValue_spec v Q st h hlinks)
      rintro v' st' - ⟨h', herase, hlinks'⟩
      exact Reaches.pure ⟨h', by simp [herase], hlinks'⟩
    cases v with
    | int n =>
      have hn := hint n rfl
      show Reaches _ st (if n ≠ 0 ∧ t < own n then failure else pure (Capture.val (.int n))) _
      rw [if_neg (by omega)]
      exact Reaches.pure ⟨h, rfl, by simp [LinksOk]⟩
    | imm c => exact hvalue
    | ref a => exact hvalue

lemma evacEnv_spec {b : Block} (hb : b.kind.target = .env)
    (hints : ∀ n ∈ b.capturedInts, own n = 0) : Rewrites e d t own U (evacEnv own t) b := by
  intro Q st h hlinks
  cases b with
  | env captures =>
    have hall : ∀ c ∈ captures, Rewrites e d t own U (evacCapture own t) c := by
      intro c hc
      apply evacCapture_spec
      rintro n rfl
      exact hints n (List.mem_filterMap.2 ⟨_, hc, rfl⟩)
    apply Reaches.bind (Rewrites.mapM hall Q st h hlinks)
    rintro captures' st' - ⟨h', herase, hlinks'⟩
    exact Reaches.pure ⟨h', congrArg Block.env herase, hlinks'⟩
  | _ => cases hb

/-- Rewriting the contents of a copied object; a copied table gets its arrays at the boundary. -/
lemma evacContents_spec {b : Block} (hb : b.kind.target = .object)
    (h : EvacInv e d t own U Q st) (hlinks : LinksOk st.mem d b)
    (harrays : ∀ l ∈ links b, l.target = .storage → t < st.mem.levelOf l.addr) :
    Reaches (Advances U) st (evacContents own t b) fun b' st' =>
      EvacInv e d t own U Q st' ∧ erase b' = erase b ∧ LinksOk st'.mem t b' ∧
      b'.AtHome st'.mem t := by
  cases b with
  | cons car cdr =>
    apply reaches_two h hlinks
    intro car' cdr' st' h' hcar hcdr hlinks'
    exact Reaches.pure ⟨h', by simp [hcar, hcdr], hlinks', trivial⟩
  | vector elems =>
    apply Reaches.bind (Rewrites.mapM (fun v _ => evacValue_spec v) Q st h hlinks)
    rintro elems' st' - ⟨h', herase, hlinks'⟩
    exact Reaches.pure ⟨h', congrArg Block.vector herase, hlinks', trivial⟩
  | promise forced thunk cached =>
    apply reaches_two h hlinks
    intro thunk' cached' st' h' hthunk hcached hlinks'
    exact Reaches.pure ⟨h', by simp [hthunk, hcached], hlinks', trivial⟩
  | hash capacity size tombstones storage home =>
    have hin : t < st.mem.levelOf storage := harrays ⟨.storage, storage⟩ (by simp) rfl
    apply Reaches.look (show levelOf storage st = some (st.mem.levelOf storage, st) from rfl)
    rw [if_pos hin]
    apply Reaches.bind (evacBuffer_spec h (hlinks ⟨.storage, storage⟩ (by simp)) (by decide) hin
      fun b hb _ => evacStorage_spec hb)
    rintro storage' st' - ⟨h', hobj, hlink, hlevel⟩
    refine Reaches.pure ⟨h', ?_, ?_, rfl, hlevel⟩
    · simp [origin_eq_iff.2 hobj]
    · simpa [LinksOk] using hlink
  | closure funcPtr env =>
    cases env with
    | none => exact Reaches.pure ⟨h, rfl, by simp [LinksOk], trivial⟩
    | some env =>
      have hlink : LinkOk st.mem d ⟨.env, env⟩ := hlinks _ (by simp)
      apply Reaches.look (show levelOf env st = some (st.mem.levelOf env, st) from rfl)
      by_cases hin : t < st.mem.levelOf env
      · rw [if_pos hin]
        apply Reaches.bind (evacBuffer_spec h hlink (by decide) hin
          fun b hb hints => evacEnv_spec hb hints)
        rintro env' st' - ⟨h', hobj, hlink', -⟩
        refine Reaches.pure ⟨h', ?_, ?_, trivial⟩
        · simp [origin_eq_iff.2 hobj]
        · simpa [LinksOk] using hlink'
      · rw [if_neg hin]
        obtain ⟨o, ho, -, htarget⟩ := hlink
        refine Reaches.pure ⟨h, rfl, ?_, trivial⟩
        simp only [LinksOk, links_closure, Option.toList_some, List.map_cons, List.map_nil,
          List.mem_singleton, forall_eq]
        exact ⟨o, ho, by simpa [Mem.levelOf, ho] using hin, htarget⟩
  | leaf bytes => exact Reaches.pure ⟨h, rfl, by simp [LinksOk], trivial⟩
  | _ => cases hb

lemma scan_spec {nd : Addr} (h : EvacInv e d t own U (· = nd) st)
    (hobj : ∃ o, st.mem.heap nd = some o ∧ o.block.kind.target = .object)
    (hw : nd ∉ st.worklist) :
    Reaches (Advances U) st (scan own t nd) fun _ st' =>
      EvacInv e d t own U (fun _ => False) st' := by
  obtain ⟨o, ho, htarget⟩ := hobj
  obtain ⟨hlevel, hlinks, harrays⟩ := h.pending nd o ho (Or.inr rfl)
  apply Reaches.look (show readObj nd st = some (o, st) by simp [readObj, ho])
  apply Reaches.bind (evacContents_spec htarget h hlinks harrays)
  rintro b st₁ hadv ⟨h₁, herase, hblinks, hhome⟩
  have hw₁ : nd ∉ st₁.worklist := by
    intro hmem
    obtain hmem | hnone := hadv.work nd hmem
    · exact hw hmem
    · simp [ho] at hnone
  have hsame : ∀ x, x ≠ nd → (False ↔ x = nd) := fun x hx => by simp [hx]
  apply (reaches_setBlock h ho hlevel h₁ hadv.ext herase hblinks hhome hsame ?_).mono
  · exact fun _ st' _ hpost => hpost.1
  · intro hpend
    simp [hw₁] at hpend

/-- The worklist loop empties the worklist: each round takes one copy off it, and puts a copy on it
only for a block that was not copied before. -/
lemma drain_spec {fuel : ℕ} (h : EvacInv e d t own U (fun _ => False) st)
    (hfuel : remaining U st < fuel) :
    ∃ st', drain own t fuel st = some ((), st') ∧ Ext st.mem st'.mem ∧
      st'.mem.nextId = st.mem.nextId ∧ EvacInv e d t own U (fun _ => False) st' ∧ st'.worklist = [] := by
  induction fuel generalizing st with
  | zero => omega
  | succ fuel ih =>
    cases hwl : st.worklist with
    | nil => exact ⟨st, by simp [drain, hwl], Ext.refl _, rfl, h, hwl⟩
    | cons nd rest =>
      have hmem : nd ∈ st.worklist := hwl ▸ List.mem_cons_self
      obtain ⟨o, ho⟩ := h.work_live nd (Or.inl hmem)
      have hnodup := List.nodup_cons.1 (hwl ▸ h.work_nodup)
      set st₁ : EvacState := { st with worklist := rest } with hst₁
      have h₁ : EvacInv e d t own U (· = nd) st₁ := by
        refine h.change (Ext.refl _) (fun x _ => rfl) ho (h.pending nd o ho (Or.inl hmem)).1 rfl
          le_rfl (h.represents nd o ho) (h.ints nd o ho) (fun x x' hx => Or.inl hx) ?_ ?_ ?_ ?_ ?_
          hnodup.2
        · intro x hx
          simp [hwl, hx, hst₁]
        · exact fun _ hq => absurd rfl hq
        · exact fun _ => (h.pending nd o ho (Or.inl hmem)).2
        · exact fun x _ hx => hwl ▸ List.mem_cons_of_mem nd hx
        · exact fun hx => absurd hx hnodup.1
      obtain ⟨_, st₂, hscan, hadv, h₂⟩ :=
        scan_spec h₁ ⟨o, ho, h.work_object nd hmem o ho⟩ hnodup.1
      have hless : remaining U st₁ + 1 = remaining U st := by simp [remaining, hwl, hst₁]; omega
      have := hadv.remaining_le
      obtain ⟨st₃, hdrain, hext, hids, h₃, hdone⟩ := ih h₂ (by omega)
      refine ⟨st₃, ?_, hadv.ext.trans hext, hids.trans hadv.nextId_eq, h₃, hdone⟩
      simp only [drain, hwl]
      rw [bind_apply, hscan]
      exact hdrain

end evacuation

/-- The addresses a heap can use. -/
def addresses (m : Mem) : Finset Addr :=
  (Finset.range m.nextId ×ˢ Finset.range (m.copies + 1)).image fun p => ⟨p.1, p.2⟩

lemma card_addresses_le (m : Mem) : (addresses m).card ≤ m.nextId * (m.copies + 1) := by
  apply Finset.card_image_le.trans
  simp [Finset.card_product]

/-- A heap outside of any evacuation. -/
structure HeapInv (e : Addr → Option Block) (d : ℕ) (m : Mem) : Prop where
  represents : ∀ a o, m.heap a = some o → Represents e m d a o
  closed : ∀ a o, m.heap a = some o → LinksOk m o.level o.block ∧ o.block.AtHome m o.level

/-- The forwarding map of a region leads to live copies at its promotion target. -/
def FwdOk (m : Mem) (t : ℕ) (fwd : Addr → Option Addr) : Prop :=
  ∀ a a', fwd a = some a' → a'.obj = a.obj ∧ ∃ o, m.heap a' = some o ∧ o.level = t

/-- `region_evacuate_value` finishes; the value it returns denotes the same allocations and can be
stored at the boundary, and the heap represents what it represented before. -/
lemma evacuate_spec {e : Addr → Option Block} {d t : ℕ} {own : ℤ → ℕ} {m : Mem}
    {fwd : Addr → Option Addr} {v : Val} (h : HeapInv e d m) (ht : t ≤ d) (hfwd : FwdOk m t fwd)
    (hints : IntsOk own m) (hv : LinksOk m d v) :
    ∃ v' st', evacuate own t v m fwd = some (v', st') ∧ Ext m st'.mem ∧ HeapInv e d st'.mem ∧
      FwdOk st'.mem t st'.fwd ∧ IntsOk own st'.mem ∧ st'.mem.nextId = m.nextId ∧
      erase v' = erase v ∧ LinksOk st'.mem t v' := by
  have hinv : EvacInv e d t own (addresses m) (fun _ => False) ⟨m, fwd, []⟩ :=
    { boundary_le := ht
      represents := h.represents
      closed := fun a o ho _ _ => h.closed a o ho
      pending := fun a o _ hpend => by simp at hpend
      ints := hints
      fwd_ok := hfwd
      inner := fun a o ho _ => by
        have := (h.represents a o ho).obj_lt
        have := (h.represents a o ho).copy_le
        simp only [addresses, Finset.mem_image, Finset.mem_product, Finset.mem_range]
        exact ⟨(a.obj, a.copy), ⟨by omega, by omega⟩, rfl⟩
      work_live := fun a ha => by simp at ha
      work_object := fun a ha => by simp at ha
      work_nodup := List.nodup_nil }
  obtain ⟨v', st₁, hroot, hadv, h₁, herase, hlinks⟩ := evacValue_spec v _ _ hinv hv
  have hrem : remaining (addresses m) st₁ < m.nextId * (m.copies + 1) + 1 := by
    have hle := hadv.remaining_le
    have hcard := card_addresses_le m
    have hfilter := Finset.card_filter_le (addresses m) fun a => fwd a = none
    simp only [remaining, List.length_nil] at hle
    simp only [remaining]
    omega
  obtain ⟨st₂, hdrain, hext, hids, h₂, hdone⟩ := drain_spec h₁ hrem
  refine ⟨v', st₂, ?_, hadv.ext.trans hext, ⟨h₂.represents, fun a o ho => ?_⟩, h₂.fwd_ok,
    h₂.ints, hids.trans hadv.nextId_eq, herase, hlinks.ext hext le_rfl⟩
  · unfold evacuate
    rw [bind_apply, hroot, Option.bind_some, bind_apply, hdrain]
    rfl
  · exact h₂.closed a o ho (by simp [hdone]) id

end Region
