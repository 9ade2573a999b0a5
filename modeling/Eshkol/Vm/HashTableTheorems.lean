import Eshkol.Hash.Refine
import Eshkol.Vm.HashTable
import Mathlib.Data.Finmap

/-!
# The hash table of the virtual machine is a finite map

Without the stored hashes the slots are those of the runtime's table, and the probe is its search. A search
that meets neither the key nor a deleted slot ends on an empty one, since not every slot is live.
-/

namespace Vm.HashTable

open Hash (Slot KeyOps)
open Hash.Table (SlotsOk Holds Represents Rehashed Chain Alone)

/-- Words under a hash function, and identity. -/
def wordKeys (hash : UInt64 → UInt64) : KeyOps UInt64 where
  hash key := (hash key).toNat
  equal k k' := k == k'
  equal_refl := by simp
  equal_symm k k' := by
    simp only [beq_iff_eq]
    exact Eq.symm
  equal_trans k k' k'' := by
    simp only [beq_iff_eq]
    exact Eq.trans
  hash_eq k k' := by
    simp only [beq_iff_eq]
    rintro rfl
    rfl

lemma hash_wordKeys (hash : UInt64 → UInt64) (key : UInt64) : (wordKeys hash).hash key = (hash key).toNat := rfl

lemma equal_iff {hash : UInt64 → UInt64} {k k' : UInt64} : (wordKeys hash).equal k k' = true ↔ k = k' :=
  beq_iff_eq

/-- Pointers, under the hash of their bytes. -/
abbrev pointerKeys : KeyOps UInt64 := wordKeys vmHtHashValue

/-- A slot without its hash. -/
def HtSlot.view (slot : HtSlot) : Slot UInt64 UInt64 :=
  if slot.hash = htEmptyHash then .empty
  else if slot.hash = htTombstone then .deleted
  else .occupied slot.key slot.value

/-- The slots as those of a table of the runtime. -/
def table (ht : VmHashTable) : Hash.Table UInt64 UInt64 := ⟨ht.slots.map HtSlot.view, 0, 0⟩

variable {ht : VmHashTable} {key h : UInt64}

lemma isLive_iff {slot : HtSlot} : slot.isLive = true ↔ slot.hash ≠ htEmptyHash ∧ slot.hash ≠ htTombstone := by
  simp only [HtSlot.isLive, htTombstone, htEmptyHash, decide_eq_true_eq, UInt64.lt_iff_toNat_lt, ne_eq,
    ← UInt64.toNat_inj, UInt64.toNat_one, UInt64.toNat_zero]
  omega

lemma isOccupied_view (slot : HtSlot) : slot.view.isOccupied = slot.isLive := by
  rw [Bool.eq_iff_iff, isLive_iff]
  unfold HtSlot.view
  split_ifs with hempty hdeleted
  · simp [Slot.isOccupied, hempty]
  · simp [Slot.isOccupied, hdeleted]
  · simp [Slot.isOccupied, hempty, hdeleted]

lemma view_of_isLive {slot : HtSlot} (hlive : slot.isLive = true) :
    slot.view = .occupied slot.key slot.value := by
  have hne := isLive_iff.1 hlive
  rw [HtSlot.view, if_neg hne.1, if_neg hne.2]

lemma isLive_of_view {slot : HtSlot} {k v : UInt64} (hview : slot.view = .occupied k v) :
    slot.isLive = true ∧ slot.key = k ∧ slot.value = v := by
  have hlive : slot.isLive = true := by rw [← isOccupied_view, hview]; rfl
  rw [view_of_isLive hlive] at hview
  exact ⟨hlive, (Slot.occupied.inj hview).1, (Slot.occupied.inj hview).2⟩

@[simp] lemma capacity_table : (table ht).capacity = ht.capacity := List.length_map _

@[simp] lemma slot_table (idx : ℕ) : (table ht).slot idx = (ht.slot idx).view := by
  show (ht.slots.map HtSlot.view).getD idx (HtSlot.view ⟨htEmptyHash, 0, 0⟩) = _
  rw [List.getD_map]
  rfl

lemma live_table : (table ht).live = ht.slots.countP HtSlot.isLive := by
  show (ht.slots.map HtSlot.view).countP Slot.isOccupied = _
  rw [List.countP_map]
  apply List.countP_congr
  intro slot _
  simp [isOccupied_view]

/-- The table with one slot replaced. -/
lemma table_set (idx count : ℕ) (slot : HtSlot) :
    table ⟨ht.slots.set idx slot, count⟩ = (table ht).put idx slot.view := by
  simp only [table, Hash.Table.put, List.map_set]

/-! ## The probe -/

/-- A live slot holds the hash of its key. -/
def Stored (ht : VmHashTable) : Prop :=
  ∀ slot ∈ ht.slots, slot.isLive = true → slot.hash = vmHtHashValue slot.key

lemma Stored.slot (hstored : Stored ht) {idx : ℕ} (hlive : (ht.slot idx).isLive = true) :
    (ht.slot idx).hash = vmHtHashValue (ht.slot idx).key := by
  by_cases hidx : idx < ht.slots.length
  · apply hstored _ _ hlive
    rw [VmHashTable.slot, List.getD_eq_getElem _ _ hidx]
    exact List.getElem_mem hidx
  · -- beyond the arrays there is no live slot
    rw [VmHashTable.slot, List.getD_eq_default _ _ (Nat.le_of_not_lt hidx)] at hlive
    exact absurd hlive (by decide)

/-- What the probe returns when the search ends so, and the first empty slot is this. -/
def indexFound : Hash.Found → Option ℕ → ℕ × Bool
  | .slot idx, _ => (idx, true)
  | .missing (some idx), _ => (idx, false)
  | .missing none, emptyIdx => (emptyIdx.getD 0, false)

lemma and_mask {n : ℕ} (hcap : ht.capacity = 2 ^ n) (x : ℕ) : x &&& (ht.capacity - 1) = x % ht.capacity := by
  rw [hcap, Nat.and_two_pow_sub_one_eq_mod]

/-- The probe's loop is the search of the runtime's table. -/
lemma vmHtProbeLoop_eq {n : ℕ} (hstored : Stored ht) (hcap : ht.capacity = 2 ^ n) (key : UInt64)
    (index fuel i : ℕ) (firstTombstone : Option ℕ) :
    vmHtProbeLoop ht key (vmHtHashValue key) fuel ((table ht).ring index i) firstTombstone =
      indexFound ((table ht).findSlotLoop pointerKeys key index fuel i firstTombstone)
        ((table ht).emptySlotFrom fuel ((table ht).ring index i)) := by
  induction fuel generalizing i firstTombstone with
  | zero => cases firstTombstone <;> rfl
  | succ fuel ih =>
    have hnext : ((table ht).ring index i + 1) &&& (ht.capacity - 1) = (table ht).ring index (i + 1) := by
      rw [and_mask hcap, ← capacity_table, Hash.Table.ring_succ]
    have hring : (index + i) % (table ht).capacity = (table ht).ring index i := rfl
    have hstep : ((table ht).ring index i + 1) % (table ht).capacity = (table ht).ring index (i + 1) :=
      Hash.Table.ring_succ index i
    unfold vmHtProbeLoop Hash.Table.findSlotLoop Hash.Table.emptySlotFrom
    simp only [hnext, hring, hstep, slot_table]
    generalize (table ht).ring index i = idx
    by_cases hempty : (ht.slot idx).hash = htEmptyHash
    · have hview : (ht.slot idx).view = .empty := by rw [HtSlot.view, if_pos hempty]
      rw [if_pos hempty, hview]
      cases firstTombstone <;> rfl
    rw [if_neg hempty]
    by_cases hdeleted : (ht.slot idx).hash = htTombstone
    · have hview : (ht.slot idx).view = .deleted := by rw [HtSlot.view, if_neg hempty, if_pos hdeleted]
      rw [if_pos hdeleted, hview, ih]
      rfl
    have hview : (ht.slot idx).view = .occupied (ht.slot idx).key (ht.slot idx).value := by
      rw [HtSlot.view, if_neg hempty, if_neg hdeleted]
    have hhash := hstored.slot (isLive_iff.2 ⟨hempty, hdeleted⟩)
    rw [if_neg hdeleted, hview]
    -- the stored hash is the right one, so only the keys decide
    by_cases hkey : (ht.slot idx).key = key
    · have hsame : (ht.slot idx).hash = vmHtHashValue key ∧ (ht.slot idx).key = key := ⟨hkey ▸ hhash, hkey⟩
      simp only [if_pos hsame, if_pos (equal_iff.2 hkey)]
      rfl
    · have hother : ¬ ((ht.slot idx).hash = vmHtHashValue key ∧ (ht.slot idx).key = key) :=
        fun hsame => hkey hsame.2
      simp only [if_neg hother, if_neg (mt equal_iff.1 hkey)]
      rw [ih]
      rfl

lemma vmHtProbeLoop_start {n index : ℕ} (hstored : Stored ht) (hcap : ht.capacity = 2 ^ n) (key : UInt64)
    (hindex : index < (table ht).capacity) :
    vmHtProbeLoop ht key (vmHtHashValue key) ht.capacity index none =
      indexFound ((table ht).findSlotLoop pointerKeys key index ht.capacity 0 none)
        ((table ht).emptySlotFrom ht.capacity index) := by
  have hstart : (table ht).ring index 0 = index := Nat.mod_eq_of_lt hindex
  have hloop := vmHtProbeLoop_eq hstored hcap key index ht.capacity 0 none
  rw [hstart] at hloop
  exact hloop

lemma vmHtProbe_eq {n : ℕ} (hstored : Stored ht) (hcap : ht.capacity = 2 ^ n) (key : UInt64) :
    vmHtProbe ht key (vmHtHashValue key) =
      indexFound ((table ht).findSlot pointerKeys key) ((table ht).emptySlot pointerKeys key) := by
  unfold vmHtProbe Hash.Table.findSlot Hash.Table.emptySlot
  rw [and_mask hcap, capacity_table, hash_wordKeys]
  apply vmHtProbeLoop_start hstored hcap
  rw [capacity_table]
  exact Nat.mod_lt _ (hcap ▸ Nat.two_pow_pos n)

section probe
variable {n : ℕ} (hok : SlotsOk pointerKeys (table ht)) (hstored : Stored ht) (hcap : ht.capacity = 2 ^ n)
include hok hstored hcap

lemma slot_of_found (hfound : (vmHtProbe ht key (vmHtHashValue key)).2 = true) :
    (table ht).slots[(vmHtProbe ht key (vmHtHashValue key)).1]? =
      some (.occupied key (ht.slot (vmHtProbe ht key (vmHtHashValue key)).1).value) := by
  rw [vmHtProbe_eq hstored hcap] at hfound ⊢
  cases hfind : (table ht).findSlot pointerKeys key with
  | slot idx =>
    obtain ⟨k, v, hidx, hk⟩ := hok.occupied_of_slot hfind
    have hview : (ht.slot idx).view = .occupied k v := by rw [← slot_table, Hash.Table.slot_eq hidx]
    show (table ht).slots[idx]? = some (.occupied key (ht.slot idx).value)
    rw [hidx, (isLive_of_view hview).2.2, equal_iff.1 hk]
  | missing tombstone =>
    rw [hfind] at hfound
    cases tombstone <;> cases hfound

lemma not_holds_of_not_found (hmissing : (vmHtProbe ht key (vmHtHashValue key)).2 = false) (v : UInt64) :
    ¬ Holds pointerKeys (table ht) key v := by
  rw [vmHtProbe_eq hstored hcap] at hmissing
  cases hfind : (table ht).findSlot pointerKeys key with
  | slot idx =>
    rw [hfind] at hmissing
    cases hmissing
  | missing tombstone => exact hok.not_holds_of_missing hfind v

/-- Where a new entry goes: at the end of its chain, over its own key or over none. -/
lemma probe_lands (hlive : (table ht).live < (table ht).capacity) (key : UInt64) :
    (vmHtProbe ht key (vmHtHashValue key)).1 < (table ht).capacity ∧
      Chain pointerKeys (table ht) key (vmHtProbe ht key (vmHtHashValue key)).1 ∧
      Alone pointerKeys (table ht) key (vmHtProbe ht key (vmHtHashValue key)).1 ∧
      (ht.slot (vmHtProbe ht key (vmHtHashValue key)).1).isLive = (vmHtProbe ht key (vmHtHashValue key)).2 := by
  have hview : ∀ {idx : ℕ} {slot}, (table ht).slots[idx]? = some slot →
      idx < (table ht).capacity ∧ (ht.slot idx).isLive = slot.isOccupied := by
    intro idx slot hidx
    refine ⟨(List.getElem?_eq_some_iff.1 hidx).1, ?_⟩
    rw [← isOccupied_view, ← slot_table, Hash.Table.slot_eq hidx]
  rw [vmHtProbe_eq hstored hcap]
  cases hfind : (table ht).findSlot pointerKeys key with
  | slot idx =>
    obtain ⟨k, v, hidx, hk⟩ := hok.occupied_of_slot hfind
    obtain rfl := equal_iff.1 hk
    exact ⟨(hview hidx).1, hok.chain idx k v hidx, hok.alone hidx, (hview hidx).2⟩
  | missing tombstone =>
    have hnew := hok.not_holds_of_missing hfind
    cases tombstone with
    | some idx =>
      obtain ⟨hidx, hchain⟩ := hok.chain_of_tombstone hfind
      have halone : Alone pointerKeys (table ht) key idx := Hash.Table.alone_of_not_holds hnew (by simp [hidx])
      exact ⟨(hview hidx).1, hchain, halone, (hview hidx).2⟩
    | none =>
      -- no tombstone on the way, so the search ended on an empty slot
      have hempty := Hash.Table.exists_empty_of_missing hfind hok.capacity_pos hlive
      obtain ⟨idx, hrun, hidx, hchain⟩ := hok.emptySlot_spec key hempty
      have halone : Alone pointerKeys (table ht) key idx := Hash.Table.alone_of_not_holds hnew (by simp [hidx])
      rw [hrun]
      exact ⟨(hview hidx).1, hchain, halone, (hview hidx).2⟩

end probe

/-! ## Growth -/

lemma Stored.set (hstored : Stored ht) {slot : HtSlot} (idx count : ℕ)
    (hslot : slot.isLive = true → slot.hash = vmHtHashValue slot.key) :
    Stored ⟨ht.slots.set idx slot, count⟩ := by
  intro other hother hlive
  rcases List.mem_or_eq_of_mem_set hother with hmem | rfl
  · exact hstored other hmem hlive
  · exact hslot hlive

lemma table_zeroSlots (capacity count : ℕ) :
    table ⟨zeroSlots capacity, count⟩ = ⟨List.replicate capacity .empty, 0, 0⟩ := by
  simp [table, zeroSlots, HtSlot.view]

lemma stored_zeroSlots (capacity count : ℕ) : Stored ⟨zeroSlots capacity, count⟩ := by
  intro slot hslot hlive
  rw [List.eq_of_mem_replicate hslot] at hlive
  exact absurd hlive (by decide)

/-- The new arrays after the slots `done` of the old ones. -/
structure Refilled (newCap : ℕ) (done : List (Slot UInt64 UInt64)) (ht : VmHashTable) : Prop where
  rehashed : Rehashed pointerKeys newCap done (table ht)
  stored : Stored ht
  count_eq : ht.count = (table ht).live

lemma refilled_nil {newCap : ℕ} (hpos : 0 < newCap) : Refilled newCap [] ⟨zeroSlots newCap, 0⟩ := by
  have hrehashed : Rehashed pointerKeys newCap [] (table ⟨zeroSlots newCap, 0⟩) := by
    rw [table_zeroSlots]
    exact Hash.Table.rehashed_nil hpos 0 0
  exact ⟨hrehashed, stored_zeroSlots newCap 0, hrehashed.live_eq.symm⟩

/-- Among entries only, a key that is not there goes to the first empty slot. -/
lemma Refilled.probe_eq {n : ℕ} {done : List (Slot UInt64 UInt64)} (h : Refilled (2 ^ n) done ht)
    {key : UInt64} (hnew : ∀ v, ¬ Holds pointerKeys (table ht) key v) :
    vmHtProbe ht key (vmHtHashValue key) = (((table ht).emptySlot pointerKeys key).getD 0, false) := by
  have hok := h.rehashed.slotsOk
  have hcap : ht.capacity = 2 ^ n := capacity_table.symm.trans h.rehashed.capacity_eq
  rw [vmHtProbe_eq h.stored hcap]
  cases hfind : (table ht).findSlot pointerKeys key with
  | slot idx =>
    obtain ⟨k, v, hidx, hk⟩ := hok.occupied_of_slot hfind
    exact absurd ⟨idx, k, hidx, hk⟩ (hnew v)
  | missing tombstone =>
    cases tombstone with
    | some idx =>
      have hdeleted := Hash.Table.live_lt_used_of_deleted (hok.chain_of_tombstone hfind).1
      have hused := h.rehashed.used_eq
      omega
    | none => rfl

/-- What the loop does with a slot that is not live. -/
lemma reinsert_of_not_live (t : Hash.Table UInt64 UInt64) {old : HtSlot} (hlive : old.isLive = false) :
    t.reinsert pointerKeys old.view = some t := by
  rw [← isOccupied_view] at hlive
  cases hview : old.view with
  | occupied k v =>
    rw [hview] at hlive
    cases hlive
  | empty => rfl
  | deleted => rfl

lemma Refilled.step {n : ℕ} {done : List (Slot UInt64 UInt64)} (h : Refilled (2 ^ n) done ht)
    (hroom : done.countP Slot.isOccupied < 2 ^ n) {old : HtSlot}
    (hold : old.isLive = true → old.hash = vmHtHashValue old.key)
    (hnew : ∀ k v, old.view = .occupied k v → ∀ k' v', .occupied k' v' ∈ done →
      pointerKeys.equal k' k = false) :
    Refilled (2 ^ n) (done ++ [old.view]) (reinsert ht old) := by
  obtain ⟨t', hrun, -, -, h'⟩ := h.rehashed.reinsert hroom hnew
  have hlive' := h'.live_eq
  rw [List.countP_append, List.countP_singleton, isOccupied_view, ← h.rehashed.live_eq, ← h.count_eq] at hlive'
  unfold HashTable.reinsert
  by_cases hlive : old.isLive = true
  · have hview := view_of_isLive hlive
    have habsent : ∀ v, ¬ Holds pointerKeys (table ht) old.key v := by
      intro v hv
      obtain ⟨k, hk, heq⟩ := (h.rehashed.holds old.key v).1 hv
      rw [hnew _ _ hview k v hk] at heq
      cases heq
    have hprobe := h.probe_eq habsent
    rw [if_pos hlive, hold hlive, hprobe]
    rw [hview] at hrun
    cases hslot : (table ht).emptySlot pointerKeys old.key with
    | none =>
      rw [Hash.Table.reinsert, hslot] at hrun
      cases hrun
    | some idx =>
      rw [Hash.Table.reinsert, hslot] at hrun
      have htable : table ⟨ht.slots.set idx old, ht.count + 1⟩ = t' := by
        rw [table_set, hview]
        exact Option.some.inj hrun
      refine ⟨?_, h.stored.set idx _ hold, ?_⟩
      · show Rehashed _ _ _ (table ⟨ht.slots.set idx old, ht.count + 1⟩)
        rw [htable]
        exact h'
      · show ht.count + 1 = (table ⟨ht.slots.set idx old, ht.count + 1⟩).live
        rw [htable, hlive', if_pos hlive]
  · have hdead : old.isLive = false := by simpa using hlive
    rw [reinsert_of_not_live _ hdead] at hrun
    obtain rfl := Option.some.inj hrun
    rw [if_neg hlive]
    exact ⟨h', h.stored, h.count_eq⟩

lemma Refilled.run {n : ℕ} {done : List (Slot UInt64 UInt64)} {olds : List HtSlot}
    (h : Refilled (2 ^ n) done ht) (hroom : (done ++ olds.map HtSlot.view).countP Slot.isOccupied < 2 ^ n)
    (hold : ∀ old ∈ olds, old.isLive = true → old.hash = vmHtHashValue old.key)
    (hunique : (done ++ olds.map HtSlot.view).Pairwise fun s s' => ∀ k v k' v', s = .occupied k v →
      s' = .occupied k' v' → pointerKeys.equal k k' = false) :
    Refilled (2 ^ n) (done ++ olds.map HtSlot.view) (olds.foldl reinsert ht) := by
  induction olds generalizing done ht with
  | nil => simpa using h
  | cons old olds ih =>
    rw [List.map_cons, List.append_cons] at hroom hunique ⊢
    have hroom' : done.countP Slot.isOccupied < 2 ^ n := by
      simp only [List.countP_append] at hroom
      omega
    have hnew : ∀ k v, old.view = .occupied k v → ∀ k' v', .occupied k' v' ∈ done →
        pointerKeys.equal k' k = false := by
      intro k v hview k' v' hk'
      have hdone := (List.pairwise_append.1 hunique).1
      exact (List.pairwise_append.1 hdone).2.2 _ hk' old.view (by simp) k' v' k v rfl hview
    have hstep := h.step hroom' (hold old List.mem_cons_self) hnew
    exact ih hstep hroom (fun other hother => hold other (List.mem_cons_of_mem _ hother)) hunique

/-! ## The invariant -/

structure HtOk (ht : VmHashTable) : Prop where
  slotsOk : SlotsOk pointerKeys (table ht)
  stored : Stored ht
  count_eq : ht.count = (table ht).live
  power : ∃ n, ht.capacity = 2 ^ (4 + n)
  load : ht.count * 4 ≤ ht.capacity * 3
  small : ht.capacity ≤ 1073741824

lemma intMul_eq {a b : ℕ} (h : a * b ≤ 2147483647) : intMul a b = some (a * b) := if_pos h

/-- The last capacity that can still be doubled. -/
lemma HtOk.capacity_le (h : HtOk ht) (hcap : ht.capacity < 1073741824) : ht.capacity ≤ 536870912 := by
  obtain ⟨n, hn⟩ := h.power
  rw [hn] at hcap ⊢
  have hlt : 4 + n < 30 := (Nat.pow_lt_pow_iff_right (by decide : 1 < 2)).1 hcap
  exact (Nat.pow_le_pow_right (by decide) (by omega : 4 + n ≤ 29))

lemma HtOk.pos (h : HtOk ht) : 0 < ht.capacity := capacity_table ▸ h.slotsOk.capacity_pos

lemma HtOk.rehash (h : HtOk ht) (hcap : ht.capacity ≤ 536870912) :
    ∃ ht', vmHtRehash ht = some ht' ∧ HtOk ht' ∧ ht'.count = ht.count ∧ ht'.capacity = ht.capacity * 2 ∧
      ∀ key v, Holds pointerKeys (table ht') key v ↔ Holds pointerKeys (table ht) key v := by
  obtain ⟨n, hn⟩ := h.power
  have hnew : ht.capacity * 2 = 2 ^ (4 + (n + 1)) := by rw [hn, ← Nat.add_assoc, Nat.pow_succ]
  have hload := h.load
  have hpos := h.pos
  have hlive : (table ht).slots.countP Slot.isOccupied = ht.count := h.count_eq.symm
  have hstart : Refilled (2 ^ (4 + (n + 1))) [] ⟨zeroSlots (ht.capacity * 2), 0⟩ := by
    rw [← hnew]
    exact refilled_nil (by omega)
  have hroom : ([] ++ ht.slots.map HtSlot.view).countP Slot.isOccupied < 2 ^ (4 + (n + 1)) := by
    show (table ht).slots.countP Slot.isOccupied < _
    omega
  have hfull := hstart.run hroom h.stored h.slotsOk.pairwise
  set ht' := ht.slots.foldl reinsert ⟨zeroSlots (ht.capacity * 2), 0⟩
  have hcap' : ht'.capacity = ht.capacity * 2 := by
    rw [hnew, ← capacity_table]
    exact hfull.rehashed.capacity_eq
  have hcount' : ht'.count = ht.count := by
    rw [hfull.count_eq, hfull.rehashed.live_eq]
    exact hlive
  refine ⟨ht', ?_, ⟨hfull.rehashed.slotsOk, hfull.stored, hfull.count_eq, ⟨n + 1, hcap'.trans hnew⟩, by omega,
    by omega⟩, hcount', hcap', ?_⟩
  · rw [vmHtRehash, intMul_eq (by omega)]
    rfl
  · intro key v
    rw [hfull.rehashed.holds]
    constructor
    · rintro ⟨k, hk, heq⟩
      obtain ⟨i, hi⟩ := List.getElem?_of_mem hk
      exact ⟨i, k, hi, heq⟩
    · rintro ⟨i, k, hi, heq⟩
      exact ⟨k, List.mem_of_getElem? hi, heq⟩

/-- After the load check a quarter of the slots is not live. -/
lemma HtOk.checkLoad (h : HtOk ht) (hcap : ht.capacity < 1073741824) :
    ∃ ht', checkLoad ht = some ht' ∧ HtOk ht' ∧ ht'.count = ht.count ∧ ht'.count * 4 < ht'.capacity * 3 ∧
      (ht'.capacity = if ht.capacity * 3 ≤ ht.count * 4 then ht.capacity * 2 else ht.capacity) ∧
      ∀ key v, Holds pointerKeys (table ht') key v ↔ Holds pointerKeys (table ht) key v := by
  have hle := h.capacity_le hcap
  have hload := h.load
  have hpos := h.pos
  have hcheck : HashTable.checkLoad ht =
      if ht.capacity * 3 ≤ ht.count * 4 then vmHtRehash ht else some ht := by
    rw [HashTable.checkLoad, intMul_eq (by omega), intMul_eq (by omega)]
    rfl
  rw [hcheck]
  by_cases hfull : ht.capacity * 3 ≤ ht.count * 4
  · obtain ⟨ht', hrun, h', hcount, hdouble, hholds⟩ := h.rehash hle
    rw [if_pos hfull, if_pos hfull]
    exact ⟨ht', hrun, h', hcount, by omega, hdouble, hholds⟩
  · rw [if_neg hfull, if_neg hfull]
    exact ⟨ht, rfl, h, rfl, by omega, rfl, fun _ _ => Iff.rfl⟩

/-! ## The finite map -/

abbrev HtMap := Finmap fun _ : UInt64 => UInt64

/-- The map after a call. -/
def HtCall.next (m : HtMap) : HtCall → HtMap
  | .set key value => m.insert key value
  | .remove key => m.erase key
  | .clear => ∅
  | _ => m

/-- The keys of the map, each once. -/
def Lists (m : HtMap) (ks : List UInt64) : Prop := ks.Nodup ∧ ∀ k, k ∈ ks ↔ k ∈ m

/-- What a call returns on the map. -/
def HtCall.Returns (m : HtMap) : HtCall → HtResult → Prop
  | .set _ _, r => r = .unit
  | .ref key dflt, r => r = .value ((m.lookup key).getD dflt)
  | .hasKey key, r => r = .flag (decide (key ∈ m))
  | .remove _, r => r = .unit
  | .clear, r => r = .unit
  | .count, r => r = .count m.keys.card
  | .keys, r => ∃ ks, Lists m ks ∧ r = .list ks
  | .values, r => ∃ ks vs, Lists m ks ∧ vs.map some = ks.map (fun k => m.lookup k) ∧ r = .list vs

/-- Each call returns what it returns on the map of its turn. -/
def ReturnsAll : HtMap → List HtCall → List HtResult → Prop
  | _, [], rs => rs = []
  | m, call :: calls, rs => ∃ r rest, rs = r :: rest ∧ call.Returns m r ∧ ReturnsAll (call.next m) calls rest

/-- The map after calls. -/
def mapAfter (m : HtMap) (calls : List HtCall) : HtMap := calls.foldl HtCall.next m

/-- The results and the table of calls on a new table are those of the map. -/
structure RefinesMap (calls : List HtCall) (results : List HtResult) (ht : VmHashTable) : Prop where
  returns : ReturnsAll ∅ calls results
  count_eq : ht.count = ht.slots.countP HtSlot.isLive
  power : ht.capacity.isPowerOfTwo
  lands : ∀ key, key ∉ mapAfter ∅ calls → ∀ ht', checkLoad ht = some ht' →
    ∃ slot, ht'.slots[(vmHtProbe ht' key (vmHtHashValue key)).1]? = some slot ∧
      (slot.hash = htEmptyHash ∨ slot.hash = htTombstone)

/-- Calls on a new table do what they do on a map. -/
def Refines (calls : List HtCall) : Prop :=
  ∃ results ht, htCalls vmHtMake calls = some (results, ht) ∧ RefinesMap calls results ht

/-- The number of keys at which the capacity reaches `2^30`. -/
def lastGrowth : ℕ := 402653184

/-- No `set` comes after one that was made with so many keys in the map. -/
def SetsFit (m : HtMap) (calls : List HtCall) : Prop :=
  ∀ before key value between key' value' after,
    calls = before ++ .set key value :: (between ++ .set key' value' :: after) →
      (mapAfter m before).keys.card < lastGrowth

/-- The table holds the map. -/
abbrev HoldsMap (ht : VmHashTable) (m : HtMap) : Prop :=
  Represents pointerKeys (table ht) fun k => m.lookup k

variable {m : HtMap}

lemma lists_keys (h : HtOk ht) (hrep : HoldsMap ht m) :
    Lists m ((table ht).slots.filterMap Slot.key?) := by
  obtain ⟨hdistinct, hmem⟩ := hrep.enumerates h.slotsOk
  constructor
  · apply hdistinct.imp
    rintro k k' hk rfl
    rw [equal_iff.2 rfl] at hk
    cases hk
  · intro k
    rw [← Finmap.lookup_isSome, hmem k]
    constructor
    · intro hk
      exact ⟨k, hk, equal_iff.2 rfl⟩
    · rintro ⟨k', hk', heq⟩
      rwa [← equal_iff.1 heq]

lemma Lists.length_eq {ks : List UInt64} (h : Lists m ks) : ks.length = m.keys.card := by
  have hkeys : ks.toFinset = m.keys := by
    ext k
    rw [List.mem_toFinset, Finmap.mem_keys, h.2]
  rw [← hkeys, List.toFinset_card_of_nodup h.1]

lemma HtOk.card_eq (h : HtOk ht) (hrep : HoldsMap ht m) : ht.count = m.keys.card := by
  rw [← (lists_keys h hrep).length_eq, Hash.Table.length_keys, h.count_eq]

/-! ## The calls -/

lemma collect_eq (field : HtSlot → UInt64) (room : ℕ) (slots : List HtSlot) :
    collect field room slots = ((slots.filter HtSlot.isLive).map field).take room := by
  induction slots generalizing room with
  | nil => cases room <;> rfl
  | cons slot slots ih =>
    cases room with
    | zero => rfl
    | succ room =>
      unfold collect
      by_cases hlive : slot.isLive = true
      · rw [if_pos hlive, List.filter_cons_of_pos hlive, ih]
        rfl
      · rw [if_neg hlive, List.filter_cons_of_neg hlive, ih]

/-- There is room for all that is live. -/
lemma HtOk.collect_eq (h : HtOk ht) (field : HtSlot → UInt64) :
    (if ht.count = 0 then [] else collect field ht.count ht.slots) = (ht.slots.filter HtSlot.isLive).map field := by
  have hlen : ((ht.slots.filter HtSlot.isLive).map field).length = ht.count := by
    rw [List.length_map, ← List.countP_eq_length_filter, h.count_eq, live_table]
  by_cases hzero : ht.count = 0
  · rw [if_pos hzero, eq_comm, ← List.length_eq_zero_iff, hlen]
    exact hzero
  · rw [if_neg hzero, HashTable.collect_eq, ← hlen, List.take_length]

lemma filterMap_view (slots : List HtSlot) {field : HtSlot → UInt64} {field? : Slot UInt64 UInt64 → Option UInt64}
    (hlive : ∀ slot : HtSlot, slot.isLive = true → field? slot.view = some (field slot))
    (hdead : ∀ s : Slot UInt64 UInt64, s.isOccupied = false → field? s = none) :
    (slots.map HtSlot.view).filterMap field? = (slots.filter HtSlot.isLive).map field := by
  induction slots with
  | nil => rfl
  | cons slot slots ih =>
    rw [List.map_cons]
    by_cases h : slot.isLive = true
    · rw [List.filterMap_cons_some (hlive slot h), List.filter_cons_of_pos h, List.map_cons, ih]
    · have hnone : field? slot.view = none := by
        apply hdead
        rw [isOccupied_view]
        simpa using h
      rw [List.filterMap_cons_none hnone, List.filter_cons_of_neg h, ih]

lemma HtOk.keys_eq (h : HtOk ht) : vmHtKeys ht = (table ht).slots.filterMap Slot.key? := by
  rw [vmHtKeys, h.collect_eq]
  refine (filterMap_view ht.slots (fun slot hlive => ?_) fun s hs => ?_).symm
  · rw [view_of_isLive hlive]
    rfl
  · cases s with
    | occupied => cases hs
    | _ => rfl

lemma HtOk.values_eq (h : HtOk ht) : vmHtValues ht = (table ht).slots.filterMap Slot.value? := by
  rw [vmHtValues, h.collect_eq]
  refine (filterMap_view ht.slots (fun slot hlive => ?_) fun s hs => ?_).symm
  · rw [view_of_isLive hlive]
    rfl
  · cases s with
    | occupied => cases hs
    | _ => rfl

lemma HtOk.ref (h : HtOk ht) (hrep : HoldsMap ht m) (key dflt : UInt64) :
    vmHtRef ht key dflt = (m.lookup key).getD dflt := by
  obtain ⟨n, hn⟩ := h.power
  unfold vmHtRef
  by_cases hfound : (vmHtProbe ht key (vmHtHashValue key)).2 = true
  · have hslot := slot_of_found h.slotsOk h.stored hn hfound
    have hlookup := (hrep key _).2 ⟨_, key, hslot, equal_iff.2 rfl⟩
    simp only at hlookup
    rw [hlookup]
    exact if_pos hfound
  · have hmissing : m.lookup key = none := by
      rw [Option.eq_none_iff_forall_ne_some]
      intro v hv
      exact not_holds_of_not_found h.slotsOk h.stored hn (by simpa using hfound) v ((hrep key v).1 hv)
    rw [hmissing]
    exact if_neg hfound

lemma HtOk.hasKey (h : HtOk ht) (hrep : HoldsMap ht m) (key : UInt64) :
    vmHtHasKey ht key = decide (key ∈ m) := by
  obtain ⟨n, hn⟩ := h.power
  unfold vmHtHasKey
  rw [Bool.eq_iff_iff, decide_eq_true_iff, Finmap.mem_iff]
  constructor
  · intro hfound
    have hslot := slot_of_found h.slotsOk h.stored hn hfound
    exact ⟨_, (hrep key _).2 ⟨_, key, hslot, equal_iff.2 rfl⟩⟩
  · rintro ⟨v, hv⟩
    by_contra hmissing
    exact not_holds_of_not_found h.slotsOk h.stored hn (by simpa using hmissing) v ((hrep key v).1 hv)

lemma next_set (key value : UInt64) :
    ((Hash.Call.set key value).next pointerKeys fun k => m.lookup k) =
      fun k => Finmap.lookup k (m.insert key value) := by
  funext k
  unfold Hash.Call.next
  by_cases hk : key = k
  · subst hk
    simp only [if_pos (equal_iff.2 rfl), Finmap.lookup_insert]
  · simp only [if_neg (mt equal_iff.1 hk), Finmap.lookup_insert_of_ne _ (Ne.symm hk)]

lemma htTombstone_lt_remapped (h : UInt64) : htTombstone < if h ≤ htTombstone then h + 2 else h := by
  unfold htTombstone
  split_ifs with hle
  · rw [UInt64.le_iff_toNat_le, UInt64.toNat_one] at hle
    rw [UInt64.lt_iff_toNat_lt, UInt64.toNat_add, UInt64.toNat_one]
    have htwo : (2 : UInt64).toNat = 2 := rfl
    omega
  · exact UInt64.not_le.1 hle

/-- No hash is one of the two marks. -/
lemma isLive_entry (key value : UInt64) : HtSlot.isLive ⟨vmHtHashValue key, key, value⟩ = true :=
  decide_eq_true (htTombstone_lt_remapped _)

lemma HtOk.store (h : HtOk ht) (hrep : HoldsMap ht m) (hload : ht.count * 4 < ht.capacity * 3)
    (key value : UInt64) :
    HtOk (store ht key value) ∧ HoldsMap (store ht key value) (m.insert key value) := by
  obtain ⟨n, hn⟩ := h.power
  have hroom : (table ht).live < (table ht).capacity := by
    rw [← h.count_eq, capacity_table]
    omega
  obtain ⟨hidx, hchain, halone, hfound⟩ := probe_lands h.slotsOk h.stored hn hroom key
  have hview := view_of_isLive (isLive_entry key value)
  have hslot := Hash.Table.live_put (Hash.Table.getElem?_slot hidx) (.occupied key value)
  unfold HashTable.store
  simp only
  generalize vmHtProbe ht key (vmHtHashValue key) = probe at *
  have htable : table ⟨ht.slots.set probe.1 ⟨vmHtHashValue key, key, value⟩,
      if probe.2 then ht.count else ht.count + 1⟩ = (table ht).put probe.1 (.occupied key value) := by
    rw [table_set, hview]
  have hcap : (ht.slots.set probe.1 ⟨vmHtHashValue key, key, value⟩).length = ht.capacity := List.length_set
  have hcount : (if probe.2 then ht.count else ht.count + 1) = ((table ht).put probe.1 (.occupied key value)).live := by
    rw [slot_table, isOccupied_view, hfound, ← h.count_eq] at hslot
    cases hp : probe.2 <;> simp [hp, Slot.isOccupied] at hslot ⊢ <;> omega
  have hle : (if probe.2 then ht.count else ht.count + 1) ≤ ht.count + 1 := by
    split_ifs <;> omega
  have hquarter : (ht.count + 1) * 4 ≤ ht.capacity * 3 := by
    rw [hn, Nat.pow_add] at hload ⊢
    omega
  refine ⟨⟨?_, h.stored.set _ _ fun _ => rfl, ?_, ⟨n, hcap.trans hn⟩, ?_, ?_⟩, ?_⟩
  · rw [htable]
    exact h.slotsOk.put_occupied value hchain halone
  · rw [htable]
    exact hcount
  · show (if probe.2 then ht.count else ht.count + 1) * 4 ≤ (ht.slots.set probe.1 _).length * 3
    rw [hcap]
    omega
  · show (ht.slots.set probe.1 _).length ≤ 1073741824
    rw [hcap]
    exact h.small
  · unfold HoldsMap
    rw [htable, ← next_set]
    exact hrep.put_occupied hidx halone (equal_iff.2 rfl)

lemma HtOk.remove (h : HtOk ht) (hrep : HoldsMap ht m) (key : UInt64) :
    HtOk (vmHtRemove ht key) ∧ HoldsMap (vmHtRemove ht key) (m.erase key) ∧
      (vmHtRemove ht key).capacity = ht.capacity := by
  obtain ⟨n, hn⟩ := h.power
  have hlookup : ∀ k, (m.erase key).lookup k = if key = k then none else m.lookup k := by
    intro k
    by_cases hk : key = k
    · subst hk
      rw [if_pos rfl, Finmap.lookup_erase]
    · rw [if_neg hk, Finmap.lookup_erase_ne (Ne.symm hk)]
  unfold vmHtRemove
  simp only
  by_cases hfound : (vmHtProbe ht key (vmHtHashValue key)).2 = true
  · have hslot := slot_of_found h.slotsOk h.stored hn hfound
    have hlive := Hash.Table.live_put hslot .deleted
    rw [if_pos hfound]
    generalize vmHtProbe ht key (vmHtHashValue key) = probe at *
    have htable : table ⟨ht.slots.set probe.1 ⟨htTombstone, 0, 0⟩, ht.count - 1⟩ =
        (table ht).put probe.1 .deleted := by
      rw [table_set]
      rfl
    have hcap : (ht.slots.set probe.1 ⟨htTombstone, 0, 0⟩).length = ht.capacity := List.length_set
    have hload := h.load
    simp only [Slot.isOccupied, if_true, Bool.false_eq_true, if_false, Nat.add_zero] at hlive
    refine ⟨⟨?_, h.stored.set _ _ fun hmark => absurd hmark (by decide), ?_, ⟨n, hcap.trans hn⟩, ?_, ?_⟩, ?_, hcap⟩
    · rw [htable]
      exact h.slotsOk.put_deleted _
    · rw [htable]
      show ht.count - 1 = _
      rw [h.count_eq]
      omega
    · show (ht.count - 1) * 4 ≤ (ht.slots.set probe.1 _).length * 3
      rw [hcap]
      omega
    · show (ht.slots.set probe.1 _).length ≤ 1073741824
      rw [hcap]
      exact h.small
    · intro k v
      rw [htable, Hash.Table.holds_put_deleted (h.slotsOk.alone hslot), ← hrep k v]
      simp only [hlookup]
      by_cases hk : key = k
      · simp [hk, equal_iff.2]
      · have hne : pointerKeys.equal key k = false := by
          rw [Bool.eq_false_iff]
          exact mt equal_iff.1 hk
        simp [hk, hne]
  · rw [if_neg hfound]
    have habsent := not_holds_of_not_found h.slotsOk h.stored hn (by simpa using hfound)
    refine ⟨h, ?_, rfl⟩
    intro k v
    simp only [hlookup]
    by_cases hk : key = k
    · subst hk
      simp [habsent]
    · rw [if_neg hk]
      exact hrep k v

lemma HtOk.clear (h : HtOk ht) : HtOk (vmHtClear ht) ∧ HoldsMap (vmHtClear ht) ∅ := by
  obtain ⟨n, hn⟩ := h.power
  have hnew := refilled_nil h.pos
  have hcap : (vmHtClear ht).capacity = ht.capacity := List.length_replicate
  constructor
  · exact ⟨hnew.rehashed.slotsOk, hnew.stored, hnew.count_eq, ⟨n, hcap.trans hn⟩, Nat.zero_le _, hcap ▸ h.small⟩
  · intro k v
    rw [vmHtClear, hnew.rehashed.holds]
    simp

lemma htOk_make : HtOk vmHtMake ∧ HoldsMap vmHtMake ∅ := by
  have hnew : Refilled htInitialCap [] vmHtMake := refilled_nil (by decide)
  constructor
  · exact ⟨hnew.rehashed.slotsOk, hnew.stored, hnew.count_eq, ⟨0, rfl⟩, Nat.zero_le _, by decide⟩
  · intro k v
    rw [hnew.rehashed.holds]
    simp

/-- The capacity after a call. -/
def capacityAfter (ht : VmHashTable) : HtCall → ℕ
  | .set _ _ => if ht.capacity * 3 ≤ ht.count * 4 then ht.capacity * 2 else ht.capacity
  | _ => ht.capacity

/-- A call on a table that can grow answers as the map does and keeps the table in step with it. -/
lemma HtOk.call (h : HtOk ht) (hrep : HoldsMap ht m) (call : HtCall)
    (hcap : ∀ key value, call = .set key value → ht.capacity < 1073741824) :
    ∃ r ht', htCall ht call = some (r, ht') ∧ call.Returns m r ∧ HtOk ht' ∧ HoldsMap ht' (call.next m) ∧
      ht'.capacity = capacityAfter ht call := by
  cases call with
  | set key value =>
    obtain ⟨ht₁, hcheck, h₁, -, hload, hcapacity, hholds⟩ := h.checkLoad (hcap key value rfl)
    have hrep₁ : HoldsMap ht₁ m := fun k v => (hrep k v).trans (hholds k v).symm
    obtain ⟨h', hrep'⟩ := h₁.store hrep₁ hload key value
    refine ⟨.unit, HashTable.store ht₁ key value, ?_, rfl, h', hrep', ?_⟩
    · rw [htCall, vmHtSet, hcheck]
      rfl
    · rw [capacityAfter, ← hcapacity]
      exact List.length_set
  | ref key dflt => exact ⟨_, ht, rfl, congrArg HtResult.value (h.ref hrep key dflt), h, hrep, rfl⟩
  | hasKey key => exact ⟨_, ht, rfl, congrArg HtResult.flag (h.hasKey hrep key), h, hrep, rfl⟩
  | remove key =>
    obtain ⟨h', hrep', hcapacity⟩ := h.remove hrep key
    exact ⟨.unit, _, rfl, rfl, h', hrep', hcapacity⟩
  | clear =>
    obtain ⟨h', hrep'⟩ := h.clear
    exact ⟨.unit, _, rfl, rfl, h', hrep', List.length_replicate⟩
  | count => exact ⟨_, ht, rfl, congrArg HtResult.count (h.card_eq hrep), h, hrep, rfl⟩
  | keys => exact ⟨_, ht, rfl, ⟨_, lists_keys h hrep, congrArg HtResult.list h.keys_eq⟩, h, hrep, rfl⟩
  | values =>
    have hvalues := hrep.values (table ht).slots fun _ hs => hs
    exact ⟨_, ht, rfl, ⟨_, _, lists_keys h hrep, hvalues, congrArg HtResult.list h.values_eq⟩, h, hrep, rfl⟩

/-! ## Runs -/

lemma vmHtSet_eq_none (hcap : 1073741824 ≤ ht.capacity) (key value : UInt64) : vmHtSet ht key value = none := by
  have hlimit : intMul ht.capacity 3 = none := if_neg (by omega)
  unfold vmHtSet checkLoad
  cases intMul ht.count 4 with
  | none => rfl
  | some load =>
    rw [hlimit]
    rfl

lemma le_capacityAfter (ht : VmHashTable) (call : HtCall) : ht.capacity ≤ capacityAfter ht call := by
  cases call with
  | set key value =>
    rw [capacityAfter]
    split_ifs <;> omega
  | _ => exact Nat.le_refl _

/-- A sequence of calls that goes through answers as the map does. -/
lemma HtOk.calls (h : HtOk ht) (hrep : HoldsMap ht m) {calls : List HtCall} {results : List HtResult}
    {ht' : VmHashTable} (hrun : htCalls ht calls = some (results, ht')) :
    ReturnsAll m calls results ∧ HtOk ht' ∧ HoldsMap ht' (mapAfter m calls) ∧ ht.capacity ≤ ht'.capacity := by
  induction calls generalizing ht m results with
  | nil =>
    obtain ⟨rfl, rfl⟩ := Prod.mk.inj (Option.some.inj hrun)
    exact ⟨rfl, h, hrep, Nat.le_refl _⟩
  | cons call calls ih =>
    have hcap : ∀ key value, call = .set key value → ht.capacity < 1073741824 := by
      rintro key value rfl
      by_contra hlarge
      rw [htCalls, htCall, vmHtSet_eq_none (Nat.le_of_not_lt hlarge)] at hrun
      cases hrun
    obtain ⟨r, ht₁, hcall, hreturns, h₁, hrep₁, hcapacity⟩ := h.call hrep call hcap
    simp only [htCalls, hcall, Option.bind_eq_bind, Option.bind_some, Option.bind_eq_some_iff] at hrun
    obtain ⟨⟨rs, ht₂⟩, hrest, hpair⟩ := hrun
    obtain ⟨rfl, rfl⟩ := Prod.mk.inj (Option.some.inj hpair)
    obtain ⟨hreturnsAll, h', hrep', hle⟩ := ih h₁ hrep₁ hrest
    have hgrown := le_capacityAfter ht call
    exact ⟨⟨r, rs, rfl, hreturns, hreturnsAll⟩, h', hrep', by omega⟩

lemma SetsFit.tail {call : HtCall} {calls : List HtCall} (hfit : SetsFit m (call :: calls)) :
    SetsFit (call.next m) calls := by
  rintro before key value between key' value' after rfl
  exact hfit (call :: before) key value between key' value' after rfl

/-- As long as the sets fit, all calls go through. -/
lemma HtOk.calls_of_fit (h : HtOk ht) (hrep : HoldsMap ht m) {calls : List HtCall} (hfit : SetsFit m calls)
    (hlarge : 1073741824 ≤ ht.capacity → ∀ key value, HtCall.set key value ∉ calls) :
    ∃ results ht', htCalls ht calls = some (results, ht') := by
  induction calls generalizing ht m with
  | nil => exact ⟨[], ht, rfl⟩
  | cons call calls ih =>
    have hcap : ∀ key value, call = .set key value → ht.capacity < 1073741824 := by
      rintro key value rfl
      by_contra hfull
      exact hlarge (Nat.le_of_not_lt hfull) key value List.mem_cons_self
    obtain ⟨r, ht₁, hcall, -, h₁, hrep₁, hcapacity⟩ := h.call hrep call hcap
    have hlarge₁ : 1073741824 ≤ ht₁.capacity → ∀ key value, HtCall.set key value ∉ calls := by
      intro hfull key' value' hmem
      cases call with
      | set key value =>
        -- the last growth: no other set comes after this one
        have hsmall := h.capacity_le (hcap key value rfl)
        rw [capacityAfter] at hcapacity
        have hgrown : ht.capacity * 3 ≤ ht.count * 4 := by
          by_contra hfits
          rw [if_neg hfits] at hcapacity
          omega
        rw [if_pos hgrown] at hcapacity
        obtain ⟨between, after, rfl⟩ := List.append_of_mem hmem
        have hlt := hfit [] key value between key' value' after rfl
        rw [mapAfter, List.foldl_nil, ← h.card_eq hrep, lastGrowth] at hlt
        omega
      | _ => exact hlarge (hfull.trans_eq hcapacity) key' value' (List.mem_cons_of_mem _ hmem)
    obtain ⟨rs, ht', hrun⟩ := ih h₁ hrep₁ hfit.tail hlarge₁
    refine ⟨r :: rs, ht', ?_⟩
    rw [htCalls, hcall]
    simp only [Option.bind_eq_bind, Option.bind_some, hrun]
    rfl

lemma calls_append {before after : List HtCall} {results : List HtResult} {ht' : VmHashTable}
    (hrun : htCalls ht (before ++ after) = some (results, ht')) :
    ∃ rs ht₁ rs', htCalls ht before = some (rs, ht₁) ∧ htCalls ht₁ after = some (rs', ht') := by
  induction before generalizing ht results with
  | nil => exact ⟨[], ht, results, rfl, hrun⟩
  | cons call before ih =>
    simp only [List.cons_append, htCalls, Option.bind_eq_bind, Option.bind_eq_some_iff] at hrun
    obtain ⟨⟨r, ht₁⟩, hcall, ⟨rs, ht₂⟩, hrest, hpair⟩ := hrun
    obtain ⟨-, rfl⟩ := Prod.mk.inj (Option.some.inj hpair)
    obtain ⟨rs₁, ht₃, rs₂, hbefore, hafter⟩ := ih hrest
    refine ⟨r :: rs₁, ht₃, rs₂, ?_, hafter⟩
    rw [htCalls, hcall]
    simp only [Option.bind_eq_bind, Option.bind_some, hbefore]
    rfl

/-- A set on a table of `2^30` slots overflows. -/
lemma setsFit_of_runs {calls : List HtCall} {results : List HtResult} {ht' : VmHashTable}
    (hrun : htCalls vmHtMake calls = some (results, ht')) : SetsFit ∅ calls := by
  rintro before key value between key' value' after rfl
  by_contra hfull
  obtain ⟨hok, hempty⟩ := htOk_make
  obtain ⟨rs, ht, rs', hbefore, hrest⟩ := calls_append hrun
  obtain ⟨-, h, hrep, -⟩ := hok.calls hempty hbefore
  have hcount := h.card_eq hrep
  have hload := h.load
  rw [lastGrowth] at hfull
  -- the first set doubles the capacity, if it is not too large already
  simp only [htCalls, Option.bind_eq_bind, Option.bind_eq_some_iff] at hrest
  obtain ⟨⟨r₁, ht₁⟩, hset, ⟨rs₂, ht₂⟩, hrest, -⟩ := hrest
  have hsmall : ht.capacity < 1073741824 := by
    by_contra hlarge
    rw [htCall, vmHtSet_eq_none (Nat.le_of_not_lt hlarge)] at hset
    cases hset
  obtain ⟨_, ht₃, hcall, -, h₃, hrep₃, hcapacity⟩ := h.call hrep (.set key value) fun _ _ _ => hsmall
  obtain ⟨-, rfl⟩ := Prod.mk.inj (Option.some.inj (hcall.symm.trans hset))
  rw [capacityAfter, if_pos (by have := h.capacity_le hsmall; omega)] at hcapacity
  -- the calls between leave it so, and the second set overflows
  obtain ⟨rs₃, ht₄, rs₄, hbetween, hlast⟩ := calls_append hrest
  obtain ⟨-, -, -, hle⟩ := h₃.calls hrep₃ hbetween
  have hnone : vmHtSet ht₄ key' value' = none := vmHtSet_eq_none (by omega) key' value'
  rw [htCalls, htCall, hnone] at hlast
  cases hlast

/-- Calls on a new table do what they do on a map just when no set follows the one that makes the capacity
`2^30`. -/
theorem refines_iff (calls : List HtCall) : Refines calls ↔ SetsFit ∅ calls := by
  constructor
  · rintro ⟨results, ht, hrun, -⟩
    exact setsFit_of_runs hrun
  · intro hfit
    obtain ⟨hok, hempty⟩ := htOk_make
    obtain ⟨results, ht, hrun⟩ := hok.calls_of_fit hempty hfit fun hlarge => absurd hlarge (by decide)
    obtain ⟨hreturns, h, hrep, -⟩ := hok.calls hempty hrun
    obtain ⟨n, hn⟩ := h.power
    refine ⟨results, ht, hrun, hreturns, h.count_eq.trans live_table, ⟨4 + n, hn⟩, ?_⟩
    intro key habsent ht' hcheck
    have hsmall : ht.capacity < 1073741824 := by
      by_contra hlarge
      have hnone := vmHtSet_eq_none (Nat.le_of_not_lt hlarge) key 0
      rw [vmHtSet, hcheck] at hnone
      cases hnone
    obtain ⟨ht₁, hcheck₁, h', -, hload, -, hholds⟩ := h.checkLoad hsmall
    obtain rfl := Option.some.inj (hcheck₁.symm.trans hcheck)
    obtain ⟨n', hn'⟩ := h'.power
    have hroom : (table ht₁).live < (table ht₁).capacity := by
      rw [← h'.count_eq, capacity_table]
      omega
    obtain ⟨hidx, -, -, hfound⟩ := probe_lands h'.slotsOk h'.stored hn' hroom key
    rw [capacity_table] at hidx
    have hslot : ht₁.slots[(vmHtProbe ht₁ key (vmHtHashValue key)).1]? =
        some (ht₁.slot (vmHtProbe ht₁ key (vmHtHashValue key)).1) := by
      rw [VmHashTable.slot, List.getD_eq_getElem _ _ hidx, List.getElem?_eq_getElem hidx]
    refine ⟨_, hslot, ?_⟩
    have hmissing : (vmHtProbe ht₁ key (vmHtHashValue key)).2 = false := by
      by_contra hthere
      have hoccupied := slot_of_found h'.slotsOk h'.stored hn' (by simpa using hthere)
      have hlookup := (hrep key _).2 ((hholds key _).1 ⟨_, key, hoccupied, equal_iff.2 rfl⟩)
      exact habsent (Finmap.mem_of_lookup_eq_some hlookup)
    rw [hmissing, ← Bool.not_eq_true, isLive_iff] at hfound
    tauto

/-! ## A table that overflows -/

/-- As many sets, each of another key. -/
def setMany (n : ℕ) : List HtCall := (List.range n).map fun i => .set (UInt64.ofNat i) 0

lemma keys_setMany (n : ℕ) : (mapAfter ∅ (setMany n)).keys = (Finset.range n).image UInt64.ofNat := by
  induction n with
  | zero => rfl
  | succ n ih =>
    have hlast : mapAfter ∅ (setMany (n + 1)) = (mapAfter ∅ (setMany n)).insert (UInt64.ofNat n) 0 := by
      rw [mapAfter, setMany, List.range_succ, List.map_append, List.foldl_append]
      rfl
    have hkeys : ((mapAfter ∅ (setMany n)).insert (UInt64.ofNat n) 0).keys =
        insert (UInt64.ofNat n) (mapAfter ∅ (setMany n)).keys := by
      ext k
      rw [Finmap.mem_keys, Finmap.mem_insert, Finset.mem_insert, Finmap.mem_keys]
    rw [hlast, hkeys, ih, Finset.range_add_one, Finset.image_insert]

lemma card_setMany {n : ℕ} (hn : n ≤ UInt64.size) : (mapAfter ∅ (setMany n)).keys.card = n := by
  rw [keys_setMany, Finset.card_image_of_injOn, Finset.card_range]
  intro i hi j hj hij
  rw [Finset.mem_coe, Finset.mem_range] at hi hj
  have hnat := congrArg UInt64.toNat hij
  rwa [UInt64.toNat_ofNat_of_lt' (by omega), UInt64.toNat_ofNat_of_lt' (by omega)] at hnat

lemma not_refines_setMany {n : ℕ} (hfull : lastGrowth ≤ n) (hn : n ≤ UInt64.size) :
    ¬ Refines (setMany n ++ .set 0 0 :: ([] ++ .set 0 0 :: [])) := by
  intro hrefines
  have hlt := (refines_iff _).1 hrefines (setMany n) 0 0 [] 0 0 [] rfl
  rw [card_setMany hn] at hlt
  omega

/-- So many keys that the capacity becomes `2^30`, and another set. -/
theorem not_refines_full : ¬ ∀ calls : List HtCall, Refines calls := by
  intro h
  have hsize : lastGrowth ≤ UInt64.size := by decide
  exact not_refines_setMany (Nat.le_refl lastGrowth) hsize (h _)

end Vm.HashTable
