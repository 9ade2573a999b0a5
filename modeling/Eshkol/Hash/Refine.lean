import Eshkol.Hash.Probing

/-!
# The hash table is a finite map

The table represents a map from keys to values, keys taken up to the table's own equality. Every
call answers as the map does and leaves a table that represents the map after it, from any initial
capacity and over any sequence of calls.
-/

namespace Hash

variable {K V : Type} {ops : KeyOps K} {t : Table K V} {m : K → Option V} {key : K}

/-! ## The abstract map -/

/-- `ks` lists each key of the map once. -/
def Enumerates (ops : KeyOps K) (m : K → Option V) (ks : List K) : Prop :=
  ks.Pairwise (fun k k' => ops.equal k k' = false) ∧
    ∀ k, (m k).isSome = true ↔ ∃ k' ∈ ks, ops.equal k' k = true

/-- The map after a call. -/
def Call.next (ops : KeyOps K) (m : K → Option V) : Call K V → K → Option V
  | .set key value => fun k => if ops.equal key k then some value else m k
  | .remove key => fun k => if ops.equal key k then none else m k
  | .clear => fun _ => none
  | _ => m

/-- What a call returns on the map. -/
def Call.Returns (ops : KeyOps K) (m : K → Option V) : Call K V → Result K V → Prop
  | .set _ _, r => r = .flag true
  | .get key, r => r = .value (m key)
  | .hasKey key, r => r = .flag (m key).isSome
  | .remove key, r => r = .flag (m key).isSome
  | .clear, r => r = .unit
  | .count, r => ∃ ks, Enumerates ops m ks ∧ r = .count ks.length
  | .keys, r => ∃ ks, Enumerates ops m ks ∧ r = .keys ks
  | .values, r => ∃ ks vs, Enumerates ops m ks ∧ vs.map some = ks.map m ∧ r = .values vs

/-- Each call of a sequence returns what it returns on the map of its turn. -/
def ReturnsAll (ops : KeyOps K) : (K → Option V) → List (Call K V) → List (Result K V) → Prop
  | _, [], rs => rs = []
  | m, c :: cs, rs => ∃ r rest, rs = r :: rest ∧ c.Returns ops m r ∧
      ReturnsAll ops (c.next ops m) cs rest

/-- Two lists of the keys of a map have the same length. -/
lemma Enumerates.length_eq {ks ks' : List K} (h : Enumerates ops m ks) (h' : Enumerates ops m ks') :
    ks.length = ks'.length := by
  let setoid : Setoid K := ⟨fun k k' => ops.equal k k' = true, ops.equal_refl,
    fun {k k'} => ops.equal_symm k k', fun {k k' k''} => ops.equal_trans k k' k''⟩
  have hclasses {ks : List K} (h : Enumerates ops m ks) :
      (ks.map (Quotient.mk setoid)).Nodup := by
    rw [List.Nodup, List.pairwise_map]
    refine h.1.imp fun {k k'} hne heq => ?_
    rw [show ops.equal k k' = true from Quotient.exact heq] at hne
    cases hne
  have hmem {ks ks' : List K} (h : Enumerates ops m ks) (h' : Enumerates ops m ks') :
      ∀ c ∈ ks.map (Quotient.mk setoid), c ∈ ks'.map (Quotient.mk setoid) := by
    intro c hc
    obtain ⟨k, hk, rfl⟩ := List.mem_map.1 hc
    obtain ⟨k', hk', heq⟩ := (h'.2 k).1 ((h.2 k).2 ⟨k, hk, ops.equal_refl k⟩)
    exact List.mem_map.2 ⟨k', hk', Quotient.sound heq⟩
  have hperm := (List.perm_ext_iff_of_nodup (hclasses h) (hclasses h')).2
    fun c => ⟨hmem h h' c, hmem h' h c⟩
  simpa using hperm.length_eq

namespace Table

/-! ## The invariant -/

/-- The slots that are not empty. -/
def used (t : Table K V) : ℕ := t.slots.countP fun s => !s.isEmpty

/-- The occupied slots. -/
def live (t : Table K V) : ℕ := t.slots.countP Slot.isOccupied

structure Inv (ops : KeyOps K) (t : Table K V) : Prop where
  slotsOk : SlotsOk ops t
  size_eq : t.size = t.live
  used_eq : t.size + t.tombstones = t.used

/-- The table holds the map. -/
def Represents (ops : KeyOps K) (t : Table K V) (m : K → Option V) : Prop :=
  ∀ k v, m k = some v ↔ Holds ops t k v

/-- A table that is not full has an empty slot. -/
lemma exists_empty (h : t.used < t.capacity) : ∃ i < t.capacity, (t.slot i).isEmpty = true := by
  by_contra hnone
  have hall : ∀ s ∈ t.slots, (!s.isEmpty) = true := by
    intro s hs
    obtain ⟨i, hi⟩ := List.getElem?_of_mem hs
    have hlt : i < t.capacity := (List.getElem?_eq_some_iff.1 hi).1
    by_contra hempty
    exact hnone ⟨i, hlt, by rw [slot_eq hi]; simpa using hempty⟩
  have := List.countP_eq_length.2 hall
  simp only [used, capacity] at h
  omega

/-- A search that meets neither the key nor a tombstone met an empty slot, unless all are occupied. -/
lemma exists_empty_of_missing (hfind : t.findSlot ops key = .missing none) (hcap : 0 < t.capacity)
    (hlive : t.live < t.capacity) : ∃ i < t.capacity, (t.slot i).isEmpty = true := by
  have hspec := findSlot_spec ops t key
  rw [hfind] at hspec
  obtain ⟨d, hd, hempty, hpast, hnodeleted⟩ := hspec
  by_cases hlt : d < t.capacity
  · exact ⟨_, ring_lt hcap _ d, by rw [hempty hlt]; rfl⟩
  · -- the walk went all the way round and past occupied slots only
    have hall : ∀ s ∈ t.slots, s.isOccupied = true := by
      intro s hs
      obtain ⟨i, hi⟩ := List.getElem?_of_mem hs
      have hilt : i < t.capacity := (List.getElem?_eq_some_iff.1 hi).1
      obtain ⟨d', hd', hring⟩ := exists_ring_eq (Nat.mod_lt (ops.hash key) hcap) hilt
      have hpass := (hpast d' (by omega)).1
      have hkept := hnodeleted d' (by omega)
      rw [home, hring, slot_eq hi] at hpass hkept
      cases s with
      | empty => cases hpass
      | deleted => exact absurd rfl hkept
      | occupied k v => rfl
    have := List.countP_eq_length.2 hall
    simp only [live, capacity] at hlive
    omega

section counts
variable {i : ℕ} {s : Slot K V}

lemma countP_put (p : Slot K V → Bool) (hi : t.slots[i]? = some s) (s' : Slot K V) :
    (t.put i s').slots.countP p + (if p s then 1 else 0) =
      t.slots.countP p + (if p s' then 1 else 0) := by
  obtain ⟨hlt, hs⟩ := List.getElem?_eq_some_iff.1 hi
  have hpos : p s = true → 0 < t.slots.countP p :=
    fun hp => List.countP_pos_iff.2 ⟨s, List.mem_of_getElem? hi, hp⟩
  simp only [put, List.countP_set hlt, hs]
  by_cases hp : p s = true
  · have := hpos hp
    simp only [hp, if_true]
    omega
  · simp only [hp]
    simp

lemma live_put (hi : t.slots[i]? = some s) (s' : Slot K V) :
    (t.put i s').live + (if s.isOccupied then 1 else 0) =
      t.live + (if s'.isOccupied then 1 else 0) :=
  countP_put Slot.isOccupied hi s'

lemma used_put (hi : t.slots[i]? = some s) (s' : Slot K V) :
    (t.put i s').used + (if !s.isEmpty then 1 else 0) =
      t.used + (if !s'.isEmpty then 1 else 0) :=
  countP_put (fun s => !s.isEmpty) hi s'

end counts

lemma live_le_used (t : Table K V) : t.live ≤ t.used := by
  refine List.countP_mono_left fun s _ hs => ?_
  cases s with
  | occupied k v => rfl
  | _ => cases hs

lemma live_lt_used_of_deleted {i : ℕ} (hi : t.slots[i]? = some .deleted) : t.live < t.used := by
  have hlive := live_put hi .empty
  have hused := used_put hi .empty
  have hle := live_le_used (t.put i .empty)
  simp [Slot.isOccupied, Slot.isEmpty] at hlive hused
  omega

lemma used_le_capacity (t : Table K V) : t.used ≤ t.capacity := List.countP_le_length

/-! ## Growth -/

/-- The rehashing loop after the slots `done`: their entries and nothing else are in the new
arrays. -/
structure Rehashed (ops : KeyOps K) (newCapacity : ℕ) (done : List (Slot K V)) (t : Table K V) :
    Prop where
  slotsOk : SlotsOk ops t
  capacity_eq : t.capacity = newCapacity
  live_eq : t.live = done.countP Slot.isOccupied
  used_eq : t.used = t.live
  holds : ∀ key v, Holds ops t key v ↔ ∃ k, .occupied k v ∈ done ∧ ops.equal k key = true

lemma rehashed_nil {newCapacity : ℕ} (hpos : 0 < newCapacity) (size tombstones : ℕ) :
    Rehashed ops newCapacity [] (⟨List.replicate newCapacity .empty, size, tombstones⟩ : Table K V) := by
  have hnone : ∀ (i : ℕ) (k : K) (v : V),
      (List.replicate newCapacity Slot.empty)[i]? ≠ some (.occupied k v) := by
    intro i k v hi
    have := List.eq_of_mem_replicate (List.mem_of_getElem? hi)
    cases this
  refine ⟨⟨?_, ?_, ?_⟩, ?_, ?_, ?_, ?_⟩
  · simpa [capacity] using hpos
  · intro i j k k' v v' hi
    exact absurd hi (hnone i k v)
  · intro i k v hi
    exact absurd hi (hnone i k v)
  · simp [capacity]
  · simp [live, List.countP_replicate, Slot.isOccupied]
  · simp [live, used, List.countP_replicate, Slot.isOccupied, Slot.isEmpty]
  · intro key v
    constructor
    · rintro ⟨i, k, hi, -⟩
      exact absurd hi (hnone i k v)
    · rintro ⟨k, hk, -⟩
      cases hk

lemma Rehashed.reinsert {newCapacity : ℕ} {done : List (Slot K V)} {s : Slot K V}
    (h : Rehashed ops newCapacity done t) (hroom : done.countP Slot.isOccupied < newCapacity)
    (hnew : ∀ k v, s = .occupied k v → ∀ k' v', .occupied k' v' ∈ done → ops.equal k' k = false) :
    ∃ t', t.reinsert ops s = some t' ∧ t'.size = t.size ∧ t'.tombstones = t.tombstones ∧
      Rehashed ops newCapacity (done ++ [s]) t' := by
  have hskip : s.isOccupied = false → Rehashed ops newCapacity (done ++ [s]) t := by
    intro hs
    refine ⟨h.slotsOk, h.capacity_eq, by simp [h.live_eq, hs], h.used_eq, fun key v => ?_⟩
    rw [h.holds]
    constructor
    · rintro ⟨k, hk, heq⟩
      exact ⟨k, List.mem_append_left _ hk, heq⟩
    · rintro ⟨k, hk, heq⟩
      obtain hk | hk := List.mem_append.1 hk
      · exact ⟨k, hk, heq⟩
      · rw [← List.mem_singleton.1 hk] at hs
        cases hs
  cases s with
  | empty => exact ⟨t, rfl, rfl, rfl, hskip rfl⟩
  | deleted => exact ⟨t, rfl, rfl, rfl, hskip rfl⟩
  | occupied k v =>
    have hfree : t.used < t.capacity := by
      rw [h.used_eq, h.live_eq, h.capacity_eq]
      exact hroom
    obtain ⟨i, hrun, hi, hchain⟩ := h.slotsOk.emptySlot_spec k (exists_empty hfree)
    have hlt : i < t.capacity := (List.getElem?_eq_some_iff.1 hi).1
    have halone : Alone ops t k i := by
      refine alone_of_not_holds (fun w hw => ?_) (fun k' v' hi' => ?_)
      · obtain ⟨k', hk', heq⟩ := (h.holds k w).1 hw
        rw [hnew k v rfl k' w hk'] at heq
        cases heq
      · rw [hi] at hi'
        cases hi'
    have hlive := live_put hi (.occupied k v)
    have hused := used_put hi (.occupied k v)
    have hlive' := h.live_eq
    have hused' := h.used_eq
    refine ⟨t.put i (.occupied k v), by simp [Table.reinsert, hrun, put], rfl, rfl,
      h.slotsOk.put_occupied v hchain halone, by simp [h.capacity_eq], ?_, ?_, fun key w => ?_⟩
    · simp [Slot.isOccupied] at hlive ⊢
      omega
    · simp [Slot.isOccupied, Slot.isEmpty] at hlive hused
      omega
    · rw [holds_put_occupied hlt halone, h.holds]
      constructor
      · rintro (⟨hk, rfl⟩ | ⟨-, k', hk', heq⟩)
        · exact ⟨k, by simp, hk⟩
        · exact ⟨k', by simp [hk'], heq⟩
      · rintro ⟨k', hk', heq⟩
        obtain hk' | hk' := List.mem_append.1 hk'
        · refine .inr ⟨?_, k', hk', heq⟩
          by_contra hk
          have hkey : ops.equal key k = true := ops.equal_symm _ _ (by simpa using hk)
          have := hnew k v rfl k' w hk'
          rw [ops.equal_trans _ _ _ heq hkey] at this
          cases this
        · cases List.mem_singleton.1 hk'
          exact .inl ⟨heq, rfl⟩

lemma Rehashed.foldlM {newCapacity : ℕ} {done rest : List (Slot K V)}
    (h : Rehashed ops newCapacity done t)
    (hroom : (done ++ rest).countP Slot.isOccupied < newCapacity)
    (hunique : (done ++ rest).Pairwise fun s s' => ∀ k v k' v', s = .occupied k v →
      s' = .occupied k' v' → ops.equal k k' = false) :
    ∃ t', rest.foldlM (Table.reinsert ops) t = some t' ∧ t'.size = t.size ∧
      t'.tombstones = t.tombstones ∧ Rehashed ops newCapacity (done ++ rest) t' := by
  induction rest generalizing done t with
  | nil => exact ⟨t, rfl, rfl, rfl, by simpa using h⟩
  | cons s rest ih =>
    rw [List.append_cons] at hroom hunique
    have hroom' : done.countP Slot.isOccupied < newCapacity := by
      simp only [List.countP_append] at hroom
      omega
    have hnew : ∀ k v, s = .occupied k v → ∀ k' v', .occupied k' v' ∈ done →
        ops.equal k' k = false := by
      intro k v hs k' v' hk'
      have hdone := (List.pairwise_append.1 hunique).1
      exact (List.pairwise_append.1 hdone).2.2 _ hk' s (by simp) k' v' k v rfl hs
    obtain ⟨t₁, hrun, hsize, htomb, h₁⟩ := h.reinsert hroom' hnew
    obtain ⟨t', hrest, hsize', htomb', h'⟩ := ih h₁ hroom hunique
    refine ⟨t', ?_, hsize'.trans hsize, htomb'.trans htomb, ?_⟩
    · rw [List.foldlM_cons, hrun]
      exact hrest
    · rw [List.append_cons]
      exact h'

lemma SlotsOk.pairwise (h : SlotsOk ops t) :
    t.slots.Pairwise fun s s' => ∀ k v k' v', s = .occupied k v → s' = .occupied k' v' →
      ops.equal k k' = false := by
  rw [List.pairwise_iff_getElem]
  intro i j hi hj hij k v k' v' hs hs'
  by_contra hk
  have := h.unique i j k k' v v' (by rw [List.getElem?_eq_getElem hi, hs])
    (by rw [List.getElem?_eq_getElem hj, hs']) (by simpa using hk)
  omega

/-- A larger table gets the same entries, no tombstone, and an empty slot. -/
lemma Inv.resize (h : Inv ops t) {newCapacity : ℕ} (hroom : t.capacity < newCapacity) :
    ∃ t', t.resize ops newCapacity = some t' ∧ Inv ops t' ∧ t'.used < t'.capacity ∧
      ∀ key v, Holds ops t' key v ↔ Holds ops t key v := by
  have hlive : t.slots.countP Slot.isOccupied < newCapacity := by
    have := live_le_used t
    have := used_le_capacity t
    simp only [live] at *
    omega
  have hstart : Rehashed ops newCapacity []
      (⟨List.replicate newCapacity .empty, t.size, 0⟩ : Table K V) := rehashed_nil (by omega) _ _
  obtain ⟨t', hrun, hsize, htomb, h'⟩ :=
    hstart.foldlM (by simpa using hlive) (by simpa using h.slotsOk.pairwise)
  rw [List.nil_append] at h'
  have hlive' : t'.live = t.live := h'.live_eq
  have hcap := h'.capacity_eq
  have hused := h'.used_eq
  have hsize' := h.size_eq
  simp only at hsize htomb
  refine ⟨t', hrun, ⟨h'.slotsOk, by omega, by omega⟩, ?_, fun key v => ?_⟩
  · simp only [live] at *
    omega
  · rw [h'.holds]
    constructor
    · rintro ⟨k, hk, heq⟩
      obtain ⟨i, hi⟩ := List.getElem?_of_mem hk
      exact ⟨i, k, hi, heq⟩
    · rintro ⟨i, k, hi, heq⟩
      exact ⟨k, List.mem_of_getElem? hi, heq⟩

/-- The load check of `hash_table_set` leaves room for one more entry. -/
lemma Inv.grown (h : Inv ops t) :
    ∃ t', t.grown ops = some t' ∧ Inv ops t' ∧ t'.used < t'.capacity ∧
      ∀ key v, Holds ops t' key v ↔ Holds ops t key v := by
  have hpos := h.slotsOk.capacity_pos
  by_cases hload : t.overloaded = true
  · rw [Table.grown, if_pos hload]
    exact h.resize (by omega)
  · rw [Table.grown, if_neg hload]
    refine ⟨t, rfl, h, ?_, fun _ _ => Iff.rfl⟩
    have hused := h.used_eq
    simp only [overloaded, decide_eq_true_eq, Nat.not_lt] at hload
    omega

/-! ## The calls -/

lemma Represents.get (hrep : Represents ops t m) (h : SlotsOk ops t) (key : K) :
    t.get ops key = m key := by
  rw [Table.get]
  cases hfind : t.findSlot ops key with
  | slot i =>
    obtain ⟨k, v, hi, hk⟩ := h.occupied_of_slot hfind
    simp only [slot_eq hi, Slot.value?]
    exact ((hrep key v).2 ⟨i, k, hi, hk⟩).symm
  | missing tombstone =>
    refine (Option.eq_none_iff_forall_ne_some.2 fun v hv => ?_).symm
    exact h.not_holds_of_missing hfind v ((hrep key v).1 hv)

lemma Represents.hasKey (hrep : Represents ops t m) (h : SlotsOk ops t) (key : K) :
    t.hasKey ops key = (m key).isSome := by
  rw [← hrep.get h key, Table.hasKey, Table.get]
  cases hfind : t.findSlot ops key with
  | slot i =>
    obtain ⟨k, v, hi, -⟩ := h.occupied_of_slot hfind
    simp [slot_eq hi, Slot.value?]
  | missing tombstone => rfl

/-- The keys in slot order enumerate the map. -/
lemma Represents.enumerates (hrep : Represents ops t m) (h : SlotsOk ops t) :
    Enumerates ops m (t.slots.filterMap Slot.key?) := by
  refine ⟨?_, fun k => ?_⟩
  · rw [List.pairwise_filterMap]
    refine h.pairwise.imp fun {s s'} hs k hk k' hk' => ?_
    cases s <;> cases hk
    cases s' <;> cases hk'
    exact hs _ _ _ _ rfl rfl
  · rw [Option.isSome_iff_exists]
    constructor
    · rintro ⟨v, hv⟩
      obtain ⟨i, k', hi, hk'⟩ := (hrep k v).1 hv
      exact ⟨k', List.mem_filterMap.2 ⟨_, List.mem_of_getElem? hi, rfl⟩, hk'⟩
    · rintro ⟨k', hk', heq⟩
      obtain ⟨s, hs, hkey⟩ := List.mem_filterMap.1 hk'
      obtain ⟨i, hi⟩ := List.getElem?_of_mem hs
      cases s <;> cases hkey
      exact ⟨_, (hrep k _).2 ⟨i, k', hi, heq⟩⟩

lemma Represents.values (hrep : Represents ops t m) (slots : List (Slot K V))
    (hslots : ∀ s ∈ slots, s ∈ t.slots) :
    (slots.filterMap Slot.value?).map some = (slots.filterMap Slot.key?).map m := by
  induction slots with
  | nil => rfl
  | cons s slots ih =>
    have hrest := ih fun s' hs' => hslots s' (List.mem_cons_of_mem _ hs')
    cases s with
    | occupied k v =>
      obtain ⟨i, hi⟩ := List.getElem?_of_mem (hslots _ List.mem_cons_self)
      have hk : m k = some v := (hrep k v).2 ⟨i, k, hi, ops.equal_refl k⟩
      rw [List.filterMap_cons_some (show Slot.value? (.occupied k v) = some v from rfl),
        List.filterMap_cons_some (show Slot.key? (.occupied k v) = some k from rfl),
        List.map_cons, List.map_cons, hk, hrest]
    | empty =>
      rw [List.filterMap_cons_none rfl, List.filterMap_cons_none rfl]
      exact hrest
    | deleted =>
      rw [List.filterMap_cons_none rfl, List.filterMap_cons_none rfl]
      exact hrest

lemma length_keys (t : Table K V) : (t.slots.filterMap Slot.key?).length = t.live := by
  rw [List.length_filterMap_eq_countP, live]
  congr 1
  funext s
  cases s <;> rfl

lemma length_values (t : Table K V) : (t.slots.filterMap Slot.value?).length = t.live := by
  rw [List.length_filterMap_eq_countP, live]
  congr 1
  funext s
  cases s <;> rfl

/-- The null list for an empty table is the list of its keys. -/
lemma Inv.keys_eq (h : Inv ops t) : t.keys = t.slots.filterMap Slot.key? := by
  rw [Table.keys]
  by_cases hsize : t.size = 0
  · rw [if_pos hsize, eq_comm, ← List.length_eq_zero_iff, length_keys, ← h.size_eq]
    exact hsize
  · rw [if_neg hsize]

lemma Inv.values_eq (h : Inv ops t) : t.values = t.slots.filterMap Slot.value? := by
  rw [Table.values]
  by_cases hsize : t.size = 0
  · rw [if_pos hsize, eq_comm, ← List.length_eq_zero_iff, length_values, ← h.size_eq]
    exact hsize
  · rw [if_neg hsize]

lemma Inv.remove (h : Inv ops t) (hrep : Represents ops t m) (key : K) :
    (t.remove ops key).1 = (m key).isSome ∧ Inv ops (t.remove ops key).2 ∧
      Represents ops (t.remove ops key).2 ((Call.remove key).next ops m) := by
  have hflag := hrep.hasKey h.slotsOk key
  rw [Table.hasKey] at hflag
  rw [Table.remove]
  cases hfind : t.findSlot ops key with
  | slot i =>
    rw [hfind] at hflag
    obtain ⟨k, v, hi, hk⟩ := h.slotsOk.occupied_of_slot hfind
    have hlive := live_put hi .deleted
    have hused := used_put hi .deleted
    have hsize := h.size_eq
    have htotal := h.used_eq
    simp only [Slot.isOccupied, Slot.isEmpty, if_true, Bool.not_false, Bool.false_eq_true,
      if_false] at hlive hused
    have hok := h.slotsOk.put_deleted i
    refine ⟨hflag, ⟨⟨hok.capacity_pos, hok.unique, hok.chain⟩, ?_, ?_⟩, fun k' w => ?_⟩
    · show t.size - 1 = (t.put i .deleted).live
      omega
    · show t.size - 1 + (t.tombstones + 1) = (t.put i .deleted).used
      omega
    · have hhold : Holds ops (t.put i .deleted) k' w ↔ ops.equal k k' = false ∧ Holds ops t k' w :=
        holds_put_deleted (h.slotsOk.alone hi)
      have hkk : ops.equal k k' = ops.equal key k' := ops.equal_congr hk k'
      refine Iff.trans ?_ hhold.symm
      rw [hkk, ← hrep k' w]
      cases hkey : ops.equal key k' <;> simp [Call.next, hkey]
  | missing tombstone =>
    rw [hfind] at hflag
    refine ⟨hflag, h, fun k w => ?_⟩
    rw [← hrep k w]
    cases hkey : ops.equal key k with
    | false => simp [Call.next, hkey]
    | true =>
      have hnone : m k ≠ some w := by
        intro hw
        obtain ⟨i, k', hi, hk'⟩ := (hrep k w).1 hw
        exact h.slotsOk.not_holds_of_missing hfind w
          ⟨i, k', hi, ops.equal_trans _ _ _ hk' (ops.equal_symm _ _ hkey)⟩
      simp [Call.next, hkey, hnone]

/-- Putting a value under `k` in the only slot for `k` is the map's own update. -/
lemma Represents.put_occupied (hrep : Represents ops t m) {i : ℕ} {k : K} {value : V}
    (hi : i < t.capacity) (halone : Alone ops t k i) (hk : ops.equal k key = true) :
    Represents ops (t.put i (.occupied k value)) ((Call.set key value).next ops m) := by
  intro k' w
  rw [holds_put_occupied hi halone, ← hrep k' w, ops.equal_congr hk k']
  cases hkey : ops.equal key k' <;> simp [Call.next, hkey, eq_comm]

/-- A tombstone that `find_slot` reports lies at the end of a chain. -/
lemma SlotsOk.chain_of_tombstone (h : SlotsOk ops t) {i : ℕ}
    (hfind : t.findSlot ops key = .missing (some i)) :
    t.slots[i]? = some .deleted ∧ Chain ops t key i := by
  have hspec := findSlot_spec ops t key
  rw [hfind] at hspec
  obtain ⟨d, hd, -, hpast, d', hd', hring, hslot⟩ := hspec
  have hlt : i < t.capacity := hring ▸ ring_lt h.capacity_pos _ _
  refine ⟨by rw [getElem?_slot hlt, hslot], d', by omega, hring, fun e he => ?_⟩
  exact (hpast e (by omega)).1

/-- A value may be put in the place of another one. -/
lemma Inv.put_value (h : Inv ops t) (hrep : Represents ops t m) {i : ℕ} {k : K} {v : V}
    (hi : t.slots[i]? = some (.occupied k v)) (hk : ops.equal k key = true) (value : V) :
    Inv ops (t.put i (.occupied k value)) ∧
      Represents ops (t.put i (.occupied k value)) ((Call.set key value).next ops m) := by
  have hlt : i < t.capacity := (List.getElem?_eq_some_iff.1 hi).1
  have halone := h.slotsOk.alone hi
  have hlive := live_put hi (.occupied k value)
  have hused := used_put hi (.occupied k value)
  refine ⟨⟨h.slotsOk.put_occupied value (h.slotsOk.chain i k v hi) halone, ?_, ?_⟩,
    hrep.put_occupied hlt halone hk⟩
  · rw [show (t.put i (.occupied k value)).size = t.size from rfl, h.size_eq]
    simpa [Slot.isOccupied] using hlive.symm
  · rw [show (t.put i (.occupied k value)).size = t.size from rfl,
      show (t.put i (.occupied k value)).tombstones = t.tombstones from rfl, h.used_eq]
    simpa [Slot.isEmpty] using hused.symm

/-- Setting a key refines the update of the map. -/
lemma Inv.set (h : Inv ops t) (hrep : Represents ops t m) (key : K) (value : V) :
    ∃ t', t.set ops key value = some t' ∧ Inv ops t' ∧
      Represents ops t' ((Call.set key value).next ops m) := by
  obtain ⟨t₁, hgrown, h₁, hroom, hholds⟩ := h.grown
  have hrep₁ : Represents ops t₁ m := fun k v => (hrep k v).trans (hholds k v).symm
  have hsize := h₁.size_eq
  have htotal := h₁.used_eq
  rw [Table.set, hgrown]
  simp only [Option.bind_eq_bind, Option.bind_some]
  cases hfind : t₁.findSlot ops key with
  | slot i =>
    obtain ⟨k, v, hi, hk⟩ := h₁.slotsOk.occupied_of_slot hfind
    simp only [slot_eq hi]
    exact ⟨t₁.put i (.occupied k value), rfl, h₁.put_value hrep₁ hi hk value⟩
  | missing tombstone =>
    have hnew := h₁.slotsOk.not_holds_of_missing hfind
    cases tombstone with
    | some i =>
      obtain ⟨hi, hchain⟩ := h₁.slotsOk.chain_of_tombstone hfind
      have hlt : i < t₁.capacity := (List.getElem?_eq_some_iff.1 hi).1
      have halone : Alone ops t₁ key i := alone_of_not_holds hnew (by simp [hi])
      have hlive := live_put hi (.occupied key value)
      have hused := used_put hi (.occupied key value)
      simp only [Slot.isOccupied, Slot.isEmpty, if_true, Bool.not_false, Bool.false_eq_true,
        if_false] at hlive hused
      have hok := h₁.slotsOk.put_occupied value hchain halone
      -- the tombstone was counted: the slots in use outnumber the entries
      have hpos : t₁.live < t₁.used := by
        refine live_lt_used_of_deleted hi
      refine ⟨_, rfl, ⟨⟨hok.capacity_pos, hok.unique, hok.chain⟩, ?_, ?_⟩,
        hrep₁.put_occupied hlt halone (ops.equal_refl key)⟩
      · show t₁.size + 1 = (t₁.put i (.occupied key value)).live
        omega
      · show t₁.size + 1 + (t₁.tombstones - 1) = (t₁.put i (.occupied key value)).used
        omega
    | none =>
      obtain ⟨i, hrun, hi, hchain⟩ := h₁.slotsOk.emptySlot_spec key (exists_empty hroom)
      have hlt : i < t₁.capacity := (List.getElem?_eq_some_iff.1 hi).1
      have halone : Alone ops t₁ key i := alone_of_not_holds hnew (by simp [hi])
      have hlive := live_put hi (.occupied key value)
      have hused := used_put hi (.occupied key value)
      simp only [Slot.isOccupied, Slot.isEmpty, if_true, Bool.not_false, Bool.not_true,
        Bool.false_eq_true, if_false] at hlive hused
      have hok := h₁.slotsOk.put_occupied value hchain halone
      simp only [hrun, Option.bind_some]
      refine ⟨_, rfl, ⟨⟨hok.capacity_pos, hok.unique, hok.chain⟩, ?_, ?_⟩,
        hrep₁.put_occupied hlt halone (ops.equal_refl key)⟩
      · show t₁.size + 1 = (t₁.put i (.occupied key value)).live
        omega
      · show t₁.size + 1 + t₁.tombstones = (t₁.put i (.occupied key value)).used
        omega

/-- A table of empty slots is the empty map. -/
lemma Rehashed.empty {newCapacity : ℕ} (h : Rehashed ops newCapacity [] t) (hsize : t.size = 0)
    (htomb : t.tombstones = 0) : Inv ops t ∧ Represents ops t fun _ => none := by
  have hlive := h.live_eq
  have hused := h.used_eq
  rw [List.countP_nil] at hlive
  refine ⟨⟨h.slotsOk, by omega, by omega⟩, fun k v => ?_⟩
  rw [h.holds]
  simp

lemma Inv.clear (h : Inv ops t) : Inv ops t.clear ∧ Represents ops t.clear fun _ => none := by
  have hclear : t.clear = ⟨List.replicate t.capacity .empty, 0, 0⟩ := by
    simp [Table.clear, capacity]
  rw [hclear]
  exact (rehashed_nil h.slotsOk.capacity_pos 0 0).empty rfl rfl

/-- One call answers as the map does and keeps the table in step with it. -/
lemma Inv.call (h : Inv ops t) (hrep : Represents ops t m) (c : Call K V) :
    ∃ r t', t.call ops c = some (r, t') ∧ c.Returns ops m r ∧ Inv ops t' ∧
      Represents ops t' (c.next ops m) := by
  cases c with
  | set key value =>
    obtain ⟨t', hset, h', hrep'⟩ := h.set hrep key value
    exact ⟨.flag true, t', by simp [Table.call, hset], rfl, h', hrep'⟩
  | get key =>
    exact ⟨_, t, rfl, by rw [hrep.get h.slotsOk key]; rfl, h, hrep⟩
  | hasKey key =>
    exact ⟨_, t, rfl, by rw [hrep.hasKey h.slotsOk key]; rfl, h, hrep⟩
  | remove key =>
    obtain ⟨hflag, h', hrep'⟩ := h.remove hrep key
    exact ⟨_, _, rfl, by rw [hflag]; rfl, h', hrep'⟩
  | clear =>
    obtain ⟨h', hrep'⟩ := h.clear
    exact ⟨_, _, rfl, rfl, h', hrep'⟩
  | count =>
    refine ⟨_, t, rfl, ⟨_, hrep.enumerates h.slotsOk, ?_⟩, h, hrep⟩
    rw [length_keys, ← h.size_eq, Table.count]
  | keys =>
    exact ⟨_, t, rfl, ⟨_, hrep.enumerates h.slotsOk, by rw [h.keys_eq]⟩, h, hrep⟩
  | values =>
    refine ⟨_, t, rfl, ⟨_, _, hrep.enumerates h.slotsOk, ?_, by rw [h.values_eq]⟩, h, hrep⟩
    exact hrep.values t.slots fun _ hs => hs

/-- Run lemma: the table returns what the map returns. -/
lemma Inv.calls (h : Inv ops t) (hrep : Represents ops t m) (cs : List (Call K V)) :
    ∃ rs t', t.calls ops cs = some (rs, t') ∧ ReturnsAll ops m cs rs ∧ Inv ops t' ∧
      Represents ops t' (cs.foldl (Call.next ops) m) := by
  induction cs generalizing t m with
  | nil => exact ⟨[], t, rfl, rfl, h, hrep⟩
  | cons c cs ih =>
    obtain ⟨r, t₁, hcall, hr, h₁, hrep₁⟩ := h.call hrep c
    obtain ⟨rs, t', hcalls, hrs, h', hrep'⟩ := ih h₁ hrep₁
    refine ⟨r :: rs, t', ?_, ⟨r, rs, rfl, hr, hrs⟩, h', hrep'⟩
    simp [Table.calls, hcall, hcalls]

/-- What a sequence of calls on a new table shows: every call returns what the map returns, the
size is the number of live keys, the slots in use are the entries and the tombstones, no two
occupied slots hold equal keys, and an insertion that met no tombstone finds an empty slot. -/
def Refines (ops : KeyOps K) (capacity : ℕ) (cs : List (Call K V)) : Prop :=
  ∃ rs t, (create capacity).calls ops cs = some (rs, t) ∧ ReturnsAll ops (fun _ => none) cs rs ∧
    (∃ ks, Enumerates ops (cs.foldl (Call.next ops) fun _ => none) ks ∧ t.size = ks.length) ∧
    t.size + t.tombstones = t.used ∧
    (∀ (i j : ℕ) (k k' : K) (v v' : V), t.slots[i]? = some (.occupied k v) →
      t.slots[j]? = some (.occupied k' v') → ops.equal k k' = true → i = j) ∧
    ∃ t', t.grown ops = some t' ∧ ∀ key, t'.findSlot ops key = .missing none →
      ∃ i, t'.emptySlot ops key = some i ∧ t'.slots[i]? = some .empty

theorem calls_refine (ops : KeyOps K) (capacity : ℕ) (hcap : 1 ≤ capacity) (cs : List (Call K V)) :
    Refines ops capacity cs := by
  have hnew : Rehashed ops capacity [] (create capacity : Table K V) := rehashed_nil hcap 0 0
  obtain ⟨h, hrep⟩ := hnew.empty rfl rfl
  obtain ⟨rs, t, hcalls, hrs, h', hrep'⟩ := h.calls hrep cs
  obtain ⟨t', hgrown, h'', hroom, -⟩ := h'.grown
  refine ⟨rs, t, hcalls, hrs, ⟨_, hrep'.enumerates h'.slotsOk, ?_⟩, h'.used_eq, h'.slotsOk.unique,
    t', hgrown, fun key _ => ?_⟩
  · rw [length_keys, h'.size_eq]
  · obtain ⟨i, hrun, hi, -⟩ := h''.slotsOk.emptySlot_spec key (exists_empty hroom)
    exact ⟨i, hrun, hi⟩

/-- Numbers that all hash alike. -/
def collidingKeys : KeyOps ℕ where
  hash _ := 0
  equal k k' := k == k'
  equal_refl := by simp
  equal_symm k k' := by
    simp only [beq_iff_eq]
    exact Eq.symm
  equal_trans k k' k'' := by
    simp only [beq_iff_eq]
    exact Eq.trans
  hash_eq := by simp

/-- A table of one slot that grows, loses a key and reuses its tombstone. -/
theorem calls_refine_colliding : 1 ≤ 1 ∧ Refines collidingKeys 1
    [.set 3 30, .set 4 40, .set 5 50, .remove 4, .set 6 60, .set 5 51, .keys, .clear, .count] :=
  ⟨Nat.le_refl 1, calls_refine collidingKeys 1 (Nat.le_refl 1) _⟩

end Table

end Hash
