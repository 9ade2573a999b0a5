import Eshkol.Hash.Table
import Mathlib.Data.Nat.Basic

/-!
# Probe chains

Every occupied slot lies on the walk from its key's home with no empty slot before it, and no two
occupied slots hold equal keys. Under these two facts `find_slot` finds a key exactly when it is
there, and putting a key in the slot that `find_slot` or the insertion loop arrives at keeps them.
-/

namespace Hash

variable {K V : Type} {ops : KeyOps K} {t : Table K V} {key : K}

/-- Equal keys are equal to the same keys. -/
lemma KeyOps.equal_congr (ops : KeyOps K) {k k' : K} (h : ops.equal k k' = true) (key : K) :
    ops.equal k key = ops.equal k' key := by
  rw [Bool.eq_iff_iff]
  constructor
  · intro hk
    exact ops.equal_trans _ _ _ (ops.equal_symm _ _ h) hk
  · intro hk
    exact ops.equal_trans _ _ _ h hk

namespace Table

/-- The `d`-th slot on the walk from `index`. -/
def ring (t : Table K V) (index d : ℕ) : ℕ := (index + d) % t.capacity

lemma slot_eq {i : ℕ} {s : Slot K V} (h : t.slots[i]? = some s) : t.slot i = s := by
  simp [slot, List.getD_eq_getElem?_getD, h]

lemma getElem?_slot {i : ℕ} (h : i < t.capacity) : t.slots[i]? = some (t.slot i) := by
  have hi : i < t.slots.length := h
  simp [slot, List.getD_eq_getElem?_getD, hi]

lemma ring_lt (hcap : 0 < t.capacity) (index d : ℕ) : t.ring index d < t.capacity :=
  Nat.mod_lt _ hcap

lemma ring_succ (index d : ℕ) : (t.ring index d + 1) % t.capacity = t.ring index (d + 1) := by
  simp only [ring, Nat.mod_add_mod]
  rw [Nat.add_assoc]

/-- The walk visits every slot. -/
lemma exists_ring_eq {index i : ℕ} (hindex : index < t.capacity) (hi : i < t.capacity) :
    ∃ d < t.capacity, t.ring index d = i := by
  by_cases hle : index ≤ i
  · refine ⟨i - index, by omega, ?_⟩
    rw [ring, Nat.add_sub_cancel' hle, Nat.mod_eq_of_lt hi]
  · refine ⟨i + t.capacity - index, by omega, ?_⟩
    rw [ring, show index + (i + t.capacity - index) = i + t.capacity by omega,
      Nat.add_mod_right, Nat.mod_eq_of_lt hi]

/-- The home of a key. -/
def home (ops : KeyOps K) (t : Table K V) (key : K) : ℕ := ops.hash key % t.capacity

/-- The walk from the key's home gets to slot `i` past slots that are not empty. -/
def Chain (ops : KeyOps K) (t : Table K V) (key : K) (i : ℕ) : Prop :=
  ∃ d < t.capacity, t.ring (home ops t key) d = i ∧
    ∀ d' < d, (t.slot (t.ring (home ops t key) d')).isEmpty = false

/-- The probe-chain invariant. -/
structure SlotsOk (ops : KeyOps K) (t : Table K V) : Prop where
  capacity_pos : 0 < t.capacity
  unique : ∀ (i j : ℕ) (k k' : K) (v v' : V), t.slots[i]? = some (.occupied k v) →
    t.slots[j]? = some (.occupied k' v') → ops.equal k k' = true → i = j
  chain : ∀ (i : ℕ) (k : K) (v : V), t.slots[i]? = some (.occupied k v) → Chain ops t k i

/-- The table holds `v` for a key equal to `key`. -/
def Holds (ops : KeyOps K) (t : Table K V) (key : K) (v : V) : Prop :=
  ∃ (i : ℕ) (k : K), t.slots[i]? = some (.occupied k v) ∧ ops.equal k key = true

lemma SlotsOk.home_lt (h : SlotsOk ops t) (key : K) : home ops t key < t.capacity :=
  Nat.mod_lt _ h.capacity_pos

/-! ## `find_slot` -/

/-- The slot stops no walk in search of `key`. -/
def Passes (ops : KeyOps K) (key : K) (s : Slot K V) : Prop :=
  s.isEmpty = false ∧ ∀ k v, s = .occupied k v → ops.equal k key = false

/-- The first tombstone among the first `d` slots of the walk, if there is one. -/
def TombstoneSeen (t : Table K V) (index d : ℕ) : Option ℕ → Prop
  | none => ∀ d' < d, t.slot (t.ring index d') ≠ .deleted
  | some i => ∃ d' < d, t.ring index d' = i ∧ t.slot i = .deleted

/-- What `find_slot` says about the walk from `index`. -/
def FoundSpec (ops : KeyOps K) (t : Table K V) (key : K) (index : ℕ) : Found → Prop
  | .slot i => ∃ d < t.capacity, t.ring index d = i ∧
      (∃ k v, t.slot i = .occupied k v ∧ ops.equal k key = true) ∧
      ∀ d' < d, (t.slot (t.ring index d')).isEmpty = false
  | .missing tombstone => ∃ d ≤ t.capacity,
      (d < t.capacity → t.slot (t.ring index d) = .empty) ∧
      (∀ d' < d, Passes ops key (t.slot (t.ring index d'))) ∧
      TombstoneSeen t index d tombstone

/-- The loop invariant: the slots before `i` let the walk pass, and the first tombstone among them
is recorded. -/
lemma findSlotLoop_spec {index fuel i : ℕ} {tombstone : Option ℕ} (hi : i + fuel = t.capacity)
    (hpast : ∀ d' < i, Passes ops key (t.slot (t.ring index d')))
    (htomb : TombstoneSeen t index i tombstone) :
    FoundSpec ops t key index (t.findSlotLoop ops key index fuel i tombstone) := by
  induction fuel generalizing i tombstone with
  | zero => exact ⟨i, by omega, fun hlt => absurd hlt (by omega), hpast, htomb⟩
  | succ fuel ih =>
    have hext : ∀ {P : ℕ → Prop}, (∀ d' < i, P d') → P i → ∀ d' < i + 1, P d' := by
      intro P hlt hself d' hd'
      obtain hd' | rfl := Nat.lt_succ_iff_lt_or_eq.1 hd'
      · exact hlt d' hd'
      · exact hself
    rw [findSlotLoop, show (index + i) % t.capacity = t.ring index i from rfl]
    cases hs : t.slot (t.ring index i) with
    | empty => exact ⟨i, by omega, fun _ => hs, hpast, htomb⟩
    | deleted =>
      apply ih (by omega) (hext hpast (by rw [hs]; exact ⟨rfl, by simp⟩))
      cases tombstone with
      | none => exact ⟨i, by omega, rfl, hs⟩
      | some j =>
        obtain ⟨d', hd', hj⟩ := htomb
        exact ⟨d', by omega, hj⟩
    | occupied k v =>
      by_cases heq : ops.equal k key = true
      · simp only [if_pos heq]
        exact ⟨i, by omega, rfl, ⟨k, v, hs, heq⟩, fun d' hd' => (hpast d' hd').1⟩
      · simp only [if_neg heq]
        have hne : ops.equal k key = false := by simpa using heq
        apply ih (by omega)
        · refine hext hpast ?_
          rw [hs]
          refine ⟨rfl, fun k' v' hk' => ?_⟩
          cases hk'
          exact hne
        · cases tombstone with
          | none => exact hext htomb (by rw [hs]; simp)
          | some j =>
            obtain ⟨d', hd', hj⟩ := htomb
            exact ⟨d', by omega, hj⟩

lemma findSlot_spec (ops : KeyOps K) (t : Table K V) (key : K) :
    FoundSpec ops t key (home ops t key) (t.findSlot ops key) :=
  findSlotLoop_spec (Nat.zero_add _) (fun _ h => absurd h (Nat.not_lt_zero _))
    (fun _ h => absurd h (Nat.not_lt_zero _))

/-- A key that `find_slot` misses is not there: its chain would have led the walk to it. -/
lemma SlotsOk.not_holds_of_missing (h : SlotsOk ops t) {tombstone : Option ℕ}
    (hfind : t.findSlot ops key = .missing tombstone) (v : V) : ¬ Holds ops t key v := by
  rintro ⟨i, k, hi, hk⟩
  have hspec := findSlot_spec ops t key
  rw [hfind] at hspec
  obtain ⟨d, hd, hempty, hpast, -⟩ := hspec
  obtain ⟨e, he, hring, hfull⟩ := h.chain i k v hi
  have hhome : home ops t k = home ops t key := by simp only [home, ops.hash_eq k key hk]
  rw [hhome] at hring hfull
  have hslot : t.slot (t.ring (home ops t key) e) = .occupied k v := by rw [hring, slot_eq hi]
  obtain hlt | heq | hgt := Nat.lt_trichotomy e d
  · have := (hpast e hlt).2 k v hslot
    rw [hk] at this
    cases this
  · subst heq
    rw [hempty he] at hslot
    cases hslot
  · have := hfull d hgt
    rw [hempty (by omega)] at this
    cases this

/-- A key that `find_slot` finds is there. -/
lemma SlotsOk.occupied_of_slot (h : SlotsOk ops t) {i : ℕ}
    (hfind : t.findSlot ops key = .slot i) :
    ∃ k v, t.slots[i]? = some (.occupied k v) ∧ ops.equal k key = true := by
  have hspec := findSlot_spec ops t key
  rw [hfind] at hspec
  obtain ⟨d, -, hring, ⟨k, v, hslot, hk⟩, -⟩ := hspec
  have hlt : i < t.capacity := hring ▸ ring_lt h.capacity_pos _ _
  exact ⟨k, v, by rw [getElem?_slot hlt, hslot], hk⟩

/-! ## Insertion -/

lemma emptySlotFrom_spec {index fuel d : ℕ} (hfree : ∃ e, d ≤ e ∧ e < d + fuel ∧
    (t.slot (t.ring index e)).isEmpty = true)
    (hpast : ∀ d' < d, (t.slot (t.ring index d')).isEmpty = false) :
    ∃ e, t.emptySlotFrom fuel (t.ring index d) = some (t.ring index e) ∧ e < d + fuel ∧
      (t.slot (t.ring index e)).isEmpty = true ∧
      ∀ d' < e, (t.slot (t.ring index d')).isEmpty = false := by
  induction fuel generalizing d with
  | zero =>
    obtain ⟨e, hde, hed, -⟩ := hfree
    omega
  | succ fuel ih =>
    rw [emptySlotFrom]
    by_cases hs : (t.slot (t.ring index d)).isEmpty = true
    · exact ⟨d, by rw [if_pos hs], by omega, hs, hpast⟩
    · rw [if_neg hs, ring_succ]
      have hfree' : ∃ e, d + 1 ≤ e ∧ e < d + 1 + fuel ∧
          (t.slot (t.ring index e)).isEmpty = true := by
        obtain ⟨e, hde, hed, he⟩ := hfree
        obtain rfl | hlt := Nat.eq_or_lt_of_le hde
        · exact absurd he hs
        · exact ⟨e, hlt, by omega, he⟩
      obtain ⟨e, hrun, hlt, he, hbefore⟩ := ih hfree' fun d' hd' => by
        obtain hd' | rfl := Nat.lt_succ_iff_lt_or_eq.1 hd'
        · exact hpast d' hd'
        · simpa using hs
      exact ⟨e, hrun, by omega, he, hbefore⟩

/-- With an empty slot left the insertion loop ends, on an empty slot at the end of a chain. -/
lemma SlotsOk.emptySlot_spec (h : SlotsOk ops t) (key : K)
    (hfree : ∃ i < t.capacity, (t.slot i).isEmpty = true) :
    ∃ i, t.emptySlot ops key = some i ∧ t.slots[i]? = some .empty ∧ Chain ops t key i := by
  obtain ⟨i, hi, hempty⟩ := hfree
  have hhome := h.home_lt key
  obtain ⟨e, he, hring⟩ := exists_ring_eq hhome hi
  have hstart : t.ring (home ops t key) 0 = home ops t key := Nat.mod_eq_of_lt hhome
  have hreach : ∃ e, 0 ≤ e ∧ e < 0 + t.capacity ∧
      (t.slot (t.ring (home ops t key) e)).isEmpty = true :=
    ⟨e, Nat.zero_le _, by omega, by rw [hring]; exact hempty⟩
  have hspec := emptySlotFrom_spec hreach (fun _ hd' => absurd hd' (Nat.not_lt_zero _))
  rw [hstart] at hspec
  obtain ⟨e', hrun, hlt, he', hbefore⟩ := hspec
  refine ⟨_, hrun, ?_, e', by omega, rfl, hbefore⟩
  rw [getElem?_slot (ring_lt h.capacity_pos _ _)]
  cases hs : t.slot (t.ring (home ops t key) e') with
  | empty => rfl
  | _ => simp [hs, Slot.isEmpty] at he'

section put
variable {i : ℕ} {s : Slot K V}

/-- The table with one slot replaced. -/
def put (t : Table K V) (i : ℕ) (s : Slot K V) : Table K V := { t with slots := t.slots.set i s }

@[simp] lemma capacity_put : (t.put i s).capacity = t.capacity := by simp [put, capacity]

lemma getElem?_put_self (hi : i < t.capacity) : (t.put i s).slots[i]? = some s := by
  simp [put, List.getElem?_set_self (show i < t.slots.length from hi)]

lemma getElem?_put_ne {j : ℕ} (hij : j ≠ i) : (t.put i s).slots[j]? = t.slots[j]? := by
  simp [put, List.getElem?_set_ne (Ne.symm hij)]

lemma slot_put_ne {j : ℕ} (hij : j ≠ i) : (t.put i s).slot j = t.slot j := by
  simp only [slot, List.getD_eq_getElem?_getD, getElem?_put_ne hij]

/-- A slot that is not emptied leaves every chain as it is. -/
lemma Chain.put {k : K} {j : ℕ} (h : Chain ops t k j) (hcap : 0 < t.capacity)
    (hs : s.isEmpty = false) : Chain ops (t.put i s) k j := by
  obtain ⟨d, hd, hring, hfull⟩ := h
  have hhome : home ops (t.put i s) k = home ops t k := by simp [home]
  have hring' : ∀ x d, (t.put i s).ring x d = t.ring x d := fun x d => by simp [Table.ring]
  refine ⟨d, by simpa using hd, by rw [hhome, hring', hring], fun d' hd' => ?_⟩
  rw [hhome, hring']
  by_cases hi : t.ring (home ops t k) d' = i
  · rw [hi]
    rw [slot_eq (getElem?_put_self (hi ▸ ring_lt hcap _ _))]
    exact hs
  · rw [slot_put_ne hi]
    exact hfull d' hd'

/-- The occupied slots with a key equal to `k` are none but slot `i`, and slot `i` holds no other
key. -/
def Alone (ops : KeyOps K) (t : Table K V) (k : K) (i : ℕ) : Prop :=
  ∀ (j : ℕ) (k' : K) (v' : V), t.slots[j]? = some (.occupied k' v') →
    (ops.equal k' k = true ↔ j = i)

lemma SlotsOk.alone (h : SlotsOk ops t) {k : K} {v : V}
    (hi : t.slots[i]? = some (.occupied k v)) : Alone ops t k i := by
  intro j k' v' hj
  constructor
  · intro hk
    exact h.unique j i k' k v' v hj hi hk
  · rintro rfl
    cases hi.symm.trans hj
    exact ops.equal_refl k

lemma alone_of_not_holds {k : K} (hnew : ∀ v, ¬ Holds ops t k v)
    (hi : ∀ k' v', t.slots[i]? ≠ some (.occupied k' v')) : Alone ops t k i := by
  intro j k' v' hj
  constructor
  · intro hk
    exact absurd ⟨j, k', hj, hk⟩ (hnew v')
  · rintro rfl
    exact absurd hj (hi k' v')

/-- What the slots of the changed table hold. -/
lemma occupied_put {j : ℕ} {k' : K} {v' : V}
    (hj : (t.put i s).slots[j]? = some (.occupied k' v')) :
    (j = i ∧ s = .occupied k' v') ∨ (j ≠ i ∧ t.slots[j]? = some (.occupied k' v')) := by
  by_cases hij : j = i
  · subst hij
    have hlt : j < t.capacity := by
      have := (List.getElem?_eq_some_iff.1 hj).1
      simpa [put, capacity] using this
    rw [getElem?_put_self hlt] at hj
    exact .inl ⟨rfl, by simpa using hj⟩
  · rw [getElem?_put_ne hij] at hj
    exact .inr ⟨hij, hj⟩

lemma SlotsOk.put_occupied (h : SlotsOk ops t) {k : K} (v : V) (hchain : Chain ops t k i)
    (halone : Alone ops t k i) : SlotsOk ops (t.put i (.occupied k v)) where
  capacity_pos := by simpa using h.capacity_pos
  unique j j' k₁ k₂ v₁ v₂ hj hj' hk := by
    obtain ⟨hij, heq⟩ | ⟨hij, hold⟩ := occupied_put hj <;>
      obtain ⟨hij', heq'⟩ | ⟨hij', hold'⟩ := occupied_put hj'
    · exact hij.trans hij'.symm
    · cases heq
      exact absurd ((halone j' k₂ v₂ hold').1 (ops.equal_symm _ _ hk)) hij'
    · cases heq'
      exact absurd ((halone j k₁ v₁ hold).1 hk) hij
    · exact h.unique j j' k₁ k₂ v₁ v₂ hold hold' hk
  chain j k' v' hj := by
    obtain ⟨rfl, heq⟩ | ⟨-, hj⟩ := occupied_put hj
    · cases heq
      exact hchain.put h.capacity_pos rfl
    · exact (h.chain j k' v' hj).put h.capacity_pos rfl

lemma holds_put_occupied {k : K} {v w : V} (hi : i < t.capacity) (halone : Alone ops t k i) :
    Holds ops (t.put i (.occupied k v)) key w ↔
      (ops.equal k key = true ∧ w = v) ∨ (ops.equal k key = false ∧ Holds ops t key w) := by
  constructor
  · rintro ⟨j, k', hj, hk'⟩
    obtain ⟨rfl, heq⟩ | ⟨hij, hj⟩ := occupied_put hj
    · cases heq
      exact .inl ⟨hk', rfl⟩
    · refine .inr ⟨?_, j, k', hj, hk'⟩
      by_contra hk
      have hkey : ops.equal key k = true := ops.equal_symm _ _ (by simpa using hk)
      exact hij ((halone j k' w hj).1 (ops.equal_trans _ _ _ hk' hkey))
  · rintro (⟨hk, rfl⟩ | ⟨hk, j, k', hj, hk'⟩)
    · exact ⟨i, k, getElem?_put_self hi, hk⟩
    · have hij : j ≠ i := by
        intro hij
        have := ops.equal_symm _ _ ((halone j k' w hj).2 hij)
        rw [ops.equal_trans _ _ _ this hk'] at hk
        cases hk
      exact ⟨j, k', by rw [getElem?_put_ne hij]; exact hj, hk'⟩

lemma SlotsOk.put_deleted (h : SlotsOk ops t) (i : ℕ) : SlotsOk ops (t.put i .deleted) where
  capacity_pos := by simpa using h.capacity_pos
  unique j j' k₁ k₂ v₁ v₂ hj hj' hk := by
    obtain ⟨-, heq⟩ | ⟨-, hj⟩ := occupied_put hj
    · cases heq
    obtain ⟨-, heq⟩ | ⟨-, hj'⟩ := occupied_put hj'
    · cases heq
    exact h.unique j j' k₁ k₂ v₁ v₂ hj hj' hk
  chain j k' v' hj := by
    obtain ⟨-, heq⟩ | ⟨-, hj⟩ := occupied_put hj
    · cases heq
    · exact (h.chain j k' v' hj).put h.capacity_pos rfl

lemma holds_put_deleted {k : K} {w : V} (halone : Alone ops t k i) :
    Holds ops (t.put i .deleted) key w ↔ ops.equal k key = false ∧ Holds ops t key w := by
  constructor
  · rintro ⟨j, k', hj, hk'⟩
    obtain ⟨-, heq⟩ | ⟨hij, hj⟩ := occupied_put hj
    · cases heq
    refine ⟨?_, j, k', hj, hk'⟩
    by_contra hk
    have hkey : ops.equal key k = true := ops.equal_symm _ _ (by simpa using hk)
    exact hij ((halone j k' w hj).1 (ops.equal_trans _ _ _ hk' hkey))
  · rintro ⟨hk, j, k', hj, hk'⟩
    have hij : j ≠ i := by
      intro hij
      have := ops.equal_symm _ _ ((halone j k' w hj).2 hij)
      rw [ops.equal_trans _ _ _ this hk'] at hk
      cases hk
    exact ⟨j, k', by rw [getElem?_put_ne hij]; exact hj, hk'⟩

end put

end Table

end Hash
