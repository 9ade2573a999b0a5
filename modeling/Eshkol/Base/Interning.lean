import Mathlib.Data.List.Nodup
import Mathlib.Tactic.SplitIfs
import Std.Data.TreeMap.Lemmas

/-!
# Interning under consecutive numbers

An ordered map from 16-bit numbers to values, with the number that is given out next. A value is
looked for among those that the map holds before it gets a number of its own. As long as the numbers
last, the map holds a list of values, each under its position counted from a fixed start.
-/

namespace Interning

variable {ν κ : Type}

/-- The number of a value that the map holds, else the next number; with the map and the next number
afterwards. -/
def intern (cache : Std.TreeMap UInt16 ν) (next : UInt16) (found : ν → Bool) (value : ν) :
    UInt16 × Std.TreeMap UInt16 ν × UInt16 :=
  match cache.toList.find? fun entry => found entry.2 with
  | some entry => (entry.1, cache, next)
  | none => (next, cache.insert next value, next + 1)

/-- A value that the map holds changes nothing. -/
theorem intern_old {cache : Std.TreeMap UInt16 ν} {next id : UInt16} {found : ν → Bool} {value v : ν}
    (hv : cache[id]? = some v) (hfound : found v = true) :
    (intern cache next found value).2 = (cache, next) := by
  have hsome : (cache.toList.find? fun entry => found entry.2).isSome :=
    List.find?_isSome.2 ⟨(id, v), Std.TreeMap.mem_toList_iff_getElem?_eq_some.2 hv, hfound⟩
  obtain ⟨entry, hentry⟩ := Option.isSome_iff_exists.1 hsome
  rw [intern, hentry]

lemma intern_cases (cache : Std.TreeMap UInt16 ν) (next : UInt16) (found : ν → Bool) (value : ν) :
    (intern cache next found value).2 = (cache, next) ∨
      (intern cache next found value).2 = (cache.insert next value, next + 1) := by
  rw [intern]
  cases cache.toList.find? fun entry => found entry.2 with
  | some entry => exact .inl rfl
  | none => exact .inr rfl

/-- The map holds the values of the list in their order, from number `start` on. -/
structure Holds (start : ℕ) (cache : Std.TreeMap UInt16 ν) (next : UInt16) (values : List ν) : Prop where
  next_eq : next = UInt16.ofNat (start + values.length)
  get : ∀ id : UInt16, cache[id]? = if start ≤ id.toNat then values[id.toNat - start]? else none
  fits : start + values.length ≤ 65536

variable {start : ℕ} {cache : Std.TreeMap UInt16 ν} {next : UInt16} {values : List ν}

lemma Holds.empty (h : start ≤ 65536) :
    Holds start (∅ : Std.TreeMap UInt16 ν) (UInt16.ofNat start) [] :=
  ⟨rfl, by simp, h⟩

lemma toNat_number {n : ℕ} (h : start + n < 65536) : (UInt16.ofNat (start + n)).toNat = start + n :=
  UInt16.toNat_ofNat_of_lt' h

/-- The value at a position lies under its number. -/
theorem Holds.get_number (h : Holds start cache next values) {n : ℕ} (hn : start + n < 65536) :
    cache[UInt16.ofNat (start + n)]? = values[n]? := by
  rw [h.get, toNat_number hn, if_pos (Nat.le_add_right start n), Nat.add_sub_cancel_left]

/-- A number that is given out is a position. -/
theorem Holds.position (h : Holds start cache next values) {id : UInt16} {v : ν}
    (hid : cache[id]? = some v) : ∃ n, id = UInt16.ofNat (start + n) ∧ values[n]? = some v := by
  rw [h.get] at hid
  by_cases hle : start ≤ id.toNat
  · rw [if_pos hle] at hid
    exact ⟨id.toNat - start, by rw [Nat.add_sub_cancel' hle, UInt16.ofNat_toNat], hid⟩
  · rw [if_neg hle] at hid
    cases hid

/-- Below the start and past the values nothing is held. -/
theorem Holds.get_none (h : Holds start cache next values) {id : UInt16}
    (hid : id.toNat < start ∨ start + values.length ≤ id.toNat) : cache[id]? = none := by
  rw [h.get]
  split_ifs with hle
  · exact List.getElem?_eq_none (by omega)
  · rfl

/-- A new value gets the next position. -/
theorem Holds.insert (h : Holds start cache next values) (hroom : start + values.length < 65536) (v : ν) :
    Holds start (cache.insert next v) (next + 1) (values ++ [v]) := by
  have hnext : next.toNat = start + values.length := by rw [h.next_eq, toNat_number hroom]
  refine ⟨?_, fun id => ?_, ?_⟩
  · rw [h.next_eq, List.length_append, List.length_singleton, ← Nat.add_assoc, UInt16.ofNat_add _ 1]
    rfl
  · simp only [Std.TreeMap.getElem?_insert, Std.compare_eq_iff_eq, h.get]
    by_cases hid : next = id
    · subst hid
      rw [if_pos rfl, if_pos (by omega), hnext, Nat.add_sub_cancel_left,
        List.getElem?_append_right (Nat.le_refl _), Nat.sub_self]
      rfl
    · rw [if_neg hid]
      have hne : id.toNat ≠ start + values.length := by
        rw [← hnext]
        exact fun heq => hid (UInt16.toNat_inj.1 heq.symm)
      by_cases hle : start ≤ id.toNat
      · rw [if_pos hle, if_pos hle]
        obtain hlt | hge := Nat.lt_or_ge (id.toNat - start) values.length
        · rw [List.getElem?_append_left hlt]
        · rw [List.getElem?_eq_none hge, List.getElem?_eq_none]
          rw [List.length_append, List.length_singleton]
          omega
      · rw [if_neg hle, if_neg hle]
  · rw [List.length_append, List.length_singleton]
    omega

section key
variable (key : ν → κ)

/-- The map holds one value for each of the keys. -/
structure Interned (start : ℕ) (cache : Std.TreeMap UInt16 ν) (next : UInt16) (values : List ν) : Prop
    extends Holds start cache next values where
  nodup : (values.map key).Nodup

variable {key}

lemma Interned.empty (key : ν → κ) (h : start ≤ 65536) :
    Interned key start (∅ : Std.TreeMap UInt16 ν) (UInt16.ofNat start) [] :=
  ⟨.empty h, by simp⟩

/-- What interning leaves: the value's key is among the keys, its number is that of its key, and the
values before it have kept theirs. -/
structure InternedNew (key : ν → κ) (start : ℕ) (values : List ν) (value : ν)
    (result : UInt16 × Std.TreeMap UInt16 ν × UInt16) (values' : List ν) : Prop where
  interned : Interned key start result.2.1 result.2.2 values'
  extended : values <+: values'
  mem_iff : ∀ k, k ∈ values'.map key ↔ k ∈ values.map key ∨ k = key value
  number : ∃ n, result.1 = UInt16.ofNat (start + n) ∧ (values'.map key)[n]? = some (key value)

/-- A value with a new key gets the next number. -/
theorem intern_new (h : Holds start cache next values) {found : ν → Bool} {value : ν}
    (hfound : ∀ v, found v = true ↔ key v = key value) (hnew : key value ∉ values.map key) :
    intern cache next found value = (next, cache.insert next value, next + 1) := by
  have hnone : cache.toList.find? (fun entry => found entry.2) = none := by
    refine List.find?_eq_none.2 fun entry hentry hmatch => hnew ?_
    obtain ⟨n, -, hv⟩ := h.position (Std.TreeMap.mem_toList_iff_getElem?_eq_some.1 hentry)
    exact List.mem_map.2 ⟨entry.2, List.mem_of_getElem? hv, (hfound _).1 hmatch⟩
  rw [intern, hnone]

lemma Interned.intern (h : Interned key start cache next values) {found : ν → Bool} {value : ν}
    (hmatches : ∀ v, found v = true ↔ key v = key value)
    (hroom : key value ∉ values.map key → start + values.length < 65536) :
    ∃ values', InternedNew key start values value (intern cache next found value) values' := by
  rw [Interning.intern]
  cases hfind : cache.toList.find? fun entry => found entry.2 with
  | some entry =>
    have hmem : cache[entry.1]? = some entry.2 :=
      Std.TreeMap.mem_toList_iff_getElem?_eq_some.1 (List.mem_of_find?_eq_some hfind)
    have hkey : key entry.2 = key value := (hmatches _).1 (by simpa using List.find?_some hfind)
    obtain ⟨n, hn, hv⟩ := h.position hmem
    have hat : (values.map key)[n]? = some (key value) := by rw [List.getElem?_map, hv, Option.map_some, hkey]
    refine ⟨values, h, List.prefix_refl _, fun k => ?_, n, hn, hat⟩
    refine ⟨.inl, ?_⟩
    rintro (hk | rfl)
    · exact hk
    · exact List.mem_of_getElem? hat
  | none =>
    have hnew : key value ∉ values.map key := by
      rintro hk
      obtain ⟨v, hv, hkey⟩ := List.mem_map.1 hk
      obtain ⟨n, hvn⟩ := List.mem_iff_getElem?.1 hv
      have hn : n < values.length := (List.getElem?_eq_some_iff.1 hvn).1
      have hmem : (UInt16.ofNat (start + n), v) ∈ cache.toList :=
        Std.TreeMap.mem_toList_iff_getElem?_eq_some.2
          (by rw [h.get_number (by have := h.fits; omega), hvn])
      exact List.find?_eq_none.1 hfind _ hmem ((hmatches v).2 hkey)
    refine ⟨values ++ [value], ⟨h.toHolds.insert (hroom hnew) value, ?_⟩, List.prefix_append _ _, fun k => ?_,
      values.length, h.next_eq, ?_⟩
    · rw [List.map_append, List.map_singleton]
      exact List.nodup_append.2 ⟨h.nodup, by simp, by simpa using hnew⟩
    · simp
    · simp

end key

/-! ## In a list -/

section list

variable [DecidableEq κ]

/-- The position of a name, at the end if it is new, and the names afterwards. -/
def register (names : List κ) (name : κ) : ℕ × List κ :=
  match names.findIdx? fun other => decide (other = name) with
  | some i => (i, names)
  | none => (names.length, names ++ [name])

/-- The positions of names that are registered one after the other. -/
def registerAll : List κ → List κ → List ℕ × List κ
  | names, [] => ([], names)
  | names, name :: rest =>
    let first := register names name
    let others := registerAll first.2 rest
    (first.1 :: others.1, others.2)

lemma register_old {names : List κ} {name : κ} (h : name ∈ names) : ∃ i, register names name = (i, names) := by
  unfold register
  cases hfind : names.findIdx? fun other => decide (other = name) with
  | some i => exact ⟨i, rfl⟩
  | none => exact absurd (List.findIdx?_eq_none_iff.1 hfind name h) (by simp)

lemma register_new {names : List κ} {name : κ} (h : name ∉ names) :
    register names name = (names.length, names ++ [name]) := by
  have hnone : (names.findIdx? fun other => decide (other = name)) = none := by
    apply List.findIdx?_eq_none_iff.2
    intro other hother
    rw [decide_eq_false_iff_not]
    rintro rfl
    exact h hother
  unfold register
  rw [hnone]

lemma names_of_register (names : List κ) (name : κ) : names <+: (register names name).2 := by
  by_cases h : name ∈ names
  · obtain ⟨i, hi⟩ := register_old h
    exact ⟨[], by rw [hi, List.append_nil]⟩
  · rw [register_new h]
    exact List.prefix_append _ _

lemma nodup_register {names : List κ} (h : names.Nodup) (name : κ) : (register names name).2.Nodup := by
  by_cases hmem : name ∈ names
  · obtain ⟨i, hi⟩ := register_old hmem
    rwa [hi]
  · rw [register_new hmem]
    exact List.nodup_append.2 ⟨h, List.nodup_singleton name, by simpa using fun a ha => (ne_of_mem_of_not_mem ha hmem)⟩

/-- A name lies at its position. -/
theorem register_get (names : List κ) (name : κ) :
    (register names name).2[(register names name).1]? = some name := by
  unfold register
  cases hfind : names.findIdx? fun other => decide (other = name) with
  | some i =>
    obtain ⟨hi, hname, -⟩ := List.findIdx?_eq_some_iff_getElem.1 hfind
    rw [decide_eq_true_eq] at hname
    exact (List.getElem?_eq_getElem hi).trans (congrArg some hname)
  | none => simp

lemma names_of_registerAll (names calls : List κ) : names <+: (registerAll names calls).2 := by
  induction calls generalizing names with
  | nil => exact List.prefix_refl _
  | cons name rest ih => exact (names_of_register names name).trans (ih _)

lemma nodup_registerAll {names : List κ} (h : names.Nodup) (calls : List κ) :
    (registerAll names calls).2.Nodup := by
  induction calls generalizing names with
  | nil => exact h
  | cons name rest ih => exact ih (nodup_register h name)

/-- Positions are kept: at the end each name still lies at the one it got. -/
theorem registerAll_get (names calls : List κ) :
    List.Forall₂ (fun id name => (registerAll names calls).2[id]? = some name) (registerAll names calls).1 calls := by
  induction calls generalizing names with
  | nil => exact .nil
  | cons name rest ih =>
    refine .cons ?_ (ih _)
    obtain ⟨later, hlater⟩ := names_of_registerAll (register names name).2 rest
    have hget := register_get names name
    show (registerAll (register names name).2 rest).2[(register names name).1]? = some name
    rw [← hlater, List.getElem?_append_left (List.getElem?_eq_some_iff.1 hget).1]
    exact hget

/-- Names have one position just when they are equal. -/
theorem registerAll_inj {names : List κ} (h : names.Nodup) {calls : List κ} {i j : ℕ} (hi : i < calls.length)
    (hj : j < calls.length) :
    (registerAll names calls).1[i]? = (registerAll names calls).1[j]? ↔ calls[i]? = calls[j]? := by
  have hall := registerAll_get names calls
  have hnodup := nodup_registerAll h calls
  have hlength := hall.length_eq
  have hat : ∀ k (hk : k < calls.length), ∃ id, (registerAll names calls).1[k]? = some id ∧
      (registerAll names calls).2[id]? = calls[k]? := by
    intro k hk
    have hk' : k < (registerAll names calls).1.length := by omega
    refine ⟨_, List.getElem?_eq_getElem hk', ?_⟩
    rw [List.getElem?_eq_getElem hk]
    exact hall.get hk' hk
  obtain ⟨a, ha, hai⟩ := hat i hi
  obtain ⟨b, hb, hbj⟩ := hat j hj
  rw [ha, hb, ← hai, ← hbj, Option.some.injEq]
  constructor
  · rintro rfl
    rfl
  · intro heq
    have hlt : a < (registerAll names calls).2.length := by
      rw [List.getElem?_eq_getElem hi] at hai
      exact (List.getElem?_eq_some_iff.1 hai).1
    exact (List.getElem?_inj hlt hnodup).1 heq

end list

end Interning
