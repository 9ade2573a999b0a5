import Eshkol.Base.Interning
import Eshkol.Logic.KnowledgeBase

/-!
# Names of logic variables

A variable is a position in the table of names. A name is looked for among the copies in the pool, of
which each has room for 63 characters: what is longer is cut, and not found again.
-/

namespace Logic

open Interning (register registerAll)

/-- `LOGIC_VAR_MAX`. -/
def logicVarMax : ℕ := 65536

/-- The size of `g_var_name_pool`. -/
def varNamePoolSize : ℕ := logicVarMax * 64

/-- `g_var_names` up to `g_var_count`, and `g_var_name_pool_offset`. -/
structure VarTable where
  names : List Name
  poolOffset : ℕ

/-- What a name becomes when the pool is full. -/
def poolExhausted : Name := "<pool-exhausted>".toList.map fun c => c.toNat.toUInt8

/-- `intern_var_name`: the copy, and the offset afterwards. -/
def internVarName (poolOffset : ℕ) (name : Name) : Name × ℕ :=
  let len := if 63 ≤ name.length then 63 else name.length
  let needed := len + 1
  if varNamePoolSize < poolOffset + needed then (poolExhausted, poolOffset)
  else (name.take len, poolOffset + needed)

/-- `eshkol_make_logic_var`; `none` is `UINT64_MAX`. -/
def makeLogicVar (table : VarTable) (name : Name) : Option ℕ × VarTable :=
  match table.names.findIdx? fun other => decide (other = name) with
  | some existing => (some existing, table)
  | none =>
    if logicVarMax ≤ table.names.length then (none, table)
    else
      let copy := internVarName table.poolOffset name
      (some table.names.length, ⟨table.names ++ [copy.1], copy.2⟩)

/-- `eshkol_logic_var_name`. -/
def logicVarName (table : VarTable) (id : ℕ) : Option Name := table.names[id]?

/-- Calls one after the other, and the table at the end. -/
def makeLogicVars : VarTable → List Name → List (Option ℕ) × VarTable
  | table, [] => ([], table)
  | table, name :: rest =>
    let first := makeLogicVar table name
    let others := makeLogicVars first.2 rest
    (first.1 :: others.1, others.2)

/-- Nothing is registered. -/
def VarTable.empty : VarTable := ⟨[], 0⟩

/-- Variables are equal just when their names are, and keep their names. -/
structure IdentifiedByName (calls : List Name) : Prop where
  same : ∀ i j, i < calls.length → j < calls.length →
    ((makeLogicVars .empty calls).1[i]? = (makeLogicVars .empty calls).1[j]? ↔ calls[i]? = calls[j]?)
  named : ∀ (i : ℕ) name, calls[i]? = some name → ∃ id, (makeLogicVars .empty calls).1[i]? = some (some id) ∧
    logicVarName (makeLogicVars .empty calls).2 id = some name

/-! ## Short names -/

/-- A variable has used no more than 64 characters of the pool. -/
def VarTable.HasRoom (table : VarTable) : Prop := table.poolOffset ≤ 64 * table.names.length

lemma internVarName_short {table : VarTable} (hroom : table.HasRoom) (hcount : table.names.length < logicVarMax)
    {name : Name} (hname : name.length ≤ 63) :
    internVarName table.poolOffset name = (name, table.poolOffset + (name.length + 1)) := by
  have hlen : (if 63 ≤ name.length then 63 else name.length) = name.length := by
    split_ifs <;> omega
  have hfits : ¬ varNamePoolSize < table.poolOffset + (name.length + 1) := by
    rw [VarTable.HasRoom] at hroom
    rw [varNamePoolSize]
    omega
  unfold internVarName
  simp only [hlen]
  rw [if_neg hfits, List.take_length]

/-- A short name is registered as it is. -/
lemma makeLogicVar_eq {table : VarTable} (hroom : table.HasRoom) {name : Name} (hname : name.length ≤ 63)
    (hcount : name ∉ table.names → table.names.length < logicVarMax) :
    (makeLogicVar table name).1 = some (register table.names name).1 ∧
      (makeLogicVar table name).2.names = (register table.names name).2 ∧ (makeLogicVar table name).2.HasRoom := by
  unfold makeLogicVar register
  cases hfind : table.names.findIdx? fun other => decide (other = name) with
  | some existing => exact ⟨rfl, rfl, hroom⟩
  | none =>
    have hnew : name ∉ table.names := fun hmem =>
      absurd (List.findIdx?_eq_none_iff.1 hfind name hmem) (by simp)
    have hlt := hcount hnew
    simp only [if_neg (not_le.2 hlt), internVarName_short hroom hlt hname]
    refine ⟨trivial, trivial, ?_⟩
    rw [VarTable.HasRoom] at hroom ⊢
    simp only [List.length_append, List.length_singleton]
    omega

/-- As long as there are fewer distinct names than the table has room for, calls register names. -/
lemma makeLogicVars_eq {table : VarTable} {calls all : List Name} (hroom : table.HasRoom)
    (hnodup : table.names.Nodup) (hmem : ∀ name ∈ table.names ++ calls, name ∈ all)
    (hall : all.dedup.length < logicVarMax) (hshort : ∀ name ∈ calls, name.length ≤ 63) :
    (makeLogicVars table calls).1 = (registerAll table.names calls).1.map some ∧
      (makeLogicVars table calls).2.names = (registerAll table.names calls).2 := by
  induction calls generalizing table with
  | nil => exact ⟨rfl, rfl⟩
  | cons name rest ih =>
    have hsub : table.names ⊆ all.dedup := fun other hother => List.mem_dedup.2 (hmem other (by simp [hother]))
    have hcount : table.names.length < logicVarMax := (hnodup.subperm hsub).length_le.trans_lt hall
    obtain ⟨hid, hnames, hroom'⟩ := makeLogicVar_eq hroom (hshort name (by simp)) fun _ => hcount
    have hmem' : ∀ other ∈ (makeLogicVar table name).2.names ++ rest, other ∈ all := by
      intro other hother
      apply hmem
      rw [hnames] at hother
      by_cases hold : name ∈ table.names
      · obtain ⟨i, hi⟩ := Interning.register_old hold
        rw [hi] at hother
        rcases List.mem_append.1 hother with h | h <;> simp [h]
      · rw [Interning.register_new hold] at hother
        simpa [or_assoc] using hother
    have hnodup' : (makeLogicVar table name).2.names.Nodup := hnames ▸ Interning.nodup_register hnodup name
    obtain ⟨hids, htable⟩ := ih hroom' hnodup' hmem' fun other hother => hshort other (by simp [hother])
    rw [hnames] at hids htable
    unfold makeLogicVars registerAll
    simp only [hid, hids, htable, List.map_cons]
    exact ⟨trivial, trivial⟩

/-- Names up to 63 bytes are told apart. -/
lemma identifiedByName_of_short {calls : List Name} (hcount : calls.dedup.length < logicVarMax)
    (hshort : ∀ name ∈ calls, name.length ≤ 63) : IdentifiedByName calls := by
  have hroom : VarTable.empty.HasRoom := Nat.zero_le _
  obtain ⟨hids, hnames⟩ := makeLogicVars_eq hroom List.nodup_nil (fun _ h => h) hcount hshort
  constructor
  · intro i j hi hj
    have hinj := Interning.registerAll_inj (List.nodup_nil : VarTable.empty.names.Nodup) hi hj
    rw [hids, List.getElem?_map, List.getElem?_map, ← hinj]
    exact (Option.map_injective (Option.some_injective _)).eq_iff
  · intro i name hname
    have hall := Interning.registerAll_get VarTable.empty.names calls
    obtain ⟨hi, hget⟩ := List.getElem?_eq_some_iff.1 hname
    have hi' : i < (registerAll VarTable.empty.names calls).1.length := by
      rw [hall.length_eq]
      exact hi
    refine ⟨(registerAll VarTable.empty.names calls).1[i], ?_, ?_⟩
    · rw [hids, List.getElem?_map, List.getElem?_eq_getElem hi']
      rfl
    · rw [logicVarName, hnames, ← hget]
      exact hall.get hi' hi

/-! ## Long names -/

lemma length_internVarName (poolOffset : ℕ) (name : Name) : (internVarName poolOffset name).1.length ≤ 63 := by
  unfold internVarName
  simp only
  split_ifs with hlong hfull
  · exact (by decide : poolExhausted.length ≤ 63)
  · rw [List.length_take]
    omega
  · exact (by decide : poolExhausted.length ≤ 63)
  · rw [List.length_take]
    omega

/-- No name in the table is longer than 63 characters. -/
lemma length_le_of_mem {table : VarTable} {calls : List Name} (h : ∀ name ∈ table.names, name.length ≤ 63) :
    ∀ name ∈ (makeLogicVars table calls).2.names, name.length ≤ 63 := by
  induction calls generalizing table with
  | nil => exact h
  | cons name rest ih =>
    apply ih
    unfold makeLogicVar
    cases table.names.findIdx? fun other => decide (other = name) with
    | some existing => exact h
    | none =>
      simp only
      split_ifs
      · exact h
      · intro other hother
        rcases List.mem_append.1 hother with hmem | hmem
        · exact h other hmem
        · rw [List.mem_singleton.1 hmem]
          exact length_internVarName _ _

lemma length_le_of_identified {calls : List Name} (h : IdentifiedByName calls) :
    ∀ name ∈ calls, name.length ≤ 63 := by
  intro name hmem
  obtain ⟨i, hi⟩ := List.mem_iff_getElem?.1 hmem
  obtain ⟨id, -, hid⟩ := h.named i name hi
  have hempty : ∀ name ∈ VarTable.empty.names, name.length ≤ 63 := by simp [VarTable.empty]
  exact length_le_of_mem hempty name (List.mem_of_getElem? hid)

/-- Fewer distinct names than the limit are told apart just when none is longer than 63 characters. -/
theorem identifiedByName_iff {calls : List Name} (hcount : calls.dedup.length < logicVarMax) :
    IdentifiedByName calls ↔ ∀ name ∈ calls, name.length ≤ 63 :=
  ⟨length_le_of_identified, identifiedByName_of_short hcount⟩

/-- The names `x`, `y` and `x`. -/
theorem identifiedByName_again : IdentifiedByName [[0x78], [0x79], [0x78]] :=
  (identifiedByName_iff (by decide)).2 (by simp)

/-- A name of 64 characters. -/
theorem not_identifiedByName_long :
    ¬ ∀ calls : List Name, calls.dedup.length < logicVarMax → IdentifiedByName calls := by
  intro h
  have hlong := length_le_of_identified (h [List.replicate 64 0x78] (by simp [logicVarMax]))
  simp at hlong

end Logic
