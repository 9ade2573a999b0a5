import Eshkol.Types.BorrowChecker

/-!
# Histories of the borrow checker

A call changes the value of the name it is about and no other one. So every tracked value agrees with its borrow
counts after any history, the queries tell which call succeeds on it, and leaving a scope changes no value.
-/

namespace Types.Borrow

variable {bc bc' : BorrowChecker} {info : BorrowInfo} {name : String}

/-! ## What a call does -/

namespace BorrowInfo

/-- Neither moved nor dropped. -/
def isAlive (info : BorrowInfo) : Bool := info.state ≠ .moved ∧ info.state ≠ .dropped

/-- A move, a drop or a mutable borrow of the value succeeds. -/
def isReleasable (info : BorrowInfo) : Bool := info.isAlive && !info.isBorrowed

/-- The value after one more shared borrow. -/
def lent (info : BorrowInfo) : BorrowInfo :=
  { info with
    borrowCount := info.borrowCount + 1
    state := if info.state = .owned then .borrowedShared else info.state }

end BorrowInfo

/-- What a call about a value does to it, where the scope of a declaration is given. -/
def valueStep (scope : ℕ) : BorrowOp → Option BorrowInfo → Option BorrowInfo
  | .declareOwned _, _ => some { scopeDepth := scope }
  | .move _, value => value.map fun info => if info.isReleasable then { info with state := .moved } else info
  | .drop _, value => value.map fun info => if info.isReleasable then { info with state := .dropped } else info
  | .borrowShared _, value =>
    value.map fun info => if info.isAlive && !info.hasMutableBorrow then info.lent else info
  | .borrowMut _, value => value.map fun info =>
    if info.isReleasable then { info with hasMutableBorrow := true, state := .borrowedMut } else info
  | .returnBorrow _, value => value.map BorrowChecker.returned
  | .pushScope, value | .popScope, value => value

lemma values_addError (kind : BorrowErrorKind) (name message : String) :
    (bc.addError kind name message).values = bc.values := rfl

lemma lookup_setInfo (name key : String) (info : BorrowInfo) :
    (bc.setInfo name info).values[key]? = if name = key then some info else bc.values[key]? := by
  show (bc.values.insert name info)[key]? = _
  rw [Std.TreeMap.getElem?_insert]
  exact if_congr Std.LawfulEqCmp.compare_eq_iff_eq rfl rfl

/-- The check for borrows at the end of a scope only adds errors. -/
lemma values_checkOutlives (scope : ℕ) (entries : List (String × BorrowInfo)) :
    (entries.foldl (BorrowChecker.checkOutlives scope) bc).values = bc.values := by
  induction entries generalizing bc with
  | nil => rfl
  | cons entry entries ih =>
    rw [List.foldl_cons, ih]
    unfold BorrowChecker.checkOutlives
    split_ifs
    · rw [values_addError]
    · rfl

lemma values_popScope : bc.popScope.values = bc.values := by
  unfold BorrowChecker.popScope
  split_ifs
  · exact values_checkOutlives _ _
  · rfl

/-! The calls on a tracked value: whether they succeed, and the values after them. -/

lemma move_some (hvalue : bc.values[name]? = some info) :
    (bc.move name).1 = info.isReleasable ∧ (bc.move name).2.values =
      if info.isReleasable then bc.values.insert name { info with state := .moved } else bc.values := by
  unfold BorrowChecker.move BorrowInfo.isReleasable BorrowInfo.isAlive
  rw [hvalue]
  cases hstate : info.state <;> cases hborrowed : info.isBorrowed <;>
    simp [hstate, hborrowed, values_addError, BorrowChecker.setInfo]

lemma drop_some (hvalue : bc.values[name]? = some info) :
    (bc.drop name).1 = info.isReleasable ∧ (bc.drop name).2.values =
      if info.isReleasable then bc.values.insert name { info with state := .dropped } else bc.values := by
  unfold BorrowChecker.drop BorrowInfo.isReleasable BorrowInfo.isAlive
  rw [hvalue]
  cases hstate : info.state <;> cases hborrowed : info.isBorrowed <;>
    simp [hstate, hborrowed, values_addError, BorrowChecker.setInfo]

lemma borrowShared_some (hvalue : bc.values[name]? = some info) :
    (bc.borrowShared name).1 = (info.isAlive && !info.hasMutableBorrow) ∧ (bc.borrowShared name).2.values =
      if info.isAlive && !info.hasMutableBorrow then bc.values.insert name info.lent else bc.values := by
  unfold BorrowChecker.borrowShared BorrowInfo.isAlive BorrowInfo.lent
  rw [hvalue]
  cases hstate : info.state <;> cases hmutable : info.hasMutableBorrow <;>
    simp [hstate, hmutable, values_addError, BorrowChecker.setInfo]

lemma borrowMut_some (hvalue : bc.values[name]? = some info) :
    (bc.borrowMut name).1 = info.isReleasable ∧ (bc.borrowMut name).2.values =
      if info.isReleasable then
        bc.values.insert name { info with hasMutableBorrow := true, state := .borrowedMut }
      else bc.values := by
  unfold BorrowChecker.borrowMut BorrowInfo.isReleasable BorrowInfo.isAlive BorrowInfo.isBorrowed
  rw [hvalue]
  cases hstate : info.state <;> by_cases hcount : 0 < info.borrowCount <;>
    cases hmutable : info.hasMutableBorrow <;> simp [hstate, hcount, hmutable, values_addError, BorrowChecker.setInfo]

/-- A call about one name, given by what it does to the value when the name is tracked. -/
lemma lookup_call (f : BorrowInfo → BorrowInfo)
    (hnone : bc.values[name]? = none → bc' = bc)
    (hsome : ∀ info, bc.values[name]? = some info → ∃ (succeeds : Bool) (info' : BorrowInfo),
      bc'.values = (if succeeds then bc.values.insert name info' else bc.values) ∧
        f info = if succeeds then info' else info) (key : String) :
    bc'.values[key]? = if some name = some key then bc.values[key]?.map f else bc.values[key]? := by
  cases hvalue : bc.values[name]? with
  | none =>
    rw [hnone hvalue]
    split_ifs with hkey
    · obtain rfl : name = key := Option.some.inj hkey
      rw [hvalue, Option.map_none]
    · rfl
  | some info =>
    obtain ⟨succeeds, info', hvalues, hf⟩ := hsome info hvalue
    rw [hvalues]
    by_cases hkey : name = key
    · subst hkey
      rw [if_pos rfl, hvalue, Option.map_some, hf]
      cases succeeds with
      | false => exact hvalue
      | true => exact Std.TreeMap.getElem?_insert_self
    · rw [if_neg (mt Option.some.inj hkey)]
      cases succeeds with
      | false => rfl
      | true =>
        have hlookup := @lookup_setInfo bc name key info'
        rwa [if_neg hkey] at hlookup

/-- The call changes the value of its name and keeps every other one. -/
lemma lookup_step (op : BorrowOp) (key : String) :
    (step bc op).values[key]? =
      if op.name? = some key then valueStep bc.currentScope op bc.values[key]? else bc.values[key]? := by
  cases op with
  | pushScope => rfl
  | popScope => exact congrArg (·[key]?) values_popScope
  | declareOwned name =>
    simp only [step, BorrowOp.name?, Option.some.injEq]
    exact lookup_setInfo name key _
  | move name =>
    exact lookup_call _ (fun hvalue => by simp only [BorrowChecker.move, hvalue])
      (fun info hvalue => ⟨_, _, (move_some hvalue).2, rfl⟩) key
  | drop name =>
    exact lookup_call _ (fun hvalue => by simp only [BorrowChecker.drop, hvalue])
      (fun info hvalue => ⟨_, _, (drop_some hvalue).2, rfl⟩) key
  | borrowShared name =>
    exact lookup_call _ (fun hvalue => by simp only [BorrowChecker.borrowShared, hvalue])
      (fun info hvalue => ⟨_, _, (borrowShared_some hvalue).2, rfl⟩) key
  | borrowMut name =>
    exact lookup_call _ (fun hvalue => by simp only [BorrowChecker.borrowMut, hvalue])
      (fun info hvalue => ⟨_, _, (borrowMut_some hvalue).2, rfl⟩) key
  | returnBorrow name =>
    exact lookup_call _ (fun hvalue => by simp only [step, BorrowChecker.returnBorrow, hvalue])
      (fun info hvalue => ⟨true, _, by simp only [step, BorrowChecker.returnBorrow, hvalue]; rfl, rfl⟩) key

/-! ## The invariant -/

/-- The state tag of a value says which borrows are active. -/
structure BorrowInfo.Agrees (info : BorrowInfo) : Prop where
  shared : info.state = .borrowedShared ↔ 0 < info.borrowCount
  mutable : info.state = .borrowedMut ↔ info.hasMutableBorrow = true

namespace BorrowInfo.Agrees

variable (h : info.Agrees)

include h

/-- No value is borrowed in both ways. -/
lemma not_both : ¬ (0 < info.borrowCount ∧ info.hasMutableBorrow = true) := by
  intro hboth
  have hshared := h.shared.2 hboth.1
  have hmutable := h.mutable.2 hboth.2
  rw [hshared] at hmutable
  exact BorrowState.noConfusion hmutable

/-- What is not borrowed by its tag has no active borrow. -/
lemma not_borrowed (hshared : info.state ≠ .borrowedShared) (hmutable : info.state ≠ .borrowedMut) :
    info.borrowCount = 0 ∧ info.hasMutableBorrow = false :=
  ⟨by simpa using mt h.shared.2 hshared, by simpa using mt h.mutable.2 hmutable⟩

lemma isBorrowed_iff : info.isBorrowed = true ↔ info.state = .borrowedShared ∨ info.state = .borrowedMut := by
  rw [h.shared, h.mutable]
  simp [BorrowInfo.isBorrowed]

/-- A value is released, lent mutably or moved when it is owned. -/
lemma isReleasable_iff : info.isReleasable = true ↔ info.state = .owned := by
  have hborrowed := h.isBorrowed_iff
  unfold BorrowInfo.isReleasable BorrowInfo.isAlive
  cases hstate : info.state <;> simp_all

/-- The value after it was moved or dropped. -/
lemma release (hreleasable : info.isReleasable = true) {state : BorrowState} (hshared : state ≠ .borrowedShared)
    (hmutable : state ≠ .borrowedMut) : BorrowInfo.Agrees { info with state := state } := by
  have howned := h.isReleasable_iff.1 hreleasable
  obtain ⟨hcount, hexclusive⟩ := h.not_borrowed (by simp [howned]) (by simp [howned])
  exact ⟨by simp [hshared, hcount], by simp [hmutable, hexclusive]⟩

lemma lent (hmutable : info.hasMutableBorrow = false) (halive : info.isAlive = true) : info.lent.Agrees := by
  have hexclusive : info.state ≠ .borrowedMut := by simp [h.mutable, hmutable]
  unfold BorrowInfo.isAlive at halive
  unfold BorrowInfo.lent
  constructor
  · cases hstate : info.state <;> simp_all
  · cases hstate : info.state <;> simp_all

lemma borrowedMut (hreleasable : info.isReleasable = true) :
    BorrowInfo.Agrees { info with hasMutableBorrow := true, state := .borrowedMut } := by
  have howned := h.isReleasable_iff.1 hreleasable
  obtain ⟨hcount, -⟩ := h.not_borrowed (by simp [howned]) (by simp [howned])
  exact ⟨by simp [hcount], by simp⟩

/-- Ending a borrow leaves the value owned when it was the last one. -/
lemma returned : (BorrowChecker.returned info).Agrees := by
  have hboth := h.not_both
  obtain ⟨hshared, hmutable⟩ := h
  obtain ⟨state, count, exclusive, depth⟩ := info
  unfold BorrowChecker.returned
  cases exclusive with
  | true =>
    have hcount : count = 0 := by simpa using hboth
    obtain rfl : state = .borrowedMut := hmutable.2 rfl
    subst hcount
    exact ⟨by simp, by simp⟩
  | false =>
    have hexclusive : state ≠ .borrowedMut := by simpa using hmutable
    match count with
    | 0 =>
      have hnone : state ≠ .borrowedShared := by simpa using hshared
      exact ⟨by simp [hnone, hexclusive], by simp [hnone, hexclusive]⟩
    | 1 =>
      obtain rfl : state = .borrowedShared := hshared.2 Nat.one_pos
      exact ⟨by simp, by simp⟩
    | count + 2 =>
      obtain rfl : state = .borrowedShared := hshared.2 (Nat.succ_pos _)
      exact ⟨by simp, by simp⟩

lemma valueStep (scope : ℕ) (op : BorrowOp) : ∀ info' ∈ valueStep scope op (some info), info'.Agrees := by
  intro info' hinfo'
  have hmap (f : BorrowInfo → BorrowInfo) (hf : (f info).Agrees) : ∀ i ∈ (some info).map f, i.Agrees := by
    intro i hi
    rwa [← Option.some.inj hi]
  cases op with
  | pushScope => rwa [← Option.some.inj hinfo']
  | popScope => rwa [← Option.some.inj hinfo']
  | declareOwned name =>
    rw [← Option.some.inj hinfo']
    exact ⟨by simp, by simp⟩
  | move name =>
    apply hmap _ _ info' hinfo'
    split_ifs with hreleasable
    · exact h.release hreleasable (by decide) (by decide)
    · exact h
  | drop name =>
    apply hmap _ _ info' hinfo'
    split_ifs with hreleasable
    · exact h.release hreleasable (by decide) (by decide)
    · exact h
  | borrowShared name =>
    apply hmap _ _ info' hinfo'
    split_ifs with hlends
    · rw [Bool.and_eq_true, Bool.not_eq_true'] at hlends
      exact h.lent hlends.2 hlends.1
    · exact h
  | borrowMut name =>
    apply hmap _ _ info' hinfo'
    split_ifs with hreleasable
    · exact h.borrowedMut hreleasable
    · exact h
  | returnBorrow name => exact hmap _ h.returned info' hinfo'

end BorrowInfo.Agrees

/-- Every tracked value agrees with its borrows. -/
def Sound (bc : BorrowChecker) : Prop :=
  ∀ (name : String) (info : BorrowInfo), bc.values[name]? = some info → info.Agrees

/-- One call keeps the invariant. -/
lemma Sound.step (h : Sound bc) (op : BorrowOp) : Sound (step bc op) := by
  intro name info hinfo
  rw [lookup_step] at hinfo
  split_ifs at hinfo
  · cases hvalue : bc.values[name]? with
    | none =>
      -- only a declaration makes a value
      rw [hvalue] at hinfo
      cases op with
      | declareOwned _ =>
        rw [← Option.some.inj hinfo]
        exact ⟨by simp, by simp⟩
      | _ => exact absurd hinfo (by simp [valueStep])
    | some info₀ =>
      rw [hvalue] at hinfo
      exact (h name info₀ hvalue).valueStep bc.currentScope op info hinfo
  · exact h name info hinfo

/-- Every history keeps it. -/
lemma sound_foldl (h : Sound bc) (ops : List BorrowOp) : Sound (ops.foldl step bc) := by
  induction ops generalizing bc with
  | nil => exact h
  | cons op ops ih => exact ih (h.step op)

/-- Run lemma of the borrow checker. -/
lemma sound_run (ops : List BorrowOp) : Sound (run ops) :=
  sound_foldl (fun name info hinfo => absurd hinfo (by simp)) ops

/-! ## The queries -/

lemma canMove_eq (h : info.Agrees) (hvalue : bc.values[name]? = some info) :
    bc.canMove name = (bc.move name).1 := by
  rw [(move_some hvalue).1, Bool.eq_iff_iff, h.isReleasable_iff]
  unfold BorrowChecker.canMove
  rw [hvalue, decide_eq_true_iff, and_iff_left_iff_imp]
  intro howned
  obtain ⟨hcount, hexclusive⟩ := h.not_borrowed (by simp [howned]) (by simp [howned])
  simp [hcount, hexclusive]

lemma canBorrowMut_eq (h : info.Agrees) (hvalue : bc.values[name]? = some info) :
    bc.canBorrowMut name = (bc.borrowMut name).1 := by
  rw [(borrowMut_some hvalue).1, ← (move_some hvalue).1, ← canMove_eq h hvalue]
  rfl

lemma canBorrowShared_eq (h : info.Agrees) (hvalue : bc.values[name]? = some info) :
    bc.canBorrowShared name = (bc.borrowShared name).1 := by
  rw [(borrowShared_some hvalue).1]
  unfold BorrowChecker.canBorrowShared BorrowInfo.isAlive
  rw [hvalue]
  have hmutable := h.mutable
  cases hstate : info.state <;> simp_all

/-! ## Scopes -/

/-- Only a declaration looks at the scope. -/
lemma valueStep_scope {op : BorrowOp} (hdeclare : ∀ key, op ≠ .declareOwned key) (scope scope' : ℕ) :
    valueStep scope op = valueStep scope' op := by
  cases op with
  | declareOwned key => exact absurd rfl (hdeclare key)
  | _ => rfl

/-- Where a name is not declared again, the calls on it are all that decides its value. -/
lemma lookup_foldl_filter {ops : List BorrowOp} {key : String} (hdeclare : .declareOwned key ∉ ops)
    (hvalues : bc.values[key]? = bc'.values[key]?) :
    (ops.foldl step bc).values[key]? =
      ((ops.filter fun op => op.name? = some key).foldl step bc').values[key]? := by
  induction ops generalizing bc bc' with
  | nil => exact hvalues
  | cons op ops ih =>
    rw [List.mem_cons, not_or] at hdeclare
    by_cases hname : op.name? = some key
    · rw [List.filter_cons_of_pos (by simpa using hname), List.foldl_cons, List.foldl_cons]
      apply ih hdeclare.2
      have hother : ∀ name, op ≠ .declareOwned name := by
        rintro name rfl
        exact hdeclare.1 (congrArg BorrowOp.declareOwned (Option.some.inj hname).symm)
      rw [lookup_step, lookup_step, if_pos hname, if_pos hname, hvalues, valueStep_scope hother]
    · rw [List.filter_cons_of_neg (by simpa using hname), List.foldl_cons]
      apply ih hdeclare.2
      rw [lookup_step, if_neg hname, hvalues]

/-- After any history every tracked value agrees with its borrows, the queries about it tell which call succeeds,
and a name not declared again has left a scope with what the calls on it made of its value. -/
theorem borrow_histories (ops : List BorrowOp) (name : String) :
    (∀ info, (run ops).values[name]? = some info →
      ¬ (0 < info.borrowCount ∧ info.hasMutableBorrow = true) ∧
      (info.state = .moved ∨ info.state = .dropped → info.borrowCount = 0 ∧ info.hasMutableBorrow = false) ∧
      (info.state = .borrowedShared ↔ 0 < info.borrowCount) ∧
      (info.state = .borrowedMut ↔ info.hasMutableBorrow = true) ∧
      (run ops).canMove name = ((run ops).move name).1 ∧
      (run ops).canBorrowShared name = ((run ops).borrowShared name).1 ∧
      (run ops).canBorrowMut name = ((run ops).borrowMut name).1) ∧
    (∀ key : String, (run ops).popScope.values[key]? = (run ops).values[key]?) ∧
    ∀ inner, .declareOwned name ∉ inner →
      (run (ops ++ .pushScope :: inner ++ [.popScope])).values[name]? =
        (run (ops ++ inner.filter fun op => op.name? = some name)).values[name]? := by
  refine ⟨fun info hinfo => ?_, fun key => congrArg (·[key]?) values_popScope, fun inner hinner => ?_⟩
  · have hagrees := sound_run ops name info hinfo
    have hgone (hstate : info.state = .moved ∨ info.state = .dropped) :
        info.borrowCount = 0 ∧ info.hasMutableBorrow = false := by
      apply hagrees.not_borrowed
      · rcases hstate with hstate | hstate <;> simp [hstate]
      · rcases hstate with hstate | hstate <;> simp [hstate]
    exact ⟨hagrees.not_both, hgone, hagrees.shared, hagrees.mutable, canMove_eq hagrees hinfo,
      canBorrowShared_eq hagrees hinfo, canBorrowMut_eq hagrees hinfo⟩
  · unfold run
    rw [List.foldl_append, List.foldl_append, List.foldl_append, List.foldl_cons, List.foldl_cons, List.foldl_nil]
    rw [show ∀ bc, step bc .popScope = bc.popScope from fun _ => rfl, values_popScope]
    exact lookup_foldl_filter hinner rfl

/-- An untracked name counts as movable and is not moved; a value that was moved is usable again after a scope with
a value of the same name. -/
theorem borrow_history_of_shadowing :
    (run []).canMove "x" = true ∧ ((run []).move "x").1 = false ∧
    (run [.declareOwned "x", .move "x"]).getState "x" = .moved ∧
    (run [.declareOwned "x", .move "x", .pushScope, .declareOwned "x", .popScope]).getState "x" = .owned := by
  refine ⟨by simp [run, BorrowChecker.canMove], by simp [run, BorrowChecker.move], ?_, ?_⟩
  · rfl
  · rfl

end Types.Borrow
