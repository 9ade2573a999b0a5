import Mathlib.Data.Set.Finite.Basic

/-!
# Following references without running in a circle

Following a relation step by step ends, whatever is chosen at each step, exactly when no element on
a cycle can be reached, provided that only finitely many elements have a step.
-/

namespace Cycles

open Relation

variable {α : Type*} {r : α → α → Prop} {x y : α}

/-- Every way of following `r` from `x` ends. -/
def Ends (r : α → α → Prop) (x : α) : Prop := Acc (Function.swap r) x

lemma ends_iff : Ends r x ↔ ∀ y, r x y → Ends r y :=
  ⟨fun h _ hy => h.inv hy, fun h => .intro x h⟩

/-- No element that can be reached is on a cycle. -/
def NoCycle (r : α → α → Prop) (x : α) : Prop := ∀ y, ReflTransGen r x y → ¬ TransGen r y y

lemma Ends.of_reachable (h : Ends r x) (hxy : ReflTransGen r x y) : Ends r y := by
  induction hxy with
  | refl => exact h
  | tail _ hstep ih => exact ends_iff.1 ih _ hstep

/-- From an element on a cycle one can go on for ever. -/
theorem Ends.not_cycle (h : Ends r x) : ¬ TransGen r x x := by
  induction h with
  | intro x _ ih =>
    intro hcycle
    obtain ⟨y, hxy, hyx⟩ := TransGen.head'_iff.1 hcycle
    exact ih y hxy (TransGen.tail' hyx hxy)

lemma Ends.noCycle (h : Ends r x) : NoCycle r x := fun _ hxy => (h.of_reachable hxy).not_cycle

lemma NoCycle.ends (hfin : {y | ∃ z, r y z}.Finite) (h : NoCycle r x) : Ends r x := by
  -- the elements on the way that have a step are well-founded under what they reach
  let Way := {y // ReflTransGen r x y ∧ ∃ z, r y z}
  have hway : Finite Way := (hfin.subset fun y hy => hy.2).to_subtype
  let reached : Way → Way → Prop := fun z y => TransGen r y.1 z.1
  have htrans : IsTrans Way reached := ⟨fun a b c hab hbc => hbc.trans hab⟩
  have hirrefl : Std.Irrefl reached := ⟨fun y => h y.1 y.2.1⟩
  have hwf := Finite.wellFounded_of_trans_of_irrefl reached
  have hends (y : Way) : Ends r y.1 := by
    induction y using hwf.induction with
    | _ y ih =>
      refine ends_iff.2 fun z hz => ?_
      by_cases hstep : ∃ w, r z w
      · exact ih ⟨z, y.2.1.tail hz, hstep⟩ (.single hz)
      · exact ends_iff.2 fun w hw => absurd ⟨w, hw⟩ hstep
  by_cases hstep : ∃ z, r x z
  · exact hends ⟨x, .refl, hstep⟩
  · exact ends_iff.2 fun z hz => absurd ⟨z, hz⟩ hstep

end Cycles
