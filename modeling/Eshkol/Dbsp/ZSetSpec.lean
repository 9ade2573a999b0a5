import Mathlib.Data.Finsupp.SMul
import Mathlib.Tactic.Abel
import Eshkol.Base.WeightedList
import Eshkol.Dbsp.ZSet

/-!
# What the Z-set operators compute

A Z-set stands for a finitely supported function from rows to integer weights. Each operator keeps
the normal form and acts on these functions as its purpose says, so that equations between Z-sets
follow from equations between functions.
-/

namespace Dbsp

open WeightedList

/-- In normal form. -/
def Consolidated (zs : ZSet) : Prop := Canonical dbspCanon zs.entries

/-- The weights of the rows. -/
noncomputable def contents (zs : ZSet) : Row →₀ ℤ := weights zs.entries

lemma Consolidated.ext {a b : ZSet} (ha : Consolidated a) (hb : Consolidated b)
    (h : contents a = contents b) : a = b :=
  congrArg ZSet.mk (Canonical.ext ha hb h)

/-! ## Consolidation -/

instance : IsStrictWeakOrder Tagged (RunMerging.Less canonLess) where
  irrefl a := by simp [RunMerging.Less, canonLess]
  trans a b c := by
    simp only [RunMerging.Less, canonLess, decide_eq_true_eq]
    exact lt_trans
  incomp_trans a b c := by
    simp only [RunMerging.Less, canonLess, decide_eq_true_eq, not_lt]
    rintro ⟨hba, hab⟩ ⟨hcb, hbc⟩
    exact ⟨hcb.trans hba, hab.trans hbc⟩

section

variable {κ : Type} [DecidableEq κ] (aKey bKey : Row → κ) (emit : Row → Row → Row)

end

/-- The weight that `distinct` gives a row. -/
def present (w : ℤ) : ℤ := if w > 0 then 1 else 0

end Dbsp
