import Mathlib.Algebra.Order.Group.Int
import Mathlib.Data.Finsupp.Basic

/-!
# Weighted lists

A list of weighted elements stands for the finitely supported function that sums the weights of each
element. Among the lists that stand for one function there is one normal form: sorted strictly by a
key, and without zero weights.
-/

namespace WeightedList

variable {α β κ M : Type*} [AddCommMonoid M]

/-- The sum of the weights of each element. -/
noncomputable def weights (l : List (M × α)) : α →₀ M := (l.map fun p => Finsupp.single p.2 p.1).sum

@[simp] lemma weights_cons (p : M × α) (l : List (M × α)) :
    weights (p :: l) = Finsupp.single p.2 p.1 + weights l := List.sum_cons

/-- An element that is not listed weighs nothing. -/
theorem weights_apply_of_notMem {l : List (M × α)} {a : α} (h : ∀ p ∈ l, p.2 ≠ a) : weights l a = 0 := by
  induction l with
  | nil => rfl
  | cons p l ih =>
    rw [weights_cons, Finsupp.add_apply, Finsupp.single_eq_of_ne (h p List.mem_cons_self).symm, zero_add,
      ih fun q hq => h q (List.mem_cons_of_mem _ hq)]

variable [LinearOrder κ]

/-- Sorted strictly by `key`, without zero weights. -/
structure Canonical (key : α → κ) (l : List (M × α)) : Prop where
  sorted : l.Pairwise fun p q => key p.2 < key q.2
  nonzero : ∀ p ∈ l, p.1 ≠ 0

namespace Canonical

variable {key : α → κ} {l l' : List (M × α)}

lemma nil : Canonical key ([] : List (M × α)) := ⟨.nil, by simp⟩

lemma cons_iff {p : M × α} :
    Canonical key (p :: l) ↔ (∀ q ∈ l, key p.2 < key q.2) ∧ p.1 ≠ 0 ∧ Canonical key l := by
  constructor
  · rintro ⟨hsorted, hnonzero⟩
    obtain ⟨hp, hl⟩ := List.pairwise_cons.1 hsorted
    exact ⟨hp, hnonzero p List.mem_cons_self, hl, fun q hq => hnonzero q (List.mem_cons_of_mem _ hq)⟩
  · rintro ⟨hp, hw, hl⟩
    refine ⟨List.pairwise_cons.2 ⟨hp, hl.sorted⟩, fun q hq => ?_⟩
    obtain rfl | hq := List.mem_cons.1 hq
    · exact hw
    · exact hl.nonzero q hq

lemma sublist (h : Canonical key l) (hl : l'.Sublist l) : Canonical key l' :=
  ⟨h.sorted.sublist hl, fun p hp => h.nonzero p (hl.subset hp)⟩

lemma ne (h : Canonical key l) : l.Pairwise fun p q => p.2 ≠ q.2 :=
  h.sorted.imp fun hlt heq => hlt.ne (congrArg key heq)

/-- The weight of a listed element is the one listed. -/
theorem weights_apply (h : Canonical key l) {p : M × α} (hp : p ∈ l) : weights l p.2 = p.1 := by
  induction l with
  | nil => simp at hp
  | cons q l ih =>
    obtain ⟨hlt, -, hl⟩ := cons_iff.1 h
    rw [weights_cons, Finsupp.add_apply]
    obtain rfl | hp := List.mem_cons.1 hp
    · have hnot : ∀ r ∈ l, r.2 ≠ p.2 := fun r hr heq => (hlt r hr).ne' (congrArg key heq)
      rw [Finsupp.single_eq_same, weights_apply_of_notMem hnot, add_zero]
    · have hne : p.2 ≠ q.2 := fun heq => (hlt p hp).ne' (congrArg key heq)
      rw [Finsupp.single_eq_of_ne hne, zero_add, ih hl hp]

lemma mem_iff (h : Canonical key l) {p : M × α} : p ∈ l ↔ weights l p.2 = p.1 ∧ p.1 ≠ 0 := by
  refine ⟨fun hp => ⟨h.weights_apply hp, h.nonzero p hp⟩, fun ⟨hw, hne⟩ => ?_⟩
  by_contra hp
  refine hne (hw.symm.trans (weights_apply_of_notMem fun q hq heq => hp ?_))
  have hq1 : q.1 = p.1 := (h.weights_apply hq).symm.trans ((congrArg _ heq).trans hw)
  rwa [← Prod.ext hq1 heq]

/-- The normal form is unique. -/
theorem ext (h : Canonical key l) (h' : Canonical key l') (hw : weights l = weights l') : l = l' := by
  have hmem : ∀ p, p ∈ l ↔ p ∈ l' := fun p => by rw [h.mem_iff, h'.mem_iff, hw]
  have hnodup : ∀ {k : List (M × α)}, Canonical key k → k.Nodup := fun hk =>
    hk.ne.imp fun hne heq => hne (congrArg Prod.snd heq)
  exact ((List.perm_ext_iff_of_nodup (hnodup h) (hnodup h')).2 hmem).eq_of_pairwise
    (fun _ _ _ _ hlt hgt => absurd hlt hgt.asymm) h.sorted h'.sorted

lemma ext_iff (h : Canonical key l) (h' : Canonical key l') : l = l' ↔ weights l = weights l' :=
  ⟨congrArg weights, h.ext h'⟩

end Canonical

end WeightedList
