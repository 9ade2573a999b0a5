import Mathlib.Data.List.Basic
import Mathlib.Data.List.Flatten

/-!
# Prefix-free codes

A code is prefix-free when its words can be read off the front of a longer text: by a terminator
that no word contains, by a length in front, or part by part.
-/

namespace PrefixCode

variable {α β γ : Type*} {f : α → List γ}

/-- The word of `a` can be read off the front of a text. -/
def Splits (f : α → List γ) (a : α) : Prop :=
  ∀ (b : α) (s t : List γ), f a ++ s = f b ++ t → a = b ∧ s = t

lemma injective (h : ∀ a, Splits f a) : Function.Injective f := fun a b hab =>
  (h a b [] [] (by rw [hab])).1

lemma append_cons_inj_of_notMem {c : γ} {u v s t : List γ} (hu : c ∉ u) (hv : c ∉ v)
    (h : u ++ c :: s = v ++ c :: t) : u = v ∧ s = t := by
  induction u generalizing v with
  | nil =>
    cases v with
    | nil => exact ⟨rfl, (List.cons.inj h).2⟩
    | cons x v => exact absurd ((List.cons.inj h).1 ▸ List.mem_cons_self) hv
  | cons x u ih =>
    cases v with
    | nil => exact absurd ((List.cons.inj h).1 ▸ List.mem_cons_self) hu
    | cons y v =>
      obtain ⟨rfl, htail⟩ := List.cons.inj h
      obtain ⟨rfl, hs⟩ := ih (fun hc => hu (List.mem_cons_of_mem _ hc))
        (fun hc => hv (List.mem_cons_of_mem _ hc)) htail
      exact ⟨rfl, hs⟩

/-- Words that end with a symbol they do not contain otherwise. -/
theorem splits_terminated {c : γ} (hinj : Function.Injective f) (hc : ∀ a, c ∉ f a) (a : α) :
    Splits (fun a => f a ++ [c]) a := by
  intro b s t h
  simp only [List.append_assoc, List.singleton_append] at h
  obtain ⟨hword, hrest⟩ := append_cons_inj_of_notMem (hc a) (hc b) h
  exact ⟨hinj hword, hrest⟩

/-- Words with their lengths in front, the lengths themselves being prefix-free. -/
theorem splits_sized {size : ℕ → List γ} (hsize : ∀ n, Splits size n) (hinj : Function.Injective f)
    (a : α) : Splits (fun a => size (f a).length ++ f a) a := by
  intro b s t h
  simp only [List.append_assoc] at h
  obtain ⟨hlen, hrest⟩ := hsize _ _ _ _ h
  obtain ⟨hword, hs⟩ := List.append_inj hrest hlen
  exact ⟨hinj hword, hs⟩

/-- As many words as in another text. -/
theorem splits_flatMap {l l' : List α} {s t : List γ} (hf : ∀ a ∈ l, Splits f a)
    (hlen : l.length = l'.length) (h : l.flatMap f ++ s = l'.flatMap f ++ t) : l = l' ∧ s = t := by
  induction l generalizing l' with
  | nil =>
    cases List.length_eq_zero_iff.1 hlen.symm
    exact ⟨rfl, h⟩
  | cons a l ih =>
    cases l' with
    | nil => cases hlen
    | cons b l' =>
      simp only [List.flatMap_cons, List.append_assoc] at h
      obtain ⟨rfl, hrest⟩ := hf a List.mem_cons_self _ _ _ h
      obtain ⟨rfl, hs⟩ := ih (fun x hx => hf x (List.mem_cons_of_mem _ hx)) (Nat.succ.inj hlen) hrest
      exact ⟨rfl, hs⟩

end PrefixCode

/-!
## Self-synchronizing codes

The words of a code are prefix-free, and only the first symbol of a word is a lead. A text of words that occurs
in another one then occurs there word by word.
-/

namespace SelfSync

open PrefixCode

variable {α β : Type*} {enc : α → List β} {lead : β → Prop} {xs ys : List α}

/-- A prefix-free code whose words start with a lead and contain no other one. -/
structure SelfSynchronizing (enc : α → List β) (lead : β → Prop) : Prop where
  splits : ∀ a, Splits enc a
  head : ∀ a, ∃ b t, enc a = b :: t ∧ lead b ∧ ∀ c ∈ t, ¬ lead c

/-- Where word `k` of a text starts. -/
def offset (enc : α → List β) (xs : List α) (k : ℕ) : ℕ := ((xs.take k).flatMap enc).length

lemma offset_cons (x : α) (xs : List α) (k : ℕ) :
    offset enc (x :: xs) (k + 1) = (enc x).length + offset enc xs k := by
  simp [offset]

lemma flatMap_eq_append (xs : List α) (k : ℕ) :
    xs.flatMap enc = (xs.take k).flatMap enc ++ (xs.drop k).flatMap enc := by
  rw [← List.flatMap_append, List.take_append_drop]

lemma take_offset (xs : List α) (k : ℕ) :
    (xs.flatMap enc).take (offset enc xs k) = (xs.take k).flatMap enc := by
  rw [offset, flatMap_eq_append xs k]
  exact List.take_left' rfl

lemma drop_offset (xs : List α) (k : ℕ) :
    (xs.flatMap enc).drop (offset enc xs k) = (xs.drop k).flatMap enc := by
  rw [offset, flatMap_eq_append xs k]
  exact List.drop_left' rfl

lemma offset_succ {k : ℕ} (hk : k < xs.length) :
    offset enc xs (k + 1) = offset enc xs k + (enc xs[k]).length := by
  rw [offset, List.take_succ_eq_append_getElem hk, List.flatMap_append, List.length_append, List.flatMap_singleton]
  rfl

namespace SelfSynchronizing

variable (h : SelfSynchronizing enc lead)

include h

lemma ne_nil (a : α) : enc a ≠ [] := by
  obtain ⟨b, t, hword, -⟩ := h.head a
  rw [hword]
  exact List.cons_ne_nil b t

lemma length_pos (a : α) : 0 < (enc a).length := List.length_pos_iff.2 (h.ne_nil a)

lemma flatMap_eq_nil : xs.flatMap enc = [] ↔ xs = [] := by
  constructor
  · intro hnil
    cases xs with
    | nil => rfl
    | cons x xs => exact absurd (List.append_eq_nil_iff.1 hnil).1 (h.ne_nil x)
  · rintro rfl
    rfl

lemma offset_strictMono {k l : ℕ} (hkl : k < l) (hl : l ≤ xs.length) :
    offset enc xs k < offset enc xs l := by
  induction l with
  | zero => omega
  | succ l ih =>
    have hlast : l < xs.length := hl
    have hword := h.length_pos xs[l]
    rw [offset_succ hlast]
    rcases Nat.lt_succ_iff_lt_or_eq.1 hkl with hbefore | rfl
    · have hlt := ih hbefore (by omega)
      omega
    · omega

/-- A text is a prefix of another one when its words are. -/
theorem flatMap_prefix_iff : ys.flatMap enc <+: xs.flatMap enc ↔ ys <+: xs := by
  constructor
  · intro hfront
    induction ys generalizing xs with
    | nil => exact List.nil_prefix
    | cons y ys ih =>
      obtain ⟨t, ht⟩ := hfront
      cases xs with
      | nil => exact absurd (List.append_eq_nil_iff.1 (List.append_eq_nil_iff.1 ht).1).1 (h.ne_nil y)
      | cons x xs =>
        rw [List.flatMap_cons, List.flatMap_cons, List.append_assoc] at ht
        obtain ⟨rfl, hrest⟩ := h.splits y x _ _ ht
        exact List.cons_prefix_cons.2 ⟨rfl, ih ⟨t, hrest⟩⟩
  · rintro ⟨zs, rfl⟩
    exact ⟨zs.flatMap enc, by rw [List.flatMap_append]⟩

/-- A lead stands only where a word starts. -/
theorem exists_offset_of_lead {i : ℕ} {b : β} (hb : (xs.flatMap enc)[i]? = some b) (hlead : lead b) :
    ∃ k < xs.length, i = offset enc xs k := by
  induction xs generalizing i with
  | nil => simp at hb
  | cons x xs ih =>
    obtain ⟨c, t, hword, -, htail⟩ := h.head x
    rw [List.flatMap_cons] at hb
    by_cases hi : i < (enc x).length
    · -- inside the first word only its first symbol is a lead
      rw [List.getElem?_append_left hi, hword] at hb
      cases i with
      | zero => exact ⟨0, by simp, rfl⟩
      | succ i => exact absurd hlead (htail b (List.mem_of_getElem? hb))
    · rw [List.getElem?_append_right (by omega)] at hb
      obtain ⟨k, hk, hoffset⟩ := ih hb
      exact ⟨k + 1, by simpa using hk, by rw [offset_cons]; omega⟩

/-- Where a nonempty text occurs in another one, its words do. -/
theorem occurs_iff {i : ℕ} (hys : ys ≠ []) :
    ys.flatMap enc <+: (xs.flatMap enc).drop i ↔ ∃ k < xs.length, i = offset enc xs k ∧ ys <+: xs.drop k := by
  constructor
  · rintro ⟨t, ht⟩
    obtain ⟨y, ys, rfl⟩ := List.exists_cons_of_ne_nil hys
    obtain ⟨b, u, hword, hlead, -⟩ := h.head y
    have hb : (xs.flatMap enc)[i]? = some b := by
      have hdrop : ((xs.flatMap enc).drop i)[0]? = some b := by
        rw [← ht, List.flatMap_cons, hword]
        rfl
      simpa using hdrop
    obtain ⟨k, hk, rfl⟩ := h.exists_offset_of_lead hb hlead
    rw [drop_offset] at ht
    exact ⟨k, hk, rfl, h.flatMap_prefix_iff.1 ⟨t, ht⟩⟩
  · rintro ⟨k, -, rfl, hfront⟩
    rw [drop_offset]
    exact h.flatMap_prefix_iff.2 hfront

end SelfSynchronizing

end SelfSync
