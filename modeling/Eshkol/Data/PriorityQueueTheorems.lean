import Eshkol.Base.BinaryHeap
import Eshkol.Data.PriorityQueue
import Mathlib.Algebra.Order.Ring.Int

/-!
# The priority queue pops the least key

The vector of a queue holds the pairs of a list in heap order, and `#f` after them. Both sifts run
through the lists of a hole that moves along a path, so that each call returns and leaves a heap.
-/

namespace PriorityQueue

open Scheme
open BinaryHeap (Below Ordered UpOrder DownOrder swap parent)

variable {K A ν : Type} {l : List (K × A)} {m i j k : ℕ} {e : K × A}

/-! ## The vector -/

/-- The pairs of a list and free slots after them. -/
def slots (l : List (K × A)) (m : ℕ) : List (Slot K A) := l.map some ++ List.replicate m none

@[simp]
lemma length_slots (l : List (K × A)) (m : ℕ) : (slots l m).length = l.length + m := by
  simp [slots]

lemma getElem?_slots (h : l[i]? = some e) : (slots l m)[i]? = some (some e) := by
  have hlt : i < (l.map some).length := by
    rw [List.length_map]
    exact (List.getElem?_eq_some_iff.1 h).1
  rw [slots, List.getElem?_append_left hlt, List.getElem?_map, h]
  rfl

lemma getElem?_slots_free (hi : l.length ≤ i) (hm : i < l.length + m) :
    (slots l m)[i]? = some none := by
  rw [slots, List.getElem?_append_right (by simpa using hi), List.length_map,
    List.getElem?_replicate_of_lt (by omega)]

lemma vectorRef_slots (h : l[i]? = some e) : vectorRef (slots l m) i = .ok (some e) := by
  rw [vectorRef, getElem?_slots h]

lemma keyAt_slots (h : l[i]? = some e) : keyAt (slots l m) i = .ok e.1 := by
  rw [keyAt, vectorRef_slots h]
  rfl

lemma vectorSet_slots (h : i < l.length) (e : K × A) :
    vectorSet (slots l m) i (some e) = .ok (slots (l.set i e) m) := by
  rw [vectorSet, length_slots, if_pos (by omega), slots,
    List.set_append_left _ _ (by rwa [List.length_map]), ← List.map_set]
  rfl

/-- The first free slot takes a pair. -/
lemma vectorSet_slots_length (l : List (K × A)) (m : ℕ) (e : K × A) :
    vectorSet (slots l (m + 1)) l.length (some e) = .ok (slots (l ++ [e]) m) := by
  rw [vectorSet, length_slots, if_pos (by omega), slots, List.set_append_right _ _ (by simp),
    List.length_map, Nat.sub_self, List.replicate_succ, List.set_cons_zero, slots, List.map_append,
    List.append_assoc]
  rfl

/-- The last pair goes. -/
lemma vectorSet_slots_last (l : List (K × A)) (e : K × A) (m : ℕ) :
    vectorSet (slots (l ++ [e]) m) l.length none = .ok (slots l (m + 1)) := by
  rw [vectorSet, length_slots, List.length_append, List.length_singleton, if_pos (by omega), slots,
    List.map_append, List.append_assoc, List.set_append_right _ _ (by simp), List.length_map, Nat.sub_self]
  rfl

lemma exchange_slots (hi : i < l.length) (hj : j < l.length) :
    exchange (slots l m) i j = .ok (slots (swap l i j) m) := by
  have hi' := List.getElem?_eq_getElem hi
  have hj' := List.getElem?_eq_getElem hj
  rw [exchange, vectorRef_slots hi', ok_bind, vectorRef_slots hj', ok_bind, vectorSet_slots hi,
    ok_bind, vectorSet_slots (by rwa [List.length_set]), BinaryHeap.swap_eq hi' hj']

/-- The loop copies what is left of the source. -/
lemma pqCopyData_append (copied rest free : List (Slot K A)) (h : rest.length ≤ free.length) :
    pqCopyData (copied ++ rest) (copied ++ free) copied.length (copied ++ rest).length =
      .ok (copied ++ rest ++ free.drop rest.length) := by
  induction rest generalizing copied free with
  | nil =>
    rw [pqCopyData, List.append_nil, if_pos (Nat.le_refl _)]
    rfl
  | cons x rest ih =>
    cases free with
    | nil => cases h
    | cons y free =>
      have hnext := ih (copied ++ [x]) free (Nat.le_of_succ_le_succ h)
      simp only [List.append_assoc, List.singleton_append, List.length_append,
        List.length_singleton] at hnext
      rw [pqCopyData, if_neg (by simp), vectorRef, List.getElem?_append_right (Nat.le_refl _),
        Nat.sub_self, List.getElem?_cons_zero, ok_bind, vectorSet, if_pos (by simp),
        List.set_append_right _ _ (Nat.le_refl _), Nat.sub_self, List.set_cons_zero, ok_bind,
        List.length_append, hnext, List.append_assoc]
      rfl

/-- There is room for a pair after the growth, and a slot more. -/
lemma pqEnsureCapacity_slots (l : List (K × A)) (m : ℕ) (compare : K → K → ν) :
    ∃ m', pqEnsureCapacity ⟨slots l (m + 1), l.length, compare⟩ (l.length + 1) =
      .ok ⟨slots l (m' + 2), l.length, compare⟩ := by
  rw [pqEnsureCapacity]
  split_ifs with hfull
  · rw [length_slots] at hfull
    obtain rfl : m = 0 := by omega
    refine ⟨l.length, ?_⟩
    have hcopy := pqCopyData_append [] (slots l 1) (List.replicate (2 * (l.length + 1)) none)
      (by rw [length_slots, List.length_replicate]; omega)
    rw [List.nil_append, List.nil_append, List.length_nil, length_slots, List.drop_replicate] at hcopy
    rw [length_slots, hcopy, ok_bind, slots, slots, List.append_assoc, List.replicate_append_replicate,
      show 1 + (2 * (l.length + 1) - (l.length + 1)) = l.length + 2 by omega]
    rfl
  · rw [length_slots] at hfull
    exact ⟨m - 1, by rw [show m - 1 + 2 = m + 1 by omega]⟩

section order

variable [Zero ν] [LT ν] {compare : K → K → ν}

/-- The second pair does not come before the first. -/
def InOrder (compare : K → K → ν) (e e' : K × A) : Prop := ¬ compare e'.1 e.1 < 0

lemma TotalPreorder.inOrder (h : TotalPreorder compare) :
    BinaryHeap.TotalPreorder (InOrder compare : K × A → K × A → Prop) where
  trans := h.trans
  total a b := by
    by_cases hba : compare b.1 a.1 < 0
    · exact .inr (h.asymm hba)
    · exact .inl hba

lemma inOrder_below (hi : l[i]? = some e) {e' : K × A} (hj : l[j]? = some e') :
    Below (InOrder compare) l i j ↔ ¬ compare e'.1 e.1 < 0 := by
  constructor
  · exact fun h => h e hi e' hj
  · intro h a ha b hb
    rwa [Option.mem_unique ha hi, Option.mem_unique hb hj]

/-! ## A heap in the vector -/

/-- The queue holds the pairs of a list in heap order, with a free slot left. -/
structure Holds (compare : K → K → ν) (pq : Pq K A ν) (l : List (K × A)) : Prop where
  eq : ∃ m, pq = ⟨slots l (m + 1), l.length, compare⟩
  ordered : Ordered (InOrder compare) l

variable {pq : Pq K A ν}

lemma holds_makePq (compare : K → K → ν) : Holds compare (makePq compare : Pq K A ν) [] where
  eq := ⟨15, rfl⟩
  ordered := fun _ _ _ _ e he => by cases he

/-- No pair comes before the one at the root. -/
lemma Holds.least (hcompare : TotalPreorder compare) (h : Holds compare pq (e :: l)) :
    ∀ e' ∈ l, ¬ compare e'.1 e.1 < 0 := by
  intro e' he'
  obtain ⟨i, hi⟩ := List.mem_iff_getElem?.1 he'
  have hlt := (List.getElem?_eq_some_iff.1 hi).1
  have hroot : Below (InOrder compare) (e :: l) 0 (i + 1) :=
    h.ordered.root hcompare.inOrder (by simpa using hlt)
  exact hroot e rfl e' hi

lemma Holds.stored_eq (h : Holds compare pq l) : stored pq = l := by
  obtain ⟨m, rfl⟩ := h.eq
  have htake : (slots l (m + 1)).take l.length = l.map some := by
    rw [slots, ← List.length_map (f := some), List.take_left]
  rw [stored, htake, List.filterMap_map]
  exact congrArg Multiset.ofList List.filterMap_some

/-- The array is a heap. -/
lemma Holds.heapOrdered (h : Holds compare pq l) : HeapOrdered pq := by
  obtain ⟨m, rfl⟩ := h.eq
  have hget {i : ℕ} {e : K × A} (hi : i < l.length)
      (he : (slots l (m + 1))[i]? = some (some e)) : l[i]? = some e := by
    rw [getElem?_slots (List.getElem?_eq_getElem hi)] at he
    rw [List.getElem?_eq_getElem hi]
    exact Option.some.inj he
  refine ⟨?_, fun i hi => ?_, fun i hi hlt => ?_, fun i hpos hi e upper he hupper => ?_⟩
  · show l.length < (slots l (m + 1)).length
    rw [length_slots]
    omega
  · exact ⟨l[i], getElem?_slots (List.getElem?_eq_getElem hi)⟩
  · exact getElem?_slots_free hi (by simpa using hlt)
  · have hparent := BinaryHeap.parent_lt hpos
    exact h.ordered i hpos upper (hget (Nat.lt_trans hparent hi) hupper) e (hget hi he)

/-- A peek shows what a pop takes. -/
lemma pqPeek_spec (h : Holds compare pq (e :: l)) : pqPeek pq = .ok (some e) := by
  obtain ⟨m, rfl⟩ := h.eq
  rfl

variable [DecidableLT ν]

/-! ## Sifting -/

/-- Sifting up ends with a heap of the same pairs. -/
lemma pqSiftUp_spec (hcompare : TotalPreorder compare) (h : UpOrder (InOrder compare) l i)
    (hi : i < l.length) :
    ∃ l', pqSiftUp ⟨slots l m, l.length, compare⟩ i = .ok ⟨slots l' m, l'.length, compare⟩ ∧
      l'.Perm l ∧ Ordered (InOrder compare) l' := by
  induction i using Nat.strongRecOn generalizing l with
  | _ i ih =>
    rw [pqSiftUp]
    split_ifs with hzero
    · exact ⟨l, rfl, List.Perm.refl l, h.finish fun hpos => absurd hzero (Nat.ne_of_gt hpos)⟩
    · have hpos := Nat.pos_of_ne_zero hzero
      have hparent : parent i < i := BinaryHeap.parent_lt hpos
      have hp : parent i < l.length := by omega
      have hki := List.getElem?_eq_getElem hi
      have hkp := List.getElem?_eq_getElem hp
      have hbelow : Below (InOrder compare) l (parent i) i ↔ _ := inOrder_below hkp hki
      rw [← parent, keyAt_slots hki, ok_bind, keyAt_slots hkp, ok_bind]
      split_ifs with hlt
      · have hmove := h.move hcompare.inOrder hpos hi
          (Below.of_not hcompare.inOrder fun hnot => hbelow.1 hnot hlt)
        obtain ⟨l', hsift, hperm, hordered⟩ := ih (parent i) hparent hmove (by simpa using hp)
        refine ⟨l', ?_, hperm.trans (BinaryHeap.swap_perm l i (parent i)), hordered⟩
        rw [exchange_slots hi hp, ok_bind, ← hsift, BinaryHeap.length_swap]
      · exact ⟨l, rfl, List.Perm.refl l, h.finish fun _ => hbelow.2 hlt⟩

/-- The test of a child leaves the lesser of the two. -/
lemma smallerChild_spec (hcompare : TotalPreorder compare) {child : ℕ} (hchild : i < child)
    (hi : i < l.length) (smallest : Smallest i l.length) :
    ∃ smallest' : Smallest i l.length,
      smallerChild ⟨slots l m, l.length, compare⟩ child hchild smallest = .ok smallest' ∧
      (smallest'.1 = smallest.1 ∨ smallest'.1 = child) ∧
      Below (InOrder compare) l smallest' smallest ∧ Below (InOrder compare) l smallest' child := by
  have hrefl := Below.refl (hcompare.inOrder (A := A)) l
  have hs : smallest.1 < l.length := by
    rcases smallest.2 with h | h <;> omega
  rw [smallerChild]
  split_ifs with hlen
  · have hc : child < l.length := hlen
    have hks := List.getElem?_eq_getElem hs
    have hkc := List.getElem?_eq_getElem hc
    have hbelow : Below (InOrder compare) l smallest child ↔ _ := inOrder_below hks hkc
    rw [keyAt_slots hkc, ok_bind, keyAt_slots hks, ok_bind]
    split_ifs with hlt
    · exact ⟨_, rfl, .inr rfl, Below.of_not hcompare.inOrder fun h => hbelow.1 h hlt, hrefl child⟩
    · exact ⟨_, rfl, .inl rfl, hrefl smallest, hbelow.2 hlt⟩
  · refine ⟨smallest, rfl, .inl rfl, hrefl smallest, fun a ha b hb => ?_⟩
    exact absurd (List.getElem?_eq_some_iff.1 hb).1 hlen

/-- Sifting down ends with a heap of the same pairs. -/
lemma pqSiftDown_spec (hcompare : TotalPreorder compare) (h : DownOrder (InOrder compare) l i)
    (hi : i < l.length) :
    ∃ l', pqSiftDown ⟨slots l m, l.length, compare⟩ i = .ok ⟨slots l' m, l'.length, compare⟩ ∧
      l'.Perm l ∧ Ordered (InOrder compare) l' := by
  induction hn : l.length - i using Nat.strongRecOn generalizing l i with
  | _ n ih =>
    obtain ⟨s, hs, hs_eq, hs_i, hs_left⟩ :=
      smallerChild_spec (m := m) hcompare (show i < 2 * i + 1 by omega) hi ⟨i, .inl rfl⟩
    obtain ⟨s', hs', hs'_eq, hs'_s, hs'_right⟩ :=
      smallerChild_spec (m := m) hcompare (show i < 2 * i + 2 by omega) hi s
    have hslen : s.1 < l.length := by
      rcases s.2 with h | h <;> omega
    have hs'_i := hs'_s.trans hcompare.inOrder hslen hs_i
    have hs'_left := hs'_s.trans hcompare.inOrder hslen hs_left
    have hmin (k : ℕ) (hpos : 0 < k) (hk : parent k = i) : Below (InOrder compare) l s' k := by
      rcases (BinaryHeap.parent_eq_iff hpos).1 hk with rfl | rfl
      · exact hs'_left
      · exact hs'_right
    rw [pqSiftDown, hs, ok_bind, hs', ok_bind]
    split_ifs with hne
    · obtain ⟨hlt, hlen⟩ := s'.2.resolve_left hne
      have hparent : parent s'.1 = i := by
        refine (BinaryHeap.parent_eq_iff (by omega)).2 ?_
        rcases hs'_eq with heq | heq
        · rcases hs_eq with heq' | heq'
          · exact absurd (heq.trans heq') hne
          · exact .inl (heq.trans heq')
        · exact .inr heq
      have hmove := h.move (by omega) hlen hparent hs'_i fun k hpos hk _ => hmin k hpos hk
      obtain ⟨l', hsift, hperm, hordered⟩ := ih (l.length - s'.1) (by omega) hmove
        (by simpa using hlen) (by rw [BinaryHeap.length_swap])
      refine ⟨l', ?_, hperm.trans (BinaryHeap.swap_perm l i s'), hordered⟩
      rw [exchange_slots hi hlen, ok_bind, ← hsift, BinaryHeap.length_swap]
    · rw [not_not] at hne
      refine ⟨l, rfl, List.Perm.refl l, h.finish fun k hpos hk => ?_⟩
      rw [← hne]
      exact hmin k hpos hk

/-! ## Calls -/

lemma pqPush_spec (hcompare : TotalPreorder compare) (h : Holds compare pq l) (key : K) (item : A) :
    ∃ pq' l', pqPush pq key item = .ok pq' ∧ Holds compare pq' l' ∧ l'.Perm ((key, item) :: l) := by
  obtain ⟨m, rfl⟩ := h.eq
  obtain ⟨m', hensure⟩ := pqEnsureCapacity_slots l m compare
  have hup := h.ordered.concat (key, item)
  obtain ⟨l', hsift, hperm, hordered⟩ :=
    pqSiftUp_spec (m := m' + 1) hcompare hup (by simp)
  refine ⟨_, l', ?_, ⟨⟨m', rfl⟩, hordered⟩, hperm.trans (List.perm_append_singleton _ l)⟩
  have hset := vectorSet_slots_length l (m' + 1) (key, item)
  rw [List.length_append, List.length_singleton] at hsift
  simp only [pqPush, hensure, ok_bind, hset, hsift]

lemma pqPop_nil (h : Holds compare pq ([] : List (K × A))) :
    pqPop pq = .error (.raised ⟨"pq-pop!: priority queue is empty", []⟩) := by
  obtain ⟨m, rfl⟩ := h.eq
  rfl

lemma pqPop_spec (hcompare : TotalPreorder compare) (h : Holds compare pq (e :: l)) :
    ∃ pq' l', pqPop pq = .ok (some e, pq') ∧ Holds compare pq' l' ∧ l'.Perm l := by
  obtain ⟨m, rfl⟩ := h.eq
  have htop : vectorRef (slots (e :: l) (m + 1)) 0 = .ok (some e) := vectorRef_slots rfl
  rcases List.eq_nil_or_concat' l with rfl | ⟨mid, z, rfl⟩
  · exact ⟨_, [], rfl, ⟨⟨m + 1, rfl⟩, (holds_makePq compare).ordered⟩, List.Perm.refl []⟩
  · have hlast : vectorRef (slots (e :: (mid ++ [z])) (m + 1)) (mid.length + 1) = .ok (some z) :=
      vectorRef_slots (by simp)
    have hset : vectorSet (slots (e :: (mid ++ [z])) (m + 1)) 0 (some z) =
        .ok (slots (z :: mid ++ [z]) (m + 1)) := vectorSet_slots (by simp) z
    have hclear := vectorSet_slots_last (z :: mid) z (m + 1)
    have hsize : (e :: (mid ++ [z])).length - 1 = (z :: mid).length := by simp
    rw [pqPop, if_neg (by simp [pqEmpty]), htop, ok_bind]
    simp only [hsize]
    rw [List.length_cons, hlast, ok_bind, hset, ok_bind, ← List.length_cons (a := z), hclear, ok_bind]
    split_ifs with hmany
    · obtain ⟨l', hsift, hperm, hordered⟩ :=
        pqSiftDown_spec (m := m + 2) hcompare h.ordered.replaceRoot (Nat.succ_pos mid.length)
      refine ⟨_, l', ?_, ⟨⟨m + 1, rfl⟩, hordered⟩,
        hperm.trans (List.perm_append_singleton z mid).symm⟩
      rw [hsift]
      rfl
    · obtain rfl : mid = [] := List.eq_nil_of_length_eq_zero (by simpa using hmany)
      refine ⟨_, [z], rfl, ⟨⟨m + 1, rfl⟩, ?_⟩, List.Perm.refl [z]⟩
      exact h.ordered.replaceRoot.finish fun i hpos _ a _ b hb => by
        obtain ⟨i, rfl⟩ := Nat.exists_eq_succ_of_ne_zero (Nat.ne_of_gt hpos)
        cases hb

/-- Sequences of calls serve the multiset of the pairs. -/
lemma pqCalls_spec (hcompare : TotalPreorder compare) (h : Holds compare pq l)
    (cs : List (Call K A)) :
    ∃ outcomes pq' l', pqCalls pq cs = .ok (outcomes, pq') ∧ Holds compare pq' l' ∧
      Serves compare (l : Multiset (K × A)) cs outcomes (l' : Multiset (K × A)) := by
  induction cs generalizing pq l with
  | nil => exact ⟨[], pq, l, rfl, h, .done _⟩
  | cons c cs ih =>
    cases c with
    | push key item =>
      obtain ⟨pq₁, l₁, hpush, h₁, hperm⟩ := pqPush_spec hcompare h key item
      obtain ⟨outcomes, pq₂, l₂, hcalls, h₂, hserves⟩ := ih h₁
      rw [Multiset.coe_eq_coe.2 hperm, ← Multiset.cons_coe] at hserves
      refine ⟨.pushed :: outcomes, pq₂, l₂, ?_, h₂, .push key item hserves⟩
      simp only [pqCalls, pqCall, hpush, ok_bind, pure_eq_ok, hcalls]
    | pop =>
      cases l with
      | nil =>
        obtain ⟨outcomes, pq₂, l₂, hcalls, h₂, hserves⟩ := ih h
        refine ⟨_ :: outcomes, pq₂, l₂, ?_, h₂, .empty hserves⟩
        simp only [pqCalls, pqCall, pqPop_nil h, ok_bind, pure_eq_ok, hcalls]
      | cons top l =>
        obtain ⟨pq₁, l₁, hpop, h₁, hperm⟩ := pqPop_spec hcompare h
        obtain ⟨outcomes, pq₂, l₂, hcalls, h₂, hserves⟩ := ih h₁
        rw [Multiset.coe_eq_coe.2 hperm] at hserves
        refine ⟨.popped (some top) :: outcomes, pq₂, l₂, ?_, h₂, ?_⟩
        · simp only [pqCalls, pqCall, hpop, ok_bind, pure_eq_ok, hcalls]
        · rw [← Multiset.cons_coe]
          exact .pop top (h.least hcompare) hserves

end order

/-- What calls push is there or has been popped. -/
lemma Serves.balance [Zero ν] [LT ν] {compare : K → K → ν} {s s' : Multiset (K × A)}
    {cs : List (Call K A)} {outcomes : List (Outcome K A)} (h : Serves compare s cs outcomes s') :
    s' + popped outcomes = s + pushed cs := by
  induction h with
  | done s => rfl
  | push key item h ih => rw [popped, ih, pushed, Multiset.cons_add, Multiset.add_cons]
  | pop top hmin h ih => rw [popped, Multiset.add_cons, ih, pushed, Multiset.cons_add]
  | empty h ih => rw [popped, ih, pushed]

/-- Numbers compare by their difference. -/
lemma totalPreorder_default [AddCommGroup K] [LinearOrder K] [IsOrderedAddMonoid K] :
    TotalPreorder (defaultCompare : K → K → K) where
  asymm h := by
    simp only [defaultCompare, sub_lt_zero] at h ⊢
    exact h.asymm
  trans h h' := by
    simp only [defaultCompare, sub_lt_zero, not_lt] at h h' ⊢
    exact h.trans h'

/-- Every call on a queue that starts empty returns, a pop with a pair that no other comes before,
and leaves the pairs that were pushed and not popped in heap order. -/
theorem priority_queue [Zero ν] [LT ν] [DecidableLT ν] (compare : K → K → ν)
    (hcompare : TotalPreorder compare) (calls : List (Call K A)) :
    ∃ outcomes pq, pqCalls (makePq compare) calls = .ok (outcomes, pq) ∧ HeapOrdered pq ∧
      stored pq + popped outcomes = pushed calls ∧ Serves compare 0 calls outcomes (stored pq) := by
  obtain ⟨outcomes, pq, l, hcalls, h, hserves⟩ :=
    pqCalls_spec hcompare (holds_makePq compare) calls
  rw [← h.stored_eq] at hserves
  refine ⟨outcomes, pq, hcalls, h.heapOrdered, ?_, hserves⟩
  rw [hserves.balance]
  exact Multiset.zero_add _

/-- Three pushes with two equal keys, two pops and a push. -/
theorem priority_queue_ties : ∃ outcomes pq, pqCalls (makePq (defaultCompare : ℤ → ℤ → ℤ))
      [.push 2 'b', .push 1 'a', .push 1 'c', .pop, .pop, .push 0 'd'] = .ok (outcomes, pq) ∧
    HeapOrdered pq ∧
    stored pq + popped outcomes = pushed
      [.push 2 'b', .push 1 'a', .push 1 'c', .pop, .pop, .push 0 'd'] ∧
    Serves defaultCompare 0 [.push 2 'b', .push 1 'a', .push 1 'c', .pop, .pop, .push 0 'd']
      outcomes (stored pq) :=
  priority_queue defaultCompare totalPreorder_default _

end PriorityQueue
