import Eshkol.Hash.Keys

/-!
# Equal keys hash alike

`hash_keys_equal` follows values that `hash_tagged_value` sees differently at three kinds of leaf:
the two zeros of the doubles, the two zeros of the bignums, and the words of two empty lists. Away
from these, keys that are equal hash alike.
-/

namespace Hash

/-! ## Values of one memory -/

/-- What lies at an address. -/
inductive Cell where
  | leaf (obj : LeafObj)
  | pair (car cdr : Value)
  | vector (elems : List Value)

mutual

/-- Every pointer of the value leads to what the memory holds there. -/
def Value.In (mem : UInt64 → Cell) : Value → Prop
  | .leaf (.heap addr obj) => mem addr = .leaf obj
  | .leaf (.stringPtr addr bytes) => mem addr = .leaf (.string bytes)
  | .leaf _ => True
  | .pair _ addr car cdr => mem addr = .pair car cdr ∧ car.In mem ∧ cdr.In mem
  | .vector addr elems => mem addr = .vector elems ∧ elemsIn mem elems

def elemsIn (mem : UInt64 → Cell) : List Value → Prop
  | [] => True
  | v :: vs => v.In mem ∧ elemsIn mem vs

end

/-- One pointer, one value. -/
lemma eq_of_samePtr {mem : UInt64 → Cell} {a b : Value} (ha : a.In mem) (hb : b.In mem)
    (h : samePtr a b = true) : a = b := by
  rcases a with (_ | _ | _ | _) | ⟨_ | _, _, _, _⟩ | _ <;>
    rcases b with (_ | _ | _ | _) | ⟨_ | _, _, _, _⟩ | _ <;>
    simp [samePtr, Value.heapAddr?] at h <;>
    subst h <;> simp_all [Value.In]

/-! ## Leaves -/

/-- The two leaves are no zeros of different sign and no empty lists with different words. -/
def Leaf.SameZero : Leaf → Leaf → Prop
  | .imm .null data, .imm .null data' => data = data'
  | .imm .double data, .imm .double data' =>
    isZeroDouble data = true → isZeroDouble data' = true → data = data'
  | .heap _ (.bignum n), .heap _ (.bignum n') =>
    n.isZero = true → n'.isZero = true → n.negative = n'.negative
  | _, _ => True

lemma Bignum.compareLimbs_eq {as bs : List UInt64} (hlen : as.length = bs.length)
    (h : compareLimbs as bs = .eq) : as = bs := by
  induction as generalizing bs with
  | nil => exact (List.length_eq_zero_iff.1 hlen.symm).symm
  | cons a as ih =>
    cases bs with
    | nil => cases hlen
    | cons b bs =>
      rw [compareLimbs] at h
      by_cases hab : a = b
      · rw [if_neg (not_not.2 hab)] at h
        rw [hab, ih (by simpa using hlen) h]
      · rw [if_pos hab] at h
        split at h <;> cases h

lemma Bignum.compareAbs_eq {a b : Bignum} (h : compareAbs a b = .eq) : a.limbs = b.limbs := by
  rw [compareAbs] at h
  by_cases hlen : a.limbs.length = b.limbs.length
  · rw [if_neg (not_not.2 hlen)] at h
    exact List.reverse_injective (compareLimbs_eq (by simpa using hlen) h)
  · rw [if_pos hlen] at h
    split at h <;> cases h

/-- Bignums compare equal only when they are the same, or both zero. -/
lemma Bignum.compare_eq {a b : Bignum} (h : a.compare b = .eq)
    (hzero : a.isZero = true → b.isZero = true → a.negative = b.negative) : a = b := by
  rw [Bignum.compare] at h
  by_cases hsign : a.negative = b.negative
  · rw [if_neg (not_not.2 hsign)] at h
    have hlimbs : a.limbs = b.limbs := by
      cases hneg : a.negative <;> simp only [hneg] at h
      · exact compareAbs_eq h
      · exact compareAbs_eq (Ordering.swap_eq_eq.1 h)
    cases a
    cases b
    simp_all
  · rw [if_pos hsign] at h
    by_cases hboth : (a.isZero && b.isZero) = true
    · simp only [Bool.and_eq_true] at hboth
      exact absurd (hzero hboth.1 hboth.2) hsign
    · rw [if_neg hboth] at h
      split at h <;> cases h

lemma doubleEqual_eq {a b : UInt64} (h : doubleEqual a b = true)
    (hzero : isZeroDouble a = true → isZeroDouble b = true → a = b) : a = b := by
  simp only [doubleEqual, Bool.and_eq_true, Bool.or_eq_true, beq_iff_eq] at h
  obtain ⟨-, hab | ⟨ha, hb⟩⟩ := h
  · exact hab
  · exact hzero ha hb

lemma strcmpEqual_iff {s s' : List UInt8} : strcmpEqual s s' = true ↔ cString s = cString s' := by
  simp [strcmpEqual]

lemma LeafObj.hash_eq {p p' : UInt64} {obj obj' : LeafObj}
    (hzero : (Leaf.heap p obj).SameZero (.heap p' obj')) (h : obj.keysEqual obj' = true) :
    (Leaf.heap p obj).hash = (Leaf.heap p' obj').hash := by
  cases obj with
  | string s =>
    cases obj' with
    | string s' =>
      have hs : cString s = cString s' := strcmpEqual_iff.1 h
      simp [Leaf.hash, Leaf.type, fnv1aHashString, hs]
    | _ => cases h
  | bignum n =>
    cases obj' with
    | bignum n' =>
      have hn : n.compare n' = .eq := by simpa [LeafObj.keysEqual] using h
      obtain rfl := Bignum.compare_eq hn hzero
      rfl
    | _ => cases h
  | _ => cases obj' <;> cases h

lemma Leaf.hash_eq {mem : UInt64 → Cell} {a b : Leaf} (ha : (Value.leaf a).In mem)
    (hb : (Value.leaf b).In mem) (hzero : a.SameZero b) (h : a.keysEqual b = true) :
    a.hash = b.hash := by
  cases a with
  | imm t data =>
    cases b with
    | imm t' data' =>
      simp only [Leaf.keysEqual, Bool.and_eq_true, beq_iff_eq] at h
      obtain ⟨rfl, hdata⟩ := h
      have heq : data = data' := by
        cases t with
        | double => exact doubleEqual_eq hdata hzero
        | null => exact hzero
        | _ => simpa using hdata
      rw [heq]
    | _ => cases h
  | nullPtr t =>
    cases b with
    | nullPtr t' =>
      have : t = t' := by simpa [Leaf.keysEqual] using h
      rw [this]
    | _ => cases h
  | heap p obj =>
    cases b with
    | heap p' obj' => exact LeafObj.hash_eq hzero h
    | _ => cases h
  | stringPtr p s =>
    cases b with
    | stringPtr p' s' =>
      have hs : cString s = cString s' := by
        simp only [Leaf.keysEqual, Bool.or_eq_true, beq_iff_eq] at h
        obtain rfl | h := h
        · simp only [Value.In] at ha hb
          rw [ha] at hb
          cases hb
          rfl
        · exact strcmpEqual_iff.1 h
      simp [Leaf.hash, Leaf.type, fnv1aHashString, hs]
    | _ => cases h

/-! ## Values -/

mutual

/-- Corresponding leaves of the two values are no zeros of different sign and no empty lists with
different words. -/
def SameZeros : Value → Value → Prop
  | .leaf a, .leaf b => a.SameZero b
  | .pair _ _ carA cdrA, .pair _ _ carB cdrB => SameZeros carA carB ∧ SameZeros cdrA cdrB
  | .vector _ ea, .vector _ eb => elemsSameZeros ea eb
  | _, _ => True

def elemsSameZeros : List Value → List Value → Prop
  | a :: as, b :: bs => SameZeros a b ∧ elemsSameZeros as bs
  | _, _ => True

end

mutual

/-- Equal keys with the same zeros hash alike. -/
theorem hash_eq_of_keysEqual {mem : UInt64 → Cell} :
    ∀ {a b : Value}, a.In mem → b.In mem → SameZeros a b → hashKeysEqual a b = true →
      hashTaggedValue a = hashTaggedValue b := by
  intro a b ha hb hzero h
  by_cases hptr : samePtr a b = true
  · rw [eq_of_samePtr ha hb hptr]
  match a, b with
  | .leaf a, .leaf b =>
    simp only [hashKeysEqual, hptr, Bool.false_or] at h
    exact Leaf.hash_eq ha hb hzero h
  | .pair false p carA cdrA, .pair false q carB cdrB =>
    have hpq : (p == q) = false := by simpa [samePtr, Value.heapAddr?] using hptr
    simp only [hashKeysEqual, hpq, Bool.false_or, Bool.and_eq_true] at h
    have hcar := hash_eq_of_keysEqual ha.2.1 hb.2.1 hzero.1 h.1
    have hcdr := hash_eq_of_keysEqual ha.2.2 hb.2.2 hzero.2 h.2
    rw [hashTaggedValue, hashTaggedValue, hcar, hcdr]
  | .pair true p _ _, .pair true q _ _ =>
    have hpq : p = q := by simpa [hashKeysEqual] using h
    rw [hashTaggedValue, hashTaggedValue, hpq]
  | .vector p ea, .vector q eb =>
    have hpq : (p == q) = false := by simpa [samePtr, Value.heapAddr?] using hptr
    simp only [hashKeysEqual, hpq, Bool.false_or, Bool.and_eq_true, beq_iff_eq] at h
    rw [hashTaggedValue, hashTaggedValue, elemHashes_eq ha.2 hb.2 hzero h.1 h.2]
  | .pair false _ _ _, .pair true _ _ _ => exact absurd h hptr
  | .pair true _ _ _, .pair false _ _ _ => exact absurd h hptr
  | .leaf _, .pair _ _ _ _ => exact absurd h hptr
  | .leaf _, .vector _ _ => exact absurd h hptr
  | .pair legacy _ _ _, .leaf _ => cases legacy <;> exact absurd h hptr
  | .pair legacy _ _ _, .vector _ _ => cases legacy <;> exact absurd h hptr
  | .vector _ _, .leaf _ => exact absurd h hptr
  | .vector _ _, .pair _ _ _ _ => exact absurd h hptr

theorem elemHashes_eq {mem : UInt64 → Cell} :
    ∀ {as bs : List Value}, elemsIn mem as → elemsIn mem bs → elemsSameZeros as bs →
      as.length = bs.length → elemsKeysEqual as bs = true → elemHashes as = elemHashes bs := by
  intro as bs ha hb hzero hlen h
  match as, bs with
  | [], [] => rfl
  | a :: as, b :: bs =>
    simp only [elemsKeysEqual, Bool.and_eq_true] at h
    have hhead := hash_eq_of_keysEqual ha.1 hb.1 hzero.1 h.1
    have htail := elemHashes_eq ha.2 hb.2 hzero.2 (by simpa using hlen) h.2
    rw [elemHashes, elemHashes, hhead, htail]
  | [], _ :: _ => cases hlen
  | _ :: _, [] => cases hlen

end

/-- The two values are keys of one memory without zeros of different sign, or empty lists with
different words, at corresponding leaves: if they are equal keys, they hash alike. -/
theorem hashTaggedValue_coherent (mem : UInt64 → Cell) (a b : Value) (ha : a.In mem)
    (hb : b.In mem) (hzero : SameZeros a b) (h : hashKeysEqual a b = true) :
    hashTaggedValue a = hashTaggedValue b :=
  hash_eq_of_keysEqual ha hb hzero h

/-- The list of one string. -/
def stringList (p s : UInt64) : Value :=
  .pair false p (.leaf (.heap s (.string [104, 105]))) (.leaf (.imm .null 0))

/-- A memory with that list at two places. -/
def twoLists (addr : UInt64) : Cell :=
  if addr = 8 then .pair (.leaf (.heap 24 (.string [104, 105]))) (.leaf (.imm .null 0))
  else if addr = 16 then .pair (.leaf (.heap 32 (.string [104, 105]))) (.leaf (.imm .null 0))
  else .leaf (.string [104, 105])

theorem hashTaggedValue_coherent_lists :
    (stringList 8 24).In twoLists ∧ (stringList 16 32).In twoLists ∧
      SameZeros (stringList 8 24) (stringList 16 32) ∧
      hashKeysEqual (stringList 8 24) (stringList 16 32) = true ∧
      hashTaggedValue (stringList 8 24) = hashTaggedValue (stringList 16 32) := by
  have ha : (stringList 8 24).In twoLists := ⟨rfl, rfl, trivial⟩
  have hb : (stringList 16 32).In twoLists := ⟨rfl, rfl, trivial⟩
  have hzero : SameZeros (stringList 8 24) (stringList 16 32) := ⟨trivial, rfl⟩
  have h : hashKeysEqual (stringList 8 24) (stringList 16 32) = true := by decide
  exact ⟨ha, hb, hzero, h, hashTaggedValue_coherent twoLists _ _ ha hb hzero h⟩

/-- `0.0` and `-0.0` are equal keys, and hash apart. -/
theorem signedZeros_incoherent :
    hashKeysEqual (.leaf (.imm .double 0)) (.leaf (.imm .double 0x8000000000000000)) = true ∧
      hashTaggedValue (.leaf (.imm .double 0)) ≠
        hashTaggedValue (.leaf (.imm .double 0x8000000000000000)) := by
  decide

end Hash
