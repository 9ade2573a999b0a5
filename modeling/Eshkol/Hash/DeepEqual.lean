import Eshkol.Hash.Coherence
import Mathlib.Data.Int.Notation

/-!
# `equal?` and the keys of a table

`eshkol_deep_equal` compares what values mean: a small bignum equals the integer, a rational equals
a copy of it, a string of either pointer type its bytes. `hash_keys_equal` compares the same
meanings, and beyond them how they are represented.
-/

namespace Hash

/-! ## `eshkol_deep_equal` -/

/-- `(double)n`, rounded to the nearest even, by its bits. -/
def doubleOfInt64 (n : Int64) : UInt64 :=
  let m := n.toInt.natAbs
  let e := m.log2
  -- 53 bits, the leading one included
  let mantissa :=
    if e ≤ 52 then m <<< (52 - e)
    else
      let q := m >>> (e - 52)
      let r := m - q <<< (e - 52)
      let half := 1 <<< (e - 53)
      if half < r ∨ (r = half ∧ q % 2 = 1) then q + 1 else q
  if m = 0 then 0
  else
    let bits := (e + 1023) <<< 52 + (mantissa - 1 <<< 52)
    UInt64.ofNat (if n.toInt < 0 then 1 <<< 63 + bits else bits)

/-- `is_empty_list`. -/
def Leaf.isEmptyList : Leaf → Bool
  | .imm t _ => t == .null
  | .nullPtr t => t == .heapPtr || t == .consPtr
  | .heap _ _ => false
  | .stringPtr _ _ => false

/-- Two words that are no pointers: integers and doubles mix, other types must agree. -/
def immDeepEqual (t t' : ImmType) (x y : UInt64) : Bool :=
  match t, t' with
  | .int64, .double => doubleEqual (doubleOfInt64 x.toInt64) y
  | .double, .int64 => doubleEqual x (doubleOfInt64 y.toInt64)
  | .double, .double => doubleEqual x y
  | _, _ => t == t' && x == y

/-- Two heap objects at `p` and `q`. -/
def LeafObj.deepEqual (p q : UInt64) : LeafObj → LeafObj → Bool
  | .string s, .string s' => p == q || strcmpEqual s s'
  | .symbol s, .symbol s' => p == q || strcmpEqual s s'
  | .bignum m, .bignum n => m.compare n == .eq
  | .rational r, .rational r' => r.equal r'
  | _, _ => p == q

/-- A heap object against a word. -/
def LeafObj.deepEqualImm : LeafObj → ImmType → UInt64 → Bool
  | .bignum n, .int64, x => n.compareInt64 x.toInt64 == .eq
  | _, _, _ => false

/-- A heap object at `p` against a string of the deprecated type at `q`. -/
def LeafObj.deepEqualString (p q : UInt64) : LeafObj → List UInt8 → Bool
  | .string s, s' => p == q || strcmpEqual s s'
  | _, _ => false

/-- Two leaves that are not the empty list. -/
def Leaf.deepEqualNonempty : Leaf → Leaf → Bool
  | .imm t x, .imm t' y => immDeepEqual t t' x y
  | .heap _ obj, .imm t x => obj.deepEqualImm t x
  | .imm t x, .heap _ obj => obj.deepEqualImm t x
  | .heap p obj, .heap q obj' => obj.deepEqual p q obj'
  | .heap p obj, .stringPtr q s => obj.deepEqualString p q s
  | .stringPtr p s, .heap q obj => obj.deepEqualString q p s
  | .stringPtr p s, .stringPtr q s' => p == q || strcmpEqual s s'
  | .nullPtr t, .nullPtr t' => t == t'
  | _, _ => false

def Leaf.deepEqual (a b : Leaf) : Bool :=
  if a.isEmptyList && b.isEmptyList then true
  else if a.isEmptyList || b.isEmptyList then false
  else a.deepEqualNonempty b

mutual

def deepEqual : Value → Value → Bool
  | .leaf a, .leaf b => a.deepEqual b
  | .pair _ _ car₁ cdr₁, .pair _ _ car₂ cdr₂ => deepEqual car₁ car₂ && deepEqual cdr₁ cdr₂
  | .vector p elems₁, .vector q elems₂ =>
    p == q || (elems₁.length == elems₂.length && elemsDeepEqual elems₁ elems₂)
  | a, b => samePtr a b

def elemsDeepEqual : List Value → List Value → Bool
  | a :: as, b :: bs => deepEqual a b && elemsDeepEqual as bs
  | _, _ => true

end

/-! ## Meanings -/

/-- An integer. Bignums of more than one limb are compared limb by limb, leading zeros included. -/
inductive Number where
  | int (n : ℤ)
  | limbs (negative : Bool) (limbs : List UInt64)
deriving DecidableEq

def Bignum.number (a : Bignum) : Number :=
  match a.limbs with
  | [limb] => .int (if a.negative then -(limb.toNat : ℤ) else limb.toNat)
  | limbs => .limbs a.negative limbs

inductive LeafMeaning where
  | nil
  | number (n : Number)
  | smallRatio (numerator denominator : Int64)
  | bigRatio (numerator denominator : Number)
  | string (bytes : List UInt8)
  | nullString
  | symbol (name : List UInt8)
  | word (type : ImmType) (data : UInt64)
  | object (addr : UInt64)
deriving DecidableEq

inductive Meaning where
  | leaf (l : LeafMeaning)
  | pair (car cdr : Meaning)
  | vector (elems : List Meaning)

def Leaf.meaning : Leaf → LeafMeaning
  | .imm .null _ => .nil
  | .imm .int64 data => .number (.int data.toInt64.toInt)
  | .imm t data => .word t data
  | .nullPtr .stringPtr => .nullString
  | .nullPtr _ => .nil
  | .heap _ (.string s) => .string (cString s)
  | .heap _ (.symbol s) => .symbol (cString s)
  | .heap _ (.bignum n) => .number n.number
  | .heap _ (.rational (.small n d)) => .smallRatio n d
  | .heap _ (.rational (.big n d)) => .bigRatio n.number d.number
  | .heap addr (.other _) => .object addr
  | .stringPtr _ s => .string (cString s)

mutual

def Value.meaning : Value → Meaning
  | .leaf l => .leaf l.meaning
  | .pair _ _ car cdr => .pair car.meaning cdr.meaning
  | .vector _ elems => .vector (elemMeanings elems)

def elemMeanings : List Value → List Meaning
  | [] => []
  | v :: vs => v.meaning :: elemMeanings vs

end

/-! ### Integers -/

namespace Bignum

lemma compareLimbs_self (limbs : List UInt64) : compareLimbs limbs limbs = .eq := by
  induction limbs with
  | nil => rfl
  | cons limb limbs ih => simp [compareLimbs, ih]

lemma compare_self (a : Bignum) : a.compare a = .eq := by
  have habs : compareAbs a a = .eq := by simp [compareAbs, compareLimbs_self]
  cases hneg : a.negative <;> simp [compare, hneg, habs]

lemma compare_of_isZero {a b : Bignum} (ha : a.isZero = true) (hb : b.isZero = true) :
    a.compare b = .eq := by
  by_cases hsign : a.negative = b.negative
  · have hab : a = b := by
      cases a
      cases b
      simp_all [isZero]
    rw [hab, compare_self]
  · simp [compare, hsign, ha, hb]

lemma number_of_isZero {a : Bignum} (ha : a.isZero = true) : a.number = .int 0 := by
  have hlimbs : a.limbs = [0] := by simpa [isZero] using ha
  simp [number, hlimbs]

/-- One limb and a sign name an integer, but for the two zeros. -/
lemma limb_injective {s s' : Bool} {l l' : UInt64}
    (h : (if s then -(l.toNat : ℤ) else l.toNat) = (if s' then -(l'.toNat : ℤ) else l'.toNat))
    (hzero : ¬(l = 0 ∧ l' = 0)) : s = s' ∧ l = l' := by
  have hl : l = 0 ↔ l.toNat = 0 := by rw [← UInt64.toNat_inj]; rfl
  have hl' : l' = 0 ↔ l'.toNat = 0 := by rw [← UInt64.toNat_inj]; rfl
  rw [← UInt64.toNat_inj]
  cases s <;> cases s' <;> simp only [if_true, Bool.false_eq_true, if_false] at h
  · exact ⟨rfl, by omega⟩
  · exact absurd ⟨hl.2 (by omega), hl'.2 (by omega)⟩ hzero
  · exact absurd ⟨hl.2 (by omega), hl'.2 (by omega)⟩ hzero
  · exact ⟨rfl, by omega⟩

lemma number_injective {a b : Bignum} (h : a.number = b.number)
    (hzero : ¬(a.isZero = true ∧ b.isZero = true)) : a = b := by
  obtain ⟨s, ls⟩ := a
  obtain ⟨s', ls'⟩ := b
  rcases ls with _ | ⟨l, _ | ⟨l₂, ls⟩⟩ <;> rcases ls' with _ | ⟨l', _ | ⟨l₂', ls'⟩⟩ <;>
    simp only [number, Number.limbs.injEq, Number.int.injEq, reduceCtorEq] at h
  · rw [h.1]
  · simp at h
  · have := limb_injective h (by simpa [isZero] using hzero)
    rw [this.1, this.2]
  · simp at h
  · rw [h.1, h.2]

lemma compare_eq_iff (a b : Bignum) : a.compare b = .eq ↔ a.number = b.number := by
  constructor
  · intro h
    by_cases hzero : a.isZero = true ∧ b.isZero = true
    · rw [number_of_isZero hzero.1, number_of_isZero hzero.2]
    · rw [compare_eq h fun ha hb => absurd ⟨ha, hb⟩ hzero]
  · intro h
    by_cases hzero : a.isZero = true ∧ b.isZero = true
    · exact compare_of_isZero hzero.1 hzero.2
    · rw [number_injective h hzero, compare_self]

lemma number_ofInt64 (n : Int64) : (ofInt64 n).number = .int n.toInt := by
  have hlo := n.le_toInt
  have hhi := n.toInt_lt
  by_cases hneg : n.toInt < 0
  · simp only [ofInt64, hneg, if_true, number, Nat.toUInt64, UInt64.toNat_ofNat', Number.int.injEq]
    omega
  · simp only [ofInt64, hneg, if_false, number, Nat.toUInt64, UInt64.toNat_ofNat', Number.int.injEq,
      Bool.false_eq_true]
    omega

lemma compare_ofInt64 (a : Bignum) (n : Int64) :
    a.compare (ofInt64 n) = .eq ↔ a.number = .int n.toInt := by
  rw [compare_eq_iff, number_ofInt64]

lemma compareInt64_eq_iff (a : Bignum) (n : Int64) :
    a.compareInt64 n = .eq ↔ a.number = .int n.toInt := by
  have hlo := n.le_toInt
  have hhi := n.toInt_lt
  obtain ⟨s, ls⟩ := a
  rcases ls with _ | ⟨l, _ | ⟨l₂, ls⟩⟩
  · exact compare_ofInt64 _ n
  · cases s with
    | false =>
      by_cases hn : 0 ≤ n.toInt
      · have hl : (n.toInt.toNat.toUInt64).toNat = n.toInt.toNat := by
          simp only [Nat.toUInt64, UInt64.toNat_ofNat']
          omega
        simp only [compareInt64, hn, if_true, number, Number.int.injEq, Bool.false_eq_true, if_false,
          UInt64.lt_iff_toNat_lt, hl]
        split
        · simp; omega
        · split
          · simp; omega
          · simp; omega
      · simp only [compareInt64, hn, if_false]
        exact compare_ofInt64 _ n
    | true =>
      by_cases hn : n.toInt < 0
      · have hl : ((-n.toInt).toNat.toUInt64).toNat = (-n.toInt).toNat := by
          simp only [Nat.toUInt64, UInt64.toNat_ofNat']
          omega
        simp only [compareInt64, hn, if_true, number, Number.int.injEq, UInt64.lt_iff_toNat_lt, hl]
        split
        · simp; omega
        · split
          · simp; omega
          · simp; omega
      · simp only [compareInt64, hn, if_false]
        exact compare_ofInt64 _ n
  · exact compare_ofInt64 _ n

end Bignum

/-! ## What the two comparisons decide -/

/-- An exact number, a string, a symbol, a character, a boolean or the empty list. -/
def Leaf.Exact : Leaf → Prop
  | .imm t _ => t ≠ .double ∧ t ≠ .callable ∧ t ≠ .logicVar
  | .heap _ (.other _) => False
  | _ => True

lemma Rational.equal_iff {p p' : UInt64} (q r : Rational) :
    q.equal r = true ↔ (Leaf.heap p (.rational q)).meaning = (Leaf.heap p' (.rational r)).meaning := by
  cases q <;> cases r <;> simp [Rational.equal, Leaf.meaning, Bignum.compare_eq_iff]

lemma int64_inj (x y : UInt64) : x.toInt64.toInt = y.toInt64.toInt ↔ x = y := by
  rw [Int64.toInt_inj]
  constructor
  · intro h
    rw [← UInt64.toUInt64_toInt64 x, h, UInt64.toUInt64_toInt64]
  · rintro rfl
    rfl

/-- Strings at one address are one string. -/
lemma stringEqual_iff {p q : UInt64} {s s' : List UInt8} (h : p = q → s = s') :
    (p == q || strcmpEqual s s') = true ↔ cString s = cString s' := by
  rw [Bool.or_eq_true, beq_iff_eq, strcmpEqual_iff]
  constructor
  · rintro (hpq | hs)
    · rw [h hpq]
    · exact hs
  · exact Or.inr

section memory
variable {mem : UInt64 → Cell} {p q : UInt64} {obj obj' : LeafObj}

/-- One address, one object. -/
lemma obj_eq_of_addr_eq (ha : (Value.leaf (.heap p obj)).In mem)
    (hb : (Value.leaf (.heap q obj')).In mem) (hpq : p = q) : obj = obj' := by
  subst hpq
  simp only [Value.In] at ha hb
  rw [ha] at hb
  cases hb
  rfl

lemma LeafObj.deepEqual_iff (ha : (Value.leaf (.heap p obj)).In mem)
    (hb : (Value.leaf (.heap q obj')).In mem) (heb : (Leaf.heap q obj').Exact) :
    obj.deepEqual p q obj' = true ↔ (Leaf.heap p obj).meaning = (Leaf.heap q obj').meaning := by
  have heq : p = q → obj = obj' := obj_eq_of_addr_eq ha hb
  have hstring : ∀ s s', obj = .string s → obj' = .string s' → p = q → s = s' := by
    rintro s s' rfl rfl hpq
    simpa using heq hpq
  have hsymbol : ∀ s s', obj = .symbol s → obj' = .symbol s' → p = q → s = s' := by
    rintro s s' rfl rfl hpq
    simpa using heq hpq
  cases obj <;> cases obj'
  case string.string s s' =>
    rw [LeafObj.deepEqual, stringEqual_iff (hstring s s' rfl rfl)]
    simp [Leaf.meaning]
  case symbol.symbol s s' =>
    rw [LeafObj.deepEqual, stringEqual_iff (hsymbol s s' rfl rfl)]
    simp [Leaf.meaning]
  case bignum.bignum => simp [LeafObj.deepEqual, Leaf.meaning, Bignum.compare_eq_iff]
  case rational.rational r r' => exact Rational.equal_iff r r'
  -- objects of different subtypes are at different addresses
  case other.other => exact heb.elim
  case rational.string r _ | rational.symbol r _ | rational.bignum r _ | rational.other r _ =>
    have hpq : p ≠ q := fun h => by cases heq h
    cases r <;> simp [LeafObj.deepEqual, Leaf.meaning, hpq]
  case string.rational r | symbol.rational r | bignum.rational r | other.rational r =>
    have hpq : p ≠ q := fun h => by cases heq h
    cases r <;> simp [LeafObj.deepEqual, Leaf.meaning, hpq]
  all_goals
    have hpq : p ≠ q := fun h => by cases heq h
    simp [LeafObj.deepEqual, Leaf.meaning, hpq]

end memory

lemma Leaf.isEmptyList_iff (a : Leaf) : a.isEmptyList = true ↔ a.meaning = .nil := by
  cases a with
  | imm t x => cases t <;> simp [Leaf.isEmptyList, Leaf.meaning]
  | nullPtr t => cases t <;> simp [Leaf.isEmptyList, Leaf.meaning]
  | heap p obj =>
    rcases obj with _ | _ | _ | (_ | _) | _ <;> simp [Leaf.isEmptyList, Leaf.meaning]
  | stringPtr p s => simp [Leaf.isEmptyList, Leaf.meaning]

lemma immDeepEqual_iff {t t' : ImmType} {x y : UInt64} (hea : (Leaf.imm t x).Exact)
    (heb : (Leaf.imm t' y).Exact) (ha : t ≠ .null) :
    immDeepEqual t t' x y = true ↔ (Leaf.imm t x).meaning = (Leaf.imm t' y).meaning := by
  cases t <;> cases t' <;>
    simp_all [immDeepEqual, Leaf.meaning, Leaf.Exact, int64_inj]

lemma LeafObj.deepEqualImm_iff {obj : LeafObj} {p : UInt64} {t : ImmType} {x : UInt64}
    (ht : t ≠ .null) :
    obj.deepEqualImm t x = true ↔ (Leaf.heap p obj).meaning = (Leaf.imm t x).meaning := by
  rcases obj with _ | _ | _ | (_ | _) | _ <;> cases t <;>
    simp_all [LeafObj.deepEqualImm, Leaf.meaning, Bignum.compareInt64_eq_iff]

lemma LeafObj.deepEqualString_iff {mem : UInt64 → Cell} {obj : LeafObj} {p q : UInt64}
    {s : List UInt8} (ha : (Value.leaf (.heap p obj)).In mem)
    (hb : (Value.leaf (.stringPtr q s)).In mem) :
    obj.deepEqualString p q s = true ↔
      (Leaf.heap p obj).meaning = (Leaf.stringPtr q s).meaning := by
  have heq : p = q → obj = .string s :=
    obj_eq_of_addr_eq ha (show (Value.leaf (.heap q (.string s))).In mem from hb)
  cases obj with
  | string s' =>
    rw [LeafObj.deepEqualString, stringEqual_iff fun h => by simpa using heq h]
    simp [Leaf.meaning]
  | rational r => cases r <;> simp [LeafObj.deepEqualString, Leaf.meaning]
  | _ => simp [LeafObj.deepEqualString, Leaf.meaning]

lemma Leaf.deepEqualNonempty_iff {mem : UInt64 → Cell} {a b : Leaf} (ha : (Value.leaf a).In mem)
    (hb : (Value.leaf b).In mem) (hea : a.Exact) (heb : b.Exact) (hna : a.isEmptyList = false)
    (hnb : b.isEmptyList = false) :
    a.deepEqualNonempty b = true ↔ a.meaning = b.meaning := by
  have hnull : ∀ {t x}, (Leaf.imm t x).isEmptyList = false → t ≠ .null := by
    rintro t x h rfl
    cases h
  have hptr : ∀ {t}, (Leaf.nullPtr t).isEmptyList = false → t = .stringPtr := by
    intro t h
    cases t <;> first | rfl | cases h
  cases a with
  | imm t x =>
    cases b with
    | imm t' y => exact immDeepEqual_iff hea heb (hnull hna)
    | nullPtr t' =>
      obtain rfl := hptr hnb
      cases t <;> simp_all [Leaf.deepEqualNonempty, Leaf.meaning, Leaf.isEmptyList]
    | heap q obj =>
      rw [Leaf.deepEqualNonempty, LeafObj.deepEqualImm_iff (hnull hna), eq_comm]
    | stringPtr q s =>
      cases t <;> simp_all [Leaf.deepEqualNonempty, Leaf.meaning, Leaf.isEmptyList]
  | nullPtr t =>
    obtain rfl := hptr hna
    cases b with
    | imm t' y => cases t' <;> simp_all [Leaf.deepEqualNonempty, Leaf.meaning, Leaf.isEmptyList]
    | nullPtr t' =>
      obtain rfl := hptr hnb
      simp [Leaf.deepEqualNonempty, Leaf.meaning]
    | heap q obj =>
      rcases obj with _ | _ | _ | (_ | _) | _ <;> simp [Leaf.deepEqualNonempty, Leaf.meaning]
    | stringPtr q s => simp [Leaf.deepEqualNonempty, Leaf.meaning]
  | heap p obj =>
    cases b with
    | imm t' y => exact LeafObj.deepEqualImm_iff (hnull hnb)
    | nullPtr t' =>
      obtain rfl := hptr hnb
      rcases obj with _ | _ | _ | (_ | _) | _ <;> simp [Leaf.deepEqualNonempty, Leaf.meaning]
    | heap q obj' => exact LeafObj.deepEqual_iff ha hb heb
    | stringPtr q s => exact LeafObj.deepEqualString_iff ha hb
  | stringPtr p s =>
    cases b with
    | imm t' y => cases t' <;> simp_all [Leaf.deepEqualNonempty, Leaf.meaning, Leaf.isEmptyList]
    | nullPtr t' =>
      obtain rfl := hptr hnb
      simp [Leaf.deepEqualNonempty, Leaf.meaning]
    | heap q obj =>
      rw [Leaf.deepEqualNonempty, LeafObj.deepEqualString_iff hb ha, eq_comm]
    | stringPtr q s' =>
      have heq : p = q → s = s' := by
        intro hpq
        have := obj_eq_of_addr_eq (show (Value.leaf (.heap p (.string s))).In mem from ha)
          (show (Value.leaf (.heap q (.string s'))).In mem from hb) hpq
        simpa using this
      rw [Leaf.deepEqualNonempty, stringEqual_iff heq]
      simp [Leaf.meaning]

lemma Leaf.deepEqual_iff {mem : UInt64 → Cell} {a b : Leaf} (ha : (Value.leaf a).In mem)
    (hb : (Value.leaf b).In mem) (hea : a.Exact) (heb : b.Exact) :
    a.deepEqual b = true ↔ a.meaning = b.meaning := by
  have hnil := a.isEmptyList_iff
  have hnil' := b.isEmptyList_iff
  rw [Leaf.deepEqual]
  cases hna : a.isEmptyList <;> cases hnb : b.isEmptyList <;> rw [hna] at hnil <;> rw [hnb] at hnil'
  · exact Leaf.deepEqualNonempty_iff ha hb hea heb hna hnb
  · have hne : a.meaning ≠ .nil := by simpa using hnil
    simpa [hnil'.1 rfl] using hne
  · have hne : b.meaning ≠ .nil := by simpa using hnil'
    simpa [hnil.1 rfl] using hne.symm
  · simp [hnil.1 rfl, hnil'.1 rfl]

/-- The leaves have one type, and rationals and heap symbols are the same object. -/
@[grind =]
def Leaf.SameRep : Leaf → Leaf → Prop
  | .imm _ _, .imm _ _ => True
  | .nullPtr t, .nullPtr t' => t = t'
  | .heap p (.rational _), .heap q (.rational _) => p = q
  | .heap p (.symbol _), .heap q (.symbol _) => p = q
  | .heap _ _, .heap _ _ => True
  | .stringPtr _ _, .stringPtr _ _ => True
  | _, _ => False

lemma Leaf.sameRep_refl (a : Leaf) : a.SameRep a := by
  rcases a with _ | _ | ⟨_, _ | _ | _ | _ | _⟩ | _ <;> simp [Leaf.SameRep]

lemma LeafObj.keysEqual_iff {p q : UInt64} {obj obj' : LeafObj} (hpq : p ≠ q)
    (heb : (Leaf.heap q obj').Exact) :
    obj.keysEqual obj' = true ↔ (Leaf.heap p obj).meaning = (Leaf.heap q obj').meaning ∧
      (Leaf.heap p obj).SameRep (.heap q obj') := by
  rcases obj with _ | _ | _ | (_ | _) | _ <;> rcases obj' with _ | _ | _ | (_ | _) | _ <;>
    simp_all [LeafObj.keysEqual, Leaf.meaning, Leaf.SameRep, strcmpEqual_iff, Bignum.compare_eq_iff,
      Leaf.Exact]

lemma Leaf.keysEqual_iff {mem : UInt64 → Cell} {a b : Leaf} (ha : (Value.leaf a).In mem)
    (hb : (Value.leaf b).In mem) (hea : a.Exact) (heb : b.Exact)
    (hptr : ¬ samePtr (.leaf a) (.leaf b) = true) :
    a.keysEqual b = true ↔ a.meaning = b.meaning ∧ a.SameRep b := by
  cases a with
  | imm t x =>
    cases b with
    | imm t' y =>
      cases t <;> cases t' <;>
        simp_all [Leaf.keysEqual, Leaf.meaning, Leaf.SameRep, Leaf.Exact, int64_inj]
    | _ => simp [Leaf.keysEqual, Leaf.SameRep]
  | nullPtr t =>
    cases b with
    | nullPtr t' => cases t <;> cases t' <;> simp [Leaf.keysEqual, Leaf.meaning, Leaf.SameRep]
    | _ => simp [Leaf.keysEqual, Leaf.SameRep]
  | heap p obj =>
    cases b with
    | heap q obj' =>
      have hpq : p ≠ q := by simpa [samePtr, Value.heapAddr?] using hptr
      exact LeafObj.keysEqual_iff hpq heb
    | _ => simp [Leaf.keysEqual, Leaf.SameRep]
  | stringPtr p s =>
    cases b with
    | stringPtr q s' =>
      have hstr : p = q → s = s' := by
        intro hpq
        have := obj_eq_of_addr_eq (show (Value.leaf (.heap p (.string s))).In mem from ha)
          (show (Value.leaf (.heap q (.string s'))).In mem from hb) hpq
        simpa using this
      rw [show (Leaf.stringPtr p s).keysEqual (.stringPtr q s') = (p == q || strcmpEqual s s') from rfl,
        stringEqual_iff hstr]
      simp [Leaf.meaning, Leaf.SameRep]
    | _ => simp [Leaf.keysEqual, Leaf.SameRep]

/-! ## Values -/

mutual

/-- Built from exact numbers, strings, symbols, characters, booleans and the empty list. -/
def Value.Exact : Value → Prop
  | .leaf l => l.Exact
  | .pair _ _ car cdr => car.Exact ∧ cdr.Exact
  | .vector _ elems => elemsExact elems

def elemsExact : List Value → Prop
  | [] => True
  | v :: vs => v.Exact ∧ elemsExact vs

end

mutual

/-- Corresponding components have one type, and corresponding rationals, heap symbols and pairs of
the deprecated type are the same object. -/
def SameRep : Value → Value → Prop
  | .leaf a, .leaf b => a.SameRep b
  | .pair false _ carA cdrA, .pair false _ carB cdrB => SameRep carA carB ∧ SameRep cdrA cdrB
  | .pair true p _ _, .pair true q _ _ => p = q
  | .vector _ ea, .vector _ eb => elemsSameRep ea eb
  | _, _ => False

def elemsSameRep : List Value → List Value → Prop
  | a :: as, b :: bs => SameRep a b ∧ elemsSameRep as bs
  | _, _ => True

end

mutual

theorem sameRep_refl : ∀ a : Value, SameRep a a
  | .leaf l => l.sameRep_refl
  | .pair false _ car cdr => ⟨sameRep_refl car, sameRep_refl cdr⟩
  | .pair true _ _ _ => rfl
  | .vector _ elems => elemsSameRep_refl elems

theorem elemsSameRep_refl : ∀ elems : List Value, elemsSameRep elems elems
  | [] => trivial
  | v :: vs => ⟨sameRep_refl v, elemsSameRep_refl vs⟩

end

lemma hashKeysEqual_of_samePtr {a b : Value} (h : samePtr a b = true) :
    hashKeysEqual a b = true := by
  rcases a with _ | ⟨_ | _, _, _, _⟩ | _ <;> rcases b with _ | ⟨_ | _, _, _, _⟩ | _ <;>
    simp_all [hashKeysEqual, samePtr, Value.heapAddr?]

section memory
variable {mem : UInt64 → Cell}

mutual

/-- `eshkol_deep_equal` compares meanings. -/
theorem deepEqual_iff : ∀ {a b : Value}, a.In mem → b.In mem → a.Exact → b.Exact →
    (deepEqual a b = true ↔ a.meaning = b.meaning) := by
  intro a b ha hb hea heb
  have hsame : samePtr a b = true → a.meaning = b.meaning :=
    fun h => by rw [eq_of_samePtr ha hb h]
  match a, b with
  | .leaf a, .leaf b =>
    rw [deepEqual, Leaf.deepEqual_iff ha hb hea heb]
    simp [Value.meaning]
  | .pair _ _ car₁ cdr₁, .pair _ _ car₂ cdr₂ =>
    rw [deepEqual, Bool.and_eq_true, deepEqual_iff ha.2.1 hb.2.1 hea.1 heb.1,
      deepEqual_iff ha.2.2 hb.2.2 hea.2 heb.2]
    simp [Value.meaning]
  | .vector p elems₁, .vector q elems₂ =>
    by_cases hpq : p = q
    · rw [hsame (by simp [samePtr, Value.heapAddr?, hpq])]
      simp [deepEqual, hpq]
    · simp only [deepEqual, hpq, beq_iff_eq, Bool.or_eq_true, Bool.and_eq_true, false_or,
        Value.meaning, Meaning.vector.injEq]
      exact elemsDeepEqual_iff ha.2 hb.2 hea heb
  | .leaf _, .pair _ _ _ _ =>
    exact ⟨hsame, fun h => by simp [Value.meaning] at h⟩
  | .leaf _, .vector _ _ => exact ⟨hsame, fun h => by simp [Value.meaning] at h⟩
  | .pair _ _ _ _, .leaf _ => exact ⟨hsame, fun h => by simp [Value.meaning] at h⟩
  | .pair _ _ _ _, .vector _ _ => exact ⟨hsame, fun h => by simp [Value.meaning] at h⟩
  | .vector _ _, .leaf _ => exact ⟨hsame, fun h => by simp [Value.meaning] at h⟩
  | .vector _ _, .pair _ _ _ _ => exact ⟨hsame, fun h => by simp [Value.meaning] at h⟩

theorem elemsDeepEqual_iff : ∀ {as bs : List Value}, elemsIn mem as → elemsIn mem bs →
    elemsExact as → elemsExact bs →
    (as.length = bs.length ∧ elemsDeepEqual as bs = true ↔ elemMeanings as = elemMeanings bs) := by
  intro as bs ha hb hea heb
  match as, bs with
  | [], [] => simp [elemsDeepEqual]
  | a :: as, b :: bs =>
    have hhead := deepEqual_iff ha.1 hb.1 hea.1 heb.1
    have htail := elemsDeepEqual_iff ha.2 hb.2 hea.2 heb.2
    simp only [elemsDeepEqual, elemMeanings, List.length_cons, Bool.and_eq_true, hhead,
      List.cons.injEq, ← htail]
    constructor
    · rintro ⟨hlen, h, hs⟩
      exact ⟨h, by omega, hs⟩
    · rintro ⟨h, hlen, hs⟩
      exact ⟨by omega, h, hs⟩
  | [], _ :: _ => simp [elemMeanings]
  | _ :: _, [] => simp [elemMeanings]

end

mutual

/-- `hash_keys_equal` compares representations, too. -/
theorem keysEqual_iff : ∀ {a b : Value}, a.In mem → b.In mem → a.Exact → b.Exact →
    (hashKeysEqual a b = true ↔ a.meaning = b.meaning ∧ SameRep a b) := by
  intro a b ha hb hea heb
  by_cases hptr : samePtr a b = true
  · have heq := hashKeysEqual_of_samePtr hptr
    obtain rfl := eq_of_samePtr ha hb hptr
    exact ⟨fun _ => ⟨rfl, sameRep_refl a⟩, fun _ => heq⟩
  match a, b with
  | .leaf a, .leaf b =>
    rw [hashKeysEqual]
    simp only [hptr, Bool.false_or, Leaf.keysEqual_iff ha hb hea heb hptr]
    simp [Value.meaning, SameRep]
  | .pair false p car₁ cdr₁, .pair false q car₂ cdr₂ =>
    have hpq : (p == q) = false := by simpa [samePtr, Value.heapAddr?] using hptr
    rw [hashKeysEqual, hpq, Bool.false_or, Bool.and_eq_true,
      keysEqual_iff ha.2.1 hb.2.1 hea.1 heb.1, keysEqual_iff ha.2.2 hb.2.2 hea.2 heb.2]
    simp only [Value.meaning, SameRep, Meaning.pair.injEq]
    tauto
  | .pair true p car₁ cdr₁, .pair true q car₂ cdr₂ =>
    rw [hashKeysEqual, beq_iff_eq]
    refine ⟨fun hpq => ⟨?_, hpq⟩, fun h => h.2⟩
    have hcell := ha.1
    rw [hpq, hb.1] at hcell
    cases hcell
    rfl
  | .vector p elems₁, .vector q elems₂ =>
    have hpq : (p == q) = false := by simpa [samePtr, Value.heapAddr?] using hptr
    simp only [hashKeysEqual, hpq, Bool.false_or, Bool.and_eq_true, beq_iff_eq, Value.meaning,
      SameRep, Meaning.vector.injEq]
    exact elemsKeysEqual_iff ha.2 hb.2 hea heb
  | .pair false _ _ _, .pair true _ _ _ => exact ⟨fun h => absurd h hptr, fun h => h.2.elim⟩
  | .pair true _ _ _, .pair false _ _ _ => exact ⟨fun h => absurd h hptr, fun h => h.2.elim⟩
  | .leaf _, .pair _ _ _ _ => exact ⟨fun h => absurd h hptr, fun h => h.2.elim⟩
  | .leaf _, .vector _ _ => exact ⟨fun h => absurd h hptr, fun h => h.2.elim⟩
  | .pair legacy _ _ _, .leaf _ =>
    cases legacy <;> exact ⟨fun h => absurd h hptr, fun h => h.2.elim⟩
  | .pair legacy _ _ _, .vector _ _ =>
    cases legacy <;> exact ⟨fun h => absurd h hptr, fun h => h.2.elim⟩
  | .vector _ _, .leaf _ => exact ⟨fun h => absurd h hptr, fun h => h.2.elim⟩
  | .vector _ _, .pair _ _ _ _ => exact ⟨fun h => absurd h hptr, fun h => h.2.elim⟩

theorem elemsKeysEqual_iff : ∀ {as bs : List Value}, elemsIn mem as → elemsIn mem bs →
    elemsExact as → elemsExact bs →
    (as.length = bs.length ∧ elemsKeysEqual as bs = true ↔
      elemMeanings as = elemMeanings bs ∧ elemsSameRep as bs) := by
  intro as bs ha hb hea heb
  match as, bs with
  | [], [] => simp [elemsKeysEqual, elemsSameRep]
  | a :: as, b :: bs =>
    have hhead := keysEqual_iff ha.1 hb.1 hea.1 heb.1
    have htail := elemsKeysEqual_iff ha.2 hb.2 hea.2 heb.2
    simp only [elemsKeysEqual, elemMeanings, elemsSameRep, List.length_cons, Bool.and_eq_true, hhead,
      List.cons.injEq, Nat.add_right_cancel_iff]
    tauto
  | [], _ :: _ => simp [elemMeanings]
  | _ :: _, [] => simp [elemMeanings]

end

end memory

/-- On exact values `equal?` and the keys' equality agree just where values of one meaning have one
representation. -/
theorem deepEqual_iff_keysEqual_iff (mem : UInt64 → Cell) (a b : Value) (ha : a.In mem)
    (hb : b.In mem) (hea : a.Exact) (heb : b.Exact) :
    (deepEqual a b = true ↔ hashKeysEqual a b = true) ↔ (a.meaning = b.meaning → SameRep a b) := by
  rw [deepEqual_iff ha hb hea heb, keysEqual_iff ha hb hea heb]
  tauto

theorem deepEqual_iff_keysEqual_iff_lists :
    ((stringList 8 24).In twoLists ∧ (stringList 16 32).In twoLists ∧ (stringList 8 24).Exact ∧
      (stringList 16 32).Exact) ∧
    ((deepEqual (stringList 8 24) (stringList 16 32) = true ↔
        hashKeysEqual (stringList 8 24) (stringList 16 32) = true) ↔
      ((stringList 8 24).meaning = (stringList 16 32).meaning →
        SameRep (stringList 8 24) (stringList 16 32))) := by
  have ha : (stringList 8 24).In twoLists := ⟨rfl, rfl, trivial⟩
  have hb : (stringList 16 32).In twoLists := ⟨rfl, rfl, trivial⟩
  have hea : (stringList 8 24).Exact := ⟨trivial, by decide, by decide, by decide⟩
  have heb : (stringList 16 32).Exact := ⟨trivial, by decide, by decide, by decide⟩
  exact ⟨⟨ha, hb, hea, heb⟩, deepEqual_iff_keysEqual_iff twoLists _ _ ha hb hea heb⟩

/-- Two computations of one third are `equal?` and are different keys. -/
theorem rationals_not_keysEqual :
    deepEqual (.leaf (.heap 8 (.rational (.small 1 3)))) (.leaf (.heap 16 (.rational (.small 1 3)))) =
        true ∧
      hashKeysEqual (.leaf (.heap 8 (.rational (.small 1 3))))
        (.leaf (.heap 16 (.rational (.small 1 3)))) = false := by
  decide

end Hash
