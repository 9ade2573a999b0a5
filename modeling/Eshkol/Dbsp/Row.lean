import Mathlib.Algebra.Order.Ring.Rat
import Mathlib.Data.Nat.Cast.Order.Basic
import Mathlib.Data.String.Basic
import Eshkol.Base.PrefixCode

/-!
# Rows and their canonical strings

The rows of a Z-set are symbols, strings, booleans, characters, exact numbers, and lists and vectors
of these. Rows are ordered and grouped by a string that is built from the row, the strings of its
parts, and lengths; different rows have different strings.
-/

namespace Dbsp

open PrefixCode

/-- The values that may stand as rows. -/
inductive Row where
  | symbol (name : String)
  | string (s : String)
  | boolean (b : Bool)
  | char (c : Char)
  | number (q : ℚ)
  | null
  | pair (car cdr : Row)
  | vector (elements : List Row)

/-! ## Equality -/

mutual

/-- `equal?`. -/
def isEqual : Row → Row → Bool
  | .symbol a, .symbol b => a == b
  | .string a, .string b => a == b
  | .boolean a, .boolean b => a == b
  | .char a, .char b => a == b
  | .number a, .number b => a == b
  | .null, .null => true
  | .pair a d, .pair a' d' => isEqual a a' && isEqual d d'
  | .vector v, .vector v' => isEqualVec v v'
  | _, _ => false

def isEqualVec : List Row → List Row → Bool
  | [], [] => true
  | a :: v, b :: v' => isEqual a b && isEqualVec v v'
  | _, _ => false

end

mutual

theorem isEqual_iff (a b : Row) : isEqual a b = true ↔ a = b := by
  cases a <;> cases b <;> simp [isEqual, isEqual_iff, isEqualVec_iff]

theorem isEqualVec_iff (v v' : List Row) : isEqualVec v v' = true ↔ v = v' := by
  cases v <;> cases v' <;> simp [isEqualVec, isEqual_iff, isEqualVec_iff]

end

instance : DecidableEq Row := fun a b => decidable_of_iff _ (isEqual_iff a b)

/-! ## Canonical strings -/

/-- `number->string` of an exact number. -/
def numberToString (q : ℚ) : String :=
  if q.den = 1 then q.num.repr else q.num.repr ++ "/" ++ q.den.repr

def dbspAtom (tag s : String) : String := tag ++ numberToString s.length ++ ":" ++ s

mutual

def dbspCanon : Row → String
  | .symbol name => dbspAtom "y" name
  | .string s => dbspAtom "s" s
  | .boolean b => if b then "b1;" else "b0;"
  | .char c => "c" ++ numberToString c.toNat ++ ";"
  | .number q => "n" ++ numberToString q ++ ";"
  | .null => "e;"
  | .pair car cdr => "(" ++ dbspCanon car ++ dbspCanon cdr ++ ")"
  | .vector v => "v" ++ numberToString v.length ++ "[" ++ dbspCanonVec v ++ "]"

/-- The elements from an index on. -/
def dbspCanonVec : List Row → String
  | [] => ""
  | a :: v => dbspCanon a ++ dbspCanonVec v

end

/-! ## Numbers -/

lemma isDigit_of_mem_repr {n : ℕ} {c : Char} (h : c ∈ n.repr.toList) : c.isDigit := by
  rw [Nat.toList_repr] at h
  exact Nat.isDigit_of_mem_toDigits (by decide) (by decide) h

lemma natRepr_injective {m n : ℕ} (h : m.repr = n.repr) : m = n := by
  have hdigits := congrArg (fun s => Nat.ofDigitChars 10 s.toList 0) h
  simpa only [Nat.toList_repr, Nat.ofDigitChars_ten_toDigits] using hdigits

lemma mem_intRepr {z : ℤ} {c : Char} (h : c ∈ z.repr.toList) : c = '-' ∨ c.isDigit := by
  rw [Int.repr_eq_if] at h
  split at h
  · exact .inr (isDigit_of_mem_repr h)
  · obtain h | h := List.mem_append.1 (String.toList_append ▸ h)
    · exact .inl (List.mem_singleton.1 h)
    · exact .inr (isDigit_of_mem_repr h)

lemma minus_repr_ne (m n : ℕ) : "-" ++ m.repr ≠ n.repr := by
  intro h
  have hmem : '-' ∈ n.repr.toList := by
    rw [← h, String.toList_append]
    exact List.mem_append_left _ List.mem_cons_self
  exact absurd (isDigit_of_mem_repr hmem) (by decide)

lemma intRepr_injective {a b : ℤ} (h : a.repr = b.repr) : a = b := by
  rw [Int.repr_eq_if, Int.repr_eq_if] at h
  split at h <;> split at h
  · have := natRepr_injective h
    omega
  · exact absurd h.symm (minus_repr_ne _ _)
  · exact absurd h (minus_repr_ne _ _)
  · have := natRepr_injective ((String.append_right_inj _).1 h)
    omega

lemma mem_numberToString {q : ℚ} {c : Char} (h : c ∈ (numberToString q).toList) :
    c = '-' ∨ c = '/' ∨ c.isDigit := by
  rw [numberToString] at h
  split at h
  · exact (mem_intRepr h).imp_right .inr
  · simp only [String.toList_append, List.mem_append] at h
    obtain (h | h) | h := h
    · exact (mem_intRepr h).imp_right .inr
    · exact .inr (.inl (List.mem_singleton.1 h))
    · exact .inr (.inr (isDigit_of_mem_repr h))

lemma slash_notMem_intRepr (z : ℤ) : '/' ∉ z.repr.toList := fun h =>
  (mem_intRepr h).elim (by decide) (by decide)

lemma toList_fraction (z : ℤ) (n : ℕ) :
    (z.repr ++ "/" ++ n.repr).toList = z.repr.toList ++ '/' :: n.repr.toList := by
  simp only [String.toList_append, List.append_assoc]
  rfl

lemma intRepr_ne_fraction (a b : ℤ) (n : ℕ) : a.repr ≠ b.repr ++ "/" ++ n.repr := by
  intro h
  refine slash_notMem_intRepr a ?_
  rw [h, toList_fraction]
  exact List.mem_append_right _ List.mem_cons_self

lemma numberToString_injective : Function.Injective numberToString := by
  intro p q h
  simp only [numberToString] at h
  split at h <;> split at h
  · next hp hq => exact Rat.ext (intRepr_injective h) (hp.trans hq.symm)
  · exact absurd h (intRepr_ne_fraction _ _ _)
  · exact absurd h.symm (intRepr_ne_fraction _ _ _)
  · have hlist := congrArg String.toList h
    rw [toList_fraction, toList_fraction] at hlist
    obtain ⟨hnum, hden⟩ :=
      append_cons_inj_of_notMem (slash_notMem_intRepr _) (slash_notMem_intRepr _) hlist
    exact Rat.ext (intRepr_injective (String.toList_inj.1 hnum))
      (natRepr_injective (String.toList_inj.1 hden))

/-! ## Different rows have different strings -/

/-- The text of a number and the character that ends it. -/
def sizeText (stop : Char) (n : ℕ) : List Char := (numberToString n).toList ++ [stop]

lemma splits_sizeText {stop : Char} (hstop : ∀ q : ℚ, stop ∉ (numberToString q).toList) (n : ℕ) :
    Splits (sizeText stop) n :=
  splits_terminated
    (fun _ _ h => Nat.cast_injective (numberToString_injective (String.toList_inj.1 h)))
    (fun m => hstop m) n

/-- The character a canonical string starts with. -/
def tag : Row → Char
  | .symbol _ => 'y'
  | .string _ => 's'
  | .boolean _ => 'b'
  | .char _ => 'c'
  | .number _ => 'n'
  | .null => 'e'
  | .pair _ _ => '('
  | .vector _ => 'v'

/-- What follows the first character. -/
def body : Row → List Char
  | .symbol s | .string s => sizeText ':' s.toList.length ++ s.toList
  | .boolean b => (if b then ['1'] else ['0']) ++ [';']
  | .char c => (numberToString c.toNat).toList ++ [';']
  | .number q => (numberToString q).toList ++ [';']
  | .null => [';']
  | .pair a d => (dbspCanon a).toList ++ (dbspCanon d).toList ++ [')']
  | .vector v => sizeText '[' v.length ++ v.flatMap (fun a => (dbspCanon a).toList) ++ [']']

lemma toList_dbspCanonVec (v : List Row) :
    (dbspCanonVec v).toList = v.flatMap fun a => (dbspCanon a).toList := by
  induction v with
  | nil => rfl
  | cons a v ih => rw [dbspCanonVec, String.toList_append, ih, List.flatMap_cons]

lemma toList_dbspCanon (a : Row) : (dbspCanon a).toList = tag a :: body a := by
  cases a with
  | boolean b => cases b <;> rfl
  | null => rfl
  | _ => simp [dbspCanon, dbspAtom, tag, body, sizeText, toList_dbspCanonVec, String.length_toList]

lemma stop_notMem {stop : Char} (hminus : stop ≠ '-') (hslash : stop ≠ '/')
    (hdigit : stop.isDigit = false) (q : ℚ) : stop ∉ (numberToString q).toList := fun h => by
  obtain h | h | h := mem_numberToString h
  · exact hminus h
  · exact hslash h
  · exact absurd (hdigit.symm.trans h) Bool.false_ne_true

lemma semicolon_notMem : ∀ q : ℚ, ';' ∉ (numberToString q).toList :=
  stop_notMem (by decide) (by decide) (by decide)

/-- A canonical string can be read off the front of a text. -/
lemma splits_dbspCanon (a : Row) : Splits (fun a => (dbspCanon a).toList) a := by
  intro b s t h
  simp only [toList_dbspCanon, List.cons_append, List.cons.injEq] at h
  obtain ⟨htag, h⟩ := h
  have hatom : ∀ {x y : String}, sizeText ':' x.toList.length ++ x.toList ++ s =
      sizeText ':' y.toList.length ++ y.toList ++ t → x = y ∧ s = t :=
    splits_sized (splits_sizeText (stop_notMem (by decide) (by decide) (by decide)))
      (fun _ _ => String.toList_inj.1) _ _ _ _
  cases a <;> cases b <;> try (simp [tag] at htag; done)
  case symbol.symbol x y => exact (hatom h).imp_left (congrArg Row.symbol)
  case string.string x y => exact (hatom h).imp_left (congrArg Row.string)
  case boolean.boolean x y => cases x <;> cases y <;> simp_all [body]
  case char.char x y =>
    have hchar : Function.Injective fun c : Char => (numberToString c.toNat).toList := fun c d hcd =>
      Char.toNat_inj.1 (Nat.cast_injective (numberToString_injective (String.toList_inj.1 hcd)))
    exact (splits_terminated hchar (fun c => semicolon_notMem c.toNat) x y s t h).imp_left
      (congrArg Row.char)
  case number.number x y =>
    have hnumber : Function.Injective fun q : ℚ => (numberToString q).toList := fun p q hpq =>
      numberToString_injective (String.toList_inj.1 hpq)
    exact (splits_terminated hnumber semicolon_notMem x y s t h).imp_left (congrArg Row.number)
  case null.null => exact ⟨rfl, (List.cons.inj h).2⟩
  case pair.pair x d y e =>
    simp only [body, List.append_assoc] at h
    obtain ⟨rfl, hcdr⟩ := splits_dbspCanon x y _ _ h
    obtain ⟨rfl, hrest⟩ := splits_dbspCanon d e _ _ hcdr
    exact ⟨rfl, List.append_cancel_left hrest⟩
  case vector.vector v w =>
    simp only [body, List.append_assoc] at h
    obtain ⟨hlen, helements⟩ :=
      splits_sizeText (stop_notMem (by decide) (by decide) (by decide)) _ _ _ _ h
    obtain ⟨rfl, hrest⟩ := splits_flatMap (fun a _ => splits_dbspCanon a) hlen helements
    exact ⟨rfl, List.append_cancel_left hrest⟩

/-- Rows are the same exactly when their canonical strings are. -/
lemma dbspCanon_injective : Function.Injective dbspCanon := fun _ _ h =>
  injective splits_dbspCanon (congrArg String.toList h)

end Dbsp
