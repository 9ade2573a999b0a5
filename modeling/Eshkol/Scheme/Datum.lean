import Mathlib.Data.Nat.Digits.Defs
import Mathlib.Data.List.Basic

/-!
# Data and their canonical text

The values that events are made of, and `sexp->canonical-string`, whose text event ids are hashed
over and node names are ordered by. A string is its characters.
-/

namespace Scheme

abbrev Text := List Char

/-- The characters of a text are looked at one by one, not all there are. -/
instance (priority := high) (s : Text) (p : Char → Prop) [DecidablePred p] : Decidable (∀ c ∈ s, p c) :=
  List.decidableBAll p s

/-- Inexact numbers as `number->string` writes them and `string->number` reads them. -/
class DoubleText (δ : Type) where
  format : δ → Text
  read : Text → δ

/-- An inexact number that is known by its text. -/
structure WrittenDouble where
  text : Text
  deriving DecidableEq, Repr

instance : DoubleText WrittenDouble := ⟨WrittenDouble.text, WrittenDouble.mk⟩

/-- A value without vectors. -/
inductive Datum (δ : Type) where
  | null
  | pair (car cdr : Datum δ)
  | string (s : Text)
  | symbol (s : Text)
  | integer (i : ℤ)
  | real (x : δ)
  | boolean (b : Bool)
  | char (c : Char)
  deriving DecidableEq, Repr

/-- `number->string` of an exact integer. -/
def integerText (i : ℤ) : Text :=
  if i < 0 then '-' :: Nat.toDigits 10 i.natAbs else Nat.toDigits 10 i.natAbs

namespace Datum

variable {δ : Type}

/-- A proper list. -/
def list : List (Datum δ) → Datum δ
  | [] => null
  | d :: ds => pair d (list ds)

section text

variable [DoubleText δ]

/-- The text of a value that is not a pair. -/
def atomText : Datum δ → Text
  | null => "()".toList
  | pair _ _ => []
  | string s => '"' :: (s ++ ['"'])
  | symbol s => s
  | integer i => integerText i
  | real x => DoubleText.format x
  | boolean b => if b then "#t".toList else "#f".toList
  | char c => ['#', '\\', c]

mutual

/-- `sexp->canonical-string`. -/
def canonicalString : Datum δ → Text
  | pair a d => '(' :: (canonicalString a ++ (canonicalStringRest d ++ [')']))
  | null => atomText (null : Datum δ)
  | string s => atomText (string s : Datum δ)
  | symbol s => atomText (symbol s : Datum δ)
  | integer i => atomText (integer i : Datum δ)
  | real x => atomText (real x)
  | boolean b => atomText (boolean b : Datum δ)
  | char c => atomText (char c : Datum δ)

/-- What `sexp->canonical-string-list` writes after the first element of a list. -/
def canonicalStringRest : Datum δ → Text
  | pair a d => ' ' :: (canonicalString a ++ canonicalStringRest d)
  | null => []
  | string s => " . ".toList ++ atomText (string s : Datum δ)
  | symbol s => " . ".toList ++ atomText (symbol s : Datum δ)
  | integer i => " . ".toList ++ atomText (integer i : Datum δ)
  | real x => " . ".toList ++ atomText (real x)
  | boolean b => " . ".toList ++ atomText (boolean b : Datum δ)
  | char c => " . ".toList ++ atomText (char c : Datum δ)

end

end text

end Datum

end Scheme
