import Mathlib.Data.List.Basic
import Mathlib.Data.Int.Notation

/-!
# Primitives of the host language

The library modules written in the language itself report errors with a message and irritants.
-/

namespace Scheme

/-- An object that an `error` call reports after its message. -/
inductive Irritant where
  | integer (i : ℤ)
  | char (c : Char)
  | string (s : String)
  | object
  deriving DecidableEq, Repr

/-- What `error` raises. -/
structure SchemeError where
  message : String
  irritants : List Irritant
  deriving DecidableEq, Repr

/-- `error`. -/
def raise {α : Type} (message : String) (irritants : List Irritant) : Except SchemeError α :=
  .error ⟨message, irritants⟩

section Except

variable {ε α β : Type} {x : Except ε α} {f : α → Except ε β}

@[simp]
lemma ok_bind (a : α) : (Except.ok a >>= f) = f a := rfl

@[simp]
lemma error_bind (e : ε) : (Except.error e >>= f) = .error e := rfl

@[simp]
lemma pure_eq_ok (a : α) : (pure a : Except ε α) = .ok a := rfl

lemma bind_eq_ok {b : β} : (x >>= f) = .ok b ↔ ∃ a, x = .ok a ∧ f a = .ok b := by
  cases x <;> simp

@[simp]
lemma raise_ne_ok (message : String) (irritants : List Irritant) (a : α) :
    raise message irritants ≠ .ok a := by simp [raise]

@[simp]
lemma ok_ne_raise (message : String) (irritants : List Irritant) (a : α) :
    .ok a ≠ raise message irritants := by simp [raise]

end Except

end Scheme
