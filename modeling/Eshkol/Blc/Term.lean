import Eshkol.Base.Cursor
import Eshkol.Scheme.StringRef

/-!
# Terms of the binary lambda calculus

Terms with one-based De Bruijn indices, their code as a string of zeros and ones, and the
normal-order reducer.
-/

namespace Blc

open Cursor Scheme

/-- A term; index 1 refers to the innermost binder. -/
inductive Term where
  | var (i : ℤ)
  | lam (b : Term)
  | app (m n : Term)
  deriving DecidableEq, Repr

/-- `blc-lam?`. -/
def Term.isLam : Term → Bool
  | .lam _ => true
  | _ => false

/-- `blc-term?`: every index is at least 1. -/
def isTerm : Term → Bool
  | .var i => decide (1 ≤ i)
  | .lam b => isTerm b
  | .app m n => isTerm m && isTerm n

/-! ## Encoding -/

/-- A run of `n` ones. -/
def ones (n : ℤ) : List Char := List.replicate n.toNat '1'

/-- `blc-encode`. -/
def encode : Term → Except SchemeError (List Char)
  | .var i =>
    if 1 ≤ i then .ok (ones i ++ ['0'])
    else raise "blc-encode: variable index must be a positive integer" [.integer i]
  | .lam b => do
    let body ← encode b
    return ['0', '0'] ++ body
  | .app m n => do
    let f ← encode m
    let a ← encode n
    return ['0', '1'] ++ f ++ a

/-! ## Decoding -/

/-- `blc-decode-var`: counts ones up to the terminating zero. -/
def decodeVar (bits : List Char) (pos len : ℕ) (count : ℤ) :
    Except SchemeError (Term × Beyond pos len) :=
  if h : len ≤ pos then
    raise "blc-decode: unexpected end of input in variable (missing terminating 0)" [.integer pos]
  else do
    let c ← stringRef bits pos
    if c = '1' then
      let (t, q) ← decodeVar bits (pos + 1) len (count + 1)
      return (t, q.weaken (Nat.le_succ pos))
    else if c = '0' then
      if count = 0 then raise "blc-decode: zero-length variable" [.integer pos]
      else return (.var count, ⟨pos + 1, Nat.lt_succ_self pos, Nat.lt_of_not_le h⟩)
    else raise "blc-decode: invalid bit character (expected 0 or 1)" [.char c]
termination_by len - pos

mutual

/-- `blc-decode-at`: the term that starts at `pos`, and the position after it. -/
def decodeAt (bits : List Char) (pos len : ℕ) : Except SchemeError (Term × Beyond pos len) :=
  if len ≤ pos then
    raise "blc-decode: unexpected end of input (truncated term)" [.integer pos]
  else do
    let c ← stringRef bits pos
    if c = '0' then decodeCompound bits pos len
    else if c = '1' then decodeVar bits pos len 0
    else raise "blc-decode: invalid bit character (expected 0 or 1)" [.char c]
termination_by 2 * (len - pos) + 1

/-- `blc-decode-compound`: the bit after a zero selects abstraction or application. -/
def decodeCompound (bits : List Char) (pos len : ℕ) :
    Except SchemeError (Term × Beyond pos len) :=
  if h : len ≤ pos + 1 then
    raise "blc-decode: unexpected end of input after '0'" [.integer pos]
  else do
    let c₂ ← stringRef bits (pos + 1)
    if c₂ = '0' then
      let (body, q) ← decodeAt bits (pos + 2) len
      return (.lam body, q.weaken (Nat.le_add_right pos 2))
    else if c₂ = '1' then
      let (m, ⟨q, hq⟩) ← decodeAt bits (pos + 2) len
      let (n, r) ← decodeAt bits q len
      return (.app m n, r.weaken (by omega))
    else raise "blc-decode: invalid bit character (expected 0 or 1)" [.char c₂]
termination_by 2 * (len - pos)

end

/-- `blc-decode`: the term at the front of a string. -/
def decode (bits : List Char) : Except SchemeError Term :=
  if bits.length = 0 then raise "blc-decode: empty input, no term to decode" []
  else do
    let (t, _) ← decodeAt bits 0 bits.length
    return t

/-! ## Substitution -/

/-- `blc-shift`: adds `d` to every index from `cutoff` on. -/
def shift (d cutoff : ℤ) : Term → Term
  | .var k => if cutoff ≤ k then .var (k + d) else .var k
  | .lam b => .lam (shift d (cutoff + 1) b)
  | .app m n => .app (shift d cutoff m) (shift d cutoff n)

/-- `blc-subst`: replaces the index `j` by `s`. -/
def subst : Term → ℤ → Term → Term
  | .var i, j, s => if i = j then s else .var i
  | .lam b, j, s => .lam (subst b (j + 1) (shift 1 1 s))
  | .app m n, j, s => .app (subst m j s) (subst n j s)

/-- `blc-beta` on the redex that applies the abstraction of `b` to `n`. -/
def beta (b n : Term) : Term := shift (-1) 1 (subst b 1 (shift 1 1 n))

/-! ## Reduction -/

/-- `blc-step`: whether a redex was contracted, and the term after it. -/
def step : Term → Bool × Term
  | .var i => (false, .var i)
  | .lam b =>
    let r := step b
    if r.1 then (true, .lam r.2) else (false, .lam b)
  | .app (.lam b) n => (true, beta b n)
  | .app m n =>
    let rm := step m
    if rm.1 then (true, .app rm.2 n)
    else
      let rn := step n
      if rn.1 then (true, .app m rn.2) else (false, .app m n)

/-! ## Predefined terms -/

/-- `blc-I`. -/
def blcI : Term := .lam (.var 1)

/-- `blc-K`. -/
def blcK : Term := .lam (.lam (.var 2))

/-- `blc-omega`, which has no normal form. -/
def blcOmega : Term := .app (.lam (.app (.var 1) (.var 1))) (.lam (.app (.var 1) (.var 1)))

end Blc
