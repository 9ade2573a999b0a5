import Mathlib.Data.Nat.Notation

/-!
# File paths of the virtual machine

A path is split at its separators into components, its normal form is built from a stack of them, and a relative path
leads out of the components that only the first path has. A component is a list of bytes, and so is a path.
-/

namespace Vm.Paths

/-- `vm_path_separator`. -/
def vmPathSeparator : UInt8 := 47

/-- The component that stays. -/
def dot : List UInt8 := [46]

/-- The component that goes up. -/
def dotDot : List UInt8 := [46, 46]

/-- `vm_path_is_absolute_native`. -/
def vmPathIsAbsoluteNative (path : List UInt8) : Bool := path.head? = some vmPathSeparator

/-- `vm_path_copy_cstr` into a buffer of the given size. -/
def vmPathCopyCstr (dstLen : ℕ) (src : List UInt8) : Option (List UInt8) :=
  if dstLen = 0 then none else if dstLen ≤ src.length then none else some src

/-- All calls of `strtok` with the separator; no token is empty. -/
@[grind =]
def strtok (text : List UInt8) : List (List UInt8) := (text.splitOn vmPathSeparator).filter (· ≠ [])

/-- The size of `parts`. -/
def maxParts : ℕ := 256

/-- What one token does to `parts`. -/
@[grind =]
def applyPart (parts : List (List UInt8)) (tok : List UInt8) : List (List UInt8) :=
  if tok = dot ∨ tok = [] then parts
  else if tok = dotDot then parts.dropLast
  else parts ++ [tok]

/-- The loop of `vm_path_normalize_cstr`. It stops when `parts` is full. -/
@[grind =]
def collectParts (parts : List (List UInt8)) : List (List UInt8) → List (List UInt8)
  | [] => parts
  | tok :: toks => if parts.length < maxParts then collectParts (applyPart parts tok) toks else parts

/-- A component is written, with a separator in front of it where one is asked for. -/
def appendPart (resultLen : ℕ) (separator : Bool) (result part : List UInt8) : Option (List UInt8) :=
  let result' := if separator then result ++ [vmPathSeparator] else result
  if separator ∧ resultLen - 1 ≤ result.length then none
  else if resultLen ≤ result'.length + part.length then none
  else some (result' ++ part)

/-- The components of a normal form are written; the first one has no separator. -/
def writeParts (resultLen : ℕ) (result : List UInt8) (i : ℕ) : List (List UInt8) → Option (List UInt8)
  | [] => some result
  | part :: parts => do
    let result ← appendPart resultLen (0 < i) result part
    writeParts resultLen result (i + 1) parts

/-- An empty result stands for the current directory. -/
def finishPath (resultLen : ℕ) (result : List UInt8) : Option (List UInt8) :=
  if result.length = 0 then if resultLen < 2 then none else some dot else some result

/-- The size of the buffers for paths. -/
def bufLen : ℕ := 4096

/-- `vm_path_normalize_cstr`; `none` is `0`. -/
def vmPathNormalizeCstr (input : List UInt8) (resultLen : ℕ) : Option (List UInt8) := do
  if resultLen = 0 then none
  else
    let buf ← vmPathCopyCstr bufLen input
    let scan := if buf.head? = some vmPathSeparator then buf.drop 1 else buf
    let parts := collectParts [] (strtok scan)
    let result ←
      if vmPathIsAbsoluteNative buf then if resultLen - 1 ≤ 0 then none else some [vmPathSeparator] else some []
    let result ← writeParts resultLen result 0 parts
    finishPath resultLen result

/-- `vm_path_split_mut`. -/
def vmPathSplitMut (path : List UInt8) (maxParts : ℕ) : List (List UInt8) := (strtok path).take maxParts

/-- The number of components that both paths begin with. -/
def commonParts : List (List UInt8) → List (List UInt8) → ℕ
  | fromPart :: fromParts, toPart :: toParts => if fromPart = toPart then commonParts fromParts toParts + 1 else 0
  | _, _ => 0

/-- The components of a relative path are written; the result so far says whether a separator is needed. -/
@[grind =]
def writeRelative (resultLen : ℕ) (result : List UInt8) : List (List UInt8) → Option (List UInt8)
  | [] => some result
  | part :: parts => do
    let result ← appendPart resultLen (0 < result.length) result part
    writeRelative resultLen result parts

/-- `vm_path_relative_cstr`; `none` is `0`. -/
def vmPathRelativeCstr (fromPath toPath : List UInt8) (resultLen : ℕ) : Option (List UInt8) := do
  if resultLen = 0 then none
  else
    let fromNorm ← vmPathNormalizeCstr fromPath bufLen
    let toNorm ← vmPathNormalizeCstr toPath bufLen
    if vmPathIsAbsoluteNative fromNorm ≠ vmPathIsAbsoluteNative toNorm then vmPathCopyCstr resultLen toNorm
    else
      let fromParts := vmPathSplitMut (← vmPathCopyCstr bufLen fromNorm) maxParts
      let toParts := vmPathSplitMut (← vmPathCopyCstr bufLen toNorm) maxParts
      let common := commonParts fromParts toParts
      let result ← writeRelative resultLen [] (List.replicate (fromParts.length - common) dotDot)
      let result ← writeRelative resultLen result (toParts.drop common)
      finishPath resultLen result

end Vm.Paths
