import Eshkol.Base.PartialState
import Eshkol.Region.Memory

/-!
# Evacuation

A value that leaves a region has everything it reaches inside the region copied out first. The
evacuator copies a block once (a forwarding map from old to new addresses), keeps the copies whose
contents still have to be rewritten on a worklist, and leaves what already lives at or outside the
boundary where it is.
-/

namespace Region

/-- `EvacState`. The target arena and the boundary are the same level, passed as an argument. -/
structure EvacState where
  mem : Mem
  fwd : Addr → Option Addr
  worklist : List Addr

/-- Steps of the evacuator. -/
abbrev EvacM := StateT EvacState Option

/-- Reading a freed block has no meaning. -/
def readObj (a : Addr) : EvacM Obj := fun st => (st.mem.heap a).map fun o => (o, st)

/-- A store to a copy under construction. -/
def setBlock (a : Addr) (b : Block) : EvacM Unit := fun st =>
  (st.mem.heap a).map fun o => ((), { st with mem := st.mem.put a { o with block := b } })

/-- The region that an address lies in. -/
def levelOf (a : Addr) : EvacM ℕ := fun st => some (st.mem.levelOf a, st)

/-- Copies the block to the target arena and registers the forwarding. -/
def copyBlock (t : ℕ) (a : Addr) (o : Obj) : EvacM Addr := fun st =>
  let a' : Addr := ⟨a.obj, st.mem.copies + 1⟩
  some (a', { st with
    mem := { st.mem.put a' { o with level := t } with copies := st.mem.copies + 1 }
    fwd := Function.update st.fwd a (some a') })

/-- Where an object has been copied to. -/
def lookupFwd (a : Addr) : EvacM (Option Addr) := fun st => some (st.fwd a, st)

/-- An object to scan later. -/
def enqueue (a : Addr) : EvacM Unit := fun st =>
  some ((), { st with worklist := a :: st.worklist })

/-- The bytes of an object, copied as they are. -/
def evacRaw (t : ℕ) (a : Addr) : EvacM Addr := do
  let o ← readObj a
  if o.block.bytes = 0 then
    return a
  else
    match ← lookupFwd a with
    | some a' => return a'
    | none => copyBlock t a o

/-- An object, copied once. -/
def evacObject (t : ℕ) (a : Addr) : EvacM Addr := do
  match ← lookupFwd a with
  | some a' => return a'
  | none =>
    let o ← readObj a
    if o.block.bytes = 0 ∨ maxObjectBytes < o.block.bytes then
      return a
    else
      let a' ← copyBlock t a o
      if o.block.kind = .leaf then
        return a'
      else
        enqueue a'
        return a'

/-- A value: what lies deeper than region `t` is copied. -/
def evacValue (t : ℕ) (v : Val) : EvacM Val :=
  match v with
  | .ref a => do
    if (← levelOf a) ≤ t then
      return .ref a
    else
      return .ref (← evacObject t a)
  | v => return v

/-- Only occupied entries are rewritten. -/
def evacEntry (t : ℕ) : Entry → EvacM Entry
  | .occupied key value => do
    let key ← evacValue t key
    let value ← evacValue t value
    return .occupied key value
  | e => return e

/-- Copies a headerless buffer and rewrites what it holds. -/
def evacBuffer (t : ℕ) (a : Addr) (rewrite : Block → EvacM Block) : EvacM Addr := do
  let a' ← evacRaw t a
  let o ← readObj a'
  let b ← rewrite o.block
  setBlock a' b
  return a'

/-- The value of a cell. -/
def evacCell (t : ℕ) : Block → EvacM Block
  | .cell v => return .cell (← evacValue t v)
  | _ => failure

/-- An `INT64` capture that, read as an address, falls inside an inner region's arena is taken for
the address of a capture cell. For a captured integer that has no meaning here: sixteen bytes of
some other block are copied. `own` says which active region's arena an integer falls in. -/
def evacCapture (own : ℤ → ℕ) (t : ℕ) : Capture → EvacM Capture
  | .cell a => do
    if t < (← levelOf a) then
      return .cell (← evacBuffer t a (evacCell t))
    else
      return .cell a
  | .val (.int n) => if n ≠ 0 ∧ t < own n then failure else return .val (.int n)
  | .val v => return .val (← evacValue t v)

/-- The captures of an environment. -/
def evacEnv (own : ℤ → ℕ) (t : ℕ) : Block → EvacM Block
  | .env captures => return .env (← captures.mapM (evacCapture own t))
  | _ => failure

/-- The entries of a table. -/
def evacStorage (t : ℕ) : Block → EvacM Block
  | .storage entries => return .storage (← entries.mapM (evacEntry t))
  | _ => failure

/-- The contents of a copied object, with everything inside the boundary copied out. -/
def evacContents (own : ℤ → ℕ) (t : ℕ) : Block → EvacM Block
  | .cons car cdr => do
    let car ← evacValue t car
    let cdr ← evacValue t cdr
    return .cons car cdr
  | .vector elems => return .vector (← elems.mapM (evacValue t))
  | .promise forced thunk cached => do
    let thunk ← evacValue t thunk
    let cached ← evacValue t cached
    return .promise forced thunk cached
  | .hash capacity size tombstones storage _ => do
    if t < (← levelOf storage) then
      let storage ← evacBuffer t storage (evacStorage t)
      return .hash capacity size tombstones storage t
    else
      let o ← readObj storage
      let b ← evacStorage t o.block
      setBlock storage b
      return .hash capacity size tombstones storage t
  | .closure funcPtr (some env) => do
    if t < (← levelOf env) then
      return .closure funcPtr (some (← evacBuffer t env (evacEnv own t)))
    else
      return .closure funcPtr (some env)
  | b => return b

/-- The values in a copied object are copied in turn. -/
def scan (own : ℤ → ℕ) (t : ℕ) (nd : Addr) : EvacM Unit := do
  let o ← readObj nd
  let b ← evacContents own t o.block
  setBlock nd b

/-- The worklist loop. The bound on its length is never the reason it stops
(`evacuate_spec`). -/
def drain (own : ℤ → ℕ) (t : ℕ) : ℕ → EvacM Unit
  | 0 => failure
  | fuel + 1 => fun st =>
    match st.worklist with
    | [] => some ((), st)
    | nd :: rest => (scan own t nd >>= fun _ => drain own t fuel) { st with worklist := rest }

/-- `region_evacuate_value`, once the forwarding map is chosen. -/
def evacuate (own : ℤ → ℕ) (t : ℕ) (v : Val) (m : Mem) (fwd : Addr → Option Addr) :
    Option (Val × EvacState) :=
  (do
    let root ← evacValue t v
    drain own t (m.nextId * (m.copies + 1) + 1)
    return root : EvacM Val) ⟨m, fwd, []⟩

end Region
