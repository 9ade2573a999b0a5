import Eshkol.Region.Evacuate

/-!
# Programs over regions

The region runtime (the stack of active regions, the write barrier, the escape of a region's
result) and the programs that use it: allocations, reads, mutations through the write barrier, and
nested regions whose result is escaped. A program is a strategy: it chooses its next operation from
what it has observed so far, so that control flow, hashing and probing are programs too. It sees
immediate values and the kinds of objects, never addresses.
-/

namespace Region

open PartialRun

/-! ## The region runtime -/

/-- An active region: its forwarding map, and the promotion target the map is valid for. -/
structure ActiveRegion where
  fwd : Addr → Option Addr
  fwdTarget : Option ℕ

/-- The memory and the region stack, innermost region first. -/
structure Store where
  mem : Mem
  regions : List ActiveRegion

/-- `region_push`. -/
def regionPush (s : Store) : Store :=
  if maxRegionDepth ≤ s.regions.length then s
  else { s with regions := ⟨fun _ => none, none⟩ :: s.regions }

/-- `region_pop`: the innermost region's arena is freed, its forwarding map with it. -/
def regionPop (s : Store) : Store :=
  match s.regions with
  | [] => s
  | _ :: outer => ⟨s.mem.free (outer.length + 1), outer⟩

/- `own n` is the level of the active region whose arena contains the address `n`, or `0`. -/
section runtime
variable (own : ℤ → ℕ)

/-- `region_evacuate_value`. The innermost region's forwarding map is kept between evacuations and
dropped when the target changes. -/
def regionEvacuateValue (t : ℕ) (v : Val) (s : Store) : Option (Val × Store) :=
  match s.regions with
  | [] => (evacuate own t v s.mem fun _ => none).map fun p => (p.1, ⟨p.2.mem, []⟩)
  | owner :: outer =>
    let fwd := if owner.fwdTarget = some t then owner.fwd else fun _ => none
    (evacuate own t v s.mem fwd).map fun p =>
      (p.1, ⟨p.2.mem, ⟨p.2.fwd, some t⟩ :: outer⟩)

/-- `eshkol_region_write_barrier_into`: `v` is about to be stored in the block at `dst`. -/
def regionWriteBarrierInto (dst : Addr) (v : Val) (s : Store) : Option (Val × Store) :=
  if s.regions.isEmpty then some (v, s)
  else
    match v with
    | .ref a =>
      if s.mem.levelOf a = 0 then some (v, s)
      else if s.mem.levelOf a ≤ s.mem.levelOf dst then some (v, s)
      else regionEvacuateValue own (s.mem.levelOf dst) v s
    | v => some (v, s)

/-- `eshkol_region_write_barrier_range`. The slots are written after the last promotion instead of
one by one; a promotion never reads the destination, which lies at the boundary. -/
def regionWriteBarrierRange (dst : Addr) : List Val → Store → Option (List Val × Store)
  | [], s => some ([], s)
  | v :: vs, s => do
    let (v, s) ← regionWriteBarrierInto own dst v s
    let (vs, s) ← regionWriteBarrierRange dst vs s
    return (v :: vs, s)

/-- `region_escape_tagged_value`. -/
def regionEscapeTaggedValue (v : Val) (s : Store) : Option (Val × Store) :=
  match v with
  | .ref _ =>
    match s.regions with
    | [] => some (v, s)
    | _ :: outer => regionEvacuateValue own outer.length v s
  | v => some (v, s)

end runtime

/-! ## Programs -/

/-- A local variable: a scope, counted from the innermost, and a position in it. Each region body is
a scope. A global variable is a cell allocated outside every region. -/
structure Loc where
  scope : ℕ
  index : ℕ
deriving DecidableEq, Repr

inductive Op where
  | int (n : ℤ)
  | imm (c : ℕ)
  | cons (x y : Loc)
  | vector (xs : List Loc)
  | promise (forced : Bool) (thunk cached : Loc)
  | hash (capacity : ℕ)
  | closure (funcPtr : ℕ) (captures : List Loc)
  | leaf (bytes : List ℕ)
  | cell (x : Loc)
  | read (x : Loc) (f : Field)
  | write (x : Loc) (u : Update) (args : List Loc)
  | vectorCopy (dst : Loc) (at_ : ℕ) (src : Loc) (start stop : ℕ)
  | hashResize (x : Loc) (layout : List (Option ℕ))
  | regionPush
  | regionPop (result : Loc)
deriving DecidableEq, Repr

/-- What an operation lets the program see. -/
inductive Obs where
  | done
  | int (n : ℤ)
  | imm (c : ℕ)
  | object (k : Kind)
  | cell
deriving DecidableEq, Repr

/-- The scopes innermost first, the observations latest first. -/
structure State where
  store : Store
  scopes : List (List Capture)
  trace : List Obs

abbrev Prog := List Obs → Option Op

/- `arenaAt m n` is the level of the active region whose arena contains the address `n`, or `0`.
Where the arenas lie in the address space is up to the allocator. Within one operation they only
grow at the promotion target, which does not change whether `n` is inside the boundary. -/
variable (arenaAt : Mem → ℤ → ℕ)

namespace State

def init : State := ⟨⟨.empty, []⟩, [[]], []⟩

def lookup (s : State) (x : Loc) : Option Capture := s.scopes[x.scope]?.bind (·[x.index]?)

def lookupVal (s : State) (x : Loc) : Option Val :=
  (s.lookup x).bind fun
    | .val v => some v
    | .cell _ => none

/-- The block that a variable refers to. -/
def address (s : State) (x : Loc) : Option Addr :=
  (s.lookup x).bind fun
    | .val (.ref a) => some a
    | .cell a => some a
    | _ => none

/-- The buffer of the block at `a` that holds a part of it. -/
def holder (s : State) (a : Addr) (p : Target) : Option Addr :=
  (s.store.mem.heap a).bind fun o => o.block.holder a p

def observe (s : State) : Capture → Option Obs
  | .val (.int n) => some (.int n)
  | .val (.imm c) => some (.imm c)
  | .val (.ref a) => (s.store.mem.heap a).map fun o => .object o.block.kind
  | .cell _ => some .cell

def emit (s : State) (o : Obs) : State := { s with trace := o :: s.trace }

/-- Binds a new variable in the innermost scope. -/
def bindLocal (s : State) (c : Capture) : State :=
  { s with scopes := s.scopes.modifyHead (· ++ [c]) }

/-- Allocates in the innermost active region, or in the global arena. -/
def alloc (s : State) (b : Block) : Addr × State :=
  let p := s.store.mem.alloc s.store.regions.length b
  (p.1, { s with store := { s.store with mem := p.2 } })

/-- Allocates an object and binds it. -/
def allocLocal (s : State) (b : Block) : State :=
  let p := s.alloc b
  (p.2.bindLocal (.val (.ref p.1))).emit .done

end State

/-- `hash_table_resize`, the positions of the entries in the new arrays given. -/
def rehash (entries : List Entry) (layout : List (Option ℕ)) : Option (List Entry) :=
  layout.mapM fun
    | none => some .empty
    | some j => entries[j]?.filter fun e => e.key?.isSome

/-- The allocation that an operation asks for, and the variable it is bound to. -/
def execAlloc (op : Op) (s : State) : Option State :=
  match op with
  | .cons x y => do return s.allocLocal (.cons (← s.lookupVal x) (← s.lookupVal y))
  | .vector xs => do return s.allocLocal (.vector (← xs.mapM s.lookupVal))
  | .promise forced thunk cached => do
    return s.allocLocal (.promise forced (← s.lookupVal thunk) (← s.lookupVal cached))
  | .leaf bytes => some (s.allocLocal (.leaf bytes))
  | .hash capacity =>
    if capacity = 0 then none
    else
      let p := s.alloc (.storage (List.replicate capacity .empty))
      some (p.2.allocLocal (.hash capacity 0 0 p.1 s.store.regions.length))
  | .closure funcPtr captures => do
    let captures ← captures.mapM s.lookup
    if captures.isEmpty then
      return s.allocLocal (.closure funcPtr none)
    else
      let p := s.alloc (.env captures)
      return p.2.allocLocal (.closure funcPtr (some p.1))
  | .cell x => do
    let p := s.alloc (.cell (← s.lookupVal x))
    return (p.2.bindLocal (.cell p.1)).emit .done
  | _ => none

def execRead (x : Loc) (f : Field) (s : State) : Option State := do
  let a ← s.address x
  let h ← s.holder a f.part
  let o ← s.store.mem.heap h
  let c ← o.block.get f
  let seen ← s.observe c
  return (s.bindLocal c).emit seen

/-- The values go through the barrier for the container at `a`, and are stored in its part `h`. -/
def storeInto (a h : Addr) (u : Update) (vs : List Val) (s : State) : Option State := do
  let (vs, store) ← regionWriteBarrierRange (arenaAt s.store.mem) a vs s.store
  let o ← store.mem.heap h
  let b ← o.block.update u vs
  return { s.emit .done with store := { store with mem := store.mem.store h b } }

def execWrite (x : Loc) (u : Update) (args : List Loc) (s : State) : Option State := do
  let a ← s.address x
  let h ← s.holder a u.part
  let vs ← args.mapM s.lookupVal
  storeInto arenaAt a h u vs s

/-- The slots that `vector-copy!` copies. -/
def Block.slice (start stop : ℕ) : Block → Option (List Val)
  | .vector elems =>
    if start ≤ stop ∧ stop ≤ elems.length then some ((elems.drop start).take (stop - start))
    else none
  | _ => none

def execVectorCopy (dst : Loc) (at_ : ℕ) (src : Loc) (start stop : ℕ) (s : State) :
    Option State := do
  let a ← s.address dst
  let from_ ← s.address src
  let o ← s.store.mem.heap from_
  let vs ← o.block.slice start stop
  storeInto arenaAt a a (.vectorFill at_) vs s

/-- The new arrays are allocated in the table's home arena. A table is created with a positive
capacity. -/
def execHashResize (x : Loc) (layout : List (Option ℕ)) (s : State) : Option State := do
  let a ← s.address x
  let o ← s.store.mem.heap a
  match o.block with
  | .hash capacity size _ arrays home =>
    if 0 < capacity ∧ layout.length = 2 * capacity then
      let arrays ← s.store.mem.heap arrays
      match arrays.block with
      | .storage entries =>
        let entries ← rehash entries layout
        let p := s.store.mem.alloc home (.storage entries)
        let mem := p.2.store a (.hash (2 * capacity) size 0 p.1 home)
        return { s.emit .done with store := { s.store with mem := mem } }
      | _ => none
    else none
  | _ => none

/-- With `erased`, the region operations only open and close a scope. -/
def execRegionPush (erased : Bool) (s : State) : State :=
  { s.emit .done with
    store := if erased then s.store else regionPush s.store
    scopes := [] :: s.scopes }

def execRegionPop (erased : Bool) (result : Loc) (s : State) : Option State := do
  let v ← s.lookupVal result
  match s.scopes with
  | _ :: outer :: rest =>
    if erased then
      return { s.emit .done with scopes := (outer ++ [.val v]) :: rest }
    else
      let (v, store) ← regionEscapeTaggedValue (arenaAt s.store.mem) v s.store
      return { s.emit .done with
        store := regionPop store
        scopes := (outer ++ [.val v]) :: rest }
  | _ => none

def exec (erased : Bool) (op : Op) (s : State) : Option State :=
  match op with
  | .int n => some ((s.bindLocal (.val (.int n))).emit .done)
  | .imm c => some ((s.bindLocal (.val (.imm c))).emit .done)
  | .read x f => execRead x f s
  | .write x u args => execWrite arenaAt x u args s
  | .vectorCopy dst at_ src start stop => execVectorCopy arenaAt dst at_ src start stop s
  | .hashResize x layout => execHashResize x layout s
  | .regionPush => some (execRegionPush erased s)
  | .regionPop result => execRegionPop arenaAt erased result s
  | op => execAlloc op s

/-- One operation of the program; `none` when it has finished or has no meaning. -/
def step (erased : Bool) (prog : Prog) (s : State) : Option State :=
  (prog s.trace).bind fun op => exec arenaAt erased op s

/-- `n` operations from the empty heap. -/
def run (erased : Bool) (prog : Prog) (n : ℕ) : Option State :=
  runN (step arenaAt erased prog) n .init

/-! ## Staying up to date -/

/-- The blocks that an operation reads or writes by itself. -/
def State.accessed (s : State) : Op → List Addr
  | .read x f => access x f.part
  | .write x u _ => access x u.part
  | .vectorCopy dst _ src _ _ => access dst .object ++ access src .object
  | .hashResize x _ => access x .storage
  | _ => []
where
  access (x : Loc) (p : Target) : List Addr :=
    (s.address x).toList.flatMap fun a => a :: (s.holder a p).toList

/-- An object that the evacuator will copy. -/
def Op.evacuable : Op → Bool
  | .vector xs => 8 + 16 * xs.length ≤ maxObjectBytes
  | .leaf bytes => 0 < bytes.length ∧ bytes.length ≤ maxObjectBytes
  | _ => true

/-- The operation finds the state in order: what it accesses has missed no mutation, there is room
on the region stack, the evacuator can handle its object, and no captured integer looks like an
address inside an active region. -/
structure Allowed (s : State) (op : Op) : Prop where
  current : ∀ a ∈ s.accessed op, ∀ o, s.store.mem.heap a = some o → o.current = true
  room : op = .regionPush → s.store.regions.length < maxRegionDepth
  evacuable : op.evacuable = true
  ints : ∀ a o, s.store.mem.heap a = some o → ∀ n ∈ o.block.capturedInts,
    arenaAt s.store.mem n = 0

end Region
