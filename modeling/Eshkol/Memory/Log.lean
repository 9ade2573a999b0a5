import Eshkol.Distributed.Rga

/-!
# Vector clocks as values

The operations on vector clocks where the clocks are values that may have been read from a file.
They have no result where they would fail on a value of another shape, or on a counter that is not
an exact integer.
-/

namespace Memory

open Scheme (Datum)
open Distributed

variable {δ : Type}

/-- A vector clock as a value. -/
def clockDatum (clock : Clock (Datum δ)) : Datum δ :=
  .list (clock.map fun entry => .list [entry.1, .integer entry.2])

section operations

variable [DecidableEq δ]

/-- `cadr` of a clock's entry, without its `car`. -/
def counterOf : Datum δ → Option (Datum δ)
  | .pair count _ => some count
  | _ => none

/-- `vector-clock-ref`. -/
def vectorClockRef : Datum δ → Datum δ → Option (Datum δ)
  | .null, _ => some (.integer 0)
  | .pair (.pair m rest) clock, node =>
    if node = m then counterOf rest else vectorClockRef clock node
  | _, _ => none

/-- `vector-clock-set`. -/
def vectorClockSet : Datum δ → Datum δ → Datum δ → Option (Datum δ)
  | .null, node, counter => some (.list [.list [node, counter]])
  | .pair (.pair m rest) clock, node, counter =>
    if node = m then some (.pair (.list [node, counter]) clock)
    else (vectorClockSet clock node counter).map (.pair (.pair m rest))
  | _, _, _ => none

/-- `vector-clock-tick` by one. -/
def vectorClockTick (clock node : Datum δ) : Option (Datum δ) :=
  match vectorClockRef clock node with
  | some (.integer count) => vectorClockSet clock node (.integer (count + 1))
  | _ => none

/-- `distributed-max`. -/
def distributedMax : Datum δ → Datum δ → Option (Datum δ)
  | .integer a, .integer b => some (.integer (if b < a then a else b))
  | _, _ => none

/-- `vector-clock-merge`. -/
def vectorClockMerge (a : Datum δ) : Datum δ → Option (Datum δ)
  | .null => some a
  | .pair (.pair node rest) b => do
    let count ← counterOf rest
    let own ← vectorClockRef a node
    let merged ← distributedMax own count
    let a' ← vectorClockSet a node merged
    vectorClockMerge a' b
  | _ => none

variable {clock a b : Clock (Datum δ)} {node : Datum δ}

@[simp]
lemma vectorClockRef_clockDatum :
    vectorClockRef (clockDatum clock) node = some (.integer (clock.ref node)) := by
  induction clock with
  | nil => rfl
  | cons e clock ih =>
    obtain ⟨m, count⟩ := e
    show (if node = m then some (Datum.integer (count : ℤ)) else _) = _
    rw [Counts.ref]
    split
    · rfl
    · exact ih

@[simp]
lemma vectorClockSet_clockDatum {n : ℕ} :
    vectorClockSet (clockDatum clock) node (.integer n) = some (clockDatum (clock.set node n)) := by
  induction clock with
  | nil => rfl
  | cons e clock ih =>
    obtain ⟨m, count⟩ := e
    show (if node = m then some _ else (vectorClockSet (clockDatum clock) node _).map _) = _
    rw [Counts.set, ih]
    split
    · rfl
    · rfl

@[simp]
lemma vectorClockTick_clockDatum :
    vectorClockTick (clockDatum clock) node = some (clockDatum (clock.tick node)) := by
  rw [vectorClockTick, vectorClockRef_clockDatum]
  exact vectorClockSet_clockDatum (n := clock.ref node + 1)

@[simp]
lemma vectorClockMerge_clockDatum :
    vectorClockMerge (clockDatum a) (clockDatum b) = some (clockDatum (a.merge b)) := by
  induction b generalizing a with
  | nil => rfl
  | cons e b ih =>
    obtain ⟨m, count⟩ := e
    have hmax : distributedMax (.integer (a.ref m) : Datum δ) (.integer count) =
        some (.integer ((max (a.ref m) count : ℕ) : ℤ)) := by
      rw [distributedMax]
      congr 2
      split <;> omega
    show (do
      let own ← vectorClockRef (clockDatum a) m
      let merged ← distributedMax own (.integer count)
      let a' ← vectorClockSet (clockDatum a) m merged
      vectorClockMerge a' (clockDatum b)) = _
    simp only [vectorClockRef_clockDatum, hmax, vectorClockSet_clockDatum, Option.bind_eq_bind,
      Option.bind_some, ih, Counts.merge, distributedMax_eq]

end operations

end Memory

/-!
## The event log

Events are chained by the hash of their content and kept in a sequence that replicas may merge.
-/

namespace Memory

open Scheme (Datum Text DoubleText)
open Distributed

variable {δ : Type}

/-- An event: `(mem-ev-v1 id prev-hash vclock node type payload)`. -/
def makeEvent (id : Text) (prev vclock node type payload : Datum δ) : Datum δ :=
  .list [.symbol "mem-ev-v1".toList, .string id, prev, vclock, node, type, payload]

/-- `#(mem-log node-id rga vclock prev-hash)`. -/
structure MemoryLog (δ : Type) where
  node : Datum δ
  rga : Rga (Datum δ) (Datum δ)
  vclock : Datum δ
  prev : Datum δ

variable [DecidableEq δ] [DoubleText δ]

/-- `event-content-hash`. -/
def eventContentHash (sha256 : Text → Text) (node prev vclock type payload : Datum δ) : Text :=
  sha256 (Datum.canonicalString (.list [node, prev, vclock, type, payload]))

/-- What an append makes before it changes the log: the clock, the id and the event. -/
structure Proposal (δ : Type) where
  vclock : Datum δ
  id : Text
  event : Datum δ

namespace MemoryLog

/-- `make-memory-log`. -/
def make (node : Datum δ) : MemoryLog δ := ⟨node, Rga.make, .null, .boolean false⟩

/-- The next event of a log: tick the clock, hash and chain. -/
def propose (sha256 : Text → Text) (log : MemoryLog δ) (type payload : Datum δ) :
    Option (Proposal δ) :=
  (vectorClockTick log.vclock log.node).map fun vc =>
    let id := eventContentHash sha256 log.node log.prev vc type payload
    ⟨vc, id, makeEvent id log.prev vc log.node type payload⟩

/-- The log after the proposed event. -/
def advance (log : MemoryLog δ) (proposal : Proposal δ) : Option (MemoryLog δ) :=
  (log.rga.append log.node proposal.event).map fun rga =>
    { log with
      rga := rga
      vclock := proposal.vclock
      prev := .string proposal.id }

/-- `memory-append!`: the event and the log after it. -/
def append (sha256 : Text → Text) (log : MemoryLog δ) (type payload : Datum δ) :
    Option (Datum δ × MemoryLog δ) := do
  let proposal ← log.propose sha256 type payload
  let log' ← log.advance proposal
  some (proposal.event, log')

/-- `memory-events`. -/
def events (log : MemoryLog δ) : Option (List (Datum δ)) := log.rga.values

/-- `memory-merge`. -/
def merge (a b : MemoryLog δ) : Option (MemoryLog δ) :=
  (vectorClockMerge a.vclock b.vclock).map fun vclock =>
    { node := a.node
      rga := a.rga.merge b.rga
      vclock := vclock
      prev := .boolean false }

end MemoryLog

end Memory
