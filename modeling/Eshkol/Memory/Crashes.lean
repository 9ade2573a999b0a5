import Eshkol.Memory.ParseTheorems
import Eshkol.Memory.Store

/-!
# Runs of the store with crashes

One process at a time has the store open. It appends to it, stops or crashes, and the store is opened
again. What is on the disk stays there.
-/

namespace Memory

open Scheme (Datum Text DoubleText fullLines lineRoom)

variable {δ : Type}

/-- The files, the log of the process that has the store open, and the events that appends returned. -/
structure StoreWorld (δ : Type) where
  files : Files
  log : Option (MemoryLog δ)
  returned : List (Datum δ)

/-- What happens to the store. A crash in an append leaves so many bytes of the line in the file. -/
inductive StoreAction (δ : Type) where
  | append (calls : LibcCalls) (headWritten : Bool) (type payload : Datum δ)
  | crash (written : ℕ) (headWritten : Bool) (type payload : Datum δ)
  | stop
  | openFull (node : Datum δ)
  | openFast (node : Datum δ)

/-- Before the first run. -/
def StoreWorld.start : StoreWorld δ := ⟨⟨none, none⟩, none, []⟩

variable [DecidableEq δ] [DoubleText δ]

/-- The log file that a crash leaves, and the head: it is written after the whole line. -/
def crashedFiles (files : Files) (log : MemoryLog δ) (proposal : Proposal δ) (written : ℕ)
    (headWritten : Bool) : Files :=
  let line := eventLine proposal.event
  { log := some (files.log.getD [] ++ line.take written)
    head :=
      if headWritten ∧ line.length ≤ written then
        some (headText { log with vclock := proposal.vclock, prev := .string proposal.id })
      else files.head }

def storeStep (digest : Text → Text) (w : StoreWorld δ) : StoreAction δ → Option (StoreWorld δ)
  | .append calls headWritten type payload => do
    let log ← w.log
    let r ← memoryStoreAppend digest calls headWritten w.files log type payload
    some ⟨r.files, some r.log, w.returned ++ if r.event = .boolean false then [] else [r.event]⟩
  | .crash written headWritten type payload => do
    let log ← w.log
    let proposal ← proposeEvent digest log type payload
    some { w with files := crashedFiles w.files log proposal written headWritten, log := none }
  | .stop => some { w with log := none }
  | .openFull node => (memoryStoreOpen node w.files.log).map fun log => { w with log := some log }
  | .openFast node => (memoryStoreOpenFast node w.files).map fun log => { w with log := some log }

/-- Any opening finds the events that were returned, once each and in their order, and both ways of
opening go on from the same event and clock. -/
def Survives (w : StoreWorld δ) : Prop :=
  ∀ node, ∃ log fast events, memoryStoreOpen node w.files.log = some log ∧ log.events = some events ∧
    w.returned.Sublist events ∧ events.Nodup ∧ memoryStoreOpenFast node w.files = some fast ∧
    fast.prev = log.prev ∧ fast.vclock = log.vclock

/-! ## Safe actions -/

/-- The last write to the file was complete. -/
def EndsClean (file : Option Text) : Prop := ∀ c, (file.getD []).getLast? = some c → c = '\n'

/-- The text of an event is a line that `read-line` returns whole and that is parsed to the event. -/
structure Writable (ev : Datum δ) : Prop where
  plain : Plain ev
  fits : ev.canonicalString.length ≤ lineRoom

/-- An event may be appended to a file: its line can be read back, the file has no torn line, and no
event in it has the same hash. -/
structure Appendable (file : Option Text) (proposal : Proposal δ) : Prop where
  writable : Writable proposal.event
  clean : EndsClean file
  fresh : ∀ line ∈ fullLines (file.getD []),
    memoryEventId (msParse line : Datum δ) ≠ some (.string proposal.id)

/-- What an append has to meet: its event may be appended and the calls write it, or nothing is
written. -/
def SafeAction (digest : Text → Text) (w : StoreWorld δ) : StoreAction δ → Prop
  | .append calls _ type payload => ∀ log proposal, w.log = some log →
      proposeEvent digest log type payload = some proposal → calls.fopen = true →
      Appendable w.files.log proposal ∧ calls.Persist (eventLine proposal.event)
  | .crash _ _ type payload => ∀ log proposal, w.log = some log →
      proposeEvent digest log type payload = some proposal → Appendable w.files.log proposal
  | _ => True

/-- The worlds that actions lead to. -/
def StoreReachable (digest : Text → Text) (w : StoreWorld δ) : Prop :=
  Relation.ReflTransGen (fun w w' => ∃ a, storeStep digest w a = some w') .start w

/-- The worlds that safe actions lead to. -/
def SafelyReachable (digest : Text → Text) (w : StoreWorld δ) : Prop :=
  Relation.ReflTransGen (fun w w' => ∃ a, SafeAction digest w a ∧ storeStep digest w a = some w') .start w

end Memory
