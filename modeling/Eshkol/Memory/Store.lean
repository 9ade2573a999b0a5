import Eshkol.Memory.Log
import Eshkol.Memory.Parse
import Eshkol.Scheme.Ports

/-!
# The durable store

An event log and the file that its events are written to, one canonical line each, with the file of
the head beside it. Strings and files are their bytes, each as the character of its code, and the
bytes of a string are taken to be UTF-8. An operation that raises an error has no result.
-/

namespace Memory

open Scheme (Datum Text DoubleText fileLines readLine)

/-- `string-length`: the characters of a text. -/
def stringLength (s : Text) : ℕ := s.countP fun c => !isContinuation c

/-- `sha256` of `agent.crypto`. It hashes as many bytes as the text has characters. -/
def sha256 (digest : Text → Text) (data : Text) : Text := digest (data.take (stringLength data))

/-- The loop of `memory-store-sanitize`: every character outside of what is allowed becomes a blank. -/
def sanitizeLoop : Text → Text
  | [] => []
  | c :: s =>
    if isContinuation c then sanitizeLoop s
    else if c = '"' ∨ c < ' ' ∨ '~' < c then ' ' :: sanitizeLoop s
    else c :: sanitizeLoop s

/-- `memory-store-sanitize`. -/
def memoryStoreSanitize (str : Text) : Text := sanitizeLoop (marked str)

/-- The files of a store, where they exist. -/
structure Files where
  log : Option Text
  head : Option Text
  deriving DecidableEq, Repr

/-- What the calls of one append come to: whether there is a file to write to, how many bytes get
into it, and whether the later calls succeed. -/
structure LibcCalls where
  fopen : Bool
  fwrite : ℕ
  fflush : Bool
  fsync : Bool
  fclose : Bool
  deriving DecidableEq, Repr

/-- `ms-append-fsync!`, with the file after it. -/
def msAppendFsync (calls : LibcCalls) (file : Option Text) (line : Text) : Bool × Option Text :=
  if calls.fopen then (true, some (file.getD [] ++ line.take calls.fwrite)) else (false, file)

variable {δ : Type}

/-- An entry of a payload, its value sanitized if it is a string. -/
def sanitizeEntry : Datum δ → Datum δ
  | .pair key (.string s) => .pair key (.string (memoryStoreSanitize s))
  | entry => entry

/-- `ms-sanitize-payload`. -/
def msSanitizePayload : Datum δ → Option (Datum δ)
  | .null => some .null
  | .pair entry rest => (msSanitizePayload rest).map (.pair (sanitizeEntry entry))
  | _ => none

/-- `list-ref`. -/
def listRef : Datum δ → ℕ → Option (Datum δ)
  | .pair a _, 0 => some a
  | .pair _ d, n + 1 => listRef d n
  | _, _ => none

def memoryEventId (ev : Datum δ) : Option (Datum δ) := listRef ev 1
def memoryEventPrev (ev : Datum δ) : Option (Datum δ) := listRef ev 2
def memoryEventVclock (ev : Datum δ) : Option (Datum δ) := listRef ev 3
def memoryEventNode (ev : Datum δ) : Option (Datum δ) := listRef ev 4
def memoryEventType (ev : Datum δ) : Option (Datum δ) := listRef ev 5
def memoryEventPayload (ev : Datum δ) : Option (Datum δ) := listRef ev 6

variable [DecidableEq δ]

/-- `memory-event?`. -/
def isMemoryEvent : Datum δ → Bool
  | .pair a _ => a = .symbol "mem-ev-v1".toList
  | _ => false

variable [DoubleText δ]

/-! ## Opening -/

/-- `ms-replay-event!`. -/
def msReplayEvent (log : MemoryLog δ) (ev : Datum δ) : Option (MemoryLog δ) := do
  let rga ← log.rga.append log.node ev
  let vclock ← memoryEventVclock ev
  let vclock ← vectorClockMerge log.vclock vclock
  let id ← memoryEventId ev
  some { log with rga := rga, vclock := vclock, prev := id }

/-- The loop of `memory-store-open`. -/
@[grind =]
def openLines (log : MemoryLog δ) : List Text → Option (MemoryLog δ)
  | [] => some log
  | line :: lines =>
    if line = [] then openLines log lines
    else if isMemoryEvent (msParse line : Datum δ) then do
      let log ← msReplayEvent log (msParse line)
      openLines log lines
    else openLines log lines

/-- `memory-store-open`. -/
def memoryStoreOpen (node : Datum δ) (file : Option Text) : Option (MemoryLog δ) :=
  match file with
  | none => some (.make node)
  | some text => openLines (.make node) (fileLines text)

/-- The loop of `ms-last-event`. -/
@[grind =]
def lastEventLoop (last : Datum δ) : List Text → Datum δ
  | [] => last
  | line :: lines =>
    if line = [] then lastEventLoop last lines
    else lastEventLoop (if isMemoryEvent (msParse line : Datum δ) then msParse line else last) lines

/-- `ms-last-event`. -/
def msLastEvent (file : Option Text) : Datum δ :=
  match file with
  | none => .boolean false
  | some text => lastEventLoop (.boolean false) (fileLines text)

/-- `ms-read-head`: nothing, or the previous hash and the clock. -/
def msReadHead (file : Option Text) : Option (Option (Datum δ × Datum δ)) :=
  match file.bind readLine with
  | none => some none
  | some (line, _) =>
    match (msParse line : Datum δ) with
    | .pair a d =>
      if a = .symbol "ms-head-v1".toList then do
        let prev ← listRef (.pair a d) 1
        let vclock ← listRef (.pair a d) 2
        some (some (prev, vclock))
      else some none
    | _ => some none

/-- `memory-store-open-fast`. -/
def memoryStoreOpenFast (node : Datum δ) (files : Files) : Option (MemoryLog δ) := do
  let head ← msReadHead files.head
  let tail := msLastEvent files.log
  match head with
  | none => memoryStoreOpen node files.log
  | some (prev, vclock) =>
    if tail = .boolean false then memoryStoreOpen node files.log
    else do
      let id ← memoryEventId tail
      if prev = id then some { MemoryLog.make node with vclock := vclock, prev := prev }
      else do
        let vclock ← memoryEventVclock tail
        some { MemoryLog.make node with vclock := vclock, prev := id }

/-! ## Appending -/

/-- What `ms-write-head!` writes. -/
def headText (log : MemoryLog δ) : Text :=
  Datum.canonicalString (.list [.symbol "ms-head-v1".toList, log.prev, log.vclock]) ++ ['\n']

/-- The line of an event. -/
def eventLine (ev : Datum δ) : Text := ev.canonicalString ++ ['\n']

/-- What an append returns, and the log and the files after it. -/
structure AppendResult (δ : Type) where
  event : Datum δ
  log : MemoryLog δ
  files : Files

/-- The event that an append to the store is to write. -/
def proposeEvent (digest : Text → Text) (log : MemoryLog δ) (type payload : Datum δ) :
    Option (Proposal δ) := do
  let clean ← msSanitizePayload payload
  log.propose (sha256 digest) type clean

/-- `memory-store-append!`. The head is written to another file, which then replaces the old one,
or it is not. -/
def memoryStoreAppend (digest : Text → Text) (calls : LibcCalls) (headWritten : Bool)
    (files : Files) (log : MemoryLog δ) (type payload : Datum δ) : Option (AppendResult δ) := do
  let proposal ← proposeEvent digest log type payload
  let outcome := msAppendFsync calls files.log (eventLine proposal.event)
  if outcome.1 then do
    let log ← log.advance proposal
    let head := if headWritten then some (headText log) else files.head
    some ⟨proposal.event, log, ⟨outcome.2, head⟩⟩
  else some ⟨.boolean false, log, ⟨outcome.2, files.head⟩⟩

/-! ## Verification -/

/-- `event-content-hash` of the fields of an event. -/
def recomputedHash (digest : Text → Text) (ev : Datum δ) : Option Text := do
  let node ← memoryEventNode ev
  let prev ← memoryEventPrev ev
  let vclock ← memoryEventVclock ev
  let type ← memoryEventType ev
  let payload ← memoryEventPayload ev
  some (eventContentHash (sha256 digest) node prev vclock type payload)

/-- `memory-store-head`. -/
def memoryStoreHead (log : MemoryLog δ) : Option (Datum δ) := do
  let events ← log.events
  match events.getLast? with
  | none => some (.boolean false)
  | some ev => memoryEventId ev

end Memory

/-!
## Appending to the store

An append takes it that its line is on the disk as soon as the file could be opened.
-/

namespace Memory

open Scheme (Datum Text DoubleText)

variable {δ : Type}

section fields

variable {id : Text} {prev vclock node type payload : Datum δ}

@[simp]
lemma memoryEventId_makeEvent :
    memoryEventId (makeEvent id prev vclock node type payload) = some (.string id) := rfl

@[simp]
lemma memoryEventVclock_makeEvent :
    memoryEventVclock (makeEvent id prev vclock node type payload) = some vclock := rfl

@[simp]
lemma isMemoryEvent_makeEvent [DecidableEq δ] :
    isMemoryEvent (makeEvent id prev vclock node type payload) = true := by
  simp [isMemoryEvent, makeEvent, Datum.list]

end fields

variable [DecidableEq δ] [DoubleText δ] {digest : Text → Text} {calls : LibcCalls}
  {headWritten : Bool} {files : Files} {log : MemoryLog δ} {type payload : Datum δ}
  {proposal : Proposal δ} {r : AppendResult δ}

/-- What is proposed is an event with the proposed identifier and clock. -/
lemma proposeEvent_eq_some (h : proposeEvent digest log type payload = some proposal) :
    ∃ clean, msSanitizePayload payload = some clean ∧
      vectorClockTick log.vclock log.node = some proposal.vclock ∧
      proposal.id = eventContentHash (sha256 digest) log.node log.prev proposal.vclock type clean ∧
      proposal.event = makeEvent proposal.id log.prev proposal.vclock log.node type clean := by
  obtain ⟨clean, hclean, hpropose⟩ := Option.bind_eq_some_iff.1 h
  obtain ⟨vc, hvc, rfl⟩ := Option.map_eq_some_iff.1 hpropose
  exact ⟨clean, hclean, hvc, rfl, rfl⟩

/-- What an append comes to, by whether the file could be opened. -/
lemma memoryStoreAppend_cases (hproposal : proposeEvent digest log type payload = some proposal)
    (h : memoryStoreAppend digest calls headWritten files log type payload = some r) :
    (calls.fopen = true ∧ log.advance proposal = some r.log ∧ r.event = proposal.event ∧
      r.files.log = some (files.log.getD [] ++ (eventLine proposal.event).take calls.fwrite) ∧
      r.files.head = if headWritten then some (headText r.log) else files.head) ∨
    (calls.fopen = false ∧ r = ⟨.boolean false, log, files⟩) := by
  rw [memoryStoreAppend, hproposal, Option.bind_eq_bind, Option.bind_some, msAppendFsync] at h
  cases hfopen : calls.fopen with
  | true =>
    simp only [hfopen, if_true] at h
    obtain ⟨log', hadvance, h⟩ := Option.bind_eq_some_iff.1 h
    obtain rfl := Option.some.inj h
    exact .inl ⟨rfl, hadvance, rfl, rfl, rfl⟩
  | false =>
    simp only [hfopen] at h
    exact .inr ⟨rfl, (Option.some.inj h).symm⟩

/-- The whole line is written and synced. -/
structure LibcCalls.Persist (calls : LibcCalls) (line : Text) : Prop where
  fopen : calls.fopen = true
  fwrite : line.length ≤ calls.fwrite
  fflush : calls.fflush = true
  fsync : calls.fsync = true

/-- An append returns an event or changes the log only if its line is persisted. -/
theorem append_persists_iff (hproposal : proposeEvent digest log type payload = some proposal)
    (h : memoryStoreAppend digest calls headWritten files log type payload = some r) :
    (¬ calls.Persist (eventLine proposal.event) → r.event = .boolean false ∧ r.log = log) ↔
      (calls.fopen = true → calls.Persist (eventLine proposal.event)) := by
  obtain ⟨clean, -, -, -, hevent⟩ := proposeEvent_eq_some hproposal
  rcases memoryStoreAppend_cases hproposal h with ⟨hfopen, -, hreturned, -⟩ | ⟨hfopen, rfl⟩
  · have hne : r.event ≠ .boolean false := by
      rw [hreturned, hevent]
      exact fun heq => by cases heq
    constructor
    · intro hunchanged _
      by_contra hpersist
      exact hne (hunchanged hpersist).1
    · exact fun hpersist hnot => absurd (hpersist hfopen) hnot
  · refine iff_of_true (fun _ => ⟨rfl, rfl⟩) fun hopen => ?_
    rw [hfopen] at hopen
    cases hopen

/-- An append all of whose calls succeed. -/
theorem append_persists_iff_opened :
    ∃ (proposal : Proposal Scheme.WrittenDouble) (r : AppendResult Scheme.WrittenDouble),
      proposeEvent id (.make (.symbol ['n'])) (.symbol ['t']) .null = some proposal ∧
        memoryStoreAppend id ⟨true, 1000, true, true, true⟩ true ⟨none, none⟩
          (.make (.symbol ['n'])) (.symbol ['t']) .null = some r ∧
        ((¬ LibcCalls.Persist ⟨true, 1000, true, true, true⟩ (eventLine proposal.event) →
          r.event = .boolean false ∧ r.log = .make (.symbol ['n'])) ↔
            (true = true →
              LibcCalls.Persist ⟨true, 1000, true, true, true⟩ (eventLine proposal.event))) := by
  obtain ⟨proposal, hproposal⟩ : ∃ proposal, proposeEvent id
      (.make (.symbol ['n']) : MemoryLog Scheme.WrittenDouble) (.symbol ['t']) .null =
        some proposal := ⟨_, rfl⟩
  obtain ⟨r, hr⟩ : ∃ r, memoryStoreAppend id ⟨true, 1000, true, true, true⟩ true ⟨none, none⟩
      (.make (.symbol ['n']) : MemoryLog Scheme.WrittenDouble) (.symbol ['t']) .null = some r :=
    ⟨_, rfl⟩
  exact ⟨proposal, r, hproposal, hr, append_persists_iff hproposal hr⟩

/-- An append whose line does not get to the disk returns its event. -/
theorem append_not_persisted :
    ¬ ∀ (digest : Text → Text) (calls : LibcCalls) (headWritten : Bool) (files : Files)
      (log : MemoryLog Scheme.WrittenDouble) (type payload : Datum Scheme.WrittenDouble)
      (proposal : Proposal Scheme.WrittenDouble) (r : AppendResult Scheme.WrittenDouble),
      proposeEvent digest log type payload = some proposal →
      memoryStoreAppend digest calls headWritten files log type payload = some r →
      ¬ calls.Persist (eventLine proposal.event) → r.event = .boolean false ∧ r.log = log := by
  intro hall
  have hfull := hall id ⟨true, 0, false, false, false⟩ false ⟨none, none⟩ (.make (.symbol ['n']))
    (.symbol ['t']) .null _ _ rfl rfl fun hpersist => by cases hpersist.fsync
  exact absurd hfull.1 (by decide)

end Memory
