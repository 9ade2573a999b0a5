import Eshkol.Memory.Commitment

/-!
# Stores that appends built

The file of a store that only appends wrote to is read back to the events that they returned, and passes
the verification and the audit.
-/

namespace Memory

open Scheme (Datum Text DoubleText fileLines fullLines lineRoom)
open Distributed (Clock Counts)

variable {δ : Type}

/-- The elements of a plain list are plain. -/
lemma Plain.listRef {d e : Datum δ} {n : ℕ} (h : Plain d) (he : listRef d n = some e) : Plain e := by
  induction n generalizing d with
  | zero =>
    cases d with
    | pair a d =>
      obtain rfl := Option.some.inj he
      exact h.1
    | _ => cases he
  | succ n ih =>
    cases d with
    | pair a d => exact ih h.2 he
    | _ => cases he

/-! ## Payloads -/

/-- A symbol like an identifier. -/
def IsName (d : Datum δ) : Prop := ∃ name, d = .symbol name ∧ IsToken name ∧ ∀ c ∈ name, IsPrinted c

/-- A payload: an alist of symbols, each with a string or an exact integer. -/
inductive IsPayload : Datum δ → Prop
  | nil : IsPayload .null
  | string {key payload : Datum δ} {s : Text} : IsName key → IsPayload payload →
      IsPayload (.pair (.pair key (.string s)) payload)
  | integer {key payload : Datum δ} {i : ℤ} : IsName key → IsPayload payload →
      IsPayload (.pair (.pair key (.integer i)) payload)

lemma IsName.plain {d : Datum δ} (h : IsName d) : Plain d := by
  obtain ⟨name, rfl, hname⟩ := h
  exact hname

/-- Sanitized strings can be written between quotes. -/
lemma sanitizeLoop_spec (s : Text) :
    '"' ∉ sanitizeLoop s ∧ ∀ c ∈ sanitizeLoop s, IsPrinted c := by
  induction s with
  | nil => simp [sanitizeLoop]
  | cons c s ih =>
    rw [sanitizeLoop]
    split_ifs with hcontinues hbad
    · exact ih
    · have hblank : IsPrinted ' ' := ⟨by decide, by decide⟩
      rw [List.forall_mem_cons, List.mem_cons, not_or]
      exact ⟨⟨by decide, ih.1⟩, hblank, ih.2⟩
    · rw [not_or, not_or, not_lt, not_lt] at hbad
      rw [List.forall_mem_cons, List.mem_cons, not_or]
      exact ⟨⟨Ne.symm hbad.1, ih.1⟩, hbad.2, ih.2⟩

/-- Payloads are sanitized to plain values. -/
lemma IsPayload.sanitize {payload : Datum δ} (h : IsPayload payload) :
    ∃ clean, msSanitizePayload payload = some clean ∧ Plain clean := by
  induction h with
  | nil => exact ⟨.null, rfl, trivial⟩
  | @string key payload s hkey _ ih =>
    obtain ⟨clean, hclean, hplain⟩ := ih
    refine ⟨.pair (.pair key (.string (memoryStoreSanitize s))) clean, ?_, ?_⟩
    · rw [msSanitizePayload, hclean]
      rfl
    · exact ⟨⟨hkey.plain, sanitizeLoop_spec _⟩, hplain⟩
  | @integer key payload i hkey _ ih =>
    obtain ⟨clean, hclean, hplain⟩ := ih
    refine ⟨.pair (.pair key (.integer i)) clean, ?_, ⟨⟨hkey.plain, trivial⟩, hplain⟩⟩
    rw [msSanitizePayload, hclean]
    rfl

variable [DecidableEq δ]

/-- A clock that ticks for a plain node stays plain. -/
lemma Plain.set {clock : Clock (Datum δ)} {node : Datum δ} {n : ℕ} (h : Plain (clockDatum clock))
    (hnode : Plain node) : Plain (clockDatum (clock.set node n)) := by
  induction clock with
  | nil => exact ⟨⟨hnode, trivial, trivial⟩, trivial⟩
  | cons e clock ih =>
    obtain ⟨m, count⟩ := e
    obtain ⟨hentry, hclock⟩ := h
    rw [Counts.set]
    split
    · exact ⟨⟨hnode, trivial, trivial⟩, hclock⟩
    · exact ⟨hentry, ih hclock⟩

/-! ## Chains -/

variable [DoubleText δ] {digest : Text → Text} {events : List (Datum δ)} {prev : Datum δ}
  {clock : Clock (Datum δ)}

lemma Chain.hashed (h : Chain digest events prev clock) : ∀ ev ∈ events, Hashed digest ev := by
  induction h with
  | nil => simp
  | snoc _ hid _ _ ih =>
    intro ev hev
    rcases List.mem_append.1 hev with hev | hev
    · exact ih ev hev
    · rw [List.mem_singleton.1 hev]
      exact ⟨isMemoryEvent_makeEvent, _, rfl, congrArg some hid.symm⟩

lemma Chain.links (h : Chain digest events prev clock) : Links events prev := by
  induction h with
  | nil => exact .nil
  | snoc _ _ _ _ ih => exact .snoc ih rfl rfl

/-- No event has a later clock than the last. -/
lemma Chain.clock_le (h : Chain digest events prev clock) :
    ∀ ev ∈ events, ∃ c, memoryEventVclock ev = some (clockDatum c) ∧ ∀ node, c.ref node ≤ clock.ref node := by
  induction h with
  | nil => simp
  | @snoc events prev node type payload clock id _ _ _ _ ih =>
    intro ev hev
    rcases List.mem_append.1 hev with hev | hev
    · obtain ⟨c, hc, hle⟩ := ih ev hev
      exact ⟨c, hc, fun m => (hle m).trans Clock.le_ref_tick⟩
    · rw [List.mem_singleton.1 hev]
      exact ⟨clock.tick node, rfl, fun m => Nat.le_refl _⟩

omit [DecidableEq δ] in
lemma sealed_makeEvent {id : Text} {prev vclock node type payload : Datum δ}
    (h : Plain (makeEvent id prev vclock node type payload)) :
    Sealed (makeEvent id prev vclock node type payload) where
  shape := ⟨_, rfl, rfl⟩
  printable := h.printable
  ascii text htext c hc := by
    obtain rfl := Option.some.inj htext
    have hcontent : Plain (.list [node, prev, vclock, type, payload]) := by
      rw [makeEvent, plain_list] at h
      rw [plain_list]
      simp only [List.forall_mem_cons] at h ⊢
      obtain ⟨-, -, hprev, hvclock, hnode, htype, hpayload, hnil⟩ := h
      exact ⟨hnode, hprev, hvclock, htype, hpayload, hnil⟩
    exact (hcontent.isPrinted_canonicalString.1 c hc).isContinuation

lemma Chain.sealed (h : Chain digest events prev clock) : ∀ ev ∈ events, Sealed ev := by
  induction h with
  | nil => simp
  | snoc _ _ hwritable _ ih =>
    intro ev hev
    rcases List.mem_append.1 hev with hev | hev
    · exact ih ev hev
    · rw [List.mem_singleton.1 hev]
      exact sealed_makeEvent hwritable.plain

/-- The next event is not one of the chain: its clock is later. So it has another identifier. -/
lemma Chain.fresh {node type payload : Datum δ} {id : Text} (h : Chain digest events prev clock)
    (hid : id = eventContentHash (sha256 digest) node prev (clockDatum (clock.tick node)) type payload)
    (hplain : Plain (makeEvent id prev (clockDatum (clock.tick node)) node type payload))
    (hcollision : NoCollision digest
      (events ++ [makeEvent id prev (clockDatum (clock.tick node)) node type payload])) :
    ∀ ev ∈ events, memoryEventId ev ≠ some (.string id) := by
  intro ev hev hsame
  have hmem := List.mem_append_left [makeEvent id prev (clockDatum (clock.tick node)) node type payload] hev
  have hlast : makeEvent id prev (clockDatum (clock.tick node)) node type payload ∈
      events ++ [makeEvent id prev (clockDatum (clock.tick node)) node type payload] :=
    List.mem_append_right _ (List.mem_singleton.2 rfl)
  have heq := Sealed.eq_of_id hcollision hmem hlast (h.sealed ev hev) (sealed_makeEvent hplain) (h.hashed ev hev)
    ⟨isMemoryEvent_makeEvent, _, rfl, congrArg some hid.symm⟩ hsame
  obtain ⟨c, hc, hle⟩ := h.clock_le ev hev
  rw [heq] at hc
  have hclock : clockDatum (clock.tick node) = clockDatum c := Option.some.inj hc
  have href := congrArg (fun d => vectorClockRef d node) hclock
  simp only [vectorClockRef_clockDatum, Option.some.injEq, Datum.integer.injEq, Clock.ref_tick_self] at href
  have := hle node
  omega

/-! ## The audit -/

/-- The hash is written in hexadecimal digits. -/
def HexDigest (digest : Text → Text) : Prop :=
  ∀ text, ∀ c ∈ digest text, c.isDigit = true ∨ ('a' ≤ c ∧ c ≤ 'f')

omit [DecidableEq δ] [DoubleText δ] in
lemma HexDigest.plain (h : HexDigest digest) (text : Text) : Plain (.string (digest text) : Datum δ) := by
  refine ⟨fun hmem => ?_, fun c hc => ?_⟩
  · rcases h text '"' hmem with hdigit | ⟨hle, -⟩
    · cases hdigit
    · exact absurd hle (by decide)
  · rcases h text c hc with hdigit | ⟨hlow, hhigh⟩
    · exact isPrinted_of_isDigit hdigit
    · exact ⟨le_trans (by decide) hlow, le_trans hhigh (by decide)⟩

/-- Appends of names and payloads, whose lines are written whole and fit, and openings by names. -/
def PlainAction (digest : Text → Text) (w : StoreWorld δ) : StoreAction δ → Prop
  | .append calls _ type payload => IsName type ∧ IsPayload payload ∧ ∀ log proposal, w.log = some log →
      proposeEvent digest log type payload = some proposal → calls.fopen = true →
      proposal.event.canonicalString.length ≤ lineRoom ∧ (eventLine proposal.event).length ≤ calls.fwrite
  | .stop => True
  | .openFull node => IsName node
  | _ => False

/-- The worlds that such appends and openings lead to. -/
def BuiltByAppends (digest : Text → Text) (w : StoreWorld δ) : Prop :=
  Relation.ReflTransGen (fun w w' => ∃ a, PlainAction digest w a ∧ storeStep digest w a = some w') .start w

/-- The file has the lines of a chain of plain events, those that were returned, and the open log is theirs. -/
structure Recorded (digest : Text → Text) (w : StoreWorld δ) (prev : Datum δ) (clock : Clock (Datum δ)) :
    Prop where
  chain : Chain digest w.returned prev clock
  file : w.files.log.getD [] = w.returned.flatMap eventLine
  log : ∀ log, w.log = some log → IsName log.node ∧ Opened log log.node w.returned prev clock

variable {w : StoreWorld δ}

lemma Recorded.fileHolds (h : Recorded digest w prev clock) : FileHolds w.files.log w.returned :=
  ⟨w.returned, [], [], by rw [h.file, List.append_nil], (List.append_nil _).symm, .empty⟩

lemma recorded_start : Recorded digest (.start : StoreWorld δ) (.boolean false) [] where
  chain := .nil
  file := rfl
  log log hlog := by cases hlog

/-- The next event of a plain store is plain. -/
lemma Recorded.plain_event {log : MemoryLog δ} {type payload : Datum δ} {proposal : Proposal δ}
    (hhex : HexDigest digest) (h : Recorded digest w prev clock) (hlog : w.log = some log) (htype : IsName type)
    (hpayload : IsPayload payload) (hproposal : proposeEvent digest log type payload = some proposal) :
    Plain proposal.event := by
  obtain ⟨clean, hclean, htick, hid, hevent⟩ := proposeEvent_eq_some hproposal
  obtain ⟨hnode, hopened⟩ := h.log log hlog
  obtain ⟨clean', hclean', hplain⟩ := hpayload.sanitize
  obtain rfl := Option.some.inj (hclean.symm.trans hclean')
  rw [hopened.vclock_eq, vectorClockTick_clockDatum, Option.some.injEq] at htick
  have hlast : Plain prev ∧ Plain (clockDatum clock) := by
    rcases h.chain.last with ⟨-, rfl, rfl⟩ | ⟨ev, hev, hevid, hevclock, -⟩
    · exact ⟨trivial, trivial⟩
    · have hplain := (h.chain.writable ev (List.mem_of_getLast? hev)).plain
      exact ⟨hplain.listRef hevid, hplain.listRef hevclock⟩
  have hidPlain : Plain (.string proposal.id : Datum δ) := by
    rw [hid]
    exact hhex.plain _
  have hmark : Plain (.symbol "mem-ev-v1".toList : Datum δ) := ⟨by decide, by decide⟩
  rw [hevent, makeEvent, plain_list]
  simp only [List.forall_mem_cons]
  refine ⟨hmark, hidPlain, ?_, ?_, hnode.plain, htype.plain, hplain, by simp⟩
  · rw [hopened.prev_eq]
    exact hlast.1
  · rw [← htick]
    exact hlast.2.set hnode.plain

/-- An append keeps the record, as long as no hash collides. -/
lemma Recorded.append {log : MemoryLog δ} {calls : LibcCalls} {headWritten : Bool} {type payload : Datum δ}
    {r : AppendResult δ} (hhex : HexDigest digest) (h : Recorded digest w prev clock) (hlog : w.log = some log)
    (hr : memoryStoreAppend digest calls headWritten w.files log type payload = some r)
    (hplain : PlainAction digest w (.append calls headWritten type payload))
    (hcollision : NoCollision digest (w.returned ++ if r.event = .boolean false then [] else [r.event])) :
    ∃ prev clock, Recorded digest
      ⟨r.files, some r.log, w.returned ++ if r.event = .boolean false then [] else [r.event]⟩ prev clock := by
  obtain ⟨htype, hpayload, hwritten⟩ := hplain
  obtain ⟨hnode, hopened⟩ := h.log log hlog
  obtain ⟨proposal, hproposal, -⟩ := Option.bind_eq_some_iff.1 hr
  have hevent := h.plain_event hhex hlog htype hpayload hproposal
  rcases memoryStoreAppend_cases hproposal hr with ⟨hfopen, hadvance, hreturned, hfile, -⟩ | ⟨-, rfl⟩
  · obtain ⟨hfits, hwhole⟩ := hwritten log proposal hlog hproposal hfopen
    obtain ⟨clean, -, htick, hid, hmake⟩ := proposeEvent_eq_some hproposal
    rw [hopened.vclock_eq, vectorClockTick_clockDatum, Option.some.injEq] at htick
    rw [← htick, hopened.prev_eq] at hid hmake
    have hne : r.event ≠ .boolean false := by
      rw [hreturned, hmake]
      intro heq
      cases heq
    rw [if_neg hne, hreturned] at hcollision ⊢
    have hfresh : ∀ ev ∈ w.returned, memoryEventId ev ≠ some (.string proposal.id) := by
      have hplain := hevent
      rw [hmake] at hplain hcollision
      exact h.chain.fresh hid hplain hcollision
    obtain ⟨hclock, -, -, hnext⟩ :=
      h.chain.propose hopened.prev_eq hopened.vclock_eq hproposal ⟨hevent, hfits⟩ hfresh
    obtain ⟨rga, hrga, hadvanced⟩ := Option.map_eq_some_iff.1 hadvance
    obtain ⟨rga', hrga', happended⟩ := hopened.appended.append proposal.event
    obtain rfl := Option.some.inj (hrga.symm.trans hrga')
    refine ⟨_, _, hnext, ?_, fun log' hlog' => ?_⟩
    · show r.files.log.getD [] = _
      rw [hfile, Option.getD_some, h.file, List.take_of_length_le hwhole, List.flatMap_append,
        List.flatMap_singleton]
    · obtain rfl := Option.some.inj hlog'
      rw [← hadvanced]
      exact ⟨hnode, rfl, rfl, hclock, happended⟩
  · rw [if_pos rfl, List.append_nil]
    refine ⟨prev, clock, h.chain, h.file, fun log' hlog' => ?_⟩
    obtain rfl := Option.some.inj hlog'
    exact ⟨hnode, hopened⟩

/-- Runs of plain actions keep the record. -/
lemma BuiltByAppends.recorded (hhex : HexDigest digest) (h : BuiltByAppends digest w)
    (hcollision : NoCollision digest w.returned) : ∃ prev clock, Recorded digest w prev clock := by
  induction h with
  | refl => exact ⟨_, _, recorded_start⟩
  | @tail w w' _ hstep ih =>
    obtain ⟨a, hplain, hstep⟩ := hstep
    cases a with
    | append calls headWritten type payload =>
      obtain ⟨log, hlog, hstep⟩ := Option.bind_eq_some_iff.1 hstep
      obtain ⟨r, hr, hstep⟩ := Option.bind_eq_some_iff.1 hstep
      obtain rfl := Option.some.inj hstep
      have hbefore : NoCollision digest w.returned := fun ev hev ev' hev' =>
        hcollision ev (List.mem_append_left _ hev) ev' (List.mem_append_left _ hev')
      obtain ⟨prev, clock, hrecorded⟩ := ih hbefore
      exact hrecorded.append hhex hlog hr hplain hcollision
    | crash written headWritten type payload => exact hplain.elim
    | stop =>
      obtain rfl := Option.some.inj hstep
      obtain ⟨prev, clock, hrecorded⟩ := ih hcollision
      exact ⟨prev, clock, hrecorded.chain, hrecorded.file, fun log hlog => by cases hlog⟩
    | openFull node =>
      obtain ⟨log, hopen, rfl⟩ := Option.map_eq_some_iff.1 hstep
      obtain ⟨prev, clock, hrecorded⟩ := ih hcollision
      obtain ⟨log', hopen', hopened⟩ := memoryStoreOpen_chain node hrecorded.chain hrecorded.fileHolds
      obtain rfl := Option.some.inj (hopen.symm.trans hopen')
      refine ⟨prev, clock, hrecorded.chain, hrecorded.file, fun log' hlog' => ?_⟩
      obtain rfl := Option.some.inj hlog'
      rw [hopened.node_eq]
      exact ⟨hplain, hopened⟩
    | openFast node => exact hplain.elim

section example_files

end example_files

end Memory
