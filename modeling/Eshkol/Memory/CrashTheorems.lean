import Eshkol.Distributed.RgaTheorems
import Eshkol.Memory.Crashes

/-!
# What survives crashes

The events in the file are a chain, and what follows them is a torn line at most. As long as nothing is
appended to a torn line, both ways of opening find the end of the chain.
-/

namespace Memory

open Scheme (Datum Text DoubleText fileLines fullLines lineRoom)
open Distributed (Clock Counts)

variable {δ : Type} [DecidableEq δ] [DoubleText δ] {digest : Text → Text}

/-! ## Chains -/

/-- The events that one process after the other appended, with the last identifier and clock. -/
inductive Chain (digest : Text → Text) : List (Datum δ) → Datum δ → Clock (Datum δ) → Prop
  | nil : Chain digest [] (.boolean false) []
  | snoc {events : List (Datum δ)} {prev node type payload : Datum δ} {clock : Clock (Datum δ)} {id : Text} :
      Chain digest events prev clock →
      id = eventContentHash (sha256 digest) node prev (clockDatum (clock.tick node)) type payload →
      Writable (makeEvent id prev (clockDatum (clock.tick node)) node type payload) →
      (∀ ev ∈ events, memoryEventId ev ≠ some (.string id)) →
      Chain digest (events ++ [makeEvent id prev (clockDatum (clock.tick node)) node type payload])
        (.string id) (clock.tick node)

namespace Chain

variable {events : List (Datum δ)} {prev : Datum δ} {clock : Clock (Datum δ)}

lemma distinct (h : Chain digest events prev clock) : clock.Distinct := by
  induction h with
  | nil => exact List.nodup_nil
  | snoc _ _ _ _ ih => exact ih.tick

lemma writable (h : Chain digest events prev clock) : ∀ ev ∈ events, Writable ev := by
  induction h with
  | nil => simp
  | snoc _ _ hwritable _ ih =>
    intro ev hev
    rcases List.mem_append.1 hev with hev | hev
    · exact ih ev hev
    · rw [List.mem_singleton.1 hev]
      exact hwritable

lemma isMemoryEvent (h : Chain digest events prev clock) : ∀ ev ∈ events, isMemoryEvent ev = true := by
  induction h with
  | nil => simp
  | snoc _ _ _ _ ih =>
    intro ev hev
    rcases List.mem_append.1 hev with hev | hev
    · exact ih ev hev
    · rw [List.mem_singleton.1 hev, isMemoryEvent_makeEvent]

/-- Every event has an identifier of its own. -/
lemma nodup (h : Chain digest events prev clock) : events.Nodup := by
  induction h with
  | nil => exact List.nodup_nil
  | snoc _ _ _ hfresh ih =>
    rw [List.nodup_append]
    refine ⟨ih, List.nodup_singleton _, fun ev hev ev' hev' heq => ?_⟩
    rw [List.mem_singleton.1 hev'] at heq
    exact hfresh ev hev (by rw [heq, memoryEventId_makeEvent])

lemma eq_of_id (h : Chain digest events prev clock) : ∀ ev ∈ events, ∀ ev' ∈ events,
    memoryEventId ev = memoryEventId ev' → ev = ev' := by
  induction h with
  | nil => simp
  | snoc _ _ _ hfresh ih =>
    intro ev hev ev' hev' heq
    rw [List.mem_append, List.mem_singleton] at hev hev'
    rcases hev with hev | rfl
    · rcases hev' with hev' | rfl
      · exact ih ev hev ev' hev' heq
      · exact absurd (heq.trans memoryEventId_makeEvent) (hfresh ev hev)
    · rcases hev' with hev' | rfl
      · exact absurd (heq.symm.trans memoryEventId_makeEvent) (hfresh ev' hev')
      · rfl

/-- The last event is the one the chain goes on from. -/
lemma last (h : Chain digest events prev clock) :
    (events = [] ∧ prev = .boolean false ∧ clock = []) ∨
      ∃ ev, events.getLast? = some ev ∧ memoryEventId ev = some prev ∧
        memoryEventVclock ev = some (clockDatum clock) ∧ prev ≠ .boolean false := by
  cases h with
  | nil => exact .inl ⟨rfl, rfl, rfl⟩
  | snoc => exact .inr ⟨_, List.getLast?_concat, rfl, rfl, fun heq => by cases heq⟩

end Chain

lemma newline_notMem {s : Text} (h : ∀ c ∈ s, IsPrinted c) : '\n' ∉ s := fun hmem => (h _ hmem).ne_newline rfl

lemma marked_printed {s : Text} (h : ∀ c ∈ s, IsPrinted c) : marked s = s :=
  marked_eq_self fun c hc => (h c hc).isContinuation

omit [DecidableEq δ] in
lemma Writable.printed {ev : Datum δ} (h : Writable ev) : ∀ c ∈ ev.canonicalString, IsPrinted c :=
  h.plain.isPrinted_canonicalString.1

omit [DecidableEq δ] in
lemma Writable.msParse_eq {ev : Datum δ} (h : Writable ev) : msParse ev.canonicalString = ev :=
  h.plain.msParse_canonicalString

/-! ## Opening a chain -/

lemma openLines_filter (log : MemoryLog δ) (lines : List Text) :
    openLines log lines = openLines log (lines.filter (· ≠ [])) := by
  induction lines generalizing log with
  | nil => rfl
  | cons line lines ih =>
    by_cases hnil : line = []
    · rw [List.filter_cons_of_neg (by simpa using hnil), openLines, if_pos hnil, ih]
    · rw [List.filter_cons_of_pos (by simpa using hnil), openLines, openLines, if_neg hnil, if_neg hnil, ih]
      simp only [ih]

lemma openLines_append (log : MemoryLog δ) (lines lines' : List Text) :
    openLines log (lines ++ lines') = (openLines log lines).bind fun log => openLines log lines' := by
  induction lines generalizing log with
  | nil => rfl
  | cons line lines ih =>
    rw [List.cons_append, openLines, openLines]
    split
    · exact ih log
    · split
      · cases msReplayEvent log (msParse line) with
        | none => rfl
        | some log' => exact ih log'
      · exact ih log

lemma lastEventLoop_filter (last : Datum δ) (lines : List Text) :
    lastEventLoop last lines = lastEventLoop last (lines.filter (· ≠ [])) := by
  induction lines generalizing last with
  | nil => rfl
  | cons line lines ih =>
    by_cases hnil : line = []
    · rw [List.filter_cons_of_neg (by simpa using hnil), lastEventLoop, if_pos hnil, ih]
    · rw [List.filter_cons_of_pos (by simpa using hnil), lastEventLoop, lastEventLoop, if_neg hnil, if_neg hnil, ih]

lemma lastEventLoop_append (last : Datum δ) (lines lines' : List Text) :
    lastEventLoop last (lines ++ lines') = lastEventLoop (lastEventLoop last lines) lines' := by
  induction lines generalizing last with
  | nil => rfl
  | cons line lines ih =>
    rw [List.cons_append, lastEventLoop, lastEventLoop]
    split
    · exact ih last
    · exact ih _

/-- A log that was opened from the events. -/
structure Opened (log : MemoryLog δ) (node : Datum δ) (events : List (Datum δ)) (prev : Datum δ)
    (clock : Clock (Datum δ)) : Prop where
  node_eq : log.node = node
  prev_eq : log.prev = prev
  vclock_eq : log.vclock = clockDatum clock
  appended : log.rga.AppendedBy node events

omit [DecidableEq δ] in
/-- The line of an event is not blank. -/
lemma canonicalString_makeEvent_ne_nil (id : Text) (prev vclock node type payload : Datum δ) :
    (makeEvent id prev vclock node type payload).canonicalString ≠ [] := List.cons_ne_nil _ _

lemma Chain.openLines {events : List (Datum δ)} {prev : Datum δ} {clock : Clock (Datum δ)} (node : Datum δ)
    (h : Chain digest events prev clock) :
    ∃ log, openLines (.make node) (events.map Datum.canonicalString) = some log ∧
      Opened log node events prev clock := by
  induction h with
  | nil => exact ⟨_, rfl, rfl, rfl, rfl, .make node⟩
  | @snoc events prev n type payload clock id hchain _ hwritable _ ih =>
    obtain ⟨log, hopen, hlog⟩ := ih
    obtain ⟨rga, hrga, happended⟩ := hlog.appended.append
      (makeEvent id prev (clockDatum (clock.tick n)) n type payload)
    have hreplay : msReplayEvent log (makeEvent id prev (clockDatum (clock.tick n)) n type payload) =
        some { log with rga := rga, vclock := clockDatum (clock.tick n), prev := .string id } := by
      rw [msReplayEvent, hlog.node_eq, hrga, memoryEventVclock_makeEvent, memoryEventId_makeEvent, hlog.vclock_eq]
      simp only [Option.bind_eq_bind, Option.bind_some, vectorClockMerge_clockDatum,
        Clock.merge_tick hchain.distinct]
    refine ⟨{ log with rga := rga, vclock := clockDatum (clock.tick n), prev := .string id }, ?_,
      hlog.node_eq, rfl, rfl, happended⟩
    rw [List.map_append, openLines_append, hopen, Option.bind_some, List.map_singleton, Memory.openLines,
      if_neg (canonicalString_makeEvent_ne_nil _ _ _ _ _ _), hwritable.msParse_eq, isMemoryEvent_makeEvent,
      if_pos rfl, hreplay]
    rfl

lemma Chain.lastEventLoop {events : List (Datum δ)} {prev : Datum δ} {clock : Clock (Datum δ)}
    (h : Chain digest events prev clock) :
    lastEventLoop (.boolean false) (events.map Datum.canonicalString) = events.getLast?.getD (.boolean false) := by
  cases h with
  | nil => rfl
  | snoc hchain _ hwritable _ =>
    rw [List.map_append, lastEventLoop_append, List.map_singleton, Memory.lastEventLoop,
      if_neg (canonicalString_makeEvent_ne_nil _ _ _ _ _ _), hwritable.msParse_eq, isMemoryEvent_makeEvent,
      if_pos rfl, List.getLast?_concat]
    rfl

/-! ## The file -/

/-- What may follow the complete lines of a file: nothing, a torn line, or the text of an event without
its newline. -/
inductive Tail : Text → List (Datum δ) → Prop
  | empty : Tail [] []
  | torn {t : Text} : t ≠ [] → (∀ c ∈ t, IsPrinted c) → t.length ≤ lineRoom → (readAt t : Option (Datum δ × Text)) = none →
      Tail t []
  | whole {ev : Datum δ} : Writable ev → Tail ev.canonicalString [ev]

/-- The events in a file. -/
def FileHolds (file : Option Text) (events : List (Datum δ)) : Prop :=
  ∃ full tail rest, file.getD [] = full.flatMap eventLine ++ tail ∧ events = full ++ rest ∧ Tail tail rest

lemma canonicalString_ne_nil {ev : Datum δ} (h : isMemoryEvent ev = true) : ev.canonicalString ≠ [] := by
  cases ev with
  | pair a d => exact List.cons_ne_nil _ _
  | null => cases h
  | string s => cases h
  | symbol s => cases h
  | integer i => cases h
  | real x => cases h
  | boolean b => cases h
  | char c => cases h

omit [DecidableEq δ] in
lemma msParse_eq_false {t : Text} (hprinted : ∀ c ∈ t, IsPrinted c)
    (h : (readAt t : Option (Datum δ × Text)) = none) : (msParse t : Datum δ) = .boolean false := by
  rw [← marked_printed hprinted] at h
  rw [msParse]
  cases hparse : @msParseAt δ _ (marked t) with
  | none => rfl
  | some r =>
    rw [readAt, hparse] at h
    cases h

/-- The lines of events are read, and then what follows them. -/
lemma fullLines_events {events : List (Datum δ)} (hwritable : ∀ ev ∈ events, Writable ev)
    (hevent : ∀ ev ∈ events, isMemoryEvent ev = true) (rest : Text) :
    fullLines (events.flatMap eventLine ++ rest) = events.map Datum.canonicalString ++ fullLines rest := by
  have hlines : events.flatMap eventLine = (events.map Datum.canonicalString).flatMap (· ++ ['\n']) := by
    rw [List.flatMap_map]
    rfl
  have hfull : ∀ l ∈ events.map Datum.canonicalString, l ≠ [] ∧ '\n' ∉ l ∧ l.length ≤ lineRoom := by
    intro l hl
    obtain ⟨ev, hev, rfl⟩ := List.mem_map.1 hl
    exact ⟨canonicalString_ne_nil (hevent ev hev), newline_notMem (hwritable ev hev).printed, (hwritable ev hev).fits⟩
  rw [hlines, Scheme.fullLines_append hfull]

/-- The lines of a file are those of its events, and perhaps a torn one. -/
lemma FileHolds.fullLines {file : Option Text} {events : List (Datum δ)} (h : FileHolds file events)
    (hwritable : ∀ ev ∈ events, Writable ev) (hevent : ∀ ev ∈ events, isMemoryEvent ev = true) :
    ∃ torn, fullLines (file.getD []) = events.map Datum.canonicalString ++ torn ∧
      ∀ line ∈ torn, line ≠ [] ∧ (msParse line : Datum δ) = .boolean false := by
  obtain ⟨full, tail, rest, hfile, rfl, htail⟩ := h
  rw [hfile, fullLines_events (fun ev hev => hwritable ev (List.mem_append_left rest hev))
    fun ev hev => hevent ev (List.mem_append_left rest hev)]
  cases htail with
  | empty =>
    rw [Scheme.fullLines_nil, List.append_nil, List.append_nil]
    exact ⟨[], (List.append_nil _).symm, by simp⟩
  | torn hne hprinted hfits hread =>
    rw [Scheme.fullLines_last hne (newline_notMem hprinted) hfits, List.append_nil]
    refine ⟨[tail], rfl, fun line hline => ?_⟩
    rw [List.mem_singleton.1 hline]
    exact ⟨hne, msParse_eq_false hprinted hread⟩
  | @whole ev hev =>
    have hmem : ev ∈ full ++ [ev] := List.mem_append_right _ (List.mem_singleton.2 rfl)
    rw [Scheme.fullLines_last (canonicalString_ne_nil (hevent ev hmem)) (newline_notMem hev.printed) hev.fits, List.map_append]
    exact ⟨[], (List.append_nil _).symm, by simp⟩

lemma openLines_torn (log : MemoryLog δ) {torn : List Text}
    (h : ∀ line ∈ torn, line ≠ [] ∧ (msParse line : Datum δ) = .boolean false) : openLines log torn = some log := by
  induction torn with
  | nil => rfl
  | cons line torn ih =>
    rw [List.forall_mem_cons] at h
    rw [openLines, if_neg h.1.1, h.1.2, if_neg (by simp [isMemoryEvent])]
    exact ih h.2

lemma lastEventLoop_torn (last : Datum δ) {torn : List Text}
    (h : ∀ line ∈ torn, line ≠ [] ∧ (msParse line : Datum δ) = .boolean false) :
    lastEventLoop last torn = last := by
  induction torn with
  | nil => rfl
  | cons line torn ih =>
    rw [List.forall_mem_cons] at h
    rw [lastEventLoop, if_neg h.1.1, h.1.2, if_neg (by simp [isMemoryEvent])]
    exact ih h.2

/-- A file of a torn line is opened as an empty log. -/
lemma memoryStoreOpen_torn (node : Datum δ) {t tail : Text} (hne : t ≠ [])
    (hprinted : ∀ c ∈ t, IsPrinted c) (hfits : t.length ≤ lineRoom) (hread : (readAt t : Option (Datum δ × Text)) = none)
    (htail : tail = [] ∨ tail = ['\n']) : memoryStoreOpen node (some (t ++ tail)) = some (.make node) := by
  have hlines : fullLines (t ++ tail) = [t] := by
    rcases htail with rfl | rfl
    · rw [List.append_nil, Scheme.fullLines_last hne (newline_notMem hprinted) hfits]
    · rw [Scheme.fullLines_cons hne (newline_notMem hprinted) hfits, Scheme.fullLines_nil]
  rw [memoryStoreOpen, openLines_filter]
  show openLines _ (fullLines (t ++ tail)) = _
  rw [hlines]
  apply openLines_torn
  intro line hline
  rw [List.mem_singleton.1 hline]
  exact ⟨hne, msParse_eq_false hprinted hread⟩

section opening

variable {file : Option Text} {events : List (Datum δ)} {prev : Datum δ} {clock : Clock (Datum δ)}

/-- Opening replays the chain. -/
lemma memoryStoreOpen_chain (node : Datum δ) (hchain : Chain digest events prev clock)
    (hfile : FileHolds file events) :
    ∃ log, memoryStoreOpen node file = some log ∧ Opened log node events prev clock := by
  obtain ⟨torn, hlines, htorn⟩ := hfile.fullLines hchain.writable hchain.isMemoryEvent
  obtain ⟨log, hopen, hlog⟩ := hchain.openLines node
  have hread : memoryStoreOpen node file = openLines (.make node) (fullLines (file.getD [])) := by
    cases file with
    | none =>
      show _ = openLines _ (Scheme.fullLines [])
      rw [Scheme.fullLines_nil]
      rfl
    | some text => exact openLines_filter _ _
  refine ⟨log, ?_, hlog⟩
  rw [hread, hlines, openLines_append, hopen, Option.bind_some, openLines_torn log htorn]

/-- The last event is found. -/
lemma msLastEvent_chain (hchain : Chain digest events prev clock) (hfile : FileHolds file events) :
    msLastEvent file = events.getLast?.getD (.boolean false) := by
  obtain ⟨torn, hlines, htorn⟩ := hfile.fullLines hchain.writable hchain.isMemoryEvent
  have hread : msLastEvent file = lastEventLoop (.boolean false : Datum δ) (fullLines (file.getD [])) := by
    cases file with
    | none =>
      show _ = lastEventLoop _ (Scheme.fullLines [])
      rw [Scheme.fullLines_nil]
      rfl
    | some text => exact lastEventLoop_filter _ _
  rw [hread, hlines, lastEventLoop_append, hchain.lastEventLoop, lastEventLoop_torn _ htorn]

end opening

/-! ## The head -/

/-- The text of the head. -/
def headDatum (prev vclock : Datum δ) : Datum δ := .list [.symbol "ms-head-v1".toList, prev, vclock]

omit [DecidableEq δ] in
lemma canonicalString_makeEvent (id : Text) (prev vclock node type payload : Datum δ) :
    (makeEvent id prev vclock node type payload).canonicalString =
      "(mem-ev-v1 ".toList ++ ((Datum.string id : Datum δ).canonicalString ++ (' ' :: prev.canonicalString ++
        (' ' :: vclock.canonicalString ++ (' ' :: node.canonicalString ++ (' ' :: type.canonicalString ++
          (' ' :: payload.canonicalString ++ [')'])))))) := by
  simp [makeEvent, Datum.list, Datum.canonicalString, Datum.canonicalStringRest, Datum.atomText]

omit [DecidableEq δ] in
lemma canonicalString_headDatum (prev vclock : Datum δ) :
    (headDatum prev vclock).canonicalString =
      "(ms-head-v1 ".toList ++ (prev.canonicalString ++ (' ' :: vclock.canonicalString ++ [')'])) := by
  simp [headDatum, Datum.list, Datum.canonicalString, Datum.canonicalStringRest, Datum.atomText]

omit [DecidableEq δ] in
/-- A head that goes with an event can be read back like the event. -/
lemma Writable.headDatum {id : Text} {prev vclock node type payload : Datum δ}
    (h : Writable (makeEvent id prev vclock node type payload)) :
    Writable (headDatum (.string id) vclock) := by
  have hfits := h.fits
  have hplain := h.plain
  rw [canonicalString_makeEvent] at hfits
  rw [makeEvent, plain_list] at hplain
  simp only [List.forall_mem_cons] at hplain
  obtain ⟨-, hid, -, hvclock, -⟩ := hplain
  constructor
  · rw [Memory.headDatum, plain_list]
    simp only [List.forall_mem_cons]
    exact ⟨⟨by decide, by decide⟩, hid, hvclock, by simp⟩
  · rw [canonicalString_headDatum]
    simp only [List.length_append, List.length_cons, String.length_toList] at hfits ⊢
    have hmark : "(ms-head-v1 ".length = 12 := rfl
    have hmark' : "(mem-ev-v1 ".length = 11 := rfl
    omega

/-- The head is read back. -/
lemma msReadHead_headDatum {prev vclock : Datum δ} (h : Writable (headDatum prev vclock)) :
    msReadHead (some ((headDatum prev vclock).canonicalString ++ ['\n'])) = some (some (prev, vclock)) := by
  have hread := @Scheme.readLine_newline _ [] (newline_notMem h.printed) h.fits
  rw [msReadHead, Option.bind_some, hread]
  simp only [h.msParse_eq]
  simp [headDatum, Datum.list, listRef]

/-- The head is that of the chain or of what the chain was before. -/
def HeadHolds (digest : Text → Text) (head : Option Text) (events : List (Datum δ)) : Prop :=
  ∀ text, head = some text → ∃ before after prev clock, events = before ++ after ∧
    Chain digest before prev clock ∧ Writable (headDatum prev (clockDatum clock)) ∧
    text = (headDatum prev (clockDatum clock)).canonicalString ++ ['\n']

lemma HeadHolds.append {head : Option Text} {events : List (Datum δ)} (h : HeadHolds digest head events)
    (more : List (Datum δ)) : HeadHolds digest head (events ++ more) := by
  intro text htext
  obtain ⟨before, after, prev, clock, rfl, hrest⟩ := h text htext
  exact ⟨before, after ++ more, prev, clock, List.append_assoc _ _ _, hrest⟩

/-- The start of a chain that ends in the last event is the whole chain. -/
lemma Chain.vclock_eq_of_prev {before after : List (Datum δ)} {prev : Datum δ} {clock clock' : Clock (Datum δ)}
    (h : Chain digest (before ++ after) prev clock) (h' : Chain digest before prev clock') :
    clockDatum clock' = clockDatum clock := by
  rcases h.last with ⟨hnil, -, rfl⟩ | ⟨ev, hev, hid, hvclock, hne⟩
  · rcases h'.last with ⟨-, -, rfl⟩ | ⟨ev, hev, -⟩
    · rfl
    · rw [(List.append_eq_nil_iff.1 hnil).1] at hev
      cases hev
  · rcases h'.last with ⟨-, hfalse, -⟩ | ⟨ev', hev', hid', hvclock', -⟩
    · exact absurd hfalse hne
    · have hmem' := List.mem_of_getLast? hev'
      have heq : ev' = ev := h.eq_of_id _ (List.mem_append_left _ hmem') _ (List.mem_of_getLast? hev)
        (hid'.trans hid.symm)
      rw [heq, hvclock] at hvclock'
      exact (Option.some.inj hvclock').symm

/-- The fast way of opening goes on from the end of the chain too. -/
lemma memoryStoreOpenFast_chain {files : Files} {events : List (Datum δ)} {prev : Datum δ}
    {clock : Clock (Datum δ)} (node : Datum δ) (hchain : Chain digest events prev clock)
    (hfile : FileHolds files.log events) (hhead : HeadHolds digest files.head events) :
    ∃ log held, memoryStoreOpenFast node files = some log ∧ Opened log node held prev clock := by
  obtain ⟨log, hopen, hlog⟩ := memoryStoreOpen_chain node hchain hfile
  have hfull : ∃ log held, memoryStoreOpen node files.log = some log ∧ Opened log node held prev clock :=
    ⟨log, events, hopen, hlog⟩
  rw [memoryStoreOpenFast, msLastEvent_chain hchain hfile]
  cases hread : files.head with
  | none => exact hfull
  | some text =>
    obtain ⟨before, after, p, c, hevents, hbefore, hwritable, rfl⟩ := hhead text hread
    rw [msReadHead_headDatum hwritable]
    simp only [Option.bind_eq_bind, Option.bind_some]
    rcases hchain.last with ⟨rfl, -, -⟩ | ⟨ev, hev, hid, hvclock, hne⟩
    · exact hfull
    · have hevent : ev ≠ .boolean false := by
        rintro rfl
        cases hid
      rw [hev, Option.getD_some, if_neg hevent, hid, Option.bind_some]
      by_cases hcurrent : p = prev
      · subst hcurrent
        subst hevents
        rw [if_pos rfl]
        exact ⟨_, [], rfl, rfl, rfl, hchain.vclock_eq_of_prev hbefore, .make node⟩
      · rw [if_neg hcurrent, hvclock]
        exact ⟨_, [], rfl, rfl, rfl, rfl, .make node⟩

/-! ## Runs -/

/-- The file holds a chain that the process with the store open goes on from, and the returned events are
among those of the chain. -/
def Intact (digest : Text → Text) (w : StoreWorld δ) : Prop :=
  ∃ events prev clock, Chain digest events prev clock ∧ FileHolds w.files.log events ∧
    HeadHolds digest w.files.head events ∧ w.returned.Sublist events ∧
    ∀ log, w.log = some log → log.prev = prev ∧ log.vclock = clockDatum clock

lemma intact_start : Intact digest (.start : StoreWorld δ) :=
  ⟨[], _, _, .nil, ⟨[], [], [], rfl, rfl, .empty⟩, fun text htext => (by cases htext), .slnil,
    fun log hlog => (by cases hlog)⟩

/-- What is intact keeps every reported event. -/
lemma Intact.survives {w : StoreWorld δ} (h : Intact digest w) : Survives w := by
  intro node
  obtain ⟨events, prev, clock, hchain, hfile, hhead, hreturned, -⟩ := h
  obtain ⟨log, hopen, hlog⟩ := memoryStoreOpen_chain node hchain hfile
  obtain ⟨fast, held, hfast, hopened⟩ := memoryStoreOpenFast_chain node hchain hfile hhead
  refine ⟨log, fast, events, hopen, hlog.appended.values_eq, hreturned, hchain.nodup, hfast, ?_, ?_⟩
  · rw [hopened.prev_eq, hlog.prev_eq]
  · rw [hopened.vclock_eq, hlog.vclock_eq]

section step

variable {file : Option Text} {events : List (Datum δ)} {prev : Datum δ} {clock : Clock (Datum δ)}
  {log : MemoryLog δ} {type payload : Datum δ} {proposal : Proposal δ}

/-- A file without a torn line consists of the lines of its events. -/
lemma FileHolds.eq_of_clean (h : FileHolds file events) (hwritable : ∀ ev ∈ events, Writable ev)
    (hevent : ∀ ev ∈ events, isMemoryEvent ev = true) (hclean : EndsClean file) :
    file.getD [] = events.flatMap eventLine := by
  obtain ⟨full, tail, rest, hfile, rfl, htail⟩ := h
  have hend : ∀ c, tail.getLast? = some c → c = '\n' := by
    intro c hc
    apply hclean c
    rw [hfile, List.getLast?_append, hc]
    rfl
  have hlast : tail ≠ [] → '\n' ∈ tail := by
    intro hne
    have hget := List.getLast?_eq_getLast_of_ne_nil hne
    rw [← hend _ hget]
    exact List.getLast_mem hne
  cases htail with
  | empty => rw [hfile, List.append_nil, List.append_nil]
  | torn hne hprinted => exact absurd (hlast hne) (newline_notMem hprinted)
  | @whole ev hev =>
    have hmem : ev ∈ full ++ [ev] := List.mem_append_right _ (List.mem_singleton.2 rfl)
    exact absurd (hlast (canonicalString_ne_nil (hevent ev hmem))) (newline_notMem hev.printed)

/-- The chain goes on with what is proposed. -/
lemma Chain.propose (h : Chain digest events prev clock) (hprev : log.prev = prev)
    (hvclock : log.vclock = clockDatum clock)
    (hproposal : proposeEvent digest log type payload = some proposal) (hwritable : Writable proposal.event)
    (hfresh : ∀ ev ∈ events, memoryEventId ev ≠ some (.string proposal.id)) :
    proposal.vclock = clockDatum (clock.tick log.node) ∧ Memory.isMemoryEvent proposal.event = true ∧
      Writable (headDatum (.string proposal.id) (clockDatum (clock.tick log.node))) ∧
      Chain digest (events ++ [proposal.event]) (.string proposal.id) (clock.tick log.node) := by
  obtain ⟨clean, -, htick, hid, hevent⟩ := proposeEvent_eq_some hproposal
  rw [hvclock, vectorClockTick_clockDatum, Option.some.injEq] at htick
  rw [hprev, ← htick] at hid
  rw [hprev, ← htick] at hevent
  rw [hevent] at hwritable
  refine ⟨htick.symm, ?_, hwritable.headDatum, ?_⟩
  · rw [hevent, isMemoryEvent_makeEvent]
  · rw [hevent]
    exact .snoc h hid hwritable hfresh

/-- No event of the chain has the identifier of an event that may be appended to its file. -/
lemma Appendable.fresh_of_chain (happend : Appendable file proposal) (h : Chain digest events prev clock)
    (hfile : FileHolds file events) : ∀ ev ∈ events, memoryEventId ev ≠ some (.string proposal.id) := by
  intro ev hev hsame
  obtain ⟨torn, hlines, -⟩ := hfile.fullLines h.writable h.isMemoryEvent
  refine happend.fresh ev.canonicalString ?_ ?_
  · rw [hlines]
    exact List.mem_append_left _ (List.mem_map_of_mem hev)
  · rw [(h.writable ev hev).msParse_eq, hsame]

/-- Part of a line is a torn line, or the whole text of its event. -/
lemma tail_take {ev : Datum δ} (hev : Writable ev) (hevent : isMemoryEvent ev = true) {n : ℕ}
    (hn : n < (eventLine ev).length) :
    Tail ((eventLine ev).take n) ([] : List (Datum δ)) ∨ Tail ((eventLine ev).take n) [ev] := by
  rw [eventLine, List.length_append, List.length_singleton] at hn
  have htake : (eventLine ev).take n = ev.canonicalString.take n := by
    rw [eventLine, List.take_append_of_le_length (by omega)]
  rw [htake]
  by_cases hall : n = ev.canonicalString.length
  · rw [hall, List.take_length]
    exact .inr (.whole hev)
  by_cases hnone : n = 0
  · rw [hnone, List.take_zero]
    exact .inl .empty
  -- the text starts a list that is not closed
  left
  have hsplit := List.take_append_drop n ev.canonicalString
  have hread := hev.plain.printable.readsBack.at_text [] fun c hc => by cases hc
  rw [List.append_nil, ← hsplit] at hread
  have hlist : ∃ t, msSkipWs (ev.canonicalString.take n) = '(' :: t := by
    obtain ⟨n, rfl⟩ := Nat.exists_eq_succ_of_ne_zero hnone
    cases ev with
    | pair a d => exact ⟨_, msSkipWs_cons (by decide)⟩
    | null => cases hevent
    | string s => cases hevent
    | symbol s => cases hevent
    | integer i => cases hevent
    | real x => cases hevent
    | boolean b => cases hevent
    | char c => cases hevent
  refine .torn ?_ (fun c hc => hev.printed c (List.mem_of_mem_take hc)) ?_
    (readAt_eq_none_of_append hlist hread ?_)
  · rw [Ne, List.take_eq_nil_iff]
    rintro (h | h)
    · exact hnone h
    · exact canonicalString_ne_nil hevent h
  · rw [List.length_take]
    exact (Nat.min_le_right _ _).trans hev.fits
  · rw [Ne, List.drop_eq_nil_iff]
    omega

/-- What a file holds after some bytes of a line were written to it. -/
lemma FileHolds.write {ev : Datum δ} (h : FileHolds file events) (hchain : ∀ e ∈ events, Writable e)
    (hevents : ∀ e ∈ events, isMemoryEvent e = true) (hclean : EndsClean file) (hev : Writable ev)
    (hevent : isMemoryEvent ev = true) (n : ℕ) :
    FileHolds (some (file.getD [] ++ (eventLine ev).take n)) (events ++ [ev]) ∨
      (n < (eventLine ev).length ∧ FileHolds (some (file.getD [] ++ (eventLine ev).take n)) events) := by
  have hfile := h.eq_of_clean hchain hevents hclean
  by_cases hn : n < (eventLine ev).length
  · rcases tail_take hev hevent hn with htail | htail
    · exact .inr ⟨hn, events, _, [], congrArg (· ++ _) hfile, (List.append_nil _).symm, htail⟩
    · exact .inl ⟨events, _, [ev], congrArg (· ++ _) hfile, rfl, htail⟩
  · refine .inl ⟨events ++ [ev], [], [], ?_, (List.append_nil _).symm, .empty⟩
    show file.getD [] ++ _ = _
    rw [hfile, List.take_of_length_le (by omega), List.flatMap_append, List.flatMap_singleton, List.append_nil]

omit [DecidableEq δ] in
lemma headText_eq (log : MemoryLog δ) :
    headText log = (headDatum log.prev log.vclock).canonicalString ++ ['\n'] := rfl

/-- The head that goes with the last event of a chain. -/
lemma HeadHolds.last {after : List (Datum δ)} (h : Chain digest events prev clock)
    (hwritable : Writable (headDatum prev (clockDatum clock))) :
    HeadHolds digest (some ((headDatum prev (clockDatum clock)).canonicalString ++ ['\n'])) (events ++ after) := by
  intro text htext
  exact ⟨events, after, prev, clock, rfl, h, hwritable, (Option.some.inj htext).symm⟩

variable {w : StoreWorld δ}

/-- An append that is safe keeps the store intact. -/
lemma Intact.append {calls : LibcCalls} {headWritten : Bool} {r : AppendResult δ} (h : Intact digest w)
    (hlog : w.log = some log)
    (hr : memoryStoreAppend digest calls headWritten w.files log type payload = some r)
    (hsafe : SafeAction digest w (.append calls headWritten type payload)) :
    Intact digest ⟨r.files, some r.log, w.returned ++ if r.event = .boolean false then [] else [r.event]⟩ := by
  obtain ⟨events, prev, clock, hchain, hfile, hhead, hreturned, hstate⟩ := h
  obtain ⟨hprev, hvclock⟩ := hstate log hlog
  obtain ⟨proposal, hproposal, -⟩ := Option.bind_eq_some_iff.1 hr
  rcases memoryStoreAppend_cases hproposal hr with ⟨hfopen, hadvance, hevent, hlogFile, hheadFile⟩ | ⟨-, rfl⟩
  · obtain ⟨happend, hpersist⟩ := hsafe log proposal hlog hproposal hfopen
    obtain ⟨hclock, hmark, hwritable, hnext⟩ :=
      hchain.propose hprev hvclock hproposal happend.writable (happend.fresh_of_chain hchain hfile)
    obtain ⟨rga, -, hadvanced⟩ := Option.map_eq_some_iff.1 hadvance
    have hne : r.event ≠ .boolean false := by
      rw [hevent]
      intro heq
      rw [heq] at hmark
      cases hmark
    refine ⟨_, _, _, hnext, ?_, ?_, ?_, fun log' hlog' => ?_⟩
    · show FileHolds r.files.log _
      rw [hlogFile]
      rcases hfile.write hchain.writable hchain.isMemoryEvent happend.clean happend.writable hmark
        calls.fwrite with hwritten | ⟨hshort, -⟩
      · exact hwritten
      · exact absurd hpersist.fwrite (Nat.not_le_of_lt hshort)
    · show HeadHolds digest r.files.head _
      rw [hheadFile]
      split
      · have hlast := @HeadHolds.last _ _ _ _ _ _ _ [] hnext hwritable
        rw [List.append_nil] at hlast
        rwa [headText_eq, ← hadvanced, hclock]
      · exact hhead.append _
    · rw [if_neg hne, hevent]
      exact hreturned.append (.refl _)
    · obtain rfl := Option.some.inj hlog'
      rw [← hadvanced]
      exact ⟨rfl, hclock⟩
  · refine ⟨events, prev, clock, hchain, hfile, hhead, ?_, fun log' hlog' => ?_⟩
    · rw [if_pos rfl, List.append_nil]
      exact hreturned
    · obtain rfl := Option.some.inj hlog'
      exact ⟨hprev, hvclock⟩

/-- So does a crash in an append. -/
lemma Intact.crash {written : ℕ} {headWritten : Bool} (h : Intact digest w) (hlog : w.log = some log)
    (hproposal : proposeEvent digest log type payload = some proposal) (happend : Appendable w.files.log proposal) :
    Intact digest { w with files := crashedFiles w.files log proposal written headWritten, log := none } := by
  obtain ⟨events, prev, clock, hchain, hfile, hhead, hreturned, hstate⟩ := h
  obtain ⟨hprev, hvclock⟩ := hstate log hlog
  obtain ⟨hclock, hmark, hwritable, hnext⟩ :=
    hchain.propose hprev hvclock hproposal happend.writable (happend.fresh_of_chain hchain hfile)
  rcases hfile.write hchain.writable hchain.isMemoryEvent happend.clean happend.writable hmark written with
    hwritten | ⟨hshort, hwritten⟩
  · refine ⟨_, _, _, hnext, hwritten, ?_, hreturned.trans (List.sublist_append_left _ _),
      fun log' hlog' => by cases hlog'⟩
    show HeadHolds digest (if _ then _ else _) _
    split
    · have hlast := @HeadHolds.last _ _ _ _ _ _ _ [] hnext hwritable
      rw [List.append_nil] at hlast
      rwa [headText_eq, hclock]
    · exact hhead.append _
  · refine ⟨events, prev, clock, hchain, hwritten, ?_, hreturned, fun log' hlog' => by cases hlog'⟩
    show HeadHolds digest (if _ then _ else _) _
    rw [if_neg fun hwhole => Nat.not_lt_of_le hwhole.2 hshort]
    exact hhead

/-- What a safe action leads to is intact. -/
lemma Intact.step {a : StoreAction δ} {w' : StoreWorld δ} (h : Intact digest w) (hsafe : SafeAction digest w a)
    (hstep : storeStep digest w a = some w') : Intact digest w' := by
  cases a with
  | append calls headWritten type payload =>
    obtain ⟨log, hlog, hstep⟩ := Option.bind_eq_some_iff.1 hstep
    obtain ⟨r, hr, hstep⟩ := Option.bind_eq_some_iff.1 hstep
    obtain rfl := Option.some.inj hstep
    exact h.append hlog hr hsafe
  | crash written headWritten type payload =>
    obtain ⟨log, hlog, hstep⟩ := Option.bind_eq_some_iff.1 hstep
    obtain ⟨proposal, hproposal, hstep⟩ := Option.bind_eq_some_iff.1 hstep
    obtain rfl := Option.some.inj hstep
    exact h.crash hlog hproposal (hsafe log proposal hlog hproposal)
  | stop =>
    obtain rfl := Option.some.inj hstep
    obtain ⟨events, prev, clock, hchain, hfile, hhead, hreturned, -⟩ := h
    exact ⟨events, prev, clock, hchain, hfile, hhead, hreturned, fun log hlog => by cases hlog⟩
  | openFull node =>
    obtain ⟨events, prev, clock, hchain, hfile, hhead, hreturned, -⟩ := h
    obtain ⟨log, hopen, rfl⟩ := Option.map_eq_some_iff.1 hstep
    obtain ⟨log', hopen', hopened⟩ := memoryStoreOpen_chain node hchain hfile
    obtain rfl := Option.some.inj (hopen.symm.trans hopen')
    refine ⟨events, prev, clock, hchain, hfile, hhead, hreturned, fun log' hlog' => ?_⟩
    obtain rfl := Option.some.inj hlog'
    exact ⟨hopened.prev_eq, hopened.vclock_eq⟩
  | openFast node =>
    obtain ⟨events, prev, clock, hchain, hfile, hhead, hreturned, -⟩ := h
    obtain ⟨log, hopen, rfl⟩ := Option.map_eq_some_iff.1 hstep
    obtain ⟨log', held, hopen', hopened⟩ := memoryStoreOpenFast_chain node hchain hfile hhead
    obtain rfl := Option.some.inj (hopen.symm.trans hopen')
    refine ⟨events, prev, clock, hchain, hfile, hhead, hreturned, fun log' hlog' => ?_⟩
    obtain rfl := Option.some.inj hlog'
    exact ⟨hopened.prev_eq, hopened.vclock_eq⟩

end step

/-- Runs of safe actions, with crashes and openings anywhere in between, lose no event that an append
returned. -/
theorem log_survives_crashes {w : StoreWorld δ} (h : SafelyReachable digest w) : Survives w := by
  suffices hintact : Intact digest w from hintact.survives
  induction h with
  | refl => exact intact_start
  | tail _ hstep ih =>
    obtain ⟨a, hsafe, hstep⟩ := hstep
    exact ih.step hsafe hstep

section progress

variable {events held : List (Datum δ)} {prev node type payload : Datum δ} {clock : Clock (Datum δ)}
  {log : MemoryLog δ} {proposal : Proposal δ} {w : StoreWorld δ}

/-- What a process proposes at the end of a chain. -/
def nextProposal (digest : Text → Text) (node prev : Datum δ) (clock : Clock (Datum δ)) (type clean : Datum δ) :
    Proposal δ :=
  let id := eventContentHash (sha256 digest) node prev (clockDatum (clock.tick node)) type clean
  ⟨clockDatum (clock.tick node), id, makeEvent id prev (clockDatum (clock.tick node)) node type clean⟩

/-- The proposal that goes on a chain: it can be read back, and its identifier is new. -/
structure GoesOn (digest : Text → Text) (node : Datum δ) (events : List (Datum δ)) (prev : Datum δ)
    (clock : Clock (Datum δ)) (type payload : Datum δ) (proposal : Proposal δ) : Prop where
  proposed : ∃ clean, msSanitizePayload payload = some clean ∧
    nextProposal digest node prev clock type clean = proposal
  writable : Writable proposal.event
  fresh : ∀ ev ∈ events, memoryEventId ev ≠ some (.string proposal.id)

/-- A process has the store open at the end of the chain that its file consists of. -/
structure Underway (digest : Text → Text) (w : StoreWorld δ) (node : Datum δ) (events : List (Datum δ))
    (prev : Datum δ) (clock : Clock (Datum δ)) : Prop where
  chain : Chain digest events prev clock
  file : w.files.log.getD [] = events.flatMap eventLine
  head : HeadHolds digest w.files.head events
  opened : ∃ log held, w.log = some log ∧ Opened log node held prev clock

lemma underway_start (digest : Text → Text) (node : Datum δ) :
    ∃ w, storeStep digest .start (.openFull node) = some w ∧ w.returned = [] ∧
      Underway digest w node [] (.boolean false) [] :=
  ⟨_, rfl, rfl, .nil, rfl, fun text htext => (by cases htext), _, [], rfl, rfl, rfl, rfl, .make node⟩

lemma underway_openFast (node : Datum δ) (hchain : Chain digest events prev clock)
    (hfile : w.files.log.getD [] = events.flatMap eventLine) (hhead : HeadHolds digest w.files.head events) :
    ∃ w', storeStep digest w (.openFast node) = some w' ∧ w'.returned = w.returned ∧
      Underway digest w' node events prev clock := by
  have hholds : FileHolds w.files.log events :=
    ⟨events, [], [], by rw [hfile, List.append_nil], (List.append_nil _).symm, .empty⟩
  obtain ⟨log, held, hopen, hopened⟩ := memoryStoreOpenFast_chain node hchain hholds hhead
  exact ⟨{ w with log := some log }, by rw [storeStep, hopen]; rfl, rfl, hchain, hfile, hhead, log, held, rfl,
    hopened⟩

lemma GoesOn.propose (h : GoesOn digest node events prev clock type payload proposal)
    (hopened : Opened log node held prev clock) : proposeEvent digest log type payload = some proposal := by
  obtain ⟨clean, hclean, rfl⟩ := h.proposed
  rw [proposeEvent, hclean, Option.bind_eq_bind, Option.bind_some, MemoryLog.propose, hopened.vclock_eq,
    hopened.node_eq, vectorClockTick_clockDatum, hopened.prev_eq]
  rfl

/-- The chain with the proposal. -/
lemma GoesOn.chain (h : GoesOn digest node events prev clock type payload proposal)
    (hchain : Chain digest events prev clock) :
    Chain digest (events ++ [proposal.event]) (.string proposal.id) (clock.tick node) := by
  obtain ⟨clean, -, rfl⟩ := h.proposed
  exact .snoc hchain rfl h.writable h.fresh

variable (h : Underway digest w node events prev clock)
  (hnext : GoesOn digest node events prev clock type payload proposal)
include h hnext

lemma Underway.appendable : Appendable w.files.log proposal := by
  refine ⟨hnext.writable, fun c hc => ?_, fun line hline => ?_⟩
  · rw [h.file] at hc
    rcases List.eq_nil_or_concat' events with hnil | ⟨front, ev, rfl⟩
    · rw [hnil] at hc
      cases hc
    · rw [List.flatMap_append, List.flatMap_singleton, eventLine, ← List.append_assoc, List.getLast?_concat] at hc
      exact (Option.some.inj hc).symm
  · have hlines := fullLines_events h.chain.writable h.chain.isMemoryEvent []
    rw [List.append_nil, Scheme.fullLines_nil, List.append_nil, ← h.file] at hlines
    rw [hlines] at hline
    obtain ⟨ev, hev, rfl⟩ := List.mem_map.1 hline
    rw [(h.chain.writable ev hev).msParse_eq]
    exact hnext.fresh ev hev

/-- An append that is complete returns its event. -/
lemma Underway.append (calls : LibcCalls) (hpersist : calls.Persist (eventLine proposal.event)) :
    ∃ w', SafeAction digest w (.append calls false type payload) ∧
      storeStep digest w (.append calls false type payload) = some w' ∧
      w'.returned = w.returned ++ [proposal.event] ∧
      Underway digest w' node (events ++ [proposal.event]) (.string proposal.id) (clock.tick node) := by
  obtain ⟨log, held, hlog, hopened⟩ := h.opened
  have hproposal := hnext.propose hopened
  obtain ⟨clean, -, hproposed⟩ := hnext.proposed
  have hne : proposal.event ≠ .boolean false := by
    rw [← hproposed]
    exact fun heq => by cases heq
  obtain ⟨rga, hrga, happended⟩ := hopened.appended.append proposal.event
  have hadvance : log.advance proposal =
      some { log with rga := rga, vclock := proposal.vclock, prev := .string proposal.id } := by
    rw [MemoryLog.advance, hopened.node_eq, hrga]
    rfl
  refine ⟨⟨⟨some (w.files.log.getD [] ++ eventLine proposal.event), w.files.head⟩,
    some { log with rga := rga, vclock := proposal.vclock, prev := .string proposal.id },
    w.returned ++ [proposal.event]⟩, fun log' proposal' hlog' hproposal' _ => ?_, ?_, rfl,
    hnext.chain h.chain, ?_, h.head.append _, _, held ++ [proposal.event], rfl, hopened.node_eq, rfl, ?_, happended⟩
  · obtain rfl := Option.some.inj (hlog.symm.trans hlog')
    obtain rfl := Option.some.inj (hproposal.symm.trans hproposal')
    exact ⟨h.appendable hnext, hpersist⟩
  · rw [storeStep, hlog, Option.bind_eq_bind, Option.bind_some, memoryStoreAppend, hproposal]
    simp only [msAppendFsync, hpersist.fopen, if_true, List.take_of_length_le hpersist.fwrite, Option.bind_eq_bind,
      Option.bind_some, hadvance, if_neg hne]
    rfl
  · rw [Option.getD_some, h.file, List.flatMap_append, List.flatMap_singleton]
  · rw [← hproposed]
    rfl

/-- A crash in an append leaves part of the line. -/
lemma Underway.crash (written : ℕ) :
    ∃ w', SafeAction digest w (.crash written false type payload) ∧
      storeStep digest w (.crash written false type payload) = some w' ∧ w'.returned = w.returned ∧
      w'.files = ⟨some (events.flatMap eventLine ++ (eventLine proposal.event).take written), w.files.head⟩ := by
  obtain ⟨log, held, hlog, hopened⟩ := h.opened
  have hproposal := hnext.propose hopened
  refine ⟨{ w with files := crashedFiles w.files log proposal written false, log := none },
    fun log' proposal' hlog' hproposal' => ?_, ?_, rfl, ?_⟩
  · obtain rfl := Option.some.inj (hlog.symm.trans hlog')
    obtain rfl := Option.some.inj (hproposal.symm.trans hproposal')
    exact h.appendable hnext
  · rw [storeStep, hlog, Option.bind_eq_bind, Option.bind_some, hproposal]
    rfl
  · rw [← h.file]
    rfl

end progress

section example_run

/-- The log of a new store of the node `n`, its first event, and calls that write it. -/
def newLog : MemoryLog Scheme.WrittenDouble := .make (.symbol ['n'])

def firstProposal : Proposal Scheme.WrittenDouble :=
  (proposeEvent id newLog (.symbol ['t']) .null).getD ⟨.null, [], .null⟩

def writingCalls : LibcCalls := ⟨true, 1000, true, true, true⟩

lemma proposeEvent_newLog : proposeEvent id newLog (.symbol ['t']) .null = some firstProposal := rfl

lemma writable_firstProposal : Writable firstProposal.event := ⟨by decide, by decide⟩

/-- A hash in hexadecimal digits. -/
def hexText (n : ℕ) : Text := (List.range 64).map fun i => Nat.digitChar (n / 16 ^ (63 - i) % 16)

def runNode : Datum Scheme.WrittenDouble := .symbol ['n']

def runType : Datum Scheme.WrittenDouble := .symbol ['t']

/-- A payload with one entry. -/
def runPayload (d : Datum Scheme.WrittenDouble) : Datum Scheme.WrittenDouble := .list [.pair (.symbol ['k']) d]

/-- The bytes of an accented letter, and a character that `string-ref` does not give after it. -/
def accented : Text := ['\u00C3', '\u00A9', '!']

def firstHash : ℕ := 0xf08c3351574a8265f6c9b0be713b85eafbb78c84fbfb934ac822bb9f5283d168

def secondHash : ℕ := 0xdc7bc2b78fcaa18f615bea524de67daa0208b8c2342741e16ec0bda3ee54274a

def thirdHash : ℕ := 0xb0df832da032efd2623657f3f5b98da14f3ca83a43be412f8fda63c97f9f49c7

def fourthHash : ℕ := 0x60554c65e7233b7f5bc6b24b09fbee481567a805378fcc3299f810274b3fbfe2

/-- The content of an event of the run. -/
def runContent (n : ℕ) (prev clean : Datum Scheme.WrittenDouble) : Text :=
  Datum.canonicalString (.list [runNode, prev, clockDatum [(runNode, n)], runType, clean])

/-- SHA-256 of the contents of four events, each after the one before it. -/
def runTable : List (Text × ℕ) :=
  [(runContent 1 (.boolean false) (runPayload (.string [' ', ' '])), firstHash),
   (runContent 2 (.string (hexText firstHash)) (runPayload (.integer 7)), secondHash),
   (runContent 3 (.string (hexText secondHash)) .null, thirdHash),
   (runContent 4 (.string (hexText thirdHash)) (runPayload (.string ['a'])), fourthHash)]

/-- SHA-256 as far as the run needs it; other texts get the hash of the empty one. -/
def runDigest (data : Text) : Text :=
  hexText ((runTable.lookup data).getD 0xe3b0c44298fc1c149afbf4c8996fb92427ae41e4649b934ca495991b7852b855)

/-- A proposal of the run. -/
def runProposal (n hash : ℕ) (prev clean : Datum Scheme.WrittenDouble) : Proposal Scheme.WrittenDouble :=
  ⟨clockDatum [(runNode, n)], hexText hash,
    makeEvent (hexText hash) prev (clockDatum [(runNode, n)]) runNode runType clean⟩

lemma nextProposal_run {n hash : ℕ} {prev clean : Datum Scheme.WrittenDouble}
    {clock : Clock (Datum Scheme.WrittenDouble)} (hclock : clock.tick runNode = [(runNode, n)])
    (hhash : sha256 runDigest (runContent n prev clean) = hexText hash) :
    nextProposal runDigest runNode prev clock runType clean = runProposal n hash prev clean := by
  rw [nextProposal, hclock]
  show (⟨_, sha256 runDigest (runContent n prev clean), makeEvent (sha256 runDigest (runContent n prev clean)) _ _ _ _ _⟩ :
    Proposal Scheme.WrittenDouble) = _
  rw [hhash]
  rfl

def runFirst : Proposal Scheme.WrittenDouble :=
  runProposal 1 firstHash (.boolean false) (runPayload (.string [' ', ' ']))

def runSecond : Proposal Scheme.WrittenDouble :=
  runProposal 2 secondHash (.string (hexText firstHash)) (runPayload (.integer 7))

def runThird : Proposal Scheme.WrittenDouble := runProposal 3 thirdHash (.string (hexText secondHash)) .null

def runFourth : Proposal Scheme.WrittenDouble :=
  runProposal 4 fourthHash (.string (hexText thirdHash)) (runPayload (.string ['a']))

lemma goesOn_runFirst : GoesOn runDigest runNode [] (.boolean false) [] runType (runPayload (.string accented))
    runFirst :=
  ⟨⟨_, rfl, nextProposal_run rfl (by decide +kernel)⟩, ⟨by decide +kernel, by decide +kernel⟩, by simp⟩

lemma goesOn_runSecond : GoesOn runDigest runNode [runFirst.event] (.string runFirst.id) [(runNode, 1)] runType
    (runPayload (.integer 7)) runSecond :=
  ⟨⟨_, rfl, nextProposal_run rfl (by decide +kernel)⟩, ⟨by decide +kernel, by decide +kernel⟩, by decide +kernel⟩

lemma goesOn_runThird : GoesOn runDigest runNode [runFirst.event, runSecond.event] (.string runSecond.id)
    [(runNode, 2)] runType .null runThird :=
  ⟨⟨_, rfl, nextProposal_run rfl (by decide +kernel)⟩, ⟨by decide +kernel, by decide +kernel⟩, by decide +kernel⟩

lemma goesOn_runFourth : GoesOn runDigest runNode [runFirst.event, runSecond.event, runThird.event]
    (.string runThird.id) [(runNode, 3)] runType (runPayload (.string ['a'])) runFourth :=
  ⟨⟨_, rfl, nextProposal_run rfl (by decide +kernel)⟩, ⟨by decide +kernel, by decide +kernel⟩, by decide +kernel⟩

/-- An append; a crash after the line of the next event, before the head; an opening by the head of before;
an append; a crash that leaves a torn line; an opening. -/
theorem log_survives_crashes_torn :
    ∃ w : StoreWorld Scheme.WrittenDouble, SafelyReachable runDigest w ∧
      w.returned = [runFirst.event, runThird.event] ∧
      w.files.log = some ([runFirst.event, runSecond.event, runThird.event].flatMap eventLine ++ "(mem-".toList) ∧
      w.log.isSome = true ∧ Survives w := by
  obtain ⟨w₀, hopen₀, hreturned₀, h₀⟩ := underway_start runDigest runNode
  obtain ⟨w₁, hsafe₁, hstep₁, hreturned₁, h₁⟩ :=
    h₀.append goesOn_runFirst writingCalls ⟨rfl, by decide +kernel, rfl, rfl⟩
  obtain ⟨w₂, hsafe₂, hstep₂, hreturned₂, hfiles₂⟩ :=
    h₁.crash goesOn_runSecond (eventLine runSecond.event).length
  have hfile₂ : w₂.files.log.getD [] = ([runFirst.event] ++ [runSecond.event]).flatMap eventLine := by
    rw [hfiles₂, List.take_length, List.nil_append, List.flatMap_append, List.flatMap_singleton eventLine runSecond.event]
    rfl
  have hhead₂ : HeadHolds runDigest w₂.files.head ([runFirst.event] ++ [runSecond.event]) := by
    rw [hfiles₂]
    exact h₁.head.append _
  obtain ⟨w₃, hopen₃, hreturned₃, h₃⟩ := underway_openFast runNode (goesOn_runSecond.chain h₁.chain) hfile₂ hhead₂
  obtain ⟨w₄, hsafe₄, hstep₄, hreturned₄, h₄⟩ :=
    h₃.append goesOn_runThird writingCalls ⟨rfl, by decide +kernel, rfl, rfl⟩
  obtain ⟨w₅, hsafe₅, hstep₅, hreturned₅, hfiles₅⟩ := h₄.crash goesOn_runFourth 5
  have hreach : SafelyReachable runDigest w₅ :=
    .tail (.tail (.tail (.tail (.tail (.single ⟨.openFull runNode, trivial, hopen₀⟩) ⟨_, hsafe₁, hstep₁⟩) ⟨_, hsafe₂, hstep₂⟩)
      ⟨.openFast runNode, trivial, hopen₃⟩) ⟨_, hsafe₄, hstep₄⟩) ⟨_, hsafe₅, hstep₅⟩
  obtain ⟨log, -, -, hopen, -⟩ := log_survives_crashes hreach runNode
  have hopen₆ : storeStep runDigest w₅ (.openFull runNode) = some { w₅ with log := some log } := by
    rw [storeStep, hopen]
    rfl
  have hreach₆ := hreach.tail ⟨.openFull runNode, trivial, hopen₆⟩
  refine ⟨_, hreach₆, ?_, ?_, rfl, log_survives_crashes hreach₆⟩
  · show w₅.returned = _
    rw [hreturned₅, hreturned₄, hreturned₃, hreturned₂, hreturned₁, hreturned₀]
    rfl
  · show w₅.files.log = _
    rw [hfiles₅]
    rfl

/-- An append to a torn line is lost. -/
theorem log_loses_event :
    ¬ ∀ (digest : Text → Text) (w : StoreWorld Scheme.WrittenDouble), StoreReachable digest w → Survives w := by
  intro hall
  -- a crash leaves the first character of a line, and the line is opened as an empty log
  have hparen : (readAt ['('] : Option (Datum Scheme.WrittenDouble × Text)) = none := by
    rw [readAt_cons (msSkipWs_cons (by decide)), if_pos rfl]
    exact readList_nil [] rfl
  have htorn := memoryStoreOpen_torn (.symbol ['n']) (List.cons_ne_nil '(' []) (by decide) (by decide) hparen
    (.inl rfl)
  -- the next event continues that line
  have hglued : (readAt ('(' :: firstProposal.event.canonicalString) :
      Option (Datum Scheme.WrittenDouble × Text)) = none := by
    have hread := writable_firstProposal.plain.printable.readsBack.at_text [] fun c hc => (by cases hc)
    have hitem := readList_item [] writable_firstProposal.plain.printable hread
    rw [List.append_nil] at hitem
    rw [readAt_cons (msSkipWs_cons (by decide)), if_pos rfl, hitem]
    exact readList_nil _ rfl
  have hlost := memoryStoreOpen_torn (.symbol ['n']) (List.cons_ne_nil '(' firstProposal.event.canonicalString)
    (by decide) (by decide) hglued (.inr rfl)
  have hopen : storeStep id (.start : StoreWorld Scheme.WrittenDouble) (.openFull (.symbol ['n'])) =
      some ⟨⟨none, none⟩, some newLog, []⟩ := rfl
  have hcrash : storeStep id ⟨⟨none, none⟩, some newLog, []⟩ (.crash 1 false (.symbol ['t']) .null) =
      some ⟨⟨some ['('], none⟩, none, []⟩ := rfl
  have hreopen : storeStep id ⟨⟨some ['('], none⟩, none, []⟩ (.openFull (.symbol ['n'])) =
      some ⟨⟨some ['('], none⟩, some newLog, []⟩ := by
    rw [storeStep]
    show Option.map _ (memoryStoreOpen _ (some (['('] ++ []))) = _
    rw [htorn]
    rfl
  have happend : storeStep id ⟨⟨some ['('], none⟩, some newLog, []⟩
      (.append writingCalls false (.symbol ['t']) .null) =
        some ⟨⟨some ('(' :: firstProposal.event.canonicalString ++ ['\n']), none⟩,
          newLog.advance firstProposal, [firstProposal.event]⟩ := rfl
  have hreach : StoreReachable id ⟨⟨some ('(' :: firstProposal.event.canonicalString ++ ['\n']), none⟩,
      newLog.advance firstProposal, [firstProposal.event]⟩ :=
    .tail (.tail (.tail (.single ⟨_, hopen⟩) ⟨_, hcrash⟩) ⟨_, hreopen⟩) ⟨_, happend⟩
  obtain ⟨log, -, events, hlog, hevents, hkept, -⟩ := hall id _ hreach (.symbol ['n'])
  rw [hlost] at hlog
  obtain rfl := Option.some.inj hlog
  obtain rfl : events = [] := (Option.some.inj hevents).symm
  cases hkept

end example_run

end Memory
