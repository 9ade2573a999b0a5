import Eshkol.Memory.CrashTheorems

/-!
# The head commits to the events

Every event names the hash of the one before it. Files that pass the verification and end in the same
identifier hold the same events, as long as the hash covers all of an event and has no collision.
-/

namespace Memory

open Scheme (Datum Text DoubleText fullLines)

variable {δ : Type} [DecidableEq δ] [DoubleText δ] {digest : Text → Text}

/-- The text that the identifier of an event is the hash of. -/
def contentText (ev : Datum δ) : Option Text := do
  let node ← memoryEventNode ev
  let prev ← memoryEventPrev ev
  let vclock ← memoryEventVclock ev
  let type ← memoryEventType ev
  let payload ← memoryEventPayload ev
  some (Datum.canonicalString (.list [node, prev, vclock, type, payload]))

/-- An event that is covered by its hash: it has seven elements, values that their text stands for, and
a text without the bytes that go on a character. -/
structure Sealed (ev : Datum δ) : Prop where
  shape : ∃ fields : List (Datum δ), ev = .list fields ∧ fields.length = 7
  printable : Printable ev
  ascii : ∀ text, contentText ev = some text → ∀ c ∈ text, isContinuation c = false

/-- Events of different content have different hashes. -/
def NoCollision (digest : Text → Text) (events : List (Datum δ)) : Prop :=
  ∀ ev ∈ events, ∀ ev' ∈ events, ∀ text text', contentText ev = some text → contentText ev' = some text' →
    digest text = digest text' → text = text'

/-- Text whose characters are one byte each is hashed whole. -/
lemma sha256_of_ascii {text : Text} (h : ∀ c ∈ text, isContinuation c = false) :
    sha256 digest text = digest text := by
  have hlength : stringLength text = text.length := by
    rw [stringLength, List.countP_eq_length]
    intro c hc
    rw [h c hc]
    rfl
  rw [sha256, hlength, List.take_length]

omit [DecidableEq δ] in
lemma recomputedHash_eq (ev : Datum δ) : recomputedHash digest ev = (contentText ev).map (sha256 digest) := by
  rw [recomputedHash, contentText]
  cases memoryEventNode ev <;> cases memoryEventPrev ev <;> cases memoryEventVclock ev <;>
    cases memoryEventType ev <;> cases memoryEventPayload ev <;> rfl

/-- An event whose identifier is the hash of its content. -/
def Hashed (digest : Text → Text) (ev : Datum δ) : Prop :=
  isMemoryEvent ev = true ∧ ∃ id, memoryEventId ev = some (.string id) ∧ recomputedHash digest ev = some id

/-- A sealed event that is hashed is made of its fields. -/
lemma Sealed.eq_makeEvent {ev : Datum δ} (h : Sealed ev) (hashed : Hashed digest ev) :
    ∃ id prev vclock node type payload, ev = makeEvent id prev vclock node type payload ∧
      digest (Datum.canonicalString (.list [node, prev, vclock, type, payload])) = id := by
  obtain ⟨⟨fields, rfl, hlength⟩, -, hascii⟩ := h
  obtain ⟨hmark, id, hid, hhash⟩ := hashed
  obtain ⟨mark, id', prev, vclock, node, type, payload, rfl⟩ : ∃ a b c d e f g, fields = [a, b, c, d, e, f, g] := by
    match fields, hlength with
    | [a, b, c, d, e, f, g], _ => exact ⟨a, b, c, d, e, f, g, rfl⟩
  obtain rfl : mark = .symbol "mem-ev-v1".toList := of_decide_eq_true hmark
  obtain rfl : id' = .string id := Option.some.inj hid
  refine ⟨id, prev, vclock, node, type, payload, rfl, ?_⟩
  rw [recomputedHash_eq] at hhash
  have htext := @sha256_of_ascii digest _ (hascii _ rfl)
  exact htext.symm.trans (Option.some.inj hhash)

/-- Sealed events with the same identifier are the same. -/
lemma Sealed.eq_of_id {events : List (Datum δ)} {ev ev' : Datum δ} (hcollision : NoCollision digest events)
    (hmem : ev ∈ events) (hmem' : ev' ∈ events) (h : Sealed ev) (h' : Sealed ev') (hashed : Hashed digest ev)
    (hashed' : Hashed digest ev') (heq : memoryEventId ev = memoryEventId ev') : ev = ev' := by
  have hprintable := h.printable
  have hprintable' := h'.printable
  obtain ⟨id, prev, vclock, node, type, payload, rfl, hid⟩ := h.eq_makeEvent hashed
  obtain ⟨id', prev', vclock', node', type', payload', rfl, hid'⟩ := h'.eq_makeEvent hashed'
  obtain rfl : id = id' := by simpa using heq
  have htext := hcollision _ hmem _ hmem' _ _ rfl rfl (hid.trans hid'.symm)
  obtain ⟨-, -, hprev, hvclock, hnode, htype, hpayload, -⟩ := hprintable
  obtain ⟨-, -, hprev', hvclock', hnode', htype', hpayload', -⟩ := hprintable'
  have hcontent := Printable.canonicalString_inj
    (show Printable (Datum.list [node, prev, vclock, type, payload]) from
      ⟨hnode, hprev, hvclock, htype, hpayload, trivial⟩)
    (show Printable (Datum.list [node', prev', vclock', type', payload']) from
      ⟨hnode', hprev', hvclock', htype', hpayload', trivial⟩) htext
  simp only [Datum.list, Datum.pair.injEq, and_true] at hcontent
  obtain ⟨rfl, rfl, rfl, rfl, rfl⟩ := hcontent
  rfl

/-! ## Links -/

/-- Events each of which names the identifier of the one before it, and the last identifier. -/
inductive Links : List (Datum δ) → Datum δ → Prop
  | nil : Links [] (.boolean false)
  | snoc {events : List (Datum δ)} {prev ev : Datum δ} {id : Text} : Links events prev →
      memoryEventPrev ev = some prev → memoryEventId ev = some (.string id) → Links (events ++ [ev]) (.string id)

omit [DecidableEq δ] [DoubleText δ] in
/-- What is linked and ends in one identifier is the same, from the last event back to the first. -/
lemma Links.unique {events events' : List (Datum δ)} {last : Datum δ} (h : Links events last)
    (h' : Links events' last)
    (hid : ∀ ev ∈ events, ∀ ev' ∈ events', memoryEventId ev = memoryEventId ev' → ev = ev') : events = events' := by
  induction h generalizing events' with
  | nil =>
    cases h' with
    | nil => rfl
  | @snoc events prev ev id _ hprev hev ih =>
    cases h' with
    | @snoc events' prev' ev' id' hlinks' hprev' hev' =>
      obtain rfl := hid ev (by simp) ev' (by simp) (hev.trans hev'.symm)
      obtain rfl := Option.some.inj (hprev.symm.trans hprev')
      rw [ih hlinks' fun e he e' he' => hid e (List.mem_append_left _ he) e' (List.mem_append_left _ he')]

lemma Links.head {log : MemoryLog δ} {events : List (Datum δ)} {last : Datum δ} (h : Links events last)
    (hevents : log.events = some events) : memoryStoreHead log = some last := by
  rw [memoryStoreHead, hevents, Option.bind_eq_bind, Option.bind_some]
  cases h with
  | nil => rfl
  | snoc _ _ hid =>
    rw [List.getLast?_concat]
    exact hid

end Memory
