import Eshkol.Threads.Channels

/-!
# A channel is a bounded queue

Under any interleaving the operations on a channel are, in the order in which they returned, a run of a
bounded first-in first-out queue that can be closed.
-/

namespace Threads

open Monitor (Event Object Run Simulates Reachable)
open RingBuffer (window)

variable {α : Type}

/-! ## The queue -/

/-- The items that wait and whether the queue is closed. -/
structure Queue (α : Type) where
  items : List α
  closed : Bool

/-- What an operation may do to a queue of bounded capacity, and answer. -/
inductive QueueStep (capacity : ℕ) : Object (Queue α) (ChannelOp α) (ChannelResult α) where
  | sent {items : List α} {val : α} : items.length < capacity →
    QueueStep capacity ⟨items, false⟩ (.send val) .sent ⟨items ++ [val], false⟩
  | closedError {items : List α} {val : α} :
    QueueStep capacity ⟨items, true⟩ (.send val) .closedError ⟨items, true⟩
  | trySent {items : List α} {val : α} : items.length < capacity →
    QueueStep capacity ⟨items, false⟩ (.trySend val) .sent ⟨items ++ [val], false⟩
  | refused {q : Queue α} {val : α} : q.closed = true ∨ capacity ≤ q.items.length →
    QueueStep capacity q (.trySend val) .refused q
  | received {items : List α} {closed : Bool} {val : α} :
    QueueStep capacity ⟨val :: items, closed⟩ .recv (.received val) ⟨items, closed⟩
  | drained : QueueStep capacity ⟨[], true⟩ .recv .drained ⟨[], true⟩
  | tryReceived {items : List α} {closed : Bool} {val : α} :
    QueueStep capacity ⟨val :: items, closed⟩ .tryRecv (.received val) ⟨items, closed⟩
  | tryDrained : QueueStep capacity ⟨[], true⟩ .tryRecv .drained ⟨[], true⟩
  | empty : QueueStep capacity ⟨[], false⟩ .tryRecv .empty ⟨[], false⟩
  | close {items : List α} {closed : Bool} :
    QueueStep capacity ⟨items, closed⟩ .close .closed ⟨items, true⟩

/-- The value that an operation put into the queue. -/
def sentBy {τ : Type*} (e : Event τ (ChannelOp α) (ChannelResult α)) : Option α :=
  match e.op, e.result with
  | .send val, .sent => some val
  | .trySend val, .sent => some val
  | _, _ => none

/-- The value that an operation took out of the queue. -/
def receivedBy {τ : Type*} (e : Event τ (ChannelOp α) (ChannelResult α)) : Option α :=
  match e.result with
  | .received val => some val
  | _ => none

section
variable {τ : Type*} {capacity : ℕ}

/-- The values whose send succeeded, in order. -/
def sent (h : List (Event τ (ChannelOp α) (ChannelResult α))) : List α := h.filterMap sentBy

/-- The values received, in order. -/
def received (h : List (Event τ (ChannelOp α) (ChannelResult α))) : List α := h.filterMap receivedBy

variable {h before after : List (Event τ (ChannelOp α) (ChannelResult α))}
  {e : Event τ (ChannelOp α) (ChannelResult α)} {q q' : Queue α}

lemma sent_append : sent (before ++ after) = sent before ++ sent after := List.filterMap_append

lemma received_append : received (before ++ after) = received before ++ received after :=
  List.filterMap_append

/-- The items are what was sent and not received. -/
lemma queueStep_items (hstep : QueueStep capacity q e.op e.result q') :
    q.items ++ (sentBy e).toList = (receivedBy e).toList ++ q'.items := by
  obtain ⟨t, op, result⟩ := e
  cases hstep <;> simp [sentBy, receivedBy]

/-- A queue is closed by `close` and stays closed. -/
lemma queueStep_closed (hstep : QueueStep capacity q e.op e.result q') (hclosed : q.closed = true) :
    q'.closed = true ∧ sentBy e = none := by
  obtain ⟨t, op, result⟩ := e
  cases hstep with
  | sent | trySent => cases hclosed
  | empty => cases hclosed
  | _ => exact ⟨by first | rfl | exact hclosed, rfl⟩

lemma sent_singleton : sent [e] = (sentBy e).toList := by
  cases he : sentBy e <;> simp [sent, he]

lemma received_singleton : received [e] = (receivedBy e).toList := by
  cases he : receivedBy e <;> simp [received, he]

lemma run_items (hrun : Run (QueueStep capacity) ⟨[], false⟩ h q) : sent h = received h ++ q.items := by
  induction hrun with
  | nil => rfl
  | snoc _ hstep ih =>
    rw [sent_append, received_append, sent_singleton, received_singleton, ih, List.append_assoc,
      List.append_assoc, queueStep_items hstep]

/-- From a closed queue on nothing is sent. -/
lemma run_closed (hrun : Run (QueueStep capacity) q h q') (hq : q.closed = true) :
    q'.closed = true ∧ sent h = [] := by
  induction hrun with
  | nil => exact ⟨hq, rfl⟩
  | snoc _ hstep ih =>
    obtain ⟨hclosed, hsent⟩ := queueStep_closed hstep ih.1
    refine ⟨hclosed, ?_⟩
    rw [sent_append, ih.2, sent_singleton, hsent]
    rfl

/-- After a close no send succeeds. -/
lemma sent_of_close (hrun : Run (QueueStep capacity) ⟨[], false⟩ (before ++ e :: after) q)
    (he : e.op = .close) : sent (before ++ e :: after) = sent before := by
  obtain ⟨m, -, hrest⟩ := hrun.split
  obtain ⟨m', hstep, hafter⟩ := hrest.cons_inv
  obtain ⟨t, op, result⟩ := e
  subst he
  cases hstep with
  | close =>
    rw [sent_append, ← List.singleton_append, sent_append, (run_closed hafter rfl).2]
    simp [sent_singleton, sentBy]

/-- Before the sentinel everything sent has been received. -/
lemma received_of_drained (hrun : Run (QueueStep capacity) ⟨[], false⟩ (before ++ e :: after) q)
    (he : e.result = .drained) : received before = sent (before ++ e :: after) := by
  obtain ⟨m, hbefore, hrest⟩ := hrun.split
  obtain ⟨m', hstep, hafter⟩ := hrest.cons_inv
  have hitems := run_items hbefore
  obtain ⟨t, op, result⟩ := e
  subst he
  have hm : m = ⟨[], true⟩ ∧ m' = ⟨[], true⟩ := by
    cases hstep <;> exact ⟨rfl, rfl⟩
  rw [hm.1, List.append_nil] at hitems
  have hclosed : m'.closed = true := by rw [hm.2]
  rw [sent_append, ← List.singleton_append, sent_append, (run_closed hafter hclosed).2, hitems]
  simp [sent_singleton, sentBy]

end

/-! ## The ring buffer -/

section
variable [Inhabited α]

/-- The items in the buffer. -/
def Channel.items (ch : Channel α) : List α := window ch.buffer ch.head ch.count

/-- The ring buffer of a channel and the queue it stands for. -/
structure Represents (capacity : ℕ) (ch : Channel α) (q : Queue α) : Prop where
  capacity_eq : ch.capacity = capacity
  length_eq : ch.buffer.length = ch.capacity
  head_lt : ch.head < ch.capacity
  tail_eq : ch.tail = (ch.head + ch.count) % ch.capacity
  count_le : ch.count ≤ ch.capacity
  items_eq : ch.items = q.items
  closed_eq : ch.closed = q.closed

variable {capacity : ℕ} {ch ch' : Channel α} {q : Queue α}

lemma Represents.count_eq (h : Represents capacity ch q) : ch.count = q.items.length := by
  rw [← h.items_eq, Channel.items, RingBuffer.length_window]

lemma makeChannel_represents (hch : makeChannel capacity = some ch) : Represents capacity ch ⟨[], false⟩ := by
  rw [makeChannel] at hch
  split at hch
  · cases hch
  · cases hch
    rename_i hcap
    refine ⟨rfl, List.length_replicate .., ?_, (Nat.zero_mod _).symm, Nat.zero_le _, rfl, rfl⟩
    show 0 < capacity
    omega

/-- A push into a buffer that is not full appends the item. -/
lemma Represents.push (h : Represents capacity ch q) (hfull : ¬ ch.capacity ≤ ch.count) (val : α) :
    ∃ ch', ch.bufferPush val = some ch' ∧ Represents capacity ch' ⟨q.items ++ [val], q.closed⟩ := by
  have htail : ch.tail < ch.buffer.length := by
    rw [h.tail_eq, h.length_eq]
    exact Nat.mod_lt _ (by omega)
  refine ⟨_, if_pos htail, h.capacity_eq, ?_, h.head_lt, ?_, Nat.lt_of_not_le hfull, ?_, h.closed_eq⟩
  · exact (List.length_set ..).trans h.length_eq
  · show (ch.tail + 1) % ch.capacity = (ch.head + (ch.count + 1)) % ch.capacity
    rw [h.tail_eq, Nat.mod_add_mod, Nat.add_assoc]
  · show window (ch.buffer.set ch.tail val) ch.head (ch.count + 1) = q.items ++ [val]
    have hcount : ch.count < ch.buffer.length := by
      rw [h.length_eq]
      exact Nat.lt_of_not_le hfull
    rw [h.tail_eq, ← h.length_eq, RingBuffer.window_push val hcount, ← h.items_eq]
    rfl

/-- A pop from a buffer that is not empty takes the first item. -/
lemma Represents.pop (h : Represents capacity ch q) (hempty : 0 < ch.count) :
    ∃ val items ch', q.items = val :: items ∧ ch.bufferPop = some (val, ch') ∧
      Represents capacity ch' ⟨items, q.closed⟩ := by
  have hhead : ch.head < ch.buffer.length := h.length_eq ▸ h.head_lt
  obtain ⟨n, hn⟩ : ∃ n, ch.count = n + 1 := ⟨ch.count - 1, by omega⟩
  have hn_lt : n < ch.buffer.length := by
    have := h.count_le
    rw [h.length_eq]
    omega
  have hitems : q.items = ch.buffer.getD ch.head default ::
      window (ch.buffer.set ch.head default) ((ch.head + 1) % ch.capacity) n := by
    rw [← h.items_eq, Channel.items, hn, RingBuffer.window_pop default hhead hn_lt, h.length_eq]
  refine ⟨_, _, _, hitems, if_pos hhead, h.capacity_eq, ?_, ?_, ?_, ?_, ?_, h.closed_eq⟩
  · exact (List.length_set ..).trans h.length_eq
  · exact Nat.mod_lt _ (Nat.lt_of_le_of_lt (Nat.zero_le _) h.head_lt)
  · show ch.tail = ((ch.head + 1) % ch.capacity + (ch.count - 1)) % ch.capacity
    rw [h.tail_eq, Nat.mod_add_mod, hn, Nat.add_sub_cancel, Nat.add_assoc, Nat.add_comm 1 n]
  · exact (Nat.sub_le _ _).trans h.count_le
  · show window (ch.buffer.set ch.head default) ((ch.head + 1) % ch.capacity) (ch.count - 1) = _
    rw [hn, Nat.add_sub_cancel]

/-! ## The operations -/

/-- What a pass does to the queue: it waits, or answers as the queue may. -/
def Answers (capacity : ℕ) (q : Queue α) (op : ChannelOp α) (outcome : Channel.Outcome α) : Prop :=
  (∃ condvar, outcome = some (.wait condvar)) ∨
    ∃ ch' r wakes q', outcome = some (.done ch' r wakes) ∧ QueueStep capacity q op r q' ∧
      Represents capacity ch' q'

lemma Represents.queue_eq (h : Represents capacity ch q) : q = ⟨q.items, ch.closed⟩ := by
  rw [h.closed_eq]

lemma Represents.room (h : Represents capacity ch q) (hfull : ¬ ch.capacity ≤ ch.count) :
    q.items.length < capacity := by
  rw [← h.count_eq, ← h.capacity_eq]
  exact Nat.lt_of_not_le hfull

lemma Represents.nil (h : Represents capacity ch q) (hempty : ¬ 0 < ch.count) : q.items = [] := by
  rw [← List.length_eq_zero_iff, ← h.count_eq]
  omega

lemma send_answers (h : Represents capacity ch q) (val : α) : Answers capacity q (.send val) (ch.send val) := by
  have hq := h.queue_eq
  rw [Channel.send]
  by_cases hclosed : ch.closed = true
  · rw [hclosed] at hq
    rw [if_pos hclosed]
    refine .inr ⟨ch, _, _, q, rfl, ?_, h⟩
    rw [hq]
    exact .closedError
  rw [if_neg hclosed]
  by_cases hfull : ch.capacity ≤ ch.count
  · rw [if_pos hfull]
    exact .inl ⟨_, rfl⟩
  · rw [Bool.not_eq_true] at hclosed
    obtain ⟨ch', hpush, hch'⟩ := h.push hfull val
    rw [hclosed] at hq
    rw [if_neg hfull, hpush]
    refine .inr ⟨ch', _, _, _, rfl, ?_, hch'⟩
    rw [hq]
    exact .sent (h.room hfull)

lemma trySend_answers (h : Represents capacity ch q) (val : α) :
    Answers capacity q (.trySend val) (ch.trySend val) := by
  have hq := h.queue_eq
  rw [Channel.trySend]
  by_cases hclosed : ch.closed = true
  · rw [if_pos hclosed]
    exact .inr ⟨ch, _, _, q, rfl, .refused (.inl (h.closed_eq ▸ hclosed)), h⟩
  rw [if_neg hclosed]
  by_cases hfull : ch.capacity ≤ ch.count
  · rw [if_pos hfull]
    rw [h.capacity_eq, h.count_eq] at hfull
    exact .inr ⟨ch, _, _, q, rfl, .refused (.inr hfull), h⟩
  · rw [Bool.not_eq_true] at hclosed
    obtain ⟨ch', hpush, hch'⟩ := h.push hfull val
    rw [hclosed] at hq
    rw [if_neg hfull, hpush]
    refine .inr ⟨ch', _, _, _, rfl, ?_, hch'⟩
    rw [hq]
    exact .trySent (h.room hfull)

lemma recv_answers (h : Represents capacity ch q) : Answers capacity q .recv ch.recv := by
  have hq := h.queue_eq
  rw [Channel.recv]
  by_cases hempty : 0 < ch.count
  · obtain ⟨val, items, ch', hitems, hpop, hch'⟩ := h.pop hempty
    rw [if_pos hempty, hpop]
    refine .inr ⟨ch', _, _, _, rfl, ?_, hch'⟩
    rw [hq, hitems]
    exact .received
  rw [if_neg hempty]
  rw [h.nil hempty] at hq
  by_cases hclosed : ch.closed = true
  · rw [hclosed] at hq
    rw [if_pos hclosed]
    refine .inr ⟨ch, _, _, q, rfl, ?_, h⟩
    rw [hq]
    exact .drained
  · rw [if_neg hclosed]
    exact .inl ⟨_, rfl⟩

lemma tryRecv_answers (h : Represents capacity ch q) : Answers capacity q .tryRecv ch.tryRecv := by
  have hq := h.queue_eq
  rw [Channel.tryRecv]
  by_cases hempty : 0 < ch.count
  · obtain ⟨val, items, ch', hitems, hpop, hch'⟩ := h.pop hempty
    rw [if_pos hempty, hpop]
    refine .inr ⟨ch', _, _, _, rfl, ?_, hch'⟩
    rw [hq, hitems]
    exact .tryReceived
  rw [if_neg hempty]
  rw [h.nil hempty] at hq
  by_cases hclosed : ch.closed = true
  · rw [hclosed] at hq
    rw [if_pos hclosed]
    refine .inr ⟨ch, _, _, q, rfl, ?_, h⟩
    rw [hq]
    exact .tryDrained
  · rw [if_neg hclosed]
    rw [Bool.not_eq_true] at hclosed
    rw [hclosed] at hq
    refine .inr ⟨ch, _, _, q, rfl, ?_, h⟩
    rw [hq]
    exact .empty

lemma close_answers (h : Represents capacity ch q) : Answers capacity q .close ch.close := by
  have hq := h.queue_eq
  rw [Channel.close]
  by_cases hclosed : ch.closed = true
  · rw [hclosed] at hq
    rw [if_pos hclosed]
    refine .inr ⟨ch, _, _, q, rfl, ?_, h⟩
    rw [hq]
    exact .close
  · rw [if_neg hclosed]
    refine .inr ⟨_, _, _, ⟨q.items, true⟩, rfl, .close, ?_⟩
    exact ⟨h.capacity_eq, h.length_eq, h.head_lt, h.tail_eq, h.count_le, h.items_eq, rfl⟩

/-- Each pass answers as the queue does. -/
lemma passes_answer (h : Represents capacity ch q) (op : ChannelOp α) :
    Answers capacity q op (Channel.passes op ch) := by
  cases op with
  | send val => exact send_answers h val
  | recv => exact recv_answers h
  | trySend val => exact trySend_answers h val
  | tryRecv => exact tryRecv_answers h
  | close => exact close_answers h

/-- The channel simulates a bounded queue. -/
lemma channel_simulates (hch : makeChannel capacity = some ch) :
    Simulates Channel.passes ch (QueueStep capacity) ⟨[], false⟩ (@Represents α _ capacity) := by
  refine ⟨makeChannel_represents hch, ?_⟩
  intro s q op s' r wakes h hpass
  rcases passes_answer h op with ⟨condvar, hwait⟩ | ⟨s'', r', wakes', q', hdone, hstep, hrel⟩
  · rw [hwait] at hpass
    cases hpass
  · rw [hdone] at hpass
    cases hpass
    exact ⟨q', hstep, hrel⟩

/-! ## Every interleaving -/

/-- What the history of a channel of the given capacity says, and its buffer. -/
structure FifoQueue {τ : Type*} (capacity : ℕ) (ch : Channel α)
    (h : List (Event τ (ChannelOp α) (ChannelResult α))) : Prop where
  run : Run (QueueStep capacity) ⟨[], false⟩ h ⟨ch.items, ch.closed⟩
  received_isPrefix : received h <+: sent h
  sent_eq : sent h = received h ++ ch.items
  count_eq : ch.count + (received h).length = (sent h).length
  count_le : ch.count ≤ capacity
  received_of_drained : ∀ before e after, h = before ++ e :: after → e.result = .drained →
    received before = sent h
  sent_of_close : ∀ before e after, h = before ++ e :: after → e.op = .close → sent before = sent h

/-- First in, first out. -/
lemma fifoQueue_of_run {τ : Type*} {h : List (Event τ (ChannelOp α) (ChannelResult α))}
    (hrun : Run (QueueStep capacity) ⟨[], false⟩ h q) (hrel : Represents capacity ch q) :
    FifoQueue capacity ch h := by
  have hq := hrel.queue_eq
  rw [← hrel.items_eq] at hq
  have hitems := run_items hrun
  rw [← hrel.items_eq] at hitems
  refine ⟨hq ▸ hrun, ⟨_, hitems.symm⟩, hitems, ?_, ?_, ?_, ?_⟩
  · rw [hitems, List.length_append, Channel.items, RingBuffer.length_window, Nat.add_comm]
  · exact hrel.capacity_eq ▸ hrel.count_le
  · rintro before e after rfl he
    exact received_of_drained hrun he
  · rintro before e after rfl he
    exact (sent_of_close hrun he).symm

/-- After any interleaving the operations that returned are a run of the queue. Every call of a thread is
among them once, but for its last one that may be under way, and none has failed. -/
theorem channel_linearizable {τ : Type*} [DecidableEq τ] (hch : makeChannel capacity = some ch)
    {c : Monitor.Config τ (Channel α) (ChannelOp α) (ChannelResult α) ChannelCondvar}
    (h : Reachable Channel.passes ch c) :
    FifoQueue capacity c.shared c.history ∧
      (∀ t, (c.calls.filter (·.1 = t)).map Prod.snd =
        (c.history.filter (·.thread = t)).map Event.op ++ (c.threads t).pending.toList) ∧
      ∀ t op, c.threads t ≠ .failed op := by
  obtain ⟨q, hrun, hrel⟩ := (channel_simulates hch).linearizable h
  refine ⟨fifoQueue_of_run hrun hrel, Monitor.calls_of_thread h,
    (channel_simulates hch).not_failed (fun op hs => ?_) h⟩
  rcases passes_answer hs op with ⟨condvar, hwait⟩ | ⟨_, _, _, _, hdone, -⟩
  · simp [hwait]
  · simp [hdone]

end

/-- A receiver waits for the value that another thread sends. -/
theorem channel_linearizable_handover :
    ∃ c : Monitor.Config Bool (Channel ℕ) (ChannelOp ℕ) (ChannelResult ℕ) ChannelCondvar,
      received c.history = [5] ∧ FifoQueue 1 c.shared c.history := by
  have hinit : Reachable (@Channel.passes ℕ _) ⟨1, [0], 0, 0, 0, false⟩ (Monitor.initial _) :=
    @Reachable.initial Bool _ _ _ _ _ _ _
  have hwaiting := ((hinit.step (.call false .recv rfl)).step (.lock false rfl rfl)).step
    (.wait false rfl rfl)
  have hsent := ((hwaiting.step (.call true (.send 5) rfl)).step (.lock true rfl rfl)).step
    (.done true rfl rfl (.cons (.one (t := false) rfl) .nil))
  have hreceived := (hsent.step (.lock false rfl rfl)).step
    (.done false rfl rfl (.cons (.nobody (by rintro (_ | _) op h <;> cases h)) .nil))
  exact ⟨_, rfl, (channel_linearizable rfl hreceived).1⟩

end Threads
