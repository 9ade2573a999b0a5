import Eshkol.Base.Monitor
import Eshkol.Base.RingBuffer

/-!
# Channels

A bounded channel is a ring buffer under a mutex, with a condition variable for the threads that wait
for an item and one for those that wait for a free slot. An operation is given by one pass of its loop.
-/

namespace Threads

open Monitor (Pass Passes Wake)

/-- The slots of `#(eshkol-channel capacity buffer head tail count closed? …)` but for the condition
variables and the mutex. Of the values only `#f` is told apart, as the default. -/
structure Channel (α : Type) where
  capacity : ℕ
  buffer : List α
  head : ℕ
  tail : ℕ
  count : ℕ
  closed : Bool

/-- `not-empty` and `not-full`. -/
inductive ChannelCondvar where
  | notEmpty
  | notFull

inductive ChannelOp (α : Type) where
  | send (val : α)
  | recv
  | trySend (val : α)
  | tryRecv
  | close

/-- What the operations return: `sent` and `closed` for the result of the last unlock or `#t`,
`closedError` for the error of a send on a closed channel, `refused` and `empty` for `#f`, `drained` for
the sentinel. -/
inductive ChannelResult (α : Type) where
  | sent
  | closedError
  | refused
  | received (val : α)
  | drained
  | empty
  | closed

variable {α : Type} [Inhabited α]

/-- `make-channel`. -/
def makeChannel (cap : ℕ) : Option (Channel α) :=
  if cap < 1 then none
  else some ⟨cap, List.replicate cap default, 0, 0, 0, false⟩

namespace Channel

/-- `-ch-buffer-push!`. It fails outside the buffer. -/
def bufferPush (ch : Channel α) (val : α) : Option (Channel α) :=
  if ch.tail < ch.buffer.length then
    some { ch with
      buffer := ch.buffer.set ch.tail val
      tail := (ch.tail + 1) % ch.capacity
      count := ch.count + 1 }
  else none

/-- `-ch-buffer-pop!`. -/
def bufferPop (ch : Channel α) : Option (α × Channel α) :=
  if ch.head < ch.buffer.length then
    some (ch.buffer.getD ch.head default,
      { ch with
        -- clear slot to release reference
        buffer := ch.buffer.set ch.head default
        head := (ch.head + 1) % ch.capacity
        count := ch.count - 1 })
  else none

/-- The end of a pass over a channel. -/
abbrev Outcome (α : Type) := Option (Pass (Channel α) (ChannelResult α) ChannelCondvar)

/-- `channel-send!`. -/
def send (ch : Channel α) (val : α) : Outcome α :=
  if ch.closed then some (.done ch .closedError [])
  else if ch.capacity ≤ ch.count then some (.wait .notFull)
  else (ch.bufferPush val).map fun ch => .done ch .sent [.signal .notEmpty]

/-- `channel-recv!`. -/
def recv (ch : Channel α) : Outcome α :=
  if 0 < ch.count then
    ch.bufferPop.map fun r => .done r.2 (.received r.1) [.signal .notFull]
  else if ch.closed then some (.done ch .drained [])
  else some (.wait .notEmpty)

/-- `channel-try-send!`. -/
def trySend (ch : Channel α) (val : α) : Outcome α :=
  if ch.closed then some (.done ch .refused [])
  else if ch.capacity ≤ ch.count then some (.done ch .refused [])
  else (ch.bufferPush val).map fun ch => .done ch .sent [.signal .notEmpty]

/-- `channel-try-recv!`. -/
def tryRecv (ch : Channel α) : Outcome α :=
  if 0 < ch.count then
    ch.bufferPop.map fun r => .done r.2 (.received r.1) [.signal .notFull]
  else if ch.closed then some (.done ch .drained [])
  else some (.done ch .empty [])

/-- `channel-close!`. -/
def close (ch : Channel α) : Outcome α :=
  if ch.closed then some (.done ch .closed [])
  else some (.done { ch with closed := true } .closed [.broadcast .notEmpty, .broadcast .notFull])

/-- The operations on a channel. -/
def passes : Passes (Channel α) (ChannelOp α) (ChannelResult α) ChannelCondvar
  | .send val, ch => ch.send val
  | .recv, ch => ch.recv
  | .trySend val, ch => ch.trySend val
  | .tryRecv, ch => ch.tryRecv
  | .close, ch => ch.close

end Channel

end Threads
