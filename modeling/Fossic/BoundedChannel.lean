/-
A bounded channel with one consumer thread, seen from the sender.

`trySend` never blocks: it fails with `disconnected` once the consumer is gone and
with `full` when there is no room.  A channel of capacity zero holds no messages
and hands one over only to a consumer that is waiting for it.
-/
import Mathlib.Data.List.Basic

namespace BoundedChannel

/-- What the consumer thread does: wait for a message, work on one (or still
start up), or have ended. -/
inductive Receiver
  | waiting
  | busy
  | gone
  deriving DecidableEq

structure Channel (α : Type) where
  cap : ℕ
  buf : List α
  receiver : Receiver
  deriving DecidableEq

inductive SendResult
  | sent
  | full
  | disconnected
  deriving DecidableEq

inductive ReceiverStep
  | receive
  | finish
  | stop
  deriving DecidableEq

variable {α : Type} {c c' : Channel α} {m : α}

/-- A new channel; its consumer thread has yet to reach its first receive. -/
def Channel.bounded (cap : ℕ) : Channel α := ⟨cap, [], .busy⟩

def Channel.trySend (c : Channel α) (m : α) : Channel α × SendResult :=
  if c.receiver = .gone then (c, .disconnected)
  else if c.cap = 0 then
    if c.receiver = .waiting then ({ c with receiver := .busy }, .sent) else (c, .full)
  else if c.buf.length < c.cap then ({ c with buf := c.buf ++ [m] }, .sent)
  else (c, .full)

/-- The consumer takes a message, comes back for the next one, or ends (its
messages are dropped). -/
def Channel.receiverStep (c : Channel α) : ReceiverStep → Option (Channel α)
  | .receive =>
    match c.receiver, c.buf with
    | .waiting, _ :: buf => some { c with buf := buf, receiver := .busy }
    | _, _ => none
  | .finish => if c.receiver = .busy then some { c with receiver := .waiting } else none
  | .stop => if c.receiver = .busy then some { c with buf := [], receiver := .gone } else none

theorem trySend_disconnected_iff : (c.trySend m).2 = .disconnected ↔ c.receiver = .gone := by
  rw [Channel.trySend]
  split_ifs <;> simp_all

/-- A consumer that is gone stays gone. -/
theorem trySend_gone (h : c.receiver = .gone) : (c.trySend m).1.receiver = .gone := by
  rw [Channel.trySend, if_pos h]
  exact h

/-- Sending does not end the consumer. -/
theorem trySend_receiver (h : c.receiver ≠ .gone) : (c.trySend m).1.receiver ≠ .gone := by
  rw [Channel.trySend, if_neg h]
  split
  · split
    · exact Receiver.noConfusion
    · exact h
  · split
    · exact h
    · exact h

/-- Neither do its own steps, but for the last. -/
theorem receiverStep_receiver {step : ReceiverStep} (hstep : step ≠ .stop)
    (h : c.receiverStep step = some c') : c'.receiver ≠ .gone := by
  cases step with
  | receive =>
    rw [Channel.receiverStep] at h
    split at h
    · obtain rfl := Option.some_inj.mp h
      exact Receiver.noConfusion
    · exact absurd h (by simp)
  | finish =>
    rw [Channel.receiverStep] at h
    split at h
    · obtain rfl := Option.some_inj.mp h
      exact Receiver.noConfusion
    · exact absurd h (by simp)
  | stop => exact absurd rfl hstep

theorem receiverStep_gone {step : ReceiverStep} (h : c.receiver = .gone) :
    c.receiverStep step = none := by
  cases step <;> simp [Channel.receiverStep, h]

end BoundedChannel
