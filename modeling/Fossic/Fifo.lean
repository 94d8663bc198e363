/-
An unbounded FIFO channel that remembers what has been taken from it.
-/
import Mathlib.Data.List.Basic

structure Fifo (α : Type) where
  received : List α
  pending : List α

variable {α : Type} {c c' : Fifo α} {m : α}

namespace Fifo

def empty : Fifo α := ⟨[], []⟩

/-- Everything that was ever put in, in order. -/
def sent (c : Fifo α) : List α := c.received ++ c.pending

def send (c : Fifo α) (m : α) : Fifo α := { c with pending := c.pending ++ [m] }

def receive (c : Fifo α) : Option (α × Fifo α) :=
  match c.pending with
  | [] => none
  | m :: pending => some (m, ⟨c.received ++ [m], pending⟩)

@[simp] theorem sent_send : (c.send m).sent = c.sent ++ [m] :=
  (List.append_assoc _ _ _).symm

theorem receive_eq_some : c.receive = some (m, c') ↔
    c.pending = m :: c'.pending ∧ c'.received = c.received ++ [m] := by
  obtain ⟨received, pending⟩ := c
  obtain ⟨received', pending'⟩ := c'
  cases pending with
  | nil => simp [receive]
  | cons n pending =>
    simp only [receive, Option.some.injEq, Prod.mk.injEq, mk.injEq, List.cons.injEq]
    constructor
    · rintro ⟨rfl, rfl, rfl⟩
      exact ⟨⟨rfl, rfl⟩, rfl⟩
    · rintro ⟨⟨rfl, rfl⟩, rfl⟩
      exact ⟨rfl, rfl, rfl⟩

theorem receive_eq_none : c.receive = none ↔ c.pending = [] := by
  rw [receive]
  split <;> simp [*]

/-- Taking a message changes nothing about what was sent. -/
theorem sent_receive (h : c.receive = some (m, c')) : c'.sent = c.sent := by
  obtain ⟨hpending, hreceived⟩ := receive_eq_some.mp h
  rw [sent, sent, hpending, hreceived, List.append_assoc]
  rfl

theorem mem_sent_of_received (h : m ∈ c.received) : m ∈ c.sent := List.mem_append_left _ h

theorem sent_of_drained (h : c.pending = []) : c.sent = c.received := by
  rw [sent, h, List.append_nil]

end Fifo
