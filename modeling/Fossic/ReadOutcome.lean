/-
What a bounded read returns.

A read that stops at its budget is truncated and carries a cursor to resume with.
The store upcasts the events of an outcome after the page was cut, which keeps their
ids and commutes with putting pages together (`upcastAll_append_iff`).
-/
import Fossic.Upcasters
import Fossic.Paging

namespace Fossic

open Paging

/-! ### Cursors and outcomes -/

/-- Where a bounded read resumes.  A `TruncationCursor` is its msgpack, which decodes
to what was encoded. -/
inductive CursorInner
  | range (streamId branch : String) (nextVersion : UInt64)
  | correlation (correlationId lastSeenId : EventId)
  | causation (frontier : List EventId) (direction : UInt8) (depthConsumed : UInt32)

inductive TruncationReason
  | resultCount
  | byteSize
  deriving DecidableEq

inductive ReadOutcome
  | complete (data : List StoredEvent)
  | truncated (data : List StoredEvent) (cursor : Option CursorInner) (reason : TruncationReason)

def ReadOutcome.data : ReadOutcome → List StoredEvent
  | complete data => data
  | truncated data _ _ => data

def ReadOutcome.withData : ReadOutcome → List StoredEvent → ReadOutcome
  | complete _, data => complete data
  | truncated _ cursor reason, data => truncated data cursor reason

@[simp] theorem ReadOutcome.data_withData {outcome : ReadOutcome} {data : List StoredEvent} :
    (outcome.withData data).data = data := by
  cases outcome <;> rfl

/-- Each event of a page is upcast after the page was cut. -/
def upcastOutcome (registry : UpcasterRegistry) (fuel : ℕ) (outcome : ReadOutcome) :
    Option (Except Error ReadOutcome) :=
  (upcastAll registry fuel outcome.data).map fun result => result.map outcome.withData

variable {registry : UpcasterRegistry} {fuel : ℕ} {cursor : Option CursorInner}
  {events events' data data' : List StoredEvent} {reason : TruncationReason}
  {outcome outcome' : ReadOutcome}

/-! ### Upcasting pages -/

theorem upcastAll_eq_ok_iff : upcastAll registry fuel events = some (.ok data) ↔
    List.Forall₂ (fun event event' => applyUpcaster registry fuel event = some (.ok event'))
      events data := by
  refine ⟨upcastAll_eq_ok, fun h => ?_⟩
  induction h with
  | nil => rfl
  | cons hevent _ ih =>
    rw [upcastAll, hevent]
    dsimp only
    rw [ih]
    rfl

theorem upcastAll_cons_iff {event : StoredEvent} :
    upcastAll registry fuel (event :: events) = some (.ok data) ↔
      ∃ event' rest, applyUpcaster registry fuel event = some (.ok event') ∧
        upcastAll registry fuel events = some (.ok rest) ∧ data = event' :: rest := by
  simp only [upcastAll_eq_ok_iff]
  exact List.forall₂_cons_left_iff

/-- Pages are upcast one by one. -/
theorem upcastAll_append_iff : upcastAll registry fuel (events ++ events') = some (.ok data) ↔
    ∃ page page', upcastAll registry fuel events = some (.ok page) ∧
      upcastAll registry fuel events' = some (.ok page') ∧ data = page ++ page' := by
  simp only [upcastAll_eq_ok_iff]
  constructor
  · intro h
    have hpage := (List.forall₂_take_append _ events events' h.flip).flip
    have hpage' := (List.forall₂_drop_append _ events events' h.flip).flip
    exact ⟨_, _, hpage, hpage', (List.take_append_drop _ _).symm⟩
  · rintro ⟨page, page', h, h', rfl⟩
    exact List.rel_append h h'

theorem mem_upcastAll (h : upcastAll registry fuel events = some (.ok data)) {event' : StoredEvent} :
    event' ∈ data ↔ ∃ event ∈ events, applyUpcaster registry fuel event = some (.ok event') := by
  have hall := upcastAll_eq_ok h
  constructor
  · exact fun hmem => exists_of_mem_forall₂ hall hmem
  · rintro ⟨event, hmem, happly⟩
    obtain ⟨event'', hmem', happly'⟩ := exists_of_mem_forall₂ hall.flip hmem
    obtain rfl := Except.ok.inj (Option.some_inj.mp (happly.symm.trans happly'))
    exact hmem'

/-- Events that were upcast in one list are upcast in another. -/
theorem upcastAll_of_subset (h : upcastAll registry fuel events = some (.ok data))
    (hsub : ∀ event ∈ events', event ∈ events) :
    ∃ data', upcastAll registry fuel events' = some (.ok data') := by
  have heach : ∀ event ∈ events, ∃ event', applyUpcaster registry fuel event = some (.ok event') := by
    intro event hevent
    obtain ⟨event', -, happly⟩ := exists_of_mem_forall₂ (upcastAll_eq_ok h).flip hevent
    exact ⟨event', happly⟩
  induction events' with
  | nil => exact ⟨[], rfl⟩
  | cons event events' ih =>
    obtain ⟨event', happly⟩ := heach event (hsub event List.mem_cons_self)
    obtain ⟨data', hdata⟩ := ih fun e he => hsub e (List.mem_cons_of_mem _ he)
    exact ⟨event' :: data', upcastAll_eq_ok_iff.mpr (.cons happly (upcastAll_eq_ok hdata))⟩

theorem length_upcastAll (h : upcastAll registry fuel events = some (.ok data)) :
    data.length = events.length :=
  (upcastAll_eq_ok h).length_eq.symm

theorem upcastAll_ne_nil_iff (h : upcastAll registry fuel events = some (.ok data)) :
    data ≠ [] ↔ events ≠ [] := by
  rw [← List.length_pos_iff, length_upcastAll h, List.length_pos_iff]

theorem upcastAll_ids (h : upcastAll registry fuel events = some (.ok data)) :
    data.map (·.id) = events.map (·.id) := by
  have hall := upcastAll_eq_ok h
  clear h
  induction hall with
  | nil => rfl
  | cons hevent _ ih =>
    rw [List.map_cons, List.map_cons, ih, (applyUpcaster_eq_ok hevent).2]

theorem upcastOutcome_eq_ok_iff : upcastOutcome registry fuel outcome = some (.ok outcome') ↔
    ∃ data, upcastAll registry fuel outcome.data = some (.ok data) ∧
      outcome.withData data = outcome' := by
  rw [upcastOutcome, Option.map_eq_some_iff]
  constructor
  · rintro ⟨result, hresult, hmap⟩
    cases result with
    | error e => exact absurd hmap (by simp [Except.map])
    | ok data => exact ⟨data, hresult, Except.ok.inj hmap⟩
  · rintro ⟨data, hdata, rfl⟩
    exact ⟨.ok data, hdata, rfl⟩

theorem upcastOutcome_complete
    (h : upcastOutcome registry fuel outcome = some (.ok (.complete data))) :
    ∃ events, outcome = .complete events ∧ upcastAll registry fuel events = some (.ok data) := by
  obtain ⟨data', hdata, hwith⟩ := upcastOutcome_eq_ok_iff.mp h
  cases outcome with
  | truncated events cursor reason => exact absurd hwith (by simp [ReadOutcome.withData])
  | complete events =>
    obtain rfl := ReadOutcome.complete.inj hwith
    exact ⟨events, rfl, hdata⟩

theorem upcastOutcome_truncated
    (h : upcastOutcome registry fuel outcome = some (.ok (.truncated data cursor reason))) :
    ∃ events, outcome = .truncated events cursor reason ∧
      upcastAll registry fuel events = some (.ok data) := by
  obtain ⟨data', hdata, hwith⟩ := upcastOutcome_eq_ok_iff.mp h
  cases outcome with
  | complete events => exact absurd hwith (by simp [ReadOutcome.withData])
  | truncated events cursor' reason' =>
    obtain ⟨rfl, rfl, rfl⟩ := ReadOutcome.truncated.inj hwith
    exact ⟨events, rfl, hdata⟩

end Fossic
