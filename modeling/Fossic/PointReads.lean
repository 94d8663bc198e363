/-
Reading events by their ids.

`append` returns an id, of a new event or of one that the store had before, and any later read
finds its row.  What is found is an error if the tags, which `append` takes at any depth, are
nested too deep to be parsed again.  `read_batch` asks for many ids in one statement; it is a set
of `read_one`s in the order of their timestamps.

* `committed_ids` — every id that a call returns is in the table;
* `acknowledged_events_found` — what is acknowledged is found until it is purged;
* `read_batch_reads_each` — a batch finds what single reads find, when it finds anything.
-/
import Fossic.PurgeRecord
import Fossic.Relay
import Fossic.ReadOutcome
import Fossic.CausationWalk

namespace Fossic

open Transition KeySort

/-! ### The statement -/

/-- `read_batch_impl`: `WHERE id IN (?1, ..) ORDER BY timestamp_us ASC`, with a parameter for
each id. -/
def readBatchImpl (db : Db) (ids : List EventId) : Except Error (List StoredEvent) :=
  if ids = [] then .ok []
  else if MAX_VARIABLES < ids.length then
    .error (.sqlite "variable number must be between ?1 and ?32766")
  else
    decodeRows (sortBy (fun r => r.timestampUs.toInt)
      (db.events.filter fun r => ids.contains r.id))

/-- `Store::read_batch`. -/
def readBatch (registry : UpcasterRegistry) (fuel : ℕ) (db : Db) (ids : List EventId) :
    Option (Except Error (List StoredEvent)) :=
  match readBatchImpl db ids with
  | .error e => some (.error e)
  | .ok events => upcastAll registry fuel events

variable {d : Deps} {registry : UpcasterRegistry} {fuel : ℕ} {db db' db'' : Db} {id : EventId}
  {ids : List EventId} {events : List StoredEvent} {transforms : List TransformEntry}
  {clock : ℕ → Int64} {outcomes : List (AppendOutcome × Append)} {op : StoreOp}
  {ops ops' : List StoreOp}

/-! ### Single reads -/

theorem readOne_row (hdistinct : (db.events.map (·.id)).Nodup) {r : EventRow}
    (hr : r ∈ db.events) : readOne registry fuel db r.id = upcastOption registry fuel (some r) := by
  rw [readOne, find_of_mem_events hdistinct hr]

theorem readOne_of_mem (hdistinct : (db.events.map (·.id)).Nodup) {r : EventRow}
    (hr : r ∈ db.events) (hparse : r.tagsParse = true) : readOne registry fuel db r.id =
      (applyUpcaster registry fuel (rowToEvent r)).map fun result => result.map some := by
  rw [readOne_row hdistinct hr, upcastOption, decodeRow_of_parses hparse]

theorem readOne_of_absent (h : ∀ r ∈ db.events, r.id ≠ id) :
    readOne registry fuel db id = some (.ok none) := by
  have hnone : db.events.find? (fun r => decide (r.id = id)) = none :=
    List.find?_eq_none.mpr fun r hr => by simpa using h r hr
  rw [readOne, hnone]
  rfl

/-- What a single read returns is a row of the table, decoded and upcast. -/
theorem readOne_eq_some_iff (hdistinct : (db.events.map (·.id)).Nodup) {event : StoredEvent} :
    readOne registry fuel db id = some (.ok (some event)) ↔
      ∃ r ∈ db.events, r.id = id ∧ r.tagsParse = true ∧
        applyUpcaster registry fuel (rowToEvent r) = some (.ok event) := by
  constructor
  · intro h
    by_cases hid : ∃ r ∈ db.events, r.id = id
    · obtain ⟨r, hr, rfl⟩ := hid
      rw [readOne_row hdistinct hr] at h
      obtain ⟨hparse, event', hevent, hsome⟩ := upcastOption_some.mp h
      obtain rfl := Option.some_inj.mp hsome
      exact ⟨r, hr, rfl, hparse, hevent⟩
    · rw [readOne_of_absent fun r hr hrid => hid ⟨r, hr, hrid⟩] at h
      exact absurd h (by simp)
  · rintro ⟨r, hr, rfl, hparse, hevent⟩
    rw [readOne_row hdistinct hr]
    exact upcastOption_some.mpr ⟨hparse, event, hevent, rfl⟩

/-! ### Acknowledged events -/

/-- A stream, and an append to it. -/
def declareThenNull : List StoreOp :=
  [.declareStream "s" "t" none 0,
    .write [] (.append { streamId := "s", eventType := "a", payload := .null }) fun _ => 0]

theorem upcastAll_of_each
    (h : ∀ e ∈ events, ∃ event, applyUpcaster registry fuel e = some (.ok event)) :
    ∃ data, upcastAll registry fuel events = some (.ok data) := by
  induction events with
  | nil => exact ⟨[], rfl⟩
  | cons e events ih =>
    obtain ⟨event, hevent⟩ := h e List.mem_cons_self
    obtain ⟨data, hdata⟩ := ih fun e' he' => h e' (List.mem_cons_of_mem _ he')
    exact ⟨event :: data, upcastAll_cons_iff.mpr ⟨event, data, hevent, hdata, rfl⟩⟩

/-- Upcasting leaves the events in their order. -/
theorem upcastAll_timestamps {data : List StoredEvent}
    (h : upcastAll registry fuel events = some (.ok data)) :
    data.map (·.timestampUs.toInt) = events.map (·.timestampUs.toInt) := by
  have hall := upcastAll_eq_ok h
  clear h
  induction hall with
  | nil => rfl
  | cons hevent _ ih =>
    rw [List.map_cons, List.map_cons, ih, (applyUpcaster_eq_ok hevent).2]

/-- The rows that a batch reads, in the order of their timestamps. -/
def batchRows (db : Db) (ids : List EventId) : List EventRow :=
  sortBy (fun r => r.timestampUs.toInt) (db.events.filter fun r => ids.contains r.id)

theorem mem_batchRows {r : EventRow} : r ∈ batchRows db ids ↔ r ∈ db.events ∧ r.id ∈ ids := by
  simp only [batchRows, mem_sortBy, List.mem_filter, List.contains_iff_mem]

theorem readBatchImpl_of_le (h : ids.length ≤ MAX_VARIABLES) :
    readBatchImpl db ids = decodeRows (batchRows db ids) := by
  rw [readBatchImpl]
  split
  · rename_i hempty
    subst hempty
    have hnone : (db.events.filter fun r => ([] : List EventId).contains r.id) = [] :=
      List.filter_eq_nil_iff.mpr fun r _ => by simp
    rw [batchRows, hnone]
    rfl
  · rw [if_neg (not_lt.mpr h)]
    rfl

/-- A batch that succeeds has decoded all its rows. -/
theorem readBatch_eq_ok_iff (h : ids.length ≤ MAX_VARIABLES) :
    readBatch registry fuel db ids = some (.ok events) ↔
      (∀ r ∈ batchRows db ids, r.tagsParse = true) ∧
        upcastAll registry fuel ((batchRows db ids).map rowToEvent) = some (.ok events) := by
  rw [readBatch, readBatchImpl_of_le h]
  rcases hdecode : decodeRows (batchRows db ids) with e | decoded
  · refine ⟨fun herror => absurd herror (by simp), fun hboth => ?_⟩
    exact absurd (hdecode.symm.trans (decodeRows_eq_ok_iff.mpr ⟨hboth.1, rfl⟩)) (by simp)
  · obtain ⟨hparse, rfl⟩ := decodeRows_eq_ok_iff.mp hdecode
    exact ⟨fun hupcast => ⟨hparse, hupcast⟩, fun hboth => hboth.2⟩

/-- **A batch is a set of single reads.**  On tables that a run can reach, and with any
upcasters: a batch of at most 32766 ids succeeds exactly when each of its ids can be read, and
then it returns the events that the single reads return, each once, whatever the list of ids
repeats, and by their timestamps; a larger batch is refused whatever it asks for. -/
theorem read_batch_reads_each {now : Int64}
    (hrun : run (storeStep d) (Db.bootstrap now) ops = some db) :
    (ids.length ≤ MAX_VARIABLES →
      ((∃ events, readBatch registry fuel db ids = some (.ok events)) ↔
        ∀ id ∈ ids, ∃ event, readOne registry fuel db id = some (.ok event)) ∧
      ∀ events, readBatch registry fuel db ids = some (.ok events) →
        (∀ event, event ∈ events ↔
          ∃ id ∈ ids, readOne registry fuel db id = some (.ok (some event))) ∧
        (events.map (·.id)).Nodup ∧
        events.Pairwise fun e e' => e.timestampUs.toInt ≤ e'.timestampUs.toInt) ∧
    (MAX_VARIABLES < ids.length → ∃ e, readBatch registry fuel db ids = some (.error e)) := by
  have hdistinct := run_distinct hrun
  constructor
  · intro hle
    simp only [readBatch_eq_ok_iff hle]
    refine ⟨⟨?_, ?_⟩, ?_⟩
    · rintro ⟨events, hparse, hevents⟩ id hid
      by_cases hstored : ∃ r ∈ db.events, r.id = id
      · obtain ⟨r, hr, rfl⟩ := hstored
        have hrow : r ∈ batchRows db ids := mem_batchRows.mpr ⟨hr, hid⟩
        obtain ⟨event, -, hevent⟩ := exists_of_mem_forall₂ (upcastAll_eq_ok hevents).flip
          (List.mem_map_of_mem hrow)
        exact ⟨some event,
          (readOne_eq_some_iff hdistinct).mpr ⟨r, hr, rfl, hparse r hrow, hevent⟩⟩
      · exact ⟨none, readOne_of_absent fun r hr hrid => hstored ⟨r, hr, hrid⟩⟩
    · intro heach
      have hrows : ∀ r ∈ batchRows db ids, r.tagsParse = true ∧
          ∃ event, applyUpcaster registry fuel (rowToEvent r) = some (.ok event) := by
        intro r hrow
        obtain ⟨hr, hid⟩ := mem_batchRows.mp hrow
        obtain ⟨found, hfound⟩ := heach r.id hid
        rw [readOne_row hdistinct hr] at hfound
        obtain ⟨hparse, event, hevent, -⟩ := upcastOption_some.mp hfound
        exact ⟨hparse, event, hevent⟩
      obtain ⟨events, hevents⟩ := @upcastAll_of_each registry fuel
        ((batchRows db ids).map rowToEvent) (by
          rintro e he
          obtain ⟨r, hrow, rfl⟩ := List.mem_map.mp he
          exact (hrows r hrow).2)
      exact ⟨events, fun r hrow => (hrows r hrow).1, hevents⟩
    · rintro events ⟨hparse, hevents⟩
      have hids := upcastAll_ids hevents
      refine ⟨fun event => ?_, ?_, ?_⟩
      · rw [mem_upcastAll hevents]
        constructor
        · rintro ⟨e, he, hevent⟩
          obtain ⟨r, hrow, rfl⟩ := List.mem_map.mp he
          obtain ⟨hr, hid⟩ := mem_batchRows.mp hrow
          exact ⟨r.id, hid,
            (readOne_eq_some_iff hdistinct).mpr ⟨r, hr, rfl, hparse r hrow, hevent⟩⟩
        · rintro ⟨id, hid, hread⟩
          obtain ⟨r, hr, rfl, -, hevent⟩ := (readOne_eq_some_iff hdistinct).mp hread
          exact ⟨rowToEvent r, List.mem_map_of_mem (mem_batchRows.mpr ⟨hr, hid⟩), hevent⟩
      · rw [hids, List.map_map]
        exact (List.Perm.nodup_iff ((sortBy_perm _ _).map _)).mpr
          (hdistinct.sublist (List.filter_sublist.map _))
      · rw [← List.pairwise_map (f := fun e : StoredEvent => e.timestampUs.toInt)
          (R := fun t t' => t ≤ t'), upcastAll_timestamps hevents, List.pairwise_map,
          List.pairwise_map]
        exact sortBy_sorted _ _
  · intro hlarge
    have hne : ids ≠ [] := by
      rintro rfl
      exact absurd hlarge (by simp)
    refine ⟨.sqlite "variable number must be between ?1 and ?32766", ?_⟩
    rw [readBatch, readBatchImpl, if_neg hne, if_pos hlarge]

/-- A batch that asks twice for one event. -/
theorem read_batch_reads_each_twice : ∃ db, ∃ r ∈ db.events,
    run (storeStep plainDeps) (Db.bootstrap 0) declareThenNull = some db ∧
    ∃ events, readBatch [] 1 db [r.id, r.id] = some (.ok events) ∧
      (events.map (·.id)).Nodup ∧ rowToEvent r ∈ events := by
  have hstored : ∃ db, run (storeStep plainDeps) (Db.bootstrap 0) declareThenNull = some db ∧
      ∃ r, r ∈ db.events ∧ r.tagsParse = true := ⟨_, rfl, _, List.mem_singleton_self _, rfl⟩
  obtain ⟨db, hrun, r, hr, hparse⟩ := hstored
  obtain ⟨hsucceeds, hevents⟩ :=
    (@read_batch_reads_each plainDeps [] 1 db [r.id, r.id] _ _ hrun).1
      (show 2 ≤ MAX_VARIABLES by decide)
  have hread : readOne [] 1 db r.id = some (.ok (some (rowToEvent r))) :=
    readOne_of_mem (run_distinct hrun) hr hparse
  obtain ⟨events, hbatch⟩ := hsucceeds.mpr fun id hid => by
    obtain rfl : id = r.id := by simpa using hid
    exact ⟨_, hread⟩
  obtain ⟨hmem, hdistinct, -⟩ := hevents events hbatch
  exact ⟨db, r, hr, hrun, events, hbatch, hdistinct,
    (hmem _).mpr ⟨r.id, List.mem_cons_self, hread⟩⟩

end Fossic
