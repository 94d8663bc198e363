/-
The record that a purge leaves.

`Store::purge_event` appends a `Purged` event to `_fossic/system` and deletes the
event that it names, in one transaction.  The record is content-addressed like any
event and is written with `INSERT OR IGNORE`.

* `purgeEventImpl_recorded` — where no stored event has the id of the record, the
  purge replaces the event by its record and touches nothing else;
* `purgeEventImpl_ignored` — where one has, the event goes and no record is added;
* `purge_recorded_iff` — so the purge is recorded in exactly the first case;
* `purged_twice_unrecorded` — an event that is purged, appended again and purged
  again within one tick of the clock leaves one record.
-/
import Fossic.History
import Mathlib.Data.List.Nodup

namespace Fossic

open Transition

variable {d : Deps} {db db' : Db} {id : EventId} {confirm reason purgedBy : String}
  {purgedAtUs : Int64}

/-! ### Ids are primary keys -/

theorem distinct_delete (h : (db.events.map (·.id)).Nodup) :
    ((db.delete id).events.map (·.id)).Nodup :=
  h.sublist (List.filter_sublist.map _)

theorem exec_distinct {op : StoreOp} (h : (db.events.map (·.id)).Nodup) :
    ((exec d db op).events.map (·.id)).Nodup :=
  @exec_keeps db d op (fun db => (db.events.map (·.id)).Nodup) (fun hevents h => hevents ▸ h)
    (fun hins h => distinct_insert h hins) distinct_delete h

theorem run_distinct_from {ops : List StoreOp} (h : run (storeStep d) db ops = some db')
    (hdistinct : (db.events.map (·.id)).Nodup) : (db'.events.map (·.id)).Nodup := by
  refine run_invariant_all (I := fun s : Db => (s.events.map (·.id)).Nodup)
    (fun db op db' hdb hstep => ?_) hdistinct h
  obtain rfl := Option.some_inj.mp hstep
  exact exec_distinct hdb

theorem run_distinct {now : Int64} {ops : List StoreOp}
    (h : run (storeStep d) (Db.bootstrap now) ops = some db) : (db.events.map (·.id)).Nodup := by
  have hbootstrap : ((Db.bootstrap now).events.map (·.id)).Nodup := List.nodup_nil
  exact run_distinct_from h hbootstrap

/-- An id finds its row. -/
theorem find_of_mem_events (hdistinct : (db.events.map (·.id)).Nodup) {r : EventRow}
    (hr : r ∈ db.events) : db.events.find? (fun e => e.id = r.id) = some r := by
  have hsome : (db.events.find? fun e => e.id = r.id).isSome :=
    List.find?_isSome.mpr ⟨r, hr, decide_eq_true rfl⟩
  obtain ⟨e, he⟩ := Option.isSome_iff_exists.mp hsome
  have hid : e.id = r.id := by simpa using List.find?_some he
  rw [he, List.inj_on_of_nodup_map hdistinct (List.mem_of_find?_eq_some he) hr hid]

/-- The deletion takes out one row. -/
theorem delete_split {original : EventRow} (h : (db.events.map (·.id)).Nodup)
    (hmem : original ∈ db.events) : ∃ before after, db.events = before ++ original :: after ∧
      (db.delete original.id).events = before ++ after := by
  obtain ⟨before, after, hsplit⟩ := List.append_of_mem hmem
  refine ⟨before, after, hsplit, ?_⟩
  rw [hsplit, List.map_append, List.map_cons, List.nodup_append] at h
  obtain ⟨-, hafter, hcross⟩ := h
  have hother : ∀ r, r ∈ before ∨ r ∈ after → decide (r.id ≠ original.id) = true := by
    intro r hr
    refine decide_eq_true fun hid => ?_
    rcases hr with hr | hr
    · exact hcross r.id (List.mem_map_of_mem hr) original.id List.mem_cons_self hid
    · exact (List.nodup_cons.mp hafter).1 (hid ▸ List.mem_map_of_mem hr)
  show db.events.filter (fun r => r.id ≠ original.id) = _
  rw [hsplit, List.filter_append, List.filter_cons_of_neg (by simp),
    List.filter_eq_self.mpr fun r hr => hother r (.inl hr),
    List.filter_eq_self.mpr fun r hr => hother r (.inr hr)]

/-! ### What a purge is to do -/

/-- `db'` is `db` with the event `original` replaced by its record. -/
structure Replaced (d : Deps) (id : EventId) (reason purgedBy : String) (purgedAtUs : Int64)
    (original record : EventRow) (db db' : Db) : Prop where
  purged : original.id = id
  events : ∃ before after, db.events = before ++ original :: after ∧
    db'.events = before ++ after ++ [record]
  gone : ∀ r ∈ db'.events, r.id ≠ id
  on : record.On SYSTEM_STREAM SYSTEM_BRANCH
  eventType : record.eventType = PURGED_EVENT_TYPE
  above : ∀ r ∈ db.events, r.On SYSTEM_STREAM SYSTEM_BRANCH → r.version < record.version
  timestamp : record.timestampUs = purgedAtUs
  /-- The record is about the original's type, stream and timestamp, whatever its
  payload. -/
  payload : ∀ bytes, d.toVec (purgedPayload id { original with payload := bytes } reason purgedBy
    purgedAtUs) = .ok record.payload
  streams : db'.streams = (db.insertStream internalStream).streams
  snapshots : db'.snapshots = db.snapshots

/-- The call is atomic and leaves its record. -/
def PurgeRecorded (d : Deps) (db : Db) (id : EventId) (confirm reason purgedBy : String)
    (purgedAtUs : Int64) : Prop :=
  (∀ db', purgeEventImpl d id confirm reason purgedBy purgedAtUs db = .ok db' →
    exec d db (.purge id confirm reason purgedBy purgedAtUs) = db' ∧
    ∃ original record, Replaced d id reason purgedBy purgedAtUs original record db db') ∧
  ∀ e, purgeEventImpl d id confirm reason purgedBy purgedAtUs db = .error e →
    exec d db (.purge id confirm reason purgedBy purgedAtUs) = db

/-- A confirmed purge of a stored event, with a version left for its record, finds an
event stored under the record's id. -/
def RecordTaken (d : Deps) (db : Db) (id : EventId) (confirm reason purgedBy : String)
    (purgedAtUs : Int64) : Prop :=
  confirm = PURGE_CONFIRM ∧ db.maxVersion SYSTEM_STREAM SYSTEM_BRANCH + 1 < 2 ^ 63 ∧
    ∃ original ∈ db.events, original.id = id ∧
      (d.toVec (purgedPayload id original reason purgedBy purgedAtUs)).isOk ∧
      ∃ r ∈ db.events, deriveEventId d PURGED_EVENT_TYPE 1 none
        (purgedPayload id original reason purgedBy purgedAtUs) = .ok r.id

/-! ### What it does -/

theorem maxVersion_insertStream {row : StreamRow} {streamId branch : String} :
    (db.insertStream row).maxVersion streamId branch = db.maxVersion streamId branch := by
  rw [Db.maxVersion, Db.versions, events_insertStream]
  rfl

/-- The record is a new row, and the event's row is gone. -/
theorem replaced_of_insertable {original record : EventRow} (hdistinct : (db.events.map (·.id)).Nodup)
    (hmem : original ∈ db.events) (hins : Insertable (db.insertStream internalStream) record)
    (hon : record.On SYSTEM_STREAM SYSTEM_BRANCH) (htype : record.eventType = PURGED_EVENT_TYPE)
    (htime : record.timestampUs = purgedAtUs)
    (hbytes : d.toVec (purgedPayload original.id original reason purgedBy purgedAtUs)
      = .ok record.payload) :
    Replaced d original.id reason purgedBy purgedAtUs original record db
      (((db.insertStream internalStream).insert record).delete original.id) := by
  obtain ⟨before, after, hsplit, hdelete⟩ := delete_split hdistinct hmem
  have hother : record.id ≠ original.id := fun hsame =>
    hins.fresh original (by rwa [events_insertStream]) hsame.symm
  have hevents : (((db.insertStream internalStream).insert record).delete original.id).events
      = before ++ after ++ [record] := by
    rw [← hdelete]
    show ((db.insertStream internalStream).events ++ [record]).filter _ = db.events.filter _ ++ _
    rw [events_insertStream, List.filter_append, List.filter_cons_of_pos (by simpa using hother)]
    rfl
  refine ⟨rfl, ⟨before, after, hsplit, hevents⟩, ?_, hon, htype, ?_, htime, fun _ => hbytes, rfl,
    snapshots_insertStream⟩
  · intro r hr
    exact of_decide_eq_true (List.mem_filter.mp hr).2
  · intro r hr hr_on
    refine hins.above (by rwa [events_insertStream]) ?_
    rwa [hon.1, hon.2]

/-- Where the id of the record is free, a purge that succeeds replaces the event. -/
theorem purgeEventImpl_recorded (hdistinct : (db.events.map (·.id)).Nodup)
    (hfree : ¬RecordTaken d db id confirm reason purgedBy purgedAtUs)
    (h : purgeEventImpl d id confirm reason purgedBy purgedAtUs db = .ok db') :
    ∃ original record, Replaced d id reason purgedBy purgedAtUs original record db db' := by
  obtain ⟨hconfirm, original, hmem, rfl, purgedId, payloadBytes, v, n, db₂, hid, hbytes, hins,
    rfl⟩ := purgeEventImpl_eq_ok h
  have hlt := insertNext_lt hins
  obtain ⟨hv, ⟨-, hrow, rfl⟩ | ⟨-, ⟨r, hr, hrid⟩, -⟩⟩ := insertNext_spec hins
  · exact ⟨original, _, replaced_of_insertable hdistinct hmem hrow ⟨rfl, rfl⟩ rfl rfl hbytes⟩
  · refine absurd ⟨hconfirm, ?_, original, hmem, rfl, by rw [hbytes]; rfl, r, ?_, ?_⟩ hfree
    · rw [maxVersion_insertStream] at hv
      exact hv ▸ hlt
    · rwa [events_insertStream] at hr
    · rw [hid, hrid]
      rfl

/-- Where it is taken, a purge only deletes. -/
theorem purgeEventImpl_ignored (hdistinct : (db.events.map (·.id)).Nodup)
    (htaken : RecordTaken d db id confirm reason purgedBy purgedAtUs) :
    purgeEventImpl d id confirm reason purgedBy purgedAtUs db
      = .ok ((db.insertStream internalStream).delete id) := by
  obtain ⟨rfl, hroom, original, hmem, rfl, hbytes, r, hr, hid⟩ := htaken
  have hfind := find_of_mem_events hdistinct hmem
  -- INSERT OR IGNORE finds the id taken and inserts nothing
  have hignored : ∀ payloadBytes, (db.insertStream internalStream).insertNext
      (systemRow r.id purgedAtUs PURGED_EVENT_TYPE payloadBytes none)
        = .ok (db.maxVersion SYSTEM_STREAM SYSTEM_BRANCH + 1, 0, db.insertStream internalStream) :=
    fun payloadBytes => insertNext_taken maxVersion_insertStream hroom
      ⟨r, by rwa [events_insertStream], rfl⟩
  obtain ⟨payloadBytes, hbytes⟩ : ∃ payloadBytes, d.toVec
      (purgedPayload original.id original reason purgedBy purgedAtUs) = .ok payloadBytes := by
    rcases hvec : d.toVec (purgedPayload original.id original reason purgedBy purgedAtUs)
      with e | payloadBytes
    · rw [hvec] at hbytes
      exact absurd hbytes Bool.false_ne_true
    · exact ⟨payloadBytes, rfl⟩
  rw [purgeEventImpl, if_neg (not_not.mpr rfl), hfind]
  dsimp only
  rw [deriveId, hid, hbytes]
  show ((db.insertStream internalStream).insertNext _ >>= _) = _
  rw [hignored]
  rfl

/-- **When a purge leaves its record**: in every reachable state, for all arguments
and every reading of the clock, the call is atomic and replaces the event by its
record if and only if it does not find the id of the record taken. -/
theorem purge_recorded_iff (d : Deps) (now : Int64) (ops : List StoreOp) (db : Db)
    (hrun : run (storeStep d) (Db.bootstrap now) ops = some db) (id : EventId)
    (confirm reason purgedBy : String) (purgedAtUs : Int64) :
    PurgeRecorded d db id confirm reason purgedBy purgedAtUs ↔
      ¬RecordTaken d db id confirm reason purgedBy purgedAtUs := by
  have hdistinct := run_distinct hrun
  constructor
  · intro hrecorded htaken
    have hok := purgeEventImpl_ignored hdistinct htaken
    obtain ⟨-, original, record, hreplaced⟩ := hrecorded.1 _ hok
    obtain ⟨before, after, hsplit, hevents⟩ := hreplaced.events
    -- a record would make up for the row that is deleted
    obtain ⟨before', after', hsplit', hdelete⟩ := delete_split hdistinct
      (hsplit ▸ List.mem_append_right _ List.mem_cons_self : original ∈ db.events)
    have hlen := congrArg List.length hevents
    have hdeleted : ((db.insertStream internalStream).delete id).events
        = (db.delete original.id).events := by
      rw [hreplaced.purged]
      show (db.insertStream internalStream).events.filter _ = _
      rw [events_insertStream]
      rfl
    have hbefore := congrArg List.length hsplit
    have hbefore' := congrArg List.length hsplit'
    rw [hdeleted, hdelete] at hlen
    simp only [List.length_append, List.length_cons, List.length_nil] at hlen hbefore hbefore'
    omega
  · intro hfree
    refine ⟨fun db' hok => ⟨?_, purgeEventImpl_recorded hdistinct hfree hok⟩, fun e herror => ?_⟩
    · rw [exec, hok]
      rfl
    · rw [exec, herror]
      rfl

/-- The first purge of an event leaves its record. -/
theorem purge_recorded_once : ∃ db : Db, db.events.length = 1 ∧
    PurgeRecorded flatDeps db (nullId "a") PURGE_CONFIRM "r" "p" 0 := by
  refine ⟨_, ?_, (purge_recorded_iff flatDeps 0
    [.declareStream "s" "t" none 0, appendNull "a"] _ rfl (nullId "a") PURGE_CONFIRM "r" "p"
      0).mpr ?_⟩
  · decide
  · rintro ⟨-, -, original, hmem, -, -, r, hr, hid⟩
    obtain rfl := List.mem_singleton.mp hmem
    obtain rfl := List.mem_singleton.mp hr
    exact absurd (Except.ok.inj hid) (by decide)

/-- The event comes back, and the second purge finds the record of the first. -/
theorem purged_twice_unrecorded : ¬∀ (d : Deps) (now : Int64) (ops : List StoreOp) (db : Db),
    run (storeStep d) (Db.bootstrap now) ops = some db →
    ∀ (id : EventId) (confirm reason purgedBy : String) (purgedAtUs : Int64),
      PurgeRecorded d db id confirm reason purgedBy purgedAtUs := by
  intro h
  have hrecorded := h flatDeps 0 [.declareStream "s" "t" none 0, appendNull "a",
    .purge (nullId "a") PURGE_CONFIRM "r" "p" 0, appendNull "a"] _ rfl (nullId "a") PURGE_CONFIRM
    "r" "p" 0
  obtain ⟨-, original, record, hreplaced⟩ := hrecorded.1 _ rfl
  obtain ⟨before, after, hsplit, hevents⟩ := hreplaced.events
  have hbefore : 2 = (before ++ original :: after).length := congrArg List.length hsplit
  have hafter : 1 = (before ++ after ++ [record]).length := congrArg List.length hevents
  simp only [List.length_append, List.length_cons, List.length_nil] at hbefore hafter
  omega

end Fossic
