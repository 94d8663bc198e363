/-
The tables of a store file, and the SQL statements that the store runs on them.

A table is the list of its rows in insertion order.  `Db.maxVersion` is
`COALESCE(MAX(version), -1)` and `Db.nextVersion` adds one to it;
`Db.insertOrIgnore` skips a row whose primary key, or whose
`(stream_id, branch, version)`, is taken.  Two limits of SQLite are kept, since
they bound the versions: adding one to the largest `i64` gives a float, which is
then read as an `i64` and fails, and a table has at most `MAX_ROWS` rows.

Every writer of events assigns the next version and then inserts.
`Insertable` is what a row meets when that succeeds, and `Grows` is a list of such
insertions: it is the one fact about writers that the rest of the development
uses (`insertNext_spec`).
-/
import Fossic.Cce
import Fossic.Glob

namespace Fossic

open KeySort

/-! ### Rows -/

structure EventRow where
  id : EventId
  streamId : String
  branch : String
  version : ℤ
  timestampUs : Int64
  causationId : Option EventId
  correlationId : Option EventId
  eventType : String
  typeVersion : UInt32
  payload : Bytes
  externalId : Option String
  indexedTags : Option Json

structure StreamRow where
  id : String
  declaredBy : String
  declaredAt : Int64
  description : Option String

structure SnapshotRow where
  streamId : String
  branch : String
  version : ℤ
  reducerName : String
  reducerVersion : UInt32
  stateSchemaVersion : UInt32
  stateBlob : Bytes
  createdAt : Int64

structure Db where
  events : List EventRow
  streams : List StreamRow
  snapshots : List SnapshotRow

/-- The row belongs to the stream and the branch. -/
def EventRow.On (r : EventRow) (streamId branch : String) : Prop :=
  r.streamId = streamId ∧ r.branch = branch

instance (r : EventRow) (streamId branch : String) : Decidable (r.On streamId branch) :=
  inferInstanceAs (Decidable (_ ∧ _))

/-- The event of a row whose tags can be parsed; `decodeRow` is `row_to_event`. -/
def rowToEvent (r : EventRow) : StoredEvent where
  id := r.id
  streamId := r.streamId
  branch := r.branch
  version := i64AsU64 r.version
  timestampUs := r.timestampUs
  causationId := r.causationId
  correlationId := r.correlationId
  eventType := r.eventType
  typeVersion := r.typeVersion
  payload := r.payload
  externalId := r.externalId
  indexedTags := r.indexedTags

/-- The text in the `indexed_tags` column can be parsed. -/
def EventRow.tagsParse (r : EventRow) : Bool := r.indexedTags.all Json.parsesBack

/-- The error of a row that cannot be decoded, without the place in the text. -/
def tagsError : Error :=
  .sqlite "Conversion error from type Text at index: 11, recursion limit exceeded"

/-- `row_to_event`. -/
def decodeRow (r : EventRow) : Except Error StoredEvent :=
  if r.tagsParse then .ok (rowToEvent r) else .error tagsError

/-- The rows of a statement, decoded one after another. -/
def decodeRows : List EventRow → Except Error (List StoredEvent)
  | [] => .ok []
  | r :: rows => do
    let event ← decodeRow r
    let events ← decodeRows rows
    .ok (event :: events)

theorem decodeRow_of_parses {r : EventRow} (h : r.tagsParse = true) :
    decodeRow r = .ok (rowToEvent r) := if_pos h

theorem decodeRow_of_not {r : EventRow} (h : r.tagsParse = false) :
    decodeRow r = .error tagsError := if_neg (by simp [h])

/-- One row that cannot be decoded fails the statement. -/
theorem decodeRows_eq (rows : List EventRow) : decodeRows rows =
    if rows.all EventRow.tagsParse then .ok (rows.map rowToEvent) else .error tagsError := by
  induction rows with
  | nil => rfl
  | cons r rows ih =>
    rw [decodeRows, ih, List.all_cons]
    rcases hr : r.tagsParse with _ | _
    · rw [decodeRow_of_not hr]
      rfl
    · rw [decodeRow_of_parses hr, Bool.true_and]
      split <;> rfl

theorem decodeRows_eq_ok_iff {rows : List EventRow} {events : List StoredEvent} :
    decodeRows rows = .ok events ↔
      (∀ r ∈ rows, r.tagsParse = true) ∧ rows.map rowToEvent = events := by
  rw [decodeRows_eq, ← List.all_eq_true]
  split
  · rename_i h
    rw [Except.ok.injEq, and_iff_right h]
  · rename_i h
    exact ⟨fun herror => absurd herror (by simp), fun hall => absurd hall.1 h⟩

theorem decodeRows_error {rows : List EventRow} {e : Error} (h : decodeRows rows = .error e) :
    ∃ r ∈ rows, r.tagsParse = false := by
  by_contra hall
  have hparse : ∀ r ∈ rows, r.tagsParse = true :=
    fun r hr => by simpa using fun hr' => hall ⟨r, hr, hr'⟩
  exact absurd (h.symm.trans (decodeRows_eq_ok_iff.mpr ⟨hparse, rfl⟩)) (by simp)

/-! ### Streams -/

def SYSTEM_STREAM : String := "_fossic/system"
def SYSTEM_BRANCH : String := "main"

def MAX_STREAM_ID_LEN : ℕ := 256
def MAX_STREAM_SEGMENTS : ℕ := 4

def validateStreamId (isAlphanumeric : Char → Bool) (id : String) : Except Error Unit :=
  if id = "" then .error (.invalidStreamId id "must not be empty")
  else if MAX_STREAM_ID_LEN < (utf8 id).length then
    .error (.invalidStreamId id ("exceeds " ++ toString MAX_STREAM_ID_LEN ++ " character limit"))
  else
    match id.toList.find? fun c => !isAlphanumeric c && !(['-', '_', '/'].contains c) with
    | some c =>
      .error (.invalidStreamId id ("contains disallowed character '" ++ String.singleton c ++ "'"))
    | none =>
      if MAX_STREAM_SEGMENTS < (segments id).length then
        .error (.invalidStreamId id ("too many path segments (" ++ toString (segments id).length
          ++ ", max " ++ toString MAX_STREAM_SEGMENTS ++ ")"))
      else if (segments id).any List.isEmpty then
        .error (.invalidStreamId id
          "contains empty path segment (leading/trailing slash or double slash)")
      else .ok ()

/-- The ids that `validate_stream_id` accepts. -/
structure ValidStreamId (isAlphanumeric : Char → Bool) (id : String) : Prop where
  nonempty : id ≠ ""
  short : (utf8 id).length ≤ MAX_STREAM_ID_LEN
  chars : ∀ c ∈ id.toList, isAlphanumeric c = true ∨ c ∈ ['-', '_', '/']
  few : (segments id).length ≤ MAX_STREAM_SEGMENTS
  filled : [] ∉ segments id

theorem validateStreamId_eq_ok {isAlphanumeric : Char → Bool} {id : String} :
    validateStreamId isAlphanumeric id = .ok () ↔ ValidStreamId isAlphanumeric id := by
  have hallowed : ∀ c, (!(!isAlphanumeric c && !(['-', '_', '/'].contains c))) = true ↔
      isAlphanumeric c = true ∨ c ∈ ['-', '_', '/'] := by
    intro c
    rw [Bool.not_and, Bool.not_not, Bool.not_not, Bool.or_eq_true, List.contains_iff_mem]
  constructor
  · intro h
    rw [validateStreamId] at h
    split at h
    · exact absurd h (by simp)
    · rename_i hne
      split at h
      · exact absurd h (by simp)
      · rename_i hshort
        split at h
        · exact absurd h (by simp)
        · rename_i hchars
          split at h
          · exact absurd h (by simp)
          · rename_i hfew
            split at h
            · exact absurd h (by simp)
            · rename_i hfilled
              refine ⟨hne, not_lt.mp hshort, fun c hc => ?_, not_lt.mp hfew, fun hnil => ?_⟩
              · have hnot := List.find?_eq_none.mp hchars c hc
                rw [Bool.not_eq_true] at hnot
                rw [← hallowed, hnot, Bool.not_false]
              · exact hfilled (List.any_eq_true.mpr ⟨[], hnil, rfl⟩)
  · intro h
    have hchars : (id.toList.find? fun c => !isAlphanumeric c && !(['-', '_', '/'].contains c))
        = none := by
      rw [List.find?_eq_none]
      intro c hc
      rw [Bool.not_eq_true, ← Bool.not_eq_true']
      exact (hallowed c).mpr (h.chars c hc)
    have hfilled : (segments id).any List.isEmpty = false := by
      rw [List.any_eq_false]
      intro p hp hempty
      exact h.filled (List.isEmpty_iff.mp hempty ▸ hp)
    rw [validateStreamId, if_neg h.nonempty, if_neg (not_lt.mpr h.short)]
    simp only [hchars, if_neg (not_lt.mpr h.few), hfilled]
    rfl

/-- `SELECT COUNT(*) FROM streams WHERE id = ?1` is positive. -/
def Db.streamExists (db : Db) (streamId : String) : Bool :=
  db.streams.any fun s => s.id == streamId

/-- `INSERT OR IGNORE INTO streams`. -/
def Db.insertStream (db : Db) (row : StreamRow) : Db :=
  if db.streamExists row.id then db else { db with streams := db.streams ++ [row] }

def declareStreamImpl (isAlphanumeric : Char → Bool) (db : Db) (streamId declaredBy : String)
    (description : Option String) (now : Int64) : Except Error Db := do
  validateStreamId isAlphanumeric streamId
  .ok (db.insertStream ⟨streamId, declaredBy, now, description⟩)

/-- A fresh file once `Store::open` has run: `_fossic/system` is declared and
there are no events. -/
def Db.bootstrap (now : Int64) : Db where
  events := []
  streams := [⟨SYSTEM_STREAM, "fossic", now, some "Internal fossic system events"⟩]
  snapshots := []

/-! ### Events -/

/-- `SELECT version FROM events WHERE stream_id = ? AND branch = ?`. -/
def Db.versions (db : Db) (streamId branch : String) : List ℤ :=
  (db.events.filter fun r => r.On streamId branch).map (·.version)

/-- `SELECT COALESCE(MAX(version), -1) FROM events WHERE stream_id = ? AND branch = ?`. -/
def Db.maxVersion (db : Db) (streamId branch : String) : ℤ :=
  (db.versions streamId branch).max?.getD (-1)

/-- `SELECT COALESCE(MAX(version), -1) + 1`, read as an `i64`. -/
def Db.nextVersion (db : Db) (streamId branch : String) : Except Error ℤ :=
  let next := db.maxVersion streamId branch + 1
  if next < 2 ^ 63 then .ok next
  else .error (.sqlite
    "Invalid column type Real at index: 0, name: COALESCE(MAX(version), -1) + 1")

/-- No table outgrows the largest database file that SQLite supports. -/
def MAX_ROWS : ℕ := 20000000000000

/-- The row collides with a primary key or with `UNIQUE (stream_id, branch, version)`. -/
def Db.conflicts (db : Db) (row : EventRow) : Bool :=
  db.events.any fun r =>
    r.id = row.id || (r.On row.streamId row.branch && r.version = row.version)

def Db.insert (db : Db) (row : EventRow) : Db := { db with events := db.events ++ [row] }

/-- `INSERT OR IGNORE INTO events`; returns the number of changed rows. -/
def Db.insertOrIgnore (db : Db) (row : EventRow) : Except Error (ℕ × Db) :=
  if db.conflicts row then .ok (0, db)
  else if MAX_ROWS ≤ db.events.length then .error (.sqlite "database or disk is full")
  else .ok (1, db.insert row)

/-- Assign the next version of `(stream_id, branch)` and insert the row with it. -/
def Db.insertNext (db : Db) (row : EventRow) : Except Error (ℤ × ℕ × Db) := do
  let nextVersion ← db.nextVersion row.streamId row.branch
  let (rowsChanged, db') ← db.insertOrIgnore { row with version := nextVersion }
  .ok (nextVersion, rowsChanged, db')

/-- `DELETE FROM events WHERE id = ?1`. -/
def Db.delete (db : Db) (id : EventId) : Db :=
  { db with events := db.events.filter fun r => r.id ≠ id }

/-! ### Range reads -/

structure ReadQuery where
  streamId : String
  branch : String
  fromVersion : Option UInt64 := none
  toVersion : Option UInt64 := none
  limit : Option UInt64 := none
  eventTypeFilter : Option String := none

/-- `ORDER BY version ASC LIMIT ?`; a negative limit is no limit. -/
def orderAndLimit (limit : ℤ) (rows : List EventRow) : List EventRow :=
  let sorted := sortBy EventRow.version rows
  if limit < 0 then sorted else sorted.take limit.toNat

def i64Max : ℤ := 2 ^ 63 - 1

def readRangeImpl (db : Db) (q : ReadQuery) : List StoredEvent :=
  let start := u64AsI64 (q.fromVersion.getD 0)
  let stop := (q.toVersion.map u64AsI64).getD i64Max
  let limit := (q.limit.map u64AsI64).getD i64Max
  (orderAndLimit limit (db.events.filter fun r =>
    r.On q.streamId q.branch && start ≤ r.version && r.version ≤ stop
      && (q.eventTypeFilter.all fun t => r.eventType = t))).map rowToEvent

/-! ### The largest version -/

theorem Db.mem_versions {db : Db} {streamId branch : String} {v : ℤ} :
    v ∈ db.versions streamId branch ↔ ∃ r ∈ db.events, r.On streamId branch ∧ r.version = v := by
  simp [Db.versions, and_assoc]

theorem Db.le_maxVersion {db : Db} {r : EventRow} {streamId branch : String} (hr : r ∈ db.events)
    (hon : r.On streamId branch) : r.version ≤ db.maxVersion streamId branch := by
  have hmem := db.mem_versions.mpr ⟨r, hr, hon, rfl⟩
  rcases hmax : (db.versions streamId branch).max? with _ | m
  · rw [List.max?_eq_none_iff.mp hmax] at hmem
    exact absurd hmem List.not_mem_nil
  · rw [Db.maxVersion, hmax]
    exact (List.max?_eq_some_iff.mp hmax).2 _ hmem

/-- The largest version is that of a row, or `-1` when there is none. -/
theorem Db.maxVersion_attained (db : Db) (streamId branch : String) :
    db.maxVersion streamId branch = -1 ∨
      ∃ r ∈ db.events, r.On streamId branch ∧ r.version = db.maxVersion streamId branch := by
  rcases hmax : (db.versions streamId branch).max? with _ | m
  · exact .inl (by rw [Db.maxVersion, hmax, Option.getD_none])
  · rw [Db.maxVersion, hmax, Option.getD_some]
    exact .inr (db.mem_versions.mp (List.max?_eq_some_iff.mp hmax).1)

/-- Above all rows and at least `-1` means above the largest version. -/
theorem Db.maxVersion_le {db : Db} {streamId branch : String} {b : ℤ} (hb : -1 ≤ b)
    (h : ∀ r ∈ db.events, r.On streamId branch → r.version ≤ b) :
    db.maxVersion streamId branch ≤ b := by
  rcases db.maxVersion_attained streamId branch with hm | ⟨r, hr, hon, hv⟩
  · rw [hm]; exact hb
  · rw [← hv]; exact h r hr hon

/-! ### Inserting at the next version -/

/-- The row can be added to the events: its id is new, its version is the next
one, and there is room for it. -/
structure Insertable (db : Db) (row : EventRow) : Prop where
  fresh : ∀ r ∈ db.events, r.id ≠ row.id
  next : row.version = db.maxVersion row.streamId row.branch + 1
  bounded : row.version < 2 ^ 63
  room : db.events.length < MAX_ROWS

/-- A list of insertions, one after another, of rows that meet `P`. -/
inductive Grows (P : EventRow → Prop) : Db → List EventRow → Db → Prop
  | refl (db : Db) : Grows P db [] db
  | insert {db db' : Db} {row : EventRow} {rows : List EventRow} (hins : Insertable db row)
      (hrow : P row) (rest : Grows P (db.insert row) rows db') : Grows P db (row :: rows) db'

theorem Insertable.above {db : Db} {row r : EventRow} (h : Insertable db row) (hr : r ∈ db.events)
    (hon : r.On row.streamId row.branch) : r.version < row.version := by
  have := db.le_maxVersion hr hon
  rw [h.next]
  omega

/-- **The one way events are written**: assigning the next version and inserting
either adds an insertable row or, when the id is taken, changes nothing. -/
theorem insertNext_spec {db db' : Db} {row : EventRow} {v : ℤ} {n : ℕ}
    (h : db.insertNext row = .ok (v, n, db')) :
    v = db.maxVersion row.streamId row.branch + 1 ∧
      ((n = 1 ∧ Insertable db { row with version := v } ∧
          db' = db.insert { row with version := v }) ∨
        (n = 0 ∧ (∃ r ∈ db.events, r.id = row.id) ∧ db' = db)) := by
  rw [Db.insertNext, bind_eq_ok] at h
  obtain ⟨next, hnext, h⟩ := h
  rw [bind_eq_ok] at h
  obtain ⟨⟨m, db''⟩, hins, h⟩ := h
  obtain ⟨rfl, rfl, rfl⟩ : next = v ∧ m = n ∧ db'' = db' := by simpa using h
  rw [Db.nextVersion] at hnext
  split at hnext <;> rename_i hlt
  · obtain rfl : db.maxVersion row.streamId row.branch + 1 = next := by simpa using hnext
    refine ⟨rfl, ?_⟩
    rw [Db.insertOrIgnore] at hins
    split at hins <;> rename_i hc
    · -- the next version is free, so what is taken is the id
      obtain ⟨rfl, rfl⟩ : 0 = m ∧ db = db'' := by simpa using hins
      obtain ⟨r, hr, hid | ⟨hon, hv⟩⟩ : ∃ r ∈ db.events, r.id = row.id ∨
          (r.On row.streamId row.branch ∧
            r.version = db.maxVersion row.streamId row.branch + 1) := by
        simpa [Db.conflicts] using hc
      · exact .inr ⟨rfl, ⟨r, hr, hid⟩, rfl⟩
      · have := db.le_maxVersion hr hon
        omega
    · -- nothing conflicts, and the table has room
      split at hins <;> rename_i hroom
      · exact absurd hins (by simp)
      · obtain ⟨rfl, rfl⟩ : 1 = m ∧ db.insert _ = db'' := by simpa using hins
        refine .inl ⟨rfl, ⟨fun r hr hid => hc ?_, rfl, hlt, not_le.mp hroom⟩, rfl⟩
        simp only [Db.conflicts, List.any_eq_true]
        exact ⟨r, hr, by simp [hid]⟩
  · exact absurd hnext (by simp)

/-- The assigned version is an `i64`. -/
theorem insertNext_lt {db db' : Db} {row : EventRow} {v : ℤ} {n : ℕ}
    (h : db.insertNext row = .ok (v, n, db')) : v < 2 ^ 63 := by
  rw [Db.insertNext, bind_eq_ok] at h
  obtain ⟨next, hnext, h⟩ := h
  obtain ⟨⟨m, db''⟩, -, h⟩ := bind_eq_ok.mp h
  obtain ⟨rfl, -⟩ := Prod.mk.inj (Except.ok.inj h)
  rw [Db.nextVersion] at hnext
  split at hnext <;> rename_i hlt
  · obtain rfl := Except.ok.inj hnext
    exact hlt
  · exact absurd hnext (by simp)

/-- The insertion of a row whose id is taken is ignored. -/
theorem insertNext_taken {db : Db} {row : EventRow} {v : ℤ}
    (hnext : db.maxVersion row.streamId row.branch = v) (hbounded : v + 1 < 2 ^ 63)
    (htaken : ∃ r ∈ db.events, r.id = row.id) : db.insertNext row = .ok (v + 1, 0, db) := by
  obtain ⟨r, hr, hid⟩ := htaken
  have hconflict : db.conflicts { row with version := v + 1 } = true :=
    List.any_eq_true.mpr ⟨r, hr, by simp [hid]⟩
  rw [Db.insertNext, Db.nextVersion, hnext, if_pos hbounded]
  show (db.insertOrIgnore _ >>= _) = _
  rw [Db.insertOrIgnore, if_pos hconflict]
  rfl

end Fossic
