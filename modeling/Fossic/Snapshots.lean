/-
The table of snapshots and the statements that the store runs on it.

The primary key of a snapshot is its stream, its branch, the name and the state
schema version of its reducer, and its version.

* `findLatestSnapshot` — the lookup, by stream, branch, name and schema version,
  below an optional bound;
* `writeSnapshot` — `INSERT OR REPLACE`;
* `gcOrphanedSnapshotsImpl` — deletes what no registered reducer would look up;
* the lemmas say which rows a lookup can return and which rows a statement
  leaves.
-/
import Fossic.Tables
import Mathlib.Data.List.Dedup

namespace Fossic

open KeySort

/-- The name and the schema version of the reducer of the snapshot. -/
def SnapshotRow.key (sn : SnapshotRow) : String × UInt32 := (sn.reducerName, sn.stateSchemaVersion)

structure SnapshotInfo where
  streamId : String
  branch : String
  version : UInt64
  reducerName : String
  reducerVersion : UInt32
  stateSchemaVersion : UInt32
  createdAt : Int64

/-- `ORDER BY version DESC LIMIT 1`. -/
def latestRow (rows : List SnapshotRow) : Option SnapshotRow :=
  (sortBy (fun sn => -sn.version) rows).head?

def findLatestSnapshot (db : Db) (streamId branch reducerName : String)
    (stateSchemaVersion : UInt32) (maxVersion : Option UInt64) : Option (UInt64 × Bytes) :=
  (latestRow (db.snapshots.filter fun sn =>
    sn.streamId = streamId && sn.branch = branch && sn.key = (reducerName, stateSchemaVersion) &&
      maxVersion.all fun mv => sn.version ≤ u64AsI64 mv)).map fun sn =>
        (i64AsU64 sn.version, sn.stateBlob)

def SnapshotRow.samePrimaryKey (sn sn' : SnapshotRow) : Bool :=
  sn.streamId = sn'.streamId && sn.branch = sn'.branch && sn.key = sn'.key &&
    sn.version = sn'.version

def SnapshotRow.info (sn : SnapshotRow) : SnapshotInfo where
  streamId := sn.streamId
  branch := sn.branch
  version := i64AsU64 sn.version
  reducerName := sn.reducerName
  reducerVersion := sn.reducerVersion
  stateSchemaVersion := sn.stateSchemaVersion
  createdAt := sn.createdAt

/-- `INSERT OR REPLACE INTO snapshots`. -/
def Db.replaceSnapshot (db : Db) (row : SnapshotRow) : Db :=
  { db with snapshots := (db.snapshots.filter fun sn => !sn.samePrimaryKey row) ++ [row] }

def writeSnapshot (db : Db) (streamId branch : String) (version : UInt64) (reducerName : String)
    (reducerVersion stateSchemaVersion : UInt32) (stateBlob : Bytes) (now : Int64) :
    SnapshotInfo × Db :=
  (⟨streamId, branch, version, reducerName, reducerVersion, stateSchemaVersion, now⟩,
    db.replaceSnapshot ⟨streamId, branch, u64AsI64 version, reducerName, reducerVersion,
      stateSchemaVersion, stateBlob, now⟩)

/-- The schema version is not part of this lookup. -/
def snapshotInfoImpl (db : Db) (streamId branch reducerName : String) : Option SnapshotInfo :=
  (latestRow (db.snapshots.filter fun sn =>
    sn.streamId = streamId && sn.branch = branch && sn.reducerName = reducerName)).map
      SnapshotRow.info

/-- `DELETE FROM snapshots WHERE reducer_name = ?1 AND state_schema_version = ?2`,
and the number of deleted rows. -/
def Db.deleteSnapshots (db : Db) (key : String × UInt32) : ℕ × Db :=
  ((db.snapshots.filter fun sn => sn.key = key).length,
    { db with snapshots := db.snapshots.filter fun sn => sn.key ≠ key })

/-- The loop over the distinct keys of the table. -/
def gcLoop (active : List (String × UInt32)) :
    List (String × UInt32) → ℕ × Db → ℕ × Db
  | [], acc => acc
  | key :: existing, (total, db) =>
    if active.contains key then gcLoop active existing (total, db)
    else
      let (count, db') := db.deleteSnapshots key
      gcLoop active existing (total + count, db')

def gcOrphanedSnapshotsImpl (db : Db) (active : List (String × UInt32)) : ℕ × Db :=
  if active.isEmpty then (db.snapshots.length, { db with snapshots := [] })
  else gcLoop active (db.snapshots.map SnapshotRow.key).dedup (0, db)

/-! ### What the statements do -/

variable {db : Db} {streamId branch reducerName : String} {stateSchemaVersion : UInt32}
  {active existing : List (String × UInt32)}

theorem latestRow_mem {rows : List SnapshotRow} {sn : SnapshotRow} (h : latestRow rows = some sn) :
    sn ∈ rows :=
  mem_sortBy.mp (List.mem_of_head? h)

/-- A lookup returns a row of the stream, the branch and the key, below the
bound. -/
theorem findLatestSnapshot_eq_some {maxVersion : Option UInt64} {v : UInt64} {blob : Bytes}
    (h : findLatestSnapshot db streamId branch reducerName stateSchemaVersion maxVersion =
      some (v, blob)) :
    ∃ sn ∈ db.snapshots, sn.streamId = streamId ∧ sn.branch = branch ∧
      sn.key = (reducerName, stateSchemaVersion) ∧ v = i64AsU64 sn.version ∧
      blob = sn.stateBlob ∧ ∀ mv, maxVersion = some mv → sn.version ≤ u64AsI64 mv := by
  obtain ⟨sn, hsn, hpair⟩ := Option.map_eq_some_iff.mp h
  obtain ⟨rfl, rfl⟩ := Prod.mk.inj hpair
  obtain ⟨hmem, hcond⟩ := List.mem_filter.mp (latestRow_mem hsn)
  simp only [Bool.and_eq_true, decide_eq_true_eq] at hcond
  obtain ⟨⟨⟨hstream, hbranch⟩, hkey⟩, hbound⟩ := hcond
  refine ⟨sn, hmem, hstream, hbranch, hkey, rfl, rfl, ?_⟩
  rintro mv rfl
  simpa using hbound

theorem mem_replaceSnapshot {row sn : SnapshotRow}
    (h : sn ∈ (db.replaceSnapshot row).snapshots) : sn = row ∨ sn ∈ db.snapshots := by
  rcases List.mem_append.mp h with h | h
  · exact .inr (List.mem_of_mem_filter h)
  · exact .inl (List.mem_singleton.mp h)

theorem gcLoop_spec {total : ℕ} :
    (gcLoop active existing (total, db)).2.events = db.events ∧
      ∀ sn, sn ∈ (gcLoop active existing (total, db)).2.snapshots ↔
        sn ∈ db.snapshots ∧ (sn.key ∈ existing → sn.key ∈ active) := by
  induction existing generalizing total db with
  | nil => exact ⟨rfl, fun sn => by simp [gcLoop]⟩
  | cons key existing ih =>
    rw [gcLoop]
    split
    · -- an active key: its snapshots stay
      rename_i hactive
      have hkey : key ∈ active := by simpa using hactive
      obtain ⟨hevents, hmem⟩ := @ih db total
      refine ⟨hevents, fun sn => (hmem sn).trans (and_congr_right fun _ => ?_)⟩
      constructor
      · intro h hin
        rcases List.mem_cons.mp hin with heq | hin
        · exact heq ▸ hkey
        · exact h hin
      · exact fun h hin => h (List.mem_cons_of_mem _ hin)
    · -- an orphaned key: its snapshots go, and those of the keys to come are as before
      rename_i hactive
      have hkey : key ∉ active := by simpa using hactive
      obtain ⟨hevents, hmem⟩ := @ih (db.deleteSnapshots key).2 (total + (db.deleteSnapshots key).1)
      refine ⟨hevents, fun sn => (hmem sn).trans ?_⟩
      rw [Db.deleteSnapshots, List.mem_filter, decide_eq_true_iff]
      constructor
      · rintro ⟨⟨hsn, hne⟩, h⟩
        refine ⟨hsn, fun hin => ?_⟩
        rcases List.mem_cons.mp hin with heq | hin
        · exact absurd heq hne
        · exact h hin
      · rintro ⟨hsn, h⟩
        refine ⟨⟨hsn, ?_⟩, fun hin => h (List.mem_cons_of_mem _ hin)⟩
        rintro rfl
        exact hkey (h List.mem_cons_self)

/-- **Collection** leaves the events alone, and of the snapshots exactly those of
an active key. -/
theorem gcOrphanedSnapshotsImpl_spec :
    (gcOrphanedSnapshotsImpl db active).2.events = db.events ∧
      ∀ sn, sn ∈ (gcOrphanedSnapshotsImpl db active).2.snapshots ↔
        sn ∈ db.snapshots ∧ sn.key ∈ active := by
  rw [gcOrphanedSnapshotsImpl]
  split
  · rename_i hempty
    obtain rfl := List.isEmpty_iff.mp hempty
    exact ⟨rfl, fun sn => by simp⟩
  · obtain ⟨hevents, hmem⟩ := @gcLoop_spec db active (db.snapshots.map SnapshotRow.key).dedup 0
    refine ⟨hevents, fun sn => (hmem sn).trans (and_congr_right fun hsn => ?_)⟩
    have hin : sn.key ∈ (db.snapshots.map SnapshotRow.key).dedup :=
      List.mem_dedup.mpr (List.mem_map_of_mem hsn)
    exact ⟨fun h => h hin, fun h _ => h⟩

end Fossic
