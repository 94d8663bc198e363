/-
Setting up a store file: what `Store::open` does to it before the store is used.

The set-up is a sequence of statements, each committed on its own: the version
stamp is read; when it is 0 the statements of the v1 schema run one after another and
then the stamp is written; the rows of `meta` and of the system stream are inserted
if they are missing.  The machine `openStep` takes the statements of any number of
processes in any order, and a process may stop between any two of them.

* `createObject_next`, `createObject_first` — a statement of the schema succeeds after
  the ones before it, and the first one fails on a file that has been begun;
* `bootstrapMeta_built`, `bootstrapSystemStreams_built` — the rows are inserted once.
-/
import Fossic.Tables
import Fossic.Transition
import Mathlib.Logic.Function.Basic

namespace Fossic

open Transition Function

/-! ### The schema -/

def CURRENT_SCHEMA_VERSION : UInt32 := 1

/-- A `CREATE TABLE`, or a `CREATE INDEX` on the table `indexOf`, and what it leaves
in the file. -/
structure SchemaObject where
  name : String
  indexOf : Option String := none
  definition : String
  deriving DecidableEq

def SCHEMA_V1 : List SchemaObject :=
  [{ name := "events", definition :=
      "id BLOB NOT NULL PRIMARY KEY, stream_id TEXT NOT NULL, " ++
      "branch TEXT NOT NULL DEFAULT 'main', version INTEGER NOT NULL, " ++
      "timestamp_us INTEGER NOT NULL, causation_id BLOB, correlation_id BLOB, " ++
      "event_type TEXT NOT NULL, type_version INTEGER NOT NULL DEFAULT 1, " ++
      "payload BLOB NOT NULL, external_id TEXT, indexed_tags TEXT, " ++
      "UNIQUE (stream_id, branch, version)" },
    ⟨"idx_events_stream_branch_version", some "events", "stream_id, branch, version"⟩,
    ⟨"idx_events_correlation", some "events", "correlation_id WHERE correlation_id IS NOT NULL"⟩,
    ⟨"idx_events_causation", some "events", "causation_id WHERE causation_id IS NOT NULL"⟩,
    ⟨"idx_events_external_id", some "events",
      "stream_id, external_id WHERE external_id IS NOT NULL"⟩,
    ⟨"idx_events_timestamp", some "events", "timestamp_us"⟩,
    ⟨"idx_events_type", some "events", "event_type"⟩,
    { name := "branches", definition :=
      "id TEXT NOT NULL, stream_id TEXT NOT NULL, parent_id TEXT NOT NULL, " ++
      "parent_version INTEGER NOT NULL, description TEXT, created_at INTEGER NOT NULL, " ++
      "lifecycle TEXT NOT NULL DEFAULT 'ephemeral', closed_at INTEGER, closed_reason TEXT, " ++
      "alternatives TEXT, PRIMARY KEY (stream_id, id)" },
    ⟨"idx_branches_stream", some "branches", "stream_id"⟩,
    ⟨"idx_branches_lifecycle", some "branches", "stream_id, lifecycle"⟩,
    { name := "snapshots", definition :=
      "stream_id TEXT NOT NULL, branch TEXT NOT NULL DEFAULT 'main', version INTEGER NOT NULL, " ++
      "reducer_name TEXT NOT NULL, reducer_version INTEGER NOT NULL DEFAULT 1, " ++
      "state_schema_version INTEGER NOT NULL DEFAULT 1, state_blob BLOB NOT NULL, " ++
      "created_at INTEGER NOT NULL, " ++
      "PRIMARY KEY (stream_id, branch, reducer_name, state_schema_version, version)" },
    ⟨"idx_snapshots_lookup", some "snapshots",
      "stream_id, branch, reducer_name, state_schema_version, version DESC"⟩,
    { name := "streams", definition :=
      "id TEXT NOT NULL PRIMARY KEY, declared_by TEXT NOT NULL, declared_at INTEGER NOT NULL, " ++
      "description TEXT" },
    { name := "stream_deks", definition :=
      "stream_id TEXT NOT NULL PRIMARY KEY, key_id TEXT NOT NULL, created_at INTEGER NOT NULL, " ++
      "shredded_at INTEGER, shredded_reason TEXT" },
    { name := "cursors", definition :=
      "consumer_id TEXT NOT NULL, stream_id TEXT NOT NULL, branch TEXT NOT NULL DEFAULT 'main', " ++
      "version INTEGER NOT NULL, updated_at INTEGER NOT NULL, " ++
      "PRIMARY KEY (consumer_id, stream_id, branch)" },
    { name := "upcasters_registered", definition :=
      "event_type TEXT NOT NULL, from_version INTEGER NOT NULL, to_version INTEGER NOT NULL, " ++
      "registered_at INTEGER NOT NULL, PRIMARY KEY (event_type, from_version, to_version)" },
    { name := "meta", definition := "key TEXT NOT NULL PRIMARY KEY, value TEXT NOT NULL" }]

/-! ### The statements -/

structure DbFile where
  objects : List SchemaObject
  /-- `PRAGMA user_version`, a signed 32-bit number. -/
  userVersion : Int32
  metaRows : List (String × String)
  streams : List StreamRow

/-- A file that SQLite has just created. -/
def DbFile.fresh : DbFile := ⟨[], 0, [], []⟩

def DbFile.has (file : DbFile) (name : String) : Bool :=
  file.objects.any fun o => o.name = name

/-- The stamp as a `u32`; `unwrap_or(0)` where it is none. -/
def DbFile.stored (file : DbFile) : UInt32 :=
  if 0 ≤ file.userVersion then file.userVersion.toUInt32 else 0

def createObject (file : DbFile) (o : SchemaObject) : Except Error DbFile :=
  if file.has o.name then
    .error (.sqlite ((if o.indexOf.isSome then "index " else "table ") ++ o.name
      ++ " already exists"))
  else
    match o.indexOf.filter fun table => !file.has table with
    | some table => .error (.sqlite ("no such table: main." ++ table))
    | none => .ok { file with objects := file.objects ++ [o] }

def CARGO_PKG_VERSION : String := "1.8.3"

/-- The rows of `bootstrap_meta`; the encryption mode is always `plaintext`. -/
def requiredMeta (nowUs : Int64) : List (String × String) :=
  [("fossic_schema_version", toString CURRENT_SCHEMA_VERSION.toNat),
    ("cce_version", "fossic-cce-v1"),
    ("created_at_us", toString nowUs.toInt),
    ("created_by_version", CARGO_PKG_VERSION),
    ("encryption_mode", "plaintext")]

/-- `INSERT OR IGNORE INTO meta`. -/
def insertMeta (rows : List (String × String)) (row : String × String) : List (String × String) :=
  if rows.any fun r => r.1 = row.1 then rows else rows ++ [row]

def bootstrapMeta (file : DbFile) (nowUs : Int64) : Except Error DbFile :=
  if file.has "meta" then
    .ok { file with metaRows := (requiredMeta nowUs).foldl insertMeta file.metaRows }
  else .error (.sqlite "no such table: meta")

/-- `INSERT OR IGNORE INTO streams`, for `_fossic/system`. -/
def bootstrapSystemStreams (file : DbFile) (nowUs : Int64) : Except Error DbFile :=
  if file.has "streams" then
    if file.streams.any fun s => s.id = SYSTEM_STREAM then .ok file
    else .ok { file with streams := file.streams ++
      [⟨SYSTEM_STREAM, "fossic", nowUs, some "Internal fossic system events"⟩] }
  else .error (.sqlite "no such table: streams")

/-! ### The machine -/

/-- The statement that a call of `Store::open` is about to run. -/
inductive OpenStage
  | readVersion
  /-- In `execute_batch(SCHEMA_V1)`, with the statements that are left. -/
  | create (rest : List SchemaObject)
  | stamp
  | bootstrapMeta
  | bootstrapSystemStreams

/-- What follows a statement: the next one, or the end of the set-up. -/
abbrev OpenStage.Outcome := DbFile × (OpenStage ⊕ Except Error Unit)

/-- `?` on the result of a statement. -/
def OpenStage.orFail (file : DbFile) (next : OpenStage ⊕ Except Error Unit) :
    Except Error DbFile → OpenStage.Outcome
  | .ok file' => (file', next)
  | .error e => (file, .inr (.error e))

def OpenStage.statement (file : DbFile) (nowUs : Int64) : OpenStage → OpenStage.Outcome
  | .readVersion =>
    if CURRENT_SCHEMA_VERSION < file.stored then
      (file, .inr (.error (.schemaMismatch file.stored CURRENT_SCHEMA_VERSION)))
    else if file.stored = CURRENT_SCHEMA_VERSION then (file, .inl .bootstrapMeta)
    else (file, .inl (.create SCHEMA_V1))
  | .create [] => (file, .inl .stamp)
  | .create (o :: rest) => orFail file (.inl (.create rest)) (createObject file o)
  | .stamp => ({ file with userVersion := 1 }, .inl .bootstrapMeta)
  | .bootstrapMeta => orFail file (.inl .bootstrapSystemStreams) (Fossic.bootstrapMeta file nowUs)
  | .bootstrapSystemStreams =>
    orFail file (.inr (.ok ())) (Fossic.bootstrapSystemStreams file nowUs)

/-- The file and the processes that open it: `opens p` is the statement that process `p`
is about to run. -/
structure Opening where
  file : DbFile
  opens : ℕ → Option OpenStage
  /-- How the opens that have ended did so. -/
  results : List (Except Error Unit)

def Opening.init : Opening := ⟨.fresh, fun _ => none, []⟩

inductive OpenAction
  | start (p : ℕ)
  | statement (p : ℕ) (nowUs : Int64)
  /-- The process stops. -/
  | crash (p : ℕ)

def Opening.after (s : Opening) (p : ℕ) : OpenStage.Outcome → Opening
  | (file, .inl stage) => { s with file := file, opens := update s.opens p (some stage) }
  | (file, .inr result) =>
    ⟨file, update s.opens p none, s.results ++ [result]⟩

def openStep (s : Opening) : OpenAction → Option Opening
  | .start p =>
    match s.opens p with
    | none => some { s with opens := update s.opens p (some .readVersion) }
    | some _ => none
  | .statement p nowUs => (s.opens p).map fun stage => s.after p (stage.statement s.file nowUs)
  | .crash p => some { s with opens := update s.opens p none }

/-! ### One statement -/

def META_KEYS : List String :=
  ["fossic_schema_version", "cce_version", "created_at_us", "created_by_version", "encryption_mode"]

/-- What a finished set-up leaves. -/
structure SetUp (file : DbFile) : Prop where
  schema : file.objects = SCHEMA_V1
  version : file.userVersion = 1
  metaRows : file.metaRows.map Prod.fst = META_KEYS
  system : file.streams.map (·.id) = [SYSTEM_STREAM]

variable {file : DbFile} {s : Opening} {p : ℕ} {stage : OpenStage} {nowUs : Int64}
  {o : SchemaObject} {rest : List SchemaObject}

theorem openStep_statement (h : s.opens p = some stage) :
    openStep s (.statement p nowUs) = some (s.after p (stage.statement s.file nowUs)) := by
  rw [openStep, h]
  rfl

theorem update_opens (s : Opening) (p : ℕ) (next : Option OpenStage) :
    update s.opens p next p = next := update_self ..

theorem opens_after : (s.after p (file, .inl stage)).opens p = some stage :=
  update_opens s p (some stage)

theorem names_nodup : (SCHEMA_V1.map (·.name)).Nodup := by decide

/-- Every index comes after its table. -/
theorem tables_first : ∀ k < SCHEMA_V1.length, ∀ o ∈ SCHEMA_V1[k]?, ∀ table ∈ o.indexOf,
    table ∈ (SCHEMA_V1.take k).map (·.name) := by decide

theorem has_iff {name : String} : file.has name = true ↔ name ∈ file.objects.map (·.name) := by
  simp [DbFile.has]

/-- The next statement of the schema succeeds on the ones before it. -/
theorem createObject_next (h : SCHEMA_V1 = file.objects ++ o :: rest) :
    createObject file o = .ok { file with objects := file.objects ++ [o] } := by
  have hnew : file.has o.name = false := by
    rw [← Bool.not_eq_true, has_iff]
    have hnodup := names_nodup
    rw [h, List.map_append, List.map_cons, List.nodup_middle] at hnodup
    exact fun hmem => (List.nodup_cons.mp hnodup).1 (List.mem_append_left _ hmem)
  have htable : o.indexOf.filter (fun table => !file.has table) = none := by
    rw [Option.filter_eq_none_iff]
    intro table htable
    have hget : o ∈ SCHEMA_V1[file.objects.length]? := by simp [h]
    have hlt : file.objects.length < SCHEMA_V1.length := by
      rw [h, List.length_append, List.length_cons]
      omega
    have hmem := tables_first _ hlt o hget table htable
    rw [h, List.take_left] at hmem
    simp [has_iff.mpr hmem]
  rw [createObject, hnew, htable]
  rfl

/-- The first statement fails on a file that has been begun. -/
theorem createObject_first (hfirst : SCHEMA_V1 = o :: rest)
    (hschema : ∃ left, SCHEMA_V1 = file.objects ++ left) (hbegun : file.objects ≠ []) :
    ∃ e, createObject file o = .error e := by
  obtain ⟨left, hleft⟩ := hschema
  have hhas : file.has o.name = true := by
    obtain ⟨o', tail, htail⟩ := List.exists_cons_of_ne_nil hbegun
    have hhead : o :: rest = o' :: (tail ++ left) := by rw [← hfirst, hleft, htail]; rfl
    rw [has_iff, htail, ← (List.cons.inj hhead).1]
    exact List.mem_cons_self
  exact ⟨_, by rw [createObject, if_pos hhas]⟩

theorem bootstrapMeta_built (nowUs : Int64) (h : file.objects = SCHEMA_V1)
    (hrows : file.metaRows = [] ∨ file.metaRows.map Prod.fst = META_KEYS) :
    ∃ rows, rows.map Prod.fst = META_KEYS ∧
      bootstrapMeta file nowUs = .ok { file with metaRows := rows } := by
  have hhas : file.has "meta" = true := by
    rw [DbFile.has, h]
    decide
  refine ⟨_, ?_, if_pos hhas⟩
  rcases hrows with hrows | hrows
  · rw [hrows]
    rfl
  · -- every required key is there, so every row is ignored
    have hkept : ∀ required : List (String × String), (∀ row ∈ required, row.1 ∈ META_KEYS) →
        required.foldl insertMeta file.metaRows = file.metaRows := by
      intro required
      induction required with
      | nil => exact fun _ => rfl
      | cons row required ih =>
        intro hkeys
        obtain ⟨hkey, hkeys⟩ := List.forall_mem_cons.mp hkeys
        obtain ⟨r, hr, hrow⟩ := List.mem_map.mp (hrows ▸ hkey)
        rw [List.foldl_cons, insertMeta, if_pos (List.any_eq_true.mpr ⟨r, hr, by simp [hrow]⟩)]
        exact ih hkeys
    rw [hkept _ (by simp [requiredMeta, META_KEYS]), hrows]

theorem bootstrapSystemStreams_built (nowUs : Int64) (h : file.objects = SCHEMA_V1)
    (hstreams : file.streams = [] ∨ file.streams.map (·.id) = [SYSTEM_STREAM]) :
    ∃ streams, streams.map (·.id) = [SYSTEM_STREAM] ∧
      bootstrapSystemStreams file nowUs = .ok { file with streams := streams } := by
  have hhas : file.has "streams" = true := by
    rw [DbFile.has, h]
    decide
  rw [bootstrapSystemStreams, if_pos hhas]
  rcases hstreams with hstreams | hstreams
  · exact ⟨[⟨SYSTEM_STREAM, "fossic", nowUs, some "Internal fossic system events"⟩], rfl, by
      rw [hstreams]; rfl⟩
  · obtain ⟨row, hrow⟩ : ∃ row, row ∈ file.streams ∧ row.id = SYSTEM_STREAM :=
      List.mem_map.mp (hstreams ▸ List.mem_singleton.mpr rfl)
    refine ⟨file.streams, hstreams, if_pos (List.any_eq_true.mpr ⟨row, hrow.1, ?_⟩)⟩
    simp [hrow.2]

end Fossic
