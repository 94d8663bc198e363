/-
Reading the state of a stream: `Store::read_state_bytes`,
`Store::read_state_bytes_at_version` and `Store::take_snapshot`.

A read looks up the latest snapshot, reads the events above it, and folds them.
A full read then watches the sizes of the states it went through, which may put
a `ReducerStateLarge` event on the system stream, and asks the snapshot policy of
the reducer whether to take a snapshot.

Every call is composed of the steps at which it goes to the database
(`replayStart`, `replayEvents`, `writeSnapshot`), so that a run can have other
calls take place between them.
-/
import Fossic.Reducers
import Fossic.Snapshots
import Fossic.SystemStream
import Fossic.KeyedList
import Mathlib.Data.UInt

namespace Fossic

open KeyedList

/-! ### Where a replay starts -/

/-- The prior snapshot, if any, the first version to replay, and the state to
start from. -/
structure ReplayStart where
  prior : Option UInt64
  start : UInt64
  bytes : Bytes

def replayStart (reducer : BoxedReducer) (streamId branch : String) (maxVersion : Option UInt64)
    (db : Db) : Except Error ReplayStart :=
  match findLatestSnapshot db streamId branch reducer.name reducer.stateSchemaVersion maxVersion with
  | some (v, b) => .ok ⟨some v, v + 1, b⟩
  | none => do
    let bytes ← reducer.initialStateBytes
    .ok ⟨none, 0, bytes⟩

def replayEvents (streamId branch : String) (start : UInt64) (maxVersion : Option UInt64)
    (db : Db) : List StoredEvent :=
  readRangeImpl db ⟨streamId, branch, some start, maxVersion, none, none⟩

def computeStateBytes (reducer : BoxedReducer) (streamId branch : String)
    (maxVersion : Option UInt64) (db : Db) : Except Error (Bytes × List StoredEvent) := do
  let st ← replayStart reducer streamId branch maxVersion db
  .ok (st.bytes, replayEvents streamId branch st.start maxVersion db)

/-- The fold over the events that were read. -/
def applyEvents (reducer : BoxedReducer) (streamId : String) (bytes : Bytes)
    (events : List StoredEvent) : Except Error Bytes :=
  events.foldlM (applyReducerGuarded reducer streamId) bytes

/-! ### Taking a snapshot -/

/-- What the read phase of `take_snapshot` finds: a snapshot that is still
current, or events to fold, up to the version of the last one. -/
inductive SnapshotTarget
  | current (info : SnapshotInfo)
  | fold (version : UInt64) (events : List StoredEvent)

def snapshotTarget (reducer : BoxedReducer) (streamId branch : String) (st : ReplayStart)
    (db : Db) : Except Error SnapshotTarget :=
  let evs := replayEvents streamId branch st.start none db
  match evs.getLast? with
  | some last => .ok (.fold last.version evs)
  | none =>
    if st.prior.isSome then
      match snapshotInfoImpl db streamId branch reducer.name with
      | some info => .ok (.current info)
      | none => .error (.noEventsToSnapshot streamId branch)
    else .error (.noEventsToSnapshot streamId branch)

/-- `Store::take_snapshot`, when nothing runs in between. -/
def takeSnapshot (reducers : List ReducerEntry) (db : Db) (streamId branch : String)
    (now : Int64) : Except Error (SnapshotInfo × Db) := do
  let reducer ← getReducer reducers streamId
  let st ← replayStart reducer streamId branch none db
  let target ← snapshotTarget reducer streamId branch st db
  match target with
  | .current info => .ok (info, db)
  | .fold version events => do
    let state ← applyEvents reducer streamId st.bytes events
    .ok (writeSnapshot db streamId branch version reducer.name reducer.version
      reducer.stateSchemaVersion state now)

/-! ### State monitors -/

structure StateMonitor where
  stateSizes : List UInt64 := []
  lastEmissionUs : Int64 := 0
  applyCostsUs : List UInt64 := []

/-- Append to a buffer of the last 32 values. -/
def pushBounded (buffer : List UInt64) (value : UInt64) : List UInt64 :=
  (if 32 ≤ buffer.length then buffer.tail else buffer) ++ [value]

/-- The mean of a buffer, 0 when it is empty. -/
def meanOf (buffer : List UInt64) : UInt64 :=
  if buffer.isEmpty then 0 else buffer.sum / UInt64.ofNat buffer.length

def StateMonitor.meanStateSize (m : StateMonitor) : UInt64 := meanOf m.stateSizes

def StateMonitor.avgApplyCostUs (m : StateMonitor) : UInt64 := meanOf m.applyCostsUs

abbrev StateMonitors := List ((String × String) × StateMonitor)

def updateStateMonitor (monitors : StateMonitors) (key : String × String)
    (stateLen : UInt64) (applyCostUs : UInt64) : StateMonitors :=
  let m := (find monitors key).getD {}
  upsert monitors key { m with
    stateSizes := pushBounded m.stateSizes stateLen
    applyCostsUs := pushBounded m.applyCostsUs applyCostUs }

/-! ### The open store -/

/-- The fields of `StoreInner` that reads and snapshots use. -/
structure StoreInner where
  db : Db
  reducerStateLargeThresholdBytes : UInt64
  reducers : List ReducerEntry
  snapshotCounters : List ((String × String) × UInt32)
  stateMonitors : StateMonitors
  lastSnapshotUs : List ((String × String) × Int64)
  storeOpenUs : Int64
  /-- The snapshots scheduled on the background executor. -/
  backlog : List (String × String)

/-- `Store::open` on the tables of a file. -/
def StoreInner.opened (db : Db) (thresholdBytes : UInt64) (now : Int64) : StoreInner where
  db := db
  reducerStateLargeThresholdBytes := thresholdBytes
  reducers := []
  snapshotCounters := []
  stateMonitors := []
  lastSnapshotUs := []
  storeOpenUs := now
  backlog := []

/-- The clock readings of one full read: before and after each `apply_bytes`, and
one for each of the steps that follow. -/
structure ReadClock where
  apply : ℕ → Int64 × Int64
  largeUs : Int64
  emitUs : Int64
  policyUs : Int64

def applyCostUs (t : Int64 × Int64) : UInt64 := (max (t.2 - t.1) 0).toUInt64

/-- The loop of a full read: it records the size and the cost of each step, also
when a later one fails. -/
def readLoop (reducer : BoxedReducer) (streamId branch : String) (clock : ℕ → Int64 × Int64) :
    List StoredEvent → ℕ → Bytes → StateMonitors → Except Error Bytes × StateMonitors
  | [], _, state, monitors => (.ok state, monitors)
  | event :: events, i, state, monitors =>
    match applyReducerGuarded reducer streamId state event with
    | .error e => (.error e, monitors)
    | .ok state' => readLoop reducer streamId branch clock events (i + 1) state'
        (updateStateMonitor monitors (streamId, branch) (UInt64.ofNat state'.length)
          (applyCostUs (clock i)))

def reducerStateLargePayload (streamId branch : String) (meanSize threshold : UInt64) : Json :=
  .object [("branch", .string branch), ("mean_state_bytes", .number (.posInt meanSize)),
    ("stream_id", .string streamId), ("threshold_bytes", .number (.posInt threshold))]

/-- `usize::MAX` as a threshold disables the emission. -/
def USIZE_MAX : UInt64 := 0xFFFFFFFFFFFFFFFF

def EMISSION_INTERVAL_US : Int64 := 60000000

def maybeEmitStateLarge (d : Deps) (s : StoreInner) (streamId branch : String)
    (now emitUs : Int64) : StoreInner :=
  let threshold := s.reducerStateLargeThresholdBytes
  if threshold = USIZE_MAX then s
  else
    match find s.stateMonitors (streamId, branch) with
    | none => s
    | some m =>
      if m.meanStateSize ≤ threshold then s
      else if now - m.lastEmissionUs < EMISSION_INTERVAL_US then s
      else { s with
        stateMonitors := upsert s.stateMonitors (streamId, branch) { m with lastEmissionUs := now }
        db := emit d "ReducerStateLarge"
          (reducerStateLargePayload streamId branch m.meanStateSize threshold) none emitUs s.db }

/-- Nothing is emitted, or an event about the stream and the branch, at a time that their
monitor keeps. -/
theorem maybeEmitStateLarge_cases (d : Deps) (s : StoreInner) (streamId branch : String)
    (now emitUs : Int64) :
    maybeEmitStateLarge d s streamId branch now emitUs = s ∨
      ∃ m payload, find s.stateMonitors (streamId, branch) = some m ∧
        maybeEmitStateLarge d s streamId branch now emitUs =
          { s with
            stateMonitors :=
              upsert s.stateMonitors (streamId, branch) { m with lastEmissionUs := now }
            db := emit d "ReducerStateLarge" payload none emitUs s.db } := by
  rw [maybeEmitStateLarge.eq_def]
  dsimp only
  split
  · exact .inl rfl
  · cases hfind : find s.stateMonitors (streamId, branch) with
    | none => exact .inl rfl
    | some m =>
      dsimp only
      split
      · exact .inl rfl
      · split
        · exact .inl rfl
        · exact .inr ⟨m, _, rfl, rfl⟩

/-! ### Automatic snapshots -/

def saturatingMul (a b : UInt64) : UInt64 :=
  if a.toNat * b.toNat < 2 ^ 64 then a * b else USIZE_MAX

/-- The first half of `maybe_auto_snapshot`: whether a snapshot is to be taken
in-band now.  The additions to the counters are those of `u32` without overflow
checks. -/
def autoSnapshotDue (s : StoreInner) (streamId branch : String) (eventsApplied : UInt32)
    (policy : SnapshotPolicy) (now : Int64) : Bool × StoreInner :=
  let key := (streamId, branch)
  let accumulated := (find s.snapshotCounters key).getD 0 + eventsApplied
  match policy with
  | .everyNEvents n =>
    if n ≤ accumulated then (true, { s with snapshotCounters := upsert s.snapshotCounters key 0 })
    else (false, { s with snapshotCounters := upsert s.snapshotCounters key accumulated })
  | .stateAdaptive targetReplayCostUs minEventsBetween =>
    let counted := { s with snapshotCounters := upsert s.snapshotCounters key accumulated }
    if accumulated < minEventsBetween then (false, counted)
    else
      let avgCost := ((find s.stateMonitors key).map StateMonitor.avgApplyCostUs).getD 0
      if targetReplayCostUs.toUInt64 < saturatingMul accumulated.toUInt64 avgCost then
        (true, { s with snapshotCounters := upsert s.snapshotCounters key 0 })
      else (false, counted)
  | .everyNSeconds n =>
    let windowUs := n.toUInt64.toInt64 * 1000000
    let last := (find s.lastSnapshotUs key).getD s.storeOpenUs
    if windowUs ≤ now - last then
      (false, { s with
        lastSnapshotUs := upsert s.lastSnapshotUs key now
        backlog := s.backlog ++ [key] })
    else (false, s)
  | .manual => (false, s)

/-! ### Reads -/

/-- A full read up to its in-band snapshot: the state, and whether a snapshot is
due. -/
def readUpToSnapshot (d : Deps) (s : StoreInner) (streamId branch : String) (t : ReadClock) :
    Except Error (Bytes × Bool) × StoreInner :=
  match findArcWithPolicy s.reducers streamId with
  | none => (.error (.reducerNotFound streamId), s)
  | some (reducer, policy) =>
    match computeStateBytes reducer streamId branch none s.db with
    | .error e => (.error e, s)
    | .ok (bytes, events) =>
      let (result, monitors) :=
        readLoop reducer streamId branch t.apply events 0 bytes s.stateMonitors
      let s := { s with stateMonitors := monitors }
      match result with
      | .error e => (.error e, s)
      | .ok state =>
        let s := maybeEmitStateLarge d s streamId branch t.largeUs t.emitUs
        let (due, s) :=
          autoSnapshotDue s streamId branch (UInt32.ofNat events.length) policy t.policyUs
        (.ok (state, due), s)

/-- `Store::read_state_bytes`, when nothing runs in between. -/
def readStateBytes (d : Deps) (s : StoreInner) (streamId branch : String) (t : ReadClock)
    (snapshotUs : Int64) : Except Error Bytes × StoreInner :=
  match readUpToSnapshot d s streamId branch t with
  | (.error e, s) => (.error e, s)
  | (.ok (state, false), s) => (.ok state, s)
  | (.ok (state, true), s) =>
    match takeSnapshot s.reducers s.db streamId branch snapshotUs with
    | .ok (_, db) => (.ok state, { s with db := db })
    | .error (.noEventsToSnapshot _ _) => (.ok state, s)
    | .error e => (.error e, s)

end Fossic
