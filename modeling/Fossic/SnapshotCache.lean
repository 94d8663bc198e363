/-
A snapshot stands for the part of the history up to its version.

`CheckpointOn R db streamId branch key k state` says that `state` is what every
reducer of `R` with that key folds the events up to version `k` to.

* `CheckpointOn.extend` — it stays so as the history grows;
* `replayStart_checkpoint` — a replay starts from a checkpoint, be it a snapshot
  or the initial state;
* `resume_eq_fold` — folding what comes after a checkpoint gives the fold over
  the whole history;
* `computeState_eq`, `takeSnapshot_error` — what reads and snapshots make of it.
-/
import Fossic.History
import Fossic.ReadState

namespace Fossic

open Checkpoint KeySort

/-! ### The fold that snapshots stand for -/

/-- The events of the stream and branch, in increasing version order. -/
def history (db : Db) (streamId branch : String) : List StoredEvent :=
  (db.rowsOn streamId branch).map rowToEvent

/-- Those with versions up to `v`. -/
def historyUpTo (db : Db) (streamId branch : String) (v : ℤ) : List StoredEvent :=
  (upTo EventRow.version v (db.rowsOn streamId branch)).map rowToEvent

/-- The fold of `apply_bytes` over the events, from the initial state. -/
def foldEvents (reducer : BoxedReducer) (streamId : String) (events : List StoredEvent) :
    Except Error Bytes := do
  let bytes ← reducer.initialStateBytes
  applyEvents reducer streamId bytes events

/-- The fold of the matching reducer over all events of the stream and branch. -/
def currentState (reducers : List ReducerEntry) (db : Db) (streamId branch : String) :
    Except Error Bytes := do
  let reducer ← getReducer reducers streamId
  foldEvents reducer streamId (history db streamId branch)

/-- In `R`, a name and a schema version always denote the same initial state and
the same function. -/
def SameMeaning (R : BoxedReducer → Prop) : Prop :=
  ∀ r r', R r → R r' → r.key = r'.key →
    r.initialStateBytes = r'.initialStateBytes ∧ r.applyBytes = r'.applyBytes

/-- One step of the fold, on rows. -/
def rowStep (reducer : BoxedReducer) (streamId : String) (state : Bytes) (r : EventRow) :
    Except Error Bytes :=
  applyReducerGuarded reducer streamId state (rowToEvent r)

variable {R : BoxedReducer → Prop} {db db' : Db} {streamId branch : String}
  {key : String × UInt32} {k : ℤ} {state : Bytes} {r r' : BoxedReducer}

theorem applyEvents_map {rows : List EventRow} {bytes : Bytes} :
    applyEvents r streamId bytes (rows.map rowToEvent) = rows.foldlM (rowStep r streamId) bytes := by
  rw [applyEvents, List.foldlM_map]
  rfl

theorem foldEvents_map {rows : List EventRow} :
    foldEvents r streamId (rows.map rowToEvent) =
      replay (rowStep r streamId) r.initialStateBytes rows := by
  rw [foldEvents, replay]
  exact congrArg _ (funext fun bytes => applyEvents_map)

theorem SameMeaning.rowStep (hR : SameMeaning R) (hr : R r) (hr' : R r') (hkey : r.key = r'.key) :
    rowStep r streamId = rowStep r' streamId := by
  obtain ⟨-, happly⟩ := hR r r' hr hr' hkey
  have hname : r.name = r'.name := (Prod.mk.inj hkey).1
  funext state row
  rw [Fossic.rowStep, Fossic.rowStep, applyReducerGuarded, applyReducerGuarded, happly, hname]

/-! ### Checkpoints -/

structure CheckpointOn (R : BoxedReducer → Prop) (db : Db) (streamId branch : String)
    (key : String × UInt32) (k : ℤ) (state : Bytes) : Prop where
  low : -1 ≤ k
  high : k ≤ db.maxVersion streamId branch
  covers : ∀ r, R r → r.key = key → Covers (rowStep r streamId) r.initialStateBytes
    EventRow.version (db.rowsOn streamId branch) k state

/-- Every snapshot is a checkpoint of its stream, its branch and its key. -/
def SnapshotsSound (R : BoxedReducer → Prop) (db : Db) : Prop :=
  ∀ sn ∈ db.snapshots, (0 ≤ sn.version ∧ sn.version < MAX_ROWS) ∧
    CheckpointOn R db sn.streamId sn.branch sn.key sn.version sn.stateBlob

theorem CheckpointOn.extend (h : CheckpointOn R db streamId branch key k state)
    (hext : Extends db db') : CheckpointOn R db' streamId branch key k state where
  low := h.low
  high := h.high.trans (hext.maxVersion streamId branch)
  covers := by
    intro r hr hkey
    obtain ⟨new, hnew, habove⟩ := hext.rowsOn streamId branch
    rw [hnew]
    exact (h.covers r hr hkey).append fun row hrow => h.high.trans_lt (habove row hrow)

theorem SnapshotsSound.extend (h : SnapshotsSound R db) (hext : Extends db db')
    (hsub : ∀ sn ∈ db'.snapshots, sn ∈ db.snapshots) : SnapshotsSound R db' :=
  fun sn hsn => ⟨(h sn (hsub sn hsn)).1, (h sn (hsub sn hsn)).2.extend hext⟩

/-- Before the first event there is the initial state. -/
theorem checkpoint_initial (hR : SameMeaning R) (hr : R r) (hdb : db.Sane)
    (hinit : r.initialStateBytes = .ok state) :
    CheckpointOn R db streamId branch r.key (-1) state where
  low := le_rfl
  high := hdb.le_maxVersion
  covers := by
    intro r' hr' hkey
    have hnone : upTo EventRow.version (-1) (db.rowsOn streamId branch) = [] := by
      refine upTo_eq_nil fun row hrow => ?_
      have hrange := hdb.range row (mem_rowsOn.mp hrow).1
      omega
    rw [Covers, hnone, replay_nil, (hR r' r hr' hr hkey).1]
    exact hinit

/-! ### Replaying from a checkpoint -/

theorem u64AsI64_succ (h0 : 0 ≤ k) (h : k < MAX_ROWS) : u64AsI64 (i64AsU64 k + 1) = k + 1 := by
  have hrows : (MAX_ROWS : ℤ) < 2 ^ 62 := by decide
  have hk := toNat_i64AsU64 h0 (by omega)
  have hadd : (i64AsU64 k + 1).toNat = (i64AsU64 k).toNat + 1 := by
    rw [UInt64.toNat_add]
    show ((i64AsU64 k).toNat + 1) % 2 ^ 64 = _
    omega
  rw [u64AsI64_of_lt (by omega), hadd]
  omega

/-- The bound that an optional version puts on a range read. -/
def stopAt (maxVersion : Option UInt64) : ℤ := (maxVersion.map u64AsI64).getD i64Max

/-- **A replay starts from a checkpoint**, one that is not above the bound. -/
theorem replayStart_checkpoint (hR : SameMeaning R) (hr : R r) (hdb : db.Fits)
    (hsound : SnapshotsSound R db) {maxVersion : Option UInt64} (hstop : -1 ≤ stopAt maxVersion)
    {st : ReplayStart} (h : replayStart r streamId branch maxVersion db = .ok st) :
    CheckpointOn R db streamId branch r.key (u64AsI64 st.start - 1) st.bytes ∧
      u64AsI64 st.start - 1 ≤ stopAt maxVersion := by
  rw [replayStart] at h
  split at h
  · rename_i v b hfind
    obtain ⟨sn, hsn, rfl, rfl, hkey, rfl, rfl, hbound⟩ := findLatestSnapshot_eq_some hfind
    obtain ⟨⟨h0, hlt⟩, hcheckpoint⟩ := hsound sn hsn
    obtain rfl := Except.ok.inj h
    have hstart : u64AsI64 (i64AsU64 sn.version + 1) - 1 = sn.version := by
      rw [u64AsI64_succ h0 hlt]
      omega
    show CheckpointOn R db sn.streamId sn.branch r.key (u64AsI64 (i64AsU64 sn.version + 1) - 1)
      sn.stateBlob ∧ u64AsI64 (i64AsU64 sn.version + 1) - 1 ≤ stopAt maxVersion
    rw [hstart]
    have hkey' : sn.key = r.key := hkey
    refine ⟨hkey' ▸ hcheckpoint, ?_⟩
    cases maxVersion with
    | none =>
      have hrows : (MAX_ROWS : ℤ) ≤ i64Max := by decide
      show sn.version ≤ i64Max
      omega
    | some mv => exact hbound mv rfl
  · obtain ⟨bytes, hinit, hst⟩ := bind_eq_ok.mp h
    obtain rfl := Except.ok.inj hst
    exact ⟨checkpoint_initial hR hr hdb.sane hinit, hstop⟩

theorem replayStart_error {maxVersion : Option UInt64} {e : Error}
    (h : replayStart r streamId branch maxVersion db = .error e) :
    r.initialStateBytes = .error e := by
  rw [replayStart] at h
  split at h
  · exact absurd h (by simp)
  · cases hinit : r.initialStateBytes with
    | error e' =>
      rw [hinit] at h
      exact congrArg _ (Except.error.inj h)
    | ok bytes =>
      rw [hinit] at h
      exact absurd h (by simp [bind, Except.bind])

/-- The events that are read are those after the checkpoint, up to the bound. -/
theorem replayEvents_eq (hdb : db.Fits) {start : UInt64} {maxVersion : Option UInt64} :
    replayEvents streamId branch start maxVersion db =
      (after EventRow.version (u64AsI64 start - 1)
        (upTo EventRow.version (stopAt maxVersion) (db.rowsOn streamId branch))).map
          rowToEvent := by
  rw [replayEvents, readRangeImpl_eq hdb, after, upTo, List.filter_filter]
  refine congrArg _ (List.filter_congr fun row _ => ?_)
  rw [Option.getD_some, stopAt]
  exact congrArg (· && _) (decide_eq_decide.mpr (by omega))

/-- **Resuming**: from a checkpoint at or below the bound, the fold over what is
read equals the fold over the whole history up to the bound. -/
theorem resume_eq_fold (hdb : db.Fits) (hr : R r) {start : UInt64} {bytes : Bytes}
    {maxVersion : Option UInt64}
    (h : CheckpointOn R db streamId branch r.key (u64AsI64 start - 1) bytes)
    (hstop : u64AsI64 start - 1 ≤ stopAt maxVersion) :
    applyEvents r streamId bytes (replayEvents streamId branch start maxVersion db) =
      foldEvents r streamId (historyUpTo db streamId branch (stopAt maxVersion)) := by
  rw [replayEvents_eq hdb, applyEvents_map, historyUpTo, foldEvents_map]
  exact (h.covers r hr rfl).resume_upTo hstop rowsOn_sorted

theorem upTo_all (hdb : db.Sane) :
    upTo EventRow.version (stopAt none) (db.rowsOn streamId branch) =
      db.rowsOn streamId branch := by
  refine upTo_eq_self fun row hrow => ?_
  have hrange := hdb.range row (mem_rowsOn.mp hrow).1
  show row.version ≤ 2 ^ 63 - 1
  omega

theorem historyUpTo_all (hdb : db.Sane) :
    historyUpTo db streamId branch (stopAt none) = history db streamId branch := by
  rw [historyUpTo, upTo_all hdb, history]

/-! ### Reads and snapshots -/

/-- What `compute_state_bytes` and the loop after it come to. -/
theorem computeState_eq (hR : SameMeaning R) (hr : R r) (hdb : db.Fits)
    (hsound : SnapshotsSound R db) {maxVersion : Option UInt64} (hstop : -1 ≤ stopAt maxVersion) :
    (do
      let (bytes, events) ← computeStateBytes r streamId branch maxVersion db
      applyEvents r streamId bytes events) =
      foldEvents r streamId (historyUpTo db streamId branch (stopAt maxVersion)) := by
  rw [computeStateBytes]
  cases hst : replayStart r streamId branch maxVersion db with
  | error e =>
    rw [foldEvents, replayStart_error hst]
    rfl
  | ok st =>
    obtain ⟨hcheckpoint, hle⟩ := replayStart_checkpoint hR hr hdb hsound hstop hst
    exact resume_eq_fold hdb hr hcheckpoint hle

/-- The read phase of a snapshot: either there are events, and they are to be
folded, or there is nothing to do. -/
theorem snapshotTarget_cases {st : ReplayStart} :
    (∃ last, (replayEvents streamId branch st.start none db).getLast? = some last ∧
      snapshotTarget r streamId branch st db =
        .ok (.fold last.version (replayEvents streamId branch st.start none db))) ∨
    (∃ info, snapshotTarget r streamId branch st db = .ok (.current info)) ∨
    snapshotTarget r streamId branch st db = .error (.noEventsToSnapshot streamId branch) := by
  rw [snapshotTarget]
  cases (replayEvents streamId branch st.start none db).getLast? with
  | some last => exact .inl ⟨last, rfl, rfl⟩
  | none =>
    refine .inr ?_
    show (∃ info, (if st.prior.isSome then _ else _) = _) ∨ (if st.prior.isSome then _ else _) = _
    split
    · cases snapshotInfoImpl db streamId branch r.name with
      | some info => exact .inl ⟨info, rfl⟩
      | none => exact .inr rfl
    · exact .inr rfl

/-- A snapshot of a finished fold is a checkpoint at the version it is filed
under. -/
theorem checkpoint_of_fold (hR : SameMeaning R) (hr : R r) (hdb : db.Counted) {st : ReplayStart}
    (h : CheckpointOn R db streamId branch r.key (u64AsI64 st.start - 1) st.bytes)
    {version : UInt64} {events : List StoredEvent}
    (htarget : snapshotTarget r streamId branch st db = .ok (.fold version events))
    (hfold : applyEvents r streamId st.bytes events = .ok state) :
    (0 ≤ u64AsI64 version ∧ u64AsI64 version < MAX_ROWS) ∧
      CheckpointOn R db streamId branch r.key (u64AsI64 version) state := by
  have hrows : (MAX_ROWS : ℤ) ≤ i64Max := by decide
  have hmax : db.maxVersion streamId branch < MAX_ROWS := hdb.maxVersion_lt
  rcases @snapshotTarget_cases db streamId branch r st with ⟨last, hlast, heq⟩ | ⟨info, heq⟩ | heq
  all_goals rw [heq] at htarget
  · obtain ⟨rfl, rfl⟩ := SnapshotTarget.fold.inj (Except.ok.inj htarget)
    -- the version is that of the last row of the history
    obtain ⟨row, hrow, rfl⟩ : ∃ row, (after EventRow.version (u64AsI64 st.start - 1)
        (db.rowsOn streamId branch)).getLast? = some row ∧ rowToEvent row = last := by
      rw [replayEvents_eq hdb.toFits, upTo_all hdb.sane, List.getLast?_map] at hlast
      exact Option.map_eq_some_iff.mp hlast
    have hmem : row ∈ db.rowsOn streamId branch :=
      List.mem_of_mem_filter (List.mem_of_getLast? hrow)
    obtain ⟨h0, h63⟩ := hdb.sane.range row (mem_rowsOn.mp hmem).1
    have hversion : u64AsI64 (rowToEvent row).version = row.version :=
      u64AsI64_i64AsU64 h0 h63
    have hstop : u64AsI64 st.start - 1 ≤ stopAt none := by
      refine h.high.trans ?_
      show db.maxVersion streamId branch ≤ i64Max
      omega
    have hwhole : replay (rowStep r streamId) r.initialStateBytes (db.rowsOn streamId branch) =
        .ok state := by
      rw [← foldEvents_map, ← hfold, resume_eq_fold hdb.toFits hr h hstop,
        historyUpTo_all hdb.sane, history]
    have hle : row.version ≤ db.maxVersion streamId branch := le_of_mem_rowsOn hmem
    rw [hversion]
    refine ⟨⟨h0, by omega⟩, by omega, hle, fun r' hr' hkey => ?_⟩
    rw [hR.rowStep hr' hr hkey, (hR r' r hr' hr hkey).1]
    exact covers_last hwhole (le_of_last_after rowsOn_sorted hrow)
  · exact absurd htarget (by simp)
  · exact absurd htarget (by simp)

/-- **A failed snapshot**: there was nothing to do, or the fold itself fails. -/
theorem takeSnapshot_error (hR : SameMeaning R) {reducers : List ReducerEntry}
    (hreg : ∀ r, getReducer reducers streamId = .ok r → R r) (hdb : db.Fits)
    (hsound : SnapshotsSound R db)
    {now : Int64} {e : Error} (h : takeSnapshot reducers db streamId branch now = .error e) :
    (∃ a b, e = .noEventsToSnapshot a b) ∨ currentState reducers db streamId branch = .error e := by
  have hnone : -1 ≤ stopAt none := by decide
  rw [takeSnapshot] at h
  rw [currentState]
  cases hreducer : getReducer reducers streamId with
  | error e' =>
    rw [hreducer] at h
    obtain rfl : e' = e := Except.error.inj h
    exact .inr rfl
  | ok r =>
    rw [hreducer] at h
    have hr : R r := hreg r hreducer
    show _ ∨ foldEvents r streamId _ = _
    cases hst : replayStart r streamId branch none db with
    | error e' =>
      simp only [hst, bind, Except.bind] at h
      obtain rfl : e' = e := Except.error.inj h
      rw [foldEvents, replayStart_error hst]
      exact .inr rfl
    | ok st =>
      -- a sound snapshot makes the replay from it the fold over the whole history
      obtain ⟨hcheckpoint, hle⟩ := replayStart_checkpoint hR hr hdb hsound hnone hst
      have hresume := resume_eq_fold hdb hr hcheckpoint hle
      rw [historyUpTo_all hdb.sane] at hresume
      rw [← hresume]
      rcases @snapshotTarget_cases db streamId branch r st with ⟨last, -, heq⟩ | ⟨info, heq⟩ | heq
      all_goals simp only [hst, heq, bind, Except.bind] at h
      · cases hfold : applyEvents r streamId st.bytes
            (replayEvents streamId branch st.start none db) with
        | ok state =>
          simp only [hfold] at h
          exact absurd h (by simp)
        | error e' =>
          simp only [hfold] at h
          exact .inr (congrArg _ (Except.error.inj h))
      · exact absurd h (by simp)
      · exact .inl ⟨_, _, (Except.error.inj h).symm⟩

end Fossic
