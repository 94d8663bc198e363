/-
The events that a read replays.

A replay starts above the latest snapshot, so what it folds is the tail of the history above
all matching snapshots.  Under `EveryNEvents(n)` a read that leaves its tail alone has applied
fewer than `n` events, since its counter is at least their number.

* `computeStateBytes_tail` — what a replay folds is the tail;
* `takeSnapshot_tail` — a snapshot leaves no tail;
* `readStateBytes_tail` — one read with a counter below `n`;
* `replay_tail_bounded` — every read of a run.
-/
import Fossic.SnapshotCounters

namespace Fossic

open KeySort KeyedList Checkpoint Transition

/-! ### The tail -/

/-- The snapshots that a replay may start from. -/
def matchingSnapshots (db : Db) (reducer : BoxedReducer) (streamId branch : String) :
    List SnapshotRow :=
  db.snapshots.filter fun sn =>
    sn.streamId = streamId && sn.branch = branch && sn.key = reducer.key

/-- The events above the latest of them. -/
def replayTail (db : Db) (reducer : BoxedReducer) (streamId branch : String) : List EventRow :=
  (db.rowsOn streamId branch).filter fun r =>
    (matchingSnapshots db reducer streamId branch).all fun sn => sn.version < r.version

/-- The tables as runs without purges keep them. -/
structure TablesBounded (db : Db) : Prop where
  counted : db.Counted
  snapshots : ∀ sn ∈ db.snapshots, 0 ≤ sn.version ∧ sn.version < MAX_ROWS

variable {d : Deps} {db db' : Db} {reducer : BoxedReducer} {streamId branch : String}

theorem mem_matchingSnapshots {sn : SnapshotRow} :
    sn ∈ matchingSnapshots db reducer streamId branch ↔
      sn ∈ db.snapshots ∧ sn.streamId = streamId ∧ sn.branch = branch ∧ sn.key = reducer.key := by
  rw [matchingSnapshots, List.mem_filter, Bool.and_eq_true, Bool.and_eq_true, decide_eq_true_iff,
    decide_eq_true_iff, decide_eq_true_iff, and_assoc]

theorem mem_replayTail {r : EventRow} : r ∈ replayTail db reducer streamId branch ↔
    r ∈ db.rowsOn streamId branch ∧
      ∀ sn ∈ matchingSnapshots db reducer streamId branch, sn.version < r.version := by
  rw [replayTail, List.mem_filter, List.all_eq_true]
  simp only [decide_eq_true_iff]

theorem replayTail_congr (hrows : db'.rowsOn streamId branch = db.rowsOn streamId branch)
    (hsnapshots : db'.snapshots = db.snapshots) :
    replayTail db' reducer streamId branch = replayTail db reducer streamId branch := by
  rw [replayTail, replayTail, matchingSnapshots, matchingSnapshots, hrows, hsnapshots]

/-! ### What a replay folds -/

theorem le_latestRow {rows : List SnapshotRow} {sn sn' : SnapshotRow}
    (h : latestRow rows = some sn) (hsn' : sn' ∈ rows) : sn'.version ≤ sn.version := by
  rw [latestRow] at h
  have hsorted := sortBy_sorted (fun sn : SnapshotRow => -sn.version) rows
  have hmem : sn' ∈ sortBy (fun sn : SnapshotRow => -sn.version) rows := mem_sortBy.mpr hsn'
  cases hrows : sortBy (fun sn : SnapshotRow => -sn.version) rows with
  | nil =>
    rw [hrows] at hmem
    exact absurd hmem List.not_mem_nil
  | cons first rest =>
    rw [hrows] at h hmem hsorted
    obtain rfl := Option.some_inj.mp h
    rcases List.mem_cons.mp hmem with rfl | hrest
    · exact le_refl _
    · have hle := (List.pairwise_cons.mp hsorted).1 sn' hrest
      omega

theorem findLatestSnapshot_matching {stateSchemaVersion : UInt32} {name : String}
    (hkey : reducer.key = (name, stateSchemaVersion)) :
    findLatestSnapshot db streamId branch name stateSchemaVersion none =
      (latestRow (matchingSnapshots db reducer streamId branch)).map fun sn =>
        (i64AsU64 sn.version, sn.stateBlob) := by
  rw [findLatestSnapshot, matchingSnapshots, hkey]
  simp only [Option.all_none, Bool.and_true]

/-- Above the start of a replay is above every matching snapshot. -/
theorem replayStart_above {st : ReplayStart} (h : TablesBounded db)
    (hstart : replayStart reducer streamId branch none db = .ok st) {v : ℤ} (hv : 0 ≤ v) :
    u64AsI64 st.start - 1 < v ↔
      ∀ sn ∈ matchingSnapshots db reducer streamId branch, sn.version < v := by
  rw [replayStart, findLatestSnapshot_matching rfl] at hstart
  cases hlatest : latestRow (matchingSnapshots db reducer streamId branch) with
  | none =>
    rw [hlatest] at hstart
    obtain ⟨bytes, -, hst⟩ := bind_eq_ok.mp hstart
    obtain rfl := Except.ok.inj hst
    have hnone : matchingSnapshots db reducer streamId branch = [] := by
      rw [latestRow, List.head?_eq_none_iff] at hlatest
      rw [← List.length_eq_zero_iff, ← length_sortBy (f := fun sn : SnapshotRow => -sn.version),
        hlatest, List.length_nil]
    rw [hnone]
    refine ⟨fun _ sn hsn => absurd hsn List.not_mem_nil, fun _ => ?_⟩
    show u64AsI64 0 - 1 < v
    have hzero : u64AsI64 0 = 0 := rfl
    omega
  | some sn =>
    rw [hlatest] at hstart
    obtain rfl := Except.ok.inj hstart
    have hmem := latestRow_mem hlatest
    obtain ⟨h0, hlt⟩ := h.snapshots sn (mem_matchingSnapshots.mp hmem).1
    have hsucc : u64AsI64 (i64AsU64 sn.version + 1) = sn.version + 1 := u64AsI64_succ h0 hlt
    show u64AsI64 (i64AsU64 sn.version + 1) - 1 < v ↔ _
    rw [hsucc]
    constructor
    · intro hgt sn' hsn'
      have hle := le_latestRow hlatest hsn'
      omega
    · intro hall
      have hgt := hall sn hmem
      omega

theorem replayEvents_tail {st : ReplayStart} (h : TablesBounded db)
    (hstart : replayStart reducer streamId branch none db = .ok st) :
    replayEvents streamId branch st.start none db
      = (replayTail db reducer streamId branch).map rowToEvent := by
  rw [replayEvents_eq h.counted.toFits, upTo_all h.counted.sane, after, replayTail]
  refine congrArg _ (List.filter_congr fun r hr => ?_)
  have hrange := h.counted.sane.range r (mem_rowsOn.mp hr).1
  rw [Bool.eq_iff_iff, decide_eq_true_iff, replayStart_above h hstart hrange.1, List.all_eq_true]
  simp only [decide_eq_true_iff]

/-- **A replay** folds the tail. -/
theorem computeStateBytes_tail {bytes : Bytes} {events : List StoredEvent} (h : TablesBounded db)
    (hcompute : computeStateBytes reducer streamId branch none db = .ok (bytes, events)) :
    ∃ st, replayStart reducer streamId branch none db = .ok st ∧ st.bytes = bytes ∧
      events = (replayTail db reducer streamId branch).map rowToEvent := by
  obtain ⟨st, hst, hpair⟩ := bind_eq_ok.mp hcompute
  obtain ⟨rfl, rfl⟩ := Prod.mk.inj (Except.ok.inj hpair)
  exact ⟨st, hst, rfl, replayEvents_tail h hst⟩

/-! ### Snapshots -/

/-- The last of the rows in version order has the largest version. -/
theorem le_getLast {rows : List EventRow} {last r : EventRow}
    (hsorted : rows.Pairwise fun r r' => r.version ≤ r'.version)
    (hlast : rows.getLast? = some last) (hr : r ∈ rows) : r.version ≤ last.version := by
  obtain ⟨init, rfl⟩ := List.getLast?_eq_some_iff.mp hlast
  rcases List.mem_append.mp hr with hinit | hsingle
  · exact (List.pairwise_append.mp hsorted).2.2 r hinit last (List.mem_singleton_self _)
  · rw [List.mem_singleton.mp hsingle]

/-- A snapshot at the version of the last event leaves no tail. -/
theorem replayTail_replaceSnapshot {sn : SnapshotRow} {last : EventRow}
    (hlast : (replayTail db reducer streamId branch).getLast? = some last)
    (hmatching : sn.streamId = streamId ∧ sn.branch = branch ∧ sn.key = reducer.key)
    (hversion : sn.version = last.version) :
    replayTail (db.replaceSnapshot sn) reducer streamId branch = [] := by
  refine List.eq_nil_iff_forall_not_mem.mpr fun r hr => ?_
  obtain ⟨hrow, habove⟩ := mem_replayTail.mp hr
  have hrow : r ∈ db.rowsOn streamId branch := hrow
  have hnew := habove sn (mem_matchingSnapshots.mpr
    ⟨List.mem_append_right _ (List.mem_singleton_self _), hmatching⟩)
  -- the row was above the snapshots of before as well, since the last event was
  have hold : r ∈ replayTail db reducer streamId branch := by
    refine mem_replayTail.mpr ⟨hrow, fun sn' hsn' => ?_⟩
    have hbelow := (mem_replayTail.mp (List.mem_of_getLast? hlast)).2 sn' hsn'
    omega
  have hle := le_getLast (rowsOn_sorted.filter _) hlast hold
  omega

/-- **A snapshot** leaves no tail of its stream and branch, and no event goes. -/
theorem takeSnapshot_tail {reducers : List ReducerEntry} {now : Int64} {info : SnapshotInfo}
    (h : TablesBounded db) (hreducer : getReducer reducers streamId = .ok reducer)
    (htake : takeSnapshot reducers db streamId branch now = .ok (info, db')) :
    db'.events = db.events ∧ TablesBounded db' ∧
      replayTail db' reducer streamId branch = [] := by
  rw [takeSnapshot] at htake
  obtain ⟨r, hr, htake⟩ := bind_eq_ok.mp htake
  obtain rfl : reducer = r := Except.ok.inj (hreducer.symm.trans hr)
  obtain ⟨st, hst, htake⟩ := bind_eq_ok.mp htake
  obtain ⟨target, htarget, htake⟩ := bind_eq_ok.mp htake
  simp only [snapshotTarget, replayEvents_tail h hst, List.getLast?_map] at htarget
  cases hlast : (replayTail db reducer streamId branch).getLast? with
  | none =>
    rw [hlast] at htarget
    have hnil := List.getLast?_eq_none_iff.mp hlast
    dsimp only [Option.map_none] at htarget
    split at htarget
    · split at htarget
      · obtain rfl := Except.ok.inj htarget
        obtain ⟨-, rfl⟩ := Prod.mk.inj (Except.ok.inj htake)
        exact ⟨rfl, h, hnil⟩
      · exact absurd htarget (by simp)
    · exact absurd htarget (by simp)
  | some last =>
    rw [hlast] at htarget
    obtain rfl := Except.ok.inj htarget
    obtain ⟨state, -, htake⟩ := bind_eq_ok.mp htake
    obtain ⟨-, rfl⟩ := Prod.mk.inj (Except.ok.inj htake)
    have hrow := (mem_replayTail.mp (List.mem_of_getLast? hlast)).1
    have hrange := h.counted.sane.range last (mem_rowsOn.mp hrow).1
    have hversion : u64AsI64 (rowToEvent last).version = last.version :=
      u64AsI64_i64AsU64 hrange.1 hrange.2
    have hbound : last.version < MAX_ROWS :=
      (le_of_mem_rowsOn hrow).trans_lt h.counted.maxVersion_lt
    refine ⟨rfl, ⟨@Db.Counted.congr db _ rfl h.counted, fun sn hsn => ?_⟩,
      replayTail_replaceSnapshot hlast ⟨rfl, rfl, rfl⟩ hversion⟩
    rcases mem_replaceSnapshot hsn with rfl | hold
    · exact ⟨hversion ▸ hrange.1, hversion ▸ hbound⟩
    · exact h.snapshots sn hold

/-- A snapshot that is refused without an error of the reducer had no tail to fold. -/
theorem replayTail_of_refused {reducers : List ReducerEntry} {now : Int64} {bytes state : Bytes}
    {events : List StoredEvent} {e : Error} (h : TablesBounded db)
    (hreducer : getReducer reducers streamId = .ok reducer)
    (hcompute : computeStateBytes reducer streamId branch none db = .ok (bytes, events))
    (hfold : applyEvents reducer streamId bytes events = .ok state)
    (htake : takeSnapshot reducers db streamId branch now = .error e) :
    replayTail db reducer streamId branch = [] := by
  obtain ⟨st, hst, rfl, rfl⟩ := computeStateBytes_tail h hcompute
  rw [takeSnapshot, hreducer] at htake
  simp only [bind, Except.bind, hst, snapshotTarget, replayEvents_tail h hst,
    List.getLast?_map] at htake
  cases hlast : (replayTail db reducer streamId branch).getLast? with
  | none => exact List.getLast?_eq_none_iff.mp hlast
  | some last =>
    rw [hlast] at htake
    simp only [Option.map_some, hfold] at htake
    exact absurd htake (by simp)

/-! ### One read -/

variable {s s' : StoreInner} {t : ReadClock} {snapshotUs : Int64}

theorem TablesBounded.insert (h : TablesBounded db) {row : EventRow} (hins : Insertable db row) :
    TablesBounded (db.insert row) :=
  ⟨counted_insert h.counted hins, h.snapshots⟩

/-- The emission of a read adds one row to the system stream, or none. -/
theorem asked_cases {f : FoldedRead} :
    (f.asked d s streamId branch t).reducers = s.reducers ∧
      ((f.asked d s streamId branch t).db = s.db ∨
        ∃ row, Insertable s.db row ∧ row.On SYSTEM_STREAM SYSTEM_BRANCH ∧
          (f.asked d s streamId branch t).db = s.db.insert row) := by
  rw [FoldedRead.asked]
  rcases maybeEmitStateLarge_cases d { s with stateMonitors := f.monitors } streamId branch
    t.largeUs t.emitUs with h | ⟨m, payload, -, h⟩
  · rw [h]
    exact ⟨rfl, .inl rfl⟩
  · rw [h]
    refine ⟨rfl, emit_cases.imp_right ?_⟩
    rintro ⟨row, hins, hrow, heq⟩
    exact ⟨row, hins, hrow.1, heq⟩

theorem TablesBounded.asked (h : TablesBounded s.db) {f : FoldedRead} :
    TablesBounded (f.asked d s streamId branch t).db ∧
      Extends s.db (f.asked d s streamId branch t).db ∧
      (f.asked d s streamId branch t).db.snapshots = s.db.snapshots := by
  rcases (@asked_cases d streamId branch s t f).2 with heq | ⟨row, hins, -, heq⟩
  · rw [heq]
    exact ⟨h, extends_congr rfl, rfl⟩
  · rw [heq]
    exact ⟨h.insert hins, extends_insert h.counted.sane hins, rfl⟩

theorem takeSnapshot_tables {reducers : List ReducerEntry} {now : Int64} {info : SnapshotInfo}
    (h : TablesBounded db)
    (htake : takeSnapshot reducers db streamId branch now = .ok (info, db')) :
    TablesBounded db' ∧ Extends db db' := by
  obtain ⟨r, hr, -⟩ := bind_eq_ok.mp htake
  obtain ⟨hevents, hbounded, -⟩ := takeSnapshot_tail h hr htake
  exact ⟨hbounded, extends_congr hevents⟩

/-- A read keeps the tables bounded, whether it succeeds or not. -/
theorem readStateBytes_tables (h : TablesBounded s.db) :
    TablesBounded (readStateBytes d s streamId branch t snapshotUs).2.db ∧
      Extends s.db (readStateBytes d s streamId branch t snapshotUs).2.db ∧
      (readStateBytes d s streamId branch t snapshotUs).2.reducers = s.reducers := by
  rw [readStateBytes]
  cases hf : foldedRead s streamId branch t with
  | none =>
    obtain ⟨e, monitors, hread⟩ := @readUpToSnapshot_of_none d s streamId branch t hf
    rw [hread]
    exact ⟨h, extends_congr rfl, rfl⟩
  | some f =>
    rw [readUpToSnapshot_of_some hf]
    obtain ⟨hbounded, hext, -⟩ := @TablesBounded.asked d streamId branch s t h f
    obtain ⟨hdb, hreducers⟩ := @autoSnapshotDue_frame streamId branch
      (f.asked d s streamId branch t) (UInt32.ofNat f.events.length) f.policy t.policyUs
    rw [asked_cases.1] at hreducers
    revert hdb hreducers
    rcases autoSnapshotDue (f.asked d s streamId branch t) streamId branch
      (UInt32.ofNat f.events.length) f.policy t.policyUs with ⟨_ | _, s₂⟩
    · intro hdb hreducers
      dsimp only at hdb hreducers ⊢
      rw [hdb]
      exact ⟨hbounded, hext, hreducers⟩
    · intro hdb hreducers
      dsimp only at hdb hreducers ⊢
      rw [← hdb] at hbounded hext
      cases htake : takeSnapshot s₂.reducers s₂.db streamId branch snapshotUs with
      | ok p =>
        obtain ⟨hbounded', hext'⟩ := takeSnapshot_tables hbounded htake
        exact ⟨hbounded', hext.trans hext', hreducers⟩
      | error e => cases e <;> exact ⟨hbounded, hext, hreducers⟩

/-- The history that was read, or that history with an event of the read itself. -/
theorem rowsOn_asked (h : TablesBounded s.db) {f : FoldedRead} :
    (f.asked d s streamId branch t).db.rowsOn streamId branch = s.db.rowsOn streamId branch ∨
      (streamId = SYSTEM_STREAM ∧ branch = SYSTEM_BRANCH) ∧
        ∃ row, (f.asked d s streamId branch t).db.rowsOn streamId branch
          = s.db.rowsOn streamId branch ++ [row] := by
  rcases (@asked_cases d streamId branch s t f).2 with heq | ⟨row, hins, hsystem, heq⟩
  · exact .inl (by rw [heq])
  · rw [heq, rowsOn_insert h.counted.sane hins]
    by_cases hon : row.On streamId branch
    · have hrow : [row].filter (fun r => decide (r.On streamId branch)) = [row] :=
        List.filter_cons_of_pos (decide_eq_true hon)
      rw [hrow]
      exact .inr ⟨⟨hon.1.symm.trans hsystem.1, hon.2.symm.trans hsystem.2⟩, row, rfl⟩
    · have hrow : [row].filter (fun r => decide (r.On streamId branch)) = [] :=
        List.filter_cons_of_neg fun hd => hon (of_decide_eq_true hd)
      rw [hrow, List.append_nil]
      exact .inl rfl

/-- A replay depends on the history and the snapshots. -/
theorem computeStateBytes_congr (h : db.Fits) (h' : db'.Fits)
    (hrows : db'.rowsOn streamId branch = db.rowsOn streamId branch)
    (hsnapshots : db'.snapshots = db.snapshots) :
    computeStateBytes reducer streamId branch none db'
      = computeStateBytes reducer streamId branch none db := by
  have hstart : replayStart reducer streamId branch none db'
      = replayStart reducer streamId branch none db := by
    rw [replayStart, replayStart, findLatestSnapshot, findLatestSnapshot, hsnapshots]
  rw [computeStateBytes, computeStateBytes, hstart]
  simp only [replayEvents_eq h, replayEvents_eq h', hrows]

theorem length_replayTail_concat {row : EventRow}
    (hrows : db'.rowsOn streamId branch = db.rowsOn streamId branch ++ [row])
    (hsnapshots : db'.snapshots = db.snapshots) :
    (replayTail db' reducer streamId branch).length
      ≤ (replayTail db reducer streamId branch).length + 1 := by
  rw [replayTail, replayTail, matchingSnapshots, matchingSnapshots, hrows, hsnapshots,
    List.filter_append, List.length_append]
  exact Nat.add_le_add_left (List.length_filter_le _ [row]) _

/-- The read has put an event on the stream and branch that it reads. -/
def EmittedOwn (s s' : StoreInner) (streamId branch : String) : Prop :=
  (streamId = SYSTEM_STREAM ∧ branch = SYSTEM_BRANCH) ∧
    s'.db.rowsOn streamId branch ≠ s.db.rowsOn streamId branch

/-- The in-band snapshot of the read was passed over. -/
def PassedOver (s' : StoreInner) (streamId branch : String) (snapshotUs : Int64) : Prop :=
  ∃ a b, takeSnapshot s'.reducers s'.db streamId branch snapshotUs
    = .error (.noEventsToSnapshot a b)

/-- The tail that a read under `EveryNEvents(n)` leaves. -/
def TailBounded (s s' : StoreInner) (reducer : BoxedReducer) (streamId branch : String)
    (snapshotUs : Int64) (n : ℕ) : Prop :=
  (replayTail s'.db reducer streamId branch).length < n ∨
    EmittedOwn s s' streamId branch ∧
      ((replayTail s'.db reducer streamId branch).length ≤ n ∨
        PassedOver s' streamId branch snapshotUs)

/-- The counter and the due snapshot of a read under `EveryNEvents(n)`. -/
theorem due_everyNEvents {f : FoldedRead} {n : UInt32} (hpolicy : f.policy = .everyNEvents n)
    (hfits : (counter s (streamId, branch)).toNat + f.events.length < UInt32.size) :
    (autoSnapshotDue (f.asked d s streamId branch t) streamId branch
        (UInt32.ofNat f.events.length) f.policy t.policyUs).1
      = decide (n.toNat ≤ (counter s (streamId, branch)).toNat + f.events.length) := by
  obtain ⟨hdue, -⟩ := @autoSnapshotDue_counts (f.asked d s streamId branch t) streamId branch
    (UInt32.ofNat f.events.length) f.policy t.policyUs
    ⟨(streamId, branch), f.events.length, f.policy, avgApplyCost f.monitors (streamId, branch)⟩
    (by rw [hpolicy]; rfl) rfl avgApplyCost_asked.symm
  have hevents : f.events.length < UInt32.size := by omega
  rw [counter, counters_asked] at hdue
  have hadd : ((find s.snapshotCounters (streamId, branch)).getD 0
      + UInt32.ofNat f.events.length).toNat
      = (counter s (streamId, branch)).toNat + f.events.length := by
    rw [UInt32.toNat_add, UInt32.toNat_ofNat_of_lt' hevents]
    exact Nat.mod_eq_of_lt hfits
  rw [hdue, hadd, CountedRead.fires, hpolicy]

/-- Without a snapshot the tail is what was applied, and the event of the read itself. -/
theorem tailBounded_of_not_due {f : FoldedRead} {n : ℕ} (h : TablesBounded s.db)
    (hdb : s'.db = (f.asked d s streamId branch t).db)
    (hlt : (replayTail s.db reducer streamId branch).length < n) :
    TailBounded s s' reducer streamId branch snapshotUs n := by
  obtain ⟨-, -, hsnapshots⟩ := @TablesBounded.asked d streamId branch s t h f
  rw [TailBounded, EmittedOwn, hdb]
  rcases @rowsOn_asked d streamId branch s t h f with hrows | ⟨hsystem, row, hrows⟩
  · rw [replayTail_congr hrows hsnapshots]
    exact .inl hlt
  · have hle := @length_replayTail_concat _ _ reducer streamId branch row hrows hsnapshots
    refine .inr ⟨⟨hsystem, ?_⟩, .inl (by omega)⟩
    rw [hrows]
    exact fun heq => absurd (congrArg List.length heq) (by simp)

/-- A snapshot that is passed over had nothing to fold, unless the read has put an event
there. -/
theorem tailBounded_of_passedOver {f : FoldedRead} {n : ℕ} (h : TablesBounded s.db)
    (hf : foldedRead s streamId branch t = some f)
    (hdb : s'.db = (f.asked d s streamId branch t).db) (hreducers : s'.reducers = s.reducers)
    (hn : 0 < n) (hpassed : PassedOver s' streamId branch snapshotUs) :
    TailBounded s s' f.reducer streamId branch snapshotUs n := by
  obtain ⟨hfind, hcompute, hloop⟩ := foldedRead_eq_some hf
  obtain ⟨hbounded, -, hsnapshots⟩ := @TablesBounded.asked d streamId branch s t h f
  rw [← hdb] at hbounded hsnapshots
  rcases @rowsOn_asked d streamId branch s t h f with hrows | ⟨hsystem, row, hrows⟩
  · rw [← hdb] at hrows
    obtain ⟨a, b, htake⟩ := hpassed
    have hreducer : getReducer s'.reducers streamId = .ok f.reducer := by
      rw [getReducer, findArc, hreducers, hfind]
      rfl
    have hfold : applyEvents f.reducer streamId f.start f.events = .ok f.state := by
      rw [← @readLoop_eq streamId branch f.reducer t.apply f.events 0 f.start s.stateMonitors,
        hloop]
    rw [← computeStateBytes_congr h.counted.toFits hbounded.counted.toFits hrows hsnapshots]
      at hcompute
    left
    rw [replayTail_of_refused hbounded hreducer hcompute hfold htake]
    exact hn
  · refine .inr ⟨⟨hsystem, ?_⟩, .inr hpassed⟩
    rw [hdb, hrows]
    exact fun heq => absurd (congrArg List.length heq) (by simp)

/-- **One read** from a counter below `n`. -/
theorem readStateBytes_tail {n : UInt32} {bytes : Bytes} (h : TablesBounded s.db)
    (hfind : findArcWithPolicy s.reducers streamId = some (reducer, .everyNEvents n))
    (hcounter : (counter s (streamId, branch)).toNat < n.toNat) (hn : n.toNat < 2 ^ 31)
    (hfew : (s.db.rowsOn streamId branch).length < 2 ^ 31)
    (hread : readStateBytes d s streamId branch t snapshotUs = (.ok bytes, s')) :
    TailBounded s s' reducer streamId branch snapshotUs n.toNat := by
  rw [readStateBytes] at hread
  cases hf : foldedRead s streamId branch t with
  | none =>
    obtain ⟨e, monitors, hup⟩ := @readUpToSnapshot_of_none d s streamId branch t hf
    rw [hup] at hread
    exact absurd (congrArg Prod.fst hread) (by simp)
  | some f =>
    obtain ⟨hfind', hcompute, hloop⟩ := foldedRead_eq_some hf
    obtain ⟨hreducer, hpolicy⟩ := Prod.mk.inj (Option.some_inj.mp (hfind'.symm.trans hfind))
    rw [← hreducer]
    -- the events that were applied are the tail
    have hlength : f.events.length = (replayTail s.db f.reducer streamId branch).length := by
      obtain ⟨-, -, -, hevents⟩ := computeStateBytes_tail h hcompute
      rw [hevents, List.length_map]
    have hle : (replayTail s.db f.reducer streamId branch).length
        ≤ (s.db.rowsOn streamId branch).length := List.length_filter_le _ _
    have hsize : UInt32.size = 2 ^ 32 := rfl
    have hdue := @due_everyNEvents d streamId branch s t f n hpolicy (by omega)
    obtain ⟨hdb, hreducers⟩ := @autoSnapshotDue_frame streamId branch
      (f.asked d s streamId branch t) (UInt32.ofNat f.events.length) f.policy t.policyUs
    obtain ⟨hbounded, -, -⟩ := @TablesBounded.asked d streamId branch s t h f
    rw [asked_cases.1] at hreducers
    rw [readUpToSnapshot_of_some hf] at hread
    revert hdue hdb hreducers hread
    rcases autoSnapshotDue (f.asked d s streamId branch t) streamId branch
      (UInt32.ofNat f.events.length) f.policy t.policyUs with ⟨_ | _, s₂⟩
    · intro hread hdue hdb hreducers
      obtain ⟨-, rfl⟩ := Prod.mk.inj hread
      have hlow := of_decide_eq_false hdue.symm
      exact tailBounded_of_not_due h hdb (by omega)
    · intro hread hdue hdb hreducers
      have hpos : 0 < n.toNat := by omega
      dsimp only at hread hdb hreducers
      cases htake : takeSnapshot s₂.reducers s₂.db streamId branch snapshotUs with
      | ok p =>
        rw [htake] at hread
        obtain ⟨-, rfl⟩ := Prod.mk.inj hread
        have hreducer' : getReducer s₂.reducers streamId = .ok f.reducer := by
          rw [getReducer, findArc, hreducers, hfind']
          rfl
        rw [← hdb] at hbounded
        left
        show (replayTail p.2 f.reducer streamId branch).length < n.toNat
        rw [(takeSnapshot_tail hbounded hreducer' htake).2.2]
        exact hpos
      | error e =>
        rw [htake] at hread
        cases e with
        | noEventsToSnapshot a b =>
          obtain ⟨-, rfl⟩ := Prod.mk.inj hread
          exact tailBounded_of_passedOver h hf hdb hreducers hpos ⟨a, b, htake⟩
        | _ => exact absurd (congrArg Prod.fst hread) (by simp)

/-- Under `EveryNEvents(n)` the counter comes out below `n` again. -/
theorem counter_read_lt {n : UInt32} (h : TablesBounded s.db)
    (hfind : findArcWithPolicy s.reducers streamId = some (reducer, .everyNEvents n))
    (hcounter : (counter s (streamId, branch)).toNat < n.toNat) (hn : n.toNat < 2 ^ 31)
    (hfew : (s.db.rowsOn streamId branch).length < 2 ^ 31) :
    (counter (readStateBytes d s streamId branch t snapshotUs).2 (streamId, branch)).toNat
      < n.toNat := by
  cases hcounted : countedRead s streamId branch t with
  | none =>
    rw [counter_read_of_none hcounted]
    exact hcounter
  | some r =>
    obtain ⟨f, hf, hr⟩ := Option.bind_eq_some_iff.mp hcounted
    obtain ⟨hfind', hcompute, -⟩ := foldedRead_eq_some hf
    obtain ⟨rfl, hpolicy⟩ := Prod.mk.inj (Option.some_inj.mp (hfind'.symm.trans hfind))
    split at hr
    · obtain rfl := Option.some_inj.mp hr
      have hlength : f.events.length ≤ (s.db.rowsOn streamId branch).length := by
        obtain ⟨-, -, -, hevents⟩ := computeStateBytes_tail h hcompute
        rw [hevents, List.length_map]
        exact List.length_filter_le _ _
      have hsize : UInt32.size = 2 ^ 32 := rfl
      have hfits : (counter s (streamId, branch)).toNat + f.events.length < UInt32.size := by
        omega
      rw [counter_read hcounted hfits, if_pos rfl, CountedRead.after, CountedRead.fires, hpolicy]
      dsimp only
      split
      · omega
      · rename_i hlow
        rw [decide_eq_true_iff] at hlow
        omega
    · exact absurd hr (by simp)

/-! ### Runs -/

/-- The calls on a store, one after another; it can be closed and opened again with the same
reducers. -/
inductive TailAction
  | store (op : StoreOp)
  | takeSnapshot (streamId branch : String) (now : Int64)
  | collect
  | reopen (thresholdBytes : UInt64) (now : Int64)
  | read (streamId branch : String) (t : ReadClock) (snapshotUs : Int64)

/-- Without purges. -/
def tailStep (d : Deps) (s : StoreInner) : TailAction → Option StoreInner
  | .store op => if op.isPurge then none else some { s with db := exec d s.db op }
  | .takeSnapshot streamId branch now =>
    match takeSnapshot s.reducers s.db streamId branch now with
    | .ok (_, db) => some { s with db := db }
    | .error _ => some s
  | .collect => some { s with db := (gcOrphanedSnapshotsImpl s.db (activeKeys s.reducers)).2 }
  | .reopen thresholdBytes now =>
    some { StoreInner.opened s.db thresholdBytes now with reducers := s.reducers }
  | .read streamId branch t snapshotUs => some (readStateBytes d s streamId branch t snapshotUs).2

/-- A fresh file, opened, with the reducers registered. -/
def tailStart (thresholdBytes : UInt64) (now : Int64) (reducers : List ReducerEntry) :
    StoreInner :=
  { StoreInner.opened (.bootstrap now) thresholdBytes now with reducers := reducers }

variable {as : List TailAction} {a : TailAction}

/-- **One call** keeps the tables bounded and the histories, and the reducers. -/
theorem tailStep_tables (h : TablesBounded s.db) (hstep : tailStep d s a = some s') :
    TablesBounded s'.db ∧ Extends s.db s'.db ∧ s'.reducers = s.reducers := by
  cases a with
  | store op =>
    rw [tailStep] at hstep
    split at hstep
    · exact absurd hstep (by simp)
    · rename_i hpurge
      obtain rfl := Option.some_inj.mp hstep
      obtain ⟨db₁, rows, hevents, hsnapshots, hgrows, -⟩ :=
        @exec_grows d s.db op (Bool.not_eq_true _ ▸ hpurge)
      have hcounted := h.counted.congr hevents
      refine ⟨⟨hcounted.grows hgrows, ?_⟩,
        (extends_congr hevents).trans (extends_grows hgrows hcounted.sane), rfl⟩
      rw [hgrows.eq]
      exact hsnapshots ▸ h.snapshots
  | takeSnapshot streamId branch now =>
    rw [tailStep] at hstep
    split at hstep
    · rename_i info db htake
      obtain rfl := Option.some_inj.mp hstep
      obtain ⟨hbounded, hext⟩ := takeSnapshot_tables h htake
      exact ⟨hbounded, hext, rfl⟩
    · obtain rfl := Option.some_inj.mp hstep
      exact ⟨h, extends_congr rfl, rfl⟩
  | collect =>
    obtain rfl := Option.some_inj.mp hstep
    obtain ⟨hevents, hmem⟩ := @gcOrphanedSnapshotsImpl_spec s.db (activeKeys s.reducers)
    exact ⟨⟨h.counted.congr hevents, fun sn hsn => h.snapshots sn ((hmem sn).mp hsn).1⟩,
      extends_congr hevents, rfl⟩
  | reopen thresholdBytes now =>
    obtain rfl := Option.some_inj.mp hstep
    exact ⟨h, extends_congr rfl, rfl⟩
  | read streamId branch t snapshotUs =>
    obtain rfl := Option.some_inj.mp hstep
    exact readStateBytes_tables h

/-- **A run** does. -/
theorem tailRun_tables (h : TablesBounded s.db) (hrun : run (tailStep d) s as = some s') :
    TablesBounded s'.db ∧ Extends s.db s'.db ∧ s'.reducers = s.reducers := by
  refine run_invariant_all (I := fun s₁ : StoreInner => TablesBounded s₁.db ∧
    Extends s.db s₁.db ∧ s₁.reducers = s.reducers) (fun s₁ a s₂ h₁ hstep => ?_)
    ⟨h, extends_congr rfl, rfl⟩ hrun
  obtain ⟨hbounded, hext, hreducers⟩ := tailStep_tables h₁.1 hstep
  exact ⟨hbounded, h₁.2.1.trans hext, hreducers.trans h₁.2.2⟩

/-- One call keeps the counter below `n`. -/
theorem tailStep_counter {n : UInt32} (h : TablesBounded s.db)
    (hfind : findArcWithPolicy s.reducers streamId = some (reducer, .everyNEvents n))
    (hn : n.toNat < 2 ^ 31) (hfew : (s.db.rowsOn streamId branch).length < 2 ^ 31)
    (hcounter : (counter s (streamId, branch)).toNat < n.toNat)
    (hstep : tailStep d s a = some s') : (counter s' (streamId, branch)).toNat < n.toNat := by
  cases a with
  | store op =>
    rw [tailStep] at hstep
    split at hstep
    · exact absurd hstep (by simp)
    · obtain rfl := Option.some_inj.mp hstep
      exact hcounter
  | takeSnapshot streamId branch now =>
    rw [tailStep] at hstep
    split at hstep <;> obtain rfl := Option.some_inj.mp hstep
    · exact hcounter
    · exact hcounter
  | collect =>
    obtain rfl := Option.some_inj.mp hstep
    exact hcounter
  | reopen thresholdBytes now =>
    obtain rfl := Option.some_inj.mp hstep
    exact (Nat.zero_le _).trans_lt hcounter
  | read otherStream otherBranch t snapshotUs =>
    obtain rfl := Option.some_inj.mp hstep
    by_cases hkey : (otherStream, otherBranch) = (streamId, branch)
    · obtain ⟨rfl, rfl⟩ := Prod.mk.inj hkey
      exact counter_read_lt h hfind hcounter hn hfew
    · rw [counter_read_of_ne hkey]
      exact hcounter

theorem Extends.length_le (h : Extends db db') :
    (db.rowsOn streamId branch).length ≤ (db'.rowsOn streamId branch).length := by
  obtain ⟨new, hnew, -⟩ := h.rowsOn streamId branch
  rw [hnew, List.length_append]
  omega

/-- A run that ends with fewer than `2^31` events keeps the counter below `n`. -/
theorem tailRun_counter {n : UInt32} (h : TablesBounded s.db)
    (hfind : findArcWithPolicy s.reducers streamId = some (reducer, .everyNEvents n))
    (hn : n.toNat < 2 ^ 31) (hcounter : (counter s (streamId, branch)).toNat < n.toNat)
    (hrun : run (tailStep d) s as = some s')
    (hfew : (s'.db.rowsOn streamId branch).length < 2 ^ 31) :
    (counter s' (streamId, branch)).toNat < n.toNat := by
  induction as generalizing s with
  | nil => exact Option.some_inj.mp hrun ▸ hcounter
  | cons a as ih =>
    obtain ⟨s₁, hstep, hrest⟩ := run_cons.mp hrun
    obtain ⟨hbounded, hext, hreducers⟩ := tailStep_tables h hstep
    have hle := @Extends.length_le s.db s'.db streamId branch
      (hext.trans (tailRun_tables hbounded hrest).2.1)
    refine ih hbounded (hreducers ▸ hfind) ?_ hrest
    exact tailStep_counter h hfind hn (by omega) hcounter hstep

theorem bootstrap_bounded (now : Int64) : TablesBounded (Db.bootstrap now) :=
  ⟨bootstrap_counted now, fun _ hsn => absurd hsn List.not_mem_nil⟩

/-- **The replay tail**: in every run without purges, after a successful read of a stream and
branch whose reducer has the policy `EveryNEvents(n)`, fewer than `n` of its events are above
its latest matching snapshot, and these are what the next read replays.  A read of the system
stream can put one more there itself. -/
theorem replay_tail_bounded (d : Deps) (thresholdBytes : UInt64) (now : Int64)
    (reducers : List ReducerEntry) (as : List TailAction) (s s' : StoreInner)
    (streamId branch : String) (reducer : BoxedReducer) (n : UInt32) (t : ReadClock)
    (snapshotUs : Int64) (bytes : Bytes)
    (hfind : findArcWithPolicy reducers streamId = some (reducer, .everyNEvents n))
    (hpos : 1 ≤ n.toNat) (hn : n.toNat < 2 ^ 31)
    (hrun : run (tailStep d) (tailStart thresholdBytes now reducers) as = some s)
    (hfew : (s.db.rowsOn streamId branch).length < 2 ^ 31)
    (hread : readStateBytes d s streamId branch t snapshotUs = (.ok bytes, s')) :
    TailBounded s s' reducer streamId branch snapshotUs n.toNat ∧
      ∀ start events, computeStateBytes reducer streamId branch none s'.db = .ok (start, events) →
        events = (replayTail s'.db reducer streamId branch).map rowToEvent := by
  have hstart : TablesBounded (tailStart thresholdBytes now reducers).db := bootstrap_bounded now
  obtain ⟨hbounded, -, hreducers⟩ := tailRun_tables hstart hrun
  have hcounter := tailRun_counter hstart hfind hn hpos hrun hfew
  refine ⟨readStateBytes_tail hbounded (hreducers ▸ hfind) hcounter hn hfew hread, ?_⟩
  intro start events hcompute
  have hafter := @readStateBytes_tables d streamId branch s t snapshotUs hbounded
  rw [hread] at hafter
  obtain ⟨-, -, -, hevents⟩ := computeStateBytes_tail hafter.1 hcompute
  exact hevents

/-- One event, read under `EveryNEvents(1)`. -/
theorem replay_tail_bounded_one : ∃ s s',
    run (tailStep plainDeps) (tailStart USIZE_MAX 0
      [⟨"**", specificityScore "**", probeReducer [], .everyNEvents 1⟩])
      [.store (.declareStream "s" "t" none 0), .store (appendNull "a")] = some s ∧
    readStateBytes plainDeps s "s" "main" stoppedClock 0 = (.ok [0], s') ∧
    TailBounded s s' (probeReducer []) "s" "main" 0 1 := by
  have hruns : ∃ s s', run (tailStep plainDeps) (tailStart USIZE_MAX 0
      [⟨"**", specificityScore "**", probeReducer [], .everyNEvents 1⟩])
      [.store (.declareStream "s" "t" none 0), .store (appendNull "a")] = some s ∧
      (s.db.rowsOn "s" "main").length = 1 ∧
      readStateBytes plainDeps s "s" "main" stoppedClock 0 = (.ok [0], s') :=
    ⟨_, _, rfl, by decide, rfl⟩
  obtain ⟨s, s', hrun, hone, hread⟩ := hruns
  exact ⟨s, s', hrun, hread, (replay_tail_bounded plainDeps USIZE_MAX 0 _ _ s s' "s" "main"
    (probeReducer []) 1 stoppedClock 0 [0] findArcWithPolicy_dstar (by decide) (by decide) hrun
    (by omega) hread).1⟩

/-- A clock on which an emission is due. -/
def emittingClock : ReadClock := ⟨fun _ => (0, 0), EMISSION_INTERVAL_US, 0, 0⟩

/-- The read of the system stream counts one event and leaves two. -/
theorem system_tail_unbounded : ¬∀ (d : Deps) (thresholdBytes : UInt64) (now : Int64)
    (reducers : List ReducerEntry) (as : List TailAction) (s s' : StoreInner)
    (streamId branch : String) (reducer : BoxedReducer) (n : UInt32) (t : ReadClock)
    (snapshotUs : Int64) (bytes : Bytes),
    findArcWithPolicy reducers streamId = some (reducer, .everyNEvents n) →
    1 ≤ n.toNat → n.toNat < 2 ^ 31 →
    run (tailStep d) (tailStart thresholdBytes now reducers) as = some s →
    (s.db.rowsOn streamId branch).length < 2 ^ 31 →
    readStateBytes d s streamId branch t snapshotUs = (.ok bytes, s') →
    (replayTail s'.db reducer streamId branch).length < n.toNat := by
  intro h
  have hruns : ∃ s s' bytes, run (tailStep flatDeps) (tailStart 0 0
      [⟨"**", specificityScore "**", probeReducer [], .everyNEvents 2⟩])
      [.store (.write [] (.append { streamId := SYSTEM_STREAM, eventType := "a", payload := .null })
        fun _ => 0)] = some s ∧
      (s.db.rowsOn SYSTEM_STREAM "main").length = 1 ∧
      readStateBytes flatDeps s SYSTEM_STREAM "main" emittingClock 0 = (.ok bytes, s') ∧
      (replayTail s'.db (probeReducer []) SYSTEM_STREAM "main").length = 2 :=
    ⟨_, _, _, rfl, by decide, rfl, by decide⟩
  obtain ⟨s, s', bytes, hrun, hone, hread, htwo⟩ := hruns
  have hlt := h flatDeps 0 0 _ _ s s' SYSTEM_STREAM "main" (probeReducer []) 2 emittingClock 0 bytes
    findArcWithPolicy_dstar (by decide) (by decide) hrun (by omega) hread
  rw [htwo] at hlt
  exact absurd hlt (by decide)

end Fossic
