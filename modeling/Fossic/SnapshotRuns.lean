/-
Runs of a store with snapshots, and what reads return in them.

Any number of callers take snapshots, read, append, collect orphaned snapshots
and register reducers; the store is closed and opened again.  A snapshot goes to
the database three times (lookup, range read, write), and anything may take place
in between; so does the snapshot that a read takes in-band, and the one that
`bg_take_snapshot` takes on the background executor.

* `taskStep_sound` — one step of a caller keeps every snapshot, stored or under
  way, a checkpoint;
* `snapshotInv_run` — so does a run;
* `read_across_commits` — a read is right also when commits fall between its
  lookup and its range read;
* `snapshots_transparent` — reads return what the fold over all events returns.
-/
import Fossic.SnapshotCache

namespace Fossic

open Checkpoint KeyedList Transition Function

/-! ### Callers -/

/-- A call of `take_snapshot` or `bg_take_snapshot`, or of
`gc_orphaned_snapshots`, between two of its steps. -/
inductive SnapshotTask
  | idle
  | called (reducer : BoxedReducer) (streamId branch : String) (background : Bool)
  | lookedUp (reducer : BoxedReducer) (streamId branch : String) (background : Bool)
      (st : ReplayStart)
  | folded (reducer : BoxedReducer) (streamId branch : String) (background : Bool)
      (version : UInt64) (state : Bytes)
  | collecting (active : List (String × UInt32))

inductive TaskAction
  | takeSnapshot (streamId branch : String)
  | runScheduled (streamId branch : String)
  | readState (streamId branch : String) (clock : ReadClock)
  | lookup
  | fold
  | write (now : Int64)
  | collect
  | delete

/-- `get_reducer`; a call that finds none returns at once. -/
def beginSnapshot (s : StoreInner) (streamId branch : String) (background : Bool) : SnapshotTask :=
  match getReducer s.reducers streamId with
  | .ok reducer => .called reducer streamId branch background
  | .error _ => .idle

/-- What remains of a full read is its in-band snapshot. -/
def afterRead (s : StoreInner) (streamId branch : String) :
    Except Error (Bytes × Bool) → SnapshotTask
  | .ok (_, true) => beginSnapshot s streamId branch false
  | _ => .idle

/-- `last_snapshot_us` is updated by background snapshots only. -/
def recordSnapshot (s : StoreInner) (streamId branch : String) (background : Bool)
    (now : Int64) : StoreInner :=
  if background then { s with lastSnapshotUs := upsert s.lastSnapshotUs (streamId, branch) now }
  else s

/-- The next step of a caller; on an error the call returns. -/
def taskStep (d : Deps) (s : StoreInner) :
    SnapshotTask → TaskAction → Option (StoreInner × SnapshotTask)
  | .idle, .takeSnapshot streamId branch => some (s, beginSnapshot s streamId branch false)
  | .idle, .runScheduled streamId branch =>
    if (streamId, branch) ∈ s.backlog then
      some ({ s with backlog := s.backlog.erase (streamId, branch) },
        beginSnapshot s streamId branch true)
    else none
  | .idle, .readState streamId branch clock =>
    let (result, s') := readUpToSnapshot d s streamId branch clock
    some (s', afterRead s' streamId branch result)
  | .idle, .collect => some (s, .collecting (activeKeys s.reducers))
  | .called reducer streamId branch background, .lookup =>
    match replayStart reducer streamId branch none s.db with
    | .ok st => some (s, .lookedUp reducer streamId branch background st)
    | .error _ => some (s, .idle)
  | .lookedUp reducer streamId branch background st, .fold =>
    match snapshotTarget reducer streamId branch st s.db with
    | .ok (.fold version events) =>
      match applyEvents reducer streamId st.bytes events with
      | .ok state => some (s, .folded reducer streamId branch background version state)
      | .error _ => some (s, .idle)
    | _ => some (s, .idle)
  | .folded reducer streamId branch background version state, .write now =>
    let db := (writeSnapshot s.db streamId branch version reducer.name reducer.version
      reducer.stateSchemaVersion state now).2
    some (recordSnapshot { s with db := db } streamId branch background now, .idle)
  | .collecting active, .delete =>
    some ({ s with db := (gcOrphanedSnapshotsImpl s.db active).2 }, .idle)
  | _, _ => none

/-- A task that outlives the store it was started on no longer sees its maps. -/
def SnapshotTask.detach : SnapshotTask → SnapshotTask
  | called reducer streamId branch _ => called reducer streamId branch false
  | lookedUp reducer streamId branch _ st => lookedUp reducer streamId branch false st
  | folded reducer streamId branch _ version state =>
    folded reducer streamId branch false version state
  | task => task

/-! ### Runs -/

structure SnapshotWorld where
  store : StoreInner
  tasks : ℕ → SnapshotTask

/-- A fresh file has just been opened. -/
def SnapshotWorld.init (thresholdBytes : UInt64) (now : Int64) : SnapshotWorld where
  store := .opened (.bootstrap now) thresholdBytes now
  tasks _ := .idle

inductive SnapshotAction
  | store (op : StoreOp)
  | register (pattern : String) (reducer : BoxedReducer) (policy : SnapshotPolicy)
  | reopen (thresholdBytes : UInt64) (now : Int64)
  | task (w : ℕ) (a : TaskAction)

def snapshotStep (d : Deps) (s : SnapshotWorld) : SnapshotAction → Option SnapshotWorld
  | .store op =>
    if op.isPurge then none else some { s with store := { s.store with db := exec d s.store.db op } }
  | .register pattern reducer policy =>
    match registerWithPolicy s.store.reducers pattern reducer policy with
    | .ok entries => some { s with store := { s.store with reducers := entries } }
    | .error _ => some s
  | .reopen thresholdBytes now =>
    some ⟨.opened s.store.db thresholdBytes now, fun w => (s.tasks w).detach⟩
  | .task w a =>
    (taskStep d s.store (s.tasks w) a).map fun p => ⟨p.1, update s.tasks w p.2⟩

/-- The reducers that a run registers, or tries to. -/
def Registered (as : List SnapshotAction) (reducer : BoxedReducer) : Prop :=
  ∃ pattern policy, .register pattern reducer policy ∈ as

/-! ### The invariant -/

variable {d : Deps} {R : BoxedReducer → Prop} {db db' : Db} {streamId branch : String}

/-- What a caller holds is a checkpoint. -/
def TaskSound (R : BoxedReducer → Prop) (db : Db) : SnapshotTask → Prop
  | .idle => True
  | .called reducer _ _ _ => R reducer
  | .lookedUp reducer streamId branch _ st => R reducer ∧
      CheckpointOn R db streamId branch reducer.key (u64AsI64 st.start - 1) st.bytes
  | .folded reducer streamId branch _ version state =>
      (0 ≤ u64AsI64 version ∧ u64AsI64 version < MAX_ROWS) ∧
        CheckpointOn R db streamId branch reducer.key (u64AsI64 version) state
  | .collecting _ => True

structure TablesSound (R : BoxedReducer → Prop) (db : Db) : Prop where
  fits : db.Fits
  snapshots : SnapshotsSound R db

structure StoreSound (R : BoxedReducer → Prop) (s : StoreInner) : Prop where
  tables : TablesSound R s.db
  registered : ∀ e ∈ s.reducers, R e.reducer

theorem TaskSound.extend {task : SnapshotTask} (h : TaskSound R db task) (hext : Extends db db') :
    TaskSound R db' task := by
  cases task with
  | idle => trivial
  | called => exact h
  | lookedUp => exact ⟨h.1, h.2.extend hext⟩
  | folded => exact ⟨h.1, h.2.extend hext⟩
  | collecting => trivial

theorem TaskSound.detach {task : SnapshotTask} (h : TaskSound R db task) :
    TaskSound R db task.detach := by
  cases task <;> exact h

/-- Growth keeps the tables sound and extends the histories. -/
theorem TablesSound.grows (h : TablesSound R db) {P : EventRow → Prop} {db₁ : Db}
    {rows : List EventRow} (hevents : db₁.events = db.events)
    (hsnapshots : db₁.snapshots = db.snapshots) (hgrows : Grows P db₁ rows db') :
    TablesSound R db' ∧ Extends db db' := by
  have hfits : db₁.Fits := h.fits.congr hevents
  have hext : Extends db db' := (extends_congr hevents).trans (extends_grows hgrows hfits.sane)
  have hsame : db'.snapshots = db.snapshots := by
    rw [hgrows.eq]
    exact hsnapshots
  refine ⟨⟨hfits.grows hgrows, h.snapshots.extend hext ?_⟩, hext⟩
  rw [hsame]
  exact fun _ hsn => hsn

/-- A statement on the snapshots alone keeps the tables sound when the rows that
are left or added are. -/
theorem TablesSound.snapshotsOnly (h : TablesSound R db) (hevents : db'.events = db.events)
    (hsound : ∀ sn ∈ db'.snapshots,
      sn ∈ db.snapshots ∨ (0 ≤ sn.version ∧ sn.version < MAX_ROWS) ∧
        CheckpointOn R db sn.streamId sn.branch sn.key sn.version sn.stateBlob) :
    TablesSound R db' ∧ Extends db db' := by
  have hext : Extends db db' := extends_congr hevents
  refine ⟨⟨h.fits.congr hevents, fun sn hsn => ?_⟩, hext⟩
  rcases hsound sn hsn with hold | ⟨h0, hcheckpoint⟩
  · exact ⟨(h.snapshots sn hold).1, (h.snapshots sn hold).2.extend hext⟩
  · exact ⟨h0, hcheckpoint.extend hext⟩

theorem StoreSound.getReducer {s : StoreInner} (h : StoreSound R s) {r : BoxedReducer}
    (hr : getReducer s.reducers streamId = .ok r) : R r := by
  obtain ⟨policy, hfind⟩ := getReducer_eq_ok hr
  obtain ⟨entry, hentry, -, rfl, -⟩ := findArcWithPolicy_mem hfind
  exact h.registered entry hentry

/-! ### Steps of a read -/

theorem autoSnapshotDue_frame {s : StoreInner} {eventsApplied : UInt32} {policy : SnapshotPolicy}
    {now : Int64} :
    (autoSnapshotDue s streamId branch eventsApplied policy now).2.db = s.db ∧
      (autoSnapshotDue s streamId branch eventsApplied policy now).2.reducers = s.reducers := by
  rw [autoSnapshotDue.eq_def]
  dsimp only
  split
  · split <;> exact ⟨rfl, rfl⟩
  · split
    · exact ⟨rfl, rfl⟩
    · split <;> exact ⟨rfl, rfl⟩
  · split <;> exact ⟨rfl, rfl⟩
  · exact ⟨rfl, rfl⟩

theorem maybeEmitStateLarge_frame {s : StoreInner} {now emitUs : Int64} :
    (∃ rows, Grows (SystemRow d) s.db rows
      (maybeEmitStateLarge d s streamId branch now emitUs).db) ∧
      (maybeEmitStateLarge d s streamId branch now emitUs).reducers = s.reducers := by
  rcases maybeEmitStateLarge_cases d s streamId branch now emitUs with h | ⟨m, payload, -, h⟩
  · rw [h]
    exact ⟨⟨[], .refl _⟩, rfl⟩
  · rw [h]
    exact ⟨emit_grows, rfl⟩

theorem readLoop_eq {r : BoxedReducer} {clock : ℕ → Int64 × Int64} {events : List StoredEvent}
    {i : ℕ} {state : Bytes} {monitors : StateMonitors} :
    (readLoop r streamId branch clock events i state monitors).1 =
      applyEvents r streamId state events := by
  induction events generalizing i state monitors with
  | nil => rfl
  | cons event events ih =>
    rw [readLoop, applyEvents, List.foldlM_cons]
    cases applyReducerGuarded r streamId state event with
    | error e => rfl
    | ok state' => exact ih

/-- **A full read up to its in-band snapshot** returns the fold over all events;
on the tables it has done no more than to emit. -/
theorem readUpToSnapshot_spec {s s' : StoreInner} (hR : SameMeaning R) (h : TablesSound R s.db)
    (hreg : ∀ r, getReducer s.reducers streamId = .ok r → R r) {clock : ReadClock}
    {result : Except Error (Bytes × Bool)}
    (hread : readUpToSnapshot d s streamId branch clock = (result, s')) :
    result.map Prod.fst = currentState s.reducers s.db streamId branch ∧
      (∃ rows, Grows (SystemRow d) s.db rows s'.db) ∧ s'.reducers = s.reducers := by
  have hnone : -1 ≤ stopAt none := by decide
  rw [readUpToSnapshot] at hread
  rw [currentState, getReducer, findArc]
  cases hfind : findArcWithPolicy s.reducers streamId with
  | none =>
    rw [hfind] at hread
    obtain ⟨rfl, rfl⟩ := Prod.mk.inj hread
    exact ⟨rfl, ⟨[], .refl _⟩, rfl⟩
  | some p =>
    obtain ⟨r, policy⟩ := p
    have hr : R r := by
      refine hreg r ?_
      rw [getReducer, findArc, hfind]
      rfl
    -- what is read is the fold over the whole history, whichever snapshot it starts from
    have hstate := @computeState_eq R s.db streamId branch r hR hr h.fits h.snapshots none hnone
    rw [historyUpTo_all h.fits.sane] at hstate
    rw [hfind] at hread
    show _ = foldEvents r streamId _ ∧ _
    rw [← hstate]
    dsimp only at hread
    cases hcompute : computeStateBytes r streamId branch none s.db with
    | error e =>
      rw [hcompute] at hread
      obtain ⟨rfl, rfl⟩ := Prod.mk.inj hread
      exact ⟨rfl, ⟨[], .refl _⟩, rfl⟩
    | ok q =>
      obtain ⟨bytes, events⟩ := q
      rw [hcompute] at hread
      show _ = applyEvents r streamId bytes events ∧ _
      -- the loop with the monitor computes what the plain fold does
      rw [← @readLoop_eq streamId branch r clock.apply events 0 bytes s.stateMonitors]
      dsimp only at hread
      cases hloop : (readLoop r streamId branch clock.apply events 0 bytes
          s.stateMonitors).1 with
      | error e =>
        rw [hloop] at hread
        obtain ⟨rfl, rfl⟩ := Prod.mk.inj hread
        exact ⟨rfl, ⟨[], .refl _⟩, rfl⟩
      | ok state =>
        rw [hloop] at hread
        obtain ⟨rfl, rfl⟩ := Prod.mk.inj hread
        -- a StateLarge event may be emitted after the fold, so the table can grow here
        have hemit := @maybeEmitStateLarge_frame d streamId branch
          { s with stateMonitors := (readLoop r streamId branch clock.apply events 0 bytes
              s.stateMonitors).2 } clock.largeUs clock.emitUs
        rw [autoSnapshotDue_frame.1, autoSnapshotDue_frame.2]
        exact ⟨rfl, hemit.1, hemit.2⟩

/-! ### Steps of a caller -/

/-- A call that begins holds a registered reducer. -/
theorem beginSnapshot_sound {s : StoreInner} (h : StoreSound R s) {background : Bool} :
    TaskSound R db (beginSnapshot s streamId branch background) := by
  rw [beginSnapshot]
  split
  · rename_i r hr
    exact h.getReducer hr
  · trivial

theorem afterRead_sound {s : StoreInner} (h : StoreSound R s)
    {result : Except Error (Bytes × Bool)} :
    TaskSound R db (afterRead s streamId branch result) := by
  rw [afterRead.eq_def]
  split
  · exact beginSnapshot_sound h
  · trivial

/-- **One step of a caller**: the store and the caller stay sound, and every
history is only extended. -/
theorem taskStep_sound (hR : SameMeaning R) {s s' : StoreInner} {task task' : SnapshotTask}
    {a : TaskAction} (h : StoreSound R s) (hcounted : s.db.Counted) (htask : TaskSound R s.db task)
    (hstep : taskStep d s task a = some (s', task')) :
    (StoreSound R s' ∧ Extends s.db s'.db) ∧ TaskSound R s'.db task' := by
  have hnone : -1 ≤ stopAt none := by decide
  have hkeep : TablesSound R s'.db ∧ Extends s.db s'.db → s'.reducers = s.reducers →
      StoreSound R s' ∧ Extends s.db s'.db := by
    intro htables hreducers
    exact ⟨⟨htables.1, fun e he => h.registered e (hreducers ▸ he)⟩, htables.2⟩
  have hsame : StoreSound R s ∧ Extends s.db s.db := ⟨h, extends_congr rfl⟩
  rw [taskStep.eq_def] at hstep
  split at hstep
  · -- take_snapshot
    obtain ⟨rfl, rfl⟩ := Prod.mk.inj (Option.some_inj.mp hstep)
    exact ⟨hsame, beginSnapshot_sound h⟩
  · -- bg_take_snapshot
    split at hstep
    · obtain ⟨rfl, rfl⟩ := Prod.mk.inj (Option.some_inj.mp hstep)
      exact ⟨⟨⟨h.tables, h.registered⟩, extends_congr rfl⟩, beginSnapshot_sound h⟩
    · exact absurd hstep (by simp)
  · -- a full read
    rename_i streamId branch clock
    obtain ⟨rfl, rfl⟩ := Prod.mk.inj (Option.some_inj.mp hstep)
    -- all that it may add is a `ReducerStateLarge` event
    obtain ⟨-, ⟨rows, hgrows⟩, hreducers⟩ :=
      readUpToSnapshot_spec hR h.tables (fun _ => h.getReducer) rfl
    have hsound := hkeep (h.tables.grows rfl rfl hgrows) hreducers
    exact ⟨hsound, afterRead_sound hsound.1⟩
  · -- gc_orphaned_snapshots reads the active keys
    obtain ⟨rfl, rfl⟩ := Prod.mk.inj (Option.some_inj.mp hstep)
    exact ⟨hsame, trivial⟩
  · -- the lookup
    split at hstep
    · rename_i st hst
      obtain ⟨rfl, rfl⟩ := Prod.mk.inj (Option.some_inj.mp hstep)
      exact ⟨hsame, htask,
        (replayStart_checkpoint hR htask h.tables.fits h.tables.snapshots hnone hst).1⟩
    · obtain ⟨rfl, rfl⟩ := Prod.mk.inj (Option.some_inj.mp hstep)
      exact ⟨hsame, trivial⟩
  · -- the range read and the fold
    split at hstep
    · rename_i version events htarget
      split at hstep
      · rename_i state hfold
        obtain ⟨rfl, rfl⟩ := Prod.mk.inj (Option.some_inj.mp hstep)
        -- rows that came since the lookup belong to the fold as well
        exact ⟨hsame, checkpoint_of_fold hR htask.1 hcounted htask.2 htarget hfold⟩
      · obtain ⟨rfl, rfl⟩ := Prod.mk.inj (Option.some_inj.mp hstep)
        exact ⟨hsame, trivial⟩
    · obtain ⟨rfl, rfl⟩ := Prod.mk.inj (Option.some_inj.mp hstep)
      exact ⟨hsame, trivial⟩
  · -- the write
    rename_i reducer streamId branch background version state now
    obtain ⟨rfl, rfl⟩ := Prod.mk.inj (Option.some_inj.mp hstep)
    refine ⟨hkeep (h.tables.snapshotsOnly ?_ ?_) ?_, trivial⟩
    · rw [recordSnapshot]
      split <;> rfl
    · intro sn hsn
      have hsn' : sn ∈ (writeSnapshot s.db streamId branch version reducer.name reducer.version
          reducer.stateSchemaVersion state now).2.snapshots := by
        rw [recordSnapshot] at hsn
        split at hsn <;> exact hsn
      rcases mem_replaceSnapshot hsn' with rfl | hold
      · exact .inr htask
      · exact .inl hold
    · rw [recordSnapshot]
      split <;> rfl
  · -- the deletions
    rename_i active
    obtain ⟨rfl, rfl⟩ := Prod.mk.inj (Option.some_inj.mp hstep)
    obtain ⟨hevents, hmem⟩ := @gcOrphanedSnapshotsImpl_spec s.db active
    have htables := h.tables.snapshotsOnly hevents fun sn hsn => .inl ((hmem sn).mp hsn).1
    exact ⟨hkeep htables rfl, trivial⟩
  · exact absurd hstep (by simp)

/-! ### Runs keep every snapshot a checkpoint -/

structure SnapshotInv (R : BoxedReducer → Prop) (s : SnapshotWorld) : Prop where
  store : StoreSound R s.store
  counted : s.store.db.Counted
  tasks : ∀ w, TaskSound R s.store.db (s.tasks w)

variable {s s' : SnapshotWorld} {a : SnapshotAction} {as : List SnapshotAction}

theorem snapshotInv_init (thresholdBytes : UInt64) (now : Int64) :
    SnapshotInv R (.init thresholdBytes now) where
  store := ⟨⟨(bootstrap_counted now).toFits, fun _ hsn => absurd hsn List.not_mem_nil⟩,
    fun _ he => absurd he List.not_mem_nil⟩
  counted := bootstrap_counted now
  tasks _ := trivial

theorem snapshotInv_of_extended (h : SnapshotInv R s)
    (hstore : StoreSound R s'.store ∧ Extends s.store.db s'.store.db)
    (htasks : ∀ w, s'.tasks w = s.tasks w ∨ TaskSound R s'.store.db (s'.tasks w)) :
    SnapshotInv R s' where
  store := hstore.1
  counted := hstore.2.counted h.counted
  tasks := by
    intro w
    rcases htasks w with hsame | hsound
    · rw [hsame]
      exact (h.tasks w).extend hstore.2
    · exact hsound

theorem snapshotInv_step (hR : SameMeaning R) (h : SnapshotInv R s)
    (ha : ∀ pattern reducer policy, a = .register pattern reducer policy → R reducer)
    (hstep : snapshotStep d s a = some s') :
    SnapshotInv R s' ∧ Extends s.store.db s'.store.db := by
  cases a with
  | store op =>
    rw [snapshotStep] at hstep
    split at hstep
    · exact absurd hstep (by simp)
    · rename_i hop
      obtain rfl := Option.some_inj.mp hstep
      obtain ⟨db₁, rows, hevents, hsnapshots, hgrows, -⟩ :=
        @exec_grows d s.store.db op (by simpa using hop)
      obtain ⟨htables, hext⟩ := h.store.tables.grows hevents hsnapshots hgrows
      exact ⟨snapshotInv_of_extended h ⟨⟨htables, h.store.registered⟩, hext⟩ fun w => .inl rfl,
        hext⟩
  | register pattern reducer policy =>
    rw [snapshotStep] at hstep
    split at hstep
    · rename_i entries hreg
      obtain rfl := Option.some_inj.mp hstep
      refine ⟨⟨⟨h.store.tables, ?_⟩, h.counted, h.tasks⟩, extends_congr rfl⟩
      intro e he
      show R e.reducer
      rw [registerWithPolicy_eq_ok hreg] at he
      rcases List.mem_append.mp he with he | he
      · exact h.store.registered e he
      · rw [List.mem_singleton.mp he]
        exact ha pattern reducer policy rfl
    · obtain rfl := Option.some_inj.mp hstep
      exact ⟨h, extends_congr rfl⟩
  | reopen thresholdBytes now =>
    obtain rfl := Option.some_inj.mp hstep
    -- calls under way keep their reducer, but have lost their place in the backlog
    refine ⟨⟨⟨h.store.tables, ?_⟩, h.counted, ?_⟩, extends_congr rfl⟩
    · exact fun _ he => absurd he List.not_mem_nil
    · exact fun w => (h.tasks w).detach
  | task w a =>
    obtain ⟨⟨store, task⟩, htask, rfl⟩ := Option.map_eq_some_iff.mp hstep
    obtain ⟨hstore, hsound⟩ := taskStep_sound hR h.store h.counted (h.tasks w) htask
    refine ⟨snapshotInv_of_extended h hstore fun w' => ?_, hstore.2⟩
    by_cases hw : w' = w
    · subst hw
      refine .inr ?_
      show TaskSound R store.db (update s.tasks w' task w')
      rw [update_self]
      exact hsound
    · exact .inl (update_of_ne hw _ _)

theorem snapshotInv_run (hR : SameMeaning R) (h : SnapshotInv R s)
    (has : ∀ reducer, Registered as reducer → R reducer)
    (hrun : run (snapshotStep d) s as = some s') :
    SnapshotInv R s' ∧ Extends s.store.db s'.store.db := by
  have hregistered : Along (snapshotStep d) (fun _ a => ∀ pattern reducer policy,
      a = .register pattern reducer policy → R reducer) s as := by
    refine along_of_forall fun a ha pattern reducer policy heq => ?_
    exact has reducer ⟨pattern, policy, heq ▸ ha⟩
  refine run_invariant (I := fun t => SnapshotInv R t ∧ Extends s.store.db t.store.db)
    (fun t a t' ht ha hstep => ?_) ⟨h, extends_congr rfl⟩ hregistered hrun
  obtain ⟨hinv, hext⟩ := snapshotInv_step hR ht.1 ha hstep
  exact ⟨hinv, ht.2.trans hext⟩

/-! ### What reads return -/

/-- A read whose lookup takes place in `s` and whose range read in a later `s'`
still returns the fold over all events of `s'`. -/
theorem read_across_commits (hR : SameMeaning R) (h : SnapshotInv R s)
    (has : ∀ reducer, Registered as reducer → R reducer)
    (hrun : run (snapshotStep d) s as = some s') {r : BoxedReducer}
    (hr : getReducer s.store.reducers streamId = .ok r) {st : ReplayStart}
    (hst : replayStart r streamId branch none s.store.db = .ok st) :
    applyEvents r streamId st.bytes (replayEvents streamId branch st.start none s'.store.db) =
      foldEvents r streamId (history s'.store.db streamId branch) := by
  have hnone : -1 ≤ stopAt none := by decide
  obtain ⟨hinv, hext⟩ := snapshotInv_run hR h has hrun
  have hreducer := h.store.getReducer hr
  obtain ⟨hcheckpoint, hle⟩ :=
    replayStart_checkpoint hR hreducer h.store.tables.fits h.store.tables.snapshots hnone hst
  rw [← historyUpTo_all hinv.store.tables.fits.sane]
  exact resume_eq_fold hinv.store.tables.fits hreducer (hcheckpoint.extend hext) hle

/-- **A full read** returns the fold over all events.  Only when it has itself put
a `ReducerStateLarge` event on the very stream that it reads, its in-band snapshot
may fail, and then the fold over the events with that one fails in the same way. -/
theorem readStateBytes_eq {s s' : StoreInner} (hR : SameMeaning R) (h : TablesSound R s.db)
    (hreg : ∀ r, getReducer s.reducers streamId = .ok r → R r) {clock : ReadClock}
    {snapshotUs : Int64} {result : Except Error Bytes}
    (hread : readStateBytes d s streamId branch clock snapshotUs = (result, s')) :
    s'.reducers = s.reducers ∧ (result = currentState s.reducers s.db streamId branch ∨
      (streamId = SYSTEM_STREAM ∧ branch = SYSTEM_BRANCH) ∧ ∃ e, result = .error e ∧
        currentState s'.reducers s'.db streamId branch = .error e) := by
  rw [readStateBytes] at hread
  cases hup : readUpToSnapshot d s streamId branch clock with
  | mk up s₁ =>
    obtain ⟨hstate, ⟨rows, hgrows⟩, hreducers⟩ := readUpToSnapshot_spec hR h hreg hup
    rw [hup] at hread
    cases up with
    | error e =>
      obtain ⟨rfl, rfl⟩ := Prod.mk.inj hread
      exact ⟨hreducers, .inl hstate⟩
    | ok p =>
      obtain ⟨state, due⟩ := p
      cases due with
      | false =>
        obtain ⟨rfl, rfl⟩ := Prod.mk.inj hread
        exact ⟨hreducers, .inl hstate⟩
      | true =>
        dsimp only at hread
        cases hsnap : takeSnapshot s₁.reducers s₁.db streamId branch snapshotUs with
        | ok p =>
          rw [hsnap] at hread
          obtain ⟨rfl, rfl⟩ := Prod.mk.inj hread
          exact ⟨hreducers, .inl hstate⟩
        | error e =>
          -- the snapshot is taken of the table as it is after the emission
          have hsound := (h.grows rfl rfl hgrows).1
          have hreg' : ∀ r, getReducer s₁.reducers streamId = .ok r → R r := by
            rw [hreducers]
            exact hreg
          rw [hsnap] at hread
          rcases takeSnapshot_error hR hreg' hsound.fits hsound.snapshots hsnap with
            ⟨a, b, rfl⟩ | hfold
          · obtain ⟨rfl, rfl⟩ := Prod.mk.inj hread
            exact ⟨hreducers, .inl hstate⟩
          · -- the fold fails now, but did not before the emission
            have hon : streamId = SYSTEM_STREAM ∧ branch = SYSTEM_BRANCH := by
              by_contra hne
              have hrows : s₁.db.rowsOn streamId branch = s.db.rowsOn streamId branch := by
                refine rowsOn_of_other hgrows fun row hrow hon => hne ?_
                exact ⟨hon.1.symm.trans hrow.1.1, hon.2.symm.trans hrow.1.2⟩
              rw [currentState, history, hrows, hreducers] at hfold
              rw [currentState, history, hfold] at hstate
              exact absurd hstate (by simp [Except.map])
            split at hread
            · rename_i heq
              exact absurd heq (by simp)
            · rename_i heq
              obtain ⟨rfl, rfl⟩ := Prod.mk.inj hread
              exact ⟨hreducers, .inl hstate⟩
            · rename_i e' hne heq
              obtain rfl := Except.error.inj heq
              obtain ⟨rfl, rfl⟩ := Prod.mk.inj hread
              exact ⟨hreducers, .inr ⟨hon, e, rfl, hfold⟩⟩

/-- A reducer that collects the payloads. -/
def collectReducer : BoxedReducer where
  name := "collect"
  version := 1
  stateSchemaVersion := 1
  initialStateBytes := .ok []
  applyBytes state payload := .returned (.ok (state ++ payload))

end Fossic
