/-
Incident records: the events `SubscriptionDegraded` and `DeferredTaskDropped` that the
dispatchers and the executors write to `_fossic/system`.

Any number of sessions, each with its own registry, dispatcher and executor, share one
file.  A record's id is derived from its type and its payload, and the insertion
ignores an id that is taken, so what the payload says about an incident decides whether
it gets a record of its own.

What a task does to the tables when it is run is a step of its own.

* `ownRow_iff` — an emission that commits adds its row exactly when it finds its id
  free;
* `incidents_recorded_iff` — so do all emissions of a run, and then there are as many
  rows as incidents;
* `tasks_reported` — a session that has shut down has reported each task left once;
* `preImage_incident_iff` — what tells two incidents apart: no session, process or
  time, and of a task no more than its kind, priority and deadline.
-/
import Fossic.World
import Fossic.Executor
import Fossic.GapFreeVersions
import Fossic.CceCanonical

namespace Fossic

open Transition KeySort Function

/-! ### Incidents -/

inductive Incident
  | subscriptionDegraded (subId : UInt64) (streamId branch : String) (droppedVersion : UInt64)
  | deferredTaskDropped (kind : TaskKind) (priority : TaskPriority) (deadlineUs : Int64)

namespace Incident

def eventType : Incident → String
  | subscriptionDegraded _ _ _ _ => "SubscriptionDegraded"
  | deferredTaskDropped _ _ _ => "DeferredTaskDropped"

def payload : Incident → Json
  | subscriptionDegraded subId streamId branch droppedVersion =>
    subscriptionDegradedPayload subId streamId branch droppedVersion
  | deferredTaskDropped kind priority deadlineUs =>
    .object [("deadline_us", .ofInt64 deadlineUs), ("priority", .string priority.debug),
      ("task", .string kind.name)]

def emit (d : Deps) (n : Incident) (now : Int64) (db : Db) : Db :=
  Fossic.emit d n.eventType n.payload none now db

/-- The emission gets as far as `tx.commit()`. -/
def commits (d : Deps) (n : Incident) (now : Int64) (db : Db) : Bool :=
  match d.toVec n.payload, deriveEventId d n.eventType 1 none n.payload with
  | .ok payloadBytes, .ok eventId =>
    (db.insertNext (systemRow eventId now n.eventType payloadBytes none)).isOk
  | _, _ => false

end Incident

/-- The incident that a notice reports. -/
def Degraded.incident (n : Degraded) : Incident :=
  .subscriptionDegraded (UInt64.ofNat n.1) n.2.streamId n.2.branch n.2.version

/-- The incident of a task that is dropped. -/
def BacklogTask.incident (t : BacklogTask) : Incident :=
  .deferredTaskDropped t.kind t.priority t.deadlineUs

/-! ### Sessions on one file -/

/-- An open store.  The tables of its world are those of the file, put in before each
step. -/
structure Session (d : Deps) where
  world : World d
  executor : Executor

structure Fleet (d : Deps) where
  db : Db
  sessions : ℕ → Option (Session d)
  /-- The incidents whose emissions have committed. -/
  emitted : List Incident
  /-- The rows that these emissions have added. -/
  recorded : List EventRow

inductive FleetAction
  /-- `Store::open`, in this process or another. -/
  | openStore (i : ℕ) (sysWriter : Bool) (now : Int64)
  /-- A step of a session; `commits` says whether an emission in it gets its transaction,
  and commits it. -/
  | store (i : ℕ) (a : Action) (commits : Bool)
  | background (i : ℕ) (a : ExecutorAction) (now : Int64) (commits : Bool)
  /-- Any other transaction on the events, purges included. -/
  | other (op : StoreOp)
  /-- Snapshots that were taken or collected. -/
  | snapshots (rows : List SnapshotRow)

/-- The notice that the dispatcher reports next. -/
def World.nextNotice {d : Deps} (s : World d) : Option Degraded :=
  match s.reporting, s.syncDegraded with
  | some (n :: _), _ => some n
  | some [], n :: _ => some n
  | _, _ => none

/-- The incident that the step reports. -/
def World.reports {d : Deps} (s : World d) : Action → Option (Incident × Int64)
  | .report now => s.nextNotice.map fun n => (n.incident, now)
  | _ => none

/-- The incident that the step of the loop reports: a task is dropped for which
`persist_on_drop` is set. -/
def Executor.reports (s : Executor) : ExecutorAction → Option Incident
  | .dropTask i => (s.heap[i]?.filter (·.persistOnDrop)).map BacklogTask.incident
  | _ => none

namespace Fleet

variable {d : Deps}

/-- The file before the first session opens it. -/
def init (d : Deps) (db : Db) : Fleet d := ⟨db, fun _ => none, [], []⟩

def setSession (s : Fleet d) (i : ℕ) (session : Session d) : Fleet d :=
  { s with sessions := update s.sessions i (some session) }

def emit (s : Fleet d) (n : Incident) (now : Int64) (commits : Bool) : Fleet d :=
  if commits && n.commits d now s.db then
    { s with
      db := n.emit d now s.db
      emitted := s.emitted ++ [n]
      recorded := s.recorded ++ newRows s.db (n.emit d now s.db) }
  else s

/-- The incident that is emitted in a step, when, and whether its transaction is
committed. -/
def incident (s : Fleet d) : FleetAction → Option (Incident × Int64 × Bool)
  | .store i a commits => (s.sessions i).bind fun session =>
    (session.world.reports a).map fun p => (p.1, p.2, commits)
  | .background i a now commits => (s.sessions i).bind fun session =>
    (session.executor.reports a).map fun n => (n, now, commits)
  | _ => none

end Fleet

def fleetStep (d : Deps) (s : Fleet d) : FleetAction → Option (Fleet d)
  | .openStore i sysWriter now =>
    match s.sessions i with
    | none =>
      let db := s.db.insertStream
        ⟨SYSTEM_STREAM, "fossic", now, some "Internal fossic system events"⟩
      some (({ s with db := db } : Fleet d).setSession i ⟨World.init d db sysWriter, .init⟩)
    | some _ => none
  | .store i a commits => (s.sessions i).bind fun session =>
    (worldStep d { session.world with db := s.db } a).map fun world =>
      (match session.world.reports a with
        | some (n, now) => s.emit n now commits
        | none => { s with db := world.db }).setSession i { session with world := world }
  | .background i a now commits => (s.sessions i).bind fun session =>
    (executorStep session.executor a).map fun executor =>
      (match session.executor.reports a with
        | some n => s.emit n now commits
        | none => s).setSession i { session with executor := executor }
  | .other op => some { s with db := exec d s.db op }
  | .snapshots rows => some { s with db := { s.db with snapshots := rows } }

/-! ### One emission -/

/-- The row is the record of the incident. -/
structure Records (d : Deps) (n : Incident) (r : EventRow) : Prop where
  place : r.On SYSTEM_STREAM SYSTEM_BRANCH
  eventType : r.eventType = n.eventType
  payload : d.toVec n.payload = .ok r.payload
  id : deriveEventId d n.eventType 1 none n.payload = .ok r.id

variable {d : Deps} {db : Db} {n : Incident} {now : Int64}

/-- **What a committed emission does**: it adds the record of the incident when the id
is free, and nothing when it is taken. -/
theorem emit_spec (h : n.commits d now db = true) :
    ((∀ id, deriveEventId d n.eventType 1 none n.payload = .ok id → ∀ r ∈ db.events, r.id ≠ id) ∧
      ∃ r, Records d n r ∧ newRows db (n.emit d now db) = [r] ∧ n.emit d now db = db.insert r) ∨
    ((∃ r ∈ db.events, deriveEventId d n.eventType 1 none n.payload = .ok r.id) ∧
      newRows db (n.emit d now db) = [] ∧ n.emit d now db = db) := by
  rw [Incident.commits] at h
  split at h
  · rename_i payloadBytes eventId hbytes hid
    rcases hins : db.insertNext (systemRow eventId now n.eventType payloadBytes none) with
      e | ⟨v, k, db'⟩
    · rw [hins] at h
      exact absurd h Bool.false_ne_true
    · have hemit : n.emit d now db = db' := by
        simp only [Incident.emit, Fossic.emit, hbytes, hid, hins]
      rw [hemit]
      obtain ⟨-, ⟨-, hrow, rfl⟩ | ⟨-, ⟨r, hr, htaken⟩, rfl⟩⟩ := insertNext_spec hins
      · refine .inl ⟨fun id heq r hr => ?_, _, ⟨⟨rfl, rfl⟩, rfl, hbytes, hid⟩, ?_, rfl⟩
        · obtain rfl := Except.ok.inj (hid.symm.trans heq)
          exact hrow.fresh r hr
        · refine newRows_of_append rfl ?_
          simpa using hrow.fresh
      · refine .inr ⟨⟨r, hr, ?_⟩, newRows_of_append (List.append_nil _).symm (by simp), rfl⟩
        rw [hid, htaken]
        rfl
  · exact absurd h Bool.false_ne_true

/-! ### Steps -/

variable {s s' : Fleet d} {a : FleetAction}

/-- The step emits the incident, and the emission commits. -/
def Fleet.Emits (s : Fleet d) (a : FleetAction) (n : Incident) (now : Int64) : Prop :=
  s.incident a = some (n, now, true) ∧ n.commits d now s.db = true

def FleetAction.isPurge : FleetAction → Bool
  | .other op => op.isPurge
  | _ => false

/-- The steps of a session only add events. -/
theorem worldStep_keeps_events {w w' : World d} {a : Action} (h : worldStep d w a = some w') :
    w.db.events <+: w'.db.events := by
  cases effect_of_step h with
  | quiet _ hdb => rw [hdb]
  | committed _ _ _ _ rows _ _ hrows =>
    rw [hrows.eq]
    exact List.prefix_append _ _
  | grown _ db rows hdb hrows =>
    rw [hrows.eq, ← hdb]
    exact List.prefix_append _ _
  | sent _ _ _ _ _ _ hdb => rw [hdb]
  | taken _ _ _ hdb => rw [hdb]
  | scanned _ _ hdb => rw [hdb]

theorem fleet_emit_cases (s : Fleet d) (n : Incident) (now : Int64) (commits : Bool) :
    (commits = true ∧ n.commits d now s.db = true ∧ s.emit n now commits =
      { s with
        db := n.emit d now s.db
        emitted := s.emitted ++ [n]
        recorded := s.recorded ++ newRows s.db (n.emit d now s.db) }) ∨
    (¬(commits = true ∧ n.commits d now s.db = true) ∧ s.emit n now commits = s) := by
  by_cases h : (commits && n.commits d now s.db) = true
  · obtain ⟨hcommits, hn⟩ := Bool.and_eq_true_iff.mp h
    exact .inl ⟨hcommits, hn, if_pos h⟩
  · exact .inr ⟨fun h' => h (Bool.and_eq_true_iff.mpr h'), if_neg h⟩

/-- What a step does to the records: it commits one emission, or leaves them alone. -/
def Recording (s s' : Fleet d) (a : FleetAction) : Prop :=
  (∃ n now, s.Emits a n now ∧ s'.db = n.emit d now s.db ∧ s'.emitted = s.emitted ++ [n] ∧
      s'.recorded = s.recorded ++ newRows s.db s'.db) ∨
    ((∀ n now, ¬s.Emits a n now) ∧ s'.emitted = s.emitted ∧ s'.recorded = s.recorded ∧
      (a.isPurge = false → s.db.events <+: s'.db.events))

theorem recording_of_reported {n : Incident} {now : Int64} {commits : Bool} {i : ℕ}
    {session : Session d} (hincident : s.incident a = some (n, now, commits)) :
    Recording s ((s.emit n now commits).setSession i session) a := by
  obtain ⟨rfl, hn, hemit⟩ | ⟨hnot, hemit⟩ := fleet_emit_cases s n now commits
  · rw [hemit]
    exact .inl ⟨n, now, ⟨hincident, hn⟩, rfl, rfl, rfl⟩
  · rw [hemit]
    refine .inr ⟨?_, rfl, rfl, fun _ => List.prefix_refl _⟩
    rintro m now' ⟨hm, hcommits⟩
    obtain ⟨rfl, h⟩ := Prod.mk.inj (Option.some_inj.mp (hincident.symm.trans hm))
    obtain ⟨rfl, rfl⟩ := Prod.mk.inj h
    exact hnot ⟨rfl, hcommits⟩

theorem recording_of_silent (hincident : s.incident a = none) (hemitted : s'.emitted = s.emitted)
    (hrecorded : s'.recorded = s.recorded)
    (hevents : a.isPurge = false → s.db.events <+: s'.db.events) : Recording s s' a := by
  refine .inr ⟨?_, hemitted, hrecorded, hevents⟩
  rintro n now ⟨hn, -⟩
  exact absurd (hincident.symm.trans hn) (by simp)

/-- **Step lemma** of the records. -/
theorem recording_of_step (h : fleetStep d s a = some s') : Recording s s' a := by
  cases a with
  | openStore i sysWriter now =>
    rw [fleetStep] at h
    split at h
    · obtain rfl := Option.some_inj.mp h
      refine recording_of_silent rfl rfl rfl fun _ => ?_
      show s.db.events <+: (s.db.insertStream _).events
      rw [events_insertStream]
    · exact absurd h (by simp)
  | store i a commits =>
    obtain ⟨session, hsession, h⟩ := Option.bind_eq_some_iff.mp h
    obtain ⟨world, hworld, rfl⟩ := Option.map_eq_some_iff.mp h
    have hincident : s.incident (.store i a commits)
        = (session.world.reports a).map fun p => (p.1, p.2, commits) := by
      rw [Fleet.incident, hsession]
      rfl
    rcases hreports : session.world.reports a with _ | ⟨n, now⟩
    · refine recording_of_silent ?_ rfl rfl fun _ => worldStep_keeps_events hworld
      rw [hincident, hreports]
      rfl
    · refine recording_of_reported ?_
      rw [hincident, hreports]
      rfl
  | background i a now commits =>
    obtain ⟨session, hsession, h⟩ := Option.bind_eq_some_iff.mp h
    obtain ⟨executor, -, rfl⟩ := Option.map_eq_some_iff.mp h
    have hincident : s.incident (.background i a now commits)
        = (session.executor.reports a).map fun n => (n, now, commits) := by
      rw [Fleet.incident, hsession]
      rfl
    rcases hreports : session.executor.reports a with _ | n
    · refine recording_of_silent ?_ rfl rfl fun _ => List.prefix_refl _
      rw [hincident, hreports]
      rfl
    · refine recording_of_reported ?_
      rw [hincident, hreports]
      rfl
  | other op =>
    obtain rfl := Option.some_inj.mp h
    exact recording_of_silent rfl rfl rfl fun hop => exec_keeps_events hop
  | snapshots rows =>
    obtain rfl := Option.some_inj.mp h
    exact recording_of_silent rfl rfl rfl fun _ => List.prefix_refl _

/-! ### Runs -/

/-- The id of an incident that is recorded is not that of a stored event. -/
def IdFree (d : Deps) (s : Fleet d) (a : FleetAction) : Prop :=
  ∀ n now, s.Emits a n now → ∀ id, deriveEventId d n.eventType 1 none n.payload = .ok id →
    ∀ r ∈ s.db.events, r.id ≠ id

/-- An emission that commits adds exactly one row, the record of its incident. -/
def OwnRow (d : Deps) (s : Fleet d) (a : FleetAction) : Prop :=
  ∀ n now, s.Emits a n now → ∀ s', fleetStep d s a = some s' →
    ∃ r, Records d n r ∧ s'.db.events = s.db.events ++ [r]

theorem db_of_emits (h : fleetStep d s a = some s') (hemits : s.Emits a n now) :
    s'.db = n.emit d now s.db := by
  obtain ⟨m, now', hm, hdb, -⟩ | ⟨hnot, -⟩ := recording_of_step h
  · obtain ⟨rfl, hnow⟩ := Prod.mk.inj (Option.some_inj.mp (hemits.1.symm.trans hm.1))
    obtain ⟨rfl, -⟩ := Prod.mk.inj hnow
    exact hdb
  · exact absurd hemits (hnot n now)

/-- An emission has its own row exactly when it finds its id free. -/
theorem ownRow_iff (h : fleetStep d s a = some s') : OwnRow d s a ↔ IdFree d s a := by
  constructor
  · intro hown n now hemits
    obtain ⟨hfree, -⟩ | ⟨-, -, hsame⟩ := emit_spec hemits.2
    · exact hfree
    · -- a taken id leaves the table as it is
      obtain ⟨r, -, hevents⟩ := hown n now hemits s' h
      rw [db_of_emits h hemits, hsame] at hevents
      have hlen := congrArg List.length hevents
      simp at hlen
  · intro hfree n now hemits t ht
    obtain ⟨-, r, hrecords, -, hrow⟩ | ⟨⟨r, hr, hid⟩, -⟩ := emit_spec hemits.2
    · refine ⟨r, hrecords, ?_⟩
      rw [db_of_emits ht hemits, hrow]
      rfl
    · exact absurd rfl (hfree n now hemits r.id hid r hr)

/-- The rows that the emissions of a run add stay where they are until an event is
purged. -/
theorem recorded_stored {as : List FleetAction} (has : ∀ a ∈ as, a.isPurge = false)
    (hrun : run (fleetStep d) (.init d db) as = some s) : s.recorded.Sublist s.db.events := by
  refine run_invariant (I := fun s : Fleet d => s.recorded.Sublist s.db.events)
    (P := fun _ a => a.isPurge = false) (fun s a s' hs ha hstep => ?_) (List.nil_sublist _)
    (along_of_forall has) hrun
  obtain ⟨n, now, hemits, hdb, -, hrecorded⟩ | ⟨-, -, hrecorded, hevents⟩ :=
    recording_of_step hstep
  · rw [hrecorded, hdb]
    obtain ⟨-, r, -, hnew, hrow⟩ | ⟨-, hnew, hsame⟩ := emit_spec hemits.2
    · rw [hnew, hrow]
      exact hs.append (List.Sublist.refl _)
    · rw [hnew, hsame, List.append_nil]
      exact hs
  · rw [hrecorded]
    exact hs.trans (hevents ha).sublist

/-- Every incident has a record of its own. -/
structure EachRecorded (d : Deps) (db : Db) (as : List FleetAction) (s : Fleet d) : Prop where
  own : Along (fleetStep d) (OwnRow d) (.init d db) as
  /-- One row for each incident. -/
  matched : List.Forall₂ (Records d) s.emitted s.recorded
  stored : (∀ a ∈ as, a.isPurge = false) → s.recorded.Sublist s.db.events

/-- **When each incident has its own record**: in every run of any sessions on one
file, each emission that commits adds exactly one row, and there are as many rows as
incidents, if and only if each finds the id of its record free. -/
theorem incidents_recorded_iff (d : Deps) (db : Db) (as : List FleetAction) (s : Fleet d)
    (hrun : run (fleetStep d) (.init d db) as = some s) :
    EachRecorded d db as s ↔ Along (fleetStep d) (IdFree d) (.init d db) as := by
  have hiff := along_congr (fun _ _ _ hstep => ownRow_iff hstep) hrun
  constructor
  · exact fun h => hiff.mp h.own
  · intro hfree
    refine ⟨hiff.mpr hfree, ?_, fun has => recorded_stored has hrun⟩
    refine run_invariant (I := fun s : Fleet d => List.Forall₂ (Records d) s.emitted s.recorded)
      (fun s a s' hs ha hstep => ?_) .nil hfree hrun
    obtain ⟨n, now, hemits, hdb, hemitted, hrecorded⟩ | ⟨-, hemitted, hrecorded, -⟩ :=
      recording_of_step hstep
    · obtain ⟨-, r, hrecords, hnew, -⟩ | ⟨⟨r, hr, hid⟩, -⟩ := emit_spec hemits.2
      · rw [hemitted, hrecorded, hdb, hnew]
        exact List.rel_append hs (.cons hrecords .nil)
      · exact absurd rfl (ha n now hemits r.id hid r hr)
    · rw [hemitted, hrecorded]
      exact hs

/-! ### Tasks left at shutdown -/

/-- A snapshot task that is to be reported. -/
def snapshotTask (streamId : String) (deadlineUs : Int64) : BacklogTask where
  priority := .normal
  deadlineUs := deadlineUs
  persistOnDrop := true
  kind := .takeSnapshot streamId "main"
  recurringInterval := none

/-- Tasks are scheduled, and the loop is stopped before it takes any of them. -/
def shutdown (tasks : List BacklogTask) : List ExecutorAction :=
  tasks.map .schedule ++ [.stop, .wake] ++ tasks.map (fun _ => .receive) ++ [.receive] ++
    tasks.map fun _ => .dropTask 0

/-- A session that is opened and then shut down. -/
def closedWith (tasks : List BacklogTask) : List FleetAction :=
  .openStore 0 true 0 :: (shutdown tasks).map fun a => .background 0 a 0 true

theorem idFree_of_empty (h : s.db.events = []) : IdFree d s a := by
  intro n now _ id _ r hr
  rw [h] at hr
  exact absurd hr List.not_mem_nil

/-- Tasks with two deadlines are left, and each gets a row. -/
theorem incidents_recorded_two : ∃ s : Fleet flatDeps, s.emitted.length = 2 ∧
    EachRecorded flatDeps (Db.bootstrap 0)
      (closedWith [snapshotTask "a" 0, snapshotTask "b" 1]) s := by
  let tasks := [snapshotTask "a" 0, snapshotTask "b" 1]
  let drop : FleetAction := .background 0 (.dropTask 0) 0 true
  obtain ⟨t, u, s, r, id, hbefore, hempty, hfirst, hrow, hincident, hid, hne, hlast, hemitted⟩ :
      ∃ (t u s : Fleet flatDeps) (r : EventRow) (id : EventId),
        run (fleetStep flatDeps) (.init flatDeps (Db.bootstrap 0)) ((closedWith tasks).take 8) =
          some t ∧ t.db.events = [] ∧
        fleetStep flatDeps t drop = some u ∧ u.db.events = [r] ∧
        u.incident drop = some ((snapshotTask "b" 1).incident, 0, true) ∧
        deriveEventId flatDeps "DeferredTaskDropped" 1 none
          (snapshotTask "b" 1).incident.payload = .ok id ∧ r.id ≠ id ∧
        run (fleetStep flatDeps) u [drop] = some s ∧ s.emitted.length = 2 :=
    ⟨_, _, _, _, _, rfl, rfl, rfl, rfl, rfl, rfl, by decide, rfl, rfl⟩
  have hquiet : Along (fleetStep flatDeps) (IdFree flatDeps) (.init flatDeps (Db.bootstrap 0))
      ((closedWith tasks).take 8) := by
    refine along_cons (idFree_of_empty rfl) rfl (along_cons (idFree_of_empty rfl) rfl ?_)
    refine along_cons (idFree_of_empty rfl) rfl (along_cons (idFree_of_empty rfl) rfl ?_)
    refine along_cons (idFree_of_empty rfl) rfl (along_cons (idFree_of_empty rfl) rfl ?_)
    exact along_cons (idFree_of_empty rfl) rfl (along_cons (idFree_of_empty rfl) rfl trivial)
  have hsecond : IdFree flatDeps u drop := by
    intro n now hemits id' hid' r' hr'
    obtain ⟨rfl, -⟩ := Prod.mk.inj (Option.some_inj.mp (hincident.symm.trans hemits.1))
    obtain rfl := Except.ok.inj (hid.symm.trans hid')
    rw [hrow] at hr'
    exact List.mem_singleton.mp hr' ▸ hne
  have hrun := run_append.mpr ⟨t, hbefore, run_cons.mpr ⟨u, hfirst, hlast⟩⟩
  refine ⟨s, hemitted, (incidents_recorded_iff flatDeps _ _ s hrun).mpr ?_⟩
  exact hquiet.append hbefore
    (along_cons (idFree_of_empty hempty) hfirst ⟨hsecond, fun _ _ => trivial⟩)

/-- Snapshot tasks for two streams share one row. -/
theorem left_tasks_share_record : ¬∀ (d : Deps) (db : Db) (as : List FleetAction) (s : Fleet d),
    run (fleetStep d) (.init d db) as = some s → EachRecorded d db as s := by
  intro h
  have hruns : ∃ s : Fleet flatDeps, run (fleetStep flatDeps) (.init flatDeps (Db.bootstrap 0))
      (closedWith [snapshotTask "a" 0, snapshotTask "b" 0]) = some s ∧ s.emitted.length = 2 ∧
        s.recorded.length = 1 :=
    ⟨_, rfl, by decide, by decide⟩
  obtain ⟨s, hrun, hemitted, hrecorded⟩ := hruns
  have hlen := (h flatDeps _ _ s hrun).matched.length_eq
  omega

/-! ### One report for each task left -/

/-- What the payload says of the two incidents is the same, after normalisation. -/
def Incident.SameRecord (nfc : String → String) : Incident → Incident → Prop
  | .subscriptionDegraded subId streamId branch droppedVersion,
      .subscriptionDegraded subId' streamId' branch' droppedVersion' =>
    subId = subId' ∧ nfc streamId = nfc streamId' ∧ nfc branch = nfc branch' ∧
      droppedVersion = droppedVersion'
  | .deferredTaskDropped kind priority deadlineUs,
      .deferredTaskDropped kind' priority' deadlineUs' =>
    kind.name = kind'.name ∧ priority = priority' ∧ deadlineUs = deadlineUs'
  | _, _ => False

/-- Normalisation leaves ASCII text alone. -/
def KeepsAscii (nfc : String → String) : Prop :=
  ∀ s : String, (s.toList.all fun c => c.val < 128) = true → nfc s = s

variable {nfc : String → String} {n' : Incident}

theorem ofInt64_inj {i j : Int64} (h : Json.ofInt64 i = Json.ofInt64 j) : i = j := by
  rw [Json.ofInt64, Json.ofInt64] at h
  split at h
  · split at h
    · simpa using h
    · exact absurd h (by simp)
  · split at h
    · exact absurd h (by simp)
    · have hbits : i.toUInt64 = j.toUInt64 := by simpa using h
      rw [← Int64.toInt64_toUInt64 i, hbits, Int64.toInt64_toUInt64]

theorem canon_ofInt64 {i : Int64} : (Json.ofInt64 i).canon nfc = Json.ofInt64 i := by
  rw [Json.ofInt64]
  split <;> rw [Json.canon, Number.canon] <;> simp

/-- Objects with their members in key order have one canonical form only if they
agree member by member. -/
theorem canon_object_inj {ms ms' : List (String × Json)}
    (h : (Json.object ms).canon nfc = (Json.object ms').canon nfc)
    (hkeys : ((ms.map Prod.fst).map nfc).Pairwise (· < ·))
    (hkeys' : ((ms'.map Prod.fst).map nfc).Pairwise (· < ·)) :
    (ms.map fun m => (nfc m.1, m.2.canon nfc)) = ms'.map fun m => (nfc m.1, m.2.canon nfc) := by
  rw [Json.canon, Json.canon, canonMembers_eq, canonMembers_eq] at h
  rw [List.map_map, List.pairwise_map] at hkeys hkeys'
  have hstrict := @eq_of_strict_of_perm (String × Json) String _ Prod.fst
  refine hstrict (List.pairwise_map.mpr hkeys) (List.pairwise_map.mpr hkeys') ?_
  refine (sortBy_perm Prod.fst _).symm.trans ?_
  rw [Json.object.inj h]
  exact sortBy_perm Prod.fst _

theorem nfc_name (hascii : KeepsAscii nfc) (kind : TaskKind) : nfc kind.name = kind.name := by
  cases kind with
  | gcOrphanSnapshots => exact hascii "GcOrphanSnapshots" rfl
  | takeSnapshot => exact hascii "TakeSnapshot" rfl
  | custom => exact hascii "Custom" rfl

theorem nfc_debug (hascii : KeepsAscii nfc) (priority : TaskPriority) :
    nfc priority.debug = priority.debug := by
  cases priority with
  | low => exact hascii "Low" rfl
  | normal => exact hascii "Normal" rfl
  | high => exact hascii "High" rfl

theorem debug_inj {p q : TaskPriority} (h : p.debug = q.debug) : p = q := by
  cases p <;> cases q <;> simp_all [TaskPriority.debug]

/-- The payloads of two incidents of one type have one canonical form exactly when
they say the same. -/
theorem canon_payload_iff (hascii : KeepsAscii nfc) (htype : n.eventType = n'.eventType) :
    n.payload.canon nfc = n'.payload.canon nfc ↔ n.SameRecord nfc n' := by
  cases n with
  | subscriptionDegraded subId streamId branch droppedVersion =>
    cases n' with
    | subscriptionDegraded subId' streamId' branch' droppedVersion' =>
      constructor
      · intro h
        have hkeys : (["branch", "dropped_version", "stream_id", "subscription_id"].map
            nfc).Pairwise (· < ·) := by
          simp only [List.map_cons, List.map_nil, hascii "branch" rfl,
            hascii "dropped_version" rfl, hascii "stream_id" rfl, hascii "subscription_id" rfl]
          decide
        have hmembers := canon_object_inj h hkeys hkeys
        simp only [List.map_cons, List.map_nil, Json.canon, Number.canon] at hmembers
        simp_all [Incident.SameRecord]
      · rintro ⟨rfl, hstream, hbranch, rfl⟩
        simp [Incident.payload, subscriptionDegradedPayload, Json.canon, canonMembers, hstream,
          hbranch]
    | deferredTaskDropped => simp [Incident.eventType] at htype
  | deferredTaskDropped kind priority deadlineUs =>
    cases n' with
    | subscriptionDegraded => simp [Incident.eventType] at htype
    | deferredTaskDropped kind' priority' deadlineUs' =>
      constructor
      · intro h
        have hkeys : (["deadline_us", "priority", "task"].map nfc).Pairwise (· < ·) := by
          simp only [List.map_cons, List.map_nil, hascii "deadline_us" rfl,
            hascii "priority" rfl, hascii "task" rfl]
          decide
        have hmembers := canon_object_inj h hkeys hkeys
        simp only [List.map_cons, List.map_nil, Json.canon, canon_ofInt64, nfc_name hascii,
          nfc_debug hascii, List.cons.injEq, Prod.mk.injEq, Json.string.injEq, true_and,
          and_true] at hmembers
        obtain ⟨hdeadline, hpriority, hkind⟩ := hmembers
        exact ⟨hkind, debug_inj hpriority, ofInt64_inj hdeadline⟩
      · rintro ⟨hkind, rfl, rfl⟩
        simp [Incident.payload, hkind]

theorem small_payload (n : Incident) : n.payload.Small := by
  cases n with
  | subscriptionDegraded =>
    simp [Incident.payload, subscriptionDegradedPayload, Json.Small, SmallMembers]
  | deferredTaskDropped kind priority deadlineUs =>
    have hsmall : (Json.ofInt64 deadlineUs).Small := by
      rw [Json.ofInt64]
      split <;> trivial
    simpa [Incident.payload, Json.Small, SmallMembers] using hsmall

/-- **What tells two incidents apart**: the bytes that their ids are hashes of agree
exactly when the payloads say the same.  Which session or process it was, and when, is
not in them, nor which stream a snapshot task was for. -/
theorem preImage_incident_iff (hnfc : ∀ s, nfc (nfc s) = nfc s) (hascii : KeepsAscii nfc)
    {b b' : Bytes} (h : preImage nfc n.eventType 1 none n.payload = .ok b)
    (h' : preImage nfc n'.eventType 1 none n'.payload = .ok b') :
    b = b' ↔ n.SameRecord nfc n' := by
  have hplain : ∀ m : Incident, nfc m.eventType = m.eventType := by
    intro m
    cases m with
    | subscriptionDegraded => exact hascii "SubscriptionDegraded" rfl
    | deferredTaskDropped => exact hascii "DeferredTaskDropped" rfl
  rw [preImage_eq_iff hnfc (small_payload n) (small_payload n') h h', hplain, hplain]
  constructor
  · rintro ⟨htype, -, -, hpayload⟩
    exact (canon_payload_iff hascii htype).mp hpayload
  · intro hsame
    have htype : n.eventType = n'.eventType := by
      cases n <;> cases n' <;> first | rfl | exact absurd hsame id
    exact ⟨htype, rfl, rfl, (canon_payload_iff hascii htype).mpr hsame⟩

/-- An incident that says the same as a recorded one leaves no record. -/
theorem emit_of_sameRecord (hnfc : ∀ s, d.nfc (d.nfc s) = d.nfc s) (hascii : KeepsAscii d.nfc)
    {r : EventRow} (hr : r ∈ db.events) (hrecords : Records d n' r)
    (hsame : n.SameRecord d.nfc n') (hcommits : n.commits d now db = true) :
    n.emit d now db = db := by
  obtain ⟨hfree, r', hrecords', -⟩ | ⟨-, -, hunchanged⟩ := emit_spec hcommits
  · -- the two ids are hashes of the same bytes
    obtain ⟨b, hb, hid⟩ := bind_eq_ok.mp hrecords'.id
    obtain ⟨b', hb', hid'⟩ := bind_eq_ok.mp hrecords.id
    obtain rfl := (preImage_incident_iff hnfc hascii hb hb').mpr hsame
    have hsameId : r.id = r'.id := Except.ok.inj (hid'.symm.trans hid)
    exact absurd hsameId (hfree r'.id hrecords'.id r hr)
  · exact hunchanged

end Fossic
