/-
Consumers with a cursor in the store.

The pattern that the documentation gives for consumers is: read the stream from the version after
the cursor on, process each event and set the cursor to its version; then subscribe, and do the
same with each event that the subscription hands over.  Here the consumer runs in a store in use,
with its writers, dispatcher and watcher, while other processes write too; it may crash anywhere,
with its process, and start again.

* `getCursorImpl_set` — a cursor is read back as it was set, for every `u64`;
* `consumerStep`, `ConsumerTaken` — the consumer, and what its steps do;
* `Stands` — how far a consumer has come, and what is ahead of it;
* `stands_step` — a step takes it past what it processes, or what is there when it registers; only
  a crash takes it back.
-/
import Fossic.AcceptedEvents
import Fossic.PointReads
import Fossic.RangePages
import Fossic.ReplayTail

namespace Fossic

open Transition KeyedList Checkpoint KeySort

/-! ### The table of cursors -/

/-- The rows of `cursors`: the version, as an `i64`, and `updated_at`. -/
abbrev Cursors := List ((String × String × String) × (ℤ × Int64))

def getCursorImpl (cursors : Cursors) (consumerId streamId branch : String) : Option UInt64 :=
  (find cursors (consumerId, streamId, branch)).map fun row => i64AsU64 row.1

def setCursorImpl (cursors : Cursors) (consumerId streamId branch : String) (version : UInt64)
    (now : Int64) : Cursors :=
  upsert cursors (consumerId, streamId, branch) (u64AsI64 version, now)

theorem i64AsU64_u64AsI64 (v : UInt64) : i64AsU64 (u64AsI64 v) = v := by
  have hlt := v.toNat_lt
  refine UInt64.toNat_inj.mp ?_
  change (u64AsI64 v % 18446744073709551616).toNat % 18446744073709551616 = v.toNat
  rw [u64AsI64_eq]
  split <;> omega

/-- A cursor is read back as it was set, and the others are left alone. -/
theorem getCursorImpl_set {cursors : Cursors} {consumerId streamId branch consumerId' streamId'
    branch' : String} {version : UInt64} {now : Int64} :
    getCursorImpl (setCursorImpl cursors consumerId streamId branch version now) consumerId'
        streamId' branch' =
      if (consumerId, streamId, branch) = (consumerId', streamId', branch') then some version
      else getCursorImpl cursors consumerId' streamId' branch' := by
  rw [getCursorImpl, setCursorImpl, find_upsert]
  split
  · rw [Option.map_some, i64AsU64_u64AsI64]
  · rfl

/-! ### The consumer -/

/-- What a consumer is called, the stream and branch that it follows, and what it subscribes to.
The query may match other streams too, whose events have cursors of their own. -/
structure Consumer where
  consumerId : String
  streamId : String
  branch : String
  query : SubscribeQuery
  queueSize : ℕ

namespace Consumer

variable {d : Deps} (c : Consumer)

def mode : SubscriptionMode := .postCommit c.queueSize

/-- The subscription is to the stream and branch, at least. -/
def Covers : Prop := (newEntry c.query c.mode (-1) []).covers c.streamId c.branch = true

instance : Decidable c.Covers := inferInstanceAs (Decidable (_ = true))

def rows (db : Db) : List EventRow := db.rowsOn c.streamId c.branch

def cursor (cursors : Cursors) : Option UInt64 :=
  getCursorImpl cursors c.consumerId c.streamId c.branch

/-- The version after the cursor, to read from. -/
def fromVersion (cursors : Cursors) : UInt64 :=
  match c.cursor cursors with
  | some version => version + 1
  | none => 0

/-- `row_to_event` succeeds on every row from the version on. -/
def Readable (db : Db) (fromVersion : UInt64) : Prop :=
  ∀ r ∈ c.rows db, u64AsI64 fromVersion ≤ r.version → r.tagsParse = true

instance (db : Db) (fromVersion : UInt64) : Decidable (c.Readable db fromVersion) :=
  inferInstanceAs (Decidable (∀ r ∈ c.rows db, _ → _))

/-- The events of the stream and branch that the queue of subscription `id` took. -/
def accepted (w : World d) (id : ℕ) : List StoredEvent := acceptedOn w id c.streamId c.branch

end Consumer

/-- Where a consumer is; `unset` has been processed, and its cursor is not set yet. -/
inductive ConsumerPhase
  /-- it has not started, or has crashed -/
  | down
  /-- with the events that `read_range` returned -/
  | reading (todo : List StoredEvent) (unset : Option StoredEvent)
  /-- in `Store::subscribe`: its call is the `i`-th of those that have read their seed -/
  | subscribing (i : ℕ)
  /-- with subscription `id`, out of whose queue it has taken so many events -/
  | live (id taken : ℕ) (unset : Option StoredEvent)

namespace ConsumerPhase

def unset : ConsumerPhase → Option StoredEvent
  | reading _ unset | live _ _ unset => unset
  | down | subscribing _ => none

/-- The cursor has been set. -/
def settled : ConsumerPhase → ConsumerPhase
  | reading todo _ => reading todo none
  | live id taken _ => live id taken none
  | phase => phase

/-- Calls that register leave the list of those that have read their seed. -/
def after : ConsumerPhase → Action → Option ConsumerPhase
  | subscribing i, .subscribeInsert j =>
    if j < i then some (subscribing (i - 1))
    else if j = i then none
    else some (subscribing i)
  | phase, _ => some phase

end ConsumerPhase

/-- A store in use, and a consumer with the history of what it has processed. -/
structure Consuming (d : Deps) where
  world : World d
  cursors : Cursors
  phase : ConsumerPhase
  processed : List StoredEvent

/-- A fresh file has just been opened. -/
def Consuming.init (d : Deps) (now : Int64) (sysWriter : Bool) : Consuming d :=
  ⟨.init d (.bootstrap now) sysWriter, [], .down, []⟩

inductive ConsumerAction
  /-- anything else that happens in the store -/
  | world (a : Action)
  /-- `set_cursor` for another consumer, stream or branch -/
  | setOther (consumerId streamId branch : String) (version : UInt64) (now : Int64)
  /-- `get_cursor`, and `read_range` from the version after it on -/
  | start
  /-- The consumer processes the next event that it has read, or that its queue has taken. -/
  | process
  | setCursor (now : Int64)
  /-- `Store::subscribe` reads its seed. -/
  | subscribeSeed
  /-- and registers -/
  | subscribeInsert
  /-- The process ends, and the store is opened again. -/
  | crash

section Steps

variable {d : Deps} (registry : UpcasterRegistry) (fuel : ℕ) (c : Consumer)

def consumerStep (s : Consuming d) : ConsumerAction → Option (Consuming d)
  | .world a =>
    match s.phase.after a, worldStep d s.world a with
    | some phase, some world => some { s with world := world, phase := phase }
    | _, _ => none
  | .setOther consumerId streamId branch version now =>
    if (consumerId, streamId, branch) = (c.consumerId, c.streamId, c.branch) then none
    else some { s with cursors := setCursorImpl s.cursors consumerId streamId branch version now }
  | .start =>
    match s.phase with
    | .down =>
      if c.Readable s.world.db (c.fromVersion s.cursors) then
        match readRange registry fuel s.world.db
          ⟨c.streamId, c.branch, some (c.fromVersion s.cursors), none, none, none⟩ with
        | some (.ok events) => some { s with phase := .reading events none }
        | some (.error _) => some s
        | none => none
      else some s
    | _ => none
  | .process =>
    match s.phase with
    | .reading (event :: todo) none =>
      some { s with phase := .reading todo (some event), processed := s.processed ++ [event] }
    | .live id taken none =>
      (c.accepted s.world id)[taken]?.map fun event =>
        { s with
          phase := .live id (taken + 1) (some event)
          processed := s.processed ++ [event] }
    | _ => none
  | .setCursor now =>
    s.phase.unset.map fun event =>
      { s with
        cursors := setCursorImpl s.cursors c.consumerId c.streamId c.branch event.version now
        phase := s.phase.settled }
  | .subscribeSeed =>
    match s.phase with
    | .reading [] none =>
      (worldStep d s.world (.subscribeSeed c.query c.mode)).map fun world =>
        { s with world := world, phase := .subscribing s.world.subscribing.length }
    | _ => none
  | .subscribeInsert =>
    match s.phase with
    | .subscribing i =>
      (worldStep d s.world (.subscribeInsert i)).map fun world =>
        { s with world := world, phase := .live s.world.registry.nextId 0 none }
    | _ => none
  | .crash =>
    some { s with world := .init d s.world.db s.world.sysWriter, phase := .down }

/-- **What a step does**, action by action. -/
inductive ConsumerTaken (s : Consuming d) : ConsumerAction → Consuming d → Prop
  | stepped {a : Action} {world : World d} {phase : ConsumerPhase}
      (hphase : s.phase.after a = some phase) (hstep : worldStep d s.world a = some world) :
      ConsumerTaken s (.world a) { s with world := world, phase := phase }
  | other {consumerId streamId branch : String} {version : UInt64} {now : Int64}
      (hkey : (consumerId, streamId, branch) ≠ (c.consumerId, c.streamId, c.branch)) :
      ConsumerTaken s (.setOther consumerId streamId branch version now)
        { s with cursors := setCursorImpl s.cursors consumerId streamId branch version now }
  | started {events : List StoredEvent} (hphase : s.phase = .down)
      (hread : readRange registry fuel s.world.db
        ⟨c.streamId, c.branch, some (c.fromVersion s.cursors), none, none, none⟩ =
          some (.ok events)) :
      ConsumerTaken s .start { s with phase := .reading events none }
  | failed (hphase : s.phase = .down) : ConsumerTaken s .start s
  | read {event : StoredEvent} {todo : List StoredEvent}
      (hphase : s.phase = .reading (event :: todo) none) :
      ConsumerTaken s .process
        { s with phase := .reading todo (some event), processed := s.processed ++ [event] }
  | taken {id taken : ℕ} {event : StoredEvent} (hphase : s.phase = .live id taken none)
      (hevent : (c.accepted s.world id)[taken]? = some event) :
      ConsumerTaken s .process
        { s with
          phase := .live id (taken + 1) (some event)
          processed := s.processed ++ [event] }
  | cursorSet {event : StoredEvent} {now : Int64} (hunset : s.phase.unset = some event) :
      ConsumerTaken s (.setCursor now)
        { s with
          cursors := setCursorImpl s.cursors c.consumerId c.streamId c.branch event.version now
          phase := s.phase.settled }
  | seeded {world : World d} (hphase : s.phase = .reading [] none)
      (hstep : worldStep d s.world (.subscribeSeed c.query c.mode) = some world) :
      ConsumerTaken s .subscribeSeed
        { s with world := world, phase := .subscribing s.world.subscribing.length }
  | registered {i : ℕ} {world : World d} (hphase : s.phase = .subscribing i)
      (hstep : worldStep d s.world (.subscribeInsert i) = some world) :
      ConsumerTaken s .subscribeInsert
        { s with world := world, phase := .live s.world.registry.nextId 0 none }
  | crashed : ConsumerTaken s .crash
      { s with world := .init d s.world.db s.world.sysWriter, phase := .down }

variable {registry fuel c} {s s' : Consuming d} {a : ConsumerAction}

theorem consumerTaken_of_step (h : consumerStep registry fuel c s a = some s') :
    ConsumerTaken registry fuel c s a s' := by
  cases a with
  | world a =>
    rw [consumerStep] at h
    split at h
    · rename_i hphase hstep
      obtain rfl := Option.some_inj.mp h
      exact .stepped hphase hstep
    · exact absurd h (by simp)
  | setOther consumerId streamId branch version now =>
    rw [consumerStep] at h
    split at h
    · exact absurd h (by simp)
    · rename_i hkey
      obtain rfl := Option.some_inj.mp h
      exact .other hkey
  | start =>
    rw [consumerStep] at h
    split at h
    · rename_i hphase
      split at h
      · split at h
        · rename_i hread
          obtain rfl := Option.some_inj.mp h
          exact .started hphase hread
        · obtain rfl := Option.some_inj.mp h
          exact .failed hphase
        · exact absurd h (by simp)
      · -- a row cannot be decoded
        obtain rfl := Option.some_inj.mp h
        exact .failed hphase
    · exact absurd h (by simp)
  | process =>
    rw [consumerStep] at h
    split at h
    · rename_i hphase
      obtain rfl := Option.some_inj.mp h
      exact .read hphase
    · rename_i hphase
      obtain ⟨event, hevent, rfl⟩ := Option.map_eq_some_iff.mp h
      exact .taken hphase hevent
    · exact absurd h (by simp)
  | setCursor now =>
    obtain ⟨event, hunset, rfl⟩ := Option.map_eq_some_iff.mp h
    exact .cursorSet hunset
  | subscribeSeed =>
    rw [consumerStep] at h
    split at h
    · rename_i hphase
      obtain ⟨world, hstep, rfl⟩ := Option.map_eq_some_iff.mp h
      exact .seeded hphase hstep
    · exact absurd h (by simp)
  | subscribeInsert =>
    rw [consumerStep] at h
    split at h
    · rename_i hphase
      obtain ⟨world, hstep, rfl⟩ := Option.map_eq_some_iff.mp h
      exact .registered hphase hstep
    · exact absurd h (by simp)
  | crash =>
    obtain rfl := Option.some_inj.mp h
    exact .crashed

end Steps

/-! ### Rows and events -/

variable {d : Deps} {registry : UpcasterRegistry} {fuel : ℕ} {c : Consumer} {s s' s'' : Consuming d}
  {a : ConsumerAction} {as bs : List ConsumerAction} {db db' : Db} {r row : EventRow}
  {e : StoredEvent} {rows : List EventRow} {m k : ℤ} {w w' : World d} {p : Action}

/-- The event is that of the row, as a range read or a subscription has it. -/
def EventOf (r : EventRow) (e : StoredEvent) : Prop :=
  e.id = r.id ∧ e.version = i64AsU64 r.version

def Consuming.HasProcessed (s : Consuming d) (r : EventRow) : Prop :=
  ∃ e ∈ s.processed, EventOf r e

/-- How often the row has been processed. -/
def Consuming.times (s : Consuming d) (r : EventRow) : ℕ :=
  s.processed.countP fun e => e.version = i64AsU64 r.version

theorem Describes.eventOf (h : Describes e r) : EventOf r e := by
  rw [h]
  exact ⟨rfl, rfl⟩

theorem EventOf.version (h : EventOf r e) (hsane : db.Sane) (hr : r ∈ c.rows db) :
    u64AsI64 e.version = r.version := by
  have hrange := hsane.range r (mem_rowsOn.mp hr).1
  rw [h.2, u64AsI64_i64AsU64 hrange.1 hrange.2]

theorem forall₂_upcast {events : List StoredEvent}
    (h : upcastAll registry fuel (rows.map rowToEvent) = some (.ok events)) :
    List.Forall₂ EventOf rows events := by
  have hall := upcastAll_eq_ok h
  rw [List.forall₂_map_left_iff] at hall
  refine hall.imp fun r e happly => ?_
  rw [(applyUpcaster_eq_ok happly).2]
  exact ⟨rfl, rfl⟩

theorem rows_strict (hsane : db.Sane) :
    (c.rows db).Pairwise fun r r' => r.version < r'.version :=
  sortBy_strict hsane.distinctOn

/-- A row is known by its version. -/
theorem row_of_version (hsane : db.Sane) (hr : r ∈ c.rows db) (hrow : row ∈ c.rows db)
    (h : r.version = row.version) : r = row := by
  obtain ⟨hr, hon⟩ := mem_rowsOn.mp hr
  obtain ⟨hrow, hon'⟩ := mem_rowsOn.mp hrow
  exact hsane.eq_of_version hr hrow ⟨hon.1.trans hon'.1.symm, hon.2.trans hon'.2.symm⟩ h

/-- Past the first row that comes after a version are those that come after the row. -/
theorem after_next (hsorted : rows.Pairwise fun r r' => r.version < r'.version)
    {rest : List EventRow} (h : after EventRow.version m rows = row :: rest) :
    m < row.version ∧ after EventRow.version row.version rows = rest := by
  have hrow : row ∈ after EventRow.version m rows := by
    rw [h]
    exact List.mem_cons_self
  have hm : m < row.version := of_decide_eq_true (List.mem_filter.mp hrow).2
  have hrest := hsorted.sublist (List.filter_sublist (p := fun r => m < r.version))
  rw [show rows.filter (fun r => m < r.version) = row :: rest from h] at hrest
  refine ⟨hm, ?_⟩
  calc after EventRow.version row.version rows
      = after EventRow.version row.version (after EventRow.version m rows) := by
        rw [after, after, after, List.filter_filter]
        refine List.filter_congr fun r _ => ?_
        rw [← Bool.decide_and]
        exact decide_eq_decide.mpr ⟨fun hr => ⟨hr, hm.trans hr⟩, fun hr => hr.1⟩
    _ = after EventRow.version row.version (row :: rest) := by rw [h]
    _ = rest := by
        rw [after, List.filter_cons_of_neg (by simp)]
        exact List.filter_eq_self.mpr fun r hr =>
          decide_eq_true ((List.pairwise_cons.mp hrest).1 r hr)

/-! ### Steps of the store -/

/-- The histories grow at the end. -/
theorem extends_of_worldStep (hcounted : w.db.Counted) (hstep : worldStep d w p = some w') :
    Extends w.db w'.db := by
  cases effect_of_step hstep with
  | quiet _ hdb => exact hdb ▸ extends_congr rfl
  | committed _ _ _ _ _ _ _ hrows => exact extends_grows hrows hcounted.sane
  | grown _ _ _ hdb hrows =>
    exact (extends_congr hdb).trans (extends_grows hrows (hcounted.sane.congr hdb))
  | sent _ _ _ _ _ _ hdb => exact hdb ▸ extends_congr rfl
  | taken _ _ _ hdb => exact hdb ▸ extends_congr rfl
  | scanned _ _ hdb => exact hdb ▸ extends_congr rfl

/-- A call that has read its seed keeps it until it registers. -/
theorem subscribing_after {i : ℕ} {phase : ConsumerPhase}
    {call : SubscribeQuery × SubscriptionMode × ℤ × StreamCursors}
    (hphase : (ConsumerPhase.subscribing i).after p = some phase)
    (hstep : worldStep d w p = some w') (hcall : w.subscribing[i]? = some call) :
    ∃ j, phase = .subscribing j ∧ w'.subscribing[j]? = some call := by
  cases taken_of_step hstep with
  | seeded q mode =>
    obtain rfl := Option.some_inj.mp hphase
    refine ⟨i, rfl, ?_⟩
    show (w.subscribing ++ [_])[i]? = _
    rw [List.getElem?_append_left (List.getElem?_eq_some_iff.mp hcall).1]
    exact hcall
  | @registered j =>
    rw [ConsumerPhase.after] at hphase
    split at hphase
    · rename_i hlt
      obtain rfl := Option.some_inj.mp hphase
      refine ⟨i - 1, rfl, ?_⟩
      show (w.subscribing.eraseIdx j)[i - 1]? = _
      rw [List.getElem?_eraseIdx, if_neg (by omega), Nat.sub_add_cancel (by omega)]
      exact hcall
    · split at hphase
      · exact absurd hphase (by simp)
      · rename_i hlt hne
        obtain rfl := Option.some_inj.mp hphase
        refine ⟨i, rfl, ?_⟩
        show (w.subscribing.eraseIdx j)[i]? = _
        rw [List.getElem?_eraseIdx, if_pos (by omega)]
        exact hcall
  | _ =>
    obtain rfl := Option.some_inj.mp hphase
    exact ⟨i, rfl, hcall⟩

/-- No other phase is concerned with what happens in the store. -/
theorem after_eq_some {phase phase' : ConsumerPhase} (h : phase.after p = some phase') :
    (∃ i j, phase = .subscribing i ∧ phase' = .subscribing j) ∨ phase' = phase := by
  cases phase with
  | subscribing i =>
    rw [ConsumerPhase.after.eq_def] at h
    split at h
    · rename_i i' j heq
      refine .inl ⟨i, ?_⟩
      split at h
      · exact ⟨_, rfl, (Option.some_inj.mp h).symm⟩
      · split at h
        · exact absurd h (by simp)
        · exact ⟨_, rfl, (Option.some_inj.mp h).symm⟩
    · exact .inr (Option.some_inj.mp h).symm
  | down | reading | live => exact .inr (Option.some_inj.mp h).symm

theorem unset_after {phase phase' : ConsumerPhase} (h : phase.after p = some phase') :
    phase'.unset = phase.unset := by
  rcases after_eq_some h with ⟨i, j, rfl, rfl⟩ | rfl
  · rfl
  · rfl

/-! ### How far a consumer has come -/

/-- The version of the cursor, or `-1`. -/
def Consumer.mark (c : Consumer) (cursors : Cursors) : ℤ :=
  ((c.cursor cursors).map u64AsI64).getD (-1)

/-- What is ahead of a consumer that is past version `m`, by the point where it is. -/
inductive Ahead (c : Consumer) (s : Consuming d) (m : ℤ) : ConsumerPhase → Prop
  | down (hmark : m = c.mark s.cursors) : Ahead c s m .down
  | reading {todo : List StoredEvent} {unset : Option StoredEvent} {last : ℤ}
      (hlast : last ≤ s.world.db.maxVersion c.streamId c.branch)
      (htodo : List.Forall₂ EventOf
        (after EventRow.version m (upTo EventRow.version last (c.rows s.world.db))) todo) :
      Ahead c s m (.reading todo unset)
  | subscribing {i : ℕ} {cursor : ℤ} {streamCursors : StreamCursors}
      (hcall : s.world.subscribing[i]? = some (c.query, c.mode, cursor, streamCursors))
      (hseed : m ≤ (newEntry c.query c.mode cursor streamCursors).cursor c.streamId c.branch) :
      Ahead c s m (.subscribing i)
  | live {id taken : ℕ} {unset : Option StoredEvent} {entry : SubscriberEntry}
      (hentry : find s.world.delivery.registered id = some entry)
      (hseed : entry.cursor c.streamId c.branch ≤ m)
      (htaken : taken ≤ (c.accepted s.world id).length)
      (hdone : ∀ e ∈ (c.accepted s.world id).take taken, e ∈ s.processed)
      (hmark : m = entry.cursor c.streamId c.branch ∨
        ∃ e ∈ (c.accepted s.world id).take taken, u64AsI64 e.version = m) :
      Ahead c s m (.live id taken unset)

/-- A consumer in a store in use is past version `m`. -/
structure Stands (c : Consumer) (s : Consuming d) (m : ℤ) : Prop where
  world : WorldInv s.world
  seeded : Seeded s.world
  counted : s.world.db.Counted
  own : ∀ e ∈ s.processed, ∃ r ∈ c.rows s.world.db, EventOf r e
  here : ∀ version ∈ c.cursor s.cursors, ∃ r ∈ c.rows s.world.db, i64AsU64 r.version = version
  le : m ≤ s.world.db.maxVersion c.streamId c.branch
  unset : ∀ e ∈ s.phase.unset, e ∈ s.processed ∧ u64AsI64 e.version = m
  ahead : Ahead c s m s.phase

/-- What a step of a consumer that is past `m` takes it past. -/
inductive Moved (c : Consumer) (s : Consuming d) (a : ConsumerAction) (s' : Consuming d) (m : ℤ) :
    ℤ → Prop
  | still (hsame : s'.processed = s.processed) : Moved c s a s' m m
  | read (e : StoredEvent) (hup : s.phase ≠ .down) (hprocessed : s'.processed = s.processed ++ [e])
      (hversion : m < u64AsI64 e.version)
      (hnext : ∀ r ∈ c.rows s.world.db, m < r.version → u64AsI64 e.version ≤ r.version) :
      Moved c s a s' m (u64AsI64 e.version)
  | taken (e : StoredEvent) {id taken : ℕ} (hphase : s.phase = .live id taken none)
      (hevent : (c.accepted s.world id)[taken]? = some e)
      (hprocessed : s'.processed = s.processed ++ [e]) (hversion : m < u64AsI64 e.version) :
      Moved c s a s' m (u64AsI64 e.version)
  | registered {k : ℤ} (ha : a = .subscribeInsert) (hle : m ≤ k)
      (hsame : s'.processed = s.processed) : Moved c s a s' m k
  | crashed (ha : a = .crash) (hsame : s'.processed = s.processed) :
      Moved c s a s' m (c.mark s.cursors)

/-! ### One step -/

theorem Consumer.Covers.entry (h : c.Covers) {cursor : ℤ} {streamCursors : StreamCursors} :
    (newEntry c.query c.mode cursor streamCursors).covers c.streamId c.branch = true :=
  h

theorem Stands.mark_le (h : Stands c s m) :
    c.mark s.cursors ≤ s.world.db.maxVersion c.streamId c.branch := by
  rw [Consumer.mark]
  cases hcursor : c.cursor s.cursors with
  | none => exact h.world.sane.le_maxVersion
  | some version =>
    obtain ⟨r, hr, rfl⟩ := h.here version hcursor
    have hrange := h.world.sane.range r (mem_rowsOn.mp hr).1
    show u64AsI64 (i64AsU64 r.version) ≤ _
    rw [u64AsI64_i64AsU64 hrange.1 hrange.2]
    exact le_of_mem_rowsOn hr

/-- The step of the store. -/
theorem stands_world {world : World d} {phase : ConsumerPhase} (h : Stands c s m)
    (hphase : s.phase.after p = some phase) (hstep : worldStep d s.world p = some world) :
    Stands c { s with world := world, phase := phase } m := by
  have hextends := extends_of_worldStep h.counted hstep
  obtain ⟨new, hnew, habove⟩ := hextends.rowsOn c.streamId c.branch
  have hrows : ∀ r ∈ c.rows s.world.db, r ∈ c.rows world.db := by
    intro r hr
    rw [Consumer.rows, hnew]
    exact List.mem_append_left _ hr
  refine ⟨worldInv_step h.world hstep, seeded_step h.world.sane h.seeded hstep,
    hextends.counted h.counted, fun e he => ?_, fun version hversion => ?_,
    h.le.trans (hextends.maxVersion _ _), fun e he => ?_, ?_⟩
  · obtain ⟨r, hr, hevent⟩ := h.own e he
    exact ⟨r, hrows r hr, hevent⟩
  · obtain ⟨r, hr, hevent⟩ := h.here version hversion
    exact ⟨r, hrows r hr, hevent⟩
  · rw [unset_after hphase] at he
    exact h.unset e he
  · have hahead := h.ahead
    show Ahead c _ m phase
    generalize s.phase = old at hphase hahead
    cases hahead with
    | down hmark =>
      obtain rfl := Option.some_inj.mp hphase
      exact .down hmark
    | @reading todo unset last hlast htodo =>
      obtain rfl := Option.some_inj.mp hphase
      refine .reading (hlast.trans (hextends.maxVersion _ _)) ?_
      show List.Forall₂ EventOf (after _ m (upTo _ last (world.db.rowsOn _ _))) todo
      rw [hnew, upTo_append fun r hr => hlast.trans_lt (habove r hr)]
      exact htodo
    | subscribing hcall hseed =>
      obtain ⟨j, rfl, hcall⟩ := subscribing_after hphase hstep hcall
      exact .subscribing hcall hseed
    | @live id taken unset entry hentry hseed htaken hdone hmark =>
      obtain rfl := Option.some_inj.mp hphase
      obtain ⟨rest, hrest⟩ : c.accepted s.world id <+: c.accepted world id := acceptedOn_prefix hstep
      have htake : (c.accepted world id).take taken = (c.accepted s.world id).take taken := by
        rw [← hrest, List.take_append_of_le_length htaken]
      refine .live (registered_of_worldStep hstep hentry) hseed ?_ ?_ ?_
      · rw [← hrest, List.length_append]
        omega
      · rw [htake]
        exact hdone
      · rw [htake]
        exact hmark

/-- What the consumer does with the cursors of others. -/
theorem stands_cursors {cursors : Cursors} (h : Stands c s m)
    (hsame : c.cursor cursors = c.cursor s.cursors) :
    Stands c { s with cursors := cursors } m := by
  refine ⟨h.world, h.seeded, h.counted, h.own, fun version hversion => ?_, h.le, h.unset, ?_⟩
  · exact h.here version (hsame ▸ hversion)
  · show Ahead c _ m s.phase
    have hahead := h.ahead
    generalize s.phase = phase at hahead
    cases hahead with
    | down hmark => exact .down (by rw [hmark, Consumer.mark, Consumer.mark, hsame])
    | reading hlast htodo => exact .reading hlast htodo
    | subscribing hcall hseed => exact .subscribing hcall hseed
    | live hentry hseed htaken hdone hmark => exact .live hentry hseed htaken hdone hmark

/-- A consumer that starts reads what is above its cursor. -/
theorem stands_started {events : List StoredEvent} (h : Stands c s m) (hphase : s.phase = .down)
    (hread : readRange registry fuel s.world.db
      ⟨c.streamId, c.branch, some (c.fromVersion s.cursors), none, none, none⟩ =
        some (.ok events)) :
    Stands c { s with phase := .reading events none } m := by
  have hahead := h.ahead
  rw [hphase] at hahead
  obtain ⟨rfl⟩ := hahead
  refine ⟨h.world, h.seeded, h.counted, h.own, h.here, h.le, by simp [ConsumerPhase.unset], ?_⟩
  have hversion : u64AsI64 (c.fromVersion s.cursors) - 1 = c.mark s.cursors := by
    rw [Consumer.mark, Consumer.fromVersion]
    cases hcursor : c.cursor s.cursors with
    | none => decide
    | some version =>
      obtain ⟨r, hr, rfl⟩ := h.here version hcursor
      have hrange := h.world.sane.range r (mem_rowsOn.mp hr).1
      have hlt : r.version < MAX_ROWS := (le_of_mem_rowsOn hr).trans_lt h.counted.maxVersion_lt
      show _ = u64AsI64 (i64AsU64 r.version)
      rw [u64AsI64_i64AsU64 hrange.1 hrange.2]
      show u64AsI64 (i64AsU64 r.version + 1) - 1 = _
      rw [u64AsI64_succ hrange.1 hlt]
      omega
  have hall : upTo EventRow.version (s.world.db.maxVersion c.streamId c.branch)
      (c.rows s.world.db) = c.rows s.world.db := upTo_eq_self fun r hr => le_of_mem_rowsOn hr
  refine .reading le_rfl ?_
  show List.Forall₂ EventOf (after _ _ (upTo _ (s.world.db.maxVersion _ _) _)) events
  rw [hall, ← hversion]
  refine @forall₂_upcast registry fuel _ _ ?_
  rw [Consumer.rows, ← upTo_all h.world.sane, ← replayEvents_eq h.counted.toFits]
  exact hread

/-- The next event that the consumer has read. -/
theorem stands_read {todo : List StoredEvent} (h : Stands c s m)
    (hphase : s.phase = .reading (e :: todo) none) :
    Stands c { s with phase := .reading todo (some e), processed := s.processed ++ [e] }
        (u64AsI64 e.version) ∧
      m < u64AsI64 e.version ∧
      ∀ r ∈ c.rows s.world.db, m < r.version → u64AsI64 e.version ≤ r.version := by
  have hahead := h.ahead
  rw [hphase] at hahead
  obtain - | @⟨_, _, last, hlast, htodo⟩ := hahead
  obtain ⟨row, rest, hevent, hrest, hafter⟩ := List.forall₂_cons_right_iff.mp htodo
  have hrow : row ∈ after EventRow.version m (upTo EventRow.version last (c.rows s.world.db)) := by
    rw [hafter]
    exact List.mem_cons_self
  have hup : row ∈ upTo EventRow.version last (c.rows s.world.db) := (List.mem_filter.mp hrow).1
  have hmem : row ∈ c.rows s.world.db := (List.mem_filter.mp hup).1
  have hsorted := (rows_strict (c := c) h.world.sane).sublist
    (List.filter_sublist (p := fun r => r.version ≤ last))
  obtain ⟨hm, hnext⟩ := after_next hsorted hafter
  have hversion := hevent.version h.world.sane hmem
  rw [hversion]
  refine ⟨⟨h.world, h.seeded, h.counted, fun e' he' => ?_, h.here, le_of_mem_rowsOn hmem,
    fun e' he' => ?_, .reading hlast ?_⟩, hm, fun r hr hr' => ?_⟩
  · rcases List.mem_append.mp he' with he' | he'
    · exact h.own e' he'
    · obtain rfl := List.mem_singleton.mp he'
      exact ⟨row, hmem, hevent⟩
  · obtain rfl := Option.some_inj.mp he'
    exact ⟨List.mem_append_right _ (List.mem_singleton_self _), hversion⟩
  · show List.Forall₂ EventOf (after _ row.version (upTo _ last (c.rows s.world.db))) todo
    rw [show after _ row.version (upTo _ last (c.rows s.world.db)) = rest from hnext]
    exact hrest
  · -- a row before this one would have come first
    rcases le_or_gt r.version last with hle | hgt
    · have hin : r ∈ after EventRow.version m (upTo EventRow.version last (c.rows s.world.db)) :=
        List.mem_filter.mpr ⟨List.mem_filter.mpr ⟨hr, decide_eq_true hle⟩, decide_eq_true hr'⟩
      rw [hafter] at hin
      rcases List.mem_cons.mp hin with rfl | hin
      · exact le_rfl
      · have hrows := hsorted.sublist (List.filter_sublist (p := fun r => m < r.version))
        rw [show (List.filter _ (List.filter _ (c.rows s.world.db))) = row :: rest from hafter]
          at hrows
        exact ((List.pairwise_cons.mp hrows).1 r hin).le
    · exact (of_decide_eq_true (List.mem_filter.mp hup).2).trans hgt.le

/-- The next event that its queue has taken. -/
theorem stands_taken {id taken : ℕ} (h : Stands c s m) (hphase : s.phase = .live id taken none)
    (hevent : (c.accepted s.world id)[taken]? = some e) :
    Stands c
        { s with
          phase := .live id (taken + 1) (some e)
          processed := s.processed ++ [e] } (u64AsI64 e.version) ∧
      m < u64AsI64 e.version := by
  have hahead := h.ahead
  rw [hphase] at hahead
  obtain - | - | - | @⟨_, _, _, entry, hentry, hseed, htaken, hdone, hmark⟩ := hahead
  have hsound : AcceptedSound s.world id entry c.streamId c.branch := accepted_sound h.world hentry
  have hmem : e ∈ c.accepted s.world id := List.mem_of_getElem? hevent
  obtain ⟨hlt, hget⟩ := List.getElem?_eq_some_iff.mp hevent
  have htake : (c.accepted s.world id).take (taken + 1) =
      (c.accepted s.world id).take taken ++ [e] := by
    rw [List.take_add_one, hevent]
    rfl
  have hm : m < u64AsI64 e.version := by
    rcases hmark with rfl | ⟨e', he', rfl⟩
    · exact hsound.above e hmem
    · have hsorted := hsound.increasing.sublist (List.take_sublist (taken + 1) _)
      rw [show List.take (taken + 1) (acceptedOn _ _ _ _) = _ from htake] at hsorted
      exact (List.pairwise_append.mp hsorted).2.2 e' he' e (List.mem_singleton_self e)
  obtain ⟨r, hr, hon, hd⟩ := hsound.recorded e hmem
  have hrow : r ∈ c.rows s.world.db := mem_rowsOn.mpr ⟨hr, hon⟩
  refine ⟨⟨h.world, h.seeded, h.counted, fun e' he' => ?_, h.here, ?_, fun e' he' => ?_,
    .live hentry (hseed.trans hm.le) hlt (fun e' he' => ?_) (.inr ⟨e, ?_, rfl⟩)⟩, hm⟩
  · rcases List.mem_append.mp he' with he' | he'
    · exact h.own e' he'
    · obtain rfl := List.mem_singleton.mp he'
      exact ⟨r, hrow, hd.eventOf⟩
  · rw [hd.eventOf.version h.world.sane hrow]
    exact le_of_mem_rowsOn hrow
  · obtain rfl := Option.some_inj.mp he'
    exact ⟨List.mem_append_right _ (List.mem_singleton_self _), rfl⟩
  · have he' : e' ∈ (c.accepted s.world id).take (taken + 1) := he'
    rw [htake] at he'
    exact (List.mem_append.mp he').elim (fun hold => List.mem_append_left _ (hdone e' hold))
      fun hnew => List.mem_append_right _ hnew
  · show e ∈ (c.accepted s.world id).take (taken + 1)
    rw [htake]
    exact List.mem_append_right _ (List.mem_singleton_self _)

/-- The cursor is set to the event that has been processed last. -/
theorem stands_set {now : Int64} (h : Stands c s m) (hunset : s.phase.unset = some e) :
    Stands c
      { s with
        cursors := setCursorImpl s.cursors c.consumerId c.streamId c.branch e.version now
        phase := s.phase.settled } m := by
  obtain ⟨hdone, -⟩ := h.unset e hunset
  refine ⟨h.world, h.seeded, h.counted, h.own, fun version hversion => ?_, h.le, ?_, ?_⟩
  · obtain ⟨r, hr, hevent⟩ := h.own e hdone
    rw [Consumer.cursor, getCursorImpl_set, if_pos rfl] at hversion
    obtain rfl := Option.some_inj.mp hversion
    exact ⟨r, hr, hevent.2.symm⟩
  · cases s.phase <;> simp [ConsumerPhase.settled, ConsumerPhase.unset]
  · show Ahead c _ m s.phase.settled
    have hahead := h.ahead
    generalize s.phase = phase at hahead hunset
    cases hahead with
    | down | subscribing => exact absurd hunset (by simp [ConsumerPhase.unset])
    | reading hlast htodo => exact .reading hlast htodo
    | live hentry hseed htaken hdone hmark => exact .live hentry hseed htaken hdone hmark

/-- The seed is the largest version that there is. -/
theorem stands_seeded {world : World d} (hcovers : c.Covers) (h : Stands c s m)
    (hstep : worldStep d s.world (.subscribeSeed c.query c.mode) = some world) {k : ℤ}
    (hk : k ≤ s.world.db.maxVersion c.streamId c.branch) :
    Stands c { s with world := world, phase := .subscribing s.world.subscribing.length } k := by
  have hworld := worldInv_step h.world hstep
  have hseeded := seeded_step h.world.sane h.seeded hstep
  obtain rfl := Option.some_inj.mp hstep
  refine ⟨hworld, hseeded, h.counted, h.own, h.here, hk, by simp [ConsumerPhase.unset], ?_⟩
  refine @Ahead.subscribing _ c _ k _ (seedCursors s.world.db c.query).1
    (seedCursors s.world.db c.query).2 ?_ ?_
  · show (s.world.subscribing ++ [_])[s.world.subscribing.length]? = _
    rw [List.getElem?_append_right le_rfl, Nat.sub_self]
    rfl
  · exact hk.trans_eq (cursor_of_seed hcovers.entry).symm

/-- From its registration on the consumer is past its seed. -/
theorem stands_registered {i : ℕ} {world : World d} (hcovers : c.Covers) (h : Stands c s m)
    (hphase : s.phase = .subscribing i)
    (hstep : worldStep d s.world (.subscribeInsert i) = some world) : ∃ k, m ≤ k ∧
      k ≤ s.world.db.maxVersion c.streamId c.branch ∧
      Stands c { s with world := world, phase := .live s.world.registry.nextId 0 none } k := by
  have hworld := worldInv_step h.world hstep
  have hseeded := seeded_step h.world.sane h.seeded hstep
  have hahead := h.ahead
  rw [hphase] at hahead
  obtain - | - | @⟨_, cursor, streamCursors, hcall, hm⟩ := hahead
  have hle := h.seeded _ _ _ _ (List.mem_of_getElem? hcall) c.streamId c.branch hcovers.entry
  rw [worldStep, hcall] at hstep
  obtain ⟨delivery, hdelivery, rfl⟩ := deliver_eq_some.mp hstep
  obtain rfl := Option.some_inj.mp hdelivery
  refine ⟨_, hm, hle, hworld, hseeded, h.counted, h.own, h.here, hle, by simp [ConsumerPhase.unset],
    @Ahead.live _ c _ _ _ _ _ (newEntry c.query c.mode cursor streamCursors) ?_ le_rfl
      (Nat.zero_le _) (by simp) (.inl rfl)⟩
  show find (s.world.delivery.registered ++ [_]) s.world.registry.nextId = _
  rw [find_append, h.world.delivery.fresh _ le_rfl, if_pos rfl, Option.none_or]

/-- A crash takes it back to its cursor. -/
theorem stands_crashed (h : Stands c s m) :
    Stands c { s with world := .init d s.world.db s.world.sysWriter, phase := .down }
      (c.mark s.cursors) :=
  ⟨worldInv_init h.world.sane _, fun _ _ _ _ hmem => absurd hmem List.not_mem_nil, h.counted, h.own,
    h.here, h.mark_le, by simp [ConsumerPhase.unset], .down rfl⟩

/-- **One step of a consumer**: it comes past events that it processes, or that are there when it
registers; only a crash takes it back. -/
theorem stands_step (hcovers : c.Covers) (h : Stands c s m)
    (hstep : consumerStep registry fuel c s a = some s') :
    ∃ k, Stands c s' k ∧ k ≤ s.world.db.maxVersion c.streamId c.branch ∧ Moved c s a s' m k := by
  cases consumerTaken_of_step hstep with
  | stepped hphase hworld => exact ⟨m, stands_world h hphase hworld, h.le, .still rfl⟩
  | other hkey =>
    refine ⟨m, stands_cursors h ?_, h.le, .still rfl⟩
    rw [Consumer.cursor, getCursorImpl_set, if_neg hkey]
    rfl
  | started hphase hread => exact ⟨m, stands_started h hphase hread, h.le, .still rfl⟩
  | failed => exact ⟨m, h, h.le, .still rfl⟩
  | @read event todo hphase =>
    obtain ⟨hstands, hm, hnext⟩ := stands_read h hphase
    exact ⟨_, hstands, hstands.le, .read event (by rw [hphase]; simp) rfl hm hnext⟩
  | @taken id taken event hphase hevent =>
    obtain ⟨hstands, hm⟩ := stands_taken h hphase hevent
    exact ⟨_, hstands, hstands.le, .taken event hphase hevent rfl hm⟩
  | cursorSet hunset => exact ⟨m, stands_set h hunset, h.le, .still rfl⟩
  | seeded hphase hworld => exact ⟨m, stands_seeded hcovers h hworld h.le, h.le, .still rfl⟩
  | registered hphase hworld =>
    obtain ⟨k, hk, hle, hstands⟩ := stands_registered hcovers h hphase hworld
    exact ⟨k, hstands, hle, .registered rfl hk rfl⟩
  | crashed => exact ⟨_, stands_crashed h, h.mark_le, .crashed rfl rfl⟩

theorem stands_init {now : Int64} {sysWriter : Bool} :
    Stands c (.init d now sysWriter) (-1) where
  world := worldInv_init (bootstrap_sane now) sysWriter
  seeded _ _ _ _ hmem := absurd hmem List.not_mem_nil
  counted := bootstrap_counted now
  own _ he := absurd he List.not_mem_nil
  here _ hversion := absurd hversion (by simp [Consuming.init, Consumer.cursor, getCursorImpl, find])
  le := (bootstrap_sane now).le_maxVersion
  unset := by simp [Consuming.init, ConsumerPhase.unset]
  ahead := .down (by simp [Consuming.init, Consumer.mark, Consumer.cursor, getCursorImpl, find])

end Fossic
