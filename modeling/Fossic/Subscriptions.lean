/-
The subscription registry.

`SubscriberEntry.dispatch` is what one event does to one PostCommit entry: nothing,
a `try_send` that succeeds, or one that fails.  `dispatchPostCommit` runs it over all
entries under the read lock (`firstPass`) and then, under the write lock, advances
the cursors of the entries that took the event (`secondPass`).  The two passes are
separate definitions because registrations may change in between.

Exact subscriptions keep one cursor and glob subscriptions one for each stream
seen; `cursor` reads whichever applies.
-/
import Fossic.Tables
import Fossic.BoundedChannel
import Fossic.KeyedList

namespace Fossic

open BoundedChannel KeyedList

/-! ### Entries -/

inductive SubscriptionMode
  | synchronous
  | postCommit (queueSize : ℕ)

structure SubscribeQuery where
  streamPattern : String
  branch : String := "main"
  includeSystem : Bool := false

/-- Per-(stream, branch) last version seen. -/
abbrev StreamCursors := List ((String × String) × ℤ)

inductive SubscriberKind
  | synchronous
  | postCommit (tx : Channel StoredEvent) (walCursor : ℤ) (streamCursors : StreamCursors)

structure SubscriberEntry where
  streamPattern : String
  branch : String
  includeSystem : Bool
  degraded : Bool
  kind : SubscriberKind

/-- The entries by subscription id, ids being counted up from 1: no id occurs
twice, and `nextId` is above those in use. -/
structure Registry where
  entries : List (ℕ × SubscriberEntry)
  nextId : ℕ
  distinct : (entries.map Prod.fst).Nodup
  fresh : ∀ id ∈ entries.map Prod.fst, id < nextId

namespace Registry

def new : Registry := ⟨[], 1, List.nodup_nil, by simp⟩

def get (reg : Registry) (id : ℕ) : Option SubscriberEntry := find reg.entries id

/-- Rewrite the entries in place. -/
def mapEntries (f : ℕ → SubscriberEntry → SubscriberEntry) (reg : Registry) : Registry where
  entries := mapVal f reg.entries
  nextId := reg.nextId
  distinct := by rw [keys_mapVal]; exact reg.distinct
  fresh := by rw [keys_mapVal]; exact reg.fresh

end Registry

def newEntry (q : SubscribeQuery) (mode : SubscriptionMode) (initialCursor : ℤ)
    (initialStreamCursors : StreamCursors) : SubscriberEntry where
  streamPattern := q.streamPattern
  branch := q.branch
  includeSystem := q.includeSystem
  degraded := false
  kind :=
    match mode with
    | .synchronous => .synchronous
    | .postCommit queueSize =>
      .postCommit (.bounded queueSize) initialCursor initialStreamCursors

namespace Registry

def subscribe (reg : Registry) (q : SubscribeQuery) (mode : SubscriptionMode)
    (initialCursor : ℤ) (initialStreamCursors : StreamCursors) : Registry where
  entries := reg.entries ++ [(reg.nextId, newEntry q mode initialCursor initialStreamCursors)]
  nextId := reg.nextId + 1
  distinct := by
    rw [List.map_append]
    refine List.nodup_append.mpr ⟨reg.distinct, List.nodup_singleton _, ?_⟩
    intro i hi j hj
    obtain rfl := List.mem_singleton.mp hj
    exact (reg.fresh i hi).ne
  fresh := by
    intro i hi
    rw [List.map_append] at hi
    rcases List.mem_append.mp hi with hi | hi
    · exact (reg.fresh i hi).trans (Nat.lt_succ_self _)
    · exact List.mem_singleton.mp hi ▸ Nat.lt_succ_self _

def unsubscribe (reg : Registry) (id : ℕ) : Registry where
  entries := erase reg.entries id
  nextId := reg.nextId
  distinct := reg.distinct.sublist (List.filter_sublist.map _)
  fresh := fun i hi => reg.fresh i ((List.filter_sublist.map _).subset hi)

def hasSubscribers (reg : Registry) : Bool := !reg.entries.isEmpty

end Registry

/-- The cursors that `Store::subscribe` reads from the tables, so that what is
already committed is not replayed. -/
def seedCursors (db : Db) (q : SubscribeQuery) : ℤ × StreamCursors :=
  if isGlob q.streamPattern then
    let streams := ((db.events.filter fun r => r.branch = q.branch).map (·.streamId)).dedup
    (-1, (streams.filter fun s => globMatches q.streamPattern s).map fun s =>
      ((s, q.branch), db.maxVersion s q.branch))
  else (db.maxVersion q.streamPattern q.branch, [])

/-- The cursors read are those of rows, or `-1`. -/
theorem seedCursors_ge {db : Db} (hdb : ∀ r ∈ db.events, 0 ≤ r.version) (q : SubscribeQuery) :
    -1 ≤ (seedCursors db q).1 ∧ ∀ p ∈ (seedCursors db q).2, -1 ≤ p.2 := by
  have hmax : ∀ streamId branch, -1 ≤ db.maxVersion streamId branch := by
    intro streamId branch
    rcases db.maxVersion_attained streamId branch with h | ⟨r, hr, -, h⟩
    · rw [h]
    · have := hdb r hr
      omega
  rw [seedCursors]
  split
  · refine ⟨le_rfl, fun p hp => ?_⟩
    obtain ⟨s, -, rfl⟩ := List.mem_map.mp hp
    exact hmax s q.branch
  · exact ⟨hmax _ _, by simp⟩

/-! ### Dispatch to one entry -/

/-- The branch, the system-stream rule and the pattern let events of the stream and
branch through. -/
def SubscriberEntry.covers (entry : SubscriberEntry) (streamId branch : String) : Bool :=
  entry.branch = branch && !(startsWith streamId "_" && !entry.includeSystem) &&
    globMatches entry.streamPattern streamId

/-- The checks that both dispatch functions make before they look at the kind. -/
def SubscriberEntry.wants (entry : SubscriberEntry) (event : StoredEvent) : Bool :=
  entry.covers event.streamId event.branch && !entry.degraded

/-- The effective cursor: `wal_cursor` for an exact pattern, else the entry of
`stream_cursors`, or `-1` for a stream not seen yet. -/
def cursorOf (pattern : String) (walCursor : ℤ) (streamCursors : StreamCursors)
    (streamId branch : String) : ℤ :=
  if isGlob pattern then (find streamCursors (streamId, branch)).getD (-1) else walCursor

inductive Outcome
  | skipped
  | delivered
  | full
  | disconnected
  deriving DecidableEq

def SubscriberEntry.dispatch (event : StoredEvent) (entry : SubscriberEntry) :
    SubscriberEntry × Outcome :=
  match entry.kind with
  | .synchronous => (entry, .skipped)
  | .postCommit tx walCursor streamCursors =>
    if !entry.wants event then (entry, .skipped)
    else if u64AsI64 event.version ≤
        cursorOf entry.streamPattern walCursor streamCursors event.streamId event.branch then
      (entry, .skipped)
    else
      match tx.trySend event with
      | (tx', .sent) =>
        ({ entry with kind := .postCommit tx' walCursor streamCursors }, .delivered)
      | (_, .full) => ({ entry with degraded := true }, .full)
      | (_, .disconnected) => (entry, .disconnected)

/-- Advance the cursor of an entry that took an event. -/
def SubscriberEntry.advance (streamId branch : String) (version : ℤ) (entry : SubscriberEntry) :
    SubscriberEntry :=
  match entry.kind with
  | .synchronous => entry
  | .postCommit tx walCursor streamCursors =>
    if isGlob entry.streamPattern then
      let e := (find streamCursors (streamId, branch)).getD (-1)
      { entry with
        kind := .postCommit tx walCursor (upsert streamCursors (streamId, branch) (max e version)) }
    else { entry with kind := .postCommit tx (max walCursor version) streamCursors }

/-! ### Dispatch -/

/-- What the event does to each entry. -/
def Registry.outcomes (reg : Registry) (event : StoredEvent) : List (ℕ × Outcome) :=
  reg.entries.map fun p => (p.1, (p.2.dispatch event).2)

def idsWith (o : Outcome) (outcomes : List (ℕ × Outcome)) : List ℕ :=
  (outcomes.filter fun p => p.2 = o).map Prod.fst

/-- The pass under the read lock: offer the event to every entry. -/
def Registry.firstPass (reg : Registry) (event : StoredEvent) : Registry :=
  reg.mapEntries fun _ entry => (entry.dispatch event).1

/-- The pass under the write lock: advance the cursors of the entries in
`delivered` that are still registered. -/
def Registry.secondPass (reg : Registry) (event : StoredEvent) (delivered : List ℕ) : Registry :=
  reg.mapEntries fun id entry =>
    if id ∈ delivered then entry.advance event.streamId event.branch (u64AsI64 event.version)
    else entry

/-- `dispatch_post_commit` when nothing happens between its passes; returns the
newly degraded ids. -/
def Registry.dispatchPostCommit (reg : Registry) (event : StoredEvent) : Registry × List ℕ :=
  let outcomes := reg.outcomes event
  ((reg.firstPass event).secondPass event (idsWith .delivered outcomes), idsWith .full outcomes)

/-- The synchronous entries whose handler is called with the event. -/
def Registry.syncCalls (reg : Registry) (event : StoredEvent) : List ℕ :=
  (reg.entries.filter fun p =>
    match p.2.kind with
    | .synchronous => p.2.wants event
    | .postCommit _ _ _ => false).map Prod.fst

/-- `dispatch_sync`: call the handlers; those that panic (`panics`) are marked
degraded and returned. -/
def Registry.dispatchSync (reg : Registry) (event : StoredEvent) (panics : ℕ → Bool) :
    Registry × List ℕ :=
  let degraded := (reg.syncCalls event).filter panics
  (reg.mapEntries fun id entry =>
    if id ∈ degraded then { entry with degraded := true } else entry, degraded)

/-- The cursor that the WAL watcher gets: `wal_cursor` for an exact pattern, else
`min(stream_cursors)`, or `-1` when there are none. -/
def SubscriberEntry.scanStart (entry : SubscriberEntry) : Option ℤ :=
  match entry.kind with
  | .synchronous => none
  | .postCommit _ walCursor streamCursors =>
    some (if isGlob entry.streamPattern then (streamCursors.map Prod.snd).min?.getD (-1)
      else walCursor)

/-- `post_commit_cursors`: `(id, stream_pattern, branch, cursor)` of the PostCommit
entries that are not degraded. -/
def Registry.postCommitCursors (reg : Registry) : List (ℕ × String × String × ℤ) :=
  reg.entries.filterMap fun p =>
    if p.2.degraded then none
    else p.2.scanStart.map fun cursor => (p.1, p.2.streamPattern, p.2.branch, cursor)

/-- A step of an entry's handler thread. -/
def SubscriberEntry.receiverStep (entry : SubscriberEntry) (step : ReceiverStep) :
    Option SubscriberEntry :=
  match entry.kind with
  | .synchronous => none
  | .postCommit tx walCursor streamCursors =>
    (tx.receiverStep step).map fun tx' =>
      { entry with kind := .postCommit tx' walCursor streamCursors }

def Registry.receiverStep (reg : Registry) (id : ℕ) (step : ReceiverStep) : Option Registry :=
  match reg.get id with
  | none => none
  | some entry =>
    (entry.receiverStep step).map fun entry' =>
      reg.mapEntries fun i e => if i = id then entry' else e

/-! ### One entry -/

namespace SubscriberEntry

/-- The effective cursor of a PostCommit entry for a stream and branch. -/
def cursor (entry : SubscriberEntry) (streamId branch : String) : ℤ :=
  match entry.kind with
  | .synchronous => -1
  | .postCommit _ walCursor streamCursors =>
    cursorOf entry.streamPattern walCursor streamCursors streamId branch

variable {entry entry' : SubscriberEntry} {event : StoredEvent} {streamId branch : String} {v : ℤ}

/-- **What one event does to one entry**: nothing, because the entry is not
interested or its cursor is not below the event; or a `try_send`, with its three
results. -/
theorem dispatch_cases (entry : SubscriberEntry) (event : StoredEvent) :
    (entry.dispatch event = (entry, .skipped) ∧
      (entry.kind ≠ .synchronous → entry.wants event = true →
        u64AsI64 event.version ≤ entry.cursor event.streamId event.branch)) ∨
    ∃ tx walCursor streamCursors, entry.kind = .postCommit tx walCursor streamCursors ∧
      entry.wants event = true ∧
      entry.cursor event.streamId event.branch < u64AsI64 event.version ∧
      (((tx.trySend event).2 = .sent ∧ entry.dispatch event =
          ({ entry with kind := .postCommit (tx.trySend event).1 walCursor streamCursors },
            .delivered)) ∨
        ((tx.trySend event).2 = .full ∧
          entry.dispatch event = ({ entry with degraded := true }, .full)) ∨
        ((tx.trySend event).2 = .disconnected ∧
          entry.dispatch event = (entry, .disconnected))) := by
  rw [dispatch, cursor]
  split
  · rename_i hkind
    exact .inl ⟨rfl, fun h => absurd hkind h⟩
  · rename_i tx walCursor streamCursors hkind
    by_cases hwants : entry.wants event = true
    · by_cases hle : u64AsI64 event.version ≤
          cursorOf entry.streamPattern walCursor streamCursors event.streamId event.branch
      · rw [hwants, Bool.not_true, if_neg Bool.false_ne_true, if_pos hle]
        exact .inl ⟨rfl, fun _ _ => hle⟩
      · refine .inr ⟨tx, walCursor, streamCursors, hkind, hwants, not_le.mp hle, ?_⟩
        rw [hwants, Bool.not_true, if_neg Bool.false_ne_true, if_neg hle]
        rcases hsend : tx.trySend event with ⟨tx', r⟩
        cases r with
        | sent => exact .inl ⟨rfl, rfl⟩
        | full => exact .inr (.inl ⟨rfl, rfl⟩)
        | disconnected => exact .inr (.inr ⟨rfl, rfl⟩)
    · rw [Bool.not_eq_true] at hwants
      rw [hwants, Bool.not_false, if_pos rfl]
      exact .inl ⟨rfl, fun _ h => absurd h Bool.false_ne_true⟩

theorem wants_degraded (h : entry.degraded = true) : entry.wants event = false := by
  simp [wants, h]

/-- Dispatch leaves the cursors alone; they move in the second pass. -/
@[simp] theorem cursor_dispatch :
    (entry.dispatch event).1.cursor streamId branch = entry.cursor streamId branch := by
  obtain ⟨h, -⟩ | ⟨tx, w, sc, hkind, -, -, ⟨-, h⟩ | ⟨-, h⟩ | ⟨-, h⟩⟩ := entry.dispatch_cases event
  · rw [h]
  · rw [h]
    simp [cursor, hkind]
  · rw [h, cursor, cursor]
  · rw [h]

/-- A degraded entry is left as it is. -/
theorem dispatch_degraded (h : entry.degraded = true) :
    entry.dispatch event = (entry, .skipped) := by
  obtain ⟨h', -⟩ | ⟨_, _, _, -, hwants, -⟩ := entry.dispatch_cases event
  · exact h'
  · rw [wants_degraded h] at hwants
    exact absurd hwants Bool.false_ne_true

/-- Dispatch does not change what kind of subscription it is. -/
theorem kind_dispatch (h : entry.kind ≠ .synchronous) :
    (entry.dispatch event).1.kind ≠ .synchronous := by
  obtain ⟨hd, -⟩ | ⟨_, _, _, -, -, -, ⟨-, hd⟩ | ⟨-, hd⟩ | ⟨-, hd⟩⟩ := entry.dispatch_cases event
  · rwa [hd]
  · rw [hd]
    exact SubscriberKind.noConfusion
  · rwa [hd]
  · rwa [hd]

theorem not_degraded_of_wants (h : entry.wants event = true) : entry.degraded = false := by
  by_contra hd
  rw [Bool.not_eq_false] at hd
  rw [wants_degraded hd] at h
  exact Bool.false_ne_true h

/-- A queue takes an event above the cursor, from an entry that is not degraded. -/
theorem dispatch_delivered (h : (entry.dispatch event).2 = .delivered) :
    entry.degraded = false ∧ (entry.dispatch event).1.kind ≠ .synchronous ∧
      entry.cursor event.streamId event.branch < u64AsI64 event.version := by
  obtain ⟨hd, -⟩ | ⟨_, _, _, hkind, hwants, hlt, -⟩ := entry.dispatch_cases event
  · rw [hd] at h
    exact absurd h (by simp)
  · refine ⟨not_degraded_of_wants hwants, kind_dispatch ?_, hlt⟩
    rw [hkind]
    exact SubscriberKind.noConfusion

/-- A full queue is met once: the entry was not degraded, and now it is. -/
theorem dispatch_full (h : (entry.dispatch event).2 = .full) :
    entry.degraded = false ∧ (entry.dispatch event).1.degraded = true := by
  obtain ⟨hd, -⟩ | ⟨_, _, _, -, hwants, -, ⟨-, hd⟩ | ⟨-, hd⟩ | ⟨-, hd⟩⟩ :=
    entry.dispatch_cases event
  · rw [hd] at h
    exact absurd h (by simp)
  · rw [hd] at h
    exact absurd h (by simp)
  · rw [hd]
    exact ⟨not_degraded_of_wants hwants, rfl⟩
  · rw [hd] at h
    exact absurd h (by simp)

@[simp] theorem degraded_advance :
    (entry.advance streamId branch v).degraded = entry.degraded := by
  rw [advance]
  split
  · rfl
  · split <;> rfl

theorem cursor_advance {streamId' branch' : String} (hkind : entry.kind ≠ .synchronous) :
    (entry.advance streamId branch v).cursor streamId' branch' =
      if isGlob entry.streamPattern = true ∧ (streamId, branch) ≠ (streamId', branch') then
        entry.cursor streamId' branch'
      else max (entry.cursor streamId' branch') v := by
  rcases hk : entry.kind with _ | ⟨tx, w, sc⟩
  · exact absurd hk hkind
  · by_cases hglob : isGlob entry.streamPattern = true
    · by_cases hkey : (streamId, branch) = (streamId', branch')
      · obtain ⟨rfl, rfl⟩ := Prod.mk.inj hkey
        simp [advance, cursor, hk, cursorOf, hglob, find_upsert]
      · simp [advance, cursor, hk, cursorOf, hglob, find_upsert, hkey]
    · simp [advance, cursor, hk, cursorOf, hglob]

theorem cursor_le_advance {streamId' branch' : String} :
    entry.cursor streamId' branch' ≤ (entry.advance streamId branch v).cursor streamId' branch' := by
  by_cases hkind : entry.kind = .synchronous
  · rw [advance, hkind]
  · rw [cursor_advance hkind]
    split
    · exact le_rfl
    · exact le_max_left _ _

end SubscriberEntry

/-! ### What is found in the registry -/

variable {reg : Registry} {id j : ℕ} {entry : SubscriberEntry} {event : StoredEvent}

namespace Registry

@[simp] theorem get_mapEntries {f : ℕ → SubscriberEntry → SubscriberEntry} :
    (reg.mapEntries f).get id = (reg.get id).map (f id) :=
  find_mapVal

theorem get_unsubscribe : (reg.unsubscribe id).get j = if id = j then none else reg.get j :=
  find_erase

theorem lt_nextId_of_get (h : reg.get id = some entry) : id < reg.nextId :=
  reg.fresh id (List.mem_map.mpr ⟨_, mem_of_find h, rfl⟩)

theorem get_nextId : reg.get reg.nextId = none :=
  find_eq_none fun hmem => absurd (reg.fresh _ hmem) (lt_irrefl _)

theorem get_subscribe {q : SubscribeQuery} {mode : SubscriptionMode} {c : ℤ} {sc : StreamCursors} :
    (reg.subscribe q mode c sc).get id =
      if reg.nextId = id then some (newEntry q mode c sc) else reg.get id := by
  rw [get, subscribe, find_append]
  split
  · rename_i h
    subst h
    rw [show find reg.entries reg.nextId = none from reg.get_nextId, Option.none_or]
  · rw [Option.or_none]
    rfl

end Registry

end Fossic
