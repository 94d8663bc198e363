/-
One round of the WAL watcher.

A round reads a scan start for every PostCommit subscription, expands patterns to
streams, takes the minimum for each (stream, branch), and sends the events above it.
For an exact subscription the scan start is the cursor that dispatch uses.  For a
glob subscription it is the minimum over the streams seen so far, while dispatch uses
`-1` for a stream not seen yet; the two disagree as soon as one stream has been seen
and another has not.  And one row that cannot be decoded makes the round skip its
(stream, branch).

* `mem_scanned_iff` — what a round sends;
* `CoversAll` — every subscription finds what it has not seen yet among that;
* `coversAll_iff` — this holds exactly when `UnseenCovered` and `GroupsParse` do: for a
  stream that is not in a non-empty map some cursor is low enough, and the rows that are
  fetched along with one that is wanted can be decoded.
-/
import Fossic.Delivery
import Fossic.StoreRuns

namespace Fossic

open KeySort KeyedList Transition

/-! ### The round -/

def listAllStreams (db : Db) : List String := db.streams.map (·.id)

/-- The (stream, branch) pairs that a subscription's pattern stands for. -/
def expand (allStreams : List String) (streamPattern branch : String) : List (String × String) :=
  if isGlob streamPattern then
    (allStreams.filter fun s => globMatches streamPattern s).map fun s => (s, branch)
  else [(streamPattern, branch)]

/-- `or_insert(cursor)`, then lower the entry to `cursor`. -/
def lowerTo (cursor : ℤ) (groups : StreamCursors) (key : String × String) : StreamCursors :=
  upsert groups key (min ((find groups key).getD cursor) cursor)

/-- `group_min`: (stream, branch) to the minimum cursor across all subscribers. -/
def groupMin (allStreams : List String) (cursors : List (ℕ × String × String × ℤ)) :
    StreamCursors :=
  cursors.foldl
    (fun groups c => (expand allStreams c.2.1 c.2.2.1).foldl (lowerTo c.2.2.2) groups) []

/-- `SELECT .. WHERE stream_id = ? AND branch = ? AND version > ? ORDER BY version ASC`. -/
def fetchAfter (db : Db) (key : String × String) (afterVersion : ℤ) : List EventRow :=
  sortBy EventRow.version
    (db.events.filter fun r => r.On key.1 key.2 && decide (afterVersion < r.version))

/-- `fetch_events_after`. -/
def fetchEventsAfter (db : Db) (key : String × String) (afterVersion : ℤ) :
    Except Error (List StoredEvent) :=
  decodeRows (fetchAfter db key afterVersion)

/-- The rows whose events a round sends to the dispatcher: after an error it goes on with
the next group. -/
def scanned (reg : Registry) (db : Db) : List EventRow :=
  (groupMin (listAllStreams db) reg.postCommitCursors).flatMap fun g =>
    match fetchEventsAfter db g.1 g.2 with
    | .ok _ => fetchAfter db g.1 g.2
    | .error _ => []

/-! ### What a round sends -/

variable {reg : Registry} {db : Db} {r : EventRow}

/-- Some contribution to the key is below `v`, if any was or the next one is. -/
theorem exists_lt_lowerTo {groups : StreamCursors} {key key' : String × String} {cursor v : ℤ} :
    (∃ m, find (lowerTo cursor groups key) key' = some m ∧ m < v) ↔
      (∃ m, find groups key' = some m ∧ m < v) ∨ key = key' ∧ cursor < v := by
  rw [lowerTo, find_upsert]
  by_cases hkey : key = key'
  · subst hkey
    rw [if_pos rfl]
    rcases find groups key with _ | m
    · simp
    · simp
  · simp [hkey]

theorem exists_lt_foldl_lowerTo {keys : List (String × String)} {groups : StreamCursors}
    {key' : String × String} {cursor v : ℤ} :
    (∃ m, find (keys.foldl (lowerTo cursor) groups) key' = some m ∧ m < v) ↔
      (∃ m, find groups key' = some m ∧ m < v) ∨ key' ∈ keys ∧ cursor < v := by
  induction keys generalizing groups with
  | nil => simp
  | cons key keys ih =>
    rw [List.foldl_cons, ih, exists_lt_lowerTo, List.mem_cons, or_assoc]
    refine or_congr Iff.rfl ?_
    rw [← or_and_right, eq_comm]

/-- The minimum for a key is below `v` exactly when some subscription for the key
starts below `v`. -/
theorem exists_lt_groupMin {allStreams : List String} {cursors : List (ℕ × String × String × ℤ)}
    {key : String × String} {v : ℤ} :
    (∃ m, find (groupMin allStreams cursors) key = some m ∧ m < v) ↔
      ∃ c ∈ cursors, key ∈ expand allStreams c.2.1 c.2.2.1 ∧ c.2.2.2 < v := by
  have hfold : ∀ groups : StreamCursors,
      (∃ m, find (cursors.foldl (fun groups c =>
        (expand allStreams c.2.1 c.2.2.1).foldl (lowerTo c.2.2.2) groups) groups) key = some m ∧
          m < v) ↔
        (∃ m, find groups key = some m ∧ m < v) ∨
          ∃ c ∈ cursors, key ∈ expand allStreams c.2.1 c.2.2.1 ∧ c.2.2.2 < v := by
    induction cursors with
    | nil => simp
    | cons c cursors ih =>
      intro groups
      rw [List.foldl_cons, ih, exists_lt_foldl_lowerTo, or_assoc]
      refine or_congr Iff.rfl ?_
      simp [or_and_right, exists_or]
  rw [groupMin, hfold]
  simp [find]

theorem nodup_groupMin {allStreams : List String} {cursors : List (ℕ × String × String × ℤ)} :
    ((groupMin allStreams cursors).map Prod.fst).Nodup := by
  have hkeys : ∀ (cursor : ℤ) (keys : List (String × String)) (groups : StreamCursors),
      (groups.map Prod.fst).Nodup →
        ((keys.foldl (lowerTo cursor) groups).map Prod.fst).Nodup := by
    intro cursor keys
    induction keys with
    | nil => exact fun _ h => h
    | cons key keys ih => exact fun groups h => ih _ (nodup_upsert h)
  have hcursors : ∀ groups : StreamCursors, (groups.map Prod.fst).Nodup →
      ((cursors.foldl (fun groups c =>
        (expand allStreams c.2.1 c.2.2.1).foldl (lowerTo c.2.2.2) groups) groups).map
          Prod.fst).Nodup := by
    induction cursors with
    | nil => exact fun _ h => h
    | cons c cursors ih => exact fun groups h => ih _ (hkeys _ _ _ h)
  exact hcursors [] List.nodup_nil

/-- The entry is a live PostCommit subscription for the row's stream and branch. -/
def SubscriberEntry.Watches (entry : SubscriberEntry) (r : EventRow) : Prop :=
  entry.degraded = false ∧ entry.kind ≠ .synchronous ∧ entry.branch = r.branch ∧
    globMatches entry.streamPattern r.streamId = true

theorem mem_postCommitCursors {c : ℕ × String × String × ℤ} :
    c ∈ reg.postCommitCursors ↔ ∃ entry, reg.get c.1 = some entry ∧ entry.degraded = false ∧
      entry.streamPattern = c.2.1 ∧ entry.branch = c.2.2.1 ∧ entry.scanStart = some c.2.2.2 := by
  rw [Registry.postCommitCursors, List.mem_filterMap]
  constructor
  · rintro ⟨p, hp, hc⟩
    split at hc
    · exact absurd hc (by simp)
    · rename_i hdegraded
      obtain ⟨cursor, hstart, rfl⟩ := Option.map_eq_some_iff.mp hc
      exact ⟨p.2, find_of_mem reg.distinct hp, by simpa using hdegraded, rfl, rfl, hstart⟩
  · rintro ⟨entry, hget, hdegraded, hpattern, hbranch, hstart⟩
    refine ⟨(c.1, entry), mem_of_find hget, ?_⟩
    simp [hdegraded, hstart, hpattern, hbranch]

/-- For a declared stream, expansion and dispatch match patterns alike. -/
theorem mem_expand (hdecl : db.streamExists r.streamId = true) {pattern branch : String} :
    (r.streamId, r.branch) ∈ expand (listAllStreams db) pattern branch ↔
      branch = r.branch ∧ globMatches pattern r.streamId = true := by
  have hmem : r.streamId ∈ listAllStreams db := by
    simpa [Db.streamExists, listAllStreams] using hdecl
  rw [expand]
  split
  · simp only [List.mem_map, List.mem_filter, Prod.mk.injEq]
    constructor
    · rintro ⟨s, ⟨-, hmatch⟩, rfl, rfl⟩
      exact ⟨rfl, hmatch⟩
    · rintro ⟨rfl, hmatch⟩
      exact ⟨r.streamId, ⟨hmem, hmatch⟩, rfl, rfl⟩
  · rename_i hglob
    rw [List.mem_singleton, Prod.mk.injEq, globMatches_of_not_isGlob (by simpa using hglob)]
    constructor
    · rintro ⟨rfl, rfl⟩
      exact ⟨rfl, rfl⟩
    · rintro ⟨rfl, rfl⟩
      exact ⟨rfl, rfl⟩

/-- The cursor, or an entry of the map, is below `v`.  An empty map counts as `-1`. -/
def SubscriberEntry.StartsBelow (entry : SubscriberEntry) (v : ℤ) : Prop :=
  match entry.kind with
  | .synchronous => False
  | .postCommit _ walCursor streamCursors =>
    if isGlob entry.streamPattern then
      streamCursors = [] ∧ -1 < v ∨ ∃ p ∈ streamCursors, p.2 < v
    else walCursor < v

theorem startsBelow_iff {entry : SubscriberEntry} {v : ℤ} :
    entry.StartsBelow v ↔ ∃ start, entry.scanStart = some start ∧ start < v := by
  rw [SubscriberEntry.StartsBelow, SubscriberEntry.scanStart]
  cases entry.kind with
  | synchronous => simp
  | postCommit tx walCursor streamCursors =>
    simp only [Option.some.injEq, exists_eq_left']
    split
    · rcases hmin : (streamCursors.map Prod.snd).min? with _ | m
      · have hnil : streamCursors = [] := by simpa using List.min?_eq_none_iff.mp hmin
        simp [hnil]
      · -- the minimum is below `v` exactly when one of the entries is
        obtain ⟨hmem, hle⟩ := List.min?_eq_some_iff.mp hmin
        obtain ⟨p, hp, hpm⟩ := List.mem_map.mp hmem
        have hne : streamCursors ≠ [] := List.ne_nil_of_mem hp
        rw [Option.getD_some]
        constructor
        · rintro (⟨hnil, -⟩ | ⟨q, hq, hlt⟩)
          · exact absurd hnil hne
          · exact (hle q.2 (List.mem_map_of_mem hq)).trans_lt hlt
        · exact fun hlt => .inr ⟨p, hp, hpm ▸ hlt⟩
    · exact Iff.rfl

/-- Some live subscription for the row's stream and branch has a cursor below it. -/
def Registry.Reaches (reg : Registry) (r : EventRow) : Prop :=
  ∃ id entry, reg.get id = some entry ∧ entry.Watches r ∧ entry.StartsBelow r.version

/-- The least cursor of the row's group is below the row. -/
theorem reaches_iff (hdecl : db.streamExists r.streamId = true) : reg.Reaches r ↔
    ∃ m, find (groupMin (listAllStreams db) reg.postCommitCursors) (r.streamId, r.branch)
      = some m ∧ m < r.version := by
  rw [exists_lt_groupMin]
  constructor
  · rintro ⟨id, entry, hget, ⟨hdegraded, -, hbranch, hmatch⟩, hbelow⟩
    obtain ⟨start, hstart, hlt⟩ := startsBelow_iff.mp hbelow
    refine ⟨(id, entry.streamPattern, entry.branch, start), ?_, ?_, hlt⟩
    · exact mem_postCommitCursors.mpr ⟨entry, hget, hdegraded, rfl, rfl, hstart⟩
    · exact (mem_expand hdecl).mpr ⟨hbranch, hmatch⟩
  · rintro ⟨c, hc, hkey, hlt⟩
    obtain ⟨entry, hget, hdegraded, hpattern, hbranch, hstart⟩ := mem_postCommitCursors.mp hc
    obtain ⟨hb, hmatch⟩ := (mem_expand hdecl).mp hkey
    refine ⟨c.1, entry, hget, ⟨hdegraded, fun hkind => ?_, ?_, ?_⟩, ?_⟩
    · rw [SubscriberEntry.scanStart, hkind] at hstart
      exact absurd hstart (by simp)
    · rw [hbranch, hb]
    · rw [hpattern, hmatch]
    · exact startsBelow_iff.mpr ⟨c.2.2.2, hstart, hlt⟩

theorem mem_fetchAfter {key : String × String} {m : ℤ} :
    r ∈ fetchAfter db key m ↔ r ∈ db.events ∧ r.On key.1 key.2 ∧ m < r.version := by
  simp [fetchAfter]

/-- A group is sent when each of its rows can be decoded. -/
theorem mem_fetched {key : String × String} {m : ℤ} :
    (r ∈ match fetchEventsAfter db key m with
      | .ok _ => fetchAfter db key m
      | .error _ => []) ↔
      r ∈ fetchAfter db key m ∧ ∀ r' ∈ fetchAfter db key m, r'.tagsParse = true := by
  rcases hfetch : fetchEventsAfter db key m with e | events
  · refine ⟨fun h => absurd h List.not_mem_nil, fun ⟨_, hall⟩ => ?_⟩
    exact absurd (hfetch.symm.trans (decodeRows_eq_ok_iff.mpr ⟨hall, rfl⟩)) (by simp)
  · exact ⟨fun h => ⟨h, (decodeRows_eq_ok_iff.mp hfetch).1⟩, fun h => h.1⟩

/-- **What a round sends**: the rows that a live subscription for their stream and branch
has a cursor below, if all such rows of the stream and branch can be decoded. -/
theorem mem_scanned_iff (hdecl : db.streamExists r.streamId = true) :
    r ∈ scanned reg db ↔ r ∈ db.events ∧ reg.Reaches r ∧
      ∀ r' ∈ db.events, r'.On r.streamId r.branch → reg.Reaches r' → r'.tagsParse = true := by
  -- a row is fetched where it lies above the least cursor of its group
  have hgroups : r ∈ scanned reg db ↔ ∃ m,
      find (groupMin (listAllStreams db) reg.postCommitCursors) (r.streamId, r.branch) = some m ∧
        r ∈ fetchAfter db (r.streamId, r.branch) m ∧
        ∀ r' ∈ fetchAfter db (r.streamId, r.branch) m, r'.tagsParse = true := by
    simp only [scanned, List.mem_flatMap, mem_fetched]
    constructor
    · rintro ⟨⟨key, m⟩, hg, hr, hall⟩
      obtain rfl : key = (r.streamId, r.branch) :=
        Prod.ext (mem_fetchAfter.mp hr).2.1.1.symm (mem_fetchAfter.mp hr).2.1.2.symm
      exact ⟨m, (find_eq_some_iff nodup_groupMin).mpr hg, hr, hall⟩
    · rintro ⟨m, hm, hr, hall⟩
      exact ⟨_, mem_of_find hm, hr, hall⟩
  -- the same for the other rows of the group
  have hothers : ∀ r' : EventRow, r'.On r.streamId r.branch → (reg.Reaches r' ↔
      ∃ m, find (groupMin (listAllStreams db) reg.postCommitCursors) (r.streamId, r.branch)
        = some m ∧ m < r'.version) := by
    rintro r' ⟨hs, hb⟩
    rw [← hs, ← hb]
    exact reaches_iff (hs ▸ hdecl)
  rw [hgroups]
  constructor
  · rintro ⟨m, hm, hr, hall⟩
    obtain ⟨hmem, -, hlt⟩ := mem_fetchAfter.mp hr
    refine ⟨hmem, (reaches_iff hdecl).mpr ⟨m, hm, hlt⟩, fun r' hr' hon hreaches => ?_⟩
    obtain ⟨m', hm', hlt'⟩ := (hothers r' hon).mp hreaches
    obtain rfl := Option.some_inj.mp (hm.symm.trans hm')
    exact hall r' (mem_fetchAfter.mpr ⟨hr', hon, hlt'⟩)
  · rintro ⟨hr, hreaches, hall⟩
    obtain ⟨m, hm, hlt⟩ := (reaches_iff hdecl).mp hreaches
    refine ⟨m, hm, mem_fetchAfter.mpr ⟨hr, ⟨rfl, rfl⟩, hlt⟩, fun r' hr' => ?_⟩
    obtain ⟨hmem, hon, hlt'⟩ := mem_fetchAfter.mp hr'
    exact hall r' hmem hon ((hothers r' hon).mpr ⟨m, hm, hlt'⟩)

/-! ### Coverage -/

/-- The round sends every event that some live subscription would take. -/
def CoversAll (reg : Registry) (db : Db) : Prop :=
  ∀ r ∈ db.events, db.streamExists r.streamId = true → ∀ id entry, reg.get id = some entry →
    entry.Watches r → entry.cursor r.streamId r.branch < r.version → r ∈ scanned reg db

/-- The glob subscription has seen streams, but not the row's. -/
def SubscriberEntry.Unseen (entry : SubscriberEntry) (r : EventRow) : Prop :=
  isGlob entry.streamPattern = true ∧ ∃ tx walCursor streamCursors,
    entry.kind = .postCommit tx walCursor streamCursors ∧ streamCursors ≠ [] ∧
      find streamCursors (r.streamId, r.branch) = none

/-- For every row of a stream that a glob subscription has not seen, while it has
seen others, some subscription for that stream has a cursor below the row. -/
def UnseenCovered (reg : Registry) (db : Db) : Prop :=
  ∀ r ∈ db.events, db.streamExists r.streamId = true → -1 < r.version →
    ∀ id entry, reg.get id = some entry → entry.Watches r → entry.Unseen r → reg.Reaches r

/-- Where a row is wanted, the rows of its stream and branch that are above the cursor of a
subscription for them can be decoded. -/
def GroupsParse (reg : Registry) (db : Db) : Prop :=
  ∀ r ∈ db.events, db.streamExists r.streamId = true → ∀ id entry, reg.get id = some entry →
    entry.Watches r → entry.cursor r.streamId r.branch < r.version →
      ∀ r' ∈ db.events, r'.On r.streamId r.branch → reg.Reaches r' → r'.tagsParse = true

/-- Unless the stream is unseen, the scan starts no higher than dispatch does. -/
theorem scanStart_le_cursor {entry : SubscriberEntry} (hkind : entry.kind ≠ .synchronous)
    (hseen : ¬entry.Unseen r) :
    ∃ start, entry.scanStart = some start ∧ start ≤ entry.cursor r.streamId r.branch := by
  rcases hk : entry.kind with _ | ⟨tx, walCursor, streamCursors⟩
  · exact absurd hk hkind
  · rw [SubscriberEntry.scanStart, SubscriberEntry.cursor, hk]
    refine ⟨_, rfl, ?_⟩
    show (if isGlob entry.streamPattern = true then (streamCursors.map Prod.snd).min?.getD (-1)
      else walCursor) ≤ cursorOf entry.streamPattern walCursor streamCursors r.streamId r.branch
    rw [cursorOf]
    split
    · rename_i hglob
      rcases hmin : (streamCursors.map Prod.snd).min? with _ | m
      · -- nothing seen at all: both are `-1`
        have hnil : streamCursors = [] := by simpa using List.min?_eq_none_iff.mp hmin
        rw [hnil]
        exact le_rfl
      · rcases hfind : find streamCursors (r.streamId, r.branch) with _ | c
        · refine absurd ⟨hglob, tx, walCursor, streamCursors, hk, ?_, hfind⟩ hseen
          rintro rfl
          exact absurd hmin (by simp)
        · exact (List.min?_eq_some_iff.mp hmin).2 c (List.mem_map.mpr ⟨_, mem_of_find hfind, rfl⟩)
    · exact le_rfl

theorem cursor_of_unseen {entry : SubscriberEntry} (h : entry.Unseen r) :
    entry.cursor r.streamId r.branch = -1 := by
  obtain ⟨hglob, tx, walCursor, streamCursors, hk, -, hfind⟩ := h
  rw [SubscriberEntry.cursor, hk]
  show cursorOf entry.streamPattern walCursor streamCursors r.streamId r.branch = -1
  rw [cursorOf, if_pos hglob, hfind, Option.getD_none]

/-- **A round covers every subscription exactly when unseen streams are covered**
by some other cursor, and what is fetched along with a wanted row can be decoded. -/
theorem coversAll_iff (reg : Registry) (db : Db) :
    CoversAll reg db ↔ UnseenCovered reg db ∧ GroupsParse reg db := by
  constructor
  · intro h
    constructor
    · intro r hr hdecl hversion id entry hget hwatches hunseen
      have hlt : entry.cursor r.streamId r.branch < r.version := by
        rw [cursor_of_unseen hunseen]
        exact hversion
      exact ((mem_scanned_iff hdecl).mp (h r hr hdecl id entry hget hwatches hlt)).2.1
    · intro r hr hdecl id entry hget hwatches hlt
      exact ((mem_scanned_iff hdecl).mp (h r hr hdecl id entry hget hwatches hlt)).2.2
  · rintro ⟨hcovered, hparse⟩ r hr hdecl id entry hget hwatches hlt
    refine (mem_scanned_iff hdecl).mpr ⟨hr, ?_, hparse r hr hdecl id entry hget hwatches hlt⟩
    by_cases hunseen : entry.Unseen r
    · rw [cursor_of_unseen hunseen] at hlt
      exact hcovered r hr hdecl hlt id entry hget hwatches hunseen
    · obtain ⟨start, hstart, hle⟩ := scanStart_le_cursor hwatches.2.1 hunseen
      exact ⟨id, entry, hget, hwatches, startsBelow_iff.mpr ⟨start, hstart, hle.trans_lt hlt⟩⟩

/-- Declare a stream and append `null` to it. -/
def startStream (streamId : String) (db : Db) : Db :=
  [.declareStream streamId "t" none 0, .write [] (.append
    { streamId := streamId, eventType := streamId, payload := .null }) fun _ => 0].foldl
      (exec plainDeps) db

/-- A glob subscription made when the stream `a` has one event: the first event of
the stream `b`, started later, is above its cursor for `b` and is not scanned. -/
theorem unseen_stream_not_scanned : ¬ ∀ (reg : Registry) (db : Db), CoversAll reg db := by
  intro h
  let q : SubscribeQuery := { streamPattern := "*" }
  let db₀ := startStream "a" (Db.bootstrap 0)
  let db₁ := startStream "b" db₀
  let reg := Registry.new.subscribe q (.postCommit 8) (seedCursors db₀ q).1 (seedCursors db₀ q).2
  obtain ⟨r, hr⟩ : ∃ r, db₁.events[1]? = some r := ⟨_, rfl⟩
  have hsent := h reg db₁ r (List.mem_of_getElem? hr)
    (by obtain rfl := Option.some_inj.mp hr; decide) 1 _ rfl
    ⟨rfl, SubscriberKind.noConfusion, by obtain rfl := Option.some_inj.mp hr; decide,
      by obtain rfl := Option.some_inj.mp hr; decide⟩
    (by obtain rfl := Option.some_inj.mp hr; decide)
  have hempty : (scanned reg db₁).isEmpty = true := by decide
  rw [List.isEmpty_iff.mp hempty] at hsent
  exact absurd hsent List.not_mem_nil

end Fossic
