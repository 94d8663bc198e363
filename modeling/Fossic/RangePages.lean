/-
Bounded range reads and the paging through them.

`Store::read_range_bounded` reads a range up to a budget of events and payload
bytes.  When it stops early it returns a cursor with the version of the first event
that it left out, and a call that is given the cursor reads from that version on.

* `readRangeBoundedImpl_spec` — a page is the front of the range;
* `readRangeBoundedImpl_ne_nil` — and not an empty one;
* `FollowsPages` — the calls that follow the cursors, with other callers in between;
* `pages_eq_readRange` — put together, the pages are what `read_range` returns at
  the end.
-/
import Fossic.ReadOutcome
import Fossic.Paging

namespace Fossic

open Paging KeySort Transition

/-! ### The bounded read -/

/-- The rows of the query from a version on, `ORDER BY version ASC`, with no limit. -/
def selectRange (db : Db) (q : ReadQuery) (start : UInt64) : List EventRow :=
  let stop := (q.toVersion.map u64AsI64).getD i64Max
  sortBy EventRow.version (db.events.filter fun r =>
    r.On q.streamId q.branch && u64AsI64 start ≤ r.version && r.version ≤ stop
      && (q.eventTypeFilter.all fun t => r.eventType = t))

def readRangeBoundedImpl (db : Db) (q : ReadQuery) (resumeVersion : Option UInt64)
    (budget : Budget) : ReadOutcome :=
  let start := resumeVersion.getD (q.fromVersion.getD 0)
  let page := fill (fun r : EventRow => r.payload.length) budget 0 0 (selectRange db q start)
  let data := page.1.map rowToEvent
  match page.2 with
  | [] => .complete data
  | row :: _ => .truncated data
    (some (.range q.streamId q.branch (rowToEvent row).version))
    (if budget.exceedCount data.length then .resultCount else .byteSize)

/-- `Store::read_range_bounded`; `options` are the budgets that the store was opened
with. -/
def readRangeBounded (registry : UpcasterRegistry) (fuel : ℕ) (options : Budget) (db : Db)
    (q : ReadQuery) (budget : Budget) (resume : Option CursorInner) :
    Option (Except Error ReadOutcome) :=
  match resume with
  | none => upcastOutcome registry fuel (readRangeBoundedImpl db q none (budget.or options))
  | some (.range _ _ nextVersion) =>
    upcastOutcome registry fuel (readRangeBoundedImpl db q (some nextVersion) (budget.or options))
  | some _ => some (.error (.internal "cursor type mismatch: expected Range"))

/-- Where the call starts to read. -/
def startVersion (q : ReadQuery) : Option CursorInner → UInt64
  | some (.range _ _ nextVersion) => nextVersion
  | _ => q.fromVersion.getD 0

variable {registry : UpcasterRegistry} {fuel : ℕ} {options budget : Budget} {d : Deps}
  {db db' dbLast : Db} {q : ReadQuery} {resume cursor : Option CursorInner}
  {data : List StoredEvent} {reason : TruncationReason}

/-! ### Ranges -/

/-- The rows that a query may return, whatever its lower bound. -/
def rowsFor (db : Db) (q : ReadQuery) : List EventRow :=
  (db.rowsOn q.streamId q.branch).filter fun r =>
    r.version ≤ (q.toVersion.map u64AsI64).getD i64Max && q.eventTypeFilter.all fun t => r.eventType = t

/-- A range is what the history has from its start on. -/
theorem selectRange_eq (start : UInt64) :
    selectRange db q start = atOrAbove EventRow.version (u64AsI64 start) (rowsFor db q) := by
  rw [selectRange, rowsFor, atOrAbove, List.filter_filter, Db.rowsOn, ← sortBy_filter,
    List.filter_filter]
  refine congrArg _ (List.filter_congr fun r _ => ?_)
  rw [Bool.and_assoc, Bool.and_assoc, Bool.and_comm]

theorem rowsFor_sorted (h : db.Sane) :
    (rowsFor db q).Pairwise fun r r' => r.version < r'.version :=
  (sortBy_strict h.distinctOn).sublist List.filter_sublist

/-- `read_range` without its limit reads the same range. -/
theorem readRangeImpl_eq_selectRange (h : db.Fits) :
    readRangeImpl db { q with limit := none } =
      (selectRange db q (q.fromVersion.getD 0)).map rowToEvent := by
  rw [readRangeImpl]
  show (orderAndLimit i64Max _).map rowToEvent = _
  rw [orderAndLimit_i64Max h]
  rfl

/-! ### Pages -/

/-- The outcome of a page that was cut from `rows`, with `rest` left out. -/
def cutOutcome (q : ReadQuery) (page rest : List EventRow) (reason : TruncationReason) :
    ReadOutcome :=
  match rest with
  | [] => .complete (page.map rowToEvent)
  | row :: _ => .truncated (page.map rowToEvent)
    (some (.range q.streamId q.branch (rowToEvent row).version)) reason

/-- A page is the front of the range. -/
theorem readRangeBoundedImpl_spec (db : Db) (q : ReadQuery) (resumeVersion : Option UInt64)
    (budget : Budget) : ∃ page rest reason,
      selectRange db q (resumeVersion.getD (q.fromVersion.getD 0)) = page ++ rest ∧
      readRangeBoundedImpl db q resumeVersion budget = cutOutcome q page rest reason := by
  let cut := fill (fun r : EventRow => r.payload.length) budget 0 0
    (selectRange db q (resumeVersion.getD (q.fromVersion.getD 0)))
  let reason : TruncationReason :=
    if budget.exceedCount (cut.1.map rowToEvent).length then .resultCount else .byteSize
  refine ⟨cut.1, cut.2, reason, fill_append.symm, ?_⟩
  show (match cut.2 with | [] => _ | row :: _ => _) = _
  split
  · rename_i hrest
    rw [hrest]
    rfl
  · rename_i row rest hrest
    rw [hrest]
    rfl

/-- Unless no event at all is allowed, a page that leaves events out has one itself. -/
theorem readRangeBoundedImpl_ne_nil {resumeVersion : Option UInt64}
    (h : readRangeBoundedImpl db q resumeVersion budget = .truncated data cursor reason) :
    data ≠ [] ↔ budget.maxResults ≠ some 0 := by
  rw [readRangeBoundedImpl] at h
  split at h
  · exact absurd h (by simp)
  · rename_i row rest hrest
    obtain ⟨rfl, -, -⟩ := ReadOutcome.truncated.inj h
    rw [Ne, List.map_eq_nil_iff]
    refine fill_ne_nil_iff fun hempty => ?_
    -- an empty range leaves nothing out
    rw [hempty] at hrest
    exact absurd hrest (by simp [fill])

/-- A call that succeeds upcasts a page read from its start version on. -/
theorem readRangeBounded_eq_ok {outcome : ReadOutcome}
    (h : readRangeBounded registry fuel options db q budget resume = some (.ok outcome)) :
    ∃ page rest reason, selectRange db q (startVersion q resume) = page ++ rest ∧
      upcastOutcome registry fuel (cutOutcome q page rest reason) = some (.ok outcome) := by
  have hspec := fun resumeVersion => readRangeBoundedImpl_spec db q resumeVersion (budget.or options)
  rw [readRangeBounded.eq_def] at h
  split at h
  · obtain ⟨page, rest, reason, hselect, himpl⟩ := hspec none
    exact ⟨page, rest, reason, hselect, himpl ▸ h⟩
  · rename_i nextVersion
    obtain ⟨page, rest, reason, hselect, himpl⟩ := hspec (some nextVersion)
    exact ⟨page, rest, reason, hselect, himpl ▸ h⟩
  · exact absurd h (by simp)

/-- The last page has all that is left. -/
theorem complete_spec
    (h : readRangeBounded registry fuel options db q budget resume = some (.ok (.complete data))) :
    upcastAll registry fuel ((selectRange db q (startVersion q resume)).map rowToEvent)
      = some (.ok data) := by
  obtain ⟨page, rest, reason, hselect, houtcome⟩ := readRangeBounded_eq_ok h
  obtain ⟨events, hcut, hupcast⟩ := upcastOutcome_complete houtcome
  rw [hselect]
  cases rest with
  | nil =>
    obtain rfl := ReadOutcome.complete.inj hcut
    rwa [List.append_nil]
  | cons row rest => exact absurd hcut (by simp [cutOutcome])

/-- Any other page is followed by the row its cursor names. -/
theorem truncated_spec (h : readRangeBounded registry fuel options db q budget resume
    = some (.ok (.truncated data cursor reason))) :
    ∃ page row rest, selectRange db q (startVersion q resume) = page ++ row :: rest ∧
      upcastAll registry fuel (page.map rowToEvent) = some (.ok data) ∧
      cursor = some (.range q.streamId q.branch (rowToEvent row).version) := by
  obtain ⟨page, rest, reason', hselect, houtcome⟩ := readRangeBounded_eq_ok h
  obtain ⟨events, hcut, hupcast⟩ := upcastOutcome_truncated houtcome
  cases rest with
  | nil => exact absurd hcut (by simp [cutOutcome])
  | cons row rest =>
    obtain ⟨hevents, hcursor, -⟩ := ReadOutcome.truncated.inj hcut
    exact ⟨page, row, rest, hselect, hevents ▸ hupcast, hcursor.symm⟩

/-! ### Following the cursors -/

/-- The calls from the one that resumes at `resume` on `db` to the one that returns
`Complete` on `dbLast`, each with budgets of its own and with any calls but purges
in between; `data` are their pages put together. -/
inductive FollowsPages (d : Deps) (registry : UpcasterRegistry) (fuel : ℕ) (options : Budget)
    (q : ReadQuery) : Db → Option CursorInner → List StoredEvent → Db → Prop
  | last {db : Db} {resume : Option CursorInner} {data : List StoredEvent} (budget : Budget)
      (hread : readRangeBounded registry fuel options db q budget resume
        = some (.ok (.complete data))) :
      FollowsPages d registry fuel options q db resume data db
  | more {db db' dbLast : Db} {resume : Option CursorInner} {cursor : CursorInner}
      {data data' : List StoredEvent} {reason : TruncationReason} (budget : Budget)
      (ops : List StoreOp)
      (hread : readRangeBounded registry fuel options db q budget resume
        = some (.ok (.truncated data (some cursor) reason)))
      (hops : ∀ op ∈ ops, op.isPurge = false) (hrun : run (storeStep d) db ops = some db')
      (rest : FollowsPages d registry fuel options q db' (some cursor) data' dbLast) :
      FollowsPages d registry fuel options q db resume (data ++ data') dbLast

theorem run_extends {ops : List StoreOp} (hops : ∀ op ∈ ops, op.isPurge = false)
    (hrun : run (storeStep d) db ops = some db') (h : db.Fits) : db'.Fits ∧ Extends db db' := by
  refine run_invariant (I := fun s : Db => s.Fits ∧ Extends db s)
    (P := fun _ op => op.isPurge = false) (fun s op s' hs hop hstep => ?_)
    ⟨h, extends_congr rfl⟩ (along_of_forall hops) hrun
  obtain rfl := Option.some_inj.mp hstep
  obtain ⟨db₁, rows, hevents, -, hgrows, -⟩ := @exec_grows d s op hop
  have hfits := hs.1.congr hevents
  exact ⟨hfits.grows hgrows, (hs.2.trans (extends_congr hevents)).trans
    (extends_grows hgrows hfits.sane)⟩

theorem FollowsPages.extends (h : FollowsPages d registry fuel options q db resume data dbLast)
    (hfits : db.Fits) : dbLast.Fits ∧ Extends db dbLast := by
  induction h with
  | last => exact ⟨hfits, extends_congr rfl⟩
  | more budget ops _ hops hrun _ ih =>
    obtain ⟨hfits', hextends⟩ := run_extends hops hrun hfits
    obtain ⟨hlast, hextends'⟩ := ih hfits'
    exact ⟨hlast, hextends.trans hextends'⟩

/-- What is read from a start version on, by one call after another, is what the last
store has from there on. -/
theorem FollowsPages.data_eq (h : FollowsPages d registry fuel options q db resume data dbLast)
    (hfits : db.Fits) :
    upcastAll registry fuel ((selectRange dbLast q (startVersion q resume)).map rowToEvent)
      = some (.ok data) := by
  induction h with
  | last budget hread => exact complete_spec hread
  | @more db db' dbLast resume cursor data data' reason budget ops hread hops hrun rest ih =>
    obtain ⟨hfits', hextends⟩ := run_extends hops hrun hfits
    obtain ⟨hlast, hextends'⟩ := rest.extends hfits'
    obtain ⟨page, row, left, hselect, hupcast, hcursor⟩ := truncated_spec hread
    obtain rfl := Option.some_inj.mp hcursor
    -- the log of the query has only grown above
    obtain ⟨new, hnew, -⟩ := (hextends.trans hextends').rowsOn q.streamId q.branch
    have hgrown : rowsFor dbLast q = rowsFor db q ++ new.filter fun r =>
        r.version ≤ (q.toVersion.map u64AsI64).getD i64Max
          && q.eventTypeFilter.all fun t => r.eventType = t := by
      rw [rowsFor, hnew, List.filter_append]
      rfl
    have hrow : u64AsI64 (rowToEvent row).version = row.version := by
      have hmem : row ∈ rowsFor db q := by
        have hmem : row ∈ selectRange db q (startVersion q resume) := by
          rw [hselect]
          exact List.mem_append_right _ List.mem_cons_self
        rw [selectRange_eq] at hmem
        exact List.mem_of_mem_filter hmem
      have hrange := hfits.sane.range row (mem_rowsOn.mp (List.mem_of_mem_filter hmem)).1
      exact u64AsI64_i64AsU64 hrange.1 hrange.2
    have hrest := ih hfits'
    rw [selectRange_eq] at hrest ⊢
    rw [selectRange_eq] at hselect
    rw [hgrown, atOrAbove_resume (hgrown ▸ rowsFor_sorted hlast.sane) hselect, ← hgrown,
      List.map_append]
    refine upcastAll_append_iff.mpr ⟨_, _, hupcast, ?_, rfl⟩
    rw [← hrow]
    exact hrest

/-- **Paging loses and repeats nothing**: from any reachable store, for every query
and all budgets, and with any calls but purges between the pages, the pages put
together are what `read_range` returns for the query without its limit when the
last page was read. -/
theorem pages_eq_readRange (d : Deps) (now : Int64) (ops : List StoreOp) (db dbLast : Db)
    (hrun : run (storeStep d) (Db.bootstrap now) ops = some db) (registry : UpcasterRegistry)
    (fuel : ℕ) (options : Budget) (q : ReadQuery) (data : List StoredEvent)
    (hpages : FollowsPages d registry fuel options q db none data dbLast) :
    readRange registry fuel dbLast { q with limit := none } = some (.ok data) := by
  have hfits := run_fits hrun
  rw [readRange, readRangeImpl_eq_selectRange (hpages.extends hfits).1]
  exact hpages.data_eq hfits

/-- One event on the first page, and another one appended before the second. -/
theorem pages_eq_readRange_between : ∃ (dbLast : Db) (data : List StoredEvent),
    data.map (·.eventType) = ["a", "b", "c"] ∧
    readRange [] 1 dbLast { streamId := "s", branch := "main" } = some (.ok data) := by
  refine ⟨_, _, ?_, pages_eq_readRange flatDeps 0
    [.declareStream "s" "t" none 0, appendNull "a", appendNull "b"] _ _ rfl [] 1 ⟨none, none⟩
    { streamId := "s", branch := "main" } _
    (.more ⟨some 1, none⟩ [appendNull "c"] rfl (by decide) rfl (.last ⟨none, none⟩ rfl))⟩
  rfl

end Fossic
