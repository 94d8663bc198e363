/-
Cursors of other queries.

A cursor names the query that it comes from in part: a range cursor has the stream and the
branch, one of a read by correlation id has that id, and one of a causation walk has the
direction.  A call that is given a cursor compares the kind of the read and the direction of
a walk.  The rest is not looked at, so a cursor of another query is taken for one of its own.

* `CursorKind` and `QueryIdentity` — what a call compares, and what tells queries apart;
* `call_of_kind_ne` — a cursor of another kind is an error on every store;
* `call_relabelled` — any other cursor is as good as one of the query's own;
* `foreign_range` — a range read starts where the cursor says;
* `honoured_iff` — the pairs of calls for which cursors are told apart.
-/
import Fossic.PagingProgress
import Fossic.WalksAgree

namespace Fossic

open Paging LevelWalk

/-! ### Bounded reads -/

/-- The bounded reads that return cursors, with what a caller passes them besides the budget
and the cursor. -/
inductive BoundedRead
  | range (q : ReadQuery)
  | correlation (correlationId : EventId)
  | walk (start : EventId) (direction : WalkDirection) (maxDepth : ℕ) (sampling : SamplingMode)

/-- The call of a bounded read; `options` are the budgets that the store was opened with. -/
def BoundedRead.call (registry : UpcasterRegistry) (fuel : ℕ) (options : Budget) (db : Db) :
    BoundedRead → Budget → Option CursorInner → Option (Except Error ReadOutcome)
  | range q => readRangeBounded registry fuel options db q
  | correlation correlationId => readByCorrelationBounded registry fuel options db correlationId
  | walk start direction maxDepth sampling =>
    walkCausationBounded registry fuel options db start direction maxDepth sampling

/-- What tells a query from another. -/
inductive QueryIdentity
  | range (streamId branch : String)
  | correlation (correlationId : EventId)
  | walk (start : EventId) (direction : WalkDirection)
  deriving DecidableEq

def BoundedRead.identity : BoundedRead → QueryIdentity
  | range q => .range q.streamId q.branch
  | correlation correlationId => .correlation correlationId
  | walk start direction _ _ => .walk start direction

/-- What the calls compare of a cursor. -/
inductive CursorKind
  | range
  | correlation
  | causation (direction : UInt8)
  deriving DecidableEq

def CursorInner.kind : CursorInner → CursorKind
  | range _ _ _ => .range
  | correlation _ _ => .correlation
  | causation _ direction _ => .causation direction

def BoundedRead.kind : BoundedRead → CursorKind
  | range _ => .range
  | correlation _ => .correlation
  | walk _ direction _ _ => .causation direction.byte

/-- The cursor with the names of the query's own stream, branch or correlation id. -/
def BoundedRead.relabelled : BoundedRead → CursorInner → CursorInner
  | range q, .range _ _ nextVersion => .range q.streamId q.branch nextVersion
  | correlation correlationId, .correlation _ lastSeenId => .correlation correlationId lastSeenId
  | _, cursor => cursor

/-- The cursor is one that a call of the read returned, on some store. -/
def Produced (r : BoundedRead) (cursor : CursorInner) : Prop :=
  ∃ (registry : UpcasterRegistry) (fuel : ℕ) (options budget : Budget) (db : Db)
    (resume : Option CursorInner) (data : List StoredEvent) (reason : TruncationReason),
    r.call registry fuel options db budget resume =
      some (.ok (.truncated data (some cursor) reason))

/-- A read of another query is an error with the cursor, whatever the store holds then. -/
def Honoured (r r' : BoundedRead) (cursor : CursorInner) : Prop :=
  r.identity ≠ r'.identity →
    ∀ (registry : UpcasterRegistry) (fuel : ℕ) (options budget : Budget) (db : Db),
      ∃ e, r'.call registry fuel options db budget (some cursor) = some (.error e)

variable {registry : UpcasterRegistry} {fuel : ℕ} {options budget : Budget} {db : Db}
  {r r' : BoundedRead} {q : ReadQuery} {cursor : CursorInner} {resume : Option CursorInner}
  {start : EventId} {direction : WalkDirection} {sampling : SamplingMode}
  {maxDepth rounds depth byteCount : ℕ} {frontier seen : List EventId}
  {results : List EventRow} {data : List StoredEvent} {reason : TruncationReason}

/-! ### What a call looks at -/

/-- A cursor of another kind is an error. -/
theorem call_of_kind_ne (h : cursor.kind ≠ r.kind) :
    ∃ e, r.call registry fuel options db budget (some cursor) = some (.error e) := by
  cases r with
  | range q =>
    cases cursor with
    | range => exact absurd rfl h
    | correlation | causation => exact ⟨_, rfl⟩
  | correlation correlationId =>
    cases cursor with
    | correlation => exact absurd rfl h
    | range | causation => exact ⟨_, rfl⟩
  | walk start direction maxDepth sampling =>
    cases cursor with
    | range | correlation => exact ⟨_, rfl⟩
    | causation frontier cursorDir consumed =>
      have hdirection : cursorDir ≠ direction.byte := by
        rintro rfl
        exact h rfl
      refine ⟨.internal "cursor direction mismatch for walk_causation_bounded", ?_⟩
      show walkCausationBounded registry fuel options db start direction maxDepth sampling budget
        (some (.causation frontier cursorDir consumed)) = _
      rw [walkCausationBounded]
      dsimp only
      rw [if_pos hdirection]

/-- **No call looks at more**: with any cursor it does what it does with one that has the
names of its own query. -/
theorem call_relabelled :
    r.call registry fuel options db budget (some (r.relabelled cursor)) =
      r.call registry fuel options db budget (some cursor) := by
  cases r <;> cases cursor <;> rfl

/-- A range read with a range cursor is the read from the version in it: what the query has
below is left out, whichever stream the version is of. -/
theorem foreign_range {streamId branch : String} {nextVersion : UInt64} :
    readRangeBounded registry fuel options db q budget
        (some (.range streamId branch nextVersion)) =
      readRangeBounded registry fuel options db { q with fromVersion := some nextVersion } budget
        none := rfl

/-! ### Cursors that were returned -/

/-- A walk stops at a frontier that it could expand. -/
theorem frontier_expanded
    (h : causationLoop db direction maxDepth sampling budget rounds depth frontier seen results
      byteCount = .ok (.truncated data (some cursor) reason)) :
    ∃ front depthConsumed, cursor = .causation front direction.byte depthConsumed ∧
      front.length ≤ MAX_VARIABLES := by
  obtain ⟨page, rest, htake, hrest, -, hcursor⟩ := causationLoop_truncated h
  refine ⟨_, _, Option.some_inj.mp hcursor, ?_⟩
  obtain ⟨level, rest, rfl⟩ := List.exists_cons_of_ne_nil hrest
  obtain ⟨n, -, hnext, -, -⟩ := found_cons (found_rest (takeLevels_append htake))
  obtain ⟨rows, hrows, -⟩ := next_eq_ok hnext
  exact exists_expandFrontier_iff.mp ⟨rows, hrows⟩

/-- A cursor that the read can resume at: it is of the read's kind, and its frontier can be
bound to a statement. -/
structure Resumable (r : BoundedRead) (cursor : CursorInner) : Prop where
  kind : cursor.kind = r.kind
  bound : ∀ front direction depthConsumed,
    cursor = .causation front direction depthConsumed → front.length ≤ MAX_VARIABLES

theorem walk_resumable
    (h : walkCausationBounded registry fuel options db start direction maxDepth sampling budget
      resume = some (.ok (.truncated data (some cursor) reason))) :
    Resumable (.walk start direction maxDepth sampling) cursor := by
  have hloop : ∃ rounds depth frontier seen events,
      causationLoop db direction maxDepth sampling (budget.or options) rounds depth frontier seen
        [] 0 = .ok (.truncated events (some cursor) reason) := by
    rw [walkCausationBounded.eq_def] at h
    split at h
    · obtain ⟨events, hevents, -⟩ := upcastResult_truncated h
      exact ⟨_, _, _, _, events, hevents⟩
    · split at h
      · exact absurd h (by simp)
      · obtain ⟨events, hevents, -⟩ := upcastResult_truncated h
        exact ⟨_, _, _, _, events, hevents⟩
    · exact absurd h (by simp)
  obtain ⟨rounds, depth, frontier, seen, events, hevents⟩ := hloop
  obtain ⟨front, depthConsumed, rfl, hfront⟩ := frontier_expanded hevents
  refine ⟨rfl, fun _ _ _ hcursor => ?_⟩
  obtain ⟨rfl, -, -⟩ := CursorInner.causation.inj hcursor
  exact hfront

theorem correlation_resumable {correlationId : EventId}
    (h : readByCorrelationBounded registry fuel options db correlationId budget resume =
      some (.ok (.truncated data (some cursor) reason))) :
    Resumable (.correlation correlationId) cursor := by
  have himpl : ∃ resumeAfterId events,
      readByCorrelationBoundedImpl db correlationId resumeAfterId (budget.or options) =
        .truncated events (some cursor) reason := by
    rw [readByCorrelationBounded.eq_def] at h
    dsimp only at h
    split at h
    · obtain ⟨events, hevents, -⟩ := upcastOutcome_truncated h
      exact ⟨_, events, hevents⟩
    · obtain ⟨events, hevents, -⟩ := upcastOutcome_truncated h
      exact ⟨_, events, hevents⟩
    · exact absurd h (by simp)
  obtain ⟨resumeAfterId, events, himpl⟩ := himpl
  obtain ⟨page, rest, -, ⟨-, hcomplete⟩ | ⟨-, -, reason', htruncated⟩⟩ :=
    readByCorrelationBoundedImpl_spec db correlationId resumeAfterId (budget.or options)
  · exact absurd (hcomplete.symm.trans himpl) (by simp)
  · obtain ⟨-, hcursor, -⟩ := ReadOutcome.truncated.inj (htruncated.symm.trans himpl)
    obtain rfl := Option.some_inj.mp hcursor
    exact ⟨rfl, by simp⟩

/-- **Every cursor that is returned** can be resumed at by the read that returned it. -/
theorem Produced.resumable (h : Produced r cursor) : Resumable r cursor := by
  obtain ⟨registry, fuel, options, budget, db, resume, data, reason, hcall⟩ := h
  cases r with
  | range q =>
    obtain ⟨page, row, rest, -, -, hcursor⟩ := truncated_spec hcall
    obtain rfl := Option.some_inj.mp hcursor
    exact ⟨rfl, by simp⟩
  | correlation correlationId => exact correlation_resumable hcall
  | walk start direction maxDepth sampling => exact walk_resumable hcall

/-! ### On a store without events -/

theorem bindFrontier_nil (hfrontier : frontier.length ≤ MAX_VARIABLES) :
    bindFrontier frontier [] = .ok [] := by
  rw [bindFrontier, if_neg (Nat.not_lt.mpr hfrontier)]
  split <;> rfl

theorem expandFrontier_no_events (hdb : db.events = [])
    (hfrontier : frontier.length ≤ MAX_VARIABLES) :
    expandFrontier db direction frontier = .ok [] := by
  have hforward : bfsExpandForward db frontier = .ok [] := by
    rw [bfsExpandForward, hdb]
    exact bindFrontier_nil hfrontier
  have hbackward : bfsExpandBackward db frontier = .ok [] := by
    rw [bfsExpandBackward, hdb]
    exact bindFrontier_nil hfrontier
  cases direction with
  | forward => exact hforward
  | backward => exact hbackward
  | both =>
    rw [expandFrontier, hforward, hbackward]
    rfl

theorem causationLoop_no_events (hdb : db.events = [])
    (hfrontier : frontier.length ≤ MAX_VARIABLES) :
    causationLoop db direction maxDepth sampling budget rounds depth frontier seen [] 0 =
      .ok (.complete []) := by
  cases rounds with
  | zero => rfl
  | succ rounds =>
    refine causationLoop_of_nil ?_
    rw [next_of_expand (expandFrontier_no_events hdb hfrontier)]
    exact congrArg Except.ok (List.eq_nil_of_sublist_nil sample_sublist)

/-- Where there are no events, a call with a cursor that it can resume at returns. -/
theorem call_no_events (hdb : db.events = []) (h : Resumable r cursor) :
    r.call registry fuel options db budget (some cursor) = some (.ok (.complete [])) := by
  have hkind := h.kind
  cases r with
  | range q =>
    cases cursor with
    | correlation | causation => exact absurd hkind (by simp [CursorInner.kind, BoundedRead.kind])
    | range streamId branch nextVersion =>
      show upcastOutcome registry fuel (readRangeBoundedImpl db q (some nextVersion) _) = _
      rw [readRangeBoundedImpl, selectRange, hdb]
      rfl
  | correlation correlationId =>
    cases cursor with
    | range | causation => exact absurd hkind (by simp [CursorInner.kind, BoundedRead.kind])
    | correlation foreignId lastSeenId =>
      show upcastOutcome registry fuel
        (readByCorrelationBoundedImpl db correlationId (some lastSeenId) _) = _
      rw [readByCorrelationBoundedImpl, selectCorrelated, hdb]
      rfl
  | walk start direction maxDepth sampling =>
    cases cursor with
    | range | correlation => exact absurd hkind (by simp [CursorInner.kind, BoundedRead.kind])
    | causation front cursorDir depthConsumed =>
      obtain rfl : cursorDir = direction.byte := CursorKind.causation.inj hkind
      show walkCausationBounded registry fuel options db start direction maxDepth sampling budget
        (some (.causation front direction.byte depthConsumed)) = _
      rw [walkCausationBounded_resumed, causationLoop_no_events hdb (h.bound _ _ _ rfl)]
      rfl

/-! ### Foreign cursors -/

/-- **Cursors of other queries**: a read rejects a cursor that another returned, on every store
and with every budget, if and only if the two are of different kinds, or walks in different
directions, or not different queries at all. -/
theorem honoured_iff (h : Produced r cursor) :
    Honoured r r' cursor ↔ (r.kind = r'.kind → r.identity = r'.identity) := by
  have hcursor := h.resumable
  constructor
  · intro hhonoured hkind
    by_contra hforeign
    -- the call cannot fail where there is nothing to read
    obtain ⟨e, he⟩ := hhonoured hforeign [] 0 ⟨none, none⟩ ⟨none, none⟩ (.bootstrap 0)
    have hok := @call_no_events [] 0 ⟨none, none⟩ ⟨none, none⟩ (.bootstrap 0) r' cursor rfl
      ⟨hcursor.kind.trans hkind, hcursor.bound⟩
    rw [hok] at he
    exact absurd he (by simp)
  · intro hsame hforeign registry fuel options budget db
    refine call_of_kind_ne fun hkind => hforeign (hsame ?_)
    rw [← hkind, hcursor.kind]

/-- Append `null` to a stream. -/
def appendOn (streamId eventType : String) : StoreOp :=
  .write [] (.append { streamId := streamId, eventType := eventType, payload := .null }) fun _ => 0

/-- Two events on one stream and one on another. -/
def twoStreams : Db :=
  (Transition.run (storeStep mixDeps) (Db.bootstrap 0) [.declareStream "s" "t" none 0,
    .declareStream "u" "t" none 0, appendOn "s" "a", appendOn "s" "b",
    appendOn "u" "c"]).getD (.bootstrap 0)

/-- All of the stream's main branch. -/
def wholeStream (streamId : String) : BoundedRead :=
  .range ⟨streamId, "main", none, none, none, none⟩

set_option maxRecDepth 4000 in
theorem twoStreams_cursor : ∃ data,
    (wholeStream "s").call [] 1 ⟨none, none⟩ twoStreams ⟨some 1, none⟩ none =
      some (.ok (.truncated data (some (.range "s" "main" 1)) .resultCount)) := ⟨_, rfl⟩

example : ∃ event, (wholeStream "u").call [] 1 ⟨none, none⟩ twoStreams ⟨none, none⟩ none =
    some (.ok (.complete [event])) := ⟨_, rfl⟩

/-- A read by correlation id rejects the cursor of a range. -/
theorem honoured_iff_kinds :
    Honoured (wholeStream "s") (.correlation zeroId) (.range "s" "main" 1) := by
  obtain ⟨data, hdata⟩ := twoStreams_cursor
  refine (honoured_iff ⟨_, _, _, _, _, _, _, _, hdata⟩).mpr fun hkind => ?_
  exact absurd hkind (by decide)

set_option maxRecDepth 4000 in
/-- The cursor of the one stream, taken for one of the other: its only event is left out. -/
theorem foreign_cursor_skips : ¬∀ (r r' : BoundedRead) (cursor : CursorInner),
    Produced r cursor → Honoured r r' cursor := by
  intro h
  obtain ⟨data, hdata⟩ := twoStreams_cursor
  obtain ⟨e, he⟩ := h (wholeStream "s") (wholeStream "u") _ ⟨_, _, _, _, _, _, _, _, hdata⟩
    (by decide) [] 1 ⟨none, none⟩ ⟨none, none⟩ twoStreams
  have hskips : (wholeStream "u").call [] 1 ⟨none, none⟩ twoStreams ⟨none, none⟩
      (some (.range "s" "main" 1)) = some (.ok (.complete [])) := rfl
  rw [hskips] at he
  exact absurd he (by simp)

end Fossic
