/-
The two causation walks.

An event may name the event that caused it.  `walk_causation` follows these links with
one recursive query for each direction; `walk_causation_bounded` expands a frontier
level by level, cuts at a level boundary when a budget is used up, and resumes from a
cursor that holds the last level.
-/
import Fossic.ReadOutcome
import Fossic.Paging

namespace Fossic

open Paging KeySort

inductive WalkDirection
  | forward
  | backward
  | both
  deriving DecidableEq

inductive SamplingMode
  | exhaustive
  | breadthFirst (maxPerLevel : ℕ)
  | adaptive (targetCount : ℕ)

/-- SQLite's limit on the parameters of a statement. -/
def MAX_VARIABLES : ℕ := 32766

/-! ### The unbounded walk -/

/-- The new rows of a recursive query: `step ids` are the ids that one round finds from
the ids of the round before.  `UNION` drops pairs that were found before, so each round
counts an id once. -/
def recursiveRows (step : List EventId → List EventId) :
    ℕ → ℕ → List EventId → List (EventId × ℕ)
  | 0, _, _ => []
  | rounds + 1, depth, ids =>
    if ids.isEmpty then []
    else ids.map (·, depth) ++ recursiveRows step rounds (depth + 1) (step ids).dedup

/-- `SELECT id FROM events WHERE causation_id IN ids`. -/
def childIds (db : Db) (ids : List EventId) : List EventId :=
  (db.events.filter fun r => r.causationId.any fun c => c ∈ ids).map (·.id)

/-- `SELECT causation_id FROM events WHERE id IN ids AND causation_id IS NOT NULL`. -/
def parentIds (db : Db) (ids : List EventId) : List EventId :=
  (db.events.filter fun r => r.id ∈ ids).filterMap (·.causationId)

/-- The events that a recursive query found, joined with their least depth,
`ORDER BY bfs_depth ASC, events.timestamp_us ASC`.  SQLite leaves the order of equal
keys open. -/
def joinDepths (db : Db) (found : List (EventId × ℕ)) : List EventRow :=
  let depths := db.events.filterMap fun r =>
    ((found.filter fun p => p.1 = r.id).map (·.2)).min?.map fun depth => (r, depth)
  (sortBy (fun p => p.2) (sortBy (fun p => p.1.timestampUs.toInt) depths)).map (·.1)

/-- `i64::try_from(max_depth).unwrap_or(i64::MAX)` -/
def depthBound (maxDepth : ℕ) : ℕ := min maxDepth (2 ^ 63 - 1)

def walkForward (db : Db) (start : EventId) (maxDepth : ℕ) : List EventRow :=
  if maxDepth = 0 then []
  else joinDepths db
    (recursiveRows (childIds db) (depthBound maxDepth) 1 (childIds db [start]).dedup)

def walkBackward (db : Db) (start : EventId) (maxDepth : ℕ) : List EventRow :=
  if maxDepth = 0 then []
  else joinDepths db
    (recursiveRows (parentIds db) (depthBound maxDepth) 1 (parentIds db [start]).dedup)

/-- What `b` has that `a` has not, after `a`. -/
def mergeById (a b : List EventRow) : List EventRow :=
  a ++ b.filter fun r => r.id ∉ a.map (·.id)

def walkCausationImpl (db : Db) (start : EventId) (direction : WalkDirection) (maxDepth : ℕ) :
    List EventRow :=
  match direction with
  | .forward => walkForward db start maxDepth
  | .backward => walkBackward db start maxDepth
  | .both => mergeById (walkForward db start maxDepth) (walkBackward db start maxDepth)

/-- `Store::walk_causation`. -/
def walkCausation (registry : UpcasterRegistry) (fuel : ℕ) (db : Db) (start : EventId)
    (direction : WalkDirection) (maxDepth : ℕ) : Option (Except Error (List StoredEvent)) :=
  upcastAll registry fuel ((walkCausationImpl db start direction maxDepth).map rowToEvent)

/-! ### The bounded walk -/

/-- `ORDER BY id ASC`: ids are blobs of equal length. -/
def orderById (rows : List EventRow) : List EventRow := sortBy (fun r => byteOrder r.id.bytes) rows

/-- The rows of a statement with one parameter for each id of the frontier. -/
def bindFrontier (frontier : List EventId) (rows : List EventRow) : Except Error (List EventRow) :=
  if frontier.isEmpty then .ok []
  else if MAX_VARIABLES < frontier.length then
    .error (.sqlite "variable number must be between ?1 and ?32766")
  else .ok (orderById rows)

def bfsExpandForward (db : Db) (frontier : List EventId) : Except Error (List EventRow) :=
  bindFrontier frontier (db.events.filter fun r => r.causationId.any fun c => c ∈ frontier)

def bfsExpandBackward (db : Db) (frontier : List EventId) : Except Error (List EventRow) :=
  bindFrontier frontier (db.events.filter fun r => r.id ∈ parentIds db frontier)

def expandFrontier (db : Db) (direction : WalkDirection) (frontier : List EventId) :
    Except Error (List EventRow) :=
  match direction with
  | .forward => bfsExpandForward db frontier
  | .backward => bfsExpandBackward db frontier
  | .both => do
    let fwd ← bfsExpandForward db frontier
    let bwd ← bfsExpandBackward db frontier
    .ok (orderById (mergeById fwd bwd))

/-- How many events of a level `apply_bfs_sampling` keeps. -/
def SamplingMode.maxPerLevel (sampling : SamplingMode) (maxDepth : ℕ) : Option ℕ :=
  match sampling with
  | .exhaustive => none
  | .breadthFirst maxPerLevel => some maxPerLevel
  | .adaptive targetCount => some (max (targetCount / max maxDepth 1) 1)

def applyBfsSampling (events : List EventRow) (sampling : SamplingMode) (maxDepth : ℕ) :
    List EventRow :=
  match sampling.maxPerLevel maxDepth with
  | none => events
  | some n => events.take n

def WalkDirection.byte : WalkDirection → UInt8
  | forward => 0
  | backward => 1
  | both => 2

/-- `events.iter().map(|e| e.payload.len()).sum()` -/
def payloadBytes (events : List EventRow) : ℕ := (events.map fun r => r.payload.length).sum

/-- `would_exceed_count` -/
def wouldExceedCount (budget : Budget) (results level : List EventRow) : Bool :=
  budget.maxResults.any fun n => n < results.length + level.length

/-- `would_exceed_bytes` -/
def wouldExceedBytes (budget : Budget) (byteCount : ℕ) (level : List EventRow) : Bool :=
  budget.maxBytes.any fun n => n < byteCount + payloadBytes level

/-- The loop of `walk_causation_bounded_impl`; `rounds` is the number of depths from
`depth` to `max_depth`. -/
def causationLoop (db : Db) (direction : WalkDirection) (maxDepth : ℕ) (sampling : SamplingMode)
    (budget : Budget) : (rounds depth : ℕ) → (frontier seen : List EventId) →
      (results : List EventRow) → (byteCount : ℕ) → Except Error ReadOutcome
  | 0, _, _, _, results, _ => .ok (.complete (results.map rowToEvent))
  | rounds + 1, depth, frontier, seen, results, byteCount =>
    if frontier.isEmpty then .ok (.complete (results.map rowToEvent))
    else do
      let expanded ← expandFrontier db direction frontier
      let level := applyBfsSampling (expanded.filter fun r => r.id ∉ seen) sampling maxDepth
      if level.isEmpty then .ok (.complete (results.map rowToEvent))
      -- the first level of a call is never cut
      else if (wouldExceedCount budget results level || wouldExceedBytes budget byteCount level)
          && !results.isEmpty then
        .ok (.truncated (results.map rowToEvent)
          (some (.causation frontier direction.byte (UInt32.ofNat (depth - 1))))
          (if wouldExceedCount budget results level then .resultCount else .byteSize))
      else
        causationLoop db direction maxDepth sampling budget rounds (depth + 1)
          (level.map (·.id)) (seen ++ level.map (·.id)) (results ++ level)
          (byteCount + payloadBytes level)

def walkCausationBoundedImpl (db : Db) (start : EventId) (direction : WalkDirection)
    (maxDepth : ℕ) (sampling : SamplingMode) (resume : Option (List EventId × UInt32))
    (budget : Budget) : Except Error ReadOutcome :=
  match resume with
  | some (frontier, depthConsumed) =>
    causationLoop db direction maxDepth sampling budget (maxDepth - depthConsumed.toNat)
      (depthConsumed.toNat + 1) frontier frontier [] 0
  | none => causationLoop db direction maxDepth sampling budget maxDepth 1 [start] [start] [] 0

/-- The errors and the upcasting of the public bounded walk. -/
def upcastResult (registry : UpcasterRegistry) (fuel : ℕ) :
    Except Error ReadOutcome → Option (Except Error ReadOutcome)
  | .error e => some (.error e)
  | .ok outcome => upcastOutcome registry fuel outcome

/-- `Store::walk_causation_bounded`; `options` are the budgets that the store was opened
with. -/
def walkCausationBounded (registry : UpcasterRegistry) (fuel : ℕ) (options : Budget) (db : Db)
    (start : EventId) (direction : WalkDirection) (maxDepth : ℕ) (sampling : SamplingMode)
    (budget : Budget) (resume : Option CursorInner) : Option (Except Error ReadOutcome) :=
  let walk := fun resume => upcastResult registry fuel
    (walkCausationBoundedImpl db start direction maxDepth sampling resume (budget.or options))
  match resume with
  | none => walk none
  | some (.causation frontier cursorDir depthConsumed) =>
    if cursorDir ≠ direction.byte then
      some (.error (.internal "cursor direction mismatch for walk_causation_bounded"))
    else walk (some (frontier, depthConsumed))
  | some _ => some (.error (.internal "cursor type mismatch: expected Causation"))

end Fossic
