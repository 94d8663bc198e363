/-
Aggregations over streams.

`Store::aggregate` selects events by a stream pattern and other filters, upcasts them, and
folds those whose stream the pattern matches.  `Store::aggregate_bounded` stops at a budget
and finalizes what was folded until then.

* `aggregate_eq` — what an aggregator returns is its fold over the events that `collecting`
  collects;
* `aggregateBounded_eq` — and the bounded variant folds the page that `Paging.fill` cuts
  from them;
* `bounded_maximal_prefix` — which is the longest front that the budget admits.
-/
import Fossic.Glob
import Fossic.ReadOutcome
import Fossic.SqliteGlob

namespace Fossic

open Paging KeySort KeyedList

/-! ### Aggregators and queries -/

/-- The trait `Aggregate`, with the state that the instance is passed in with. -/
structure Aggregate (σ ω : Type) where
  initial : σ
  fold : σ → StoredEvent → σ
  finalize : σ → ω

structure AggregateQuery where
  streamPattern : String
  branch : String
  eventTypeFilter : Option String
  fromTimestampUs : Option Int64
  toTimestampUs : Option Int64
  indexedTagsFilter : Option Json

/-- `ReadOutcome<A::Output>` -/
inductive AggregateOutcome (ω : Type)
  | complete (data : ω)
  | truncated (data : ω) (cursor : Option CursorInner) (reason : TruncationReason)

/-- Code outside the repository that a query rests on: the Unicode table behind
`char::is_alphanumeric`, the `{:?}` format of strings, and how SQLite writes JSON arrays and
objects. -/
structure QueryEnv where
  isAlphanumeric : Char → Bool
  debugStr : String → String
  jsonText : Json → String

/-! ### Tags in SQL -/

/-- A value of SQLite.  A `REAL` is the number that it stands for. -/
inductive SqlValue
  | null
  | integer (i : ℤ)
  | real (x : ℚ)
  | text (s : String)
  deriving DecidableEq

/-- `a = b`, where it is true: numbers are compared as numbers, and values of different kinds
are not equal. -/
def SqlValue.eq : SqlValue → SqlValue → Bool
  | integer i, integer j => i = j
  | integer i, real x => i = x
  | real x, integer i => x = i
  | real x, real y => x = y
  | text s, text t => s = t
  | _, _ => false

/-- The number that a finite `f64` stands for. -/
def floatValue (bits : UInt64) : ℚ :=
  let exponent : ℕ := bits.toNat / 2 ^ 52 % 2 ^ 11
  let fraction : ℕ := bits.toNat % 2 ^ 52
  let magnitude : ℕ := if exponent = 0 then fraction else (2 ^ 52 + fraction) * 2 ^ (exponent - 1)
  (if bits.toNat < 2 ^ 63 then (magnitude : ℚ) else -magnitude) / 2 ^ 1074

/-- `n as f64` for a `u64`: the nearest number of 53 bits, the even one of two. -/
def u64AsF64 (n : ℕ) : ℕ :=
  let unit := 2 ^ (n.log2 - 52)
  let down := n / unit
  if unit < 2 * (n % unit) ∨ unit = 2 * (n % unit) ∧ down % 2 = 1 then (down + 1) * unit
  else down * unit

/-- `n.as_i64()`, else `n.as_f64()`, as a parameter; a stored number is read in the same way,
since SQLite has no integers above those of an `i64`. -/
def Number.toSql : Number → SqlValue
  | posInt n => if n.toNat < 2 ^ 63 then .integer n.toNat else .real (u64AsF64 n.toNat)
  | negInt i _ => .integer i.toInt
  | float bits _ => .real (floatValue bits)

/-- The member of the tags at the path `$.key`. -/
def storedTag (tags : Option Json) (key : String) : Option Json :=
  match tags with
  | some (.object members) => find members key
  | _ => none

/-- What `json_extract` gives for a member. -/
def extracted (env : QueryEnv) : Option Json → SqlValue
  | none | some .null => .null
  | some (.bool b) => .integer (if b then 1 else 0)
  | some (.number n) => n.toSql
  | some (.string s) => .text s
  | some (.array items) => .text (env.jsonText (.array items))
  | some (.object members) => .text (env.jsonText (.object members))

/-- `json_extract(indexed_tags, '$.key')` -/
def jsonExtract (env : QueryEnv) (tags : Option Json) (key : String) : SqlValue :=
  extracted env (storedTag tags key)

inductive TagClause
  | isNull (key : String)
  | equals (key : String) (param : SqlValue)

def TagClause.holds (env : QueryEnv) (tags : Option Json) : TagClause → Bool
  | isNull key => jsonExtract env tags key = .null
  | equals key param => (jsonExtract env tags key).eq param

def isSafeTagKey (env : QueryEnv) (key : String) : Bool :=
  key ≠ "" && key.toList.all fun c => env.isAlphanumeric c || c = '_'

/-- The clause of one pair of the filter. -/
def tagClause (env : QueryEnv) (key : String) (value : Json) : Except Error TagClause :=
  if !isSafeTagKey env key then
    .error (.internal ("indexed_tags_filter key " ++ env.debugStr key ++
      " must contain only letters, digits, and underscores"))
  else
    match value with
    | .null => .ok (.isNull key)
    | .bool b => .ok (.equals key (.integer (if b then 1 else 0)))
    | .number n => .ok (.equals key n.toSql)
    | .string s => .ok (.equals key (.text s))
    | .array _ | .object _ =>
      .error (.internal ("indexed_tags_filter value for key " ++ env.debugStr key ++
        " must be a JSON primitive (string, bool, number, or null)"))

/-- A filter that is not an object is no filter. -/
def tagClauses (env : QueryEnv) : Option Json → Except Error (List TagClause)
  | some (.object members) => members.mapM fun p => tagClause env p.1 p.2
  | _ => .ok []

/-! ### Selection -/

/-- What a query asks for apart from the stream pattern. -/
def AggregateQuery.restricts (env : QueryEnv) (q : AggregateQuery) (clauses : List TagClause)
    (r : EventRow) : Bool :=
  r.branch = q.branch && (q.eventTypeFilter.all fun t => r.eventType = t) &&
    (q.fromTimestampUs.all fun t => t ≤ r.timestampUs) &&
    (q.toTimestampUs.all fun t => r.timestampUs ≤ t) &&
    clauses.all fun clause => clause.holds env r.indexedTags

/-- The rows of the statement, `ORDER BY timestamp_us ASC`.  Both functions build it with the
same lines. -/
def selectRows (env : QueryEnv) (db : Db) (q : AggregateQuery) : Except Error (List EventRow) := do
  let clauses ← tagClauses env q.indexedTagsFilter
  .ok (sortBy (fun r => r.timestampUs.toInt) (db.events.filter fun r =>
    SqliteGlob.glob q.streamPattern.toList r.streamId.toList && q.restricts env clauses r))

/-! ### The two functions -/

section Functions

variable {σ ω : Type}

/-- The loop of `aggregate_impl`. -/
def aggregateLoop (registry : UpcasterRegistry) (fuel : ℕ) (pattern : String)
    (agg : Aggregate σ ω) : σ → List EventRow → Option (Except Error ω)
  | state, [] => some (.ok (agg.finalize state))
  | state, row :: rows =>
    match applyUpcaster registry fuel (rowToEvent row) with
    | none => none
    | some (.error e) => some (.error e)
    | some (.ok event) =>
      if globMatches pattern event.streamId then
        aggregateLoop registry fuel pattern agg (agg.fold state event) rows
      else aggregateLoop registry fuel pattern agg state rows

/-- `Store::aggregate`. -/
def aggregate (env : QueryEnv) (registry : UpcasterRegistry) (fuel : ℕ) (db : Db)
    (q : AggregateQuery) (agg : Aggregate σ ω) : Option (Except Error ω) :=
  match selectRows env db q with
  | .error e => some (.error e)
  | .ok rows => aggregateLoop registry fuel q.streamPattern agg agg.initial rows

/-- The loop of `aggregate_bounded_impl`. -/
def aggregateBoundedLoop (registry : UpcasterRegistry) (fuel : ℕ) (pattern : String)
    (agg : Aggregate σ ω) (budget : Budget) : σ → (eventsScanned byteCount : ℕ) → List EventRow →
      Option (Except Error (AggregateOutcome ω))
  | state, _, _, [] => some (.ok (.complete (agg.finalize state)))
  | state, eventsScanned, byteCount, row :: rows =>
    match applyUpcaster registry fuel (rowToEvent row) with
    | none => none
    | some (.error e) => some (.error e)
    | some (.ok event) =>
      if globMatches pattern event.streamId then
        if budget.exceedCount eventsScanned ||
            budget.exceedBytes eventsScanned (byteCount + event.payload.length) then
          some (.ok (.truncated (agg.finalize state) none
            (if budget.exceedCount eventsScanned then .resultCount else .byteSize)))
        else
          aggregateBoundedLoop registry fuel pattern agg budget (agg.fold state event)
            (eventsScanned + 1) (byteCount + event.payload.length) rows
      else aggregateBoundedLoop registry fuel pattern agg budget state eventsScanned byteCount rows

/-- `Store::aggregate_bounded`; `options` are the budgets that the store was opened with. -/
def aggregateBounded (env : QueryEnv) (registry : UpcasterRegistry) (fuel : ℕ) (options : Budget)
    (db : Db) (q : AggregateQuery) (agg : Aggregate σ ω) (budget : Budget) :
    Option (Except Error (AggregateOutcome ω)) :=
  match selectRows env db q with
  | .error e => some (.error e)
  | .ok rows => aggregateBoundedLoop registry fuel q.streamPattern agg (budget.or options)
      agg.initial 0 0 rows

/-- What an aggregator makes of a list of events. -/
def Aggregate.output (agg : Aggregate σ ω) (events : List StoredEvent) : ω :=
  agg.finalize (events.foldl agg.fold agg.initial)

end Functions

/-- The aggregator that returns the events it was given. -/
def collecting : Aggregate (List StoredEvent) (List StoredEvent) where
  initial := []
  fold events event := events ++ [event]
  finalize events := events

variable {σ ω : Type} {env : QueryEnv} {registry : UpcasterRegistry} {fuel : ℕ} {db : Db}
  {q : AggregateQuery} {agg : Aggregate σ ω} {options budget : Budget} {pattern : String}
  {rows : List EventRow} {events before folded : List StoredEvent} {clauses : List TagClause}
  {result : Except Error ω} {e : Error} {state : σ} {scanned bytes : ℕ}

/-- A table with one event, and queries of it by letters and digits of ASCII. -/
def storedOn (streamId : String) (indexedTags : Option Json) : Db where
  events := [⟨plainDeps.hash [], streamId, "main", 0, 0, none, none, "t", 1, [0xc0], none,
    indexedTags⟩]
  streams := [⟨streamId, "t", 0, none⟩]
  snapshots := []

def plainEnv : QueryEnv where
  isAlphanumeric := Char.isAlphanum
  debugStr s := "\"" ++ s ++ "\""
  jsonText
    | .array _ => "[]"
    | _ => "\x7b\x7d"

/-! ### What is folded -/

theorem foldl_collecting : events.foldl collecting.fold before = before ++ events := by
  induction events generalizing before with
  | nil => exact (List.append_nil before).symm
  | cons event events ih =>
    rw [List.foldl_cons, ih]
    exact List.append_assoc before [event] events

theorem collecting_output : collecting.output events = events := foldl_collecting

/-- The loop, whatever the aggregator, folds what the loop of `collecting` adds. -/
theorem aggregateLoop_eq :
    aggregateLoop registry fuel pattern agg (before.foldl agg.fold agg.initial) rows =
      (aggregateLoop registry fuel pattern collecting before rows).map fun result =>
        result.map agg.output := by
  induction rows generalizing before with
  | nil => rfl
  | cons row rows ih =>
    rw [aggregateLoop, aggregateLoop]
    rcases applyUpcaster registry fuel (rowToEvent row) with _ | e | event
    · rfl
    · rfl
    · dsimp only
      split
      · have hstep : agg.fold (before.foldl agg.fold agg.initial) event =
            (before ++ [event]).foldl agg.fold agg.initial := by
          rw [List.foldl_append, List.foldl_cons, List.foldl_nil]
        rw [hstep, ih]
        rfl
      · exact ih

/-- **Aggregation** is the fold over what `collecting` collects. -/
theorem aggregate_eq : aggregate env registry fuel db q agg =
    (aggregate env registry fuel db q collecting).map fun result => result.map agg.output := by
  rw [aggregate, aggregate]
  rcases selectRows env db q with e | rows
  · rfl
  · exact @aggregateLoop_eq _ _ registry fuel agg q.streamPattern rows []

/-- What `collecting` collects: the events of the matching rows, upcast. -/
theorem collected_iff :
    aggregateLoop registry fuel pattern collecting before rows = some (.ok events) ↔
      ∃ all, upcastAll registry fuel (rows.map rowToEvent) = some (.ok all) ∧
        events = before ++ all.filter fun event => globMatches pattern event.streamId := by
  induction rows generalizing before with
  | nil =>
    constructor
    · intro h
      obtain rfl := Except.ok.inj (Option.some_inj.mp h)
      exact ⟨[], rfl, (List.append_nil _).symm⟩
    · rintro ⟨all, hall, rfl⟩
      obtain rfl := Except.ok.inj (Option.some_inj.mp hall)
      exact congrArg (some ∘ Except.ok) (List.append_nil _).symm
  | cons row rows ih =>
    have hfails : (∀ event, applyUpcaster registry fuel (rowToEvent row) ≠ some (.ok event)) →
        ¬∃ all, upcastAll registry fuel ((row :: rows).map rowToEvent) = some (.ok all) ∧
          events = before ++ all.filter fun event => globMatches pattern event.streamId := by
      rintro hnone ⟨all, hall, -⟩
      obtain ⟨event, _, hevent, -⟩ := upcastAll_cons_iff.mp hall
      exact hnone event hevent
    rw [aggregateLoop]
    rcases hevent : applyUpcaster registry fuel (rowToEvent row) with _ | e | event
    · exact iff_of_false (by simp) (hfails (by simp [hevent]))
    · exact iff_of_false (by simp) (hfails (by simp [hevent]))
    · -- the first event is collected if it matches, and then the rest is
      have hfirst : (∃ all, upcastAll registry fuel ((row :: rows).map rowToEvent) =
            some (.ok all) ∧
          events = before ++ all.filter fun event => globMatches pattern event.streamId) ↔
          ∃ rest, upcastAll registry fuel (rows.map rowToEvent) = some (.ok rest) ∧
            events = before ++ (event :: rest).filter fun event =>
              globMatches pattern event.streamId := by
        constructor
        · rintro ⟨all, hall, rfl⟩
          obtain ⟨event', rest, hevent', hrest, rfl⟩ := upcastAll_cons_iff.mp hall
          obtain rfl := Except.ok.inj (Option.some_inj.mp (hevent.symm.trans hevent'))
          exact ⟨rest, hrest, rfl⟩
        · rintro ⟨rest, hrest, rfl⟩
          exact ⟨event :: rest, upcastAll_cons_iff.mpr ⟨event, rest, hevent, hrest, rfl⟩, rfl⟩
      rw [hfirst]
      dsimp only
      simp only [List.filter_cons]
      split
      · rw [ih]
        simp only [collecting, List.append_assoc, List.singleton_append]
      · exact ih

/-! ### The bounded variant -/

/-- The outcome of a page that was cut from the events. -/
def pageOutcome (agg : Aggregate σ ω) (budget : Budget) (state : σ) (scanned : ℕ)
    (cut : List StoredEvent × List StoredEvent) : AggregateOutcome ω :=
  let data := agg.finalize (cut.1.foldl agg.fold state)
  match cut.2 with
  | [] => .complete data
  | _ :: _ => .truncated data none
    (if budget.exceedCount (scanned + cut.1.length) then .resultCount else .byteSize)

/-- The size of an event in a byte budget. -/
def payloadSize (event : StoredEvent) : ℕ := event.payload.length

theorem pageOutcome_cons {event : StoredEvent} {cut : List StoredEvent × List StoredEvent} :
    pageOutcome agg budget state scanned (event :: cut.1, cut.2) =
      pageOutcome agg budget (agg.fold state event) (scanned + 1) cut := by
  have hlength : scanned + (cut.1.length + 1) = scanned + 1 + cut.1.length := by omega
  rw [pageOutcome, pageOutcome, List.length_cons, hlength]
  rfl

/-- **The bounded loop** folds the page that is cut from what the unbounded one folds. -/
theorem aggregateBoundedLoop_eq
    (h : aggregateLoop registry fuel pattern collecting before rows = some (.ok (before ++ folded))) :
    aggregateBoundedLoop registry fuel pattern agg budget state scanned bytes rows =
      some (.ok (pageOutcome agg budget state scanned (fill payloadSize budget scanned bytes folded))) := by
  induction rows generalizing before folded state scanned bytes with
  | nil =>
    have hnil : before = before ++ folded := Except.ok.inj (Option.some_inj.mp h)
    obtain rfl : folded = [] := by simpa using hnil
    rfl
  | cons row rows ih =>
    rw [aggregateLoop] at h
    rw [aggregateBoundedLoop]
    rcases hevent : applyUpcaster registry fuel (rowToEvent row) with _ | e | event
    · rw [hevent] at h
      exact absurd h (by simp)
    · rw [hevent] at h
      exact absurd h (by simp)
    · rw [hevent] at h
      dsimp only at h ⊢
      split at h
      · rename_i hmatch
        rw [if_pos hmatch]
        -- the event is the first of those that are left to fold
        obtain ⟨rest, rfl⟩ : ∃ rest, folded = event :: rest := by
          obtain ⟨rest, -, hsplit⟩ := collected_iff.mp h
          exact ⟨_, by simpa [collecting] using hsplit⟩
        have hsize : event.payload.length = payloadSize event := rfl
        rw [fill, hsize]
        split
        · rfl
        · rw [List.append_cons] at h
          rw [ih h, pageOutcome_cons]
      · rename_i hmatch
        rw [if_neg hmatch]
        exact ih h

/-- Where the bounded variant does not stop at its budget, it does what the other does. -/
theorem aggregateBoundedLoop_or :
    (∃ data reason, aggregateBoundedLoop registry fuel pattern agg budget state scanned bytes rows =
      some (.ok (.truncated data none reason))) ∨
    aggregateBoundedLoop registry fuel pattern agg budget state scanned bytes rows =
      (aggregateLoop registry fuel pattern agg state rows).map fun result =>
        result.map AggregateOutcome.complete := by
  induction rows generalizing state scanned bytes with
  | nil => exact .inr rfl
  | cons row rows ih =>
    rw [aggregateBoundedLoop, aggregateLoop]
    rcases applyUpcaster registry fuel (rowToEvent row) with _ | e | event
    · exact .inr rfl
    · exact .inr rfl
    · dsimp only
      split
      · split
        · exact .inl ⟨_, _, rfl⟩
        · exact ih
      · exact ih

theorem aggregateBounded_or :
    (∃ data reason, aggregateBounded env registry fuel options db q agg budget =
      some (.ok (.truncated data none reason))) ∨
    aggregateBounded env registry fuel options db q agg budget =
      (aggregate env registry fuel db q agg).map fun result =>
        result.map AggregateOutcome.complete := by
  rw [aggregateBounded, aggregate]
  rcases selectRows env db q with e | rows
  · exact .inr rfl
  · exact aggregateBoundedLoop_or

/-- When the bounded variant completes, so does the other. -/
theorem aggregateBounded_complete {output : ω}
    (h : aggregateBounded env registry fuel options db q agg budget =
      some (.ok (.complete output))) :
    aggregate env registry fuel db q agg = some (.ok output) := by
  rcases @aggregateBounded_or _ _ env registry fuel db q agg options budget with ⟨_, _, hcut⟩ | hsame
  · exact absurd (Except.ok.inj (Option.some_inj.mp (hcut.symm.trans h))) (by simp)
  · obtain ⟨result, hresult, hmap⟩ := Option.map_eq_some_iff.mp (hsame.symm.trans h)
    cases result with
    | error e => exact absurd hmap (by simp [Except.map])
    | ok output' =>
      rw [hresult, AggregateOutcome.complete.inj (Except.ok.inj hmap)]

/-- A failure of the bounded variant is one of the other. -/
theorem aggregateBounded_error
    (h : aggregateBounded env registry fuel options db q agg budget = some (.error e)) :
    aggregate env registry fuel db q agg = some (.error e) := by
  rcases @aggregateBounded_or _ _ env registry fuel db q agg options budget with ⟨_, _, hcut⟩ | hsame
  · exact absurd (Option.some_inj.mp (hcut.symm.trans h)) (by simp)
  · obtain ⟨result, hresult, hmap⟩ := Option.map_eq_some_iff.mp (hsame.symm.trans h)
    cases result with
    | error e' => rw [hresult, Except.error.inj hmap]
    | ok output => exact absurd hmap (by simp [Except.map])

/-- An aggregator succeeds only over events that `collecting` collects. -/
theorem exists_collected {output : ω}
    (h : aggregate env registry fuel db q agg = some (.ok output)) :
    ∃ events, aggregate env registry fuel db q collecting = some (.ok events) := by
  rw [aggregate_eq] at h
  obtain ⟨result, hresult, hmap⟩ := Option.map_eq_some_iff.mp h
  cases result with
  | error e => exact absurd hmap (by simp [Except.map])
  | ok events => exact ⟨events, hresult⟩

theorem aggregateBounded_eq
    (h : aggregate env registry fuel db q collecting = some (.ok folded)) :
    aggregateBounded env registry fuel options db q agg budget =
      some (.ok (pageOutcome agg (budget.or options) agg.initial 0
        (fill payloadSize (budget.or options) 0 0 folded))) := by
  rw [aggregate] at h
  rw [aggregateBounded]
  rcases hrows : selectRows env db q with e | rows
  · rw [hrows] at h
    exact absurd h (by simp)
  · rw [hrows] at h
    exact @aggregateBoundedLoop_eq _ _ registry fuel agg (budget.or options) q.streamPattern rows []
      folded agg.initial 0 0 h

/-! ### The page that is folded -/

/-- Why a page of `k` events is cut. -/
def cutReason (budget : Budget) (k : ℕ) : TruncationReason :=
  if budget.maxResults = some k then .resultCount else .byteSize

/-- The count is exceeded by one event more exactly when it is used up. -/
theorem exceedCount_iff {k : ℕ} (h : ∀ n ∈ budget.maxResults, k ≤ n) :
    budget.exceedCount k = true ↔ budget.maxResults = some k := by
  rw [Budget.exceedCount, Option.any_eq_true]
  constructor
  · rintro ⟨n, hn, hle⟩
    obtain rfl := Nat.le_antisymm (h n hn) (of_decide_eq_true hle)
    exact hn
  · intro hk
    exact ⟨k, hk, decide_eq_true (Nat.le_refl k)⟩

/-- All of the events are one page. -/
theorem pageOutcome_complete (h : budget.Admits payloadSize folded) :
    pageOutcome agg budget agg.initial 0 (fill payloadSize budget 0 0 folded) =
      .complete (agg.output folded) := by
  rcases hfill : fill payloadSize budget 0 0 folded with ⟨page, rest⟩
  obtain rfl := (fill_nil_iff hfill).mpr h
  have happend := @fill_append _ payloadSize budget folded 0 0
  rw [hfill, List.append_nil] at happend
  obtain rfl : page = folded := happend
  rfl

/-- Or the longest front that is admitted. -/
theorem pageOutcome_truncated (h : ¬budget.Admits payloadSize folded) :
    ∃ k, IsGreatest {k | k ≤ folded.length ∧ budget.Admits payloadSize (folded.take k)} k ∧
      pageOutcome agg budget agg.initial 0 (fill payloadSize budget 0 0 folded) =
        .truncated (agg.output (folded.take k)) none (cutReason budget k) := by
  rcases hfill : fill payloadSize budget 0 0 folded with ⟨page, rest⟩
  refine ⟨page.length, fill_isGreatest hfill, ?_⟩
  have happend := @fill_append _ payloadSize budget folded 0 0
  rw [hfill] at happend
  cases rest with
  | nil => exact absurd ((fill_nil_iff hfill).mp rfl) h
  | cons event rest =>
    have hcount := exceedCount_iff (admits_page hfill).1
    have htake : folded.take page.length = page := by
      rw [← happend]
      exact List.take_left
    rw [pageOutcome, htake, cutReason, Nat.zero_add]
    simp only [hcount]
    rfl

/-- **Bounded aggregation** is aggregation of the longest front that the budgets admit. -/
theorem bounded_maximal_prefix (env : QueryEnv) (registry : UpcasterRegistry) (fuel : ℕ)
    (options budget : Budget) (db : Db) (q : AggregateQuery) (agg : Aggregate σ ω) :
    (∀ e, tagClauses env q.indexedTagsFilter = .error e →
      aggregate env registry fuel db q agg = some (.error e) ∧
        aggregateBounded env registry fuel options db q agg budget = some (.error e)) ∧
    (∀ output, aggregateBounded env registry fuel options db q agg budget =
        some (.ok (.complete output)) ↔
      (∃ events, aggregate env registry fuel db q collecting = some (.ok events) ∧
        (budget.or options).Admits payloadSize events) ∧
        aggregate env registry fuel db q agg = some (.ok output)) ∧
    (∀ events, aggregate env registry fuel db q collecting = some (.ok events) →
      aggregate env registry fuel db q agg = some (.ok (agg.output events)) ∧
        (¬(budget.or options).Admits payloadSize events →
          ∃ k, IsGreatest {k | k ≤ events.length ∧
              (budget.or options).Admits payloadSize (events.take k)} k ∧
            aggregateBounded env registry fuel options db q agg budget =
              some (.ok (.truncated (agg.output (events.take k)) none
                (cutReason (budget.or options) k))))) ∧
    (∀ e, aggregateBounded env registry fuel options db q agg budget = some (.error e) →
      aggregate env registry fuel db q agg = some (.error e)) := by
  have hoff : ∀ events, aggregate env registry fuel db q collecting = some (.ok events) →
      aggregate env registry fuel db q agg = some (.ok (agg.output events)) := by
    intro events hevents
    rw [aggregate_eq, hevents]
    rfl
  refine ⟨fun e he => ?_, fun output => ⟨fun h => ?_, ?_⟩, fun events hevents => ?_,
    fun e => aggregateBounded_error⟩
  · have hrows : selectRows env db q = .error e := by
      rw [selectRows, he]
      rfl
    rw [aggregate, aggregateBounded, hrows]
    exact ⟨rfl, rfl⟩
  · have houtput := aggregateBounded_complete h
    obtain ⟨events, hevents⟩ := exists_collected houtput
    rw [aggregateBounded_eq hevents] at h
    have houtcome := Except.ok.inj (Option.some_inj.mp h)
    by_cases hadmits : (budget.or options).Admits payloadSize events
    · exact ⟨⟨events, hevents, hadmits⟩, houtput⟩
    · obtain ⟨k, -, hcut⟩ := @pageOutcome_truncated _ _ agg _ _ hadmits
      rw [hcut] at houtcome
      exact absurd houtcome (by simp)
  · rintro ⟨⟨events, hevents, hadmits⟩, houtput⟩
    rw [hoff events hevents] at houtput
    rw [aggregateBounded_eq hevents, pageOutcome_complete hadmits,
      Except.ok.inj (Option.some_inj.mp houtput)]
  · refine ⟨hoff events hevents, fun hadmits => ?_⟩
    obtain ⟨k, hk, hcut⟩ := @pageOutcome_truncated _ _ agg _ _ hadmits
    exact ⟨k, hk, by rw [aggregateBounded_eq hevents, hcut]⟩

example : aggregateBounded plainEnv [] 0 ⟨none, some 0⟩ (storedOn "a" none)
    ⟨"*", "main", none, none, none, none⟩ collecting ⟨some 0, none⟩ =
      some (.ok (.truncated [] none .resultCount)) := by rfl

end Fossic
