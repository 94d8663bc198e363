/-
The streaming iterators over a store that is written to.

An iterator holds a connection only while it fetches a page, so any calls of other threads may
take place between two of its items.  What it hands out comes from the tables of different times.

* `iterates_follows` — its items are pages that follow the cursors;
* `range_iter_growing` — a range iterator gives what one read of the tables of its last fetch does;
* `correlation_iter_growing` — a correlation iterator gives each event once, and misses none that
  was there when it started.
-/
import Fossic.CorrelationPages

namespace Fossic

open Paging Transition

/-! ### Items and calls in between -/

/-- `next` calls `fetch_batch`. -/
def PageIter.fetches (it : PageIter) : Bool := it.buffer.isEmpty && !it.exhausted

/-- The tables that `next` reads, where it fetches. -/
def PageIter.reads (it : PageIter) (db : Db) : Option Db := if it.fetches then some db else none

/-- The items of an iterator up to its first `None`, with any calls but purges between two of them.
The tables were `db` at the first one, `last` at the last fetch, if there was one, and are `dbEnd`
at the end. -/
inductive Iterates (d : Deps) (call : Db → PagedCall) : Db → PageIter →
    List (Except Error StoredEvent) → (last : Option Db) → Db → PageIter → Prop
  | ended {db : Db} {it it' : PageIter} (hnext : it.next (call db) = some (none, it')) :
      Iterates d call db it [] (it.reads db) db it'
  | item {db db' dbEnd : Db} {it it' itEnd : PageIter} {item : Except Error StoredEvent}
      {items : List (Except Error StoredEvent)} {last : Option Db} (ops : List StoreOp)
      (hnext : it.next (call db) = some (some item, it'))
      (hops : ∀ op ∈ ops, op.isPurge = false) (hrun : run (storeStep d) db ops = some db')
      (rest : Iterates d call db' it' items last dbEnd itEnd) :
      Iterates d call db it (item :: items) (last.or (it.reads db)) dbEnd itEnd

variable {d : Deps} {call : Db → PagedCall} {P : Budget → Prop} {db db' dbEnd dbLast : Db}
  {last : Option Db} {it itEnd : PageIter} {items : List (Except Error StoredEvent)}
  {data : List StoredEvent} {registry : UpcasterRegistry} {fuel : ℕ} {options : Budget}
  {q : ReadQuery}
  {correlationId : EventId}

/-! ### One item -/

/-- **What `next` does**, case by case. -/
inductive Yields (c : PagedCall) (it : PageIter) :
    Option (Except Error StoredEvent) → PageIter → Prop
  | buffered {event : StoredEvent} {buffer : List StoredEvent}
      (hbuffer : it.buffer = event :: buffer) :
      Yields c it (some (.ok event)) { it with buffer := buffer }
  | spent (hbuffer : it.buffer = []) (hexhausted : it.exhausted = true) : Yields c it none it
  | failed {e : Error} (hbuffer : it.buffer = []) (hexhausted : it.exhausted = false)
      (hcall : c ⟨some ITER_BATCH_SIZE, none⟩ it.resume = some (.error e)) :
      Yields c it (some (.error e)) ⟨none, [], true⟩
  | finished (hbuffer : it.buffer = []) (hexhausted : it.exhausted = false)
      (hcall : c ⟨some ITER_BATCH_SIZE, none⟩ it.resume = some (.ok (.complete []))) :
      Yields c it none ⟨none, [], true⟩
  | last {event : StoredEvent} {buffer : List StoredEvent} (hbuffer : it.buffer = [])
      (hexhausted : it.exhausted = false)
      (hcall : c ⟨some ITER_BATCH_SIZE, none⟩ it.resume =
        some (.ok (.complete (event :: buffer)))) :
      Yields c it (some (.ok event)) ⟨none, buffer, true⟩
  | starved {cursor : Option CursorInner} {reason : TruncationReason} (hbuffer : it.buffer = [])
      (hexhausted : it.exhausted = false)
      (hcall : c ⟨some ITER_BATCH_SIZE, none⟩ it.resume =
        some (.ok (.truncated [] cursor reason))) :
      Yields c it none ⟨cursor, [], true⟩
  | fetched {event : StoredEvent} {buffer : List StoredEvent} {cursor : Option CursorInner}
      {reason : TruncationReason} (hbuffer : it.buffer = []) (hexhausted : it.exhausted = false)
      (hcall : c ⟨some ITER_BATCH_SIZE, none⟩ it.resume =
        some (.ok (.truncated (event :: buffer) cursor reason))) :
      Yields c it (some (.ok event)) ⟨cursor, buffer, false⟩

theorem yields_of_next {c : PagedCall} {o : Option (Except Error StoredEvent)} {it' : PageIter}
    (h : it.next c = some (o, it')) : Yields c it o it' := by
  rcases hbuffer : it.buffer with _ | ⟨event, buffer⟩
  · rcases hexhausted : it.exhausted with _ | _
    · rcases hcall : c ⟨some ITER_BATCH_SIZE, none⟩ it.resume with _ | e | outcome
      · rw [PageIter.next, hbuffer] at h
        dsimp only at h
        rw [if_neg (by simp [hexhausted]), hcall] at h
        exact absurd h (by simp)
      · rw [PageIter.next, hbuffer] at h
        dsimp only at h
        rw [if_neg (by simp [hexhausted]), hcall] at h
        obtain ⟨rfl, rfl⟩ := Prod.mk.inj (Option.some_inj.mp h)
        exact .failed hbuffer hexhausted hcall
      · rw [next_of_fetch hbuffer hexhausted hcall] at h
        cases outcome with
        | complete events =>
          rw [PageIter.fetched, hbuffer, List.nil_append] at h
          cases events with
          | nil =>
            obtain ⟨rfl, rfl⟩ := Prod.mk.inj (Option.some_inj.mp h)
            exact .finished hbuffer hexhausted hcall
          | cons event events =>
            obtain ⟨rfl, rfl⟩ := Prod.mk.inj (Option.some_inj.mp h)
            exact .last hbuffer hexhausted hcall
        | truncated page cursor reason =>
          rw [PageIter.fetched, hbuffer, List.nil_append, hexhausted] at h
          cases page with
          | nil =>
            obtain ⟨rfl, rfl⟩ := Prod.mk.inj (Option.some_inj.mp h)
            exact .starved hbuffer hexhausted hcall
          | cons event page =>
            obtain ⟨rfl, rfl⟩ := Prod.mk.inj (Option.some_inj.mp h)
            exact .fetched hbuffer hexhausted hcall
    · rw [next_of_exhausted hbuffer hexhausted] at h
      obtain ⟨rfl, rfl⟩ := Prod.mk.inj (Option.some_inj.mp h)
      exact .spent hbuffer hexhausted
  · rw [next_of_buffer hbuffer] at h
    obtain ⟨rfl, rfl⟩ := Prod.mk.inj (Option.some_inj.mp h)
    exact .buffered hbuffer

/-- An iterator that has returned `None` does so for ever, whatever is written. -/
theorem iterates_fused (h : Iterates d call db it items last dbEnd itEnd) (db' : Db) :
    itEnd.Fused (call db') := by
  induction h with
  | ended hnext =>
    cases yields_of_next hnext with
    | spent hbuffer hexhausted => exact next_of_exhausted hbuffer hexhausted
    | finished | starved => exact next_of_exhausted rfl rfl
  | item _ _ _ _ _ ih => exact ih

/-! ### Pages -/

/-- Calls lead from the one to the other, and purge nothing. -/
def Grown (d : Deps) (db dbEnd : Db) : Prop :=
  ∃ ops, (∀ op ∈ ops, op.isPurge = false) ∧ run (storeStep d) db ops = some dbEnd

/-- The pages that an iterator has yet to fetch, the first at some time after `db`, the last one
from `dbLast`, and that before `dbEnd`. -/
def Remains (d : Deps) (P : Budget → Prop) (call : Db → PagedCall) (db : Db)
    (resume : Option CursorInner) (data : List StoredEvent) (dbLast dbEnd : Db) : Prop :=
  ∃ db', Grown d db db' ∧ FollowsGrowing d P call db' resume data dbLast ∧ Grown d dbLast dbEnd

theorem Grown.refl (db : Db) : Grown d db db := ⟨[], by simp, rfl⟩

theorem Grown.trans (h : Grown d db db') (h' : Grown d db' dbEnd) : Grown d db dbEnd := by
  obtain ⟨ops, hops, hrun⟩ := h
  obtain ⟨ops', hops', hrun'⟩ := h'
  refine ⟨ops ++ ops', fun op hop => ?_, run_append.mpr ⟨db', hrun, hrun'⟩⟩
  rcases List.mem_append.mp hop with hop | hop
  · exact hops op hop
  · exact hops' op hop

theorem Grown.extends (h : Grown d db dbEnd) (hfits : db.Fits) : dbEnd.Fits ∧ Extends db dbEnd := by
  obtain ⟨ops, hops, hrun⟩ := h
  exact run_extends hops hrun hfits

theorem reads_of_fetch (hbuffer : it.buffer = []) (hexhausted : it.exhausted = false) :
    it.reads db = some db := by
  rw [PageIter.reads, PageIter.fetches, hbuffer, hexhausted]
  rfl

theorem reads_of_buffer {event : StoredEvent} {buffer : List StoredEvent}
    (hbuffer : it.buffer = event :: buffer) : it.reads db = none := by
  rw [PageIter.reads, PageIter.fetches, hbuffer]
  rfl

theorem reads_of_exhausted (hexhausted : it.exhausted = true) : it.reads db = none := by
  rw [PageIter.reads, PageIter.fetches, hexhausted, Bool.not_true, Bool.and_false]
  rfl

/-- **The items are pages.**  When no page is empty, an iterator without an error gives its buffer,
and then the pages that follow the cursors as the tables grow, down to the last fetch. -/
theorem iterates_follows (hP : P ⟨some ITER_BATCH_SIZE, none⟩)
    (hfeeds : ∀ db resume cursor reason,
      call db ⟨some ITER_BATCH_SIZE, none⟩ resume ≠ some (.ok (.truncated [] cursor reason)))
    (h : Iterates d call db it items last dbEnd itEnd) (hitems : items = data.map .ok) :
    Grown d db dbEnd ∧ (it.exhausted = true → data = it.buffer ∧ last = none) ∧
      (it.exhausted = false → ∃ data' dbLast, data = it.buffer ++ data' ∧ last = some dbLast ∧
        Remains d P call db it.resume data' dbLast dbEnd) := by
  induction h generalizing data with
  | @ended db it it' hnext =>
    obtain rfl := List.map_eq_nil_iff.mp hitems.symm
    refine ⟨.refl db, ?_⟩
    cases yields_of_next hnext with
    | spent hbuffer hexhausted =>
      exact ⟨fun _ => ⟨hbuffer.symm, reads_of_exhausted hexhausted⟩,
        fun hfalse => absurd (hexhausted.symm.trans hfalse) (by simp)⟩
    | finished hbuffer hexhausted hcall =>
      refine ⟨fun htrue => absurd (hexhausted.symm.trans htrue) (by simp), fun _ => ?_⟩
      exact ⟨[], db, by rw [hbuffer]; rfl, reads_of_fetch hbuffer hexhausted, db, .refl db,
        .last _ hcall, .refl db⟩
    | starved _ _ hcall => exact absurd hcall (hfeeds _ _ _ _)
  | @item db db' dbEnd it it' itEnd item items last ops hnext hops hrun _ ih =>
    cases data with
    | nil => exact absurd hitems (by simp)
    | cons event data =>
      obtain ⟨rfl, hrest⟩ := List.cons.inj hitems
      obtain ⟨hgrown, hspent, hremains⟩ := ih hrest
      have hstep : Grown d db db' := ⟨ops, hops, hrun⟩
      refine ⟨hstep.trans hgrown, ?_⟩
      cases yields_of_next hnext with
      | buffered hbuffer =>
        rw [reads_of_buffer hbuffer, Option.or_none]
        refine ⟨fun htrue => ?_, fun hfalse => ?_⟩
        · obtain ⟨hdata, hlast⟩ := hspent htrue
          exact ⟨by rw [hdata, hbuffer], hlast⟩
        · obtain ⟨data', dbLast, hdata, hlast, db₁, hbefore, hfollows, hafter⟩ := hremains hfalse
          refine ⟨data', dbLast, ?_, hlast, db₁, hstep.trans hbefore, hfollows, hafter⟩
          rw [hdata, hbuffer]
          rfl
      | last hbuffer hexhausted hcall =>
        obtain ⟨hdata, rfl⟩ := hspent rfl
        refine ⟨fun htrue => absurd (hexhausted.symm.trans htrue) (by simp), fun _ => ?_⟩
        refine ⟨_, db, by rw [hbuffer]; rfl, reads_of_fetch hbuffer hexhausted, db, .refl db, ?_,
          hstep.trans hgrown⟩
        rw [hdata]
        exact .last _ hcall
      | fetched hbuffer hexhausted hcall =>
        refine ⟨fun htrue => absurd (hexhausted.symm.trans htrue) (by simp), fun _ => ?_⟩
        obtain ⟨data', dbLast, hdata, rfl, db₁, hbefore, hfollows, hafter⟩ := hremains rfl
        refine ⟨_, dbLast, by rw [hbuffer]; rfl, rfl, db, .refl db, ?_, hafter⟩
        -- the next fetch is after the calls in between, and after those that follow
        obtain ⟨ops', hops', hrun'⟩ := hstep.trans hbefore
        rw [hdata]
        exact .more _ ops' hP hcall hops' hrun' hfollows

/-- From the start on, all items are pages. -/
theorem iterates_start (hP : P ⟨some ITER_BATCH_SIZE, none⟩)
    (hfeeds : ∀ db resume cursor reason,
      call db ⟨some ITER_BATCH_SIZE, none⟩ resume ≠ some (.ok (.truncated [] cursor reason)))
    (h : Iterates d call db .start (data.map .ok) last dbEnd itEnd) :
    ∃ dbLast, last = some dbLast ∧ Remains d P call db none data dbLast dbEnd := by
  obtain ⟨data', dbLast, rfl, hlast, hremains⟩ := (iterates_follows hP hfeeds h rfl).2.2 rfl
  exact ⟨dbLast, hlast, hremains⟩

theorem FollowsGrowing.grown {resume : Option CursorInner}
    (h : FollowsGrowing d P call db resume data dbLast) : Grown d db dbLast := by
  induction h with
  | last => exact .refl _
  | more budget ops _ _ hops hrun _ ih => exact Grown.trans ⟨ops, hops, hrun⟩ ih

theorem feeds_batch : Feeds options ⟨some ITER_BATCH_SIZE, none⟩ := by
  intro hzero
  exact absurd (Option.some_inj.mp hzero) (by decide)

/-! ### Range iterators -/

theorem FollowsGrowing.followsPages {resume : Option CursorInner}
    (h : FollowsGrowing d P (fun db => readRangeBounded registry fuel options db q) db resume data
      dbLast) : FollowsPages d registry fuel options q db resume data dbLast := by
  induction h with
  | last budget hcall => exact .last budget hcall
  | more budget ops _ hcall hops hrun _ ih =>
    obtain ⟨_, _, _, -, -, rfl⟩ := truncated_spec hcall
    exact .more budget ops hcall hops hrun ih

/-- **A range iterator over a store that grows.**  Whatever is written between two items, and
whatever the query, the upcasters and the budgets of the store: when no item is an error, the
items are what `read_range` returns for the query without its limit, all at once, from the tables
of the last fetch; and the iterator has ended for good. -/
theorem range_iter_growing {now : Int64} {ops : List StoreOp}
    (hrun : run (storeStep d) (Db.bootstrap now) ops = some db)
    (h : Iterates d (fun db => readRangeBounded registry fuel options db q) db .start
      (data.map .ok) last dbEnd itEnd) :
    (∃ dbLast, last = some dbLast ∧
      readRange registry fuel dbLast { q with limit := none } = some (.ok data)) ∧
    ∀ db', itEnd.Fused (readRangeBounded registry fuel options db' q) := by
  refine ⟨?_, iterates_fused h⟩
  obtain ⟨dbLast, hlast, db₁, hbefore, hfollows, -⟩ := iterates_start (P := Feeds options)
    feeds_batch (fun db resume cursor reason hcall =>
      absurd rfl ((readRangeBounded_ne_nil hcall).mpr feeds_batch)) h
  obtain ⟨hfits, -⟩ := hbefore.extends (run_fits hrun)
  refine ⟨dbLast, hlast, ?_⟩
  have hpages := hfollows.followsPages
  rw [readRange, readRangeImpl_eq_selectRange (hpages.extends hfits).1]
  exact hpages.data_eq hfits

/-- One event to a page, a third event appended after the first item, and a fourth after the last
fetch. -/
theorem range_iter_growing_between : ∃ (dbLast : Db) (data : List StoredEvent),
    data.map (·.eventType) = ["a", "b", "c"] ∧
    dbLast.events.map (·.eventType) = ["a", "b", "c"] ∧
    readRange [] 1 dbLast { streamId := "s", branch := "main" } = some (.ok data) := by
  obtain ⟨⟨dbLast, hlast, hread⟩, -⟩ := @range_iter_growing flatDeps _ _ _ _ [_, _, _] [] 1
    ⟨none, some 1⟩ { streamId := "s", branch := "main" } 0
    [.declareStream "s" "t" none 0, appendNull "a", appendNull "b"] rfl
    (.item [appendNull "c"] rfl (by decide) rfl (.item [] rfl (by decide) rfl
      (.item [appendNull "d"] rfl (by decide) rfl (.ended rfl))))
  obtain rfl := Option.some_inj.mp hlast
  exact ⟨_, _, rfl, by decide, hread⟩

/-! ### Correlation iterators -/

theorem mem_readByCorrelationImpl {e : StoredEvent} :
    e ∈ readByCorrelationImpl db correlationId ↔
      ∃ r ∈ db.events, r.correlationId = some correlationId ∧ rowToEvent r = e := by
  simp only [readByCorrelationImpl, List.mem_map, KeySort.mem_sortBy, List.mem_filter,
    decide_eq_true_eq, and_assoc]

/-- A page of the default size has an event. -/
theorem correlation_page_ne_nil {resume cursor : Option CursorInner} {reason : TruncationReason} :
    readByCorrelationBounded registry fuel options db correlationId ⟨some ITER_BATCH_SIZE, none⟩
      resume ≠ some (.ok (.truncated [] cursor reason)) := by
  intro hcall
  by_cases hcursor : ∀ c ∈ resume, ∃ correlationId lastSeenId,
      c = .correlation correlationId lastSeenId
  · exact absurd rfl ((readByCorrelationBounded_ne_nil ⟨hcursor, rfl⟩ hcall).mpr feeds_batch)
  · -- any other cursor is refused
    rw [readByCorrelationBounded.eq_def] at hcall
    dsimp only at hcall
    split at hcall
    · exact hcursor fun c hc => absurd hc (by simp)
    · exact hcursor fun c hc => ⟨_, _, (Option.some_inj.mp hc).symm⟩
    · exact absurd hcall (by simp)

/-- **A correlation iterator over a store that grows.**  Whatever is written between two items:
when no item is an error, the items are in strict order of their ids, so none comes twice; every
event that `read_by_correlation` would have returned at the start is among them, and each is an
event with the correlation id that is in the store at the end; and the iterator has ended for
good. -/
theorem correlation_iter_growing {now : Int64} {ops : List StoreOp}
    (hrun : run (storeStep d) (Db.bootstrap now) ops = some db)
    (h : Iterates d (fun db => readByCorrelationBounded registry fuel options db correlationId) db
      .start (data.map .ok) last dbEnd itEnd) :
    InIdOrder data ∧
      (∀ events, readByCorrelation registry fuel db correlationId = some (.ok events) →
        ∀ e ∈ events, e ∈ data) ∧
      (∀ e ∈ data, ∃ r ∈ dbEnd.events, r.correlationId = some correlationId ∧
        applyUpcaster registry fuel (rowToEvent r) = some (.ok e)) ∧
      ∀ db', itEnd.Fused (readByCorrelationBounded registry fuel options db' correlationId) := by
  obtain ⟨dbLast, -, db₁, hbefore, hfollows, hafter⟩ := iterates_start (P := Feeds options)
    feeds_batch (fun _ _ _ _ => correlation_page_ne_nil) h
  obtain ⟨hfits, hext⟩ := hbefore.extends (run_fits hrun)
  obtain ⟨ops', -, hrun'⟩ := hbefore
  have hdistinct := run_distinct_from hrun' (run_distinct hrun)
  obtain ⟨rows, hdata, hsorted, hall, honly⟩ :=
    hfollows.read hfits hdistinct fun _ hc => absurd hc (by simp)
  refine ⟨inIdOrder_of_upcast hdata hsorted, fun events hread e he => ?_, fun e he => ?_,
    iterates_fused h⟩
  · obtain ⟨event, hevent, happly⟩ := (mem_upcastAll hread).mp he
    obtain ⟨r, hr, hid, rfl⟩ := mem_readByCorrelationImpl.mp hevent
    -- the row was there when the first page was fetched
    have hselected : r ∈ selectCorrelated db₁ correlationId none :=
      mem_selectCorrelated.mpr ⟨hext.mem_events hr, hid, rfl⟩
    exact (mem_upcastAll hdata).mpr ⟨_, List.mem_map_of_mem (hall r hselected), happly⟩
  · obtain ⟨event, hevent, happly⟩ := (mem_upcastAll hdata).mp he
    obtain ⟨r, hr, rfl⟩ := List.mem_map.mp hevent
    obtain ⟨hmem, hid, -⟩ := mem_selectCorrelated.mp (honly r hr)
    have hlast := (hafter.extends (hfollows.grown.extends hfits).1).2
    exact ⟨r, hlast.mem_events hmem, hid, happly⟩

set_option maxRecDepth 4000 in
/-- One event to a page, and a third event appended between the two fetches. -/
theorem correlation_iter_growing_between : ∃ data : List StoredEvent,
    data.map (·.eventType) = ["a", "b", "c"] ∧ InIdOrder data := by
  refine ⟨[_, _, _], ?_, (@correlation_iter_growing mixDeps _ _ _ _ [_, _, _] [] 1
    ⟨none, some 1⟩ zeroId 0
    [.declareStream "s" "t" none 0, appendCorrelated "a" zeroId, appendCorrelated "b" zeroId] rfl
    (.item [appendCorrelated "c" zeroId] rfl (by decide) rfl (.item [] rfl (by decide) rfl
      (.item [] rfl (by decide) rfl (.ended rfl))))).1⟩
  rfl

end Fossic
