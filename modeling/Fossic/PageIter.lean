/-
The streaming iterators.

`RangeIter` and `CorrelationIter` are the same loop over two bounded reads: they hand out
the events of a page one by one, and fetch the next page when the buffer is empty.  A page
has at most `ITER_BATCH_SIZE` events, and less when the store was opened with a default
number of bytes.

* `collect_spec`, `collect_inv` — collecting an iterator gives what remains at its cursor;
* `rangePages` — range reads are paged reads;
* `range_iter_iff` — a range iterator gives what `read_range` returns if and only if the
  limit of the query, which it does not look at, leaves nothing out.
-/
import Fossic.PagedReads
import Fossic.RangePages
import Fossic.VersionBounds

namespace Fossic

open Paging

/-! ### The iterators -/

def ITER_BATCH_SIZE : ℕ := 100

/-- The state of an iterator, without the read that it is over. -/
structure PageIter where
  resume : Option CursorInner
  buffer : List StoredEvent
  exhausted : Bool

def PageIter.start : PageIter := ⟨none, [], false⟩

/-- `fetch_batch`, on a success. -/
def PageIter.fetched (it : PageIter) : ReadOutcome → PageIter
  | .complete events => ⟨none, it.buffer ++ events, true⟩
  | .truncated data cursor _ => ⟨cursor, it.buffer ++ data, it.exhausted⟩

/-- `Iterator::next`: the item, if any, and the iterator after it. -/
def PageIter.next (call : PagedCall) (it : PageIter) :
    Option (Option (Except Error StoredEvent) × PageIter) :=
  match it.buffer with
  | event :: buffer => some (some (.ok event), { it with buffer := buffer })
  | [] =>
    if it.exhausted then some (none, it)
    else
      match call ⟨some ITER_BATCH_SIZE, none⟩ it.resume with
      | none => none
      | some (.error e) => some (some (.error e), ⟨none, [], true⟩)
      | some (.ok outcome) =>
        match (it.fetched outcome).buffer with
        | [] => some (none, { it.fetched outcome with exhausted := true })
        | event :: buffer => some (some (.ok event), { it.fetched outcome with buffer := buffer })

/-- `collect`, with fuel for the number of items: the items up to the first `None`, and the
iterator after it. -/
def PageIter.collect (call : PagedCall) :
    ℕ → PageIter → Option (List (Except Error StoredEvent) × PageIter)
  | 0, _ => none
  | n + 1, it =>
    match it.next call with
    | none => none
    | some (none, it') => some ([], it')
    | some (some item, it') =>
      (PageIter.collect call n it').map fun p => (item :: p.1, p.2)

/-- `Store::read_range_iter` and its items. -/
def readRangeIter (registry : UpcasterRegistry) (fuel : ℕ) (options : Budget) (db : Db)
    (q : ReadQuery) (n : ℕ) : Option (List (Except Error StoredEvent) × PageIter) :=
  PageIter.start.collect (readRangeBounded registry fuel options db q) n

/-- The iterator returns `None`, and stays as it is. -/
def PageIter.Fused (call : PagedCall) (it : PageIter) : Prop := it.next call = some (none, it)

variable {registry : UpcasterRegistry} {fuel n : ℕ} {options : Budget} {P : Budget → Prop}
  {call : PagedCall} {At : Option CursorInner → List EventRow → Prop} {db : Db} {q : ReadQuery}
  {resume cursor : Option CursorInner} {rows : List EventRow} {data : List StoredEvent}
  {it it' : PageIter} {budget : Budget} {reason : TruncationReason}

/-! ### Collecting -/

theorem next_of_buffer {event : StoredEvent} {buffer : List StoredEvent}
    (h : it.buffer = event :: buffer) :
    it.next call = some (some (.ok event), { it with buffer := buffer }) := by
  rw [PageIter.next, h]

theorem next_of_exhausted (hbuffer : it.buffer = []) (hexhausted : it.exhausted = true) :
    it.Fused call := by
  rw [PageIter.Fused, PageIter.next, hbuffer]
  exact if_pos hexhausted

/-- An empty iterator that is not exhausted behaves as it does after the fetch. -/
theorem next_of_fetch {outcome : ReadOutcome} (hbuffer : it.buffer = [])
    (hexhausted : it.exhausted = false)
    (hcall : call ⟨some ITER_BATCH_SIZE, none⟩ it.resume = some (.ok outcome)) :
    it.next call =
      match (it.fetched outcome).buffer with
      | [] => some (none, { it.fetched outcome with exhausted := true })
      | event :: buffer => some (some (.ok event), { it.fetched outcome with buffer := buffer }) := by
  rw [PageIter.next, hbuffer]
  dsimp only
  rw [if_neg (by simp [hexhausted]), hcall]

/-- Where the iterator stands: `rows` remain after the buffer. -/
def PageIter.Stands (At : Option CursorInner → List EventRow → Prop) (it : PageIter)
    (rows : List EventRow) : Prop :=
  it.exhausted = true ∧ rows = [] ∨ it.exhausted = false ∧ At it.resume rows

/-- **One item**: the first event of the buffer or of what remains. -/
theorem next_spec (h : Pages registry fuel P call At) (hP : P ⟨some ITER_BATCH_SIZE, none⟩)
    (hit : it.Stands At rows)
    (hupcast : upcastAll registry fuel (rows.map rowToEvent) = some (.ok data)) :
    (it.buffer ++ data = [] ∧ ∃ it', it.next call = some (none, it') ∧ it'.Fused call) ∨
      ∃ event it' rows' data', it.next call = some (some (.ok event), it') ∧ it'.Stands At rows' ∧
        upcastAll registry fuel (rows'.map rowToEvent) = some (.ok data') ∧
        it.buffer ++ data = event :: (it'.buffer ++ data') := by
  rcases hbuffer : it.buffer with _ | ⟨event, buffer⟩
  · rcases hit with ⟨hexhausted, rfl⟩ | ⟨hexhausted, hat⟩
    · obtain rfl := Except.ok.inj (Option.some_inj.mp hupcast)
      have hfused : it.Fused call := next_of_exhausted hbuffer hexhausted
      exact .inl ⟨rfl, it, hfused, hfused⟩
    · obtain ⟨outcome, hcall⟩ := h.succeeds _ _ ⟨some ITER_BATCH_SIZE, none⟩ _ hat hupcast
      have hnext := next_of_fetch hbuffer hexhausted hcall
      cases outcome with
      | complete events =>
        obtain rfl := Except.ok.inj (Option.some_inj.mp
          ((h.complete _ _ _ _ hat hcall).symm.trans hupcast))
        rw [PageIter.fetched, hbuffer, List.nil_append] at hnext
        cases events with
        | nil => exact .inl ⟨rfl, _, hnext, next_of_exhausted rfl rfl⟩
        | cons event events =>
          exact .inr ⟨event, _, [], [], hnext, .inl ⟨rfl, rfl⟩, rfl, by rw [List.append_nil]; rfl⟩
      | truncated page cursor reason =>
        obtain ⟨front, rest, rfl, hne, hrest, hpage⟩ := h.cuts _ _ _ _ _ _ hat hP hcall
        rw [List.map_append] at hupcast
        obtain ⟨page', data', hpage', hdata', rfl⟩ := upcastAll_append_iff.mp hupcast
        obtain rfl := Except.ok.inj (Option.some_inj.mp (hpage.symm.trans hpage'))
        rw [PageIter.fetched, hbuffer, List.nil_append] at hnext
        obtain ⟨event, page, rfl⟩ := List.exists_cons_of_ne_nil
          ((upcastAll_ne_nil_iff hpage).mpr (List.map_eq_nil_iff.ne.mpr hne))
        exact .inr ⟨event, _, rest, data', hnext, .inr ⟨hexhausted, hrest⟩, hdata', rfl⟩
  · exact .inr ⟨event, _, rows, data, next_of_buffer hbuffer, hit, hupcast, rfl⟩

/-- **Collecting** gives the buffer and what remains, and then there is no more. -/
theorem collect_spec (h : Pages registry fuel P call At) (hP : P ⟨some ITER_BATCH_SIZE, none⟩)
    {events : List StoredEvent} (hit : it.Stands At rows)
    (hupcast : upcastAll registry fuel (rows.map rowToEvent) = some (.ok data))
    (hevents : it.buffer ++ data = events) :
    ∃ n it', it.collect call n = some (events.map .ok, it') ∧ it'.Fused call := by
  induction events generalizing it rows data with
  | nil =>
    rcases next_spec h hP hit hupcast with ⟨-, it', hnext, hfused⟩ | ⟨_, _, _, _, -, -, -, hcons⟩
    · exact ⟨1, it', by rw [PageIter.collect, hnext]; rfl, hfused⟩
    · exact absurd (hevents.symm.trans hcons) (List.cons_ne_nil _ _).symm
  | cons event events ih =>
    rcases next_spec h hP hit hupcast with ⟨hnil, -⟩ | ⟨_, it', rows', data', hnext, hit', hdata', hcons⟩
    · exact absurd (hnil.symm.trans hevents) (List.cons_ne_nil _ _).symm
    · obtain ⟨rfl, hrest⟩ := List.cons.inj (hcons.symm.trans hevents)
      obtain ⟨n, last, hcollect, hfused⟩ := ih hit' hdata' hrest
      refine ⟨n + 1, last, ?_, hfused⟩
      rw [PageIter.collect, hnext]
      dsimp only
      rw [hcollect]
      rfl

/-- What an item without an error says about what remained before and after it. -/
theorem next_inv (h : Pages registry fuel P call At) (hP : P ⟨some ITER_BATCH_SIZE, none⟩)
    (hit : it.Stands At rows) {item : Option StoredEvent}
    (hnext : it.next call = some (item.map .ok, it')) :
    (item = none ∧ it.buffer = [] ∧ upcastAll registry fuel (rows.map rowToEvent) = some (.ok [])) ∨
      ∃ event rows', item = some event ∧ it'.Stands At rows' ∧
        ∀ data', upcastAll registry fuel (rows'.map rowToEvent) = some (.ok data') →
          ∃ data, upcastAll registry fuel (rows.map rowToEvent) = some (.ok data) ∧
            it.buffer ++ data = event :: (it'.buffer ++ data') := by
  rcases hbuffer : it.buffer with _ | ⟨event, buffer⟩
  · rcases hit with ⟨hexhausted, rfl⟩ | ⟨hexhausted, hat⟩
    · rw [next_of_exhausted hbuffer hexhausted] at hnext
      obtain ⟨hitem, -⟩ := Prod.mk.inj (Option.some_inj.mp hnext)
      exact .inl ⟨Option.map_eq_none_iff.mp hitem.symm, rfl, rfl⟩
    · rcases hcall : call ⟨some ITER_BATCH_SIZE, none⟩ it.resume with _ | e | outcome
      · rw [PageIter.next, hbuffer] at hnext
        dsimp only at hnext
        rw [if_neg (by simp [hexhausted]), hcall] at hnext
        exact absurd hnext (by simp)
      · rw [PageIter.next, hbuffer] at hnext
        dsimp only at hnext
        rw [if_neg (by simp [hexhausted]), hcall] at hnext
        cases item <;> simp at hnext
      · rw [next_of_fetch hbuffer hexhausted hcall] at hnext
        cases outcome with
        | complete events =>
          have hdata := h.complete _ _ _ _ hat hcall
          rw [PageIter.fetched, hbuffer, List.nil_append] at hnext
          cases events with
          | nil =>
            obtain ⟨hitem, -⟩ := Prod.mk.inj (Option.some_inj.mp hnext)
            exact .inl ⟨Option.map_eq_none_iff.mp hitem.symm, rfl, hdata⟩
          | cons event events =>
            obtain ⟨hitem, rfl⟩ := Prod.mk.inj (Option.some_inj.mp hnext)
            obtain ⟨_, rfl, hok⟩ := Option.map_eq_some_iff.mp hitem.symm
            obtain rfl := Except.ok.inj hok
            refine .inr ⟨_, [], rfl, .inl ⟨rfl, rfl⟩, fun data' hdata' => ⟨_, hdata, ?_⟩⟩
            obtain rfl := Except.ok.inj (Option.some_inj.mp hdata')
            rw [List.append_nil]
            rfl
        | truncated page cursor reason =>
          obtain ⟨front, rest, rfl, hne, hrest, hpage⟩ := h.cuts _ _ _ _ _ _ hat hP hcall
          rw [PageIter.fetched, hbuffer, List.nil_append] at hnext
          obtain ⟨event, page, rfl⟩ := List.exists_cons_of_ne_nil
            ((upcastAll_ne_nil_iff hpage).mpr (List.map_eq_nil_iff.ne.mpr hne))
          obtain ⟨hitem, rfl⟩ := Prod.mk.inj (Option.some_inj.mp hnext)
          obtain ⟨_, rfl, hok⟩ := Option.map_eq_some_iff.mp hitem.symm
          obtain rfl := Except.ok.inj hok
          refine .inr ⟨_, rest, rfl, .inr ⟨hexhausted, hrest⟩, fun data' hdata' => ?_⟩
          refine ⟨(_ :: page) ++ data', ?_, rfl⟩
          rw [List.map_append]
          exact upcastAll_append_iff.mpr ⟨_, _, hpage, hdata', rfl⟩
  · rw [next_of_buffer hbuffer] at hnext
    obtain ⟨hitem, rfl⟩ := Prod.mk.inj (Option.some_inj.mp hnext)
    obtain ⟨_, rfl, hok⟩ := Option.map_eq_some_iff.mp hitem.symm
    obtain rfl := Except.ok.inj hok
    exact .inr ⟨_, rows, rfl, hit, fun data' hdata' => ⟨data', hdata', rfl⟩⟩

/-- What was collected without an error is the buffer and what remained. -/
theorem collect_inv (h : Pages registry fuel P call At) (hP : P ⟨some ITER_BATCH_SIZE, none⟩)
    {events : List StoredEvent} (hit : it.Stands At rows)
    (hcollect : it.collect call n = some (events.map .ok, it')) :
    ∃ data, upcastAll registry fuel (rows.map rowToEvent) = some (.ok data) ∧
      events = it.buffer ++ data := by
  induction n generalizing it rows events with
  | zero => exact absurd hcollect (by simp [PageIter.collect])
  | succ n ih =>
    rw [PageIter.collect] at hcollect
    split at hcollect
    · exact absurd hcollect (by simp)
    · rename_i it₁ hnext
      obtain ⟨hnil, -⟩ := Prod.mk.inj (Option.some_inj.mp hcollect)
      obtain rfl := List.map_eq_nil_iff.mp hnil.symm
      rcases @next_inv _ _ _ _ _ _ _ _ h hP hit none hnext with ⟨-, hbuffer, hdata⟩ | ⟨_, _, hnone, -⟩
      · exact ⟨[], hdata, by rw [hbuffer]; rfl⟩
      · exact absurd hnone (by simp)
    · rename_i item it₁ hnext
      obtain ⟨p, hp, hpair⟩ := Option.map_eq_some_iff.mp hcollect
      obtain ⟨hcons, rfl⟩ := Prod.mk.inj hpair
      cases events with
      | nil => exact absurd hcons (by simp)
      | cons event events =>
        obtain ⟨rfl, htail⟩ := List.cons.inj hcons
        rcases @next_inv _ _ _ _ _ _ _ _ h hP hit (some event) hnext with
          ⟨hnone, -⟩ | ⟨_, rows', hsome, hit', hbefore⟩
        · exact absurd hnone (by simp)
        · obtain rfl := Option.some_inj.mp hsome
          obtain ⟨data', hdata', rfl⟩ := ih hit' (by rw [hp, ← htail])
          obtain ⟨data, hdata, heq⟩ := hbefore data' hdata'
          exact ⟨data, hdata, heq.symm⟩

/-! ### Range reads as paged reads -/

/-- The cursor is that of a range read, and `rows` is what the query selects from it on. -/
def RangeAt (db : Db) (q : ReadQuery) (resume : Option CursorInner) (rows : List EventRow) : Prop :=
  (∀ c ∈ resume, ∃ streamId branch nextVersion, c = .range streamId branch nextVersion) ∧
    rows = selectRange db q (startVersion q resume)

/-- The budget lets an event through. -/
def Feeds (options budget : Budget) : Prop := (budget.or options).maxResults ≠ some 0

theorem readRangeBounded_ne_nil (h : readRangeBounded registry fuel options db q budget resume
    = some (.ok (.truncated data cursor reason))) : data ≠ [] ↔ Feeds options budget := by
  rw [readRangeBounded.eq_def] at h
  have hne : ∀ resumeVersion, upcastOutcome registry fuel
      (readRangeBoundedImpl db q resumeVersion (budget.or options))
        = some (.ok (.truncated data cursor reason)) → (data ≠ [] ↔ Feeds options budget) := by
    intro resumeVersion h
    obtain ⟨events, himpl, hupcast⟩ := upcastOutcome_truncated h
    exact (upcastAll_ne_nil_iff hupcast).trans (readRangeBoundedImpl_ne_nil himpl)
  split at h
  · exact hne _ h
  · exact hne _ h
  · exact absurd h (by simp)

/-- From the row that a cursor names on. -/
theorem selectRange_from {page rest : List EventRow} {row : EventRow} {start : UInt64}
    (hdb : db.Sane) (h : selectRange db q start = page ++ row :: rest) :
    selectRange db q (rowToEvent row).version = row :: rest := by
  rw [selectRange_eq] at h ⊢
  have hmem : row ∈ rowsFor db q := by
    refine List.mem_of_mem_filter (p := fun r => decide (u64AsI64 start ≤ r.version)) ?_
    show row ∈ atOrAbove EventRow.version (u64AsI64 start) (rowsFor db q)
    rw [h]
    exact List.mem_append_right _ List.mem_cons_self
  have hrange := hdb.range row (mem_rowsOn.mp (List.mem_of_mem_filter hmem)).1
  have hle : u64AsI64 start ≤ row.version := by
    have hmem' : row ∈ atOrAbove EventRow.version (u64AsI64 start) (rowsFor db q) := by
      rw [h]
      exact List.mem_append_right _ List.mem_cons_self
    exact of_decide_eq_true (List.mem_filter.mp hmem').2
  show atOrAbove EventRow.version (u64AsI64 (i64AsU64 row.version)) (rowsFor db q) = _
  rw [u64AsI64_i64AsU64 hrange.1 hrange.2, ← atOrAbove_of_le hle, h]
  exact atOrAbove_of_sorted (h ▸ (rowsFor_sorted hdb).sublist List.filter_sublist)

theorem rangePages (hdb : db.Sane) : Pages registry fuel (Feeds options)
    (readRangeBounded registry fuel options db q) (RangeAt db q) where
  cuts := by
    rintro resume rows budget data cursor reason ⟨-, rfl⟩ hfeeds hcall
    obtain ⟨page, row, rest, hselect, hupcast, rfl⟩ := truncated_spec hcall
    refine ⟨page, row :: rest, hselect, ?_, ⟨?_, ?_⟩, hupcast⟩
    · have hne := (readRangeBounded_ne_nil hcall).mpr hfeeds
      exact List.map_eq_nil_iff.ne.mp ((upcastAll_ne_nil_iff hupcast).mp hne)
    · rintro c hc
      exact ⟨_, _, _, (Option.some_inj.mp hc).symm⟩
    · exact (selectRange_from hdb hselect).symm
  complete := by
    rintro resume rows budget data ⟨-, rfl⟩ hcall
    exact complete_spec hcall
  succeeds := by
    rintro resume rows budget data ⟨hcursor, rfl⟩ hupcast
    have himpl : ∀ resumeVersion : Option UInt64,
        resumeVersion.getD (q.fromVersion.getD 0) = startVersion q resume →
        ∃ outcome, upcastOutcome registry fuel
          (readRangeBoundedImpl db q resumeVersion (budget.or options)) = some (.ok outcome) := by
      intro resumeVersion hstart
      obtain ⟨page, rest, reason, hselect, himpl⟩ :=
        readRangeBoundedImpl_spec db q resumeVersion (budget.or options)
      rw [hstart] at hselect
      rw [hselect, List.map_append] at hupcast
      obtain ⟨page', -, hpage, -, -⟩ := upcastAll_append_iff.mp hupcast
      refine ⟨_, upcastOutcome_eq_ok_iff.mpr ⟨page', ?_, rfl⟩⟩
      rw [himpl]
      cases rest <;> exact hpage
    rcases resume with _ | c
    · exact himpl none rfl
    · obtain ⟨_, _, nextVersion, rfl⟩ := hcursor c rfl
      exact himpl (some nextVersion) rfl

/-! ### Range iterators -/

/-- A range read is what its bounded variant selects, up to the limit. -/
theorem readRangeImpl_eq_limited_select (h : db.Fits) : readRangeImpl db q =
    (limited q.limit (selectRange db q (q.fromVersion.getD 0))).map rowToEvent :=
  congrArg (List.map rowToEvent) (orderAndLimit_eq h _)

/-- **Range iterators**: whatever the query, the budgets that the store was opened with and
the upcasters, collecting the iterator over a store whose range read succeeds gives what the
read returns, and then no more, if and only if no more events than its limit are in range. -/
theorem range_iter_iff (db : Db) (hfits : db.Fits) (registry : UpcasterRegistry) (fuel : ℕ)
    (options : Budget) (q : ReadQuery) (events : List StoredEvent)
    (hread : readRange registry fuel db q = some (.ok events)) :
    (∃ n it, readRangeIter registry fuel options db q n = some (events.map .ok, it) ∧
        it.Fused (readRangeBounded registry fuel options db q)) ↔
      ∀ limit ∈ q.limit, (readRangeImpl db { q with limit := none }).length ≤ limit.toNat := by
  have hpages := @rangePages registry fuel options db q hfits.sane
  have hstart : PageIter.start.Stands (RangeAt db q) (selectRange db q (q.fromVersion.getD 0)) :=
    .inr ⟨rfl, fun c hc => absurd hc (by simp [PageIter.start]), rfl⟩
  have hfeeds : Feeds options ⟨some ITER_BATCH_SIZE, none⟩ := by
    intro hzero
    exact absurd (Option.some_inj.mp hzero) (by decide)
  have hunlimited : readRangeImpl db { q with limit := none } =
      (selectRange db q (q.fromVersion.getD 0)).map rowToEvent :=
    readRangeImpl_eq_limited_select hfits
  rw [readRange, readRangeImpl_eq_limited_select hfits] at hread
  rw [hunlimited, List.length_map]
  constructor
  · rintro ⟨n, it, hcollect, -⟩ limit hlimit
    -- the iterator has given one event for each row, and `read_range` has at most the limit
    obtain ⟨data, hdata, rfl⟩ := collect_inv hpages hfeeds hstart hcollect
    have hall := length_upcastAll hdata
    have hlimited := length_upcastAll hread
    rw [List.length_map] at hall hlimited
    rw [hlimit, limited, Option.elim_some, List.length_take] at hlimited
    omega
  · intro hlimit
    have hwhole : limited q.limit (selectRange db q (q.fromVersion.getD 0)) =
        selectRange db q (q.fromVersion.getD 0) := by
      rcases hq : q.limit with _ | limit
      · rfl
      · exact List.take_of_length_le (hlimit limit hq)
    rw [hwhole] at hread
    exact collect_spec hpages hfeeds hstart hread rfl

/-- A range of three events, one to a page, with a limit of three. -/
theorem range_iter_iff_three : ∃ (events : List StoredEvent) (n : ℕ) (it : PageIter),
    events.map (·.eventType) = ["a", "b", "c"] ∧
    readRangeIter [] 0 ⟨none, some 1⟩ storedThree ⟨"s", "main", none, none, some 3, none⟩ n =
      some (events.map .ok, it) := by
  obtain ⟨n, it, hcollect, -⟩ := (range_iter_iff storedThree storedThree_fits [] 0 ⟨none, some 1⟩
    ⟨"s", "main", none, none, some 3, none⟩ _ rfl).mpr fun limit hlimit => by
      obtain rfl := Option.some_inj.mp hlimit
      decide
  exact ⟨_, n, it, rfl, hcollect⟩

/-- The iterator goes past the limit of its query. -/
theorem limit_not_honoured : ¬∀ db : Db, db.Fits →
    ∀ (registry : UpcasterRegistry) (fuel : ℕ) (options : Budget) (q : ReadQuery)
      (events : List StoredEvent), readRange registry fuel db q = some (.ok events) →
    ∃ n it, readRangeIter registry fuel options db q n = some (events.map .ok, it) ∧
      it.Fused (readRangeBounded registry fuel options db q) := by
  intro h
  obtain ⟨n, it, hcollect, -⟩ := h storedNull storedNull_fits [] 0 ⟨none, none⟩
    ⟨"s", "main", none, none, some 0, none⟩ [] rfl
  -- the first item is an event
  cases n with
  | zero => exact absurd hcollect (by simp [readRangeIter, PageIter.collect])
  | succ n =>
    obtain ⟨p, -, hp⟩ := Option.map_eq_some_iff.mp hcollect
    exact absurd (Prod.mk.inj hp).1 (List.cons_ne_nil _ _)

end Fossic
