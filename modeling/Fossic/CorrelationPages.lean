/-
Reads by correlation id, and the paging through them.

`Store::read_by_correlation` returns the events with a correlation id in the order of
their timestamps.  `read_by_correlation_bounded` returns them in the order of their ids,
so that a page can resume strictly after the last id of the page before; new events may
come in anywhere in that order.

* `selectCorrelated_after` — what follows a page is what has ids above its last;
* `correlationPages` — reads by correlation id are paged reads;
* `FollowsGrowing.read` — what the pages have when events come in between them;
* `correlation_pages_complete` — they miss nothing that was there, and repeat nothing.
-/
import Fossic.CausationPages
import Fossic.CceCanonical
import Fossic.PageIter
import Fossic.PurgeRecord

namespace Fossic

open Paging KeySort Transition

/-! ### The reads -/

/-- The events with the correlation id, `ORDER BY timestamp_us ASC`. -/
def readByCorrelationImpl (db : Db) (correlationId : EventId) : List StoredEvent :=
  (sortBy (fun r => r.timestampUs.toInt)
    (db.events.filter fun r => r.correlationId = some correlationId)).map rowToEvent

/-- `Store::read_by_correlation`. -/
def readByCorrelation (registry : UpcasterRegistry) (fuel : ℕ) (db : Db) (correlationId : EventId) :
    Option (Except Error (List StoredEvent)) :=
  upcastAll registry fuel (readByCorrelationImpl db correlationId)

/-- The order of ids as blobs. -/
def idOrder (r : EventRow) : List ℕ := byteOrder r.id.bytes

/-- `id > ?2`, where there is a second parameter. -/
def isAfter (resumeAfterId : Option EventId) (r : EventRow) : Bool :=
  resumeAfterId.all fun id => byteOrder id.bytes < idOrder r

/-- `WHERE correlation_id = ?1 AND (?2 IS NULL OR id > ?2) ORDER BY id ASC`. -/
def selectCorrelated (db : Db) (correlationId : EventId) (resumeAfterId : Option EventId) :
    List EventRow :=
  sortBy idOrder (db.events.filter fun r =>
    r.correlationId = some correlationId && isAfter resumeAfterId r)

def zeroId : EventId := ⟨List.replicate 32 0, rfl⟩

def readByCorrelationBoundedImpl (db : Db) (correlationId : EventId)
    (resumeAfterId : Option EventId) (budget : Budget) : ReadOutcome :=
  let page := fill (fun r : EventRow => r.payload.length) budget 0 0
    (selectCorrelated db correlationId resumeAfterId)
  let data := page.1.map rowToEvent
  match page.2 with
  | [] => .complete data
  | _ :: _ => .truncated data
    (some (.correlation correlationId ((data.getLast?.map (·.id)).getD zeroId)))
    (if budget.exceedCount data.length then .resultCount else .byteSize)

/-- `Store::read_by_correlation_bounded`. -/
def readByCorrelationBounded (registry : UpcasterRegistry) (fuel : ℕ) (options : Budget) (db : Db)
    (correlationId : EventId) (budget : Budget) (resume : Option CursorInner) :
    Option (Except Error ReadOutcome) :=
  let read := fun resumeAfterId => upcastOutcome registry fuel
    (readByCorrelationBoundedImpl db correlationId resumeAfterId (budget.or options))
  match resume with
  | none => read none
  | some (.correlation _ lastSeenId) => read (some lastSeenId)
  | some _ => some (.error (.internal "cursor type mismatch: expected Correlation"))

/-- `Store::read_by_correlation_iter` and its items. -/
def readByCorrelationIter (registry : UpcasterRegistry) (fuel : ℕ) (options : Budget) (db : Db)
    (correlationId : EventId) (n : ℕ) : Option (List (Except Error StoredEvent) × PageIter) :=
  PageIter.start.collect (readByCorrelationBounded registry fuel options db correlationId) n

/-- Where a call resumes. -/
def lastSeen : Option CursorInner → Option EventId
  | some (.correlation _ lastSeenId) => some lastSeenId
  | _ => none

variable {registry : UpcasterRegistry} {fuel : ℕ} {options budget : Budget} {d : Deps}
  {db db' dbLast : Db} {correlationId : EventId} {resumeAfterId : Option EventId}
  {resume cursor : Option CursorInner} {data : List StoredEvent} {reason : TruncationReason}
  {page rest : List EventRow} {r a : EventRow}

/-! ### Rows in id order -/

theorem idOrder_inj {r r' : EventRow} (h : idOrder r = idOrder r') : r.id = r'.id := by
  have hbytes := byteOrder_inj h
  cases hr : r.id
  cases hr' : r'.id
  simp_all

theorem mem_selectCorrelated : r ∈ selectCorrelated db correlationId resumeAfterId ↔
    r ∈ db.events ∧ r.correlationId = some correlationId ∧ isAfter resumeAfterId r = true := by
  rw [selectCorrelated, mem_sortBy, List.mem_filter, Bool.and_eq_true, decide_eq_true_iff]

theorem nodup_idOrder (hdistinct : (db.events.map (·.id)).Nodup) {p : EventRow → Bool} :
    ((db.events.filter p).map idOrder).Nodup := by
  have hnodup : ((db.events.filter p).map (·.id)).Nodup :=
    hdistinct.sublist (List.filter_sublist.map _)
  rw [List.Nodup, List.pairwise_map] at hnodup ⊢
  exact hnodup.imp fun hne horder => hne (idOrder_inj horder)

theorem selectCorrelated_sorted (hdistinct : (db.events.map (·.id)).Nodup) :
    (selectCorrelated db correlationId resumeAfterId).Pairwise fun r r' => idOrder r < idOrder r' :=
  sortBy_strict (nodup_idOrder hdistinct)

/-- **Resuming**: after a page come the rows with ids above that of its last row. -/
theorem selectCorrelated_after (hdistinct : (db.events.map (·.id)).Nodup)
    (h : selectCorrelated db correlationId resumeAfterId = page ++ a :: rest) :
    selectCorrelated db correlationId (some a.id) = rest := by
  have hsorted := @selectCorrelated_sorted db correlationId resumeAfterId hdistinct
  have hmem : a ∈ selectCorrelated db correlationId resumeAfterId := by
    rw [h]
    exact List.mem_append_right _ List.mem_cons_self
  have hafter := (mem_selectCorrelated.mp hmem).2.2
  -- from there on the rows are a part of those that were read
  have hpart : selectCorrelated db correlationId (some a.id) =
      (selectCorrelated db correlationId resumeAfterId).filter (isAfter (some a.id)) := by
    rw [selectCorrelated, selectCorrelated, ← sortBy_filter,
      List.filter_filter]
    refine congrArg _ (List.filter_congr fun r _ => ?_)
    rcases hr : isAfter (some a.id) r with _ | _
    · rw [Bool.and_false, Bool.false_and]
    · have hboth : isAfter resumeAfterId r = true := by
        rcases resumeAfterId with _ | id
        · rfl
        · exact decide_eq_true ((of_decide_eq_true hafter).trans (of_decide_eq_true hr))
      rw [hboth]
      simp
  rw [h] at hsorted
  obtain ⟨-, htail, hcross⟩ := List.pairwise_append.mp hsorted
  have hpage : page.filter (isAfter (some a.id)) = [] := by
    refine List.filter_eq_nil_iff.mpr fun r hr hlt => ?_
    have := hcross r hr a List.mem_cons_self
    exact absurd (this.trans (of_decide_eq_true hlt)) (lt_irrefl _)
  have ha : ¬isAfter (some a.id) a = true := fun hlt => lt_irrefl _ (of_decide_eq_true hlt)
  rw [hpart, h, List.filter_append, hpage, List.nil_append, List.filter_cons_of_neg ha]
  exact List.filter_eq_self.mpr fun r hr =>
    decide_eq_true ((List.pairwise_cons.mp htail).1 r hr)

/-! ### Pages -/

/-- A page is the front of what is selected; its cursor names its last event, if the budget
let one through. -/
theorem readByCorrelationBoundedImpl_spec (db : Db) (correlationId : EventId)
    (resumeAfterId : Option EventId) (budget : Budget) : ∃ page rest,
    selectCorrelated db correlationId resumeAfterId = page ++ rest ∧
      (rest = [] ∧ readByCorrelationBoundedImpl db correlationId resumeAfterId budget =
          .complete (page.map rowToEvent) ∨
        rest ≠ [] ∧ (page ≠ [] ↔ budget.maxResults ≠ some 0) ∧ ∃ reason,
          readByCorrelationBoundedImpl db correlationId resumeAfterId budget =
            .truncated (page.map rowToEvent) (some (.correlation correlationId
              (((page.map rowToEvent).getLast?.map (·.id)).getD zeroId))) reason) := by
  have hcut := @fill_append _ (fun r : EventRow => r.payload.length) budget
    (selectCorrelated db correlationId resumeAfterId) 0 0
  refine ⟨_, _, hcut.symm, ?_⟩
  rcases hrest : (fill (fun r : EventRow => r.payload.length) budget 0 0
    (selectCorrelated db correlationId resumeAfterId)).2 with _ | ⟨row, rest⟩
  · refine .inl ⟨rfl, ?_⟩
    rw [readByCorrelationBoundedImpl, hrest]
  · refine .inr ⟨List.cons_ne_nil _ _, fill_ne_nil_iff fun hnil => ?_, ?_⟩
    · rw [hnil] at hrest
      exact absurd hrest (by simp [fill])
    · rw [readByCorrelationBoundedImpl, hrest]
      exact ⟨_, rfl⟩

/-- The cursor is that of a read by correlation id, and `rows` is what is selected after it. -/
def CorrelationAt (db : Db) (correlationId : EventId) (resume : Option CursorInner)
    (rows : List EventRow) : Prop :=
  (∀ c ∈ resume, ∃ correlationId lastSeenId, c = .correlation correlationId lastSeenId) ∧
    rows = selectCorrelated db correlationId (lastSeen resume)

theorem readByCorrelationBounded_eq {rows : List EventRow}
    (hat : CorrelationAt db correlationId resume rows) :
    readByCorrelationBounded registry fuel options db correlationId budget resume =
      upcastOutcome registry fuel (readByCorrelationBoundedImpl db correlationId (lastSeen resume)
        (budget.or options)) := by
  rcases resume with _ | c
  · rfl
  · obtain ⟨_, _, rfl⟩ := hat.1 c rfl
    rfl

/-- A truncated page ends with the event that its cursor names. -/
theorem correlation_truncated {rows : List EventRow}
    (hat : CorrelationAt db correlationId resume rows) (hfeeds : Feeds options budget)
    (h : readByCorrelationBounded registry fuel options db correlationId budget resume =
      some (.ok (.truncated data cursor reason))) :
    ∃ front a rest, rows = (front ++ [a]) ++ rest ∧
      cursor = some (.correlation correlationId a.id) ∧
      upcastAll registry fuel ((front ++ [a]).map rowToEvent) = some (.ok data) := by
  rw [readByCorrelationBounded_eq hat] at h
  obtain ⟨events, himpl, hupcast⟩ := upcastOutcome_truncated h
  obtain ⟨page, rest, hselect, ⟨-, hcomplete⟩ | ⟨-, hne, reason', htruncated⟩⟩ :=
    readByCorrelationBoundedImpl_spec db correlationId (lastSeen resume) (budget.or options)
  · exact absurd (hcomplete.symm.trans himpl) (by simp)
  · obtain ⟨rfl, rfl, -⟩ := ReadOutcome.truncated.inj (htruncated.symm.trans himpl)
    obtain ⟨front, a, rfl⟩ := List.eq_nil_or_concat' page |>.resolve_left (hne.mpr hfeeds)
    refine ⟨front, a, rest, hat.2.trans hselect, ?_, hupcast⟩
    rw [List.map_append, List.getLast?_append]
    rfl

theorem readByCorrelationBounded_ne_nil {rows : List EventRow}
    (hat : CorrelationAt db correlationId resume rows)
    (h : readByCorrelationBounded registry fuel options db correlationId budget resume =
      some (.ok (.truncated data cursor reason))) : data ≠ [] ↔ Feeds options budget := by
  rw [readByCorrelationBounded_eq hat] at h
  obtain ⟨events, himpl, hupcast⟩ := upcastOutcome_truncated h
  obtain ⟨page, rest, -, ⟨-, hcomplete⟩ | ⟨-, hne, reason', htruncated⟩⟩ :=
    readByCorrelationBoundedImpl_spec db correlationId (lastSeen resume) (budget.or options)
  · exact absurd (hcomplete.symm.trans himpl) (by simp)
  · obtain ⟨rfl, -, -⟩ := ReadOutcome.truncated.inj (htruncated.symm.trans himpl)
    rw [upcastAll_ne_nil_iff hupcast, List.map_eq_nil_iff.ne]
    exact hne

theorem correlationPages (hdistinct : (db.events.map (·.id)).Nodup) :
    Pages registry fuel (Feeds options)
      (readByCorrelationBounded registry fuel options db correlationId)
      (CorrelationAt db correlationId) where
  cuts := by
    intro resume rows budget data cursor reason hat hfeeds hcall
    obtain ⟨front, a, rest, rfl, rfl, hupcast⟩ := correlation_truncated hat hfeeds hcall
    refine ⟨front ++ [a], rest, rfl, by simp, ⟨fun c hc => ?_, ?_⟩, hupcast⟩
    · exact ⟨_, _, (Option.some_inj.mp hc).symm⟩
    · have hselect := hat.2.symm
      rw [List.append_assoc] at hselect
      exact (selectCorrelated_after hdistinct hselect).symm
  complete := by
    intro resume rows budget data hat hcall
    rw [readByCorrelationBounded_eq hat] at hcall
    obtain ⟨events, himpl, hupcast⟩ := upcastOutcome_complete hcall
    obtain ⟨page, rest, hselect, ⟨rfl, hcomplete⟩ | ⟨-, -, _, htruncated⟩⟩ :=
      readByCorrelationBoundedImpl_spec db correlationId (lastSeen resume) (budget.or options)
    · obtain rfl := ReadOutcome.complete.inj (hcomplete.symm.trans himpl)
      rw [List.append_nil] at hselect
      rwa [hat.2, hselect]
    · exact absurd (htruncated.symm.trans himpl) (by simp)
  succeeds := by
    intro resume rows budget data hat hupcast
    obtain ⟨page, rest, hselect, hcases⟩ :=
      readByCorrelationBoundedImpl_spec db correlationId (lastSeen resume) (budget.or options)
    rw [hat.2, hselect, List.map_append] at hupcast
    obtain ⟨page', -, hpage, -, -⟩ := upcastAll_append_iff.mp hupcast
    rw [readByCorrelationBounded_eq hat]
    refine ⟨_, upcastOutcome_eq_ok_iff.mpr ⟨page', ?_, rfl⟩⟩
    rcases hcases with ⟨-, himpl⟩ | ⟨-, -, reason, himpl⟩ <;>
    · rw [himpl]
      exact hpage

/-! ### Growing stores -/

/-- The calls from the one that resumes at `resume` on `db` to the one that returns
`Complete` on `dbLast`, each with a budget that meets `P` and with any calls but purges in
between; `data` are their pages put together. -/
inductive FollowsGrowing (d : Deps) (P : Budget → Prop) (call : Db → PagedCall) :
    Db → Option CursorInner → List StoredEvent → Db → Prop
  | last {db : Db} {resume : Option CursorInner} {data : List StoredEvent} (budget : Budget)
      (hcall : call db budget resume = some (.ok (.complete data))) :
      FollowsGrowing d P call db resume data db
  | more {db db' dbLast : Db} {resume cursor : Option CursorInner} {data data' : List StoredEvent}
      {reason : TruncationReason} (budget : Budget) (ops : List StoreOp) (hbudget : P budget)
      (hcall : call db budget resume = some (.ok (.truncated data cursor reason)))
      (hops : ∀ op ∈ ops, op.isPurge = false) (hrun : run (storeStep d) db ops = some db')
      (rest : FollowsGrowing d P call db' cursor data' dbLast) :
      FollowsGrowing d P call db resume (data ++ data') dbLast

/-- Without purges events stay where they are. -/
theorem Extends.mem_events (h : Extends db db') (hr : r ∈ db.events) : r ∈ db'.events := by
  obtain ⟨new, hnew, -⟩ := h.rowsOn r.streamId r.branch
  have hmem : r ∈ db'.rowsOn r.streamId r.branch := by
    rw [hnew]
    exact List.mem_append_left _ (mem_rowsOn.mpr ⟨hr, rfl, rfl⟩)
  exact (mem_rowsOn.mp hmem).1

theorem FollowsGrowing.extends {P : Budget → Prop} {call : Db → PagedCall}
    (h : FollowsGrowing d P call db resume data dbLast) (hfits : db.Fits) : Extends db dbLast := by
  induction h with
  | last => exact extends_congr rfl
  | more budget ops _ _ hops hrun _ ih =>
    obtain ⟨hfits', hextends⟩ := run_extends hops hrun hfits
    exact hextends.trans (ih hfits')

/-- **What the pages have**: rows in strict id order, with all those that were there at the
first of them. -/
theorem FollowsGrowing.read (h : FollowsGrowing d (Feeds options)
      (fun db => readByCorrelationBounded registry fuel options db correlationId) db resume data
      dbLast) (hfits : db.Fits) (hdistinct : (db.events.map (·.id)).Nodup)
    (hresume : ∀ c ∈ resume, ∃ correlationId lastSeenId, c = .correlation correlationId lastSeenId) :
    ∃ rows : List EventRow, upcastAll registry fuel (rows.map rowToEvent) = some (.ok data) ∧
      (rows.Pairwise fun r r' => idOrder r < idOrder r') ∧
      (∀ r ∈ selectCorrelated db correlationId (lastSeen resume), r ∈ rows) ∧
      ∀ r ∈ rows, r ∈ selectCorrelated dbLast correlationId (lastSeen resume) := by
  induction h with
  | @last db resume data budget hcall =>
    have hpages := @correlationPages registry fuel options db correlationId hdistinct
    exact ⟨_, hpages.complete _ _ _ _ ⟨hresume, rfl⟩ hcall, selectCorrelated_sorted hdistinct,
      fun _ hr => hr, fun _ hr => hr⟩
  | @more db db' dbLast resume cursor data data' reason budget ops hfeeds hcall hops hrun rest ih =>
    obtain ⟨hfits', hextends⟩ := run_extends hops hrun hfits
    have hlast := hextends.trans (rest.extends hfits')
    obtain ⟨front, a, left, hselect, rfl, hupcast⟩ :=
      correlation_truncated ⟨hresume, rfl⟩ hfeeds hcall
    rw [List.append_assoc] at hselect
    obtain ⟨rows, hdata, hsorted, hall, honly⟩ := ih hfits' (run_distinct_from hrun hdistinct)
      fun c hc => ⟨_, _, (Option.some_inj.mp hc).symm⟩
    have hsorted' := @selectCorrelated_sorted db correlationId (lastSeen resume) hdistinct
    rw [hselect] at hsorted'
    obtain ⟨hfront, -, hcross⟩ := List.pairwise_append.mp hsorted'
    -- the rows of the later pages have ids above `a`
    have habove : ∀ r ∈ rows, idOrder a < idOrder r := fun r hr =>
      of_decide_eq_true (mem_selectCorrelated.mp (honly r hr)).2.2
    have hmem : ∀ r ∈ front ++ [a], r ∈ selectCorrelated db correlationId (lastSeen resume) := by
      intro r hr
      rw [hselect, ← List.append_assoc]
      exact List.mem_append_left _ hr
    refine ⟨(front ++ [a]) ++ rows, ?_, ?_, ?_, ?_⟩
    · rw [List.map_append]
      exact upcastAll_append_iff.mpr ⟨_, _, hupcast, hdata, rfl⟩
    · refine List.pairwise_append.mpr ⟨?_, hsorted, fun r hr r' hr' => ?_⟩
      · refine List.pairwise_append.mpr ⟨hfront, List.pairwise_singleton _ _, fun r hr r' hr' => ?_⟩
        obtain rfl := List.mem_singleton.mp hr'
        exact hcross r hr _ List.mem_cons_self
      · rcases List.mem_append.mp hr with hr | hr
        · exact (hcross r hr a List.mem_cons_self).trans (habove r' hr')
        · obtain rfl := List.mem_singleton.mp hr
          exact habove r' hr'
    · intro r hr
      rw [hselect, ← List.append_assoc] at hr
      rcases List.mem_append.mp hr with hr | hr
      · exact List.mem_append_left _ hr
      · refine List.mem_append_right _ (hall r ?_)
        have hleft : selectCorrelated db correlationId (some a.id) = left :=
          selectCorrelated_after hdistinct hselect
        rw [← hleft] at hr
        obtain ⟨hr, hwhere⟩ := mem_selectCorrelated.mp hr
        exact mem_selectCorrelated.mpr ⟨hextends.mem_events hr, hwhere⟩
    · intro r hr
      rcases List.mem_append.mp hr with hr | hr
      · obtain ⟨hr, hwhere⟩ := mem_selectCorrelated.mp (hmem r hr)
        exact mem_selectCorrelated.mpr ⟨hlast.mem_events hr, hwhere⟩
      · obtain ⟨hr, hid, hafter⟩ := mem_selectCorrelated.mp (honly r hr)
        refine mem_selectCorrelated.mpr ⟨hr, hid, ?_⟩
        have ha := (mem_selectCorrelated.mp (hmem a (by simp))).2.2
        rcases hseen : lastSeen resume with _ | id
        · rfl
        · rw [hseen] at ha
          exact decide_eq_true ((of_decide_eq_true ha).trans (of_decide_eq_true hafter))

/-! ### Completeness -/

/-- The events come in strictly increasing order of their ids. -/
def InIdOrder (data : List StoredEvent) : Prop :=
  data.Pairwise fun e e' => byteOrder e.id.bytes < byteOrder e'.id.bytes

/-- The order of events is that of their ids. -/
theorem inIdOrder_iff : InIdOrder data ↔
    (data.map (·.id)).Pairwise fun i j => byteOrder i.bytes < byteOrder j.bytes := by
  rw [InIdOrder, List.pairwise_map]

theorem inIdOrder_of_upcast {rows : List EventRow}
    (h : upcastAll registry fuel (rows.map rowToEvent) = some (.ok data))
    (hsorted : rows.Pairwise fun r r' => idOrder r < idOrder r') : InIdOrder data := by
  rw [inIdOrder_iff, upcastAll_ids h, List.map_map, List.pairwise_map]
  exact hsorted

/-- Reading in another order returns the same events in another order. -/
theorem upcastAll_perm {events events' : List StoredEvent} (hperm : events.Perm events')
    (h : upcastAll registry fuel events' = some (.ok data)) :
    ∃ data', upcastAll registry fuel events = some (.ok data') ∧ data'.Perm data := by
  obtain ⟨data', hdata', hperm'⟩ := List.perm_comp_forall₂ hperm (upcastAll_eq_ok h)
  exact ⟨data', upcastAll_eq_ok_iff.mpr hdata', hperm'⟩

/-- The rows of the unbounded read are those that the first page is cut from. -/
theorem selectCorrelated_perm : ((selectCorrelated db correlationId none).map rowToEvent).Perm
    (readByCorrelationImpl db correlationId) := by
  have hall : (db.events.filter fun r =>
      r.correlationId = some correlationId && isAfter none r) =
        db.events.filter fun r => r.correlationId = some correlationId :=
    List.filter_congr fun r _ => Bool.and_true _
  rw [selectCorrelated, hall, readByCorrelationImpl]
  exact ((sortBy_perm idOrder _).trans (sortBy_perm _ _).symm).map _

/-- **Complete and without duplicates**: on a store that does not change the pages have the
events of the unbounded read in id order, and on a store that grows between them no event
twice and all those of the unbounded read before the first page. -/
theorem correlation_pages_complete (db : Db) (hfits : db.Fits)
    (hdistinct : (db.events.map (·.id)).Nodup) (d : Deps) (registry : UpcasterRegistry)
    (fuel : ℕ) (options : Budget) (correlationId : EventId) (events : List StoredEvent)
    (hread : readByCorrelation registry fuel db correlationId = some (.ok events)) :
    (∀ budgets : ℕ → Budget, (∀ k, Feeds options (budgets k)) → ∃ pages,
        followCursors (readByCorrelationBounded registry fuel options db correlationId) budgets
            (events.length + 1) 0 none = some (.ok pages) ∧
          pages.flatten.Perm events ∧ InIdOrder pages.flatten) ∧
      ∀ data dbLast, FollowsGrowing d (Feeds options)
          (fun db => readByCorrelationBounded registry fuel options db correlationId) db none data
          dbLast →
        InIdOrder data ∧ ∀ e ∈ events, e ∈ data := by
  obtain ⟨ordered, hordered, hperm⟩ := upcastAll_perm selectCorrelated_perm hread
  constructor
  · intro budgets hbudgets
    have hlength : (selectCorrelated db correlationId none).length < events.length + 1 := by
      rw [← hperm.length_eq, length_upcastAll hordered, List.length_map]
      exact Nat.lt_succ_self _
    obtain ⟨pages, hpages, hflatten⟩ := followCursors_spec
      (@correlationPages registry fuel options db correlationId hdistinct) hbudgets
      (⟨fun _ hc => absurd hc (by simp), rfl⟩ : CorrelationAt db correlationId none _) hordered
      hlength
    refine ⟨pages, hpages, ?_, ?_⟩
    · rw [hflatten]
      exact hperm
    · rw [hflatten]
      exact inIdOrder_of_upcast hordered (selectCorrelated_sorted hdistinct)
  · intro data dbLast hfollows
    obtain ⟨rows, hdata, hsorted, hall, -⟩ :=
      hfollows.read hfits hdistinct fun _ hc => absurd hc (by simp)
    refine ⟨inIdOrder_of_upcast hdata hsorted, fun e he => ?_⟩
    obtain ⟨event, hevent, happly⟩ := (mem_upcastAll hordered).mp (hperm.mem_iff.mpr he)
    obtain ⟨r, hr, rfl⟩ := List.mem_map.mp hevent
    exact (mem_upcastAll hdata).mpr ⟨_, List.mem_map_of_mem (hall r hr), happly⟩

/-- Append `null` under an event type to the stream `s`, with a correlation id. -/
def appendCorrelated (eventType : String) (correlationId : EventId) : StoreOp :=
  .write [] (.append { streamId := "s", eventType := eventType, payload := .null,
                       correlationId := some correlationId }) fun _ => 0

/-- Three events that belong together. -/
def correlatedOps : List StoreOp :=
  [.declareStream "s" "t" none 0, appendCorrelated "a" zeroId, appendCorrelated "b" zeroId,
    appendCorrelated "c" zeroId]

set_option maxRecDepth 4000 in
/-- They are read one to a page. -/
theorem correlation_pages_complete_single : ∃ (db : Db) (events : List StoredEvent),
    events.map (·.eventType) = ["a", "b", "c"] ∧ ∃ pages,
      followCursors (readByCorrelationBounded [] 1 ⟨none, none⟩ db zeroId)
          (fun _ => ⟨some 1, none⟩) (events.length + 1) 0 none = some (.ok pages) ∧
        pages.flatten.Perm events ∧ InIdOrder pages.flatten := by
  have hpages := correlation_pages_complete _ (@run_fits _ mixDeps 0 correlatedOps rfl)
    (@run_distinct mixDeps _ 0 correlatedOps rfl) mixDeps [] 1 ⟨none, none⟩ zeroId _ rfl
  exact ⟨_, _, by decide, hpages.1 _ fun _ => by simp [Feeds, Budget.or]⟩

end Fossic
