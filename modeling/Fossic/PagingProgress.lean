/-
Progress of the paged reads.

A page of `read_range_bounded` and of `read_by_correlation_bounded` has an event unless
the budget is of no events at all, and its cursor leaves fewer of them; a budget of no
events leaves them all.  A page of `walk_causation_bounded` always has a level.  What the
cursor forgets may be walked again.

* `causationLoop_truncated` — a page of a walk is a front of the levels that it finds;
* `ComesBack` — going on from a cursor leads to an event that was passed before it;
* `ascending_comesBack` — which it does not where the walk leads away from its start;
* `walkCuts` — in that case the walk is paged as the other reads are;
* `paging_progress` — which calls make progress, and how many there are until the last.
-/
import Fossic.CorrelationPages
import Mathlib.Algebra.BigOperators.Group.List.Basic

namespace Fossic

open Paging LevelWalk ForestWalk Transition

variable {registry : UpcasterRegistry} {fuel : ℕ} {options budget : Budget} {db : Db}
  {q : ReadQuery} {correlationId start : EventId} {direction : WalkDirection}
  {sampling : SamplingMode} {maxDepth rounds depth byteCount : ℕ} {frontier seen : List EventId}
  {results : List EventRow} {data : List StoredEvent} {resume cursor : Option CursorInner}
  {reason : TruncationReason} {done rest : List (List EventRow)} {budgets : ℕ → Budget} {n : ℕ}

/-! ### What remains -/

/-- What a range read can still return at a cursor. -/
def rangeRemaining (db : Db) (q : ReadQuery) (resume : Option CursorInner) : List EventRow :=
  selectRange db q (startVersion q resume)

/-- What a read by correlation id can still return at a cursor. -/
def correlationRemaining (db : Db) (correlationId : EventId) (resume : Option CursorInner) :
    List EventRow :=
  selectCorrelated db correlationId (lastSeen resume)

/-- The levels that a walk can still return at a cursor. -/
def levelsRemaining (db : Db) (start : EventId) (direction : WalkDirection) (maxDepth : ℕ)
    (sampling : SamplingMode) : Option CursorInner → List (List EventRow)
  | some (.causation frontier _ depthConsumed) =>
    (levelWalk db direction maxDepth sampling).found (maxDepth - depthConsumed.toNat) frontier
      frontier
  | _ => (levelWalk db direction maxDepth sampling).found maxDepth [start] [start]

def walkRemaining (db : Db) (start : EventId) (direction : WalkDirection) (maxDepth : ℕ)
    (sampling : SamplingMode) (resume : Option CursorInner) : List EventRow :=
  (levelsRemaining db start direction maxDepth sampling resume).flatten

/-- A page with an event, and a cursor at which fewer events remain. -/
def Advances (remaining : Option CursorInner → List EventRow) (resume : Option CursorInner)
    (data : List StoredEvent) (cursor : Option CursorInner) : Prop :=
  data ≠ [] ∧ (remaining cursor).length < (remaining resume).length

/-! ### Ranges and correlation ids -/

theorem range_advances_iff (hdb : db.Sane)
    (h : readRangeBounded registry fuel options db q budget resume =
      some (.ok (.truncated data cursor reason))) :
    Advances (rangeRemaining db q) resume data cursor ↔ Feeds options budget := by
  constructor
  · exact fun hadvances => (readRangeBounded_ne_nil h).mp hadvances.1
  · intro hfeeds
    have hcursor : ∀ c ∈ resume, ∃ streamId branch nextVersion,
        c = .range streamId branch nextVersion := by
      rintro c hc
      obtain rfl := Option.mem_def.mp hc
      cases c with
      | range streamId branch nextVersion => exact ⟨_, _, _, rfl⟩
      | correlation | causation => exact absurd h (by simp [readRangeBounded])
    obtain ⟨hdata, rest, hrest, hfewer⟩ :=
      (@rangePages registry fuel options db q hdb).cuts.progress ⟨hcursor, rfl⟩ hfeeds h
    rw [hrest.2] at hfewer
    exact ⟨hdata, hfewer⟩

theorem correlation_advances_iff (hdistinct : (db.events.map (·.id)).Nodup)
    (h : readByCorrelationBounded registry fuel options db correlationId budget resume =
      some (.ok (.truncated data cursor reason))) :
    Advances (correlationRemaining db correlationId) resume data cursor ↔ Feeds options budget := by
  have hcursor : ∀ c ∈ resume, ∃ correlationId lastSeenId,
      c = .correlation correlationId lastSeenId := by
    rintro c hc
    obtain rfl := Option.mem_def.mp hc
    cases c with
    | correlation correlationId lastSeenId => exact ⟨_, _, rfl⟩
    | range | causation => exact absurd h (by simp [readByCorrelationBounded])
  have hat : CorrelationAt db correlationId resume
      (correlationRemaining db correlationId resume) := ⟨hcursor, rfl⟩
  constructor
  · exact fun hadvances => (readByCorrelationBounded_ne_nil hat h).mp hadvances.1
  · intro hfeeds
    have hcuts := (@correlationPages registry fuel options db correlationId hdistinct).cuts
    obtain ⟨hdata, rest, hrest, hfewer⟩ := hcuts.progress hat hfeeds h
    rw [hrest.2] at hfewer
    exact ⟨hdata, hfewer⟩

/-! ### Walks -/

/-- A walk that goes on from the cursor after the levels `done`, and remembers no more than
the cursor does, comes on its way through the levels `rest` to an event that was passed
before. -/
def ComesBack (db : Db) (start : EventId) (direction : WalkDirection) (maxDepth : ℕ)
    (sampling : SamplingMode) (done rest : List (List EventRow)) : Prop :=
  let w := levelWalk db direction maxDepth sampling
  let front := w.front [start] done
  ∃ more left level, rest = more ++ left ∧ more.length < maxDepth - done.length % 2 ^ 32 ∧
    w.next (w.passed front more) (w.front front more) = .ok level ∧
    ∃ r ∈ level, r.id ∈ w.passed [start] done

/-- Forward and backward a walk does not come back. -/
theorem ascending_comesBack (hdistinct : (db.events.map (·.id)).Nodup) (hacyclic : db.Acyclic)
    (hfound : foundLevels db start direction maxDepth sampling = done ++ rest)
    (hdirection : direction ≠ .both) :
    ¬ComesBack db start direction maxDepth sampling done rest := by
  rintro ⟨more, left, level, rfl, -, hnext, r, hr, hpassed⟩
  have hadj : (levelWalk db direction maxDepth sampling).Follows (adjacent db direction) :=
    levelWalk_follows hdistinct
  have hstart := @covers_start _ (adjacent db direction) start (gradeOf db start direction)
    (graded hacyclic)
  -- the level comes from a frontier that is farther away than what was passed
  have hcover := fun page rest (hpage : foundLevels db start direction maxDepth sampling
      = page ++ rest) => covers_front hadj (graded hacyclic) hstart
    ((levels_of_found hpage).trans (congrArg Except.ok (List.append_nil page).symm))
  have hbelow := (hcover done (more ++ left) hfound).below r.id hpassed
  have hcovers := hcover (done ++ more) left (hfound.trans (List.append_assoc _ _ _).symm)
  obtain ⟨items, hexpand, rfl⟩ := next_eq_ok hnext
  obtain ⟨x, hx, hxr⟩ := hadj _ _ hexpand r (List.mem_filter.mp (sample_sublist.subset hr)).1
  rw [← front_append] at hx
  have hgrade := hcovers.level x hx
  have hup : gradeOf db start direction r.id (0 + (done ++ more).length + 1) := by
    cases direction with
    | forward => exact downGrade_step hgrade hxr
    | backward => exact upGrade_step hgrade hxr
    | both => exact absurd rfl hdirection
  obtain ⟨m, hm, hgrade'⟩ := hbelow
  have hsame := (graded hacyclic).unique hup hgrade'
  rw [List.length_append] at hsame
  omega

theorem upcastResult_truncated {result : Except Error ReadOutcome}
    (h : upcastResult registry fuel result = some (.ok (.truncated data cursor reason))) :
    ∃ events, result = .ok (.truncated events cursor reason) ∧
      upcastAll registry fuel events = some (.ok data) := by
  cases result with
  | error e => exact absurd h (by simp [upcastResult])
  | ok outcome =>
    obtain ⟨events, rfl, hupcast⟩ := upcastOutcome_truncated h
    exact ⟨events, rfl, hupcast⟩

/-- With the cursor after some levels a call finds the others. -/
theorem foundAfter_of_straight (hfound : foundLevels db start direction maxDepth sampling
      = done ++ rest) (hback : ¬ComesBack db start direction maxDepth sampling done rest)
    (hover : ¬Overruns db start direction maxDepth sampling done) :
    foundAfter db start direction maxDepth sampling done = rest := by
  have hrounds : (levelWalk db direction maxDepth sampling).found
      (maxDepth - done.length % 2 ^ 32) ((levelWalk db direction maxDepth sampling).passed [start]
        done) ((levelWalk db direction maxDepth sampling).front [start] done) = rest := by
    by_cases hfits : done.length < 2 ^ 32
    · rw [Nat.mod_eq_of_lt hfits]
      exact found_rest hfound
    · -- the depth has wrapped, so the walk has to end by itself
      have hended : (levelWalk db direction maxDepth sampling).levels (maxDepth + 1) [start] [start]
          = (levelWalk db direction maxDepth sampling).levels maxDepth [start] [start] := by
        by_contra hne
        exact hover ⟨Nat.le_of_not_lt hfits, hne⟩
      have hmod := Nat.mod_le done.length (2 ^ 32)
      have hmore := found_ended hended
        (show maxDepth ≤ done.length + (maxDepth - done.length % 2 ^ 32) by omega)
      have hleft := found_rest (hmore.trans hfound)
      rwa [Nat.add_sub_cancel_left] at hleft
  refine found_forget (front_subset_passed fun x hx => hx) hrounds ?_
  intro more left level hsplit hmore hnext r hr hpassed
  exact hback ⟨more, left, level, hsplit, hmore, hnext, r, hr, hpassed⟩

theorem levelsRemaining_after (done : List (List EventRow)) :
    levelsRemaining db start direction maxDepth sampling
      (resumeAfter db start direction maxDepth sampling done) =
        foundAfter db start direction maxDepth sampling done := by
  cases done with
  | nil => rfl
  | cons level done =>
    rw [resumeAfter, cursorAfter, levelsRemaining, toNat_depthConsumed]
    rfl

/-- **Whoever follows the cursors** stands at a cut of the walk, and the next call finds what is
left of it. -/
theorem followedTo_spec
    (hcuts : AtCuts (fun i => (budgets i).or options)
      (foundLevels db start direction maxDepth sampling) fun done rest =>
        ¬ComesBack db start direction maxDepth sampling done rest ∧
          ¬Overruns db start direction maxDepth sampling done)
    (h : FollowedTo
      (walkCausationBounded registry fuel options db start direction maxDepth sampling) budgets n
      resume) :
    ∃ done, resume = resumeAfter db start direction maxDepth sampling done ∧ n ≤ done.length ∧
      pageCut (fun i => (budgets i).or options) (foundLevels db start direction maxDepth sampling) n
        = (done, foundAfter db start direction maxDepth sampling done) := by
  induction h with
  | first => exact ⟨[], rfl, Nat.zero_le _, rfl⟩
  | next _ hcall ih =>
    obtain ⟨done, rfl, -, hcut⟩ := ih
    obtain ⟨page, left, htake, -, ⟨-, -, hend⟩ | ⟨hleft, -, reason, hnext⟩⟩ := call_eq_ok hcall
    · exact absurd hend (by simp)
    obtain ⟨-, rfl, -⟩ := ReadOutcome.truncated.inj hnext
    have hcut' := pageCut_succ hcut htake
    obtain ⟨hback, hover⟩ := hcuts _ _ _ hcut' hleft
    refine ⟨done ++ page, rfl, length_of_pageCut hcut' hleft, ?_⟩
    rw [hcut', foundAfter_of_straight (pageCut_append hcut').symm hback hover]

/-- At a cut a call that is truncated returns events, and leaves fewer. -/
theorem walk_advances
    (hfound : foundLevels db start direction maxDepth sampling
      = done ++ foundAfter db start direction maxDepth sampling done)
    (hcall : walkCausationBounded registry fuel options db start direction maxDepth sampling budget
      (resumeAfter db start direction maxDepth sampling done)
        = some (.ok (.truncated data cursor reason)))
    (hnext : ∀ page left, takeLevels (budget.or options) [] 0
        (foundAfter db start direction maxDepth sampling done) = (page, left) → left ≠ [] →
      foundAfter db start direction maxDepth sampling (done ++ page) = left) :
    Advances (walkRemaining db start direction maxDepth sampling)
      (resumeAfter db start direction maxDepth sampling done) data cursor := by
  obtain ⟨page, left, htake, hdata, ⟨-, -, hend⟩ | ⟨hleft, hpage, reason', hcut⟩⟩ :=
    call_eq_ok hcall
  · exact absurd hend (by simp)
  obtain ⟨-, rfl, -⟩ := ReadOutcome.truncated.inj hcut
  have happend := takeLevels_append htake
  -- its levels are not empty
  rw [happend, ← List.append_assoc] at hfound
  have hlevels := levels_of_found hfound
  have hne := flatten_ne_nil hlevels (fun _ hlevel => List.mem_append_right _ hlevel) hpage
  refine ⟨?_, ?_⟩
  · exact (upcastAll_ne_nil_iff hdata).mpr (mt List.map_eq_nil_iff.mp hne)
  · rw [walkRemaining, walkRemaining, levelsRemaining_after, levelsRemaining_after,
      hnext page left htake hleft, happend, List.flatten_append, List.length_append]
    exact Nat.lt_add_of_pos_left (List.length_pos_iff.mpr hne)

/-- There are no more levels than events. -/
theorem length_le_of_found
    (hfound : foundLevels db start direction maxDepth sampling = done ++ rest) :
    done.length ≤ (walkRemaining db start direction maxDepth sampling none).length := by
  have hlevels := levels_ne_nil (levels_of_found hfound)
  show done.length ≤ (foundLevels db start direction maxDepth sampling).flatten.length
  rw [hfound, List.flatten_append, List.length_append, List.length_flatten,
    ← List.length_map List.length]
  refine (List.length_le_sum_of_one_le _ fun n hn => ?_).trans (Nat.le_add_right _ _)
  obtain ⟨level, hlevel, rfl⟩ := List.mem_map.mp hn
  exact List.length_pos_iff.mpr (hlevels level hlevel)

/-! ### Progress -/

/-- **Progress**: a truncated page of a range or of a correlation id advances if and only if
the budget lets an event through.  A truncated page of a walk does, whatever the budgets of the
calls, if after none of the cuts that they make the walk comes back or overruns the depth of a
cursor.  Then there are at most as many truncated pages in a row as there are events. -/
theorem paging_progress (db : Db) (hdb : db.Sane) (hdistinct : (db.events.map (·.id)).Nodup)
    (registry : UpcasterRegistry) (fuel : ℕ) (options : Budget) :
    (∀ q budget resume data cursor reason,
        readRangeBounded registry fuel options db q budget resume =
          some (.ok (.truncated data cursor reason)) →
        (Advances (rangeRemaining db q) resume data cursor ↔ Feeds options budget)) ∧
      (∀ correlationId budget resume data cursor reason,
        readByCorrelationBounded registry fuel options db correlationId budget resume =
          some (.ok (.truncated data cursor reason)) →
        (Advances (correlationRemaining db correlationId) resume data cursor ↔
          Feeds options budget)) ∧
      (∀ q pages, Truncating (Feeds options) (readRangeBounded registry fuel options db q) none
        pages → pages.length ≤ (rangeRemaining db q none).length) ∧
      (∀ correlationId pages, Truncating (Feeds options)
        (readByCorrelationBounded registry fuel options db correlationId) none pages →
        pages.length ≤ (correlationRemaining db correlationId none).length) ∧
      ∀ start direction maxDepth sampling (budgets : ℕ → Budget),
        AtCuts (fun i => (budgets i).or options) (foundLevels db start direction maxDepth sampling)
          (fun done rest => ¬ComesBack db start direction maxDepth sampling done rest ∧
            ¬Overruns db start direction maxDepth sampling done) →
        let call := walkCausationBounded registry fuel options db start direction maxDepth sampling
        let remaining := walkRemaining db start direction maxDepth sampling
        ∀ n resume, FollowedTo call budgets n resume →
          n ≤ (remaining none).length ∧
          ∀ data cursor reason,
            call (budgets n) resume = some (.ok (.truncated data cursor reason)) →
            Advances remaining resume data cursor := by
  refine ⟨fun q budget resume data cursor reason h => range_advances_iff hdb h,
    fun correlationId budget resume data cursor reason h => correlation_advances_iff hdistinct h,
    fun q pages hpages => ?_, fun correlationId pages hpages => ?_, ?_⟩
  · exact hpages.length_le (rangePages hdb).cuts ⟨fun _ hc => absurd hc (by simp), rfl⟩
  · exact hpages.length_le (correlationPages hdistinct).cuts
      ⟨fun _ hc => absurd hc (by simp), rfl⟩
  · intro start direction maxDepth sampling budgets hcuts call remaining n resume hfollowed
    obtain ⟨done, rfl, hn, hcut⟩ := followedTo_spec hcuts hfollowed
    have hfound := (pageCut_append hcut).symm
    refine ⟨hn.trans (length_le_of_found hfound), fun data cursor reason hcall => ?_⟩
    refine walk_advances hfound hcall fun page left htake hleft => ?_
    have hcut' := pageCut_succ hcut htake
    obtain ⟨hback, hover⟩ := hcuts n _ _ hcut' hleft
    exact foundAfter_of_straight (pageCut_append hcut').symm hback hover

set_option maxRecDepth 4000 in
/-- A chain walked forward, one event to a page. -/
theorem paging_progress_forward : ∃ (db : Db) (data : List StoredEvent)
    (cursor : Option CursorInner), data.map (·.eventType) = ["b"] ∧
    Advances (walkRemaining db (causedId "a" none) .forward 10 .exhaustive) none data cursor := by
  have hdistinct := @run_distinct mixDeps _ 0 chainOps rfl
  have hacyclic : Db.Acyclic ((run (storeStep mixDeps) (Db.bootstrap 0) chainOps).getD
      (Db.bootstrap 0)) := acyclic_of_earlier (by decide)
  have hprogress := paging_progress _ (@run_fits _ mixDeps 0 chainOps rfl).sane hdistinct [] 1
    ⟨none, none⟩
  refine ⟨_, _, _, ?_, (hprogress.2.2.2.2 (causedId "a" none) .forward 10 .exhaustive
    (fun _ => ⟨some 0, none⟩) ?_ 0 none .first).2 _ _ _ rfl⟩
  · decide
  · intro n done rest hcut hrest
    have hfound := (pageCut_append hcut).symm
    refine ⟨ascending_comesBack hdistinct hacyclic hfound (by decide), ?_⟩
    rintro ⟨hdeep, -⟩
    have hlength := congrArg List.length hfound
    rw [List.length_append] at hlength
    have htwo : 2 = done.length + rest.length := hlength
    omega

/-- With a budget of no events a range read stays where it is. -/
theorem no_progress : ¬∀ db : Db, db.Sane → (db.events.map (·.id)).Nodup →
    ∀ (registry : UpcasterRegistry) (fuel : ℕ) (options : Budget) (q : ReadQuery) (budget : Budget)
      (resume : Option CursorInner) (data : List StoredEvent) (cursor : Option CursorInner)
      (reason : TruncationReason),
    readRangeBounded registry fuel options db q budget resume =
      some (.ok (.truncated data cursor reason)) →
    Advances (rangeRemaining db q) resume data cursor := by
  intro h
  have hadvances := h storedNull storedNull_fits.sane (by decide) [] 0 ⟨none, none⟩
    ⟨"s", "main", none, none, none, none⟩ ⟨some 0, none⟩ none _ _ _ rfl
  exact hadvances.1 rfl

end Fossic
