/-
Paging through a causation walk.

A cursor of `walk_causation_bounded` holds the last level that was returned and its
depth as a `u32`; what was returned before is forgotten.  Forward and backward the
levels lead away from the start and nothing else is needed.  Walking both ways, the
level is expanded back to where it came from.

* `pageCut` — where the budgets of the calls cut the levels of a walk;
* `TurnsBack` — the last level before a cut would, on its own, be expanded to an event
  that was passed;
* `turnsBack_exhaustive_iff` — without sampling, from the second level on, or the first
  if the start is stored;
* `Overruns` — there are more levels before a cut than a `u32` counts, and more after it
  than were asked for;
* `pages_agree_iff` — the pages are the unpaged walk if and only if no cut does either,
  which forward and backward is the case up to `2 ^ 32` levels (`ascending_turnsBack`).
-/
import Fossic.CausationGraph
import Fossic.PagedReads

namespace Fossic

open Paging LevelWalk ForestWalk Transition

variable {registry : UpcasterRegistry} {fuel n k : ℕ} {options budget : Budget} {db : Db}
  {budgets : ℕ → Budget} {start : EventId} {direction : WalkDirection} {sampling : SamplingMode}
  {maxDepth : ℕ} {data : List StoredEvent} {page done rest ls : List (List EventRow)}

/-! ### What the pages are to be -/

/-- Whoever follows the cursors, with these budgets for the calls, comes to the end: no call
fails, no page but the last is empty, and the pages are the events of the unpaged walk, each
once and without the start. -/
structure PagesAgree (registry : UpcasterRegistry) (fuel : ℕ) (options : Budget) (db : Db)
    (start : EventId) (direction : WalkDirection) (maxDepth : ℕ) (sampling : SamplingMode)
    (budgets : ℕ → Budget) (data : List StoredEvent) : Prop where
  distinct : (data.map (·.id)).Nodup
  others : ∀ e ∈ data, e.id ≠ start
  pages : ∃ n pages, followCursors
      (walkCausationBounded registry fuel options db start direction maxDepth sampling) budgets n 0
        none = some (.ok pages) ∧
    pages.flatten = data ∧ ∀ page ∈ pages.dropLast, page ≠ []

/-- The levels that the first `n` calls take, each by its budget, and the ones that they
leave. -/
def pageCut (budgets : ℕ → Budget) (ls : List (List EventRow)) :
    ℕ → List (List EventRow) × List (List EventRow)
  | 0 => ([], ls)
  | n + 1 =>
    let cut := pageCut budgets ls n
    let taken := takeLevels (budgets n) [] 0 cut.2
    (cut.1 ++ taken.1, taken.2)

/-- What holds wherever a page ends and leaves something. -/
def AtCuts (budgets : ℕ → Budget) (ls : List (List EventRow))
    (P : (done rest : List (List EventRow)) → Prop) : Prop :=
  ∀ n done rest, pageCut budgets ls (n + 1) = (done, rest) → rest ≠ [] → P done rest

/-- One of the first events that the last of these levels is expanded to was passed before. -/
def TurnsBack (db : Db) (start : EventId) (direction : WalkDirection) (maxDepth : ℕ)
    (sampling : SamplingMode) (done : List (List EventRow)) : Prop :=
  let w := levelWalk db direction maxDepth sampling
  ∃ items, w.expand (w.front [start] done) = .ok items ∧
    ∃ r ∈ sample w.cap items, r.id ∈ w.passed [start] done

/-- These levels are `2 ^ 32` or more, and the walk does not end at `max_depth`. -/
def Overruns (db : Db) (start : EventId) (direction : WalkDirection) (maxDepth : ℕ)
    (sampling : SamplingMode) (done : List (List EventRow)) : Prop :=
  let w := levelWalk db direction maxDepth sampling
  2 ^ 32 ≤ done.length ∧
    w.levels (maxDepth + 1) [start] [start] ≠ w.levels maxDepth [start] [start]

/-- The levels that the whole walk finds. -/
def foundLevels (db : Db) (start : EventId) (direction : WalkDirection) (maxDepth : ℕ)
    (sampling : SamplingMode) : List (List EventRow) :=
  (levelWalk db direction maxDepth sampling).found maxDepth [start] [start]

theorem pageCut_append (hcut : pageCut budgets ls n = (done, rest)) : done ++ rest = ls := by
  induction n generalizing done rest with
  | zero =>
    obtain ⟨rfl, rfl⟩ := Prod.mk.inj hcut
    rfl
  | succ n ih =>
    obtain ⟨rfl, rfl⟩ := Prod.mk.inj hcut
    rw [List.append_assoc, ← takeLevels_append rfl]
    exact ih rfl

theorem pageCut_succ {left : List (List EventRow)} (hcut : pageCut budgets ls n = (done, rest))
    (htake : takeLevels (budgets n) [] 0 rest = (page, left)) :
    pageCut budgets ls (n + 1) = (done ++ page, left) := by
  rw [pageCut, hcut]
  dsimp only
  rw [htake]

/-- As long as something is left, each call has taken a level. -/
theorem length_of_pageCut (hcut : pageCut budgets ls n = (done, rest)) (hrest : rest ≠ []) :
    n ≤ done.length := by
  induction n generalizing done rest with
  | zero => exact Nat.zero_le _
  | succ n ih =>
    obtain ⟨rfl, rfl⟩ := Prod.mk.inj hcut
    have happend := @takeLevels_append [] _ _ (pageCut budgets ls n).2 (budgets n) 0 rfl
    have hne : (pageCut budgets ls n).2 ≠ [] := fun hnil =>
      hrest (List.append_eq_nil_iff.mp (happend.symm.trans hnil)).2
    rw [List.length_append]
    exact Nat.add_le_add (ih rfl hne) (List.length_pos_iff.mpr (takeLevels_ne_nil rfl hne))

/-- Forward and backward a walk does not turn back. -/
theorem ascending_turnsBack (hdistinct : (db.events.map (·.id)).Nodup) (hacyclic : db.Acyclic)
    (hlevels : (levelWalk db direction maxDepth sampling).levels maxDepth [start] [start]
      = .ok (done ++ rest)) (hdirection : direction ≠ .both) :
    ¬TurnsBack db start direction maxDepth sampling done := by
  rintro ⟨items, hexpand, r, hr, hpassed⟩
  have hadj : (levelWalk db direction maxDepth sampling).Follows (adjacent db direction) :=
    levelWalk_follows hdistinct
  have hcovers := covers_front hadj (graded hacyclic) (covers_start (graded hacyclic)) hlevels
  obtain ⟨x, hx, hxr⟩ := hadj _ _ hexpand r (sample_sublist.subset hr)
  have hgrade := hcovers.level x hx
  have hnext : gradeOf db start direction r.id (0 + done.length + 1) := by
    cases direction with
    | forward => exact downGrade_step hgrade hxr
    | backward => exact upGrade_step hgrade hxr
    | both => exact absurd rfl hdirection
  obtain ⟨m, hm, hpassed⟩ := hcovers.below _ hpassed
  have hsame := (graded hacyclic).unique hnext hpassed
  omega

/-- Both ways, a level is expanded back to the stored events that it was reached from. -/
theorem turnsBack_of_stored {level : List EventRow} (hdistinct : (db.events.map (·.id)).Nodup)
    (hacyclic : db.Acyclic)
    (hlevels : (levelWalk db .both maxDepth .exhaustive).levels maxDepth [start] [start]
      = .ok (page ++ level :: rest)) (hrest : rest ≠ [])
    (hstored : ∀ x ∈ (levelWalk db .both maxDepth .exhaustive).front [start] page,
      x ∈ db.events.map (·.id)) :
    TurnsBack db start .both maxDepth .exhaustive (page ++ [level]) := by
  obtain ⟨m, -, hnext, hne, htail⟩ := levels_cons (levels_rest hlevels)
  obtain ⟨further, rest, rfl⟩ := List.exists_cons_of_ne_nil hrest
  obtain ⟨-, -, hfurther, -, -⟩ := levels_cons htail
  obtain ⟨items, hitems, -⟩ := next_eq_ok hfurther
  have hexpand : expandFrontier db .both _ = .ok items := hitems
  -- some event of the level was reached from a stored event `b`
  obtain ⟨a, ha⟩ := List.exists_mem_of_ne_nil _ hne
  obtain ⟨found, hfound, rfl⟩ := next_eq_ok hnext
  obtain ⟨x, hx, hxa⟩ := levelWalk_follows hdistinct _ _ hfound a
    (List.mem_filter.mp (sample_sublist.subset ha)).1
  obtain ⟨b, hb, rfl⟩ := List.mem_map.mp (hstored x hx)
  have hback : b ∈ items := by
    refine (mem_expandFrontier hdistinct hexpand b).mpr ⟨hb, a.id, ?_, ?_⟩
    · exact List.mem_map_of_mem ha
    · exact either_symm hxa
  have hpassed := (covers_front (levelWalk_follows hdistinct) (graded hacyclic)
    (covers_start (graded hacyclic)) hlevels).self b.id hx
  refine ⟨items, ?_, b, hback, ?_⟩
  · rw [front_append]
    exact hitems
  · rw [passed_append, passed_eq]
    exact List.mem_append_left _ hpassed

/-- A cut of an exhaustive walk both ways turns back when it is after two levels, or after
one and the start is stored. -/
theorem turnsBack_exhaustive_iff (hdistinct : (db.events.map (·.id)).Nodup)
    (hacyclic : db.Acyclic)
    (hlevels : (levelWalk db .both maxDepth .exhaustive).levels maxDepth [start] [start]
      = .ok (done ++ rest)) (hdone : done ≠ []) (hrest : rest ≠ []) :
    TurnsBack db start .both maxDepth .exhaustive done ↔
      1 < done.length ∨ start ∈ db.events.map (·.id) := by
  have hadj : (levelWalk db .both maxDepth .exhaustive).Follows (adjacent db .both) :=
    levelWalk_follows hdistinct
  obtain ⟨page, level, rfl⟩ := (List.eq_nil_or_concat' done).resolve_left hdone
  rw [List.length_append, List.length_singleton]
  cases page with
  | cons level' page =>
    have hlong : 1 < (level' :: page).length + 1 := Nat.succ_lt_succ (Nat.succ_pos _)
    refine ⟨fun _ => .inl hlong, fun _ => ?_⟩
    rw [List.append_assoc] at hlevels
    refine turnsBack_of_stored hdistinct hacyclic hlevels hrest fun x hx => ?_
    -- the events of a level are stored
    obtain ⟨page, level', hpage⟩ :=
      (List.eq_nil_or_concat' (level' :: page)).resolve_left (List.cons_ne_nil _ _)
    rw [hpage, List.append_assoc] at hlevels
    rw [hpage, front_append] at hx
    obtain ⟨-, -, hnext, -, -⟩ := levels_cons (levels_rest hlevels)
    obtain ⟨items, hitems, rfl⟩ := next_eq_ok hnext
    have hexpand : expandFrontier db .both _ = .ok items := hitems
    obtain ⟨a, ha, rfl⟩ := List.mem_map.mp hx
    have hmem := (List.mem_filter.mp (sample_sublist.subset ha)).1
    exact List.mem_map_of_mem ((mem_expandFrontier hdistinct hexpand a).mp hmem).1
  | nil =>
    constructor
    · rintro ⟨items, hexpand, r, hr, hpassed⟩
      -- the events of a level are no neighbours of each other
      have hitems : expandFrontier db .both _ = .ok items := hexpand
      obtain ⟨hstored, x, hx, hxr⟩ := (mem_expandFrontier hdistinct hitems r).mp hr
      have hcovers := covers_front hadj (graded hacyclic) (covers_start (graded hacyclic)) hlevels
      have hx := hcovers.level x hx
      rcases List.mem_cons.mp hpassed with hstart | hlevel
      · exact .inr (hstart ▸ List.mem_map_of_mem hstored)
      · have hr := hcovers.level r.id hlevel
        rcases (graded hacyclic).step hx hxr with hup | ⟨m, hm, hdown⟩
        · have := (graded hacyclic).unique hr hup
          omega
        · have := (graded hacyclic).unique hr hdown
          omega
    · rintro (hlong | hstart)
      · exact absurd hlong (Nat.lt_irrefl 1)
      · rw [List.append_assoc] at hlevels
        exact turnsBack_of_stored hdistinct hacyclic hlevels hrest fun x hx =>
          List.mem_singleton.mp hx ▸ hstart

/-! ### The unpaged walk -/

/-- The cursor after some levels; before the first call there is none. -/
def resumeAfter (db : Db) (start : EventId) (direction : WalkDirection) (maxDepth : ℕ)
    (sampling : SamplingMode) : List (List EventRow) → Option CursorInner
  | [] => none
  | level :: done => some (cursorAfter db direction maxDepth sampling [start] (level :: done) 1)

/-- The levels that a call finds with that cursor, and whether it succeeds. -/
def foundAfter (db : Db) (start : EventId) (direction : WalkDirection) (maxDepth : ℕ)
    (sampling : SamplingMode) (done : List (List EventRow)) : List (List EventRow) :=
  let w := levelWalk db direction maxDepth sampling
  w.found (maxDepth - done.length % 2 ^ 32) (w.front [start] done) (w.front [start] done)

def levelsAfter (db : Db) (start : EventId) (direction : WalkDirection) (maxDepth : ℕ)
    (sampling : SamplingMode) (done : List (List EventRow)) : Except Error (List (List EventRow)) :=
  let w := levelWalk db direction maxDepth sampling
  w.levels (maxDepth - done.length % 2 ^ 32) (w.front [start] done) (w.front [start] done)

/-- The depth in a cursor, read back. -/
theorem toNat_depthConsumed {n : ℕ} : (UInt32.ofNat (1 + n - 1)).toNat = n % 2 ^ 32 := by
  rw [Nat.add_sub_cancel_left]
  rfl

theorem depthConsumed_add {m n : ℕ} :
    UInt32.ofNat (m % 2 ^ 32 + 1 + n - 1) = UInt32.ofNat (1 + (m + n) - 1) := by
  refine UInt32.toNat_inj.mp ?_
  show (m % 2 ^ 32 + 1 + n - 1) % 2 ^ 32 = (1 + (m + n) - 1) % 2 ^ 32
  omega

theorem walkCausationBounded_resumed {frontier : List EventId} {consumed : UInt32} :
    walkCausationBounded registry fuel options db start direction maxDepth sampling budget
        (some (.causation frontier direction.byte consumed)) =
      upcastResult registry fuel (causationLoop db direction maxDepth sampling (budget.or options)
        (maxDepth - consumed.toNat) (consumed.toNat + 1) frontier frontier [] 0) := by
  rw [walkCausationBounded]
  dsimp only
  rw [if_neg (not_not.mpr rfl)]
  rfl

theorem walkCausationBounded_after (done : List (List EventRow)) :
    let front := (levelWalk db direction maxDepth sampling).front [start] done
    walkCausationBounded registry fuel options db start direction maxDepth sampling budget
        (resumeAfter db start direction maxDepth sampling done) =
      upcastResult registry fuel (causationLoop db direction maxDepth sampling (budget.or options)
        (maxDepth - done.length % 2 ^ 32) (done.length % 2 ^ 32 + 1) front front [] 0) := by
  cases done with
  | nil => rfl
  | cons level done =>
    rw [resumeAfter, cursorAfter, walkCausationBounded_resumed, toNat_depthConsumed]

/-- The cursor that a call returns is the one after all the levels so far. -/
theorem cursorAfter_front (hpage : page ≠ []) :
    some (cursorAfter db direction maxDepth sampling
        ((levelWalk db direction maxDepth sampling).front [start] done) page
        (done.length % 2 ^ 32 + 1)) =
      resumeAfter db start direction maxDepth sampling (done ++ page) := by
  obtain ⟨level, levels, hcons⟩ := List.exists_cons_of_ne_nil
    (fun h => hpage (List.append_eq_nil_iff.mp h).2 : done ++ page ≠ [])
  have hresume : resumeAfter db start direction maxDepth sampling (done ++ page) =
      some (cursorAfter db direction maxDepth sampling [start] (done ++ page) 1) := by
    rw [hcons]
    rfl
  rw [hresume, cursorAfter, cursorAfter, front_append, List.length_append, depthConsumed_add]

/-- **One call**: with the cursor after some levels it takes its page of the levels that it
finds. -/
theorem call_spec (htake : takeLevels (budget.or options) [] 0
      (foundAfter db start direction maxDepth sampling done) = (page, rest)) :
    (rest = [] → walkCausationBounded registry fuel options db start direction maxDepth sampling
        budget (resumeAfter db start direction maxDepth sampling done) =
      upcastResult registry fuel ((levelsAfter db start direction maxDepth sampling done).map
        fun _ => .complete (page.flatten.map rowToEvent))) ∧
    (rest ≠ [] → page ≠ [] ∧ ∃ reason, walkCausationBounded registry fuel options db start direction
        maxDepth sampling budget (resumeAfter db start direction maxDepth sampling done) =
      upcastOutcome registry fuel (.truncated (page.flatten.map rowToEvent)
        (resumeAfter db start direction maxDepth sampling (done ++ page)) reason)) := by
  obtain ⟨hcomplete, htruncated⟩ := @causationLoop_spec db direction sampling maxDepth _ _ [] page
    rest (budget.or options) _ (done.length % 2 ^ 32 + 1) 0 htake
  rw [walkCausationBounded_after done]
  refine ⟨fun hrest => by rw [hcomplete hrest]; rfl, fun hrest => ?_⟩
  have hpage : page ≠ [] := takeLevels_ne_nil htake fun hnil => by
    rw [hnil] at htake
    exact hrest (Prod.mk.inj htake).2.symm
  obtain ⟨reason, hcall⟩ := htruncated hrest
  refine ⟨hpage, reason, ?_⟩
  rw [hcall, cursorAfter_front hpage]
  rfl

/-- The calls that succeed with a page, complete or not. -/
theorem call_eq_ok {outcome : ReadOutcome} (h : walkCausationBounded registry fuel options db start
      direction maxDepth sampling budget (resumeAfter db start direction maxDepth sampling done)
        = some (.ok outcome)) :
    ∃ page rest, takeLevels (budget.or options) [] 0
        (foundAfter db start direction maxDepth sampling done) = (page, rest) ∧
      upcastAll registry fuel (page.flatten.map rowToEvent) = some (.ok outcome.data) ∧
      ((rest = [] ∧ levelsAfter db start direction maxDepth sampling done = .ok page ∧
          outcome = .complete outcome.data) ∨
        (rest ≠ [] ∧ page ≠ [] ∧ ∃ reason, outcome = .truncated outcome.data
          (resumeAfter db start direction maxDepth sampling (done ++ page)) reason)) := by
  obtain ⟨hcomplete, htruncated⟩ := @call_spec registry fuel options budget db start direction
    sampling maxDepth _ done _ rfl
  refine ⟨_, _, rfl, ?_⟩
  by_cases hrest : (takeLevels (budget.or options) [] 0
      (foundAfter db start direction maxDepth sampling done)).2 = []
  · rw [hcomplete hrest] at h
    rcases hlevels : levelsAfter db start direction maxDepth sampling done with e | ls
    · rw [hlevels] at h
      exact absurd h (by simp [upcastResult, Except.map])
    · rw [hlevels] at h
      obtain ⟨data, hdata, rfl⟩ := upcastOutcome_eq_ok_iff.mp h
      refine ⟨hdata, .inl ⟨hrest, ?_, rfl⟩⟩
      have hfound : foundAfter db start direction maxDepth sampling done = ls :=
        found_of_levels hlevels
      have happend := takeLevels_append (Prod.mk.eta (p := takeLevels (budget.or options) [] 0
        (foundAfter db start direction maxDepth sampling done))).symm
      rw [hrest, List.append_nil, hfound] at happend
      rw [hfound, ← happend]
  · obtain ⟨hpage, reason, hcall⟩ := htruncated hrest
    obtain ⟨data, hdata, rfl⟩ := upcastOutcome_eq_ok_iff.mp (hcall.symm.trans h)
    exact ⟨hdata, .inr ⟨hrest, hpage, reason, rfl⟩⟩

/-- Without a budget the walk returns all its levels. -/
theorem whole_levels :
    walkCausationBounded registry fuel ⟨none, none⟩ db start direction maxDepth sampling ⟨none, none⟩
        none = some (.ok (.complete data)) ↔
      ∃ ls, (levelWalk db direction maxDepth sampling).levels maxDepth [start] [start] = .ok ls ∧
        upcastAll registry fuel (ls.flatten.map rowToEvent) = some (.ok data) := by
  constructor
  · intro h
    obtain ⟨page, rest, htake, hupcast, ⟨-, hlevels, -⟩ | ⟨-, -, reason, hcut⟩⟩ :=
      @call_eq_ok registry fuel ⟨none, none⟩ ⟨none, none⟩ db start direction sampling maxDepth []
        _ h
    · exact ⟨page, hlevels, hupcast⟩
    · exact absurd hcut (by simp)
  · rintro ⟨ls, hlevels, hupcast⟩
    have hfound : foundAfter db start direction maxDepth sampling [] = ls := found_of_levels hlevels
    obtain ⟨hcomplete, -⟩ := @call_spec registry fuel ⟨none, none⟩ ⟨none, none⟩ db start direction
      sampling maxDepth _ [] _ takeLevels_unlimited
    have hwhole : levelsAfter db start direction maxDepth sampling [] = .ok ls := hlevels
    refine (hcomplete rfl).trans ?_
    rw [hwhole, hfound]
    exact upcastOutcome_eq_ok_iff.mpr ⟨data, hupcast, rfl⟩

/-- The walk itself returns no event twice and not the start. -/
theorem whole_distinct (hdistinct : (db.events.map (·.id)).Nodup)
    (hlevels : (levelWalk db direction maxDepth sampling).levels maxDepth [start] [start] = .ok ls)
    (hupcast : upcastAll registry fuel (ls.flatten.map rowToEvent) = some (.ok data)) :
    (data.map (·.id)).Nodup ∧ ∀ e ∈ data, e.id ≠ start := by
  have hids : data.map (·.id) = (levelWalk db direction maxDepth sampling).keys ls.flatten := by
    rw [upcastAll_ids hupcast, List.map_map]
    rfl
  constructor
  · rw [hids]
    exact levels_nodup (fun _ _ hexpand => nodup_expandFrontier hdistinct hexpand) hlevels
  · intro e he hstart
    have hmem : e.id ∈ (levelWalk db direction maxDepth sampling).keys ls.flatten :=
      hids ▸ List.mem_map_of_mem he
    obtain ⟨r, hr, hid⟩ := List.mem_map.mp hmem
    exact levels_fresh hlevels r hr (List.mem_singleton.mpr (hid.trans hstart))

/-! ### Following the cursors -/

/-- With these levels returned, whoever goes on with the `k`-th budget gets the others. -/
def AgreesFrom (registry : UpcasterRegistry) (fuel : ℕ) (options : Budget) (db : Db)
    (start : EventId) (direction : WalkDirection) (maxDepth : ℕ) (sampling : SamplingMode)
    (budgets : ℕ → Budget) (k : ℕ) (done rest : List (List EventRow)) : Prop :=
  ∃ n pages, followCursors
      (walkCausationBounded registry fuel options db start direction maxDepth sampling) budgets n k
        (resumeAfter db start direction maxDepth sampling done) = some (.ok pages) ∧
    upcastAll registry fuel (rest.flatten.map rowToEvent) = some (.ok pages.flatten)

/-- A walk that remembers its last level goes on as it would have, unless it turns back. -/
theorem levels_of_front (hdistinct : (db.events.map (·.id)).Nodup) (hacyclic : db.Acyclic)
    (hlevels : (levelWalk db direction maxDepth sampling).levels maxDepth [start] [start]
      = .ok (done ++ rest)) (hturn : ¬TurnsBack db start direction maxDepth sampling done) (k : ℕ) :
    let w := levelWalk db direction maxDepth sampling
    w.levels k (w.front [start] done) (w.front [start] done) =
      w.levels k (w.passed [start] done) (w.front [start] done) := by
  have hadj : (levelWalk db direction maxDepth sampling).Follows (adjacent db direction) :=
    levelWalk_follows hdistinct
  refine levels_resume hadj (graded hacyclic)
    (covers_front hadj (graded hacyclic) (covers_start (graded hacyclic)) hlevels) ?_
  intro items hitems r hr hpassed
  exact hturn ⟨items, hitems, r, hr, hpassed⟩

/-- The rounds that a resumed call has are enough to find the rest and nothing more. -/
theorem levelsAfter_of_straight (hdistinct : (db.events.map (·.id)).Nodup) (hacyclic : db.Acyclic)
    (hlevels : (levelWalk db direction maxDepth sampling).levels maxDepth [start] [start]
      = .ok (done ++ rest)) (hturn : ¬TurnsBack db start direction maxDepth sampling done)
    (hover : ¬Overruns db start direction maxDepth sampling done) :
    levelsAfter db start direction maxDepth sampling done = .ok rest := by
  show (levelWalk db direction maxDepth sampling).levels _ _ _ = _
  rw [levels_of_front hdistinct hacyclic hlevels hturn]
  have hlength := length_levels_le hlevels
  rw [List.length_append] at hlength
  by_cases hfits : done.length < 2 ^ 32
  · rw [Nat.mod_eq_of_lt hfits]
    exact levels_rest hlevels
  · -- the depth has wrapped, so the walk has to end by itself
    have hdeeper : (levelWalk db direction maxDepth sampling).levels (maxDepth + 1) [start] [start]
        = .ok (done ++ rest) := by
      by_contra hne
      refine hover ⟨by omega, ?_⟩
      rw [hlevels]
      exact hne
    have hmod := Nat.mod_lt done.length (show 2 ^ 32 > 0 by omega)
    have hspare := levels_rest hdeeper
    exact levels_ended hspare (by omega) (by omega)

/-- Levels that were found are not empty. -/
theorem flatten_ne_nil {seen frontier : List EventId}
    (hlevels : (levelWalk db direction maxDepth sampling).levels k seen frontier = .ok ls)
    (hpage : ∀ level ∈ page, level ∈ ls) (hne : page ≠ []) : page.flatten ≠ [] := by
  intro hflat
  cases page with
  | nil => exact hne rfl
  | cons level page =>
    obtain ⟨hlevel, -⟩ := List.append_eq_nil_iff.mp (List.flatten_cons ▸ hflat)
    exact levels_ne_nil hlevels level (hpage level List.mem_cons_self) hlevel

theorem length_flatten_of_upcast
    (h : upcastAll registry fuel (ls.flatten.map rowToEvent) = some (.ok data)) :
    data.length = ls.flatten.length := by
  rw [length_upcastAll h, List.length_map]

/-- **The cuts decide**: where none of them turns back or overruns, the pages are the rest of
the walk. -/
theorem follow_of_cuts (hdistinct : (db.events.map (·.id)).Nodup) (hacyclic : db.Acyclic)
    (hlevels : (levelWalk db direction maxDepth sampling).levels maxDepth [start] [start] = .ok ls)
    (hcuts : AtCuts (fun i => (budgets i).or options) ls fun done _ =>
      ¬TurnsBack db start direction maxDepth sampling done ∧
        ¬Overruns db start direction maxDepth sampling done)
    (hcut : pageCut (fun i => (budgets i).or options) ls k = (done, rest))
    (hrest : levelsAfter db start direction maxDepth sampling done = .ok rest)
    (hupcast : upcastAll registry fuel (rest.flatten.map rowToEvent) = some (.ok data)) :
    ∃ n pages, followCursors
        (walkCausationBounded registry fuel options db start direction maxDepth sampling) budgets n
          k (resumeAfter db start direction maxDepth sampling done) = some (.ok pages) ∧
      pages.flatten = data ∧ ∀ page ∈ pages.dropLast, page ≠ [] := by
  induction hn : rest.length using Nat.strongRecOn generalizing k done rest data with
  | ind n ih =>
    subst hn
    have hfound : foundAfter db start direction maxDepth sampling done = rest :=
      found_of_levels hrest
    rcases htake : takeLevels ((budgets k).or options) [] 0 rest with ⟨page, left⟩
    obtain rfl := takeLevels_append htake
    rw [List.flatten_append, List.map_append] at hupcast
    obtain ⟨events, others, hevents, hothers, rfl⟩ := upcastAll_append_iff.mp hupcast
    obtain ⟨hcomplete, htruncated⟩ := @call_spec registry fuel options (budgets k) db start
      direction sampling maxDepth page done left (hfound ▸ htake)
    by_cases hleft : left = []
    · -- the last page
      subst hleft
      obtain rfl := Except.ok.inj (Option.some_inj.mp hothers)
      refine ⟨1, [events], followCursors_complete ?_, ?_, fun _ hpage => absurd hpage (by simp)⟩
      · rw [hcomplete rfl, hrest]
        exact upcastOutcome_eq_ok_iff.mpr ⟨events, hevents, rfl⟩
      · rw [List.flatten_singleton, List.append_nil]
    · obtain ⟨hpage, reason, hcall⟩ := htruncated hleft
      have hnext := pageCut_succ hcut htake
      obtain ⟨hturn, hover⟩ := hcuts k _ _ hnext hleft
      have hwhole : (levelWalk db direction maxDepth sampling).levels maxDepth [start] [start]
          = .ok ((done ++ page) ++ left) := by
        rw [hlevels, pageCut_append hnext]
      obtain ⟨n, pages, hfollow, rfl, hpages⟩ := ih left.length (by
        rw [List.length_append]
        exact Nat.lt_add_of_pos_left (List.length_pos_iff.mpr hpage)) hnext
        (levelsAfter_of_straight hdistinct hacyclic hwhole hturn hover) hothers rfl
      rw [upcastOutcome_eq_ok_iff.mpr ⟨events, hevents, rfl⟩] at hcall
      refine ⟨n + 1, events :: pages, followCursors_truncated hcall hfollow, List.flatten_cons, ?_⟩
      · rw [List.dropLast_cons_of_ne_nil (followCursors_ne_nil hfollow)]
        intro page' hpage'
        rcases List.mem_cons.mp hpage' with rfl | hpage'
        · rw [upcastAll_ne_nil_iff hevents, List.map_eq_nil_iff.ne]
          exact flatten_ne_nil hwhole (fun level hlevel => List.mem_append_left _
            (List.mem_append_right _ hlevel)) hpage
        · exact hpages page' hpage'

/-! ### Where they go wrong -/

/-- With a cursor after which the walk turns back, an event comes that was passed. -/
theorem straight_of_follow {pages : List (List StoredEvent)}
    (hdistinct : (db.events.map (·.id)).Nodup) (hacyclic : db.Acyclic)
    (hlevels : (levelWalk db direction maxDepth sampling).levels maxDepth [start] [start]
      = .ok (done ++ rest)) (hround : done.length % 2 ^ 32 < maxDepth)
    (hfollow : followCursors
      (walkCausationBounded registry fuel options db start direction maxDepth sampling) budgets n k
        (resumeAfter db start direction maxDepth sampling done) = some (.ok pages))
    (hupcast : upcastAll registry fuel (rest.flatten.map rowToEvent) = some (.ok pages.flatten)) :
    ¬TurnsBack db start direction maxDepth sampling done := by
  rintro ⟨items, hexpand, r, hr, hpassed⟩
  have hcall : ∃ outcome, walkCausationBounded registry fuel options db start direction maxDepth
      sampling (budgets k) (resumeAfter db start direction maxDepth sampling done)
        = some (.ok outcome) ∧ ∀ e ∈ outcome.data, e ∈ pages.flatten := by
    obtain ⟨-, -, ⟨data, hcall, rfl⟩ | ⟨data, cursor, reason, pages', hcall, -, rfl⟩⟩ :=
      followCursors_eq_ok hfollow
    · exact ⟨_, hcall, fun e he => List.mem_append_left _ he⟩
    · exact ⟨_, hcall, fun e he => List.mem_append_left _ he⟩
  obtain ⟨outcome, hcall, hreturned⟩ := hcall
  obtain ⟨page, left, htake, hdata, -⟩ := call_eq_ok hcall
  -- the first level of the call is what the last level is expanded to
  have hadj : (levelWalk db direction maxDepth sampling).Follows (adjacent db direction) :=
    levelWalk_follows hdistinct
  have hnext := next_resume hadj (graded hacyclic)
    (covers_front hadj (graded hacyclic) (covers_start (graded hacyclic)) hlevels) hexpand
  obtain ⟨rounds, hrounds⟩ : ∃ rounds, maxDepth - done.length % 2 ^ 32 = rounds + 1 :=
    ⟨maxDepth - done.length % 2 ^ 32 - 1, by omega⟩
  rw [foundAfter, hrounds, found_of_level hnext (List.ne_nil_of_mem hr)] at htake
  obtain ⟨more, rfl⟩ := takeLevels_first htake
  have hmem : r.id ∈ outcome.data.map (·.id) := by
    rw [upcastAll_ids hdata, List.map_map]
    exact List.mem_map_of_mem (List.mem_append_left more.flatten hr)
  obtain ⟨e, he, hid⟩ := List.mem_map.mp hmem
  have hrest : r.id ∈ pages.flatten.map (·.id) := hid ▸ List.mem_map_of_mem (hreturned e he)
  rw [upcastAll_ids hupcast, List.map_map] at hrest
  -- but what is left of the walk has nothing that was passed
  obtain ⟨r', hr', hid'⟩ := List.mem_map.mp hrest
  have hid' : r'.id = r.id := hid'
  refine levels_fresh (levels_rest hlevels) r' hr' ?_
  show r'.id ∈ _
  rwa [hid']

/-- The rest of a walk is known by its number of events. -/
theorem levels_of_length {m : ℕ} {seen frontier : List EventId}
    (h : (levelWalk db direction maxDepth sampling).levels k seen frontier = .ok rest)
    (h' : (levelWalk db direction maxDepth sampling).levels m seen frontier = .ok page)
    (hlength : page.flatten.length ≤ rest.flatten.length) : ∃ left, rest = page ++ left := by
  rcases Nat.le_total m k with hle | hle
  · exact levels_grow h' h hle
  · obtain ⟨more, rfl⟩ := levels_grow h h' hle
    rw [List.flatten_append, List.length_append] at hlength
    have hnone : more = [] := by
      by_contra hne
      have hpos := List.length_pos_iff.mpr
        (flatten_ne_nil h' (fun _ h => List.mem_append_right _ h) hne)
      omega
    exact ⟨[], by rw [hnone, List.append_nil, List.append_nil]⟩

/-- **One cursor decides**: whoever gets the rest of the walk from it, in whatever pages, could
get it in one call. -/
theorem levelsAfter_of_follow {pages : List (List StoredEvent)}
    (hdistinct : (db.events.map (·.id)).Nodup) (hacyclic : db.Acyclic)
    (hlevels : (levelWalk db direction maxDepth sampling).levels maxDepth [start] [start]
      = .ok (done ++ rest)) (hround : done.length % 2 ^ 32 < maxDepth)
    (hfollow : followCursors
      (walkCausationBounded registry fuel options db start direction maxDepth sampling) budgets n k
        (resumeAfter db start direction maxDepth sampling done) = some (.ok pages))
    (hupcast : upcastAll registry fuel (rest.flatten.map rowToEvent) = some (.ok pages.flatten)) :
    levelsAfter db start direction maxDepth sampling done = .ok rest := by
  induction n generalizing k done rest pages with
  | zero => exact absurd hfollow (by simp [followCursors])
  | succ n ih =>
    have hturn := straight_of_follow hdistinct hacyclic hlevels hround hfollow hupcast
    have hfront := levels_of_front hdistinct hacyclic hlevels hturn
    have hleft := levels_rest hlevels
    have hbound := length_levels_le hlevels
    rw [List.length_append] at hbound
    have hmod := Nat.mod_le done.length (2 ^ 32)
    have hevents := length_flatten_of_upcast hupcast
    show (levelWalk db direction maxDepth sampling).levels _ _ _ = _
    rw [hfront]
    obtain ⟨m, hm, ⟨data, hcall, rfl⟩ | ⟨data, cursor, reason, pages, hcall, hmore, rfl⟩⟩ :=
      followCursors_eq_ok hfollow
    · -- the last page is the rest
      obtain ⟨page, -, -, hdata, ⟨-, hpage, -⟩ | ⟨-, -, reason, hcut⟩⟩ := call_eq_ok hcall
      · have hpage : (levelWalk db direction maxDepth sampling).levels _ _ _ = .ok page := hpage
        rw [hfront] at hpage
        have hlength := length_flatten_of_upcast hdata
        rw [List.flatten_singleton] at hevents
        obtain ⟨more, rfl⟩ := levels_grow hleft hpage (by omega)
        obtain ⟨left, hsame⟩ := levels_of_length hleft hpage (hlength ▸ hevents.le)
        rw [List.append_assoc, List.self_eq_append_right] at hsame
        rw [hpage, (List.append_eq_nil_iff.mp hsame).1, List.append_nil]
      · exact absurd hcut (by simp)
    · -- a page before is a front of it, and the next cursor finds what is left
      obtain ⟨page, left, htake, hdata, ⟨-, -, hend⟩ | ⟨hne, hpage, reason', hcut⟩⟩ :=
        call_eq_ok hcall
      · exact absurd hend (by simp)
      obtain ⟨-, rfl, -⟩ := ReadOutcome.truncated.inj hcut
      have hfound := takeLevels_append htake
      have hlevels' := levels_of_found hfound
      rw [hfront] at hlevels'
      have hlength := length_flatten_of_upcast hdata
      rw [List.flatten_cons, List.length_append] at hevents
      have hfront_le : page.flatten.length ≤ rest.flatten.length := by
        rw [← hevents, ← hlength]
        exact Nat.le_add_right _ _
      obtain ⟨rest, rfl⟩ := levels_of_length hleft hlevels' hfront_le
      rw [List.flatten_append, List.map_append, List.flatten_cons] at hupcast
      obtain ⟨added, after, hadded, hafter, hsplit⟩ := upcastAll_append_iff.mp hupcast
      obtain rfl := Except.ok.inj (Option.some_inj.mp (hadded.symm.trans hdata))
      obtain rfl := List.append_cancel_left hsplit
      have hrounds := length_found_le hfound
      rw [List.length_append] at hrounds hbound
      have hpos := List.length_pos_iff.mpr hne
      rw [← List.append_assoc] at hlevels
      -- the depth of the next cursor, which may have wrapped in between
      have hwrap : (done.length + page.length) % 2 ^ 32 ≤ done.length % 2 ^ 32 + page.length := by
        rw [← Nat.mod_add_mod]
        exact Nat.mod_le _ _
      have hround' : (done ++ page).length % 2 ^ 32 < maxDepth := by
        rw [List.length_append]
        omega
      obtain rfl := Nat.succ.inj hm
      have hafter' := ih hlevels hround' hmore hafter
      have hturn' := straight_of_follow hdistinct hacyclic hlevels hround' hmore hafter
      have hafter' : (levelWalk db direction maxDepth sampling).levels _ _ _ = .ok rest := hafter'
      rw [levels_of_front hdistinct hacyclic hlevels hturn', passed_append, front_append,
        List.length_append] at hafter'
      -- this call has no more rounds left than the next one
      have hrest : maxDepth - done.length % 2 ^ 32 - page.length ≤
          maxDepth - (done.length + page.length) % 2 ^ 32 := by omega
      have hshort := levels_shrink hafter' hrest (by omega)
      have hwhole := levels_glue (hlevels'.trans (congrArg Except.ok (List.append_nil page).symm))
        hshort
      rwa [Nat.add_sub_cancel' (by omega)] at hwhole

/-- Then the walk did not overrun. -/
theorem not_overruns (hdistinct : (db.events.map (·.id)).Nodup) (hacyclic : db.Acyclic)
    (hlevels : (levelWalk db direction maxDepth sampling).levels maxDepth [start] [start]
      = .ok (done ++ rest)) (hturn : ¬TurnsBack db start direction maxDepth sampling done)
    (hafter : levelsAfter db start direction maxDepth sampling done = .ok rest) :
    ¬Overruns db start direction maxDepth sampling done := by
  rintro ⟨hdeep, hdeeper⟩
  have hafter : (levelWalk db direction maxDepth sampling).levels _ _ _ = .ok rest := hafter
  rw [levels_of_front hdistinct hacyclic hlevels hturn] at hafter
  have hbound := length_levels_le hlevels
  rw [List.length_append] at hbound
  have hmod := Nat.mod_lt done.length (show 2 ^ 32 > 0 by omega)
  refine hdeeper ?_
  rw [hlevels]
  refine levels_ended_of_rest hlevels hafter (by omega) ?_
  rw [List.length_append]
  omega

/-- Whoever gets the whole walk gets the rest of it at every cut. -/
theorem agreesFrom_cut (hdistinct : (db.events.map (·.id)).Nodup) (hacyclic : db.Acyclic)
    (hlevels : (levelWalk db direction maxDepth sampling).levels maxDepth [start] [start] = .ok ls)
    (hagrees : AgreesFrom registry fuel options db start direction maxDepth sampling budgets 0 [] ls)
    (hcut : pageCut (fun i => (budgets i).or options) ls k = (done, rest))
    (hrest : k = 0 ∨ rest ≠ []) :
    AgreesFrom registry fuel options db start direction maxDepth sampling budgets k done rest := by
  induction k generalizing done rest with
  | zero =>
    obtain ⟨rfl, rfl⟩ := Prod.mk.inj hcut
    exact hagrees
  | succ k ih =>
    rcases hcut' : pageCut (fun i => (budgets i).or options) ls k with ⟨done', rest'⟩
    rcases htake : takeLevels ((budgets k).or options) [] 0 rest' with ⟨page, left⟩
    obtain ⟨rfl, rfl⟩ := Prod.mk.inj (hcut.symm.trans (pageCut_succ hcut' htake))
    have hleft := hrest.resolve_left (Nat.succ_ne_zero k)
    obtain rfl := takeLevels_append htake
    have hne : page ++ rest ≠ [] := fun hnil => hleft (List.append_eq_nil_iff.mp hnil).2
    obtain ⟨n, pages, hfollow, hupcast⟩ := ih hcut' (.inr hne)
    rw [← pageCut_append hcut'] at hlevels
    have hpos := List.length_pos_iff.mpr hne
    have hbound := length_levels_le hlevels
    rw [List.length_append] at hbound
    have hafter := levelsAfter_of_follow hdistinct hacyclic hlevels
      ((Nat.mod_le _ _).trans_lt (by omega)) hfollow hupcast
    have hfound : foundAfter db start direction maxDepth sampling done' = page ++ rest :=
      found_of_levels hafter
    -- so the call is cut where the walk is
    obtain ⟨-, htruncated⟩ := @call_spec registry fuel options (budgets k) db start
      direction sampling maxDepth page done' rest (hfound ▸ htake)
    obtain ⟨-, reason, hcall⟩ := htruncated hleft
    obtain ⟨m, rfl, ⟨data, hcall', -⟩ | ⟨data, cursor, reason', pages', hcall', hmore, rfl⟩⟩ :=
      followCursors_eq_ok hfollow
    · obtain ⟨_, hevents, -⟩ := upcastOutcome_complete (hcall.symm.trans hcall')
      exact absurd hevents (by simp)
    · obtain ⟨events, hevents, hdata⟩ := upcastOutcome_truncated (hcall.symm.trans hcall')
      obtain ⟨rfl, rfl, rfl⟩ := ReadOutcome.truncated.inj hevents
      rw [List.flatten_append, List.map_append, List.flatten_cons] at hupcast
      obtain ⟨added, after, hadded, hafter', hsplit⟩ := upcastAll_append_iff.mp hupcast
      obtain rfl := Except.ok.inj (Option.some_inj.mp (hadded.symm.trans hdata))
      obtain rfl := List.append_cancel_left hsplit
      exact ⟨m, pages', hmore, hafter'⟩

/-- **When the pages are the walk**: for every store with distinct ids in which no event is
its own ancestor, for every walk that succeeds and whatever budgets its calls have, the pages
agree with it if and only if the walk neither turns back, where it goes both ways, nor
overruns the depth of a cursor after any of the cuts that the budgets make. -/
theorem pages_agree_iff (db : Db) (hdistinct : (db.events.map (·.id)).Nodup)
    (hacyclic : db.Acyclic) (registry : UpcasterRegistry) (fuel : ℕ) (options : Budget)
    (start : EventId) (direction : WalkDirection) (maxDepth : ℕ) (sampling : SamplingMode)
    (budgets : ℕ → Budget) (data : List StoredEvent)
    (hwhole : walkCausationBounded registry fuel ⟨none, none⟩ db start direction maxDepth sampling
      ⟨none, none⟩ none = some (.ok (.complete data))) :
    PagesAgree registry fuel options db start direction maxDepth sampling budgets data ↔
      AtCuts (fun i => (budgets i).or options) (foundLevels db start direction maxDepth sampling)
        fun done _ => (direction = .both → ¬TurnsBack db start direction maxDepth sampling done) ∧
          ¬Overruns db start direction maxDepth sampling done := by
  obtain ⟨ls, hlevels, hupcast⟩ := whole_levels.mp hwhole
  have hfound : foundLevels db start direction maxDepth sampling = ls := found_of_levels hlevels
  rw [hfound]
  have hpages : ∀ {k done rest}, pageCut (fun i => (budgets i).or options) ls k = (done, rest) →
      (levelWalk db direction maxDepth sampling).levels maxDepth [start] [start]
        = .ok (done ++ rest) := by
    intro k done rest hcut
    rw [hlevels, pageCut_append hcut]
  constructor
  · rintro ⟨-, -, n, pages, hfollow, rfl, -⟩ k done rest hcut hrest
    obtain ⟨m, pages', hfollow', hupcast'⟩ := agreesFrom_cut hdistinct hacyclic hlevels
      ⟨n, pages, hfollow, hupcast⟩ hcut (.inr hrest)
    have hlevels' := hpages hcut
    have hpos := List.length_pos_iff.mpr hrest
    have hbound := length_levels_le hlevels'
    rw [List.length_append] at hbound
    have hround : done.length % 2 ^ 32 < maxDepth := (Nat.mod_le _ _).trans_lt (by omega)
    have hturn := straight_of_follow hdistinct hacyclic hlevels' hround hfollow' hupcast'
    exact ⟨fun _ => hturn, not_overruns hdistinct hacyclic hlevels' hturn
      (levelsAfter_of_follow hdistinct hacyclic hlevels' hround hfollow' hupcast')⟩
  · intro hcuts
    obtain ⟨hnodup, hothers⟩ := whole_distinct hdistinct hlevels hupcast
    refine ⟨hnodup, hothers, ?_⟩
    have hfirst : levelsAfter db start direction maxDepth sampling [] = .ok ls := hlevels
    refine follow_of_cuts hdistinct hacyclic hlevels (fun k done rest hcut hrest => ?_)
      (k := 0) rfl hfirst hupcast
    obtain ⟨hturn, hover⟩ := hcuts k done rest hcut hrest
    refine ⟨?_, hover⟩
    by_cases hdirection : direction = .both
    · exact hturn hdirection
    · exact ascending_turnsBack hdistinct hacyclic (hpages hcut) hdirection

/-- `flatDeps` with a hash that depends on every byte. -/
def mixDeps : Deps :=
  { flatDeps with
    hash := fun b => ⟨leBytes 32 (b.foldl (fun n x => n * 257 + x.toNat) 1), rfl⟩ }

/-- Append `null` under an event type to the stream `s`, with a cause. -/
def appendCaused (eventType : String) (cause : Option EventId) : StoreOp :=
  .write [] (.append { streamId := "s", eventType := eventType, payload := .null,
                       causationId := cause }) fun _ => 0

/-- The id of such an event. -/
def causedId (eventType : String) (cause : Option EventId) : EventId :=
  match deriveEventId mixDeps eventType 1 cause .null with
  | .ok id => id
  | .error _ => mixDeps.hash []

/-- A chain of three events. -/
def chainOps : List StoreOp :=
  let a := causedId "a" none
  [.declareStream "s" "t" none 0, appendCaused "a" none, appendCaused "b" (some a),
    appendCaused "c" (some (causedId "b" (some a)))]

/-- The same chain without its first event. -/
def danglingOps : List StoreOp :=
  let a := causedId "a" none
  [.declareStream "s" "t" none 0, appendCaused "b" (some a),
    appendCaused "c" (some (causedId "b" (some a)))]

set_option maxRecDepth 4000 in
/-- Walked both ways from the event that is not stored, one event a page: what was passed is
the start, which is not found again. -/
theorem pages_agree_both : ∃ (db : Db) (data : List StoredEvent),
    data.map (·.eventType) = ["b", "c"] ∧
      PagesAgree [] 1 ⟨none, none⟩ db (causedId "a" none) .both 10 .exhaustive
        (fun _ => ⟨some 1, none⟩) data := by
  have hdistinct := @run_distinct mixDeps _ 0 danglingOps rfl
  have hacyclic : Db.Acyclic ((run (storeStep mixDeps) (Db.bootstrap 0) danglingOps).getD
      (Db.bootstrap 0)) := acyclic_of_earlier (by decide)
  refine ⟨_, _, ?_, (pages_agree_iff _ hdistinct hacyclic [] 1 ⟨none, none⟩ (causedId "a" none)
    .both 10 .exhaustive (fun _ => ⟨some 1, none⟩) _ rfl).mpr ?_⟩
  · decide
  · intro n done rest hcut hrest
    have hsplit := pageCut_append hcut
    have hpages := length_of_pageCut hcut hrest
    have hlength := congrArg List.length hsplit
    rw [List.length_append] at hlength
    have htwo : done.length + rest.length = 2 := hlength.trans (by decide)
    have hpos := List.length_pos_iff.mpr hrest
    have hone : done.length = 1 := by omega
    constructor
    · rintro -
      rw [turnsBack_exhaustive_iff hdistinct hacyclic (hsplit ▸ rfl)
        (List.length_pos_iff.mp (by omega)) hrest, hone]
      decide
    · rintro ⟨hdeep, -⟩
      omega

set_option maxRecDepth 4000 in
/-- The whole chain, walked both ways one event at a time: the second page goes back to
the start. -/
theorem pages_turn_back : ¬∀ (d : Deps) (now : Int64) (ops : List StoreOp) (db : Db),
    run (storeStep d) (Db.bootstrap now) ops = some db → db.Acyclic →
    ∀ (registry : UpcasterRegistry) (fuel : ℕ) (options : Budget) (start : EventId)
      (direction : WalkDirection) (maxDepth : ℕ) (sampling : SamplingMode)
      (budgets : ℕ → Budget) (data : List StoredEvent),
      walkCausationBounded registry fuel ⟨none, none⟩ db start direction maxDepth sampling
        ⟨none, none⟩ none = some (.ok (.complete data)) →
      PagesAgree registry fuel options db start direction maxDepth sampling budgets data := by
  intro h
  have hacyclic : Db.Acyclic ((run (storeStep mixDeps) (Db.bootstrap 0) chainOps).getD
      (Db.bootstrap 0)) := acyclic_of_earlier (by decide)
  have hagree := h mixDeps 0 chainOps _ rfl hacyclic [] 1 ⟨none, none⟩ (causedId "a" none) .both 10
    .exhaustive (fun n => if n = 0 then ⟨some 1, none⟩ else ⟨none, none⟩) _ rfl
  -- the two calls, and what they return
  obtain ⟨page, cursor, reason, page', hfirst, hsecond, hthree⟩ : ∃ page cursor reason page',
      walkCausationBounded [] 1 ⟨none, none⟩ ((run (storeStep mixDeps) (Db.bootstrap 0)
        chainOps).getD (Db.bootstrap 0)) (causedId "a" none) .both 10 .exhaustive ⟨some 1, none⟩ none
          = some (.ok (.truncated page cursor reason)) ∧
      walkCausationBounded [] 1 ⟨none, none⟩ ((run (storeStep mixDeps) (Db.bootstrap 0)
        chainOps).getD (Db.bootstrap 0)) (causedId "a" none) .both 10 .exhaustive ⟨none, none⟩ cursor
          = some (.ok (.complete page')) ∧ (page ++ page').length = 3 :=
    ⟨_, _, _, _, rfl, rfl, by decide⟩
  obtain ⟨n, pages, hfollow, hdata, -⟩ := hagree.pages
  have htwo := congrArg List.length hdata
  obtain ⟨m, -, ⟨_, hcall, -⟩ | ⟨_, _, _, pages, hcall, hmore, rfl⟩⟩ := followCursors_eq_ok hfollow
  · exact absurd (hfirst.symm.trans hcall) (by simp)
  obtain ⟨rfl, rfl, -⟩ := ReadOutcome.truncated.inj
    (Except.ok.inj (Option.some_inj.mp (hfirst.symm.trans hcall)))
  obtain ⟨-, -, ⟨_, hcall', rfl⟩ | ⟨_, _, _, _, hcall', -⟩⟩ := followCursors_eq_ok hmore
  · obtain rfl := ReadOutcome.complete.inj
      (Except.ok.inj (Option.some_inj.mp (hsecond.symm.trans hcall')))
    rw [List.flatten_cons, List.flatten_singleton, hthree] at htwo
    exact absurd htwo (by decide)
  · exact absurd (hsecond.symm.trans hcall') (by simp)

end Fossic
