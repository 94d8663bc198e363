/-
The causation links as a forest of parent pointers, and the bounded walk as a walk of
it by levels.

* `mem_expandFrontier` — a frontier is expanded to the stored neighbours;
* `graded` — each direction is graded where no event is its own ancestor;
* `causationLoop_spec` — a call returns the front of the levels that it finds, cut where
  its budget says (`takeLevels`).
-/
import Fossic.CausationWalk
import Fossic.ForestWalk
import Fossic.PurgeRecord

namespace Fossic

open Paging KeySort LevelWalk ForestWalk

/-! ### Links -/

/-- The event that caused the event `id`, where `id` is stored and names one; it may be
stored or not. -/
def parentId (db : Db) (id : EventId) : Option EventId :=
  (db.events.find? fun r => r.id = id).bind (·.causationId)

/-- No event is its own ancestor. -/
def Db.Acyclic (db : Db) : Prop := Kinship.Acyclic (parentId db)

def adjacent (db : Db) : WalkDirection → EventId → EventId → Prop
  | .forward => Down (parentId db)
  | .backward => Up (parentId db)
  | .both => Either (parentId db)

/-- The distance from the start. -/
def gradeOf (db : Db) (start : EventId) : WalkDirection → EventId → ℕ → Prop
  | .forward => DownGrade (parentId db) start
  | .backward => UpGrade (parentId db) start
  | .both => EitherGrade (parentId db) start

variable {db : Db} {start : EventId} {direction : WalkDirection} {sampling : SamplingMode}
  {maxDepth : ℕ} {frontier seen : List EventId} {rows results level : List EventRow}
  {page rest ls : List (List EventRow)} {budget : Budget} {rounds depth byteCount : ℕ}

theorem graded (hacyclic : db.Acyclic) :
    Graded (adjacent db direction) start (gradeOf db start direction) := by
  cases direction with
  | forward => exact graded_down hacyclic
  | backward => exact graded_up hacyclic
  | both => exact graded_either hacyclic

theorem parentId_of_mem (hdistinct : (db.events.map (·.id)).Nodup) {r : EventRow}
    (hr : r ∈ db.events) : parentId db r.id = r.causationId := by
  rw [parentId, find_of_mem_events hdistinct hr]
  rfl

/-- Only a stored event has a parent. -/
theorem exists_of_parentId {id parent : EventId} (h : parentId db id = some parent) :
    ∃ r ∈ db.events, r.id = id ∧ r.causationId = some parent := by
  obtain ⟨r, hr, hparent⟩ := Option.bind_eq_some_iff.mp h
  exact ⟨r, List.mem_of_find?_eq_some hr, by simpa using List.find?_some hr, hparent⟩

/-- Where the causes that are stored are stored before their effects. -/
theorem acyclic_of_earlier (h : ∀ r ∈ db.events, ∀ c ∈ r.causationId, c ∈ db.events.map (·.id) →
    (db.events.map (·.id)).idxOf c < (db.events.map (·.id)).idxOf r.id) : db.Acyclic := by
  -- a cause that is not stored comes before all of them
  refine Kinship.acyclic_of_rank (fun id => if id ∈ db.events.map (·.id) then
    (db.events.map (·.id)).idxOf id + 1 else 0) fun x y hxy => ?_
  obtain ⟨r, hr, rfl, hparent⟩ := exists_of_parentId hxy
  rw [if_pos (List.mem_map_of_mem hr)]
  split
  · rename_i hstored
    exact Nat.succ_lt_succ (h r hr y hparent hstored)
  · exact Nat.succ_pos _

theorem mem_childIds_iff {r : EventRow} (hdistinct : (db.events.map (·.id)).Nodup)
    (hr : r ∈ db.events) :
    (r.causationId.any fun c => c ∈ frontier) = true ↔
      ∃ x ∈ frontier, Down (parentId db) x r.id := by
  simp only [Down, parentId_of_mem hdistinct hr]
  cases r.causationId with
  | none => simp
  | some c => simp

theorem mem_parentIds_iff {id : EventId} (hdistinct : (db.events.map (·.id)).Nodup) :
    id ∈ parentIds db frontier ↔ ∃ x ∈ frontier, Up (parentId db) x id := by
  rw [parentIds, List.mem_filterMap]
  constructor
  · rintro ⟨e, he, hparent⟩
    obtain ⟨he, hfrontier⟩ := List.mem_filter.mp he
    exact ⟨e.id, of_decide_eq_true hfrontier, (parentId_of_mem hdistinct he).trans hparent⟩
  · rintro ⟨x, hx, hup⟩
    obtain ⟨e, he, rfl, hparent⟩ := exists_of_parentId hup
    exact ⟨e, List.mem_filter.mpr ⟨he, decide_eq_true hx⟩, hparent⟩

/-! ### Frontiers -/

@[simp] theorem mem_orderById {r : EventRow} : r ∈ orderById rows ↔ r ∈ rows := mem_sortBy

theorem nodup_orderById (h : (rows.map (·.id)).Nodup) : ((orderById rows).map (·.id)).Nodup :=
  ((sortBy_perm (fun r : EventRow => byteOrder r.id.bytes) rows).map _).nodup_iff.mpr h

theorem bindFrontier_eq_ok (h : bindFrontier frontier results = .ok rows) :
    frontier = [] ∧ rows = [] ∨ frontier.length ≤ MAX_VARIABLES ∧ rows = orderById results := by
  rw [bindFrontier] at h
  split at h
  · rename_i hempty
    exact .inl ⟨List.isEmpty_iff.mp hempty, (Except.ok.inj h).symm⟩
  · split at h
    · exact absurd h (by simp)
    · exact .inr ⟨by omega, (Except.ok.inj h).symm⟩

theorem mem_bindFrontier {p : EventRow → Bool} {adj : EventId → EventId → Prop}
    (hp : ∀ r ∈ db.events, p r = true ↔ ∃ x ∈ frontier, adj x r.id)
    (h : bindFrontier frontier (db.events.filter p) = .ok rows) (r : EventRow) :
    r ∈ rows ↔ r ∈ db.events ∧ ∃ x ∈ frontier, adj x r.id := by
  rcases bindFrontier_eq_ok h with ⟨rfl, rfl⟩ | ⟨-, rfl⟩
  · simp
  · rw [mem_orderById, List.mem_filter]
    exact and_congr_right fun hr => hp r hr

theorem nodup_bindFrontier {p : EventRow → Bool} (hdistinct : (db.events.map (·.id)).Nodup)
    (h : bindFrontier frontier (db.events.filter p) = .ok rows) :
    (rows.map (·.id)).Nodup := by
  rcases bindFrontier_eq_ok h with ⟨-, rfl⟩ | ⟨-, rfl⟩
  · exact List.nodup_nil
  · exact nodup_orderById (hdistinct.sublist (List.filter_sublist.map _))

theorem mem_bfsExpandForward (hdistinct : (db.events.map (·.id)).Nodup)
    (h : bfsExpandForward db frontier = .ok rows) (r : EventRow) :
    r ∈ rows ↔ r ∈ db.events ∧ ∃ x ∈ frontier, Down (parentId db) x r.id :=
  mem_bindFrontier (fun _ hr => mem_childIds_iff hdistinct hr) h r

theorem mem_bfsExpandBackward (hdistinct : (db.events.map (·.id)).Nodup)
    (h : bfsExpandBackward db frontier = .ok rows) (r : EventRow) :
    r ∈ rows ↔ r ∈ db.events ∧ ∃ x ∈ frontier, Up (parentId db) x r.id := by
  refine mem_bindFrontier (fun r _ => ?_) h r
  rw [decide_eq_true_iff]
  exact mem_parentIds_iff hdistinct

theorem mem_mergeById {a b : List EventRow} (hdistinct : (db.events.map (·.id)).Nodup)
    (ha : ∀ r ∈ a, r ∈ db.events) (hb : ∀ r ∈ b, r ∈ db.events) {r : EventRow} :
    r ∈ mergeById a b ↔ r ∈ a ∨ r ∈ b := by
  rw [mergeById, List.mem_append, List.mem_filter]
  constructor
  · exact fun h => h.imp_right And.left
  · rintro (h | h)
    · exact .inl h
    · by_cases hid : r.id ∈ a.map (·.id)
      · obtain ⟨e, he, heq⟩ := List.mem_map.mp hid
        rw [List.inj_on_of_nodup_map hdistinct (ha e he) (hb r h) heq] at he
        exact .inl he
      · exact .inr ⟨h, decide_eq_true hid⟩

theorem nodup_mergeById {a b : List EventRow} (ha : (a.map (·.id)).Nodup)
    (hb : (b.map (·.id)).Nodup) : ((mergeById a b).map (·.id)).Nodup := by
  rw [mergeById, List.map_append]
  refine List.nodup_append.mpr ⟨ha, hb.sublist (List.filter_sublist.map _), ?_⟩
  intro x hx y hy hxy
  obtain ⟨r, hr, rfl⟩ := List.mem_map.mp hy
  exact of_decide_eq_true (List.mem_filter.mp hr).2 (hxy ▸ hx)

theorem expandFrontier_both (h : expandFrontier db .both frontier = .ok rows) :
    ∃ fwd bwd, bfsExpandForward db frontier = .ok fwd ∧ bfsExpandBackward db frontier = .ok bwd ∧
      rows = orderById (mergeById fwd bwd) := by
  obtain ⟨fwd, hfwd, h⟩ := bind_eq_ok.mp h
  obtain ⟨bwd, hbwd, h⟩ := bind_eq_ok.mp h
  exact ⟨fwd, bwd, hfwd, hbwd, (Except.ok.inj h).symm⟩

/-- **Expansion**: the stored neighbours of the frontier. -/
theorem mem_expandFrontier (hdistinct : (db.events.map (·.id)).Nodup)
    (h : expandFrontier db direction frontier = .ok rows) (r : EventRow) :
    r ∈ rows ↔ r ∈ db.events ∧ ∃ x ∈ frontier, adjacent db direction x r.id := by
  cases direction with
  | forward => exact mem_bfsExpandForward hdistinct h r
  | backward => exact mem_bfsExpandBackward hdistinct h r
  | both =>
    obtain ⟨fwd, bwd, hfwd, hbwd, rfl⟩ := expandFrontier_both h
    have hmem := mem_bfsExpandForward hdistinct hfwd
    have hmem' := mem_bfsExpandBackward hdistinct hbwd
    rw [mem_orderById, mem_mergeById hdistinct (fun r hr => ((hmem r).mp hr).1)
      (fun r hr => ((hmem' r).mp hr).1), hmem, hmem', ← and_or_left, ← exists_or]
    refine and_congr_right fun _ => exists_congr fun x => ?_
    exact and_or_left.symm

theorem nodup_expandFrontier (hdistinct : (db.events.map (·.id)).Nodup)
    (h : expandFrontier db direction frontier = .ok rows) : (rows.map (·.id)).Nodup := by
  cases direction with
  | forward => exact nodup_bindFrontier hdistinct h
  | backward => exact nodup_bindFrontier hdistinct h
  | both =>
    obtain ⟨fwd, bwd, hfwd, hbwd, rfl⟩ := expandFrontier_both h
    exact nodup_orderById (nodup_mergeById (nodup_bindFrontier hdistinct hfwd)
      (nodup_bindFrontier hdistinct hbwd))

/-! ### Levels -/

theorem expandFrontier_nil : expandFrontier db direction [] = .ok [] := by
  cases direction <;> rfl

/-- The bounded walk as a walk by levels. -/
def levelWalk (db : Db) (direction : WalkDirection) (maxDepth : ℕ) (sampling : SamplingMode) :
    Walk EventRow EventId Error where
  key r := r.id
  expand := expandFrontier db direction
  cap := sampling.maxPerLevel maxDepth

theorem levelWalk_follows (hdistinct : (db.events.map (·.id)).Nodup) :
    (levelWalk db direction maxDepth sampling).Follows (adjacent db direction) :=
  fun _ _ hexpand a ha => ((mem_expandFrontier hdistinct hexpand a).mp ha).2

theorem applyBfsSampling_eq : applyBfsSampling rows sampling maxDepth =
    sample (sampling.maxPerLevel maxDepth) rows := by
  rw [applyBfsSampling, sample]
  cases sampling.maxPerLevel maxDepth <;> rfl

/-- Where the loop stops before a level. -/
def stopsAt (budget : Budget) (results level : List EventRow) (byteCount : ℕ) : Bool :=
  (wouldExceedCount budget results level || wouldExceedBytes budget byteCount level)
    && !results.isEmpty

/-- A round of the loop, in terms of the next level. -/
theorem causationLoop_succ :
    causationLoop db direction maxDepth sampling budget (rounds + 1) depth frontier seen results
        byteCount =
      match (levelWalk db direction maxDepth sampling).next seen frontier with
      | .error e => .error e
      | .ok level =>
        if level.isEmpty then .ok (.complete (results.map rowToEvent))
        else if stopsAt budget results level byteCount then
          .ok (.truncated (results.map rowToEvent)
            (some (.causation frontier direction.byte (UInt32.ofNat (depth - 1))))
            (if wouldExceedCount budget results level then .resultCount else .byteSize))
        else causationLoop db direction maxDepth sampling budget rounds (depth + 1)
          (level.map (·.id)) (seen ++ level.map (·.id)) (results ++ level)
          (byteCount + payloadBytes level) := by
  rw [causationLoop]
  split
  -- the source leaves an empty frontier before it is expanded; expanding it finds nothing
  · rename_i hempty
    obtain rfl := List.isEmpty_iff.mp hempty
    have hnext : (levelWalk db direction maxDepth sampling).next seen [] = .ok [] := by
      rw [next_of_expand (w := levelWalk db direction maxDepth sampling) expandFrontier_nil]
      exact congrArg Except.ok (List.sublist_nil.mp sample_sublist)
    rw [hnext]
    rfl
  · rcases hexpand : expandFrontier db direction frontier with e | expanded
    · rw [next_of_error (w := levelWalk db direction maxDepth sampling) hexpand]
      rfl
    · rw [next_of_expand (w := levelWalk db direction maxDepth sampling) hexpand]
      dsimp only
      show (if (applyBfsSampling _ _ _).isEmpty then _ else _) = _
      rw [applyBfsSampling_eq]
      rfl

theorem causationLoop_zero : causationLoop db direction maxDepth sampling budget 0 depth frontier
    seen results byteCount = .ok (.complete (results.map rowToEvent)) := rfl

theorem causationLoop_of_nil
    (h : (levelWalk db direction maxDepth sampling).next seen frontier = .ok []) :
    causationLoop db direction maxDepth sampling budget (rounds + 1) depth frontier seen results
      byteCount = .ok (.complete (results.map rowToEvent)) := by
  rw [causationLoop_succ, h]
  rfl

theorem causationLoop_of_error {e : Error}
    (h : (levelWalk db direction maxDepth sampling).next seen frontier = .error e) :
    causationLoop db direction maxDepth sampling budget (rounds + 1) depth frontier seen results
      byteCount = .error e := by
  rw [causationLoop_succ, h]

theorem causationLoop_stop
    (h : (levelWalk db direction maxDepth sampling).next seen frontier = .ok level)
    (hne : level ≠ []) (hstop : stopsAt budget results level byteCount = true) :
    causationLoop db direction maxDepth sampling budget (rounds + 1) depth frontier seen results
      byteCount = .ok (.truncated (results.map rowToEvent)
        (some (.causation frontier direction.byte (UInt32.ofNat (depth - 1))))
        (if wouldExceedCount budget results level then .resultCount else .byteSize)) := by
  rw [causationLoop_succ, h]
  dsimp only
  rw [if_neg (mt List.isEmpty_iff.mp hne), if_pos hstop]

theorem causationLoop_go
    (h : (levelWalk db direction maxDepth sampling).next seen frontier = .ok level)
    (hne : level ≠ []) (hgo : stopsAt budget results level byteCount = false) :
    causationLoop db direction maxDepth sampling budget (rounds + 1) depth frontier seen results
      byteCount = causationLoop db direction maxDepth sampling budget rounds (depth + 1)
        (level.map (·.id)) (seen ++ level.map (·.id)) (results ++ level)
        (byteCount + payloadBytes level) := by
  rw [causationLoop_succ, h]
  dsimp only
  rw [if_neg (mt List.isEmpty_iff.mp hne), if_neg (Bool.eq_false_iff.mp hgo)]

/-! ### Calls -/

theorem stopsAt_nil : stopsAt budget [] level byteCount = false := Bool.and_false _

/-- The cursor after a page. -/
def cursorAfter (db : Db) (direction : WalkDirection) (maxDepth : ℕ) (sampling : SamplingMode)
    (frontier : List EventId) (page : List (List EventRow)) (depth : ℕ) : CursorInner :=
  .causation ((levelWalk db direction maxDepth sampling).front frontier page) direction.byte
    (UInt32.ofNat (depth + page.length - 1))

/-- The levels that a call takes of those that it finds, and the ones that it leaves. -/
def takeLevels (budget : Budget) : (results : List EventRow) → (byteCount : ℕ) →
    List (List EventRow) → List (List EventRow) × List (List EventRow)
  | _, _, [] => ([], [])
  | results, byteCount, level :: ls =>
    if stopsAt budget results level byteCount then ([], level :: ls)
    else
      let taken := takeLevels budget (results ++ level) (byteCount + payloadBytes level) ls
      (level :: taken.1, taken.2)

theorem takeLevels_append (h : takeLevels budget results byteCount ls = (page, rest)) :
    ls = page ++ rest := by
  induction ls generalizing results byteCount page with
  | nil =>
    obtain ⟨rfl, rfl⟩ := Prod.mk.inj h
    rfl
  | cons level ls ih =>
    rw [takeLevels] at h
    split at h
    · obtain ⟨rfl, rfl⟩ := Prod.mk.inj h
      rfl
    · obtain ⟨rfl, rfl⟩ := Prod.mk.inj h
      exact congrArg (level :: ·) (ih rfl)

/-- The first level is always taken. -/
theorem takeLevels_first (h : takeLevels budget [] byteCount (level :: ls) = (page, rest)) :
    ∃ more, page = level :: more := by
  rw [takeLevels, stopsAt_nil] at h
  exact ⟨_, (Prod.mk.inj h).1.symm⟩

theorem takeLevels_ne_nil (h : takeLevels budget [] byteCount ls = (page, rest)) (hne : ls ≠ []) :
    page ≠ [] := by
  obtain ⟨level, ls, rfl⟩ := List.exists_cons_of_ne_nil hne
  obtain ⟨more, rfl⟩ := takeLevels_first h
  exact List.cons_ne_nil _ _

/-- Without a budget all of them are. -/
theorem takeLevels_unlimited : takeLevels ⟨none, none⟩ results byteCount ls = (ls, []) := by
  induction ls generalizing results byteCount with
  | nil => rfl
  | cons level ls ih =>
    have hgo : stopsAt ⟨none, none⟩ results level byteCount = false := rfl
    rw [takeLevels, hgo, ih]
    rfl

/-- **A call**: it returns the levels that it takes of those that it finds, and a cursor
unless it leaves none. -/
theorem causationLoop_spec
    (h : takeLevels budget results byteCount
      ((levelWalk db direction maxDepth sampling).found rounds seen frontier) = (page, rest)) :
    (rest = [] → causationLoop db direction maxDepth sampling budget rounds depth frontier seen
        results byteCount = ((levelWalk db direction maxDepth sampling).levels rounds seen
          frontier).map fun _ => .complete ((results ++ page.flatten).map rowToEvent)) ∧
      (rest ≠ [] → ∃ reason, causationLoop db direction maxDepth sampling budget rounds depth
        frontier seen results byteCount = .ok (.truncated ((results ++ page.flatten).map rowToEvent)
          (some (cursorAfter db direction maxDepth sampling frontier page depth)) reason)) := by
  induction rounds generalizing depth frontier seen results byteCount page with
  | zero =>
    obtain ⟨rfl, rfl⟩ := Prod.mk.inj h
    refine ⟨fun _ => ?_, fun hrest => absurd rfl hrest⟩
    rw [causationLoop_zero, levels_zero, List.flatten_nil, List.append_nil]
    rfl
  | succ rounds ih =>
    rcases hnext : (levelWalk db direction maxDepth sampling).next seen frontier with e | level
    · rw [found_of_error hnext] at h
      obtain ⟨rfl, rfl⟩ := Prod.mk.inj h
      refine ⟨fun _ => ?_, fun hrest => absurd rfl hrest⟩
      rw [causationLoop_of_error hnext, levels_of_error hnext]
      rfl
    by_cases hne : level = []
    · subst hne
      rw [found_of_nil hnext] at h
      obtain ⟨rfl, rfl⟩ := Prod.mk.inj h
      refine ⟨fun _ => ?_, fun hrest => absurd rfl hrest⟩
      rw [causationLoop_of_nil hnext, levels_of_nil hnext, List.flatten_nil, List.append_nil]
      rfl
    rw [found_of_level hnext hne, takeLevels] at h
    rcases hstop : stopsAt budget results level byteCount with _ | _
    · -- the level is taken, and the others as the rest of the call takes them
      rw [hstop] at h
      obtain ⟨rfl, rfl⟩ := Prod.mk.inj h
      obtain ⟨hcomplete, htruncated⟩ := @ih (level.map (·.id)) (seen ++ level.map (·.id))
        (results ++ level) _ (depth + 1) (byteCount + payloadBytes level) rfl
      rw [causationLoop_go hnext hne hstop, levels_of_level hnext hne, List.flatten_cons,
        ← List.append_assoc, cursorAfter, List.length_cons, ← Nat.add_assoc, Nat.add_right_comm]
      refine ⟨fun hrest => ?_, htruncated⟩
      rw [hcomplete hrest]
      show _ = (((levelWalk db direction maxDepth sampling).levels rounds (seen ++ level.map (·.id))
        (level.map (·.id))).map _).map _
      cases (levelWalk db direction maxDepth sampling).levels rounds (seen ++ level.map (·.id))
        (level.map (·.id)) <;> rfl
    · rw [hstop] at h
      obtain ⟨rfl, rfl⟩ := Prod.mk.inj h
      refine ⟨fun hrest => absurd hrest (List.cons_ne_nil _ _), fun _ => ?_⟩
      rw [List.flatten_nil, List.append_nil]
      exact ⟨_, causationLoop_stop hnext hne hstop⟩

/-- **A truncated call** has a page of the levels that it finds, and leaves one at least. -/
theorem causationLoop_truncated {data : List StoredEvent} {cursor : Option CursorInner}
    {reason : TruncationReason}
    (h : causationLoop db direction maxDepth sampling budget rounds depth frontier seen results
      byteCount = .ok (.truncated data cursor reason)) :
    ∃ page rest, takeLevels budget results byteCount
        ((levelWalk db direction maxDepth sampling).found rounds seen frontier) = (page, rest) ∧
      rest ≠ [] ∧ data = (results ++ page.flatten).map rowToEvent ∧
      cursor = some (cursorAfter db direction maxDepth sampling frontier page depth) := by
  obtain ⟨hcomplete, htruncated⟩ := @causationLoop_spec db direction sampling maxDepth frontier seen
    results _ _ budget rounds depth byteCount rfl
  by_cases hrest : (takeLevels budget results byteCount
      ((levelWalk db direction maxDepth sampling).found rounds seen frontier)).2 = []
  · rw [hcomplete hrest] at h
    obtain ⟨ls, -, hls⟩ := map_eq_ok.mp h
    exact absurd hls (by simp)
  · obtain ⟨reason', hcall⟩ := htruncated hrest
    obtain ⟨rfl, rfl, -⟩ := ReadOutcome.truncated.inj (Except.ok.inj (hcall.symm.trans h))
    exact ⟨_, _, rfl, hrest, rfl, rfl⟩

end Fossic
