/-
The bounded causation walk against the unbounded one.

* `mem_walkCausationImpl` — the unbounded walk returns the descendants, the ancestors,
  or both (`Related`), up to its depth;
* `reachedAt_iff` — so does the bounded one, unless it goes both ways and an
  ancestor within reach has another child (`SideBranch`);
* `walks_agree_iff` — the two agree if and only if there is no such side branch and no
  level on the way has more events than SQLite binds parameters.
-/
import Fossic.CausationPages
import Fossic.LevelReach

namespace Fossic

open Paging KeySort LevelWalk ForestWalk Kinship Transition

variable {registry : UpcasterRegistry} {fuel : ℕ} {db : Db} {start id : EventId}
  {direction : WalkDirection} {maxDepth rounds depth k : ℕ} {ids : List EventId}
  {found : List (EventId × ℕ)} {step : List EventId → List EventId}
  {data : List StoredEvent} {ls : List (List EventRow)}

/-! ### What the walks are about -/

/-- `id` is the `k`-th descendant or ancestor of the start, or either. -/
def Related (db : Db) (start : EventId) : WalkDirection → ℕ → EventId → Prop
  | .forward, k, id => DownGrade (parentId db) start id k
  | .backward, k, id => UpGrade (parentId db) start id k
  | .both, k, id => DownGrade (parentId db) start id k ∨ UpGrade (parentId db) start id k

instance : Decidable (Related db start direction k id) :=
  match direction with
  | .forward => inferInstanceAs (Decidable (up (parentId db) k id = some start))
  | .backward => inferInstanceAs (Decidable (up (parentId db) k start = some id))
  | .both => inferInstanceAs (Decidable
      (up (parentId db) k id = some start ∨ up (parentId db) k start = some id))

/-- The events at distance `k`. -/
def generation (db : Db) (start : EventId) (direction : WalkDirection) (k : ℕ) : List EventRow :=
  db.events.filter fun r => Related db start direction k r.id

/-- A stored ancestor of the start, less than `max_depth` away, has a child that is not
on the way from the start. -/
def SideBranch (db : Db) (start : EventId) (maxDepth : ℕ) : Prop :=
  ∃ i, i + 1 < maxDepth ∧ ∃ a ∈ db.events, up (parentId db) (i + 1) start = some a.id ∧
    ∃ r ∈ db.events, r.causationId = some a.id ∧ up (parentId db) i start ≠ some r.id

/-! ### The unbounded walk -/

/-- The ids that the rounds of a recursive query find. -/
def nextIds (step : List EventId → List EventId) : ℕ → List EventId → List EventId
  | 0, ids => ids
  | k + 1, ids => nextIds step k (step ids).dedup

theorem nextIds_nil (hstep : step [] = []) : nextIds step k [] = [] := by
  induction k with
  | zero => rfl
  | succ k ih =>
    rw [nextIds, hstep]
    exact ih

theorem mem_recursiveRows (hstep : step [] = []) {p : EventId × ℕ} :
    p ∈ recursiveRows step rounds depth ids ↔
      ∃ k < rounds, p.2 = depth + k ∧ p.1 ∈ nextIds step k ids := by
  induction rounds generalizing depth ids with
  | zero => exact ⟨fun h => absurd h List.not_mem_nil, fun ⟨k, hk, _⟩ => absurd hk k.not_lt_zero⟩
  | succ rounds ih =>
    rw [recursiveRows]
    split
    · rename_i hempty
      obtain rfl := List.isEmpty_iff.mp hempty
      refine ⟨fun h => absurd h List.not_mem_nil, ?_⟩
      rintro ⟨k, -, -, hk⟩
      rw [nextIds_nil hstep] at hk
      exact absurd hk List.not_mem_nil
    · rw [List.mem_append, ih, List.mem_map]
      constructor
      · rintro (⟨x, hx, rfl⟩ | ⟨k, hk, hdepth, hmem⟩)
        · exact ⟨0, rounds.succ_pos, rfl, hx⟩
        · exact ⟨k + 1, Nat.succ_lt_succ hk, by omega, hmem⟩
      · rintro ⟨k, hk, hdepth, hmem⟩
        cases k with
        | zero => exact .inl ⟨p.1, hmem, Prod.ext rfl hdepth.symm⟩
        | succ k => exact .inr ⟨k, Nat.lt_of_succ_lt_succ hk, by omega, hmem⟩

theorem mem_joinDepths {r : EventRow} :
    r ∈ joinDepths db found ↔ r ∈ db.events ∧ ∃ d, (r.id, d) ∈ found := by
  rw [joinDepths]
  simp only [List.mem_map, mem_sortBy, List.mem_filterMap, Option.map_eq_some_iff]
  constructor
  · rintro ⟨p, ⟨e, he, d, hmin, rfl⟩, rfl⟩
    obtain ⟨q, hq, rfl⟩ := List.mem_map.mp (List.min?_mem hmin)
    obtain ⟨hq, hid⟩ := List.mem_filter.mp hq
    exact ⟨he, q.2, of_decide_eq_true hid ▸ hq⟩
  · rintro ⟨hr, d, hd⟩
    have hne : (found.filter fun p => p.1 = r.id).map (·.2) ≠ [] :=
      List.ne_nil_of_mem (List.mem_map_of_mem (List.mem_filter.mpr ⟨hd, decide_eq_true rfl⟩))
    obtain ⟨m, hm⟩ := Option.isSome_iff_exists.mp (List.isSome_min?_of_ne_nil hne)
    exact ⟨(r, m), ⟨r, hr, m, hm, rfl⟩, rfl⟩

theorem mem_childIds (hdistinct : (db.events.map (·.id)).Nodup) :
    id ∈ childIds db ids ↔ id ∈ db.events.map (·.id) ∧ ∃ x ∈ ids, parentId db id = some x := by
  rw [childIds, List.mem_map, List.mem_map]
  constructor
  · rintro ⟨r, hr, rfl⟩
    obtain ⟨hr, hcause⟩ := List.mem_filter.mp hr
    exact ⟨⟨r, hr, rfl⟩, (mem_childIds_iff hdistinct hr).mp hcause⟩
  · rintro ⟨⟨r, hr, rfl⟩, hparent⟩
    exact ⟨r, List.mem_filter.mpr ⟨hr, (mem_childIds_iff hdistinct hr).mpr hparent⟩, rfl⟩

theorem stored_of_up {n : ℕ} {x y : EventId} (h : up (parentId db) (n + 1) x = some y) :
    x ∈ db.events.map (·.id) := by
  obtain ⟨z, hz, -⟩ := exists_parent h
  obtain ⟨r, hr, rfl, -⟩ := exists_of_parentId hz
  exact List.mem_map_of_mem hr

/-- What the rounds of the forward query find, by generations. -/
theorem mem_nextIds_childIds (hdistinct : (db.events.map (·.id)).Nodup) {n : ℕ}
    (hids : ∀ x, x ∈ ids ↔ DownGrade (parentId db) start x (n + 1)) :
    id ∈ nextIds (childIds db) k ids ↔ DownGrade (parentId db) start id (n + 1 + k) := by
  induction k generalizing ids n with
  | zero => exact hids id
  | succ k ih =>
    rw [nextIds, Nat.add_comm k, ← Nat.add_assoc]
    refine ih fun x => ?_
    rw [List.mem_dedup, mem_childIds hdistinct]
    constructor
    · rintro ⟨-, y, hy, hxy⟩
      exact downGrade_step ((hids y).mp hy) hxy
    · intro hx
      obtain ⟨y, hxy, hy⟩ := exists_parent hx
      exact ⟨stored_of_up hx, y, (hids y).mpr hy, hxy⟩

theorem mem_nextIds_parentIds (hdistinct : (db.events.map (·.id)).Nodup) {n : ℕ}
    (hids : ∀ x, x ∈ ids ↔ UpGrade (parentId db) start x n) :
    id ∈ nextIds (parentIds db) k ids ↔ UpGrade (parentId db) start id (n + k) := by
  induction k generalizing ids n with
  | zero => exact hids id
  | succ k ih =>
    rw [nextIds, Nat.add_comm k, ← Nat.add_assoc]
    refine ih fun x => ?_
    rw [List.mem_dedup, mem_parentIds_iff hdistinct]
    constructor
    · rintro ⟨y, hy, hyx⟩
      exact upGrade_step ((hids y).mp hy) hyx
    · intro hx
      obtain ⟨y, hy⟩ : ∃ y, up (parentId db) n start = some y := by
        rw [UpGrade, up_add] at hx
        obtain ⟨y, hy, -⟩ := Option.bind_eq_some_iff.mp hx
        exact ⟨y, hy⟩
      exact ⟨y, (hids y).mpr hy, (up_step hy).symm.trans hx⟩

/-- The events of a recursive query that finds `P k` in its round `k`. -/
theorem mem_joined (hdepth : maxDepth < 2 ^ 63) (hstep : step [] = []) {P : ℕ → EventId → Prop}
    (hnext : ∀ k id, id ∈ nextIds step k ids ↔ P (1 + k) id) {r : EventRow} :
    r ∈ (if maxDepth = 0 then []
        else joinDepths db (recursiveRows step (depthBound maxDepth) 1 ids)) ↔
      r ∈ db.events ∧ ∃ k, 0 < k ∧ k ≤ maxDepth ∧ P k r.id := by
  have hbound : depthBound maxDepth = maxDepth := by
    rw [depthBound]
    omega
  split
  · refine ⟨fun h => absurd h List.not_mem_nil, ?_⟩
    rintro ⟨-, k, hpos, hle, -⟩
    omega
  · rw [mem_joinDepths, hbound]
    refine and_congr_right fun _ => ?_
    simp only [mem_recursiveRows hstep, hnext]
    constructor
    · rintro ⟨d, k, hk, -, hP⟩
      exact ⟨1 + k, by omega, by omega, hP⟩
    · rintro ⟨k, hpos, hle, hP⟩
      refine ⟨k, k - 1, by omega, by omega, ?_⟩
      rw [show 1 + (k - 1) = k by omega]
      exact hP

/-- The rounds of the forward query find the generations. -/
theorem forward_rounds (hdistinct : (db.events.map (·.id)).Nodup) (k : ℕ) (id : EventId) :
    id ∈ nextIds (childIds db) k (childIds db [start]).dedup ↔
      Related db start .forward (1 + k) id := by
  have hids : ∀ x, x ∈ (childIds db [start]).dedup ↔ DownGrade (parentId db) start x (0 + 1) := by
    intro x
    rw [List.mem_dedup, mem_childIds hdistinct]
    constructor
    · rintro ⟨-, y, hy, hxy⟩
      rw [← List.mem_singleton.mp hy]
      exact up_succ hxy
    · intro hx
      obtain ⟨y, hxy, hy⟩ := exists_parent hx
      exact ⟨stored_of_up hx, y, List.mem_singleton.mpr (Option.some_inj.mp hy), hxy⟩
  exact mem_nextIds_childIds hdistinct hids

theorem backward_rounds (hdistinct : (db.events.map (·.id)).Nodup) (k : ℕ) (id : EventId) :
    id ∈ nextIds (parentIds db) k (parentIds db [start]).dedup ↔
      Related db start .backward (1 + k) id := by
  have hids : ∀ x, x ∈ (parentIds db [start]).dedup ↔ UpGrade (parentId db) start x 1 := by
    intro x
    rw [List.mem_dedup, mem_parentIds_iff hdistinct]
    constructor
    · rintro ⟨y, hy, hyx⟩
      rw [List.mem_singleton.mp hy] at hyx
      exact up_succ hyx
    · intro hx
      obtain ⟨y, hy, hyx⟩ := exists_parent hx
      exact ⟨start, List.mem_singleton_self start, hy.trans hyx⟩
  exact mem_nextIds_parentIds hdistinct hids

theorem mem_walkForward (hdistinct : (db.events.map (·.id)).Nodup) (hdepth : maxDepth < 2 ^ 63)
    {r : EventRow} : r ∈ walkForward db start maxDepth ↔
      r ∈ db.events ∧ ∃ k, 0 < k ∧ k ≤ maxDepth ∧ Related db start .forward k r.id :=
  mem_joined hdepth (by simp [childIds]) (forward_rounds hdistinct)

theorem mem_walkBackward (hdistinct : (db.events.map (·.id)).Nodup) (hdepth : maxDepth < 2 ^ 63)
    {r : EventRow} : r ∈ walkBackward db start maxDepth ↔
      r ∈ db.events ∧ ∃ k, 0 < k ∧ k ≤ maxDepth ∧ Related db start .backward k r.id :=
  mem_joined hdepth (by simp [parentIds]) (backward_rounds hdistinct)

/-- **The unbounded walk** returns the related events up to its depth. -/
theorem mem_walkCausationImpl (hdistinct : (db.events.map (·.id)).Nodup)
    (hdepth : maxDepth < 2 ^ 63) {r : EventRow} :
    r ∈ walkCausationImpl db start direction maxDepth ↔
      r ∈ db.events ∧ ∃ k, 0 < k ∧ k ≤ maxDepth ∧ Related db start direction k r.id := by
  cases direction with
  | forward => exact mem_walkForward hdistinct hdepth
  | backward => exact mem_walkBackward hdistinct hdepth
  | both =>
    rw [walkCausationImpl, mem_mergeById hdistinct
      (fun r hr => ((mem_walkForward hdistinct hdepth).mp hr).1)
      (fun r hr => ((mem_walkBackward hdistinct hdepth).mp hr).1),
      mem_walkForward hdistinct hdepth, mem_walkBackward hdistinct hdepth, ← and_or_left,
      ← exists_or]
    refine and_congr_right fun _ => exists_congr fun k => ?_
    rw [← and_or_left, ← and_or_left]
    rfl

/-! ### The bounded walk -/

/-- `id` is stored, `k` steps from the start, at the end of a way along stored events. -/
def ReachedAt (db : Db) (start : EventId) (direction : WalkDirection) (k : ℕ) (id : EventId) :
    Prop :=
  Reach (adjacent db direction) (gradeOf db start direction) (· ∈ db.events.map (·.id)) start k id

section Reach

variable {adj : EventId → EventId → Prop} {grade : EventId → ℕ → Prop}

/-- Descendants are reached from parent to child. -/
theorem reach_of_down (hadj : ∀ x y, Down (parentId db) x y → adj x y)
    (hgrade : ∀ x n, DownGrade (parentId db) start x n → grade x n)
    (h : DownGrade (parentId db) start id k) (hstored : k ≠ 0 → id ∈ db.events.map (·.id)) :
    Reach adj grade (· ∈ db.events.map (·.id)) start k id := by
  induction k generalizing id with
  | zero => exact Option.some_inj.mp h
  | succ k ih =>
    obtain ⟨y, hxy, hy⟩ := exists_parent h
    refine ⟨hstored k.succ_ne_zero, hgrade _ _ h, y, ih hy fun hk => ?_, hadj _ _ hxy⟩
    obtain ⟨k, rfl⟩ := Nat.exists_eq_succ_of_ne_zero hk
    exact stored_of_up hy

/-- Ancestors are reached from child to parent. -/
theorem reach_of_up (hadj : ∀ x y, Up (parentId db) x y → adj x y)
    (hgrade : ∀ x n, UpGrade (parentId db) start x n → grade x n)
    (h : UpGrade (parentId db) start id k) (hstored : k ≠ 0 → id ∈ db.events.map (·.id)) :
    Reach adj grade (· ∈ db.events.map (·.id)) start k id := by
  induction k generalizing id with
  | zero => exact (Option.some_inj.mp h).symm
  | succ k ih =>
    obtain ⟨y, hy⟩ : ∃ y, up (parentId db) k start = some y := by
      rw [UpGrade, up_add] at h
      obtain ⟨y, hy, -⟩ := Option.bind_eq_some_iff.mp h
      exact ⟨y, hy⟩
    have hyx : parentId db y = some id := (up_step hy).symm.trans h
    refine ⟨hstored k.succ_ne_zero, hgrade _ _ h, y, ih hy fun _ => ?_, hadj _ _ hyx⟩
    obtain ⟨r, hr, rfl, -⟩ := exists_of_parentId hyx
    exact List.mem_map_of_mem hr

end Reach

theorem reachedAt_of_related (h : Related db start direction k id)
    (hstored : id ∈ db.events.map (·.id)) : ReachedAt db start direction k id := by
  cases direction with
  | forward => exact reach_of_down (fun _ _ h => h) (fun _ _ h => h) h fun _ => hstored
  | backward => exact reach_of_up (fun _ _ h => h) (fun _ _ h => h) h fun _ => hstored
  | both =>
    rcases h with hdown | hup
    · exact reach_of_down (fun _ _ h => .inl h)
        (fun _ n h => ⟨0, n, Nat.zero_add n, kin_of_down h⟩) hdown fun _ => hstored
    · exact reach_of_up (fun _ _ h => .inr h)
        (fun _ n h => ⟨n, 0, Nat.add_zero n, kin_of_up h⟩) hup fun _ => hstored

/-- A way that does not turn back goes straight down, straight up, or down a side
branch. -/
theorem related_of_reachedAt (hacyclic : db.Acyclic)
    (hside : direction = .both → ¬SideBranch db start maxDepth) (hk : k ≤ maxDepth)
    (h : ReachedAt db start direction k id) : Related db start direction k id := by
  cases direction with
  | forward =>
    cases k with
    | zero => exact congrArg some h
    | succ k => exact h.2.1
  | backward =>
    cases k with
    | zero => exact congrArg some h.symm
    | succ k => exact h.2.1
  | both =>
    induction k generalizing id with
    | zero => exact .inl (congrArg some h)
    | succ k ih =>
      obtain ⟨hstored, hgrade, y, hy, hyx⟩ := h
      have hgraded : ∀ {n}, EitherGrade (parentId db) start id n → k + 1 = n :=
        fun hn => eitherGrade_unique hacyclic hgrade hn
      rcases ih (by omega) hy with hdown | hup
      · rcases hyx with hchild | hparent
        · exact .inl (downGrade_step hdown hchild)
        · -- back up, or up from the start
          cases k with
          | zero =>
            obtain rfl := Option.some_inj.mp hdown
            exact .inr (up_succ hparent)
          | succ k =>
            have hback : DownGrade (parentId db) start id k := (up_succ hparent).symm.trans hdown
            have := hgraded ⟨0, k, Nat.zero_add k, kin_of_down hback⟩
            omega
      · rcases hyx with hchild | hparent
        · cases k with
          | zero =>
            obtain rfl := Option.some_inj.mp hup
            exact .inl (up_succ hchild)
          | succ k =>
            -- down again from an ancestor: the way back or a side branch
            by_cases hback : up (parentId db) k start = some id
            · have := hgraded ⟨k, 0, Nat.add_zero k, kin_of_up hback⟩
              omega
            · obtain ⟨a, ha, rfl⟩ := List.mem_map.mp hy.1
              obtain ⟨r, hr, rfl, hcause⟩ := exists_of_parentId hchild
              exact absurd ⟨k, by omega, a, ha, hup, r, hr, hcause, hback⟩ (hside rfl)
        · exact .inr (upGrade_step hup hparent)

/-- **The bounded walk** finds the related events where there is no side branch. -/
theorem reachedAt_iff (hacyclic : db.Acyclic)
    (hside : direction = .both → ¬SideBranch db start maxDepth) (hpos : 0 < k)
    (hk : k ≤ maxDepth) : ReachedAt db start direction k id ↔
      id ∈ db.events.map (·.id) ∧ Related db start direction k id := by
  refine ⟨fun h => ⟨?_, related_of_reachedAt hacyclic hside hk h⟩,
    fun h => reachedAt_of_related h.2 h.1⟩
  obtain ⟨k, rfl⟩ := Nat.exists_eq_succ_of_ne_zero hpos.ne'
  exact h.1

/-- A side branch is found too. -/
theorem reachedAt_side {i : ℕ} {a r : EventRow} (hdistinct : (db.events.map (·.id)).Nodup)
    (ha : a ∈ db.events) (hup : up (parentId db) (i + 1) start = some a.id) (hr : r ∈ db.events)
    (hcause : r.causationId = some a.id) (hne : up (parentId db) i start ≠ some r.id) :
    Kin (parentId db) start r.id (i + 1) 1 ∧ ReachedAt db start .both (i + 2) r.id := by
  have hparent : parentId db r.id = some a.id := (parentId_of_mem hdistinct hr).trans hcause
  have hkin : Kin (parentId db) start r.id (i + 1) 1 := by
    refine kin_child (kin_of_up hup) hparent fun i' hi _ => ?_
    obtain rfl := Nat.succ_inj.mp hi
    exact hne
  have hrelated : Related db start .both (i + 1) a.id := .inr hup
  exact ⟨hkin, List.mem_map_of_mem hr, ⟨i + 1, 1, rfl, hkin⟩, a.id,
    reachedAt_of_related hrelated (List.mem_map_of_mem ha), .inl hparent⟩

/-! ### Agreement -/

theorem levelWalk_exact (hdistinct : (db.events.map (·.id)).Nodup) :
    (levelWalk db direction maxDepth .exhaustive).Exact (adjacent db direction) db.events :=
  fun _ _ hexpand a => mem_expandFrontier hdistinct hexpand a

/-- The levels of the bounded walk have the events that are reached. -/
theorem mem_levels_iff (hdistinct : (db.events.map (·.id)).Nodup) (hacyclic : db.Acyclic)
    (hlevels : (levelWalk db direction maxDepth .exhaustive).levels maxDepth [start] [start]
      = .ok ls) (r : EventRow) :
    r ∈ ls.flatten ↔ r ∈ db.events ∧
      ∃ k, 0 < k ∧ k ≤ maxDepth ∧ ReachedAt db start direction k r.id := by
  have hmem := mem_levels (levelWalk_exact hdistinct) rfl hdistinct (graded hacyclic)
    (covers_start (graded hacyclic)) (fun x => List.mem_singleton) hlevels r
  rw [hmem, Nat.zero_add]
  rfl

theorem exists_expandFrontier_iff {frontier : List EventId} :
    (∃ rows, expandFrontier db direction frontier = .ok rows) ↔
      frontier.length ≤ MAX_VARIABLES := by
  have hbind : ∀ rows, (∃ rows', bindFrontier frontier rows = .ok rows') ↔
      frontier.length ≤ MAX_VARIABLES := by
    intro rows
    constructor
    · rintro ⟨rows', h⟩
      rcases bindFrontier_eq_ok h with ⟨rfl, -⟩ | ⟨hle, -⟩
      · exact Nat.zero_le _
      · exact hle
    · intro hle
      rw [bindFrontier]
      split
      · exact ⟨_, rfl⟩
      · rw [if_neg (Nat.not_lt.mpr hle)]
        exact ⟨_, rfl⟩
  cases direction with
  | forward => exact hbind _
  | backward => exact hbind _
  | both =>
    constructor
    · rintro ⟨rows, h⟩
      obtain ⟨fwd, -, hfwd, -, -⟩ := expandFrontier_both h
      exact (hbind _).mp ⟨fwd, hfwd⟩
    · intro hle
      obtain ⟨fwd, hfwd⟩ := (hbind _).mpr hle
      obtain ⟨bwd, hbwd⟩ := (hbind _).mpr hle
      exact ⟨_, bind_eq_ok.mpr ⟨fwd, hfwd, bind_eq_ok.mpr ⟨bwd, hbwd, rfl⟩⟩⟩

/-- The ids `k` steps from the start. -/
def generationIds (db : Db) (start : EventId) (direction : WalkDirection) (k : ℕ) : List EventId :=
  if k = 0 then [start] else (generation db start direction k).map (·.id)

theorem generationIds_spec (hdistinct : (db.events.map (·.id)).Nodup) (hacyclic : db.Acyclic)
    (hside : direction = .both → ¬SideBranch db start maxDepth) (hk : k ≤ maxDepth) :
    (generationIds db start direction k).Nodup ∧
      ∀ x, x ∈ generationIds db start direction k ↔ ReachedAt db start direction k x := by
  rw [generationIds]
  split
  · rename_i hzero
    subst hzero
    exact ⟨List.nodup_singleton _, fun x => List.mem_singleton⟩
  · rename_i hne
    refine ⟨hdistinct.sublist (List.filter_sublist.map _), fun x => ?_⟩
    rw [reachedAt_iff hacyclic hside (Nat.pos_of_ne_zero hne) hk, generation, List.mem_map,
      List.mem_map]
    constructor
    · rintro ⟨r, hr, rfl⟩
      obtain ⟨hr, hrelated⟩ := List.mem_filter.mp hr
      exact ⟨⟨r, hr, rfl⟩, of_decide_eq_true hrelated⟩
    · rintro ⟨⟨r, hr, rfl⟩, hrelated⟩
      exact ⟨r, List.mem_filter.mpr ⟨hr, decide_eq_true hrelated⟩, rfl⟩

/-- The bounded walk succeeds where no generation before the last is too wide. -/
theorem exists_walk_levels_iff (hdistinct : (db.events.map (·.id)).Nodup) (hacyclic : db.Acyclic)
    (hside : direction = .both → ¬SideBranch db start maxDepth) :
    (∃ ls, (levelWalk db direction maxDepth .exhaustive).levels maxDepth [start] [start] = .ok ls) ↔
      ∀ k, 0 < k → k < maxDepth →
        (generation db start direction k).length ≤ MAX_VARIABLES := by
  -- a level fails only by SQLite's limit on parameters, one for each id of the frontier
  have hexists := @exists_levels_iff _ _ _ (levelWalk db direction maxDepth .exhaustive)
    (adjacent db direction) start (gradeOf db start direction) [start] [start] 0 maxDepth
    db.events (generationIds db start direction) _ MAX_VARIABLES (levelWalk_exact hdistinct) rfl
    (fun _ _ h => nodup_expandFrontier hdistinct h) (graded hacyclic)
    (fun _ => exists_expandFrontier_iff)
    (fun k hk => generationIds_spec hdistinct hacyclic hside (by omega))
    (covers_start (graded hacyclic)) (List.nodup_singleton _) (fun _ => List.mem_singleton)
  rw [hexists]
  constructor
  · intro h k hpos hk
    have hle := h k (Nat.zero_le k) (by omega)
    rwa [generationIds, if_neg hpos.ne', List.length_map] at hle
  · intro h k _ hk
    rw [generationIds]
    split
    · exact Nat.succ_le_of_lt (by decide)
    · rename_i hne
      rw [List.length_map]
      exact h k (Nat.pos_of_ne_zero hne) (by omega)

/-- Both walks return what they find upcast. -/
theorem mem_data_iff (hdistinct : (db.events.map (·.id)).Nodup) {rows rows' : List EventRow}
    {data data' : List StoredEvent}
    (hrows : ∀ r ∈ rows, r ∈ db.events) (hrows' : ∀ r ∈ rows', r ∈ db.events)
    (h : upcastAll registry fuel (rows.map rowToEvent) = some (.ok data))
    (h' : upcastAll registry fuel (rows'.map rowToEvent) = some (.ok data')) :
    (∀ e, e ∈ data ↔ e ∈ data') ↔ ∀ r, r ∈ rows ↔ r ∈ rows' := by
  have hsub : ∀ {rows rows' : List EventRow} {data data' : List StoredEvent},
      (∀ r ∈ rows, r ∈ db.events) → (∀ r ∈ rows', r ∈ db.events) →
      upcastAll registry fuel (rows.map rowToEvent) = some (.ok data) →
      upcastAll registry fuel (rows'.map rowToEvent) = some (.ok data') →
      (∀ e ∈ data, e ∈ data') → ∀ r ∈ rows, r ∈ rows' := by
    intro rows rows' data data' hrows hrows' h h' hdata r hr
    -- the id of a row is found in the other rows
    have hid : r.id ∈ data.map (·.id) := by
      rw [upcastAll_ids h, List.map_map]
      exact List.mem_map_of_mem hr
    obtain ⟨e, he, heq⟩ := List.mem_map.mp hid
    have hid' : e.id ∈ data'.map (·.id) := List.mem_map_of_mem (hdata e he)
    rw [upcastAll_ids h', List.map_map] at hid'
    obtain ⟨r', hr', heq'⟩ := List.mem_map.mp hid'
    rw [← List.inj_on_of_nodup_map hdistinct (hrows' r' hr') (hrows r hr) (heq'.trans heq)]
    exact hr'
  constructor
  · exact fun hdata r => ⟨hsub hrows hrows' h h' (fun e => (hdata e).mp) r,
      hsub hrows' hrows h' h (fun e => (hdata e).mpr) r⟩
  · intro hsame e
    rw [mem_upcastAll h, mem_upcastAll h']
    simp only [List.mem_map]
    exact exists_congr fun _ => and_congr_left' (exists_congr fun r => and_congr_left' (hsame r))

/-- **When the walks agree**: for every store with distinct ids in which no event is its
own ancestor, for every start, direction and depth, the exhaustive bounded walk without a
budget returns the events of the unbounded walk if and only if, where it goes both ways,
there is no side branch, and no generation before the last is wider than SQLite binds
parameters. -/
theorem walks_agree_iff (db : Db) (hdistinct : (db.events.map (·.id)).Nodup)
    (hacyclic : db.Acyclic) (registry : UpcasterRegistry) (fuel : ℕ) (start : EventId)
    (direction : WalkDirection) (maxDepth : ℕ) (hdepth : maxDepth < 2 ^ 63)
    (data : List StoredEvent)
    (hwalk : walkCausation registry fuel db start direction maxDepth = some (.ok data)) :
    (∃ data', walkCausationBounded registry fuel ⟨none, none⟩ db start direction maxDepth .exhaustive
        ⟨none, none⟩ none = some (.ok (.complete data')) ∧ ∀ e, e ∈ data' ↔ e ∈ data) ↔
      (direction = .both → ¬SideBranch db start maxDepth) ∧
        ∀ k, 0 < k → k < maxDepth →
          (generation db start direction k).length ≤ MAX_VARIABLES := by
  have hmem : ∀ r, r ∈ walkCausationImpl db start direction maxDepth ↔ _ :=
    fun r => mem_walkCausationImpl hdistinct hdepth
  constructor
  · rintro ⟨data', hbounded, hsame⟩
    obtain ⟨ls, hlevels, hupcast⟩ := whole_levels.mp hbounded
    have hfound := mem_levels_iff hdistinct hacyclic hlevels
    have hrows := (mem_data_iff hdistinct (fun r hr => ((hfound r).mp hr).1)
      (fun r hr => ((hmem r).mp hr).1) hupcast hwalk).mp hsame
    -- the end of a side branch is found by the bounded walk only
    have hside : direction = .both → ¬SideBranch db start maxDepth := by
      rintro rfl ⟨i, hi, a, ha, hup, r, hr, hcause, hne⟩
      obtain ⟨hkin, hreached⟩ := reachedAt_side hdistinct ha hup hr hcause hne
      obtain ⟨-, k, hpos, -, hdown | hup'⟩ := (hmem r).mp ((hrows r).mp
        ((hfound r).mpr ⟨hr, i + 2, by omega, by omega, hreached⟩))
      · have := (kin_unique hacyclic hkin (kin_of_down hdown)).1
        omega
      · have := (kin_unique hacyclic hkin (kin_of_up hup')).2
        omega
    exact ⟨hside, (exists_walk_levels_iff hdistinct hacyclic hside).mp ⟨ls, hlevels⟩⟩
  · rintro ⟨hside, hwidth⟩
    obtain ⟨ls, hlevels⟩ := (exists_walk_levels_iff hdistinct hacyclic hside).mpr hwidth
    have hfound := mem_levels_iff hdistinct hacyclic hlevels
    have hrows : ∀ r, r ∈ ls.flatten ↔ r ∈ walkCausationImpl db start direction maxDepth := by
      intro r
      rw [hfound, hmem]
      refine and_congr_right fun hr => exists_congr fun k => and_congr_right fun hpos =>
        and_congr_right fun hk => ?_
      rw [reachedAt_iff hacyclic hside hpos hk]
      exact and_iff_right (List.mem_map_of_mem hr)
    obtain ⟨data', hupcast⟩ := upcastAll_of_subset hwalk fun e he => by
      obtain ⟨r, hr, rfl⟩ := List.mem_map.mp he
      exact List.mem_map_of_mem ((hrows r).mp hr)
    refine ⟨data', whole_levels.mpr ⟨ls, hlevels, hupcast⟩, ?_⟩
    exact (mem_data_iff hdistinct (fun r hr => ((hfound r).mp hr).1)
      (fun r hr => ((hmem r).mp hr).1) hupcast hwalk).mpr hrows

set_option maxRecDepth 4000 in
/-- Both ways from the second event of a chain, whose cause has no other effect. -/
theorem walks_agree_both : ∃ (db : Db) (start : EventId) (data data' : List StoredEvent),
    data.map (·.eventType) = ["c", "a"] ∧
      walkCausationBounded [] 1 ⟨none, none⟩ db start .both 10 .exhaustive ⟨none, none⟩ none =
        some (.ok (.complete data')) ∧ ∀ e, e ∈ data' ↔ e ∈ data := by
  obtain ⟨db, start, data, hrun, hwalk, hdata, hacyclic, hthree, honly, hends⟩ :
      ∃ (db : Db) (start : EventId) (data : List StoredEvent),
        run (storeStep mixDeps) (Db.bootstrap 0) chainOps = some db ∧
        walkCausation [] 1 db start .both 10 = some (.ok data) ∧
        data.map (·.eventType) = ["c", "a"] ∧ db.Acyclic ∧
        db.events.length ≤ MAX_VARIABLES ∧
        (∀ a ∈ db.events, up (parentId db) 1 start = some a.id →
          ∀ r ∈ db.events, r.causationId = some a.id → some start = some r.id) ∧
        up (parentId db) 2 start = none :=
    ⟨_, causedId "b" (some (causedId "a" none)), _, rfl, rfl, by decide,
      acyclic_of_earlier (by decide), by decide, by decide, by decide⟩
  have hside : ¬SideBranch db start 10 := by
    rintro ⟨i, -, a, ha, hup, r, hr, hcause, hne⟩
    cases i with
    | zero => exact hne (honly a ha hup r hr hcause)
    | succ i =>
      -- the cause of the start has no cause
      rw [show i + 1 + 1 = 2 + i by omega, up_add, hends] at hup
      exact absurd hup (by simp)
  obtain ⟨data', hbounded, hsame⟩ := (walks_agree_iff db (run_distinct hrun) hacyclic [] 1
    start .both 10 (by decide) data hwalk).mpr
      ⟨fun _ => hside, fun k _ _ => (List.length_filter_le _ _).trans hthree⟩
  exact ⟨db, start, data, data', hdata, hbounded, hsame⟩

/-- An event with two effects. -/
def siblingOps : List StoreOp :=
  let p := causedId "p" none
  [.declareStream "s" "t" none 0, appendCaused "p" none, appendCaused "a" (some p),
    appendCaused "b" (some p)]

set_option maxRecDepth 4000 in
/-- Both ways from one effect the bounded walk also finds the other. -/
theorem sibling_found : ¬∀ (d : Deps) (now : Int64) (ops : List StoreOp) (db : Db),
    run (storeStep d) (Db.bootstrap now) ops = some db → db.Acyclic →
    ∀ (registry : UpcasterRegistry) (fuel : ℕ) (start : EventId) (direction : WalkDirection)
      (maxDepth : ℕ), maxDepth < 2 ^ 63 → ∀ data data' : List StoredEvent,
      walkCausation registry fuel db start direction maxDepth = some (.ok data) →
      walkCausationBounded registry fuel ⟨none, none⟩ db start direction maxDepth .exhaustive
        ⟨none, none⟩ none = some (.ok (.complete data')) →
      ∀ e, e ∈ data' ↔ e ∈ data := by
  intro h
  have hacyclic : Db.Acyclic ((run (storeStep mixDeps) (Db.bootstrap 0) siblingOps).getD
      (Db.bootstrap 0)) := acyclic_of_earlier (by decide)
  have hsame := h mixDeps 0 siblingOps _ rfl hacyclic [] 1
    (causedId "a" (some (causedId "p" none))) .both 10 (by decide) _ _ rfl rfl
  have hsibling := (hsame _).mp (List.mem_cons_of_mem _ List.mem_cons_self)
  exact absurd (congrArg StoredEvent.eventType (List.mem_singleton.mp hsibling)) (by decide)

end Fossic
