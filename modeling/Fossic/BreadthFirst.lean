/-
The unbounded causation walk as a breadth-first neighbourhood.

* `joinDepths_sorted` — a recursive query returns what it found by the round that found it;
* `walkForward_ordered`, `walkBackward_ordered` — so each direction comes in the order of the
  distance from the start;
* `walkCausationImpl_nodup` — and no event comes twice;
* `breadth_first_iff` — the walk is the neighbourhood in that order, unless it goes both ways
  and the start has a stored parent and a stored grandchild, which comes first.
-/
import Fossic.WalksAgree

namespace Fossic

open KeySort ForestWalk Kinship

variable {registry : UpcasterRegistry} {fuel : ℕ} {db : Db} {start id : EventId}
  {direction : WalkDirection} {maxDepth k : ℕ} {ids : List EventId} {found : List (EventId × ℕ)}
  {step : List EventId → List EventId} {data : List StoredEvent} {r : EventRow}

/-- The events from distance 1 to `max_depth` and no others, each once and by distance. -/
structure Neighbourhood (db : Db) (start : EventId) (direction : WalkDirection) (maxDepth : ℕ)
    (data : List StoredEvent) : Prop where
  once : (data.map (·.id)).Nodup
  members : ∀ id, id ∈ data.map (·.id) ↔ id ∈ db.events.map (·.id) ∧
    ∃ k, 0 < k ∧ k ≤ maxDepth ∧ Related db start direction k id
  ordered : data.Pairwise fun e e' => ∀ k k', Related db start direction k e.id →
    Related db start direction k' e'.id → k ≤ k'

/-- The start has a stored parent, and a child with a stored child. -/
def AncestorLate (db : Db) (start : EventId) (maxDepth : ℕ) : Prop :=
  2 ≤ maxDepth ∧ (∃ p ∈ db.events, up (parentId db) 1 start = some p.id) ∧
    ∃ g ∈ db.events, up (parentId db) 2 g.id = some start

/-! ### Distances -/

/-- An event has one distance. -/
theorem related_unique (hacyclic : db.Acyclic) {k k' : ℕ} (h : Related db start direction k id)
    (h' : Related db start direction k' id) : k = k' := by
  have hgrade : ∀ {k}, Related db start .both k id → EitherGrade (parentId db) start id k := by
    rintro k (hdown | hup)
    · exact ⟨0, k, Nat.zero_add k, kin_of_down hdown⟩
    · exact ⟨k, 0, Nat.add_zero k, kin_of_up hup⟩
  cases direction with
  | forward => exact downGrade_unique hacyclic h h'
  | backward => exact upGrade_unique hacyclic h h'
  | both => exact eitherGrade_unique hacyclic (hgrade h) (hgrade h')

/-- The events that are joined, with their depths. -/
theorem joinDepths_sorted : (joinDepths db found).Pairwise fun r r' =>
    ∃ d d', (r.id, d) ∈ found ∧ (r'.id, d') ∈ found ∧ d ≤ d' := by
  rw [joinDepths, List.pairwise_map]
  refine (sortBy_sorted _ _).imp_of_mem fun {p p'} hp hp' hle => ?_
  have hfound : ∀ {p : EventRow × ℕ}, p ∈ sortBy (fun p => p.2) (sortBy
      (fun p => p.1.timestampUs.toInt) (db.events.filterMap fun r =>
        ((found.filter fun p => p.1 = r.id).map (·.2)).min?.map fun depth => (r, depth))) →
      (p.1.id, p.2) ∈ found := by
    intro p hp
    rw [mem_sortBy, mem_sortBy, List.mem_filterMap] at hp
    obtain ⟨r, -, hr⟩ := hp
    obtain ⟨d, hmin, rfl⟩ := Option.map_eq_some_iff.mp hr
    obtain ⟨q, hq, rfl⟩ := List.mem_map.mp (List.min?_mem hmin)
    obtain ⟨hq, hid⟩ := List.mem_filter.mp hq
    rw [← of_decide_eq_true hid]
    exact hq
  exact ⟨p.2, p'.2, hfound hp, hfound hp', hle⟩

theorem joinDepths_nodup (hdistinct : (db.events.map (·.id)).Nodup) :
    ((joinDepths db found).map (·.id)).Nodup := by
  have hperm : (joinDepths db found).Perm ((db.events.filterMap fun r =>
      ((found.filter fun p => p.1 = r.id).map (·.2)).min?.map fun depth => (r, depth)).map (·.1)) :=
    ((sortBy_perm _ _).trans (sortBy_perm _ _)).map _
  have hsub : ((db.events.filterMap fun r =>
      ((found.filter fun p => p.1 = r.id).map (·.2)).min?.map fun depth => (r, depth)).map
        (·.1)).Sublist db.events := by
    induction db.events with
    | nil => exact .slnil
    | cons r rows ih =>
      rw [List.filterMap_cons]
      split
      · exact ih.cons _
      · rename_i p hp
        obtain ⟨d, -, rfl⟩ := Option.map_eq_some_iff.mp hp
        exact ih.cons_cons _
  exact (hperm.map _).nodup_iff.mpr (hdistinct.sublist (hsub.map _))

/-- A recursive query that finds `P k` in its round `k` returns its events by `k`. -/
theorem joined_ordered (hstep : step [] = []) {P : ℕ → EventId → Prop}
    (hnext : ∀ k id, id ∈ nextIds step k ids ↔ P (1 + k) id)
    (hunique : ∀ {id k k'}, P k id → P k' id → k = k') :
    (if maxDepth = 0 then []
      else joinDepths db (recursiveRows step (depthBound maxDepth) 1 ids)).Pairwise
      fun r r' => ∀ k k', P k r.id → P k' r'.id → k ≤ k' := by
  split
  · exact .nil
  · refine joinDepths_sorted.imp ?_
    rintro r r' ⟨d, d', hd, hd', hle⟩ k k' hk hk'
    obtain ⟨n, -, hn, hmem⟩ := (mem_recursiveRows hstep).mp hd
    obtain ⟨n', -, hn', hmem'⟩ := (mem_recursiveRows hstep).mp hd'
    have hsame := hunique hk ((hnext n r.id).mp hmem)
    have hsame' := hunique hk' ((hnext n' r'.id).mp hmem')
    simp only at hn hn'
    omega

/-! ### The two directions -/

theorem walkForward_ordered (hdistinct : (db.events.map (·.id)).Nodup) (hacyclic : db.Acyclic) :
    (walkForward db start maxDepth).Pairwise fun r r' => ∀ k k',
      Related db start .forward k r.id → Related db start .forward k' r'.id → k ≤ k' :=
  joined_ordered (by simp [childIds]) (forward_rounds hdistinct) (related_unique hacyclic)

theorem walkBackward_ordered (hdistinct : (db.events.map (·.id)).Nodup) (hacyclic : db.Acyclic) :
    (walkBackward db start maxDepth).Pairwise fun r r' => ∀ k k',
      Related db start .backward k r.id → Related db start .backward k' r'.id → k ≤ k' :=
  joined_ordered (by simp [parentIds]) (backward_rounds hdistinct) (related_unique hacyclic)

theorem walkForward_nodup (hdistinct : (db.events.map (·.id)).Nodup) :
    ((walkForward db start maxDepth).map (·.id)).Nodup := by
  rw [walkForward]
  split
  · exact List.nodup_nil
  · exact joinDepths_nodup hdistinct

theorem walkBackward_nodup (hdistinct : (db.events.map (·.id)).Nodup) :
    ((walkBackward db start maxDepth).map (·.id)).Nodup := by
  rw [walkBackward]
  split
  · exact List.nodup_nil
  · exact joinDepths_nodup hdistinct

theorem walkCausationImpl_nodup (hdistinct : (db.events.map (·.id)).Nodup) :
    ((walkCausationImpl db start direction maxDepth).map (·.id)).Nodup := by
  cases direction with
  | forward => exact walkForward_nodup hdistinct
  | backward => exact walkBackward_nodup hdistinct
  | both => exact nodup_mergeById (walkForward_nodup hdistinct) (walkBackward_nodup hdistinct)

/-! ### Both directions -/

/-- Descendants from the second generation on come from a stored grandchild. -/
theorem exists_grandchild (h : up (parentId db) (k + 2) r.id = some start) (hr : r ∈ db.events) :
    ∃ g ∈ db.events, up (parentId db) 2 g.id = some start := by
  induction k generalizing r with
  | zero => exact ⟨r, hr, h⟩
  | succ k ih =>
    obtain ⟨y, -, hy⟩ := exists_parent h
    obtain ⟨g, hg, rfl⟩ := List.mem_map.mp (stored_of_up hy)
    exact ih hy hg

/-- Ancestors come from a stored parent. -/
theorem exists_stored_parent (h : up (parentId db) (k + 1) start = some r.id)
    (hr : r ∈ db.events) : ∃ p ∈ db.events, up (parentId db) 1 start = some p.id := by
  obtain ⟨y, hparent, hy⟩ := exists_parent h
  cases k with
  | zero =>
    obtain rfl := Option.some_inj.mp hy
    exact ⟨r, hr, up_succ hparent⟩
  | succ k =>
    obtain ⟨p, hp, rfl⟩ := List.mem_map.mp (stored_of_up hy)
    exact ⟨p, hp, up_succ hparent⟩

/-- **Both ways** the descendants come first, so the order is that of the distances if and
only if no descendant is farther away than an ancestor. -/
theorem both_ordered_iff (hdistinct : (db.events.map (·.id)).Nodup) (hacyclic : db.Acyclic)
    (hdepth : maxDepth < 2 ^ 63) :
    ((walkCausationImpl db start .both maxDepth).Pairwise fun r r' => ∀ k k',
      Related db start .both k r.id → Related db start .both k' r'.id → k ≤ k') ↔
        ¬AncestorLate db start maxDepth := by
  have hunique : ∀ {id k k'}, Related db start .both k id → Related db start .both k' id → k = k' :=
    related_unique hacyclic
  rw [walkCausationImpl, mergeById, List.pairwise_append]
  constructor
  · rintro ⟨-, -, hcross⟩ ⟨hdeep, ⟨p, hp, hparent⟩, g, hg, hgrandchild⟩
    have hforward : g ∈ walkForward db start maxDepth :=
      (mem_walkForward hdistinct hdepth).mpr ⟨hg, 2, by omega, hdeep, hgrandchild⟩
    have hbackward : p ∈ walkBackward db start maxDepth :=
      (mem_walkBackward hdistinct hdepth).mpr ⟨hp, 1, by omega, by omega, hparent⟩
    have hother : p.id ∉ (walkForward db start maxDepth).map (·.id) := by
      intro hmem
      obtain ⟨r, hr, hid⟩ := List.mem_map.mp hmem
      obtain ⟨-, k, hpos, -, hdown⟩ := (mem_walkForward hdistinct hdepth).mp hr
      -- a descendant that is an ancestor is its own ancestor
      obtain rfl : k = 1 := hunique (.inl hdown) (.inr (hid ▸ hparent))
      have hloop : up (parentId db) (1 + 1) r.id = some r.id :=
        (up_add_of_eq hdown).trans (hid ▸ hparent)
      exact hacyclic r.id (transGen_of_up hloop)
    have hle := hcross g hforward p (List.mem_filter.mpr ⟨hbackward, decide_eq_true hother⟩) 2 1
      (.inl hgrandchild) (.inr hparent)
    omega
  · intro hlate
    refine ⟨?_, ?_, ?_⟩
    · refine (walkForward_ordered hdistinct hacyclic).imp_of_mem fun {r r'} hr hr' hle k k' hk hk' => ?_
      obtain ⟨-, d, -, -, hd⟩ := (mem_walkForward hdistinct hdepth).mp hr
      obtain ⟨-, d', -, -, hd'⟩ := (mem_walkForward hdistinct hdepth).mp hr'
      have := hunique hk (.inl hd)
      have := hunique hk' (.inl hd')
      have := hle d d' hd hd'
      omega
    · refine ((walkBackward_ordered hdistinct hacyclic).sublist List.filter_sublist).imp_of_mem
        fun {r r'} hr hr' hle k k' hk hk' => ?_
      obtain ⟨-, d, -, -, hd⟩ := (mem_walkBackward hdistinct hdepth).mp (List.mem_filter.mp hr).1
      obtain ⟨-, d', -, -, hd'⟩ := (mem_walkBackward hdistinct hdepth).mp (List.mem_filter.mp hr').1
      have := hunique hk (.inr hd)
      have := hunique hk' (.inr hd')
      have := hle d d' hd hd'
      omega
    · intro r hr r' hr' k k' hk hk'
      obtain ⟨hr, d, -, hmax, hd⟩ := (mem_walkForward hdistinct hdepth).mp hr
      obtain ⟨hr', d', hpos, -, hd'⟩ :=
        (mem_walkBackward hdistinct hdepth).mp (List.mem_filter.mp hr').1
      have hsame := hunique hk (.inl hd)
      have hsame' := hunique hk' (.inr hd')
      by_contra hlt
      -- a descendant farther away than an ancestor
      obtain ⟨i, rfl⟩ : ∃ i, d = i + 2 := ⟨d - 2, by omega⟩
      obtain ⟨j, rfl⟩ : ∃ j, d' = j + 1 := ⟨d' - 1, by omega⟩
      exact hlate ⟨by omega, exists_stored_parent hd' hr', exists_grandchild hd hr⟩

/-- **The unbounded walk**, on a store with distinct ids in which no event is its own
ancestor: it returns the events up to its depth, each once and in the order of their distance
from the start, if and only if it does not go both ways from an event with a stored parent
and a stored grandchild. -/
theorem breadth_first_iff (db : Db) (hdistinct : (db.events.map (·.id)).Nodup)
    (hacyclic : db.Acyclic) (registry : UpcasterRegistry) (fuel : ℕ) (start : EventId)
    (direction : WalkDirection) (maxDepth : ℕ) (hdepth : maxDepth < 2 ^ 63)
    (data : List StoredEvent)
    (hwalk : walkCausation registry fuel db start direction maxDepth = some (.ok data)) :
    Neighbourhood db start direction maxDepth data ↔
      (direction = .both → ¬AncestorLate db start maxDepth) := by
  have hids : data.map (·.id) = (walkCausationImpl db start direction maxDepth).map (·.id) := by
    rw [upcastAll_ids hwalk, List.map_map]
    rfl
  have horder : (data.Pairwise fun e e' => ∀ k k', Related db start direction k e.id →
      Related db start direction k' e'.id → k ≤ k') ↔
      (walkCausationImpl db start direction maxDepth).Pairwise fun r r' => ∀ k k',
        Related db start direction k r.id → Related db start direction k' r'.id → k ≤ k' := by
    have hmap := congrArg (List.Pairwise fun id id' => ∀ k k', Related db start direction k id →
      Related db start direction k' id' → k ≤ k') hids
    rwa [List.pairwise_map, List.pairwise_map, eq_iff_iff] at hmap
  constructor
  · rintro h rfl
    exact (both_ordered_iff hdistinct hacyclic hdepth).mp (horder.mp h.ordered)
  · intro hlate
    refine ⟨hids ▸ walkCausationImpl_nodup hdistinct, fun id => ?_, horder.mpr ?_⟩
    · rw [hids, List.mem_map, List.mem_map]
      simp only [mem_walkCausationImpl hdistinct hdepth]
      constructor
      · rintro ⟨r, ⟨hr, hrelated⟩, rfl⟩
        exact ⟨⟨r, hr, rfl⟩, hrelated⟩
      · rintro ⟨⟨r, hr, rfl⟩, hrelated⟩
        exact ⟨r, ⟨hr, hrelated⟩, rfl⟩
    · cases direction with
      | forward => exact walkForward_ordered hdistinct hacyclic
      | backward => exact walkBackward_ordered hdistinct hacyclic
      | both => exact (both_ordered_iff hdistinct hacyclic hdepth).mpr (hlate rfl)

set_option maxRecDepth 4000 in
/-- Both ways from the second event of a chain of three, which has no grandchild. -/
theorem breadth_first_both : ∃ (db : Db) (start : EventId) (data : List StoredEvent),
    data.map (·.eventType) = ["c", "a"] ∧ Neighbourhood db start .both 10 data := by
  refine ⟨_, _, _, ?_, (breadth_first_iff _ (@run_distinct mixDeps _ 0 chainOps rfl)
    (acyclic_of_earlier ?_) [] 1 (causedId "b" (some (causedId "a" none))) .both 10 (by decide) _
    rfl).mpr ?_⟩
  · decide
  · decide
  · rintro - ⟨-, -, hgrandchild⟩
    revert hgrandchild
    decide

/-- A chain of four events. -/
def longChainOps : List StoreOp :=
  let a := causedId "a" none
  let b := causedId "b" (some a)
  let c := causedId "c" (some b)
  [.declareStream "s" "t" none 0, appendCaused "a" none, appendCaused "b" (some a),
    appendCaused "c" (some b), appendCaused "d" (some c)]

set_option maxRecDepth 4000 in
/-- Both ways from the second event of the chain the last one comes before the first. -/
theorem parent_comes_last : ¬∀ (d : Deps) (now : Int64) (ops : List StoreOp) (db : Db),
    Transition.run (storeStep d) (Db.bootstrap now) ops = some db → db.Acyclic →
    ∀ (registry : UpcasterRegistry) (fuel : ℕ) (start : EventId) (direction : WalkDirection)
      (maxDepth : ℕ), maxDepth < 2 ^ 63 → ∀ data : List StoredEvent,
      walkCausation registry fuel db start direction maxDepth = some (.ok data) →
      Neighbourhood db start direction maxDepth data := by
  intro h
  have hacyclic : Db.Acyclic ((Transition.run (storeStep mixDeps) (Db.bootstrap 0)
      longChainOps).getD (Db.bootstrap 0)) := acyclic_of_earlier (by decide)
  have hordered := (h mixDeps 0 longChainOps _ rfl hacyclic [] 1
    (causedId "b" (some (causedId "a" none))) .both 10 (by decide) _ rfl).ordered
  have hlate := List.pairwise_iff_getElem.mp hordered 1 2 (by decide) (by decide) (by decide) 2 1
    (by decide) (by decide)
  omega

end Fossic
