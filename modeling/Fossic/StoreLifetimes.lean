/-
The collection of orphaned snapshots when a store is dropped.

A `Store` is a counted reference, and its `drop` collects orphaned snapshots if the count is one,
before it gives up its reference.  The count and the reference are two steps, and the executor
holds a reference of its own while it runs a task.

* `lifetimeInv_step` — what is known when no `Store` is left but those that are being dropped;
* `drop_gc_iff` — when the last drop collects, and what the table has afterwards;
* `drop_gc_missed` — any number of clones, dropped together, leave the table as it is.
-/
import Fossic.Reducers
import Fossic.Snapshots
import Fossic.Transition

namespace Fossic

open Transition

/-! ### References -/

/-- The references to one `StoreInner`, its reducers, and the file, which no other process uses. -/
structure StoreLifetime where
  autoGcOrphans : Bool
  /-- the values of `Store` that nobody is dropping -/
  live : ℕ
  /-- One is being dropped, and has found the count to be one. -/
  collecting : Bool
  /-- those that have been through `drop`, and hold their references still -/
  releasing : ℕ
  /-- The executor has upgraded its weak reference. -/
  background : Bool
  db : Db
  reducers : List ReducerEntry
  /-- history: the collections by `drop` -/
  dropGcs : ℕ

/-- `Store::open` on the tables of a file. -/
def StoreLifetime.opened (autoGcOrphans : Bool) (db : Db) : StoreLifetime :=
  ⟨autoGcOrphans, 1, false, 0, false, db, [], 0⟩

/-- `Arc::strong_count`. -/
def StoreLifetime.strongCount (s : StoreLifetime) : ℕ :=
  s.live + s.collecting.toNat + s.releasing + s.background.toNat

/-- What may be written: a caller has a `Store`, and `write_snapshot_state` takes any key; a task
has its reference while it runs, and takes snapshots of registered reducers. -/
def StoreLifetime.mayWrite (s : StoreLifetime) (byTask : Bool) (key : String × UInt32) : Bool :=
  if byTask then s.background && decide (key ∈ activeKeys s.reducers) else 0 < s.live

inductive LifetimeAction
  | clone
  | register (pattern : String) (reducer : BoxedReducer) (policy : SnapshotPolicy)
  /-- a snapshot, by a task of the executor or by a caller -/
  | writeSnapshot (byTask : Bool) (reducer : BoxedReducer) (streamId branch : String)
      (version : UInt64) (state : Bytes) (now : Int64)
  /-- a `drop`, up to its look at the count -/
  | drop
  | collect
  | release
  | upgrade
  /-- `bg_gc_orphaned_snapshots`, with the keys that it has read -/
  | backgroundGc (active : List (String × UInt32))
  | finish

def lifetimeStep (s : StoreLifetime) : LifetimeAction → Option StoreLifetime
  | .clone => if s.live = 0 then none else some { s with live := s.live + 1 }
  | .register pattern reducer policy =>
    if s.live = 0 then none
    else
      match registerWithPolicy s.reducers pattern reducer policy with
      | .ok entries => some { s with reducers := entries }
      | .error _ => some s
  | .writeSnapshot byTask reducer streamId branch version state now =>
    if s.mayWrite byTask reducer.key then
      some { s with db := (writeSnapshot s.db streamId branch version reducer.name reducer.version
        reducer.stateSchemaVersion state now).2 }
    else none
  | .drop =>
    if s.live = 0 then none
    else if s.autoGcOrphans && s.strongCount = 1 then
      some { s with live := s.live - 1, collecting := true }
    else some { s with live := s.live - 1, releasing := s.releasing + 1 }
  | .collect =>
    if s.collecting then
      some { s with
        collecting := false
        releasing := s.releasing + 1
        db := (gcOrphanedSnapshotsImpl s.db (activeKeys s.reducers)).2
        dropGcs := s.dropGcs + 1 }
    else none
  | .release => if s.releasing = 0 then none else some { s with releasing := s.releasing - 1 }
  | .upgrade =>
    if s.strongCount = 0 || s.background then none else some { s with background := true }
  | .backgroundGc active =>
    if s.background then some { s with db := (gcOrphanedSnapshotsImpl s.db active).2 } else none
  | .finish => if s.background then some { s with background := false } else none

/-- **What a step does**, action by action. -/
inductive LifetimeTaken (s : StoreLifetime) : LifetimeAction → StoreLifetime → Prop
  | cloned (hlive : s.live ≠ 0) : LifetimeTaken s .clone { s with live := s.live + 1 }
  | registered {pattern : String} {reducer : BoxedReducer} {policy : SnapshotPolicy}
      {entries : List ReducerEntry} (hlive : s.live ≠ 0)
      (hkeys : activeKeys s.reducers ⊆ activeKeys entries) :
      LifetimeTaken s (.register pattern reducer policy) { s with reducers := entries }
  | wrote {byTask : Bool} {reducer : BoxedReducer} {streamId branch : String} {version : UInt64}
      {state : Bytes} {now : Int64} {db : Db}
      (hdb : ∀ sn ∈ db.snapshots,
        sn ∈ s.db.snapshots ∨ s.live ≠ 0 ∨ sn.key ∈ activeKeys s.reducers) :
      LifetimeTaken s (.writeSnapshot byTask reducer streamId branch version state now)
        { s with db := db }
  | found (hauto : s.autoGcOrphans = true) (hlive : s.live ≠ 0) (hcount : s.strongCount = 1) :
      LifetimeTaken s .drop { s with live := s.live - 1, collecting := true }
  | passed (hlive : s.live ≠ 0) (hcount : s.autoGcOrphans = true → s.strongCount ≠ 1) :
      LifetimeTaken s .drop { s with live := s.live - 1, releasing := s.releasing + 1 }
  | collected (hcollecting : s.collecting = true) :
      LifetimeTaken s .collect
        { s with
          collecting := false
          releasing := s.releasing + 1
          db := (gcOrphanedSnapshotsImpl s.db (activeKeys s.reducers)).2
          dropGcs := s.dropGcs + 1 }
  | released (hreleasing : s.releasing ≠ 0) :
      LifetimeTaken s .release { s with releasing := s.releasing - 1 }
  | upgraded (hcount : s.strongCount ≠ 0) (hbackground : s.background = false) :
      LifetimeTaken s .upgrade { s with background := true }
  | backgroundCollected {active : List (String × UInt32)} (hbackground : s.background = true) :
      LifetimeTaken s (.backgroundGc active)
        { s with db := (gcOrphanedSnapshotsImpl s.db active).2 }
  | finished (hbackground : s.background = true) :
      LifetimeTaken s .finish { s with background := false }

variable {s s' : StoreLifetime} {a : LifetimeAction} {as : List LifetimeAction} {db : Db}

theorem lifetimeTaken_of_step (h : lifetimeStep s a = some s') : LifetimeTaken s a s' := by
  cases a with
  | clone =>
    rw [lifetimeStep] at h
    split at h
    · exact absurd h (by simp)
    · rename_i hlive
      obtain rfl := Option.some_inj.mp h
      exact .cloned hlive
  | register pattern reducer policy =>
    rw [lifetimeStep] at h
    split at h
    · exact absurd h (by simp)
    · rename_i hlive
      split at h
      · rename_i entries hentries
        obtain rfl := Option.some_inj.mp h
        refine .registered hlive fun key hkey => ?_
        rw [registerWithPolicy_eq_ok hentries, activeKeys, List.map_append]
        exact List.mem_append_left _ hkey
      · obtain rfl := Option.some_inj.mp h
        exact .registered hlive fun _ hkey => hkey
  | writeSnapshot byTask reducer streamId branch version state now =>
    rw [lifetimeStep] at h
    split at h
    · rename_i hwrite
      obtain rfl := Option.some_inj.mp h
      refine .wrote fun sn hsn => ?_
      rcases mem_replaceSnapshot hsn with rfl | hold
      · rw [StoreLifetime.mayWrite] at hwrite
        split at hwrite
        · exact .inr (.inr (of_decide_eq_true (Bool.and_eq_true_iff.mp hwrite).2))
        · exact .inr (.inl (Nat.pos_iff_ne_zero.mp (of_decide_eq_true hwrite)))
      · exact .inl hold
    · exact absurd h (by simp)
  | drop =>
    rw [lifetimeStep] at h
    split at h
    · exact absurd h (by simp)
    · rename_i hlive
      split at h
      · rename_i hcount
        obtain rfl := Option.some_inj.mp h
        obtain ⟨hauto, hone⟩ := Bool.and_eq_true_iff.mp hcount
        exact .found hauto hlive (of_decide_eq_true hone)
      · rename_i hcount
        obtain rfl := Option.some_inj.mp h
        exact .passed hlive fun hauto hone => hcount (by simp [hauto, hone])
  | collect =>
    rw [lifetimeStep] at h
    split at h
    · rename_i hcollecting
      obtain rfl := Option.some_inj.mp h
      exact .collected hcollecting
    · exact absurd h (by simp)
  | release =>
    rw [lifetimeStep] at h
    split at h
    · exact absurd h (by simp)
    · rename_i hreleasing
      obtain rfl := Option.some_inj.mp h
      exact .released hreleasing
  | upgrade =>
    rw [lifetimeStep] at h
    split at h
    · exact absurd h (by simp)
    · rename_i hfree
      obtain rfl := Option.some_inj.mp h
      simp only [Bool.or_eq_true, decide_eq_true_eq, not_or, Bool.not_eq_true] at hfree
      exact .upgraded hfree.1 hfree.2
  | backgroundGc active =>
    rw [lifetimeStep] at h
    split at h
    · rename_i hbackground
      obtain rfl := Option.some_inj.mp h
      exact .backgroundCollected hbackground
    · exact absurd h (by simp)
  | finish =>
    rw [lifetimeStep] at h
    split at h
    · rename_i hbackground
      obtain rfl := Option.some_inj.mp h
      exact .finished hbackground
    · exact absurd h (by simp)

/-! ### What is known of the count -/

/-- Before the last `drop` nothing has been collected; one that found the count to be one was the
last; and what was collected stays so. -/
structure LifetimeInv (s : StoreLifetime) : Prop where
  alone : s.collecting = true → s.live = 0
  once : s.dropGcs + s.collecting.toNat ≤ 1
  before : s.live ≠ 0 → s.dropGcs = 0
  clean : s.dropGcs ≠ 0 → ∀ sn ∈ s.db.snapshots, sn.key ∈ activeKeys s.reducers

theorem lifetimeInv_opened {autoGcOrphans : Bool} : LifetimeInv (.opened autoGcOrphans db) where
  alone h := absurd h (by simp [StoreLifetime.opened])
  once := Nat.zero_le 1
  before _ := rfl
  clean h := absurd rfl h

theorem LifetimeInv.not_collecting (h : LifetimeInv s) (hlive : s.live ≠ 0) :
    s.collecting = false := by
  cases hcollecting : s.collecting with
  | false => rfl
  | true => exact absurd (h.alone hcollecting) hlive

/-- One reference, and a `Store` that nobody is dropping: it is that one. -/
theorem LifetimeInv.strongCount_eq_one_iff (h : LifetimeInv s) (hlive : s.live ≠ 0) :
    s.strongCount = 1 ↔ s.live = 1 ∧ s.releasing = 0 ∧ s.background = false := by
  rw [StoreLifetime.strongCount, h.not_collecting hlive]
  cases s.background with
  | false =>
    simp only [Bool.toNat_false, and_true]
    omega
  | true =>
    simp only [Bool.toNat_false, Bool.toNat_true, Bool.true_eq_false, and_false, iff_false]
    omega

/-- **One step.** -/
theorem lifetimeInv_step (hs : LifetimeInv s) (h : lifetimeStep s a = some s') :
    LifetimeInv s' := by
  obtain ⟨halone, honce, hbefore, hclean⟩ := hs
  cases lifetimeTaken_of_step h with
  | cloned hlive => exact ⟨fun hc => absurd (halone hc) hlive, honce, fun _ => hbefore hlive, hclean⟩
  | registered hlive hkeys =>
    exact ⟨halone, honce, hbefore, fun hgcs => absurd (hbefore hlive) hgcs⟩
  | wrote hdb =>
    refine ⟨halone, honce, hbefore, fun hgcs sn hsn => ?_⟩
    rcases hdb sn hsn with hold | hlive | hkey
    · exact hclean hgcs sn hold
    · exact absurd (hbefore hlive) hgcs
    · exact hkey
  | found hauto hlive hcount =>
    -- the one reference is that of the `Store` itself
    have hzero : s.dropGcs = 0 := hbefore hlive
    have hone : s.live = 1 := by
      rw [StoreLifetime.strongCount] at hcount
      omega
    refine ⟨fun _ => ?_, ?_, fun _ => hzero, hclean⟩
    · show s.live - 1 = 0
      omega
    · show s.dropGcs + 1 ≤ 1
      omega
  | passed hlive hcount =>
    refine ⟨fun hc => absurd (halone hc) hlive, honce, fun _ => hbefore hlive, hclean⟩
  | collected hcollecting =>
    rw [hcollecting] at honce
    refine ⟨fun hc => absurd hc (by simp), honce, fun hlive => ?_, fun _ sn hsn => ?_⟩
    · exact absurd (halone hcollecting) hlive
    · exact ((gcOrphanedSnapshotsImpl_spec.2 sn).mp hsn).2
  | released hreleasing => exact ⟨halone, honce, hbefore, hclean⟩
  | upgraded hcount hbackground => exact ⟨halone, honce, hbefore, hclean⟩
  | backgroundCollected hbackground =>
    refine ⟨halone, honce, hbefore, fun hgcs sn hsn => ?_⟩
    exact hclean hgcs sn ((gcOrphanedSnapshotsImpl_spec.2 sn).mp hsn).1
  | finished hbackground => exact ⟨halone, honce, hbefore, hclean⟩

theorem lifetimeInv_run {autoGcOrphans : Bool}
    (hrun : run lifetimeStep (.opened autoGcOrphans db) as = some s) : LifetimeInv s :=
  run_invariant_all (I := LifetimeInv) (fun _ _ _ hs h => lifetimeInv_step hs h)
    lifetimeInv_opened hrun

/-! ### The last drop -/

/-- Somewhere in the run a `Store` was dropped that was all that was left. -/
def DroppedAlone (autoGcOrphans : Bool) (db : Db) (as : List LifetimeAction) : Prop :=
  ∃ bs cs t, as = bs ++ .drop :: cs ∧ run lifetimeStep (.opened autoGcOrphans db) bs = some t ∧
    t.live = 1 ∧ t.releasing = 0 ∧ t.background = false

/-- One action more: it is among the old ones, or it is the new one. -/
theorem droppedAlone_concat {autoGcOrphans : Bool}
    (hrun : run lifetimeStep (.opened autoGcOrphans db) as = some s) :
    DroppedAlone autoGcOrphans db (as ++ [a]) ↔ DroppedAlone autoGcOrphans db as ∨
      a = .drop ∧ s.live = 1 ∧ s.releasing = 0 ∧ s.background = false := by
  constructor
  · rintro ⟨bs, cs, t, heq, ht, halone⟩
    rcases List.eq_nil_or_concat cs with rfl | ⟨ds, d, rfl⟩
    · obtain ⟨rfl, hlast⟩ := List.append_inj' heq rfl
      obtain rfl := Option.some_inj.mp (hrun.symm.trans ht)
      exact .inr ⟨(List.cons.inj hlast).1, halone⟩
    · rw [List.concat_eq_append, ← List.cons_append, ← List.append_assoc] at heq
      exact .inl ⟨bs, ds, t, (List.append_inj' heq rfl).1, ht, halone⟩
  · rintro (⟨bs, cs, t, rfl, ht, halone⟩ | ⟨rfl, halone⟩)
    · exact ⟨bs, cs ++ [a], t, by simp, ht, halone⟩
    · exact ⟨as, [], s, rfl, hrun, halone⟩

/-- What the collections so far say of the run. -/
theorem collects_iff_run {autoGcOrphans : Bool}
    (hrun : run lifetimeStep (.opened autoGcOrphans db) as = some s) :
    s.dropGcs + s.collecting.toNat = 1 ↔
      autoGcOrphans = true ∧ DroppedAlone autoGcOrphans db as := by
  suffices h : s.autoGcOrphans = autoGcOrphans ∧
      run lifetimeStep (.opened autoGcOrphans db) as = some s ∧
      (s.dropGcs + s.collecting.toNat = 1 ↔
        autoGcOrphans = true ∧ DroppedAlone autoGcOrphans db as) from h.2.2
  refine run_history
    (J := fun bs t => t.autoGcOrphans = autoGcOrphans ∧
      run lifetimeStep (.opened autoGcOrphans db) bs = some t ∧
      (t.dropGcs + t.collecting.toNat = 1 ↔
        autoGcOrphans = true ∧ DroppedAlone autoGcOrphans db bs))
    ⟨rfl, rfl, ?_⟩ ?_ along_true hrun
  · -- nothing was dropped yet
    refine ⟨fun h => absurd h Nat.zero_ne_one, ?_⟩
    rintro ⟨-, bs, cs, t, heq, -⟩
    exact absurd heq (by simp)
  · rintro bs t a t' ⟨hauto, ht, hiff⟩ - hstep
    have hinv : LifetimeInv t := lifetimeInv_run ht
    have hconcat := @droppedAlone_concat t a bs db autoGcOrphans ht
    have ht' : run lifetimeStep (.opened autoGcOrphans db) (bs ++ [a]) = some t' :=
      run_append.mpr ⟨t, ht, run_cons.mpr ⟨t', hstep, rfl⟩⟩
    -- what is no `drop` has no part in it
    have hother (hne : a ≠ .drop) :
        DroppedAlone autoGcOrphans db (bs ++ [a]) ↔ DroppedAlone autoGcOrphans db bs := by
      rw [hconcat]
      exact ⟨fun h => h.resolve_right fun hdrop => hne hdrop.1, .inl⟩
    cases lifetimeTaken_of_step hstep with
    | found hon hlive hcount =>
      have hzero := hinv.before hlive
      have halone := (hinv.strongCount_eq_one_iff hlive).mp hcount
      refine ⟨hauto, ht', ⟨fun _ => ⟨hauto ▸ hon, hconcat.mpr (.inr ⟨rfl, halone⟩)⟩, fun _ => ?_⟩⟩
      show t.dropGcs + 1 = 1
      rw [hzero]
    | passed hlive hcount =>
      refine ⟨hauto, ht', hiff.trans (and_congr_right fun hon => ?_)⟩
      rw [hconcat]
      refine ⟨.inl, fun h => h.resolve_right fun ⟨_, halone⟩ => ?_⟩
      exact hcount (hauto.trans hon) ((hinv.strongCount_eq_one_iff hlive).mpr halone)
    | collected hcollecting =>
      rw [hcollecting] at hiff
      exact ⟨hauto, ht', by rw [hother (by simp)]; exact hiff⟩
    | cloned _ => exact ⟨hauto, ht', by rw [hother (by simp)]; exact hiff⟩
    | registered _ _ => exact ⟨hauto, ht', by rw [hother (by simp)]; exact hiff⟩
    | wrote _ => exact ⟨hauto, ht', by rw [hother (by simp)]; exact hiff⟩
    | released _ => exact ⟨hauto, ht', by rw [hother (by simp)]; exact hiff⟩
    | upgraded _ _ => exact ⟨hauto, ht', by rw [hother (by simp)]; exact hiff⟩
    | backgroundCollected _ => exact ⟨hauto, ht', by rw [hother (by simp)]; exact hiff⟩
    | finished _ => exact ⟨hauto, ht', by rw [hother (by simp)]; exact hiff⟩

/-- **The drop-time collection**, once nothing refers to the store any more: it ran at most once,
and it ran if and only if the option is set and a `Store` was dropped while it was the only one,
with no other half-way through its `drop` and no task running.  If it ran, only snapshots of the
registered reducers are left. -/
theorem drop_gc_iff {autoGcOrphans : Bool}
    (hrun : run lifetimeStep (.opened autoGcOrphans db) as = some s) (hgone : s.strongCount = 0) :
    s.dropGcs ≤ 1 ∧
      (s.dropGcs = 1 ↔ autoGcOrphans = true ∧ DroppedAlone autoGcOrphans db as) ∧
      (s.dropGcs = 1 → ∀ sn ∈ s.db.snapshots, sn.key ∈ activeKeys s.reducers) := by
  have hinv : LifetimeInv s := lifetimeInv_run hrun
  have hdone : s.collecting.toNat = 0 := by
    rw [StoreLifetime.strongCount] at hgone
    omega
  have hiff := collects_iff_run hrun
  rw [hdone, Nat.add_zero] at hiff
  have honce := hinv.once
  refine ⟨by omega, hiff, fun hgcs => hinv.clean ?_⟩
  rw [hgcs]
  exact Nat.one_ne_zero

/-- A file with a snapshot that no reducer is registered for. -/
def orphanFile : Db := ⟨[], [], [⟨"a/b", "main", 3, "gone", 1, 1, [], 0⟩]⟩

/-- One `Store`, opened and dropped: the snapshot is collected. -/
theorem drop_gc_iff_one : ∃ s,
    run lifetimeStep (.opened true orphanFile) [.drop, .collect, .release] = some s ∧
      s.strongCount = 0 ∧ s.dropGcs = 1 ∧ ∀ sn ∈ s.db.snapshots, sn.key ∈ activeKeys [] := by
  obtain ⟨s, hrun, hgone, hreducers⟩ : ∃ s,
      run lifetimeStep (.opened true orphanFile) [.drop, .collect, .release] = some s ∧
        s.strongCount = 0 ∧ s.reducers = [] := ⟨_, rfl, rfl, rfl⟩
  obtain ⟨-, hiff, hclean⟩ := drop_gc_iff hrun hgone
  have hgcs : s.dropGcs = 1 :=
    hiff.mpr ⟨rfl, [], [.collect, .release], _, rfl, rfl, rfl, rfl, rfl⟩
  exact ⟨s, hrun, hgone, hgcs, hreducers ▸ hclean hgcs⟩

/-! ### Clones that are dropped together -/

/-- As many drops as there are stores: none of them sees a count of one. -/
theorem run_drops (hcount : s.strongCount ≠ 1) {n : ℕ} (hn : s.live = n) :
    run lifetimeStep s (List.replicate n .drop) =
      some { s with live := 0, releasing := s.releasing + n } := by
  induction n generalizing s with
  | zero => rw [List.replicate_zero, run_nil, Nat.add_zero, ← hn]
  | succ n ih =>
    have hstep : lifetimeStep s .drop = some { s with live := n, releasing := s.releasing + 1 } := by
      rw [lifetimeStep, if_neg (by omega), if_neg (by simp [hcount]), hn, Nat.add_sub_cancel]
    have hsame : StoreLifetime.strongCount { s with live := n, releasing := s.releasing + 1 } =
        s.strongCount := by
      show n + s.collecting.toNat + (s.releasing + 1) + s.background.toNat = _
      rw [StoreLifetime.strongCount, hn]
      omega
    rw [List.replicate_succ]
    refine run_cons.mpr ⟨_, hstep, ?_⟩
    rw [ih (hsame ▸ hcount) rfl, Nat.add_assoc, Nat.add_comm 1]

theorem run_releases {n : ℕ} (hn : s.releasing = n) :
    run lifetimeStep s (List.replicate n .release) = some { s with releasing := 0 } := by
  induction n generalizing s with
  | zero => rw [List.replicate_zero, run_nil, ← hn]
  | succ n ih =>
    have hstep : lifetimeStep s .release = some { s with releasing := n } := by
      rw [lifetimeStep, if_neg (by omega), hn, Nat.add_sub_cancel]
    rw [List.replicate_succ]
    exact run_cons.mpr ⟨_, hstep, ih rfl⟩

/-- What is left to do when nobody has a `Store` any more, and nothing collects. -/
theorem run_let_go (hlive : s.live = 0) (hcollecting : s.collecting = false) :
    ∃ bs s', run lifetimeStep s bs = some s' ∧ s'.strongCount = 0 ∧ s'.dropGcs = s.dropGcs ∧
      s'.db = s.db := by
  have hrel := @run_releases s s.releasing rfl
  cases hbackground : s.background with
  | false =>
    refine ⟨_, _, hrel, ?_, rfl, rfl⟩
    simp [StoreLifetime.strongCount, hlive, hcollecting, hbackground]
  | true =>
    -- the task goes last
    have hfin : lifetimeStep { s with releasing := 0 } .finish =
        some { s with releasing := 0, background := false } := if_pos hbackground
    refine ⟨_ ++ [.finish], { s with releasing := 0, background := false },
      run_append.mpr ⟨_, hrel, run_cons.mpr ⟨_, hfin, rfl⟩⟩, ?_, rfl, rfl⟩
    simp [StoreLifetime.strongCount, hlive, hcollecting]

/-- **Clones dropped together are not collected after**: wherever a run has left more than one
reference, it can go on to a state with none, in which no `drop` has collected and the tables are
what they were.  The comment at the collection has it that the call at the drop is the final
cleanup, and runs even if the executor never did. -/
theorem drop_gc_missed {autoGcOrphans : Bool}
    (hrun : run lifetimeStep (.opened autoGcOrphans db) as = some s) (hlive : s.live ≠ 0)
    (hcount : 1 < s.strongCount) :
    ∃ bs s', run lifetimeStep s bs = some s' ∧ s'.strongCount = 0 ∧ s'.dropGcs = 0 ∧
      s'.db = s.db := by
  have hinv : LifetimeInv s := lifetimeInv_run hrun
  have hdrops := @run_drops s hcount.ne' s.live rfl
  obtain ⟨bs, s', hlet, hgone, hgcs, hdb⟩ :=
    @run_let_go { s with live := 0, releasing := s.releasing + s.live } rfl
      (hinv.not_collecting hlive)
  refine ⟨_ ++ bs, s', run_append.mpr ⟨_, hdrops, hlet⟩, hgone, ?_, hdb⟩
  rw [hgcs]
  exact hinv.before hlive

/-- Two clones of a store on a file with an orphaned snapshot can be dropped so that it stays. -/
theorem drop_gc_missed_two : ∃ as s,
    run lifetimeStep (.opened true orphanFile) as = some s ∧ s.strongCount = 0 ∧ s.dropGcs = 0 ∧
      s.db.snapshots ≠ [] := by
  obtain ⟨t, hrun, hlive, hcount, hdb⟩ : ∃ t,
      run lifetimeStep (.opened true orphanFile) [.clone] = some t ∧ t.live ≠ 0 ∧
        1 < t.strongCount ∧ t.db = orphanFile :=
    ⟨_, rfl, Nat.succ_ne_zero 1, Nat.one_lt_two, rfl⟩
  obtain ⟨bs, s, hbs, hgone, hgcs, hsame⟩ := drop_gc_missed hrun hlive hcount
  refine ⟨[.clone] ++ bs, s, run_append.mpr ⟨t, hrun, hbs⟩, hgone, hgcs, ?_⟩
  rw [hsame, hdb]
  exact List.cons_ne_nil _ _

end Fossic
