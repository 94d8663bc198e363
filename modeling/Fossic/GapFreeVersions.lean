/-
Versions without gaps, rows that never change.

In a run without purges every writer adds rows at `MAX(version) + 1` of their stream
and branch, so the stored versions count from 0; a call that fails or finds its
event already stored adds nothing.

* `Db.GapFree`, `gapFree_insert` — what an insertion keeps;
* `CallLaw`, `callLaw` — what one call changes;
* `versions_gap_free` — both, over whole runs.
-/
import Fossic.History

namespace Fossic

open Transition

/-- The versions of every stream and branch are `0, 1, …, n - 1`. -/
def Db.GapFree (db : Db) : Prop :=
  ∀ streamId branch, (db.rowsOn streamId branch).map EventRow.version =
    (List.range (db.rowsOn streamId branch).length).map fun k : ℕ => (k : ℤ)

/-- What a call may change: it only adds rows; a write call that fails adds none,
one that succeeds adds one for each outcome that is new, and an outcome whose event
is already stored is not. -/
def CallLaw (d : Deps) (db : Db) : StoreOp → Prop
  | .declareStream streamId declaredBy description now =>
    (exec d db (.declareStream streamId declaredBy description now)).events = db.events
  | .write transforms call clock =>
    match call.execute d transforms clock db with
    | .error _ => exec d db (.write transforms call clock) = db
    | .ok (outcomes, db') => exec d db (.write transforms call clock) = db' ∧
        ∃ rows, db'.events = db.events ++ rows ∧
          List.Forall₂ Describes (newEvents outcomes) rows ∧
          ∀ o ∈ outcomes, (∃ r ∈ db.events, r.id = o.1.eventId) → o.1.isNew = false
  | .emit eventType payload indexedTags now =>
    ∃ rows, (exec d db (.emit eventType payload indexedTags now)).events = db.events ++ rows ∧
      ∀ row ∈ rows, row.On SYSTEM_STREAM SYSTEM_BRANCH ∧ ∀ r ∈ db.events, r.id ≠ row.id
  | .purge _ _ _ _ _ => True

variable {d : Deps} {db db' : Db} {rows : List EventRow} {P : EventRow → Prop}
  {streamId branch : String}

/-! ### Counting -/

/-- Without gaps, the largest version is one below the number of rows. -/
theorem Db.GapFree.maxVersion (h : db.GapFree) :
    db.maxVersion streamId branch = (db.rowsOn streamId branch).length - 1 := by
  -- the versions in use are those below the number of rows
  have hmem : ∀ v : ℤ, (∃ r ∈ db.rowsOn streamId branch, r.version = v) ↔
      ∃ k < (db.rowsOn streamId branch).length, (k : ℤ) = v := by
    intro v
    have hcount := congrArg (v ∈ ·) (h streamId branch)
    simpa using hcount
  refine le_antisymm (db.maxVersion_le (by omega) fun r hr hon => ?_) ?_
  · obtain ⟨k, hk, hv⟩ := (hmem r.version).mp ⟨r, mem_rowsOn.mpr ⟨hr, hon⟩, rfl⟩
    omega
  · rcases Nat.eq_zero_or_pos (db.rowsOn streamId branch).length with hzero | hpos
    · rcases db.maxVersion_attained streamId branch with hmax | ⟨r, hr, hon, -⟩
      · omega
      · have hr : r ∈ db.rowsOn streamId branch := mem_rowsOn.mpr ⟨hr, hon⟩
        exact absurd (List.length_pos_of_mem hr) (by omega)
    · obtain ⟨r, hr, hv⟩ := (hmem ((db.rowsOn streamId branch).length - 1)).mpr
        ⟨(db.rowsOn streamId branch).length - 1, by omega, by omega⟩
      rw [← hv]
      exact le_of_mem_rowsOn hr

/-- The next version is the number of rows. -/
theorem gapFree_insert {row : EventRow} (h : db.GapFree) (hsane : db.Sane)
    (hins : Insertable db row) : (db.insert row).GapFree := by
  intro streamId branch
  rw [rowsOn_insert hsane hins]
  by_cases hon : row.On streamId branch
  · have hrow : [row].filter (fun r => decide (r.On streamId branch)) = [row] :=
      List.filter_cons_of_pos (decide_eq_true hon)
    have hversion : row.version = (db.rowsOn streamId branch).length := by
      have hmax : db.maxVersion row.streamId row.branch = _ := h.maxVersion
      have hnext := hins.next
      rw [hon.1, hon.2] at hmax hnext
      omega
    rw [hrow, List.map_append, h streamId branch, List.length_append, List.length_singleton,
      List.range_succ, List.map_append, List.map_singleton, List.map_singleton, hversion]
  · have hrow : [row].filter (fun r => decide (r.On streamId branch)) = [] :=
      List.filter_cons_of_neg fun hd => hon (of_decide_eq_true hd)
    rw [hrow, List.append_nil]
    exact h streamId branch

theorem Db.GapFree.grows (hgrows : Grows P db rows db') (h : db.GapFree) (hsane : db.Sane) :
    db'.GapFree := by
  induction hgrows with
  | refl => exact h
  | insert hins _ _ ih => exact ih (gapFree_insert h hsane hins) (sane_insert hsane hins)

theorem Db.GapFree.congr (hevents : db'.events = db.events) (h : db.GapFree) : db'.GapFree := by
  intro streamId branch
  rw [rowsOn_congr hevents]
  exact h streamId branch

/-! ### Calls -/

/-- A new outcome is one whose id was not stored. -/
theorem isNew_eq_false {outcomes : List (AppendOutcome × Append)}
    (hgrows : Grows P db rows db') (hrows : List.Forall₂ Describes (newEvents outcomes) rows)
    {o : AppendOutcome × Append} (ho : o ∈ outcomes) (hdup : ∃ r ∈ db.events, r.id = o.1.eventId) :
    o.1.isNew = false := by
  by_contra hnew
  have hevent : buildStoredEvent o.1 o.2 ∈ newEvents outcomes :=
    List.mem_map.mpr ⟨o, List.mem_filter.mpr ⟨ho, by simpa using hnew⟩, rfl⟩
  obtain ⟨row, hrow, hdescribes⟩ := exists_of_mem_forall₂ hrows.flip hevent
  have hid : o.1.eventId = row.id := congrArg StoredEvent.id hdescribes
  obtain ⟨r, hr, hrid⟩ := hdup
  exact hgrows.fresh row hrow r hr (hrid.trans hid)

theorem callLaw (d : Deps) (db : Db) (op : StoreOp) : CallLaw d db op := by
  cases op with
  | declareStream streamId declaredBy description now =>
    show (exec d db _).events = db.events
    rw [exec, declareStreamImpl]
    cases validateStreamId d.isAlphanumeric streamId with
    | error e => rfl
    | ok u => exact events_insertStream
  | write transforms call clock =>
    rw [CallLaw, exec]
    rcases hcall : call.execute d transforms clock db with e | ⟨outcomes, db'⟩
    · rfl
    · obtain ⟨rows, hgrows, hrows⟩ := execute_grows hcall
      refine ⟨rfl, rows, by rw [hgrows.eq], hrows, fun o ho hdup => ?_⟩
      exact isNew_eq_false hgrows hrows ho hdup
  | emit eventType payload indexedTags now =>
    obtain ⟨rows, hgrows⟩ := @emit_grows d eventType payload indexedTags now db
    refine ⟨rows, by rw [exec, hgrows.eq], fun row hrow => ⟨(hgrows.all row hrow).1, ?_⟩⟩
    exact hgrows.fresh row hrow
  | purge => trivial

theorem exec_gapFree {op : StoreOp} (hop : op.isPurge = false) (h : db.GapFree) (hsane : db.Sane) :
    (exec d db op).GapFree := by
  obtain ⟨db₁, rows, hevents, -, hgrows, -⟩ := @exec_grows d db op hop
  exact (h.congr hevents).grows hgrows (hsane.congr hevents)

/-- Events are only added. -/
theorem exec_keeps_events {op : StoreOp} (hop : op.isPurge = false) :
    db.events <+: (exec d db op).events := by
  obtain ⟨db₁, rows, hevents, -, hgrows, -⟩ := @exec_grows d db op hop
  rw [hgrows.eq, ← hevents]
  exact List.prefix_append _ _

theorem run_keeps_events {ops : List StoreOp} (hops : ∀ op ∈ ops, op.isPurge = false)
    (hrun : run (storeStep d) db ops = some db') : db.events <+: db'.events := by
  refine run_invariant (I := fun s : Db => db.events <+: s.events)
    (P := fun _ op => op.isPurge = false) (fun s op s' hs hop hstep => ?_)
    (List.prefix_refl _) (along_of_forall hops) hrun
  obtain rfl := Option.some_inj.mp hstep
  exact hs.trans (exec_keeps_events hop)

/-- **Versions have no gaps and history does not change**: in every run without
purges, of calls by any number of connections, the versions of each stream and
branch count from 0; a stored row stays as and where it is; and every call adds
exactly the rows of its new outcomes, so a call that fails or repeats an event adds
none. -/
theorem versions_gap_free (d : Deps) (now : Int64) (ops : List StoreOp) (db : Db)
    (hops : ∀ op ∈ ops, op.isPurge = false)
    (hrun : run (storeStep d) (Db.bootstrap now) ops = some db) :
    db.GapFree ∧
    (∀ as bs db₁, ops = as ++ bs → run (storeStep d) (Db.bootstrap now) as = some db₁ →
      db₁.events <+: db.events) ∧
    ∀ as op bs db₁, ops = as ++ op :: bs → run (storeStep d) (Db.bootstrap now) as = some db₁ →
      CallLaw d db₁ op := by
  refine ⟨?_, ?_, fun _ op _ db₁ _ _ => callLaw d db₁ op⟩
  · have hstart : (Db.bootstrap now).GapFree ∧ (Db.bootstrap now).Sane :=
      ⟨fun _ _ => rfl, bootstrap_sane now⟩
    refine (run_invariant (I := fun db : Db => db.GapFree ∧ db.Sane)
      (P := fun _ op => op.isPurge = false) (fun db op db' h hop hstep => ?_) hstart
      (along_of_forall hops) hrun).1
    obtain rfl := Option.some_inj.mp hstep
    obtain ⟨db₁, rows, hevents, -, hgrows, -⟩ := @exec_grows d db op hop
    exact ⟨exec_gapFree hop h.1 h.2, (h.2.congr hevents).grows hgrows⟩
  · rintro as bs db₁ rfl hdb₁
    obtain ⟨t, ht, hrest⟩ := run_append.mp hrun
    obtain rfl := Option.some_inj.mp (hdb₁.symm.trans ht)
    exact run_keeps_events (fun op hop => hops op (List.mem_append_right _ hop)) hrest

/-- `versions_gap_free` on two events, a repetition and a call that fails. -/
theorem versions_gap_free_repeated : ∃ db : Db,
    (db.rowsOn "s" "main").map EventRow.version = [0, 1] ∧ db.GapFree := by
  refine ⟨_, ?_, (versions_gap_free flatDeps 0 [.declareStream "s" "t" none 0, appendNull "a",
    appendNull "a", .write [] (.append { streamId := "u", eventType := "a", payload := .null })
      (fun _ => 0), appendNull "b"] _ (by decide) rfl).1⟩
  decide

end Fossic
