/-
The history of a stream and branch: its rows in version order.

* `Db.Fits` — the tables as every run keeps them; `Db.Counted` — as runs without
  purges keep them: versions count from 0 without gaps, so that the largest is
  below the number of rows;
* `run_fits` — the tables fit in every reachable state;
* `Extends`, `extends_grows` — a history is only ever extended, above its largest
  version;
* `readRangeImpl_eq` — a range read without limit and filter returns the part of
  the history between its bounds.
-/
import Fossic.VersionHistory
import Fossic.WorldInvariant
import Fossic.Checkpoint

namespace Fossic

open KeySort Checkpoint

/-- The rows of the stream and branch, in increasing version order. -/
def Db.rowsOn (db : Db) (streamId branch : String) : List EventRow :=
  sortBy EventRow.version (db.events.filter fun r => r.On streamId branch)

/-- The versions are as they should be, and the table has not outgrown its
limit. -/
structure Db.Fits (db : Db) : Prop where
  sane : db.Sane
  room : db.events.length ≤ MAX_ROWS

/-- Versions count from 0 on every stream and branch. -/
structure Db.Counted (db : Db) : Prop extends db.Fits where
  count : ∀ streamId branch, db.maxVersion streamId branch < db.events.length

variable {db db' db₁ db₂ db₃ : Db} {rows : List EventRow} {P : EventRow → Prop}
  {streamId branch : String}

/-! ### Counting -/

theorem fits_insert {row : EventRow} (h : db.Fits) (hins : Insertable db row) :
    (db.insert row).Fits where
  sane := sane_insert h.sane hins
  room := by
    show (db.events ++ [row]).length ≤ MAX_ROWS
    rw [List.length_append, List.length_singleton]
    exact hins.room

theorem Db.Fits.grows (hgrows : Grows P db rows db') (h : db.Fits) : db'.Fits := by
  induction hgrows with
  | refl => exact h
  | insert hins _ _ ih => exact ih (fits_insert h hins)

theorem Db.Fits.congr (hevents : db'.events = db.events) (h : db.Fits) : db'.Fits where
  sane := h.sane.congr hevents
  room := by
    rw [hevents]
    exact h.room

theorem counted_insert {row : EventRow} (h : db.Counted) (hins : Insertable db row) :
    (db.insert row).Counted where
  toFits := fits_insert h.toFits hins
  count := by
    intro streamId branch
    have hlen : (db.insert row).events.length = db.events.length + 1 := List.length_append
    have hle : (db.insert row).maxVersion streamId branch ≤ db.events.length := by
      refine (db.insert row).maxVersion_le (by omega) fun r hr hon => ?_
      rcases List.mem_append.mp hr with hr | hr
      · have hle := db.le_maxVersion hr hon
        have hcount := h.count streamId branch
        omega
      · obtain rfl := List.mem_singleton.mp hr
        have hcount := h.count r.streamId r.branch
        have hnext := hins.next
        omega
    omega

theorem Db.Counted.grows (hgrows : Grows P db rows db') (h : db.Counted) : db'.Counted := by
  induction hgrows with
  | refl => exact h
  | insert hins _ _ ih => exact ih (counted_insert h hins)

theorem Db.Counted.congr (hevents : db'.events = db.events) (h : db.Counted) : db'.Counted where
  toFits := h.toFits.congr hevents
  count streamId branch := by
    rw [Db.maxVersion, Db.versions, hevents]
    exact h.count streamId branch

theorem bootstrap_counted (now : Int64) : (Db.bootstrap now).Counted where
  sane := bootstrap_sane now
  room := Nat.zero_le _
  count _ _ := by
    show (-1 : ℤ) < 0
    omega

theorem exec_counted {d : Deps} {op : StoreOp} (hop : op.isPurge = false) (h : db.Counted) :
    (exec d db op).Counted := by
  obtain ⟨db₁, rows, hevents, -, hgrows, -⟩ := @exec_grows d db op hop
  exact (h.congr hevents).grows hgrows

theorem Db.Fits.delete {id : EventId} (h : db.Fits) : (db.delete id).Fits where
  sane :=
    ⟨fun r hr => h.sane.range r (List.mem_of_mem_filter hr),
      h.sane.distinct.sublist List.filter_sublist⟩
  room := (List.length_filter_le _ _).trans h.room

/-- **Operations** keep what depends on the events alone and is kept by insertions and
deletions. -/
theorem exec_keeps {d : Deps} {op : StoreOp} {I : Db → Prop}
    (hcongr : ∀ {db db' : Db}, db'.events = db.events → I db → I db')
    (hinsert : ∀ {db : Db} {row : EventRow}, Insertable db row → I db → I (db.insert row))
    (hdelete : ∀ {db : Db} {id : EventId}, I db → I (db.delete id)) (h : I db) :
    I (exec d db op) := by
  have hgrown : ∀ {P : EventRow → Prop} {db db' : Db} {rows : List EventRow},
      Grows P db rows db' → I db → I db' := by
    intro P db db' rows hgrows h
    induction hgrows with
    | refl => exact h
    | insert hins _ _ ih => exact ih (hinsert hins h)
  by_cases hop : op.isPurge = false
  · obtain ⟨db₁, rows, hevents, -, hgrows, -⟩ := @exec_grows d db op hop
    exact hgrown hgrows (hcongr hevents h)
  · cases op with
    | purge id confirm reason purgedBy purgedAtUs =>
      rw [exec]
      rcases hpurge : purgeEventImpl d id confirm reason purgedBy purgedAtUs db with e | db'
      · exact h
      · obtain ⟨-, original, -, -, purgedId, rows, db₂, -, hgrows, -, rfl⟩ :=
          purgeEventImpl_spec hpurge
        exact hdelete (hgrown hgrows (hcongr events_insertStream h))
    | declareStream | write | emit => exact absurd rfl hop

theorem exec_fits {d : Deps} (op : StoreOp) (h : db.Fits) : (exec d db op).Fits :=
  exec_keeps (fun hevents h => h.congr hevents) (fun hins h => fits_insert h hins)
    (fun h => h.delete) h

/-- The tables fit in every reachable state, purges or not. -/
theorem run_fits {d : Deps} {now : Int64} {ops : List StoreOp}
    (h : Transition.run (storeStep d) (Db.bootstrap now) ops = some db) : db.Fits := by
  refine Transition.run_invariant_all (I := Db.Fits) (fun db op db' hdb hstep => ?_)
    (bootstrap_counted now).toFits h
  obtain rfl := Option.some_inj.mp hstep
  exact exec_fits op hdb

/-- No version comes near the limits of `i64`. -/
theorem Db.Counted.maxVersion_lt (h : db.Counted) : db.maxVersion streamId branch < MAX_ROWS := by
  have hcount := h.count streamId branch
  have hroom := h.room
  omega

/-! ### Rows in version order -/

theorem mem_rowsOn {r : EventRow} :
    r ∈ db.rowsOn streamId branch ↔ r ∈ db.events ∧ r.On streamId branch := by
  rw [Db.rowsOn, mem_sortBy, List.mem_filter, decide_eq_true_iff]

theorem rowsOn_sorted : (db.rowsOn streamId branch).Pairwise fun r r' => r.version ≤ r'.version :=
  sortBy_sorted _ _

theorem rowsOn_congr (hevents : db'.events = db.events) :
    db'.rowsOn streamId branch = db.rowsOn streamId branch := by
  rw [Db.rowsOn, hevents]
  rfl

theorem Db.Sane.distinctOn (h : db.Sane) :
    ((db.events.filter fun r => r.On streamId branch).map EventRow.version).Nodup := by
  rw [List.Nodup, List.pairwise_map, List.pairwise_filter]
  refine h.distinct.imp fun hne hr hr' hv => hne ⟨?_, hv⟩
  have hon := of_decide_eq_true hr
  have hon' := of_decide_eq_true hr'
  exact ⟨hon.1.trans hon'.1.symm, hon.2.trans hon'.2.symm⟩

theorem le_of_mem_rowsOn {r : EventRow} (hr : r ∈ db.rowsOn streamId branch) :
    r.version ≤ db.maxVersion streamId branch :=
  db.le_maxVersion (mem_rowsOn.mp hr).1 (mem_rowsOn.mp hr).2

/-- An insertion adds its row to the end of its own history and leaves the others
alone. -/
theorem rowsOn_insert {row : EventRow} (h : db.Sane) (hins : Insertable db row) :
    (db.insert row).rowsOn streamId branch =
      db.rowsOn streamId branch ++ [row].filter fun r => r.On streamId branch := by
  show sortBy _ ((db.events ++ [row]).filter _) = _
  rw [List.filter_append]
  by_cases hon : row.On streamId branch
  · have hrow : [row].filter (fun r => decide (r.On streamId branch)) = [row] :=
      List.filter_cons_of_pos (decide_eq_true hon)
    rw [hrow]
    refine sortBy_append_of_lt h.distinctOn fun r hr => hins.above (List.mem_of_mem_filter hr) ?_
    have hr' := of_decide_eq_true (List.mem_filter.mp hr).2
    exact ⟨hr'.1.trans hon.1.symm, hr'.2.trans hon.2.symm⟩
  · have hrow : [row].filter (fun r => decide (r.On streamId branch)) = [] :=
      List.filter_cons_of_neg fun hd => hon (of_decide_eq_true hd)
    rw [hrow, List.append_nil, List.append_nil]
    rfl

/-- Every history of `db'` is that of `db`, extended above its largest version
without a gap. -/
structure Extends (db db' : Db) : Prop where
  rowsOn : ∀ streamId branch, ∃ new, db'.rowsOn streamId branch = db.rowsOn streamId branch ++ new ∧
    ∀ r ∈ new, db.maxVersion streamId branch < r.version
  maxVersion : ∀ streamId branch, db.maxVersion streamId branch ≤ db'.maxVersion streamId branch
  counted : db.Counted → db'.Counted

theorem extends_congr (hevents : db'.events = db.events) : Extends db db' where
  rowsOn _ _ := ⟨[], by rw [rowsOn_congr hevents, List.append_nil], by simp⟩
  maxVersion streamId branch := by
    rw [Db.maxVersion, Db.maxVersion, Db.versions, Db.versions, hevents]
  counted h := h.congr hevents

theorem Extends.trans (h : Extends db₁ db₂) (h' : Extends db₂ db₃) : Extends db₁ db₃ where
  rowsOn := by
    intro streamId branch
    obtain ⟨new, hnew, habove⟩ := h.rowsOn streamId branch
    obtain ⟨new', hnew', habove'⟩ := h'.rowsOn streamId branch
    refine ⟨new ++ new', by rw [hnew', hnew, List.append_assoc], fun r hr => ?_⟩
    rcases List.mem_append.mp hr with hr | hr
    · exact habove r hr
    · exact (h.maxVersion streamId branch).trans_lt (habove' r hr)
  maxVersion streamId branch := (h.maxVersion streamId branch).trans (h'.maxVersion streamId branch)
  counted hdb := h'.counted (h.counted hdb)

theorem extends_insert {row : EventRow} (h : db.Sane) (hins : Insertable db row) :
    Extends db (db.insert row) where
  rowsOn := by
    intro streamId branch
    refine ⟨_, rowsOn_insert h hins, fun r hr => ?_⟩
    obtain ⟨hmem, hon⟩ := List.mem_filter.mp hr
    obtain rfl := List.mem_singleton.mp hmem
    obtain ⟨rfl, rfl⟩ := of_decide_eq_true hon
    have hnext := hins.next
    omega
  maxVersion streamId branch := by
    have hlater : Later db (db.insert row) :=
      later_of_grows rfl (.insert (P := fun _ => True) hins trivial (.refl _))
    exact hlater.maxVersion_le (sane_insert h hins)
  counted hdb := counted_insert hdb hins

theorem extends_grows (hgrows : Grows P db rows db') (h : db.Sane) : Extends db db' := by
  induction hgrows with
  | refl db => exact extends_congr rfl
  | insert hins _ _ ih => exact (extends_insert h hins).trans (ih (sane_insert h hins))

/-- Rows on other streams and branches leave a history alone. -/
theorem rowsOn_of_other (hgrows : Grows P db rows db') (hP : ∀ r, P r → ¬ r.On streamId branch) :
    db'.rowsOn streamId branch = db.rowsOn streamId branch := by
  have hrows : rows.filter (fun r => decide (r.On streamId branch)) = [] := by
    refine List.filter_eq_nil_iff.mpr fun r hr => ?_
    simpa using hP r (hgrows.all r hr)
  rw [Db.rowsOn, hgrows.eq]
  show sortBy _ ((db.events ++ rows).filter _) = _
  rw [List.filter_append, hrows, List.append_nil]
  rfl

/-! ### Range reads -/

/-- The implicit limit of `i64::MAX` rows is never reached. -/
theorem orderAndLimit_i64Max (h : db.Fits) (p : EventRow → Bool) :
    orderAndLimit i64Max (db.events.filter p) = sortBy EventRow.version (db.events.filter p) := by
  have hroom := h.room
  have hnonneg : ¬ i64Max < 0 := by decide
  have hbig : MAX_ROWS ≤ i64Max.toNat := by decide
  have hlength := List.length_filter_le p db.events
  rw [orderAndLimit, if_neg hnonneg]
  refine List.take_of_length_le ?_
  rw [length_sortBy]
  omega

/-- With no limit and no filter, a range read is a stretch of the history. -/
theorem readRangeImpl_eq (h : db.Fits) {lo hi : Option UInt64} :
    readRangeImpl db ⟨streamId, branch, lo, hi, none, none⟩ =
      ((db.rowsOn streamId branch).filter fun r =>
        u64AsI64 (lo.getD 0) ≤ r.version && r.version ≤ (hi.map u64AsI64).getD i64Max).map
          rowToEvent := by
  have hsorted : ∀ p : EventRow → Bool,
      sortBy EventRow.version (db.events.filter fun r => r.On streamId branch && p r) =
        (db.rowsOn streamId branch).filter p := by
    intro p
    rw [Db.rowsOn, ← sortBy_filter, List.filter_filter]
    exact congrArg _ (List.filter_congr fun r _ => Bool.and_comm _ _)
  rw [readRangeImpl]
  refine congrArg (List.map rowToEvent) ?_
  show orderAndLimit i64Max _ = _
  rw [orderAndLimit_i64Max h, ← hsorted]
  refine congrArg _ (List.filter_congr fun r _ => ?_)
  show _ = (decide (r.On streamId branch) && (_ && _))
  rw [Option.all_none, Bool.and_true, Bool.and_assoc]

/-- Without bounds it is all of it. -/
theorem readRangeImpl_all (h : db.Fits) :
    readRangeImpl db ⟨streamId, branch, none, none, none, none⟩ =
      (db.rowsOn streamId branch).map rowToEvent := by
  rw [readRangeImpl_eq h]
  refine congrArg _ (List.filter_eq_self.mpr fun r hr => ?_)
  have hrange := h.sane.range r (mem_rowsOn.mp hr).1
  have hlow : u64AsI64 ((none : Option UInt64).getD 0) = 0 := by decide
  rw [hlow]
  show (decide (0 ≤ r.version) && decide (r.version ≤ 2 ^ 63 - 1)) = true
  rw [decide_eq_true hrange.1, decide_eq_true (by omega), Bool.true_and]

end Fossic
