/-
Whether a version is ever handed out twice.

The machine `historyStep` runs a store and records every newly inserted row, rows
that are purged later included.  Versions are `MAX(version) + 1` over the rows
that remain, so a purge of the last row of a stream and branch makes its version
available again (`version_reused`).  Nothing else does:

* `KeepsTip` — the condition on a purge: a higher version stays, or the audit row
  takes a higher one;
* `versions_increase` — in every run whose purges meet it, the versions of a
  stream and branch increase over the whole history.
-/
import Fossic.StoreRuns

namespace Fossic

open Transition

/-! ### The history of a run -/

/-- The rows of `db'` whose ids are not in `db`. -/
def newRows (db db' : Db) : List EventRow :=
  db'.events.filter fun r => !db.events.any fun q => q.id = r.id

/-- One call, with the rows inserted so far. -/
def historyStep (d : Deps) (s : Db × List EventRow) (op : StoreOp) :
    Option (Db × List EventRow) :=
  some (exec d s.1 op, s.2 ++ newRows s.1 (exec d s.1 op))

/-- A later row of the same stream and branch has a higher version. -/
def VersionsIncrease (history : List EventRow) : Prop :=
  history.Pairwise fun r r' => r'.On r.streamId r.branch → r.version < r'.version

instance (history : List EventRow) : Decidable (VersionsIncrease history) :=
  inferInstanceAs (Decidable (List.Pairwise _ _))

/-- A purge that takes effect deletes a row below another row that stays, or a row
of the system stream while its audit row is not a duplicate. -/
def KeepsTip (d : Deps) (db : Db) : StoreOp → Prop
  | .purge id confirm reason purgedBy purgedAtUs =>
    confirm = PURGE_CONFIRM → ∀ r ∈ db.events, r.id = id →
      (∃ q ∈ db.events, q.id ≠ id ∧ q.On r.streamId r.branch ∧ r.version < q.version) ∨
      (r.On SYSTEM_STREAM SYSTEM_BRANCH ∧ ∀ purgedId,
        deriveEventId d PURGED_EVENT_TYPE 1 none (purgedPayload id r reason purgedBy purgedAtUs)
          = .ok purgedId → ∀ q ∈ db.events, q.id ≠ purgedId)
  | _ => True

/-! ### New rows of one call -/

variable {d : Deps} {db db' : Db} {history rows : List EventRow} {P : EventRow → Prop}

theorem Grows.fresh (h : Grows P db rows db') : ∀ row ∈ rows, ∀ r ∈ db.events, r.id ≠ row.id := by
  induction h with
  | refl => simp
  | insert hins _ _ ih =>
    rw [List.forall_mem_cons]
    exact ⟨hins.fresh, fun row hrow r hr => ih row hrow r (List.mem_append_left _ hr)⟩

theorem Grows.all (h : Grows P db rows db') : ∀ row ∈ rows, P row := by
  induction h with
  | refl => simp
  | insert _ hrow _ ih => exact List.forall_mem_cons.mpr ⟨hrow, ih⟩

theorem Grows.above (h : Grows P db rows db') : ∀ row ∈ rows, ∀ r ∈ db.events,
    r.On row.streamId row.branch → r.version < row.version := by
  induction h with
  | refl => simp
  | insert hins _ _ ih =>
    rw [List.forall_mem_cons]
    exact ⟨fun r hr => hins.above hr, fun row hrow r hr => ih row hrow r (List.mem_append_left _ hr)⟩

theorem newRows_of_append (hevents : db'.events = db.events ++ rows)
    (hfresh : ∀ row ∈ rows, ∀ r ∈ db.events, r.id ≠ row.id) : newRows db db' = rows := by
  rw [newRows, hevents, List.filter_append]
  have hold : (db.events.filter fun r => !db.events.any fun q => q.id = r.id) = [] := by
    rw [List.filter_eq_nil_iff]
    intro r hr
    simp only [Bool.not_eq_true', Bool.not_eq_false, List.any_eq_true, decide_eq_true_eq]
    exact ⟨r, hr, rfl⟩
  have hnew : (rows.filter fun r => !db.events.any fun q => q.id = r.id) = rows := by
    rw [List.filter_eq_self]
    intro row hrow
    rw [Bool.not_eq_true', List.any_eq_false]
    exact fun r hr => by simpa using hfresh row hrow r hr
  rw [hold, hnew, List.nil_append]

/-- Deleting an old row changes nothing about the new ones. -/
theorem newRows_delete {r : EventRow} (hr : r ∈ db.events) :
    newRows db (db'.delete r.id) = newRows db db' := by
  rw [newRows, newRows, Db.delete, List.filter_filter]
  refine List.filter_congr fun row _ => ?_
  by_cases hid : row.id = r.id
  · have hold : (db.events.any fun q => q.id = row.id) = true := by
      rw [List.any_eq_true]
      exact ⟨r, hr, by simp [hid]⟩
    rw [hold]
    rfl
  · simp [hid]

/-! ### Versions handed out are remembered -/

/-- The history so far is increasing, and for each of its rows a row at that
version or above is still stored. -/
structure Remembered (history : List EventRow) (db : Db) : Prop where
  increase : VersionsIncrease history
  covered : ∀ r ∈ history, ∃ q ∈ db.events, q.On r.streamId r.branch ∧ r.version ≤ q.version
  distinct : (db.events.map (·.id)).Nodup

theorem remembered_insert {row : EventRow} (h : Remembered history db) (hins : Insertable db row) :
    Remembered (history ++ [row]) (db.insert row) where
  increase := by
    refine List.pairwise_append.mpr ⟨h.increase, List.pairwise_singleton _ _, ?_⟩
    intro r hr r' hr' hon
    obtain rfl := List.mem_singleton.mp hr'
    obtain ⟨q, hq, hqon, hle⟩ := h.covered r hr
    have hqrow : q.On r'.streamId r'.branch := ⟨hqon.1.trans hon.1.symm, hqon.2.trans hon.2.symm⟩
    exact lt_of_le_of_lt hle (hins.above hq hqrow)
  covered := by
    intro r hr
    rcases List.mem_append.mp hr with hr | hr
    · obtain ⟨q, hq, hqr⟩ := h.covered r hr
      exact ⟨q, List.mem_append_left _ hq, hqr⟩
    · obtain rfl := List.mem_singleton.mp hr
      exact ⟨r, List.mem_append_right _ hr, ⟨rfl, rfl⟩, le_rfl⟩
  distinct := distinct_insert h.distinct hins

theorem remembered_grows (hgrows : Grows P db rows db') (h : Remembered history db) :
    Remembered (history ++ rows) db' := by
  induction hgrows generalizing history with
  | refl => rwa [List.append_nil]
  | insert hins _ _ ih =>
    rw [List.append_cons]
    exact ih (remembered_insert h hins)

theorem remembered_delete {id : EventId} (h : Remembered history db)
    (hkeep : ∀ r ∈ db.events, r.id = id →
      ∃ q ∈ db.events, q.id ≠ id ∧ q.On r.streamId r.branch ∧ r.version < q.version) :
    Remembered history (db.delete id) where
  increase := h.increase
  covered := by
    intro r hr
    obtain ⟨q, hq, hon, hle⟩ := h.covered r hr
    by_cases hid : q.id = id
    · obtain ⟨q', hq', hne, hon', hlt⟩ := hkeep q hq hid
      refine ⟨q', List.mem_filter.mpr ⟨hq', by simpa using hne⟩, ?_, hle.trans hlt.le⟩
      exact ⟨hon'.1.trans hon.1, hon'.2.trans hon.2⟩
    · exact ⟨q, List.mem_filter.mpr ⟨hq, by simpa using hid⟩, hon, hle⟩
  distinct := h.distinct.sublist (List.filter_sublist.map _)

/-- Two stored rows with one id are one row. -/
theorem eq_of_id_eq (hnd : (db.events.map (·.id)).Nodup) {r q : EventRow} (hr : r ∈ db.events)
    (hq : q ∈ db.events) (h : r.id = q.id) : r = q :=
  List.inj_on_of_nodup_map hnd hr hq h

theorem remembered_purge {id : EventId} {confirm reason purgedBy : String} {purgedAtUs : Int64}
    (h : Remembered history db) (hkeep : KeepsTip d db (.purge id confirm reason purgedBy purgedAtUs))
    (hpurge : purgeEventImpl d id confirm reason purgedBy purgedAtUs db = .ok db') :
    Remembered (history ++ newRows db db') db' := by
  obtain ⟨hconfirm, original, horig, hid, purgedId, rows, db₂, hderive, hgrows, haudit, rfl⟩ :=
    purgeEventImpl_spec hpurge
  have hstart : Remembered history (db.insertStream internalStream) :=
    ⟨h.increase, by rw [events_insertStream]; exact h.covered, by
      rw [events_insertStream]; exact h.distinct⟩
  have hfresh := hgrows.fresh
  have habove := hgrows.above
  have hevents : db₂.events = db.events ++ rows := by rw [hgrows.eq, events_insertStream]
  rw [events_insertStream] at hfresh habove
  subst hid
  rw [newRows_delete horig, newRows_of_append hevents hfresh]
  refine remembered_delete (remembered_grows hgrows hstart) fun r hr hrid => ?_
  rw [hevents] at hr ⊢
  -- the deleted row was there before the call: what the call added has other ids
  have hrdb : r ∈ db.events := by
    rcases List.mem_append.mp hr with hr | hr
    · exact hr
    · exact absurd hrid.symm (hfresh r hr original horig)
  obtain rfl := eq_of_id_eq h.distinct hrdb horig hrid
  rcases hkeep hconfirm r hrdb rfl with ⟨q, hq, hqid, hon, hlt⟩ | ⟨hsystem, hnodup⟩
  · exact ⟨q, List.mem_append_left _ hq, hqid, hon, hlt⟩
  · -- the audit row takes the next version of the system stream
    rcases haudit with ⟨audit, rfl, haid⟩ | ⟨-, q, hq, hqid⟩
    · have haudit := hgrows.all audit List.mem_cons_self
      have hon : r.On audit.streamId audit.branch :=
        ⟨hsystem.1.trans haudit.1.1.symm, hsystem.2.trans haudit.1.2.symm⟩
      refine ⟨audit, List.mem_append_right _ List.mem_cons_self, ?_, ?_, ?_⟩
      · exact (hfresh audit List.mem_cons_self r hrdb).symm
      · exact ⟨hon.1.symm, hon.2.symm⟩
      · exact habove audit List.mem_cons_self r hrdb hon
    · exact absurd hqid (hnodup purgedId hderive q hq)

/-- A call that adds rows and deletes none. -/
theorem remembered_step (hgrows : Grows P db rows db') (h : Remembered history db) :
    Remembered (history ++ newRows db db') db' := by
  have hevents : db'.events = db.events ++ rows := by rw [hgrows.eq]
  rw [newRows_of_append hevents hgrows.fresh]
  exact remembered_grows hgrows h

theorem exec_remembered (op : StoreOp) (hkeep : KeepsTip d db op) (h : Remembered history db) :
    Remembered (history ++ newRows db (exec d db op)) (exec d db op) := by
  have hsame : Remembered (history ++ newRows db db) db :=
    remembered_step (.refl (P := fun _ => True) db) h
  cases op with
  | declareStream streamId declaredBy description now =>
    rw [exec, declareStreamImpl]
    cases validateStreamId d.isAlphanumeric streamId with
    | error e => exact hsame
    | ok u =>
      show Remembered (history ++ newRows db (db.insertStream _)) (db.insertStream _)
      have hnew : newRows db (db.insertStream ⟨streamId, declaredBy, now, description⟩)
          = newRows db db := by rw [newRows, events_insertStream, newRows]
      rw [hnew]
      exact ⟨hsame.increase, by rw [events_insertStream]; exact hsame.covered, by
        rw [events_insertStream]; exact hsame.distinct⟩
  | write transforms call clock =>
    rw [exec]
    rcases hcall : call.execute d transforms clock db with e | ⟨outcomes, db'⟩
    · exact hsame
    · obtain ⟨rows, hgrows, -⟩ := execute_grows hcall
      exact remembered_step hgrows h
  | emit eventType payload indexedTags now =>
    obtain ⟨rows, hgrows⟩ := emit_grows
    exact remembered_step hgrows h
  | purge id confirm reason purgedBy purgedAtUs =>
    rw [exec]
    rcases hpurge : purgeEventImpl d id confirm reason purgedBy purgedAtUs db with e | db'
    · exact hsame
    · exact remembered_purge h hkeep hpurge

/-- **No version is handed out twice while purges keep the tip**: in every run
whose purges do, every newly inserted row has a version above all versions ever
given to its stream and branch. -/
theorem versions_increase (d : Deps) (now : Int64) (ops : List StoreOp) (db : Db)
    (history : List EventRow)
    (hkeep : Along (historyStep d) (fun s op => KeepsTip d s.1 op) (Db.bootstrap now, []) ops)
    (hrun : run (historyStep d) (Db.bootstrap now, []) ops = some (db, history)) :
    VersionsIncrease history := by
  have hremembered : Remembered history db := by
    have hstart : Remembered [] (Db.bootstrap now) := ⟨List.Pairwise.nil, by simp, List.nodup_nil⟩
    refine run_invariant (I := fun s => Remembered s.2 s.1) (fun s op s' hs hop hstep => ?_)
      hstart hkeep hrun
    obtain rfl := Option.some_inj.mp hstep
    exact exec_remembered op hop hs
  exact hremembered.increase

/-! ### The last version of a stream -/

/-- A msgpack string of fewer than 256 bytes. -/
def packString (s : String) : Bytes :=
  let bytes := utf8 s
  (if bytes.length < 32 then [0xa0 + UInt8.ofNat bytes.length]
    else [0xd9, UInt8.ofNat bytes.length]) ++ bytes

/-- `plainDeps` with the msgpack of a small flat object of strings and small
numbers, such as the audit record of a purge. -/
def flatDeps : Deps :=
  { plainDeps with
    toVec := fun v =>
      match v with
      | .object members =>
        .ok ([0x80 + UInt8.ofNat members.length] ++ members.flatMap fun m =>
          packString m.1 ++
            match m.2 with
            | .string s => packString s
            | .number (.posInt n) => [n.toUInt8]
            | _ => [])
      | v => plainDeps.toVec v }

/-- Append `null` under an event type to the stream `s`. -/
def appendNull (eventType : String) : StoreOp :=
  .write [] (.append { streamId := "s", eventType := eventType, payload := .null }) fun _ => 0

/-- The id of such an event. -/
def nullId (eventType : String) : EventId :=
  match deriveEventId flatDeps eventType 1 none .null with
  | .ok id => id
  | .error _ => flatDeps.hash []

/-- Purge the first of two events: the second keeps its higher version. -/
theorem versions_increase_below_tip :
    ∃ history : List EventRow, history.length = 3 ∧ VersionsIncrease history := by
  refine ⟨_, ?_, versions_increase flatDeps 0
    [.declareStream "s" "t" none 0, appendNull "a", appendNull "b",
      .purge (nullId "a") PURGE_CONFIRM "r" "p" 0] _ _ ?_ rfl⟩
  · decide
  · refine along_cons trivial rfl (along_cons trivial rfl (along_cons trivial rfl ?_))
    refine along_cons (fun _ r hr hid => .inl ?_) rfl trivial
    revert r
    decide

/-- Purge the last event of a stream and append another one: the version of the
purged event is given to the new one. -/
theorem version_reused : ¬ ∀ (ops : List StoreOp) (db : Db) (history : List EventRow),
    run (historyStep flatDeps) (Db.bootstrap 0, []) ops = some (db, history) →
      VersionsIncrease history := by
  intro h
  have hreused := h [.declareStream "s" "t" none 0, appendNull "a",
    .purge (nullId "a") PURGE_CONFIRM "r" "p" 0, appendNull "b"] _ _ rfl
  revert hreused
  decide

end Fossic
