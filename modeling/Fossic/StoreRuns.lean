/-
Runs of a store: any sequence of stream declarations, write calls, emissions on
the system stream and purges, each one transaction.  A call that fails is part of
the run and leaves the tables as they were.

`SelfCertifying` collects what such runs keep: each id is the one derived from
its row, no id and no `(stream_id, branch, version)` occurs twice, and every row
names a declared stream.

* `selfCertifying_insert`, `selfCertifying_delete` — the two changes to the
  events keep it;
* `exec_storeInv` — one call keeps it, `self_certifying` — so does a run.
-/
import Fossic.SystemStream
import Fossic.Transition

namespace Fossic

open Transition

/-! ### Calls -/

/-- The calls that write to the tables.  `transforms` are the payload transforms
registered at the time of the call and `clock` are its clock readings. -/
inductive StoreOp
  | declareStream (streamId declaredBy : String) (description : Option String) (now : Int64)
  | write (transforms : List TransformEntry) (call : WriteCall) (clock : ℕ → Int64)
  | emit (eventType : String) (payload : Json) (indexedTags : Option Json) (now : Int64)
  | purge (eventId : EventId) (confirm reason purgedBy : String) (purgedAtUs : Int64)

/-- The tables after a transaction: on an error it is rolled back. -/
def committed {α : Type} (db : Db) (tables : α → Db) : Except Error α → Db
  | .ok a => tables a
  | .error _ => db

def exec (d : Deps) (db : Db) : StoreOp → Db
  | .declareStream streamId declaredBy description now =>
    committed db id (declareStreamImpl d.isAlphanumeric db streamId declaredBy description now)
  | .write transforms call clock =>
    committed db Prod.snd (call.execute d transforms clock db)
  | .emit eventType payload indexedTags now => emit d eventType payload indexedTags now db
  | .purge eventId confirm reason purgedBy purgedAtUs =>
    committed db id (purgeEventImpl d eventId confirm reason purgedBy purgedAtUs db)

def storeStep (d : Deps) (db : Db) (op : StoreOp) : Option Db := some (exec d db op)

/-! ### The invariant -/

structure SelfCertifying (d : Deps) (db : Db) : Prop where
  certified : ∀ r ∈ db.events, Certified d r
  distinct : (db.events.map (·.id)).Nodup
  versions : db.events.Pairwise fun r r' => ¬(r.On r'.streamId r'.branch ∧ r.version = r'.version)
  declared : ∀ r ∈ db.events, db.streamExists r.streamId = true

variable {d : Deps} {db db' : Db}

theorem streamExists_insertStream {row : StreamRow} {streamId : String}
    (h : db.streamExists streamId = true) : (db.insertStream row).streamExists streamId = true := by
  rw [Db.insertStream]
  split
  · exact h
  · rw [Db.streamExists, List.any_append]
    exact Bool.or_eq_true_iff.mpr (.inl h)

@[simp] theorem events_insertStream {row : StreamRow} :
    (db.insertStream row).events = db.events := by
  rw [Db.insertStream]
  split <;> rfl

@[simp] theorem snapshots_insertStream {row : StreamRow} :
    (db.insertStream row).snapshots = db.snapshots := by
  rw [Db.insertStream]
  split <;> rfl

theorem selfCertifying_insertStream {row : StreamRow} (h : SelfCertifying d db) :
    SelfCertifying d (db.insertStream row) where
  certified := by rw [events_insertStream]; exact h.certified
  distinct := by rw [events_insertStream]; exact h.distinct
  versions := by rw [events_insertStream]; exact h.versions
  declared := by
    rw [events_insertStream]
    exact fun r hr => streamExists_insertStream (h.declared r hr)

theorem distinct_insert {row : EventRow} (h : (db.events.map (·.id)).Nodup)
    (hins : Insertable db row) : ((db.insert row).events.map (·.id)).Nodup := by
  rw [Db.insert, List.map_append]
  refine List.nodup_append.mpr ⟨h, List.nodup_singleton _, ?_⟩
  intro i hi j hj
  obtain ⟨r, hr, rfl⟩ := List.mem_map.mp hi
  obtain rfl : j = row.id := by simpa using hj
  exact hins.fresh r hr

/-- The next version is above every version of the same stream and branch. -/
theorem versions_insert {row : EventRow}
    (h : db.events.Pairwise fun r r' => ¬(r.On r'.streamId r'.branch ∧ r.version = r'.version))
    (hins : Insertable db row) : (db.insert row).events.Pairwise fun r r' =>
      ¬(r.On r'.streamId r'.branch ∧ r.version = r'.version) := by
  refine List.pairwise_append.mpr ⟨h, List.pairwise_singleton _ _, ?_⟩
  intro r hr r' hr' heq
  obtain rfl := List.mem_singleton.mp hr'
  exact absurd (hins.above hr heq.1) (by rw [heq.2]; exact lt_irrefl _)

theorem selfCertifying_insert {row : EventRow} (h : SelfCertifying d db) (hins : Insertable db row)
    (hcert : Certified d row) (hdecl : db.streamExists row.streamId = true) :
    SelfCertifying d (db.insert row) where
  certified := by
    intro r hr
    rcases List.mem_append.mp hr with hr | hr
    · exact h.certified r hr
    · exact List.mem_singleton.mp hr ▸ hcert
  distinct := distinct_insert h.distinct hins
  versions := versions_insert h.versions hins
  declared := by
    intro r hr
    rcases List.mem_append.mp hr with hr | hr
    · exact h.declared r hr
    · exact List.mem_singleton.mp hr ▸ hdecl

theorem selfCertifying_delete {id : EventId} (h : SelfCertifying d db) :
    SelfCertifying d (db.delete id) where
  certified r hr := h.certified r (List.mem_of_mem_filter hr)
  distinct := h.distinct.sublist (List.filter_sublist.map _)
  versions := h.versions.sublist List.filter_sublist
  declared r hr := h.declared r (List.mem_of_mem_filter hr)

/-- Insertions keep it, one after another, when their rows are certified and name
declared streams. -/
theorem selfCertifying_grows {P : EventRow → Prop} {rows : List EventRow}
    (hP : ∀ r, P r → Certified d r ∧ db.streamExists r.streamId = true)
    (hgrows : Grows P db rows db') (h : SelfCertifying d db) : SelfCertifying d db' := by
  induction hgrows with
  | refl => exact h
  | insert hins hrow _ ih =>
    obtain ⟨hcert, hdecl⟩ := hP _ hrow
    exact ih hP (selfCertifying_insert h hins hcert hdecl)

/-! ### Calls keep the invariant -/

/-- The invariant with what the writers of the system stream rely on. -/
def StoreInv (d : Deps) (db : Db) : Prop :=
  SelfCertifying d db ∧ db.streamExists SYSTEM_STREAM = true

theorem streamExists_grows {P : EventRow → Prop} {rows : List EventRow} {streamId : String}
    (hgrows : Grows P db rows db') : db'.streamExists streamId = db.streamExists streamId := by
  rw [hgrows.eq]
  rfl

theorem storeInv_system (hmsgpack : d.MsgpackRoundTrips) {rows : List EventRow}
    (hgrows : Grows (SystemRow d) db rows db') (h : StoreInv d db) : StoreInv d db' := by
  refine ⟨selfCertifying_grows (fun r hr => ⟨hr.2 hmsgpack, ?_⟩) hgrows h.1, ?_⟩
  · rw [hr.1.1]
    exact h.2
  · rw [streamExists_grows hgrows]
    exact h.2

theorem exec_storeInv (hmsgpack : d.MsgpackRoundTrips) (op : StoreOp) (h : StoreInv d db) :
    StoreInv d (exec d db op) := by
  have hstream : ∀ row, StoreInv d (db.insertStream row) := fun row =>
    ⟨selfCertifying_insertStream h.1, streamExists_insertStream h.2⟩
  cases op with
  | declareStream streamId declaredBy description now =>
    rw [exec, declareStreamImpl]
    cases validateStreamId d.isAlphanumeric streamId with
    | error e => exact h
    | ok u => exact hstream _
  | write transforms call clock =>
    rw [exec]
    rcases hcall : call.execute d transforms clock db with e | ⟨outcomes, db'⟩
    · exact h
    · obtain ⟨rows, hgrows, -⟩ := execute_grows hcall
      refine ⟨selfCertifying_grows (fun r hr => ⟨hr.2, hr.1⟩) hgrows h.1, ?_⟩
      rw [committed, streamExists_grows hgrows]
      exact h.2
  | emit eventType payload indexedTags now =>
    obtain ⟨rows, hgrows⟩ := emit_grows
    exact storeInv_system hmsgpack hgrows h
  | purge eventId confirm reason purgedBy purgedAtUs =>
    rw [exec]
    rcases hpurge : purgeEventImpl d eventId confirm reason purgedBy purgedAtUs db with e | db'
    · exact h
    · obtain ⟨-, original, -, -, purgedId, rows, db₂, -, hgrows, -, rfl⟩ :=
        purgeEventImpl_spec hpurge
      -- the record is inserted before the row is deleted
      obtain ⟨hself, hsystem⟩ := storeInv_system hmsgpack hgrows (hstream internalStream)
      exact ⟨selfCertifying_delete hself, hsystem⟩

theorem bootstrap_storeInv (now : Int64) : StoreInv d (Db.bootstrap now) :=
  ⟨⟨by simp [Db.bootstrap], .nil, .nil, by simp [Db.bootstrap]⟩, rfl⟩

/-- **The store is self-certifying**: whatever is called, in whatever order, and
whether or not it fails. -/
theorem self_certifying (d : Deps) (hmsgpack : d.MsgpackRoundTrips) (now : Int64)
    (ops : List StoreOp) (db : Db) (h : run (storeStep d) (Db.bootstrap now) ops = some db) :
    SelfCertifying d db := by
  have hinv : StoreInv d db := by
    refine run_invariant_all (fun db op db' hdb hstep => ?_) (bootstrap_storeInv now) h
    obtain rfl := Option.some_inj.mp hstep
    exact exec_storeInv hmsgpack op hdb
  exact hinv.1

/-- A run on the stand-in dependencies: declare a stream, append to it, and append
the same event again. -/
theorem self_certifying_plain :
    ∃ db, db.events.length = 1 ∧ SelfCertifying plainDeps db := by
  let a : Append := { streamId := "s", eventType := "a", payload := .null }
  let op : StoreOp := .write [] (.append a) fun _ => 0
  refine ⟨_, ?_, self_certifying plainDeps plainDeps_msgpackRoundTrips 0
    [.declareStream "s" "t" none 0, op, op] _ rfl⟩
  decide

end Fossic
