/-
Compare-and-swap on the version of a stream and branch: `append_if` whose
condition is that `MAX(version)` is the one the caller expects.

`append_if` reports success when its transaction has run, and the id of an event
does not depend on its stream.  When a row with the derived id is already there,
on whatever stream, the insertion is ignored and the call still returns
`Ok(Some(id))`: it is swallowed.

* `cas_inserts` — what a call that returned an id has done;
* `cas_exclusive_iff` — calls in any order are exclusive exactly when none of them
  is swallowed;
* `cas_both_succeed` — two calls that expect the same version both succeed.
-/
import Fossic.History

namespace Fossic

open Transition

/-- A call of `append_if` in its documented typical use. -/
structure CasCall where
  transforms : List TransformEntry
  request : Append
  expected : ℤ
  clock : ℕ → Int64

/-- The condition reads `SELECT COALESCE(MAX(version), -1)` of the request's own
stream and branch. -/
def CasCall.call (c : CasCall) : WriteCall :=
  .appendIf c.request fun db =>
    .ok (db.maxVersion c.request.streamId c.request.branch = c.expected)

/-- What `append_if` returns. -/
def CasCall.returned (d : Deps) (c : CasCall) (db : Db) : Except Error (Option EventId) :=
  (c.call.execute d c.transforms c.clock db).map fun r => r.1.head?.map fun o => o.1.eventId

/-- The calls made on one file by any number of connections. -/
inductive SharedCall
  | cas (c : CasCall)
  | other (op : StoreOp)

def SharedCall.op : SharedCall → StoreOp
  | cas c => .write c.transforms c.call c.clock
  | other op => op

/-- One compare-and-swap of a run, with the tables before and after it. -/
structure CasEntry where
  call : CasCall
  before : Db
  returned : Except Error (Option EventId)
  after : Db

/-- The compare-and-swaps of a run: each call is one IMMEDIATE transaction, so a run
is a list of calls. -/
def casTrace (d : Deps) : Db → List SharedCall → List CasEntry
  | _, [] => []
  | db, .cas c :: calls =>
    let after := exec d db (SharedCall.cas c).op
    ⟨c, db, c.returned d db, after⟩ :: casTrace d after calls
  | db, .other op :: calls => casTrace d (exec d db op) calls

/-- The entry is for the stream and branch of the other one. -/
def CasEntry.SameTarget (e e' : CasEntry) : Prop :=
  e.call.request.streamId = e'.call.request.streamId ∧
    e.call.request.branch = e'.call.request.branch

def CasEntry.Succeeded (e : CasEntry) : Prop := ∃ id, e.returned = .ok (some id)

instance (e : CasEntry) : Decidable e.Succeeded :=
  match h : e.returned with
  | .ok (some id) => isTrue ⟨id, h⟩
  | .ok none => isFalse fun ⟨_, hid⟩ => absurd (h.symm.trans hid) (by simp)
  | .error _ => isFalse fun ⟨_, hid⟩ => absurd (h.symm.trans hid) (by simp)

/-- The event of a call that returned its id is the last one, at the next version. -/
def CasEntry.Stored (e : CasEntry) : Prop :=
  ∀ id, e.returned = .ok (some id) →
    e.after.maxVersion e.call.request.streamId e.call.request.branch = e.call.expected + 1 ∧
    ∃ r ∈ e.after.events, r.id = id ∧ r.On e.call.request.streamId e.call.request.branch ∧
      r.version = e.call.expected + 1

/-- For each stream, branch and version, at most one call succeeds, and its event is
stored. -/
structure Exclusive (trace : List CasEntry) : Prop where
  stored : ∀ e ∈ trace, e.Stored
  once : trace.Pairwise fun e e' =>
    e.Succeeded → e'.Succeeded → e.SameTarget e' → e.call.expected ≠ e'.call.expected

/-- The call reaches its insertion, and a row with the id it derives is already
there. -/
structure CasCall.Swallowed (d : Deps) (c : CasCall) (db : Db) : Prop where
  declared : db.streamExists c.request.streamId = true
  tags : checkIndexedTags Json.kindName c.request.indexedTags = .ok ()
  met : db.maxVersion c.request.streamId c.request.branch = c.expected
  bounded : c.expected + 1 < 2 ^ 63
  taken : ∃ p id,
    preparePayload d c.transforms c.request.streamId c.request.eventType c.request.payload
      = .ok p ∧
    deriveId d c.request.eventType c.request.typeVersion c.request.causationId p.payload = .ok id ∧
    ∃ r ∈ db.events, r.id = id

variable {d : Deps} {c : CasCall} {db db' : Db} {id : EventId} {calls : List SharedCall}

/-! ### One call -/

/-- A call that returned an id found its version and its stream, and ran the
insertion. -/
theorem cas_inserts (h : c.returned d db = .ok (some id)) : ∃ p v n db',
    preparePayload d c.transforms c.request.streamId c.request.eventType c.request.payload
      = .ok p ∧
    checkIndexedTags Json.kindName c.request.indexedTags = .ok () ∧
    deriveId d c.request.eventType c.request.typeVersion c.request.causationId p.payload = .ok id ∧
    db.streamExists c.request.streamId = true ∧
    db.maxVersion c.request.streamId c.request.branch = c.expected ∧
    db.insertNext (appendRow c.request id (c.request.timestampUs.getD (c.clock 0)) p.payloadBytes)
      = .ok (v, n, db') ∧
    exec d db (SharedCall.cas c).op = db' := by
  rcases hexec : c.call.execute d c.transforms c.clock db with e | ⟨outcomes, db'⟩
  · rw [CasCall.returned, hexec] at h
    exact absurd h (by simp [Except.map])
  · have hafter : exec d db (SharedCall.cas c).op = db' := by
      rw [SharedCall.op, exec, hexec]
      rfl
    rw [CasCall.returned, hexec] at h
    obtain ⟨p, o, hp, hcall, rfl⟩ := execute_appendIf.mp hexec
    obtain ⟨id', holds, htags, hid, hexists, hholds, ⟨-, rfl, -⟩ | ⟨rfl, v, n, hins, rfl⟩⟩ :=
      appendIfImpl_eq_ok.mp hcall
    · exact absurd h (by simp [Except.map])
    · obtain rfl : id' = id := by simpa [Except.map] using h
      exact ⟨p, v, n, db', hp, htags, hid, hexists, by simpa using hholds, hins, hafter⟩

/-- A swallowed call returns its id and changes nothing. -/
theorem cas_swallowed (h : c.Swallowed d db) :
    (∃ id, c.returned d db = .ok (some id)) ∧ exec d db (SharedCall.cas c).op = db := by
  obtain ⟨p, id, hp, hid, htaken⟩ := h.taken
  have hins := @insertNext_taken db
    (appendRow c.request id (c.request.timestampUs.getD (c.clock 0)) p.payloadBytes) _ h.met
    h.bounded htaken
  -- the transaction runs to its end, and that is all the call reports
  have himpl : ∀ condition, condition db = .ok true →
      ∃ o, appendIfImpl d c.request p condition (c.clock 0) db = .ok (some o, db) :=
    fun condition hholds => ⟨_, appendIfImpl_eq_ok.mpr
      ⟨id, true, h.tags, hid, h.declared, hholds, .inr ⟨rfl, _, _, hins, rfl⟩⟩⟩
  obtain ⟨o, ho⟩ := himpl (fun db =>
    .ok (db.maxVersion c.request.streamId c.request.branch = c.expected)) (by simp [h.met])
  have hexec : c.call.execute d c.transforms c.clock db = .ok ([(o, c.request)], db) :=
    execute_appendIf.mpr ⟨p, some o, hp, ho, rfl⟩
  constructor
  · rw [CasCall.returned, hexec]
    exact ⟨o.eventId, rfl⟩
  · rw [SharedCall.op, exec, hexec]
    rfl

/-- The row that was inserted at the next version is the last one. -/
theorem maxVersion_insert {row : EventRow} (hins : Insertable db row) (hdb : db.Sane) :
    (db.insert row).maxVersion row.streamId row.branch = row.version := by
  refine le_antisymm ?_ ?_
  · refine (db.insert row).maxVersion_le ?_ fun r hr hon => ?_
    · have hmax : -1 ≤ db.maxVersion row.streamId row.branch := hdb.le_maxVersion
      have hnext := hins.next
      omega
    · rcases List.mem_append.mp hr with hr | hr
      · exact (hins.above hr hon).le
      · exact (congrArg EventRow.version (List.mem_singleton.mp hr)).le
  · exact (db.insert row).le_maxVersion (List.mem_append_right _ List.mem_cons_self) ⟨rfl, rfl⟩

/-- A call that returned an id without being swallowed has stored its event. -/
theorem cas_stores (hdb : db.Sane) (hnot : ¬ c.Swallowed d db) :
    CasEntry.Stored ⟨c, db, c.returned d db, exec d db (SharedCall.cas c).op⟩ := by
  intro id h
  obtain ⟨p, v, n, db', hp, htags, hid, hexists, hmax, hins, hafter⟩ := cas_inserts h
  obtain ⟨hv, ⟨-, hrow, hdb'⟩ | ⟨-, htaken, -⟩⟩ := insertNext_spec hins
  · have hversion : v = c.expected + 1 := by rw [hv, ← hmax]; rfl
    show (exec d db _).maxVersion _ _ = c.expected + 1 ∧ ∃ r ∈ (exec d db _).events, _
    rw [hafter, hdb']
    refine ⟨?_, _, List.mem_append_right _ List.mem_cons_self, rfl, ⟨rfl, rfl⟩, hversion⟩
    rw [← hversion]
    exact maxVersion_insert hrow hdb
  · have hbounded : v < 2 ^ 63 := insertNext_lt hins
    have hversion : v = c.expected + 1 := by rw [hv, ← hmax]; rfl
    exact absurd ⟨hexists, htags, hmax, hversion ▸ hbounded, p, id, hp, hid, htaken⟩ hnot

/-! ### Runs -/

theorem SharedCall.later (hdb : db.Sane) {call : SharedCall} (hcall : call.op.isPurge = false) :
    Later db (exec d db call.op) ∧ (exec d db call.op).Sane := by
  obtain ⟨db₁, rows, hevents, -, hgrows, -⟩ := @exec_grows d db call.op hcall
  exact ⟨later_of_grows hevents hgrows, (hdb.congr hevents).grows hgrows⟩

/-- A purge is not among the calls. -/
def SharedCall.Keeps : SharedCall → Prop
  | cas _ => True
  | other op => op.isPurge = false

theorem SharedCall.Keeps.isPurge {call : SharedCall} (h : call.Keeps) :
    call.op.isPurge = false := by
  cases call with
  | cas c => rfl
  | other op => exact h

/-- A version that a stream and branch has reached is not left again: every
successful call of the rest of the run expects at least that version. -/
theorem expected_of_mem (hdb : db.Sane) (hcalls : ∀ call ∈ calls, call.Keeps) {e : CasEntry}
    (he : e ∈ casTrace d db calls) (hsucceeded : e.Succeeded) :
    db.maxVersion e.call.request.streamId e.call.request.branch ≤ e.call.expected := by
  induction calls generalizing db with
  | nil => exact absurd he List.not_mem_nil
  | cons call calls ih =>
    obtain ⟨hcall, hkeeps⟩ := List.forall_mem_cons.mp hcalls
    obtain ⟨hlater, hsane⟩ := @SharedCall.later d db hdb call hcall.isPurge
    have hmax := @Later.maxVersion_le _ _ e.call.request.streamId e.call.request.branch hlater hsane
    cases call with
    | other op => exact hmax.trans (ih hsane hkeeps he)
    | cas c =>
      rcases List.mem_cons.mp he with rfl | he
      · obtain ⟨id, hid⟩ := hsucceeded
        obtain ⟨p, v, n, db', -, -, -, -, hexpected, -⟩ := cas_inserts hid
        exact hexpected.le
      · exact hmax.trans (ih hsane hkeeps he)

/-- Without swallowed calls, a run is exclusive. -/
theorem exclusive_of_not_swallowed (hdb : db.Sane) (hcalls : ∀ call ∈ calls, call.Keeps)
    (hnot : ∀ e ∈ casTrace d db calls, ¬ e.call.Swallowed d e.before) :
    Exclusive (casTrace d db calls) := by
  induction calls generalizing db with
  | nil => exact ⟨fun e he => absurd he List.not_mem_nil, .nil⟩
  | cons call calls ih =>
    obtain ⟨hcall, hkeeps⟩ := List.forall_mem_cons.mp hcalls
    obtain ⟨hlater, hsane⟩ := @SharedCall.later d db hdb call hcall.isPurge
    cases call with
    | other op => exact ih hsane hkeeps hnot
    | cas c =>
      obtain ⟨hc, hnot⟩ := List.forall_mem_cons.mp hnot
      have hrest := ih hsane hkeeps hnot
      have hstored := cas_stores hdb hc
      refine ⟨List.forall_mem_cons.mpr ⟨hstored, hrest.stored⟩, .cons ?_ hrest.once⟩
      rintro e he ⟨id, hid⟩ hsucceeded ⟨hstream, hbranch⟩
      -- the first success has moved the version past the one it expected
      have hreached : (exec d db (SharedCall.cas c).op).maxVersion c.request.streamId
          c.request.branch = c.expected + 1 := (hstored id hid).1
      have hle := expected_of_mem hsane hkeeps he hsucceeded
      have hsame : c.request.streamId = e.call.request.streamId ∧
          c.request.branch = e.call.request.branch := ⟨hstream, hbranch⟩
      rw [← hsame.1, ← hsame.2, hreached] at hle
      show c.expected ≠ e.call.expected
      omega

/-- A swallowed call is not exclusive: its version has not moved. -/
theorem not_stored_of_swallowed (h : c.Swallowed d db) :
    ¬ CasEntry.Stored ⟨c, db, c.returned d db, exec d db (SharedCall.cas c).op⟩ := by
  intro hstored
  obtain ⟨⟨id, hid⟩, hsame⟩ := cas_swallowed h
  have hmoved := (hstored id hid).1
  have hmet := h.met
  have hmax : (exec d db (SharedCall.cas c).op).maxVersion c.request.streamId c.request.branch
      = c.expected := by rw [hsame, hmet]
  have heq : c.expected = c.expected + 1 := hmax.symm.trans hmoved
  omega

theorem mem_casTrace {e : CasEntry} (he : e ∈ casTrace d db calls) :
    e = ⟨e.call, e.before, e.call.returned d e.before, exec d e.before (SharedCall.cas e.call).op⟩ := by
  induction calls generalizing db with
  | nil => exact absurd he List.not_mem_nil
  | cons call calls ih =>
    cases call with
    | other op => exact ih he
    | cas c =>
      rcases List.mem_cons.mp he with rfl | he
      · rfl
      · exact ih he

/-- **Compare-and-swap is exclusive exactly when no call is swallowed**: from any
reachable tables, for calls of any number of connections in any order, with any
other writers in between. -/
theorem cas_exclusive_iff (d : Deps) (now : Int64) (ops : List StoreOp) (db : Db)
    (hrun : run (storeStep d) (Db.bootstrap now) ops = some db) (calls : List SharedCall)
    (hcalls : ∀ call ∈ calls, call.Keeps) :
    Exclusive (casTrace d db calls) ↔
      ∀ e ∈ casTrace d db calls, ¬ e.call.Swallowed d e.before := by
  constructor
  · intro hexclusive e he hswallowed
    have hstored := hexclusive.stored e he
    rw [mem_casTrace he] at hstored
    exact not_stored_of_swallowed hswallowed hstored
  · exact exclusive_of_not_swallowed (run_fits hrun).sane hcalls

/-- A compare-and-swap of the event `null` under an event type. -/
def casNull (eventType : String) (expected : ℤ) : CasCall :=
  ⟨[], { streamId := "s", eventType := eventType, payload := .null }, expected, fun _ => 0⟩

/-- Two calls race for the empty stream: the second one finds the version moved. -/
theorem cas_exclusive_race :
    Exclusive (casTrace plainDeps (exec plainDeps (Db.bootstrap 0) (.declareStream "s" "t" none 0))
      [.cas (casNull "a" (-1)), .cas (casNull "b" (-1))]) := by
  refine (cas_exclusive_iff plainDeps 0 [.declareStream "s" "t" none 0] _ rfl _ ?_).mpr ?_
  · exact List.forall_mem_cons.mpr ⟨trivial, List.forall_mem_cons.mpr ⟨trivial, by simp⟩⟩
  · refine List.forall_mem_cons.mpr ⟨fun h => ?_, List.forall_mem_cons.mpr ⟨fun h => ?_, ?_⟩⟩
    · -- the first call finds no row at all
      obtain ⟨p, id, -, -, r, hr, -⟩ := h.taken
      exact absurd hr List.not_mem_nil
    · -- and the second one not its version
      exact absurd h.met (by decide)
    · simp [casTrace]

/-- The event is already on another stream: both calls that expect the empty
stream succeed, and the stream stays empty. -/
theorem cas_both_succeed : ¬ ∀ (ops : List StoreOp) (db : Db) (calls : List CasCall),
    run (storeStep plainDeps) (Db.bootstrap 0) ops = some db →
      Exclusive (casTrace plainDeps db (calls.map .cas)) := by
  intro h
  let other : Append := { streamId := "t", eventType := "a", payload := .null }
  have hexclusive := h [.declareStream "s" "t" none 0, .declareStream "t" "t" none 0,
    .write [] (.append other) fun _ => 0] _ [casNull "a" (-1), casNull "a" (-1)] rfl
  have honce := (List.pairwise_cons.mp hexclusive.once).1 _ List.mem_cons_self
  exact honce (by decide) (by decide) ⟨rfl, rfl⟩ rfl

end Fossic
