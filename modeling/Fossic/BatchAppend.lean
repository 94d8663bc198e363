/-
`append_batch` against `append` one by one.

The batch checks and encodes all its elements first, then inserts them in one
transaction, and dispatches afterwards.  Elements cannot see each other's effects
before the insertions, so the order of the work does not show.

* `batch_iff_each` — the batch succeeds exactly when each append in turn does, with
  the same outcomes and the same tables;
* `batch_refines_appends` — what callers and subscribers see is the same, and a
  batch that fails does nothing.
-/
import Fossic.World

namespace Fossic

/-! ### What a call shows -/

/-- What a call returns, the events it dispatches to the subscribers and the tables
it leaves. -/
structure CallResult where
  returned : Except Error (List EventId)
  dispatched : List StoredEvent
  after : Db

/-- The call on a store that has subscribers or not, with nothing in between. -/
def WriteCall.perform (d : Deps) (hasSubs : Bool) (transforms : List TransformEntry)
    (clock : ℕ → Int64) (db : Db) (call : WriteCall) : CallResult :=
  match call.execute d transforms clock db with
  | .ok (outcomes, db') =>
    ⟨.ok (outcomes.map fun o => o.1.eventId), if hasSubs then inserted outcomes else [], db'⟩
  | .error e => ⟨.error e, [], db⟩

/-- `append` on the elements in order, with the clock reading that the batch uses for
each. -/
def performEach (d : Deps) (hasSubs : Bool) (transforms : List TransformEntry)
    (clock : ℕ → Int64) : ℕ → List Append → Db → List CallResult
  | _, [], _ => []
  | i, a :: appends, db =>
    let result := (WriteCall.append a).perform d hasSubs transforms (fun _ => clock i) db
    result :: performEach d hasSubs transforms clock (i + 1) appends result.after

/-- The tables after the last call. -/
def lastTables (db : Db) (results : List CallResult) : Db := (results.getLast?.map (·.after)).getD db

/-! ### The same outcomes -/

/-- The appends one after another, as long as they succeed. -/
def executeEach (d : Deps) (transforms : List TransformEntry) (clock : ℕ → Int64) :
    ℕ → List Append → Db → Except Error (List (AppendOutcome × Append) × Db)
  | _, [], db => .ok ([], db)
  | i, a :: appends, db => do
    let (outcomes, db') ← (WriteCall.append a).execute d transforms (fun _ => clock i) db
    let (outcomes', db'') ← executeEach d transforms clock (i + 1) appends db'
    .ok (outcomes ++ outcomes', db'')

variable {d : Deps} {transforms : List TransformEntry} {clock : ℕ → Int64} {db db' : Db}
  {appends : List Append} {outcomes : List (AppendOutcome × Append)} {hasSubs : Bool}

/-- The two ways to name the kind of a bad value differ in the error only. -/
theorem checkIndexedTags_eq_ok {kind : Json → String} {tags : Option Json} {u : Unit} :
    checkIndexedTags kind tags = .ok u ↔ tags.all Json.isObject = true := by
  cases tags with
  | none => exact ⟨fun _ => rfl, fun _ => rfl⟩
  | some v =>
    rw [checkIndexedTags, Option.all_some]
    split <;> simp_all

/-- The steps of the batch, up to the position of its first clock reading. -/
def batchFrom (d : Deps) (transforms : List TransformEntry) (clock : ℕ → Int64) (i : ℕ)
    (appends : List Append) (db : Db) : Except Error (List (AppendOutcome × Append) × Db) := do
  let prepared ← appends.mapM fun a => preparePayload d transforms a.streamId a.eventType a.payload
  let encoded ← encodeBatch d clock i (appends.zip prepared)
  let (outcomes, db') ← insertBatch (appends.zip encoded) db
  .ok (outcomes.zip appends, db')

theorem execute_eq_batchFrom :
    (WriteCall.appendBatch appends).execute d transforms clock db = .ok (outcomes, db') ↔
      batchFrom d transforms clock 0 appends db = .ok (outcomes, db') := by
  rw [execute_appendBatch, batchFrom, bind_eq_ok]
  constructor
  · rintro ⟨prepared, outs, hprepared, hbatch, rfl⟩
    obtain ⟨encoded, hencoded, hinsert⟩ := bind_eq_ok.mp hbatch
    exact ⟨prepared, hprepared, bind_eq_ok.mpr ⟨encoded, hencoded, bind_eq_ok.mpr ⟨_, hinsert, rfl⟩⟩⟩
  · rintro ⟨prepared, hprepared, h⟩
    obtain ⟨encoded, hencoded, h⟩ := bind_eq_ok.mp h
    obtain ⟨⟨outs, db''⟩, hinsert, h⟩ := bind_eq_ok.mp h
    obtain ⟨rfl, rfl⟩ := Prod.mk.inj (Except.ok.inj h)
    exact ⟨prepared, outs, hprepared, bind_eq_ok.mpr ⟨encoded, hencoded, hinsert⟩, rfl⟩

/-- A batch that succeeds starts with an append that succeeds. -/
theorem batchFrom_uncons {a : Append} {i : ℕ}
    (h : batchFrom d transforms clock i (a :: appends) db = .ok (outcomes, db')) :
    ∃ outs db₁ rest,
      (WriteCall.append a).execute d transforms (fun _ => clock i) db = .ok (outs, db₁) ∧
      batchFrom d transforms clock (i + 1) appends db₁ = .ok (rest, db') ∧
      outcomes = outs ++ rest := by
  -- the payloads of the whole batch are prepared first,
  rw [batchFrom, List.mapM_cons] at h
  obtain ⟨prepared, hprepared, h⟩ := bind_eq_ok.mp h
  obtain ⟨p, hp, hprepared⟩ := bind_eq_ok.mp hprepared
  obtain ⟨ps, hps, hprepared⟩ := bind_eq_ok.mp hprepared
  obtain rfl := Except.ok.inj hprepared
  obtain ⟨encoded, hencoded, h⟩ := bind_eq_ok.mp h
  -- then all of its elements are encoded,
  rw [List.zip_cons_cons, encodeBatch] at hencoded
  obtain ⟨⟨⟩, htags, hencoded⟩ := bind_eq_ok.mp hencoded
  obtain ⟨id, hid, hencoded⟩ := bind_eq_ok.mp hencoded
  obtain ⟨encs, hencs, hencoded⟩ := bind_eq_ok.mp hencoded
  obtain rfl := Except.ok.inj hencoded
  obtain ⟨⟨outs, db''⟩, hinsert, h⟩ := bind_eq_ok.mp h
  obtain ⟨rfl, rfl⟩ := Prod.mk.inj (Except.ok.inj h)
  -- then they are inserted one after the other
  rw [List.zip_cons_cons, insertBatch] at hinsert
  obtain ⟨⟨⟩, hexists, hinsert⟩ := bind_eq_ok.mp hinsert
  obtain ⟨⟨v, n, db₁⟩, hins, hinsert⟩ := bind_eq_ok.mp hinsert
  obtain ⟨⟨rest, db₂⟩, hrest, hinsert⟩ := bind_eq_ok.mp hinsert
  obtain ⟨rfl, rfl⟩ := Prod.mk.inj (Except.ok.inj hinsert)
  have hsingle := appendImpl_eq_ok.mpr ⟨id, v, n, checkIndexedTags_eq_ok.mpr
    (checkIndexedTags_eq_ok.mp htags), hid, requireStream_eq_ok.mp hexists, hins, rfl⟩
  refine ⟨_, db₁, rest.zip appends, execute_append.mpr ⟨p, _, hp, hsingle, rfl⟩, ?_, rfl⟩
  exact bind_eq_ok.mpr ⟨ps, hps, bind_eq_ok.mpr ⟨encs, hencs, bind_eq_ok.mpr ⟨_, hrest, rfl⟩⟩⟩

/-- An append that succeeds, followed by a batch that succeeds, is a batch that
succeeds. -/
theorem batchFrom_cons {a : Append} {i : ℕ} {outs rest : List (AppendOutcome × Append)} {db₁ : Db}
    (hsingle : (WriteCall.append a).execute d transforms (fun _ => clock i) db = .ok (outs, db₁))
    (h : batchFrom d transforms clock (i + 1) appends db₁ = .ok (rest, db')) :
    batchFrom d transforms clock i (a :: appends) db = .ok (outs ++ rest, db') := by
  obtain ⟨p, o, hp, hcall, rfl⟩ := execute_append.mp hsingle
  obtain ⟨id, v, n, htags, hid, hexists, hins, rfl⟩ := appendImpl_eq_ok.mp hcall
  obtain ⟨ps, hps, h⟩ := bind_eq_ok.mp h
  obtain ⟨encs, hencs, h⟩ := bind_eq_ok.mp h
  obtain ⟨⟨outs, db''⟩, hrest, h⟩ := bind_eq_ok.mp h
  obtain ⟨rfl, rfl⟩ := Prod.mk.inj (Except.ok.inj h)
  -- the batch words its tag error differently, but refuses the same tags
  have hbatchTags : checkIndexedTags Json.batchKindName a.indexedTags = .ok () :=
    checkIndexedTags_eq_ok.mpr (checkIndexedTags_eq_ok.mp htags)
  have hprepared : ((a :: appends).mapM fun a =>
      preparePayload d transforms a.streamId a.eventType a.payload) = .ok (p :: ps) := by
    rw [List.mapM_cons]
    exact bind_eq_ok.mpr ⟨p, hp, bind_eq_ok.mpr ⟨ps, hps, rfl⟩⟩
  have hencoded : encodeBatch d clock i ((a :: appends).zip (p :: ps)) = .ok (⟨id, p.payloadBytes,
      toVecOrDefault d p.payload, a.timestampUs.getD (clock i)⟩ :: encs) := by
    rw [List.zip_cons_cons, encodeBatch]
    exact bind_eq_ok.mpr ⟨(), hbatchTags, bind_eq_ok.mpr ⟨id, hid, bind_eq_ok.mpr ⟨encs, hencs, rfl⟩⟩⟩
  refine bind_eq_ok.mpr ⟨_, hprepared, bind_eq_ok.mpr ⟨_, hencoded, bind_eq_ok.mpr
    ⟨(⟨id, i64AsU64 v, a.timestampUs.getD (clock i), toVecOrDefault d p.payload, 0 < n⟩ :: outs, db''),
      ?_, rfl⟩⟩⟩
  rw [List.zip_cons_cons, insertBatch]
  exact bind_eq_ok.mpr ⟨(), requireStream_eq_ok.mpr hexists, bind_eq_ok.mpr
    ⟨_, hins, bind_eq_ok.mpr ⟨_, hrest, rfl⟩⟩⟩

/-- The batch succeeds exactly when each append in turn does, and with the same
outcomes. -/
theorem batchFrom_iff_each {i : ℕ} :
    batchFrom d transforms clock i appends db = .ok (outcomes, db') ↔
      executeEach d transforms clock i appends db = .ok (outcomes, db') := by
  induction appends generalizing i db outcomes with
  | nil => exact Iff.rfl
  | cons a appends ih =>
    rw [executeEach, bind_eq_ok]
    constructor
    · intro h
      obtain ⟨outs, db₁, rest, hsingle, hrest, rfl⟩ := batchFrom_uncons h
      exact ⟨_, hsingle, bind_eq_ok.mpr ⟨_, ih.mp hrest, rfl⟩⟩
    · rintro ⟨⟨outs, db₁⟩, hsingle, h⟩
      obtain ⟨⟨rest, db₂⟩, hrest, h⟩ := bind_eq_ok.mp h
      obtain ⟨rfl, rfl⟩ := Prod.mk.inj (Except.ok.inj h)
      exact batchFrom_cons hsingle (ih.mpr hrest)

theorem batch_iff_each :
    (WriteCall.appendBatch appends).execute d transforms clock db = .ok (outcomes, db') ↔
      executeEach d transforms clock 0 appends db = .ok (outcomes, db') :=
  execute_eq_batchFrom.trans batchFrom_iff_each

/-! ### The same for callers and subscribers -/

theorem inserted_append {outs outs' : List (AppendOutcome × Append)} :
    inserted (outs ++ outs') = inserted outs ++ inserted outs' := by
  rw [inserted, newEvents, List.filter_append, List.map_append, List.filter_append]
  rfl

theorem perform_of_ok {call : WriteCall}
    (h : call.execute d transforms clock db = .ok (outcomes, db')) :
    call.perform d hasSubs transforms clock db =
      ⟨.ok (outcomes.map fun o => o.1.eventId), if hasSubs then inserted outcomes else [], db'⟩ := by
  rw [WriteCall.perform, h]

/-- What the appends in turn show, put together. -/
theorem performEach_of_ok {i : ℕ}
    (h : executeEach d transforms clock i appends db = .ok (outcomes, db')) :
    (performEach d hasSubs transforms clock i appends db).map (·.returned)
      = outcomes.map (fun o => .ok [o.1.eventId]) ∧
    (performEach d hasSubs transforms clock i appends db).flatMap (·.dispatched)
      = (if hasSubs then inserted outcomes else []) ∧
    lastTables db (performEach d hasSubs transforms clock i appends db) = db' := by
  induction appends generalizing i db outcomes with
  | nil =>
    obtain ⟨rfl, rfl⟩ := Prod.mk.inj (Except.ok.inj h)
    exact ⟨rfl, by cases hasSubs <;> rfl, rfl⟩
  | cons a appends ih =>
    obtain ⟨⟨outs, db₁⟩, hsingle, h⟩ := bind_eq_ok.mp h
    obtain ⟨⟨rest, db₂⟩, hrest, h⟩ := bind_eq_ok.mp h
    obtain ⟨rfl, rfl⟩ := Prod.mk.inj (Except.ok.inj h)
    -- the element succeeds with the outcome it has in the batch, on the tables left before it
    obtain ⟨p, o, -, -, rfl⟩ := execute_append.mp hsingle
    obtain ⟨hreturned, hdispatched, hlast⟩ := ih hrest
    rw [performEach, perform_of_ok hsingle]
    refine ⟨?_, ?_, ?_⟩
    · rw [List.map_cons, hreturned]
      rfl
    · rw [List.flatMap_cons, hdispatched, inserted_append]
      cases hasSubs <;> rfl
    · rw [← hlast, lastTables, lastTables, List.getLast?_cons]
      cases (performEach d hasSubs transforms clock (i + 1) appends db₁).getLast? <;> rfl

/-- **A batch is its appends in turn**: for every list of appends, when the batch
succeeds each append does, with the same ids, the same events dispatched in the
same order and the same tables in the end; when it fails, the tables are as before
and nothing is dispatched. -/
theorem batch_refines_appends (d : Deps) (hasSubs : Bool) (transforms : List TransformEntry)
    (clock : ℕ → Int64) (db : Db) (appends : List Append) :
    let batch := (WriteCall.appendBatch appends).perform d hasSubs transforms clock db
    let each := performEach d hasSubs transforms clock 0 appends db
    (∀ ids, batch.returned = .ok ids →
      batch.after = lastTables db each ∧ each.map (·.returned) = ids.map (fun id => .ok [id]) ∧
        batch.dispatched = each.flatMap (·.dispatched)) ∧
    ∀ e, batch.returned = .error e → batch.after = db ∧ batch.dispatched = [] := by
  intro batch each
  rcases hbatch : (WriteCall.appendBatch appends).execute d transforms clock db
    with e | ⟨outcomes, db'⟩
  · have hfailed : batch = ⟨.error e, [], db⟩ := by
      show (WriteCall.appendBatch appends).perform d hasSubs transforms clock db = _
      rw [WriteCall.perform, hbatch]
    rw [hfailed]
    exact ⟨fun ids hids => absurd hids (by simp), fun _ _ => ⟨rfl, rfl⟩⟩
  · obtain ⟨hreturned, hdispatched, hlast⟩ :=
      @performEach_of_ok d transforms clock db db' appends outcomes hasSubs 0
        (batch_iff_each.mp hbatch)
    have hdone : batch = _ := perform_of_ok hbatch
    rw [hdone]
    refine ⟨fun ids hids => ⟨hlast.symm, ?_, hdispatched.symm⟩, fun e he => absurd he (by simp)⟩
    obtain rfl := Except.ok.inj hids
    rw [hreturned, List.map_map]
    rfl

end Fossic
