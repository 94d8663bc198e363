/-
Writing events: payload transforms, `append`, `append_if` and `append_batch`.

Each call encodes the payload to msgpack, runs the transforms over the bytes and
decodes the result; the id is derived from the decoded value and the
bytes are what is stored.  The row is then written in one IMMEDIATE transaction: a
failing call returns no new tables, so it leaves them as they were.

* `WriteCall` — a call of one of the three functions, with `prepare` for what
  happens before the connection is locked and `commit` for the transaction;
* `commit_grows` — a call that commits adds rows at the next versions, one for
  each outcome that is new, and every such row names a declared stream and
  carries the id derived from its own payload.
-/
import Fossic.Tables

namespace Fossic

/-! ### Payload transforms -/

structure TransformEntry where
  pattern : String
  transform : String → Bytes → Except Error Bytes

/-- Apply all transforms whose pattern matches, chaining in registration order. -/
def applyTransforms (entries : List TransformEntry) (streamId eventType : String)
    (payloadBytes : Bytes) : Except Error Bytes :=
  entries.foldlM
    (fun bytes entry =>
      if globMatches entry.pattern streamId then entry.transform eventType bytes else .ok bytes)
    payloadBytes

/-- `(value_for_id, bytes_for_storage)`: the value is what the bytes decode to. -/
structure Prepared (d : Deps) where
  payload : Json
  payloadBytes : Bytes
  decodes : d.fromSlice payloadBytes = .ok payload

def preparePayload (d : Deps) (transforms : List TransformEntry) (streamId eventType : String)
    (payload : Json) : Except Error (Prepared d) := do
  let rawBytes ← (d.toVec payload).mapError .msgpackEncode
  let finalBytes ← applyTransforms transforms streamId eventType rawBytes
  match h : d.fromSlice finalBytes with
  | .ok finalValue => .ok ⟨finalValue, finalBytes, h⟩
  | .error message => .error (.msgpackDecode message)

/-! ### The three calls -/

structure AppendOutcome where
  eventId : EventId
  version : UInt64
  timestampUs : Int64
  payloadBytes : Bytes
  /-- Newly inserted, as opposed to a skipped duplicate. -/
  isNew : Bool

def checkIndexedTags (kind : Json → String) : Option Json → Except Error Unit
  | some tags => if tags.isObject then .ok () else .error (.invalidIndexedTags (kind tags))
  | none => .ok ()

def requireStream (db : Db) (streamId : String) : Except Error Unit :=
  if db.streamExists streamId then .ok () else .error (.streamNotDeclared streamId)

/-- `derive_event_id(..)?`. -/
def deriveId (d : Deps) (eventType : String) (typeVersion : UInt32)
    (causationId : Option EventId) (payload : Json) : Except Error EventId :=
  (deriveEventId d eventType typeVersion causationId payload).mapError .cce

/-- `rmp_serde::to_vec(&payload).unwrap_or_default()`. -/
def toVecOrDefault (d : Deps) (payload : Json) : Bytes := (d.toVec payload).toOption.getD []

/-- The row of an append; `Db.insertNext` fills in the version. -/
def appendRow (a : Append) (eventId : EventId) (timestampUs : Int64) (payloadBytes : Bytes) :
    EventRow where
  id := eventId
  streamId := a.streamId
  branch := a.branch
  version := 0
  timestampUs := timestampUs
  causationId := a.causationId
  correlationId := a.correlationId
  eventType := a.eventType
  typeVersion := a.typeVersion
  payload := payloadBytes
  externalId := a.externalId
  indexedTags := a.indexedTags

def appendImpl (d : Deps) (a : Append) (p : Prepared d) (now : Int64) (db : Db) :
    Except Error (AppendOutcome × Db) := do
  checkIndexedTags Json.kindName a.indexedTags
  let eventId ← deriveId d a.eventType a.typeVersion a.causationId p.payload
  let timestampUs := a.timestampUs.getD now
  requireStream db a.streamId
  let (nextVersion, rowsChanged, db') ←
    db.insertNext (appendRow a eventId timestampUs p.payloadBytes)
  .ok (⟨eventId, i64AsU64 nextVersion, timestampUs, toVecOrDefault d p.payload, 0 < rowsChanged⟩,
    db')

/-- `condition` reads the tables inside the transaction; on `false` nothing is
written. -/
def appendIfImpl (d : Deps) (a : Append) (p : Prepared d) (condition : Db → Except Error Bool)
    (now : Int64) (db : Db) : Except Error (Option AppendOutcome × Db) := do
  checkIndexedTags Json.kindName a.indexedTags
  let eventId ← deriveId d a.eventType a.typeVersion a.causationId p.payload
  let timestampUs := a.timestampUs.getD now
  requireStream db a.streamId
  if ← condition db then
    let (nextVersion, rowsChanged, db') ←
      db.insertNext (appendRow a eventId timestampUs p.payloadBytes)
    .ok (some ⟨eventId, i64AsU64 nextVersion, timestampUs, toVecOrDefault d p.payload,
      0 < rowsChanged⟩, db')
  else .ok (none, db)

structure Encoded where
  eventId : EventId
  payloadBytes : Bytes
  payloadForOutcome : Bytes
  timestampUs : Int64

/-- The kind that `append_batch` names: it only tells arrays apart. -/
def Json.batchKindName : Json → String
  | .array _ => "array"
  | _ => "non-object"

/-- Everything that is checked and derived before the transaction starts;
`clock i` is the clock reading for the `i`-th append. -/
def encodeBatch (d : Deps) (clock : ℕ → Int64) :
    ℕ → List (Append × Prepared d) → Except Error (List Encoded)
  | _, [] => .ok []
  | i, (a, p) :: rest => do
    checkIndexedTags Json.batchKindName a.indexedTags
    let eventId ← deriveId d a.eventType a.typeVersion a.causationId p.payload
    let encoded ← encodeBatch d clock (i + 1) rest
    .ok (⟨eventId, p.payloadBytes, toVecOrDefault d p.payload, a.timestampUs.getD (clock i)⟩
      :: encoded)

/-- The loop of the transaction. -/
def insertBatch : List (Append × Encoded) → Db → Except Error (List AppendOutcome × Db)
  | [], db => .ok ([], db)
  | (a, enc) :: rest, db => do
    requireStream db a.streamId
    let (nextVersion, rowsChanged, db') ←
      db.insertNext (appendRow a enc.eventId enc.timestampUs enc.payloadBytes)
    let (outcomes, db'') ← insertBatch rest db'
    .ok (⟨enc.eventId, i64AsU64 nextVersion, enc.timestampUs, enc.payloadForOutcome,
      0 < rowsChanged⟩ :: outcomes, db'')

def appendBatchImpl (d : Deps) (appends : List Append) (prepared : List (Prepared d))
    (clock : ℕ → Int64) (db : Db) : Except Error (List AppendOutcome × Db) := do
  let encoded ← encodeBatch d clock 0 (appends.zip prepared)
  insertBatch (appends.zip encoded) db

/-- `build_stored_event`. -/
def buildStoredEvent (outcome : AppendOutcome) (a : Append) : StoredEvent where
  id := outcome.eventId
  streamId := a.streamId
  branch := a.branch
  version := outcome.version
  timestampUs := outcome.timestampUs
  causationId := a.causationId
  correlationId := a.correlationId
  eventType := a.eventType
  typeVersion := a.typeVersion
  payload := outcome.payloadBytes
  externalId := a.externalId
  indexedTags := a.indexedTags

/-! ### Write calls -/

/-- A call of `Store::append`, `Store::append_batch` or `Store::append_if`;
`condition` is given the tables as the transaction sees them. -/
inductive WriteCall
  | append (a : Append)
  | appendBatch (appends : List Append)
  | appendIf (a : Append) (condition : Db → Except Error Bool)

/-- A call with its prepared payloads, ready to take the connection. -/
inductive PreparedCall (d : Deps)
  | append (a : Append) (p : Prepared d)
  | appendBatch (appends : List Append) (prepared : List (Prepared d))
  | appendIf (a : Append) (p : Prepared d) (condition : Db → Except Error Bool)

def WriteCall.prepare (d : Deps) (transforms : List TransformEntry) :
    WriteCall → Except Error (PreparedCall d)
  | append a => do
    let p ← preparePayload d transforms a.streamId a.eventType a.payload
    .ok (.append a p)
  | appendBatch appends => do
    let prepared ← appends.mapM fun a =>
      preparePayload d transforms a.streamId a.eventType a.payload
    .ok (.appendBatch appends prepared)
  | appendIf a condition => do
    let p ← preparePayload d transforms a.streamId a.eventType a.payload
    .ok (.appendIf a p condition)

/-- The transaction: the outcomes, each with its request, and the tables after
it. -/
def PreparedCall.commit {d : Deps} (clock : ℕ → Int64) (db : Db) :
    PreparedCall d → Except Error (List (AppendOutcome × Append) × Db)
  | append a p => do
    let (outcome, db') ← appendImpl d a p (clock 0) db
    .ok ([(outcome, a)], db')
  | appendBatch appends prepared => do
    let (outcomes, db') ← appendBatchImpl d appends prepared clock db
    .ok (outcomes.zip appends, db')
  | appendIf a p condition => do
    let (outcome, db') ← appendIfImpl d a p condition (clock 0) db
    .ok ((outcome.map fun o => (o, a)).toList, db')

/-- The whole call when nothing runs in between. -/
def WriteCall.execute (d : Deps) (transforms : List TransformEntry) (clock : ℕ → Int64) (db : Db)
    (call : WriteCall) : Except Error (List (AppendOutcome × Append) × Db) := do
  let prepared ← call.prepare d transforms
  prepared.commit clock db

/-- The events that a committed call dispatches: those of the new rows. -/
def newEvents (outcomes : List (AppendOutcome × Append)) : List StoredEvent :=
  (outcomes.filter fun o => o.1.isNew).map fun o => buildStoredEvent o.1 o.2

/-! ### What a committed call has done -/

/-- The id is the one derived from the row's own columns. -/
def Certified (d : Deps) (r : EventRow) : Prop :=
  ∃ payload, d.fromSlice r.payload = .ok payload ∧
    deriveEventId d r.eventType r.typeVersion r.causationId payload = .ok r.id

/-- The event says what the row says, its payload bytes aside. -/
def Describes (s : StoredEvent) (r : EventRow) : Prop :=
  s = { rowToEvent r with payload := s.payload }

theorem mapError_eq_ok {ε ε' α : Type} {x : Except ε α} {f : ε → ε'} {a : α} :
    x.mapError f = .ok a ↔ x = .ok a := by
  cases x <;> simp [Except.mapError]

theorem requireStream_eq_ok {db : Db} {streamId : String} {u : Unit} :
    requireStream db streamId = .ok u ↔ db.streamExists streamId = true := by
  rw [requireStream]
  split <;> simp_all

theorem certified_appendRow {d : Deps} {a : Append} {p : Prepared d} {eventId : EventId}
    {timestampUs : Int64} {v : ℤ}
    (h : deriveId d a.eventType a.typeVersion a.causationId p.payload = .ok eventId) :
    Certified d { appendRow a eventId timestampUs p.payloadBytes with version := v } :=
  ⟨p.payload, p.decodes, mapError_eq_ok.mp h⟩

theorem Grows.append {P : EventRow → Prop} {db₁ db₂ db₃ : Db} {rows rows' : List EventRow}
    (h : Grows P db₁ rows db₂) (h' : Grows P db₂ rows' db₃) : Grows P db₁ (rows ++ rows') db₃ := by
  induction h with
  | refl => exact h'
  | insert hins hrow _ ih => exact .insert hins hrow (ih h')

theorem Grows.imp {P Q : EventRow → Prop} {db db' : Db} {rows : List EventRow}
    (hPQ : ∀ r, P r → Q r) (h : Grows P db rows db') : Grows Q db rows db' := by
  induction h with
  | refl db => exact .refl db
  | insert hins hrow _ ih => exact .insert hins (hPQ _ hrow) ih

theorem Grows.eq {P : EventRow → Prop} {db db' : Db} {rows : List EventRow}
    (h : Grows P db rows db') : db' = { db with events := db.events ++ rows } := by
  induction h with
  | refl db => simp
  | insert _ _ _ ih => rw [ih]; simp [Db.insert]

/-- One request: a declared stream, a derived id, an insertion, an outcome. -/
theorem insertNext_grows {P : EventRow → Prop} {db db' : Db} {a : Append} {eventId : EventId}
    {timestampUs : Int64} {bytes bytes' : Bytes} {v : ℤ} {n : ℕ}
    (h : db.insertNext (appendRow a eventId timestampUs bytes) = .ok (v, n, db'))
    (hP : P { appendRow a eventId timestampUs bytes with version := v }) :
    ∃ rows, Grows P db rows db' ∧ List.Forall₂ Describes
      (newEvents [(⟨eventId, i64AsU64 v, timestampUs, bytes', 0 < n⟩, a)]) rows := by
  obtain ⟨-, ⟨rfl, hins, rfl⟩ | ⟨rfl, -, rfl⟩⟩ := insertNext_spec h
  · exact ⟨_, .insert hins hP (.refl _), .cons rfl .nil⟩
  · exact ⟨[], .refl _, .nil⟩

theorem newEvents_cons {o : AppendOutcome × Append} {outcomes : List (AppendOutcome × Append)} :
    newEvents (o :: outcomes) = newEvents [o] ++ newEvents outcomes := by
  rw [newEvents, newEvents, newEvents, ← List.map_append, ← List.filter_append]
  rfl

/-- What is known of every row that a call inserts: its stream is declared and
its id is derived. -/
def Sound (d : Deps) (db : Db) (r : EventRow) : Prop :=
  db.streamExists r.streamId = true ∧ Certified d r

theorem appendImpl_grows {d : Deps} {a : Append} {p : Prepared d} {now : Int64} {db db' : Db}
    {o : AppendOutcome} (h : appendImpl d a p now db = .ok (o, db')) :
    ∃ rows, Grows (Sound d db) db rows db' ∧ List.Forall₂ Describes (newEvents [(o, a)]) rows := by
  simp only [appendImpl, bind_eq_ok, Except.ok.injEq, Prod.mk.injEq] at h
  obtain ⟨-, -, eventId, hid, u, hexists, ⟨v, n, db''⟩, hins, rfl, rfl⟩ := h
  exact insertNext_grows hins ⟨requireStream_eq_ok.mp hexists, certified_appendRow hid⟩

theorem appendIfImpl_grows {d : Deps} {a : Append} {p : Prepared d}
    {condition : Db → Except Error Bool} {now : Int64} {db db' : Db} {o : Option AppendOutcome}
    (h : appendIfImpl d a p condition now db = .ok (o, db')) :
    ∃ rows, Grows (Sound d db) db rows db' ∧
      List.Forall₂ Describes (newEvents (o.map fun o => (o, a)).toList) rows := by
  simp only [appendIfImpl, bind_eq_ok] at h
  obtain ⟨-, -, eventId, hid, u, hexists, holds, -, h⟩ := h
  cases holds with
  | false =>
    obtain ⟨rfl, rfl⟩ : none = o ∧ db = db' := by simpa using h
    exact ⟨[], .refl _, .nil⟩
  | true =>
    simp only [if_true, bind_eq_ok, Except.ok.injEq, Prod.mk.injEq] at h
    obtain ⟨⟨v, n, db''⟩, hins, rfl, rfl⟩ := h
    exact insertNext_grows hins ⟨requireStream_eq_ok.mp hexists, certified_appendRow hid⟩

/-- Each encoded element carries the id derived from its own payload. -/
theorem encodeBatch_certified {d : Deps} {clock : ℕ → Int64} :
    ∀ {appends : List Append} {prepared : List (Prepared d)} {i : ℕ} {encoded : List Encoded},
      encodeBatch d clock i (appends.zip prepared) = .ok encoded →
        ∀ x ∈ appends.zip encoded, ∀ v, Certified d
          { appendRow x.1 x.2.eventId x.2.timestampUs x.2.payloadBytes with version := v }
  | [], _, _, _, _ => by simp
  | a :: appends, [], i, encoded, h => by
    obtain rfl : [] = encoded := by simpa [encodeBatch] using h
    simp
  | a :: appends, p :: prepared, i, encoded, h => by
    simp only [List.zip_cons_cons, encodeBatch, bind_eq_ok, Except.ok.injEq] at h
    obtain ⟨-, -, eventId, hid, rest, hrest, rfl⟩ := h
    rw [List.zip_cons_cons, List.forall_mem_cons]
    exact ⟨fun v => certified_appendRow hid, encodeBatch_certified hrest⟩

theorem insertBatch_grows {d : Deps} {db₀ : Db} :
    ∀ {appends : List Append} {encoded : List Encoded} {db db' : Db} {outs : List AppendOutcome},
      (∀ x ∈ appends.zip encoded, ∀ v, Certified d
        { appendRow x.1 x.2.eventId x.2.timestampUs x.2.payloadBytes with version := v }) →
      db.streams = db₀.streams → insertBatch (appends.zip encoded) db = .ok (outs, db') →
        ∃ rows, Grows (Sound d db₀) db rows db' ∧
          List.Forall₂ Describes (newEvents (outs.zip appends)) rows
  | [], _, db, db', outs, _, _, h => by
    obtain ⟨rfl, rfl⟩ : [] = outs ∧ db = db' := by simpa [insertBatch] using h
    exact ⟨[], .refl _, .nil⟩
  | a :: appends, [], db, db', outs, _, _, h => by
    obtain ⟨rfl, rfl⟩ : [] = outs ∧ db = db' := by simpa [insertBatch] using h
    exact ⟨[], .refl _, .nil⟩
  | a :: appends, enc :: encoded, db, db', outs, hcert, hstreams, h => by
    simp only [List.zip_cons_cons, insertBatch, bind_eq_ok, Except.ok.injEq, Prod.mk.injEq] at h
    obtain ⟨u, hexists, ⟨v, n, db₁⟩, hins, ⟨outs', db₂⟩, hrest, rfl, rfl⟩ := h
    rw [List.zip_cons_cons, List.forall_mem_cons] at hcert
    rw [requireStream_eq_ok, Db.streamExists, hstreams] at hexists
    obtain ⟨rows, hgrows, hdescribes⟩ := insertNext_grows hins
      (show Sound d db₀ _ from ⟨hexists, hcert.1 v⟩)
    -- inserts leave the declarations alone, so the next element is checked against the same ones
    have hstreams₁ : db₁.streams = db₀.streams := by rw [hgrows.eq, hstreams]
    obtain ⟨rows', hgrows', hdescribes'⟩ := insertBatch_grows hcert.2 hstreams₁ hrest
    refine ⟨rows ++ rows', hgrows.append hgrows', ?_⟩
    rw [List.zip_cons_cons, newEvents_cons]
    exact List.rel_append hdescribes hdescribes'

/-- **What a committed call has done**: it added rows, each at the next version of
its stream and branch and each sound, and its new outcomes describe them in
order. -/
theorem commit_grows {d : Deps} {clock : ℕ → Int64} {db db' : Db} {c : PreparedCall d}
    {outcomes : List (AppendOutcome × Append)} (h : c.commit clock db = .ok (outcomes, db')) :
    ∃ rows, Grows (Sound d db) db rows db' ∧
      List.Forall₂ Describes (newEvents outcomes) rows := by
  cases c with
  | append a p =>
    simp only [PreparedCall.commit, bind_eq_ok, Except.ok.injEq, Prod.mk.injEq] at h
    obtain ⟨⟨o, db''⟩, happend, rfl, rfl⟩ := h
    exact appendImpl_grows happend
  | appendBatch appends prepared =>
    simp only [PreparedCall.commit, appendBatchImpl, bind_eq_ok, Except.ok.injEq,
      Prod.mk.injEq] at h
    obtain ⟨⟨outs, db''⟩, ⟨encoded, henc, hins⟩, rfl, rfl⟩ := h
    exact insertBatch_grows (encodeBatch_certified henc) rfl hins
  | appendIf a p condition =>
    simp only [PreparedCall.commit, bind_eq_ok, Except.ok.injEq, Prod.mk.injEq] at h
    obtain ⟨⟨o, db''⟩, happend, rfl, rfl⟩ := h
    exact appendIfImpl_grows happend

theorem execute_grows {d : Deps} {transforms : List TransformEntry} {clock : ℕ → Int64}
    {db db' : Db} {call : WriteCall} {outcomes : List (AppendOutcome × Append)}
    (h : call.execute d transforms clock db = .ok (outcomes, db')) :
    ∃ rows, Grows (Sound d db) db rows db' ∧
      List.Forall₂ Describes (newEvents outcomes) rows := by
  obtain ⟨prepared, -, hcommit⟩ := bind_eq_ok.mp h
  exact commit_grows hcommit

/-! ### The steps of a call -/

section Steps

variable {d : Deps} {transforms : List TransformEntry} {clock : ℕ → Int64} {db db' : Db}
  {outcomes : List (AppendOutcome × Append)} {a : Append} {appends : List Append}
  {condition : Db → Except Error Bool}

/-- A call prepares what it writes, and then its transaction runs. -/
theorem execute_eq_ok {α β : Type} {call : WriteCall} {prepare : Except Error α}
    {c : α → PreparedCall d} {impl : α → Except Error (β × Db)}
    {out : β → List (AppendOutcome × Append)}
    (hprepare : call.prepare d transforms = prepare >>= fun p => .ok (c p))
    (hcommit : ∀ p, (c p).commit clock db = impl p >>= fun r => .ok (out r.1, r.2)) :
    call.execute d transforms clock db = .ok (outcomes, db') ↔
      ∃ p o, prepare = .ok p ∧ impl p = .ok (o, db') ∧ outcomes = out o := by
  constructor
  · intro h
    obtain ⟨_, hprepared, hcommitted⟩ := bind_eq_ok.mp h
    obtain ⟨p, hp, hpc⟩ := bind_eq_ok.mp (hprepare.symm.trans hprepared)
    obtain rfl := Except.ok.inj hpc
    obtain ⟨⟨o, db''⟩, himpl, hout⟩ := bind_eq_ok.mp ((hcommit p).symm.trans hcommitted)
    obtain ⟨rfl, rfl⟩ := Prod.mk.inj (Except.ok.inj hout)
    exact ⟨p, o, hp, himpl, rfl⟩
  · rintro ⟨p, o, hp, himpl, rfl⟩
    refine bind_eq_ok.mpr ⟨c p, ?_, ?_⟩
    · exact hprepare.trans (bind_eq_ok.mpr ⟨p, hp, rfl⟩)
    · exact (hcommit p).trans (bind_eq_ok.mpr ⟨_, himpl, rfl⟩)

theorem execute_append : (WriteCall.append a).execute d transforms clock db = .ok (outcomes, db') ↔
    ∃ p o, preparePayload d transforms a.streamId a.eventType a.payload = .ok p ∧
      appendImpl d a p (clock 0) db = .ok (o, db') ∧ outcomes = [(o, a)] :=
  execute_eq_ok rfl fun _ => rfl

theorem execute_appendIf :
    (WriteCall.appendIf a condition).execute d transforms clock db = .ok (outcomes, db') ↔
    ∃ p o, preparePayload d transforms a.streamId a.eventType a.payload = .ok p ∧
      appendIfImpl d a p condition (clock 0) db = .ok (o, db') ∧
      outcomes = (o.map fun o => (o, a)).toList :=
  execute_eq_ok rfl fun _ => rfl

theorem execute_appendBatch :
    (WriteCall.appendBatch appends).execute d transforms clock db = .ok (outcomes, db') ↔
    ∃ prepared outs,
      (appends.mapM fun a => preparePayload d transforms a.streamId a.eventType a.payload)
        = .ok prepared ∧
      appendBatchImpl d appends prepared clock db = .ok (outs, db') ∧
      outcomes = outs.zip appends :=
  execute_eq_ok rfl fun _ => rfl

theorem appendImpl_eq_ok {p : Prepared d} {now : Int64} {o : AppendOutcome} :
    appendImpl d a p now db = .ok (o, db') ↔ ∃ id v n,
      checkIndexedTags Json.kindName a.indexedTags = .ok () ∧
      deriveId d a.eventType a.typeVersion a.causationId p.payload = .ok id ∧
      db.streamExists a.streamId = true ∧
      db.insertNext (appendRow a id (a.timestampUs.getD now) p.payloadBytes) = .ok (v, n, db') ∧
      o = ⟨id, i64AsU64 v, a.timestampUs.getD now, toVecOrDefault d p.payload, 0 < n⟩ := by
  simp only [appendImpl, bind_eq_ok, Except.ok.injEq, Prod.mk.injEq]
  constructor
  · rintro ⟨⟨⟩, htags, id, hid, u, hexists, ⟨v, n, db''⟩, hins, rfl, rfl⟩
    exact ⟨id, v, n, htags, hid, requireStream_eq_ok.mp hexists, hins, rfl⟩
  · rintro ⟨id, v, n, htags, hid, hexists, hins, rfl⟩
    exact ⟨(), htags, id, hid, (), requireStream_eq_ok.mpr hexists, _, hins, rfl, rfl⟩

theorem appendIfImpl_eq_ok {p : Prepared d} {now : Int64} {o : Option AppendOutcome} :
    appendIfImpl d a p condition now db = .ok (o, db') ↔ ∃ id holds,
      checkIndexedTags Json.kindName a.indexedTags = .ok () ∧
      deriveId d a.eventType a.typeVersion a.causationId p.payload = .ok id ∧
      db.streamExists a.streamId = true ∧ condition db = .ok holds ∧
      ((holds = false ∧ o = none ∧ db' = db) ∨ (holds = true ∧ ∃ v n,
        db.insertNext (appendRow a id (a.timestampUs.getD now) p.payloadBytes) = .ok (v, n, db') ∧
        o = some ⟨id, i64AsU64 v, a.timestampUs.getD now, toVecOrDefault d p.payload, 0 < n⟩)) := by
  simp only [appendIfImpl, bind_eq_ok]
  constructor
  · rintro ⟨⟨⟩, htags, id, hid, u, hexists, holds, hholds, hcall⟩
    refine ⟨id, holds, htags, hid, requireStream_eq_ok.mp hexists, hholds, ?_⟩
    cases holds with
    | false =>
      obtain ⟨rfl, rfl⟩ : none = o ∧ db = db' := by simpa using hcall
      exact .inl ⟨rfl, rfl, rfl⟩
    | true =>
      simp only [if_true, bind_eq_ok, Except.ok.injEq, Prod.mk.injEq] at hcall
      obtain ⟨⟨v, n, db''⟩, hins, rfl, rfl⟩ := hcall
      exact .inr ⟨rfl, v, n, hins, rfl⟩
  · rintro ⟨id, holds, htags, hid, hexists, hholds, ⟨rfl, rfl, rfl⟩ | ⟨rfl, v, n, hins, rfl⟩⟩
    · exact ⟨(), htags, id, hid, (), requireStream_eq_ok.mpr hexists, false, hholds, rfl⟩
    · refine ⟨(), htags, id, hid, (), requireStream_eq_ok.mpr hexists, true, hholds, ?_⟩
      rw [if_pos rfl, bind_eq_ok]
      exact ⟨_, hins, rfl⟩

end Steps

end Fossic
