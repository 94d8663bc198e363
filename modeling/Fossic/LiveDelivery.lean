/-
What subscribers are handed, against what is stored.

The event of a new row is built twice: from the outcome of the call, for the
subscribers of the store that wrote it, and from the row, for readers and for the
WAL watchers of other processes.  The row holds the bytes that the transforms left;
the outcome holds the encoding of the value that these bytes decode to.

* `delivers_execute` — for all three calls the two agree in every other field;
* `live_delivery_iff` — and they agree in the payload exactly when the bytes that
  the transforms left are the encoding of their own value;
* `reencodes_of_unmatched` — which is so when no transform applies.
-/
import Fossic.BatchAppend
import Fossic.WalWatch

namespace Fossic

/-- What the transforms leave of the payload is the encoding of what it decodes to. -/
def Reencodes (d : Deps) (transforms : List TransformEntry) (a : Append) : Prop :=
  ∀ p, preparePayload d transforms a.streamId a.eventType a.payload = .ok p →
    toVecOrDefault d p.payload = p.payloadBytes

/-- The row is the one that was written for the request: only the payload of the
delivered event comes from elsewhere. -/
structure Delivers (d : Deps) (transforms : List TransformEntry) (o : AppendOutcome × Append)
    (row : EventRow) (p : Prepared d) : Prop where
  prepared : preparePayload d transforms o.2.streamId o.2.eventType o.2.payload = .ok p
  describes : Describes (buildStoredEvent o.1 o.2) row
  stored : row.payload = p.payloadBytes
  delivered : o.1.payloadBytes = toVecOrDefault d p.payload

variable {d : Deps} {transforms : List TransformEntry} {clock : ℕ → Int64} {db db' : Db}
  {o : AppendOutcome × Append} {outcomes : List (AppendOutcome × Append)} {row : EventRow}
  {a : Append} {p : Prepared d}

theorem Delivers.eq_iff (h : Delivers d transforms o row p) :
    buildStoredEvent o.1 o.2 = rowToEvent row ↔ Reencodes d transforms o.2 := by
  constructor
  · intro heq q hq
    obtain rfl := Except.ok.inj (h.prepared.symm.trans hq)
    rw [← h.delivered, ← h.stored]
    exact congrArg StoredEvent.payload heq
  · intro hre
    have hpayload : (buildStoredEvent o.1 o.2).payload = (rowToEvent row).payload := by
      show o.1.payloadBytes = row.payload
      rw [h.delivered, h.stored, hre p h.prepared]
    rw [h.describes, hpayload]

/-! ### The three calls -/

/-- The new outcomes and the new rows, one for one. -/
def DeliversEach (d : Deps) (transforms : List TransformEntry) (db : Db)
    (outcomes : List (AppendOutcome × Append)) (db' : Db) : Prop :=
  ∃ rows, db'.events = db.events ++ rows ∧
    List.Forall₂ (fun o row => ∃ p, Delivers d transforms o row p)
      (outcomes.filter fun o => o.1.isNew) rows

theorem DeliversEach.nil : DeliversEach d transforms db [] db :=
  ⟨[], (List.append_nil _).symm, .nil⟩

theorem DeliversEach.append {db₁ : Db} {outs rest : List (AppendOutcome × Append)}
    (h : DeliversEach d transforms db outs db₁) (h' : DeliversEach d transforms db₁ rest db') :
    DeliversEach d transforms db (outs ++ rest) db' := by
  obtain ⟨rows, hrows, hdelivers⟩ := h
  obtain ⟨rows', hrows', hdelivers'⟩ := h'
  refine ⟨rows ++ rows', by rw [hrows', hrows, List.append_assoc], ?_⟩
  rw [List.filter_append]
  exact List.rel_append hdelivers hdelivers'

/-- One request, in whichever call: its row holds the transformed bytes, its outcome
the re-encoded value. -/
theorem delivers_insert {id : EventId} {timestampUs : Int64} {v : ℤ} {n : ℕ}
    (hp : preparePayload d transforms a.streamId a.eventType a.payload = .ok p)
    (h : db.insertNext (appendRow a id timestampUs p.payloadBytes) = .ok (v, n, db')) :
    DeliversEach d transforms db
      [(⟨id, i64AsU64 v, timestampUs, toVecOrDefault d p.payload, 0 < n⟩, a)] db' := by
  obtain ⟨-, ⟨rfl, -, rfl⟩ | ⟨rfl, -, rfl⟩⟩ := insertNext_spec h
  · exact ⟨_, rfl, .cons ⟨p, hp, rfl, rfl, rfl⟩ .nil⟩
  · exact ⟨[], (List.append_nil _).symm, .nil⟩

theorem delivers_append (h : (WriteCall.append a).execute d transforms clock db = .ok (outcomes, db')) :
    DeliversEach d transforms db outcomes db' := by
  obtain ⟨p, o, hp, hcall, rfl⟩ := execute_append.mp h
  obtain ⟨id, v, n, -, -, -, hins, rfl⟩ := appendImpl_eq_ok.mp hcall
  exact delivers_insert hp hins

theorem delivers_executeEach {appends : List Append} {i : ℕ}
    (h : executeEach d transforms clock i appends db = .ok (outcomes, db')) :
    DeliversEach d transforms db outcomes db' := by
  induction appends generalizing i db outcomes with
  | nil =>
    obtain ⟨rfl, rfl⟩ := Prod.mk.inj (Except.ok.inj h)
    exact .nil
  | cons a appends ih =>
    obtain ⟨⟨outs, db₁⟩, hsingle, h⟩ := bind_eq_ok.mp h
    obtain ⟨⟨rest, db₂⟩, hrest, h⟩ := bind_eq_ok.mp h
    obtain ⟨rfl, rfl⟩ := Prod.mk.inj (Except.ok.inj h)
    exact (delivers_append hsingle).append (ih hrest)

theorem delivers_execute {call : WriteCall}
    (h : call.execute d transforms clock db = .ok (outcomes, db')) :
    DeliversEach d transforms db outcomes db' := by
  cases call with
  | append a => exact delivers_append h
  | appendBatch appends => exact delivers_executeEach (batch_iff_each.mp h)
  | appendIf a condition =>
    obtain ⟨p, o, hp, hcall, rfl⟩ := execute_appendIf.mp h
    obtain ⟨id, holds, -, -, -, -, ⟨-, rfl, rfl⟩ | ⟨-, v, n, hins, rfl⟩⟩ := appendIfImpl_eq_ok.mp hcall
    · exact .nil
    · exact delivers_insert hp hins

/-! ### Live delivery -/

/-- **When live delivery is the stored record**: for every call of `append`,
`append_batch` or `append_if`, whatever happens between its preparation and its
transaction, the event handed out for a new row is the row's own event, payload
included, exactly when the bytes that the transforms left re-encode to themselves;
every other field agrees always. -/
theorem live_delivery_iff {call : WriteCall} {prepared : PreparedCall d}
    (hprepare : call.prepare d transforms = .ok prepared)
    (hcommit : prepared.commit clock db = .ok (outcomes, db')) :
    ∃ rows, db'.events = db.events ++ rows ∧
      List.Forall₂ (fun o row => Describes (buildStoredEvent o.1 o.2) row ∧
          (buildStoredEvent o.1 o.2 = rowToEvent row ↔ Reencodes d transforms o.2))
        (outcomes.filter fun o => o.1.isNew) rows := by
  have hexecute : call.execute d transforms clock db = .ok (outcomes, db') :=
    bind_eq_ok.mpr ⟨prepared, hprepare, hcommit⟩
  obtain ⟨rows, hrows, hdelivers⟩ := delivers_execute hexecute
  refine ⟨rows, hrows, hdelivers.imp ?_⟩
  rintro o row ⟨p, hp⟩
  exact ⟨hp.describes, hp.eq_iff⟩

/-! ### A transform that spells an integer in its long form -/

/-- `plainDeps` with the small integers: msgpack writes one byte for them and reads the
two bytes of an `int8` as well. -/
def intDeps : Deps :=
  { plainDeps with
    toVec := fun v =>
      match v with
      | .number (.posInt n) => if n < 128 then .ok [n.toUInt8] else .error "unsupported value"
      | v => plainDeps.toVec v
    fromSlice := fun b =>
      match b with
      | [n] => if n < 128 then .ok (.number (.posInt n.toUInt64)) else plainDeps.fromSlice b
      | [0xd0, n] =>
        if n < 128 then .ok (.number (.posInt n.toUInt64)) else .error "unsupported byte"
      | b => plainDeps.fromSlice b }

theorem toUInt64_toUInt8 {n : UInt64} (h : n < 128) :
    n.toUInt8 < 128 ∧ n.toUInt8.toUInt64 = n := by
  have hn : n.toNat < 128 := UInt64.lt_iff_toNat_lt.mp h
  have h8 : n.toUInt8.toNat = n.toNat := by
    rw [UInt64.toNat_toUInt8]
    omega
  exact ⟨UInt8.lt_iff_toNat_lt.mpr (h8 ▸ hn),
    UInt64.toNat_inj.mp ((UInt8.toNat_toUInt64 _).trans h8)⟩

theorem intDeps_msgpackRoundTrips : intDeps.MsgpackRoundTrips := by
  intro v b h
  match v with
  | .null => obtain rfl := Except.ok.inj h; rfl
  | .bool false => obtain rfl := Except.ok.inj h; rfl
  | .bool true => obtain rfl := Except.ok.inj h; rfl
  | .number (.posInt n) =>
    by_cases hn : n < 128
    · obtain ⟨hlt, hcast⟩ := toUInt64_toUInt8 hn
      obtain rfl : [n.toUInt8] = b := Except.ok.inj ((if_pos hn).symm.trans h)
      refine (if_pos hlt).trans ?_
      rw [hcast]
    · exact absurd ((if_neg hn).symm.trans h) (by simp)

/-- It replaces every payload by the integer 5. -/
def redactToFive : TransformEntry := ⟨"s", fun _ _ => .ok [0xd0, 0x05]⟩

def redactedFile : Db := exec plainDeps (Db.bootstrap 0) (.declareStream "s" "t" none 0)

def redactedAppend : WriteCall := .append { streamId := "s", eventType := "e", payload := .bool true }

theorem live_delivery_redacted :
    ∃ (prepared : PreparedCall intDeps) (outcomes : List (AppendOutcome × Append)) (db' : Db),
      redactedAppend.prepare intDeps [redactToFive] = .ok prepared ∧
      prepared.commit (fun _ => 0) redactedFile = .ok (outcomes, db') ∧
      ∃ rows, db'.events = redactedFile.events ++ rows ∧
        List.Forall₂ (fun o row => Describes (buildStoredEvent o.1 o.2) row ∧
            (buildStoredEvent o.1 o.2 = rowToEvent row ↔ Reencodes intDeps [redactToFive] o.2))
          (outcomes.filter fun o => o.1.isNew) rows := by
  have hcall : ∃ (prepared : PreparedCall intDeps) (outcomes : List (AppendOutcome × Append))
      (db' : Db), redactedAppend.prepare intDeps [redactToFive] = .ok prepared ∧
        prepared.commit (fun _ => 0) redactedFile = .ok (outcomes, db') := ⟨_, _, _, rfl, rfl⟩
  obtain ⟨prepared, outcomes, db', hprepare, hcommit⟩ := hcall
  exact ⟨prepared, outcomes, db', hprepare, hcommit, live_delivery_iff hprepare hcommit⟩

/-- The transform stores `d0 05`, and the subscribers are handed `05`. -/
theorem live_payload_differs : ¬ ∀ (d : Deps), d.MsgpackRoundTrips →
    ∀ (transforms : List TransformEntry) (clock : ℕ → Int64) (db : Db) (call : WriteCall)
      (outcomes : List (AppendOutcome × Append)) (db' : Db),
      call.execute d transforms clock db = .ok (outcomes, db') →
        ∃ rows, db'.events = db.events ++ rows ∧ newEvents outcomes = rows.map rowToEvent := by
  intro h
  obtain ⟨rows, hrows, hdelivered⟩ := h intDeps intDeps_msgpackRoundTrips [redactToFive]
    (fun _ => 0) redactedFile redactedAppend _ _ rfl
  have hrows : _ = rows := hrows
  rw [← hrows] at hdelivered
  exact absurd (congrArg (fun events => events.map StoredEvent.payload) hdelivered) (by decide)

/-! ### Without transforms -/

theorem applyTransforms_unmatched {bytes : Bytes} {streamId eventType : String}
    (h : ∀ entry ∈ transforms, globMatches entry.pattern streamId = false) :
    applyTransforms transforms streamId eventType bytes = .ok bytes := by
  induction transforms with
  | nil => rfl
  | cons entry transforms ih =>
    obtain ⟨hentry, hrest⟩ := List.forall_mem_cons.mp h
    rw [applyTransforms, List.foldlM_cons, hentry]
    exact ih hrest

/-- A stream that no transform matches is delivered as it is stored. -/
theorem reencodes_of_unmatched (hmsgpack : d.MsgpackRoundTrips)
    (h : ∀ entry ∈ transforms, globMatches entry.pattern a.streamId = false) :
    Reencodes d transforms a := by
  intro p hp
  obtain ⟨bytes, hbytes, hp⟩ := bind_eq_ok.mp hp
  rw [applyTransforms_unmatched h] at hp
  obtain ⟨final, hfinal, hp⟩ := bind_eq_ok.mp hp
  obtain rfl := Except.ok.inj hfinal
  have hbytes := mapError_eq_ok.mp hbytes
  have hdecoded := hmsgpack _ _ hbytes
  split at hp
  · rename_i hvalue
    obtain rfl := Except.ok.inj hp
    obtain rfl := Except.ok.inj (hvalue.symm.trans hdecoded)
    show (d.toVec _).toOption.getD [] = _
    rw [hbytes]
    rfl
  · exact absurd hp (by simp)

end Fossic
