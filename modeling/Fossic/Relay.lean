/-
Relay agents: the events of local stores on a shared hub.

`relay_event` filters, looks for the event on the hub by stream and external id,
translates its causation id, and appends it to the hub under the D.3 stream name with the
hex of its id as external id.  Agents of several projects do this at the same time, so
the check, the two reads of the translation and the append are separate steps.

The hub identifies events by content.  An append whose id is taken changes nothing, and
`relay_event` returns `True` all the same.

* `relayTaken_of_step` — the steps, branch by branch;
* `relayAppend_spec` — what a successful `relay_append` has done;
* `relayed_on_hub_iff` — every event reported as relayed is on the hub exactly when each
  append finds its id free, or the event there already;
* `same_content_not_relayed` — two projects with the same event.
-/
import Fossic.Upcasters

namespace Fossic

open Transition KeyedList Function

/-! ### Reads -/

/-- The row that a read found, decoded and upcast; `none` when the walk has not returned. -/
def upcastOption (registry : UpcasterRegistry) (fuel : ℕ) :
    Option EventRow → Option (Except Error (Option StoredEvent))
  | none => some (.ok none)
  | some r =>
    match decodeRow r with
    | .error e => some (.error e)
    | .ok event => (applyUpcaster registry fuel event).map fun result => result.map some

/-- `Store::read_one`. -/
def readOne (registry : UpcasterRegistry) (fuel : ℕ) (db : Db) (id : EventId) :
    Option (Except Error (Option StoredEvent)) :=
  upcastOption registry fuel (db.events.find? fun r => r.id = id)

/-- `Store::read_by_external_id`; the rows come in the order of their insertion. -/
def readByExternalId (registry : UpcasterRegistry) (fuel : ℕ) (db : Db)
    (streamId externalId : String) : Option (Except Error (Option StoredEvent)) :=
  upcastOption registry fuel
    (db.events.find? fun r => r.streamId = streamId && r.externalId = some externalId)

/-! ### Python -/

/-- `json_to_py` and `py_to_json`, which go through the text of `serde_json` and Python's
`json` module.  A Python object is taken as the JSON document that it stands for; `none`
is an exception. -/
structure PythonJson where
  jsonToPy : Json → Option Json
  pyToJson : Json → Option Json

/-- `payload_to_py`. -/
def payloadToPy (d : Deps) (py : PythonJson) (payload : Bytes) : Option Json :=
  match d.fromSlice payload with
  | .ok v => py.jsonToPy v
  | .error _ => none

/-- `StoredEvent.indexed_tags`. -/
def tagsToPy (py : PythonJson) : Option Json → Option (Option Json)
  | none => some none
  | some tags => (py.jsonToPy tags).map some

/-- Whether Python takes the object for false. -/
def Json.falsy : Json → Bool
  | null => true
  | bool b => !b
  | number (.posInt n) => n = 0
  | number (.negInt _ _) => false
  | number (.float bits _) => bits = 0 || bits = 0x8000000000000000
  | string s => s = ""
  | array items => items.isEmpty
  | object members => members.isEmpty

/-- `**(o or {})`. -/
def unpackDict : Option Json → Option (List (String × Json))
  | none => some []
  | some (.object members) => some members
  | some v => if v.falsy then some [] else none

/-- `{**(tags or {}), **(extra or {}), "source_store": source_prefix}`. -/
def relayTags (tags extra : Option Json) (sourcePrefix : String) : Option Json := do
  let tags ← unpackDict tags
  let extra ← unpackDict extra
  let merged := extra.foldl (fun members p => upsert members p.1 p.2) tags
  some (.object (upsert merged "source_store" (.string sourcePrefix)))

/-! ### The agents -/

/-- An agent: its configuration, and what is registered with its handles of the two
stores. -/
structure RelayAgent where
  sourcePrefix : String
  relayFilter : List String
  localUpcasters : UpcasterRegistry
  hubUpcasters : UpcasterRegistry
  hubTransforms : List TransformEntry

/-- `_hub_stream_id`: the D.3 conditional strip rule. -/
def hubStreamId (sourcePrefix localStreamId : String) : String :=
  if startsWith localStreamId (sourcePrefix ++ "/") then localStreamId
  else sourcePrefix ++ "/" ++ localStreamId

def RelayAgent.hubStream (agent : RelayAgent) (localStreamId : String) : String :=
  hubStreamId agent.sourcePrefix localStreamId

/-- `_should_relay`. -/
def RelayAgent.shouldRelay (agent : RelayAgent) (event : StoredEvent) : Bool :=
  agent.relayFilter.isEmpty || agent.relayFilter.contains event.eventType

/-- Where a call of `relay_event` is: past the idempotency check, past the read of the
local cause, or past the translation. -/
inductive Relaying
  | idle
  | checked (event : StoredEvent)
  | located (event : StoredEvent) (causationId : EventId) (cause : StoredEvent)
  | translated (event : StoredEvent) (causationId : Option EventId)

/-- The request that `relay_append` makes. -/
def relayRequest (d : Deps) (py : PythonJson) (agent : RelayAgent) (event : StoredEvent)
    (causationId : Option EventId) (extraIndexedTags : Option Json) : Option Append := do
  let payload ← payloadToPy d py event.payload
  let eventTags ← tagsToPy py event.indexedTags
  let tags ← relayTags eventTags extraIndexedTags agent.sourcePrefix
  let payloadJson ← py.pyToJson payload
  let tagsJson ← py.pyToJson tags
  some {
    streamId := agent.hubStream event.streamId
    eventType := event.eventType
    payload := payloadJson
    branch := event.branch
    typeVersion := event.typeVersion
    causationId := causationId
    externalId := some event.id.toHex
    indexedTags := some tagsJson }

/-- `relay_append` with the causation id translated: the hub afterwards, unless an
exception is raised. -/
def relayAppend (d : Deps) (py : PythonJson) (agent : RelayAgent) (event : StoredEvent)
    (causationId : Option EventId) (now : Int64) (hub : Db) : Option Db :=
  match relayRequest d py agent event causationId none with
  | none => none
  | some a =>
    match (WriteCall.append a).execute d agent.hubTransforms (fun _ => now) hub with
    | .ok (_, hub') => some hub'
    | .error _ => none

/-! ### Steps -/

structure Relays where
  hub : Db
  locals : ℕ → Db
  relaying : ℕ → Relaying
  /-- The calls of `relay_event` that have returned, with what they returned. -/
  returned : List (ℕ × StoredEvent × Bool)

inductive RelayAction
  /-- `relay_event` is called: the filter and the idempotency check. -/
  | deliver (i : ℕ) (event : StoredEvent)
  /-- `local_store.read_one` on the causation id. -/
  | locate (i : ℕ)
  /-- `hub_store.read_by_external_id` on the causation id. -/
  | lookup (i : ℕ)
  | append (i : ℕ) (now : Int64)
  /-- A transaction of another user of the hub, or of a local store. -/
  | onHub (op : StoreOp)
  | onLocal (i : ℕ) (op : StoreOp)

def Relays.init (hub : Db) (locals : ℕ → Db) : Relays := ⟨hub, locals, fun _ => .idle, []⟩

def Relays.go (s : Relays) (i : ℕ) (relaying : Relaying) : Relays :=
  { s with relaying := update s.relaying i relaying }

def Relays.returns (s : Relays) (i : ℕ) (event : StoredEvent) (result : Bool) : Relays :=
  { s.go i .idle with returned := s.returned ++ [(i, event, result)] }

section Step

variable (d : Deps) (py : PythonJson) (agents : ℕ → RelayAgent) (fuel : ℕ)

/-- One step; nothing is deleted from the hub in the runs considered here. -/
def relayStep (s : Relays) : RelayAction → Option Relays
  | .deliver i event =>
    match s.relaying i with
    | .idle =>
      if !(agents i).shouldRelay event then some (s.returns i event false)
      else
        match readByExternalId (agents i).hubUpcasters fuel s.hub
            ((agents i).hubStream event.streamId) event.id.toHex with
        | none => none
        | some (.error _) => some s
        | some (.ok (some _)) => some (s.returns i event false)
        | some (.ok none) => some (s.go i (.checked event))
    | _ => none
  | .locate i =>
    match s.relaying i with
    | .checked event =>
      match event.causationId with
      | none => some (s.go i (.translated event none))
      | some causationId =>
        match readOne (agents i).localUpcasters fuel (s.locals i) causationId with
        | none => none
        | some (.error _) => some (s.go i .idle)
        | some (.ok none) => some (s.go i (.translated event (some causationId)))
        | some (.ok (some cause)) => some (s.go i (.located event causationId cause))
    | _ => none
  | .lookup i =>
    match s.relaying i with
    | .located event causationId cause =>
      match readByExternalId (agents i).hubUpcasters fuel s.hub
          ((agents i).hubStream cause.streamId) causationId.toHex with
      | none => none
      | some (.error _) => some (s.go i .idle)
      | some (.ok none) => some (s.go i (.translated event (some causationId)))
      | some (.ok (some hubCause)) => some (s.go i (.translated event (some hubCause.id)))
    | _ => none
  | .append i now =>
    match s.relaying i with
    | .translated event causationId =>
      match relayAppend d py (agents i) event causationId now s.hub with
      | none => some (s.go i .idle)
      | some hub => some { s.returns i event true with hub := hub }
    | _ => none
  | .onHub op => if op.isPurge then none else some { s with hub := exec d s.hub op }
  | .onLocal i op => some { s with locals := update s.locals i (exec d (s.locals i) op) }

/-- The steps that can be taken, each branch of `relayStep` with its conditions. -/
inductive RelayTaken (s : Relays) : RelayAction → Relays → Prop
  | filtered {i : ℕ} {event : StoredEvent} (hi : s.relaying i = .idle)
      (hfilter : (agents i).shouldRelay event = false) :
      RelayTaken s (.deliver i event) (s.returns i event false)
  | present {i : ℕ} {event hubEvent : StoredEvent} (hi : s.relaying i = .idle)
      (hfilter : (agents i).shouldRelay event = true)
      (hread : readByExternalId (agents i).hubUpcasters fuel s.hub
        ((agents i).hubStream event.streamId) event.id.toHex = some (.ok (some hubEvent))) :
      RelayTaken s (.deliver i event) (s.returns i event false)
  | unreadable {i : ℕ} {event : StoredEvent} {e : Error} (hi : s.relaying i = .idle)
      (hfilter : (agents i).shouldRelay event = true)
      (hread : readByExternalId (agents i).hubUpcasters fuel s.hub
        ((agents i).hubStream event.streamId) event.id.toHex = some (.error e)) :
      RelayTaken s (.deliver i event) s
  | checked {i : ℕ} {event : StoredEvent} (hi : s.relaying i = .idle)
      (hfilter : (agents i).shouldRelay event = true)
      (hread : readByExternalId (agents i).hubUpcasters fuel s.hub
        ((agents i).hubStream event.streamId) event.id.toHex = some (.ok none)) :
      RelayTaken s (.deliver i event) (s.go i (.checked event))
  | root {i : ℕ} {event : StoredEvent} (hi : s.relaying i = .checked event)
      (hcause : event.causationId = none) :
      RelayTaken s (.locate i) (s.go i (.translated event none))
  | notLocal {i : ℕ} {event : StoredEvent} {causationId : EventId}
      (hi : s.relaying i = .checked event) (hcause : event.causationId = some causationId)
      (hread : readOne (agents i).localUpcasters fuel (s.locals i) causationId
        = some (.ok none)) :
      RelayTaken s (.locate i) (s.go i (.translated event (some causationId)))
  | located {i : ℕ} {event cause : StoredEvent} {causationId : EventId}
      (hi : s.relaying i = .checked event) (hcause : event.causationId = some causationId)
      (hread : readOne (agents i).localUpcasters fuel (s.locals i) causationId
        = some (.ok (some cause))) :
      RelayTaken s (.locate i) (s.go i (.located event causationId cause))
  | notOnHub {i : ℕ} {event cause : StoredEvent} {causationId : EventId}
      (hi : s.relaying i = .located event causationId cause)
      (hread : readByExternalId (agents i).hubUpcasters fuel s.hub
        ((agents i).hubStream cause.streamId) causationId.toHex = some (.ok none)) :
      RelayTaken s (.lookup i) (s.go i (.translated event (some causationId)))
  | translated {i : ℕ} {event cause hubCause : StoredEvent} {causationId : EventId}
      (hi : s.relaying i = .located event causationId cause)
      (hread : readByExternalId (agents i).hubUpcasters fuel s.hub
        ((agents i).hubStream cause.streamId) causationId.toHex = some (.ok (some hubCause))) :
      RelayTaken s (.lookup i) (s.go i (.translated event (some hubCause.id)))
  | appended {i : ℕ} {now : Int64} {event : StoredEvent} {causationId : Option EventId} {hub : Db}
      (hi : s.relaying i = .translated event causationId)
      (happend : relayAppend d py (agents i) event causationId now s.hub = some hub) :
      RelayTaken s (.append i now) { s.returns i event true with hub := hub }
  /-- An exception: the call ends without a result. -/
  | raised {i : ℕ} {a : RelayAction}
      (ha : a = .locate i ∨ a = .lookup i ∨ ∃ now, a = .append i now) :
      RelayTaken s a (s.go i .idle)
  | onHub {op : StoreOp} (hop : op.isPurge = false) :
      RelayTaken s (.onHub op) { s with hub := exec d s.hub op }
  | onLocal {i : ℕ} {op : StoreOp} :
      RelayTaken s (.onLocal i op) { s with locals := update s.locals i (exec d (s.locals i) op) }

end Step

variable {d : Deps} {py : PythonJson} {agents : ℕ → RelayAgent} {fuel : ℕ} {s s' : Relays}
  {a : RelayAction} {i : ℕ} {event : StoredEvent} {agent : RelayAgent} {hub hub' db : Db}
  {registry : UpcasterRegistry} {streamId externalId : String}

/-- **Inversion**: the one place where `relayStep` is taken apart. -/
theorem relayTaken_of_step (h : relayStep d py agents fuel s a = some s') :
    RelayTaken d py agents fuel s a s' := by
  cases a with
  | deliver i event =>
    rw [relayStep] at h
    split at h
    · rename_i hi
      split at h
      · rename_i hfilter
        obtain rfl := Option.some_inj.mp h
        exact .filtered hi (by simpa using hfilter)
      · rename_i hfilter
        have hfilter : (agents i).shouldRelay event = true := by simpa using hfilter
        split at h
        · exact absurd h (by simp)
        · rename_i hread
          obtain rfl := Option.some_inj.mp h
          exact .unreadable hi hfilter hread
        · rename_i hread
          obtain rfl := Option.some_inj.mp h
          exact .present hi hfilter hread
        · rename_i hread
          obtain rfl := Option.some_inj.mp h
          exact .checked hi hfilter hread
    · exact absurd h (by simp)
  | locate i =>
    rw [relayStep] at h
    split at h
    · rename_i hi
      split at h
      · rename_i hcause
        obtain rfl := Option.some_inj.mp h
        exact .root hi hcause
      · rename_i hcause
        split at h
        · exact absurd h (by simp)
        · obtain rfl := Option.some_inj.mp h
          exact .raised (.inl rfl)
        · rename_i hread
          obtain rfl := Option.some_inj.mp h
          exact .notLocal hi hcause hread
        · rename_i hread
          obtain rfl := Option.some_inj.mp h
          exact .located hi hcause hread
    · exact absurd h (by simp)
  | lookup i =>
    rw [relayStep] at h
    split at h
    · rename_i hi
      split at h
      · exact absurd h (by simp)
      · obtain rfl := Option.some_inj.mp h
        exact .raised (.inr (.inl rfl))
      · rename_i hread
        obtain rfl := Option.some_inj.mp h
        exact .notOnHub hi hread
      · rename_i hread
        obtain rfl := Option.some_inj.mp h
        exact .translated hi hread
    · exact absurd h (by simp)
  | append i now =>
    rw [relayStep] at h
    split at h
    · rename_i hi
      split at h
      · obtain rfl := Option.some_inj.mp h
        exact .raised (.inr (.inr ⟨now, rfl⟩))
      · rename_i happend
        obtain rfl := Option.some_inj.mp h
        exact .appended hi happend
    · exact absurd h (by simp)
  | onHub op =>
    rw [relayStep] at h
    split at h
    · exact absurd h (by simp)
    · rename_i hop
      obtain rfl := Option.some_inj.mp h
      exact .onHub (by simpa using hop)
  | onLocal i op =>
    obtain rfl := Option.some_inj.mp h
    exact .onLocal

/-! ### What is read and written -/

/-- The id that the hub derives for the event. -/
def relayedId (d : Deps) (py : PythonJson) (agent : RelayAgent) (event : StoredEvent)
    (causationId : Option EventId) : Option EventId := do
  let a ← relayRequest d py agent event causationId none
  let p ← (preparePayload d agent.hubTransforms a.streamId a.eventType a.payload).toOption
  (checkIndexedTags Json.kindName a.indexedTags).toOption
  (deriveId d a.eventType a.typeVersion a.causationId p.payload).toOption

/-- The row as `relay_append` writes it. -/
structure RelayRow (agent : RelayAgent) (event : StoredEvent) (causationId : Option EventId)
    (id : EventId) (row : EventRow) : Prop where
  placed : row.On (agent.hubStream event.streamId) event.branch
  externalId : row.externalId = some event.id.toHex
  id_eq : row.id = id
  causationId : row.causationId = causationId

/-- The relayed event is on the hub, on the mapped stream and its own branch, under the
id that the idempotency check looks for. -/
def OnHub (hub : Db) (agent : RelayAgent) (event : StoredEvent) : Prop :=
  ∃ r ∈ hub.events, r.On (agent.hubStream event.streamId) event.branch ∧
    r.externalId = some event.id.toHex

instance (hub : Db) (agent : RelayAgent) (event : StoredEvent) : Decidable (OnHub hub agent event) :=
  inferInstanceAs (Decidable (∃ r ∈ hub.events, _ ∧ _))

theorem toOption_eq_some {ε α : Type} {x : Except ε α} {a : α} :
    x.toOption = some a ↔ x = .ok a := by
  cases x <;> simp [Except.toOption]

theorem relayedId_eq_some {causationId : Option EventId} {id : EventId} :
    relayedId d py agent event causationId = some id ↔ ∃ a p,
      relayRequest d py agent event causationId none = some a ∧
      preparePayload d agent.hubTransforms a.streamId a.eventType a.payload = .ok p ∧
      checkIndexedTags Json.kindName a.indexedTags = .ok () ∧
      deriveId d a.eventType a.typeVersion a.causationId p.payload = .ok id := by
  simp only [relayedId, Option.bind_eq_bind, Option.bind_eq_some_iff, toOption_eq_some]
  constructor
  · rintro ⟨a, hrequest, p, hprepare, ⟨⟩, htags, hid⟩
    exact ⟨a, p, hrequest, hprepare, htags, hid⟩
  · rintro ⟨a, p, hrequest, hprepare, htags, hid⟩
    exact ⟨a, hrequest, p, hprepare, (), htags, hid⟩

/-- The request names the mapped stream, and the event as it is. -/
theorem relayRequest_eq {causationId : Option EventId} {a : Append}
    (h : relayRequest d py agent event causationId none = some a) :
    ∃ payload tags, a = {
      streamId := agent.hubStream event.streamId
      eventType := event.eventType
      payload := payload
      branch := event.branch
      typeVersion := event.typeVersion
      causationId := causationId
      externalId := some event.id.toHex
      indexedTags := tags } ∧
      (payloadToPy d py event.payload).bind py.pyToJson = some payload := by
  simp only [relayRequest, Option.bind_eq_bind, Option.bind_eq_some_iff, Option.some.injEq] at h
  obtain ⟨payload, hpayload, -, -, -, -, payloadJson, hjson, tags, -, rfl⟩ := h
  exact ⟨payloadJson, some tags, rfl, Option.bind_eq_some_iff.mpr ⟨payload, hpayload, hjson⟩⟩

/-- **A `relay_append` that returns** has added the row, unless its id was taken. -/
theorem relayAppend_spec {causationId : Option EventId} {now : Int64}
    (h : relayAppend d py agent event causationId now hub = some hub') :
    ∃ id, relayedId d py agent event causationId = some id ∧
      hub.streamExists (agent.hubStream event.streamId) = true ∧
      hub.maxVersion (agent.hubStream event.streamId) event.branch + 1 < 2 ^ 63 ∧
      ((∃ row, RelayRow agent event causationId id row ∧ Insertable hub row ∧
          hub' = hub.insert row) ∨
        (∃ r ∈ hub.events, r.id = id) ∧ hub' = hub) := by
  rw [relayAppend] at h
  split at h
  · exact absurd h (by simp)
  · rename_i a hrequest
    split at h
    · rename_i outcomes hub'' hexecute
      obtain rfl := Option.some_inj.mp h
      obtain ⟨p, o, hprepare, happend, -⟩ := execute_append.mp hexecute
      obtain ⟨id, v, n, htags, hid, hexists, hins, -⟩ := appendImpl_eq_ok.mp happend
      refine ⟨id, relayedId_eq_some.mpr ⟨a, p, hrequest, hprepare, htags, hid⟩, ?_⟩
      obtain ⟨payload, tags, rfl, -⟩ := relayRequest_eq hrequest
      have hlt := insertNext_lt hins
      obtain ⟨rfl, ⟨-, hrow, rfl⟩ | ⟨-, htaken, rfl⟩⟩ := insertNext_spec hins
      · exact ⟨hexists, hlt, .inl ⟨_, ⟨⟨rfl, rfl⟩, rfl, rfl, rfl⟩, hrow, rfl⟩⟩
      · exact ⟨hexists, hlt, .inr ⟨htaken, rfl⟩⟩
    · exact absurd h (by simp)

/-- An append whose id is taken returns as well, and changes nothing. -/
theorem relayAppend_taken {causationId : Option EventId} {id : EventId} (now : Int64)
    (hid : relayedId d py agent event causationId = some id)
    (hexists : hub.streamExists (agent.hubStream event.streamId) = true)
    (hlt : hub.maxVersion (agent.hubStream event.streamId) event.branch + 1 < 2 ^ 63)
    (htaken : ∃ r ∈ hub.events, r.id = id) :
    relayAppend d py agent event causationId now hub = some hub := by
  obtain ⟨a, p, hrequest, hprepare, htags, hid⟩ := relayedId_eq_some.mp hid
  obtain ⟨payload, tags, ha, -⟩ := relayRequest_eq hrequest
  have hexists' : hub.streamExists a.streamId = true := ha ▸ hexists
  have hlt' : hub.maxVersion a.streamId a.branch + 1 < 2 ^ 63 := by
    rw [ha]
    exact hlt
  have hins : hub.insertNext (appendRow a id (a.timestampUs.getD now) p.payloadBytes)
      = .ok (hub.maxVersion a.streamId a.branch + 1, 0, hub) := insertNext_taken rfl hlt' htaken
  have happend := appendImpl_eq_ok.mpr ⟨id, _, _, htags, hid, hexists', hins, rfl⟩
  have hexecute : (WriteCall.append a).execute d agent.hubTransforms (fun _ => now) hub
      = .ok ([(_, a)], hub) := execute_append.mpr ⟨p, _, hprepare, happend, rfl⟩
  rw [relayAppend, hrequest]
  show (match (WriteCall.append a).execute d agent.hubTransforms (fun _ => now) hub with
    | .ok (_, hub') => some hub'
    | .error _ => none) = some hub
  rw [hexecute]

/-- A read that succeeds on a row has decoded and upcast it. -/
theorem upcastOption_some {r : EventRow} {found : Option StoredEvent} :
    upcastOption registry fuel (some r) = some (.ok found) ↔ r.tagsParse = true ∧
      ∃ event, applyUpcaster registry fuel (rowToEvent r) = some (.ok event) ∧
        found = some event := by
  rw [upcastOption]
  rcases hr : r.tagsParse with _ | _
  · rw [decodeRow_of_not hr]
    simp
  · rw [decodeRow_of_parses hr]
    constructor
    · intro h
      obtain ⟨result, hresult, hmap⟩ := Option.map_eq_some_iff.mp h
      cases result with
      | error e => exact absurd hmap (by simp [Except.map])
      | ok event => exact ⟨rfl, event, hresult, (Except.ok.inj hmap).symm⟩
    · rintro ⟨-, event, hevent, rfl⟩
      show (applyUpcaster registry fuel (rowToEvent r)).map _ = _
      rw [hevent]
      rfl

/-- The idempotency check finds nothing only when no row has the external id. -/
theorem readByExternalId_none
    (h : readByExternalId registry fuel db streamId externalId = some (.ok none)) :
    ∀ r ∈ db.events, r.streamId = streamId → r.externalId ≠ some externalId := by
  rw [readByExternalId] at h
  rcases hfind : db.events.find? fun r =>
    r.streamId = streamId && r.externalId = some externalId with _ | r
  · intro r hr hstream hexternal
    exact List.find?_eq_none.mp hfind r hr (by simp [hstream, hexternal])
  · rw [hfind] at h
    obtain ⟨-, event, -, hsome⟩ := upcastOption_some.mp h
    exact absurd hsome (by simp)

/-- What is found is a row with the external id. -/
theorem readByExternalId_some {e : StoredEvent}
    (h : readByExternalId registry fuel db streamId externalId = some (.ok (some e))) :
    ∃ r ∈ db.events, r.streamId = streamId ∧ r.externalId = some externalId ∧ r.id = e.id := by
  rw [readByExternalId] at h
  rcases hfind : db.events.find? fun r =>
    r.streamId = streamId && r.externalId = some externalId with _ | r
  · rw [hfind] at h
    exact absurd h (by simp [upcastOption])
  · rw [hfind] at h
    obtain ⟨-, event, hevent, hsome⟩ := upcastOption_some.mp h
    obtain rfl := Option.some_inj.mp hsome
    have hr := List.find?_some hfind
    simp only [Bool.and_eq_true, decide_eq_true_eq] at hr
    refine ⟨r, List.mem_of_find?_eq_some hfind, hr.1, hr.2, ?_⟩
    rw [(applyUpcaster_eq_ok hevent).2]
    rfl

/-! ### Relayed events are on the hub -/

/-- Every event for which `relay_event` returned `True` is then on the hub, and later
deliveries of it find it. -/
structure RelaysHold (d : Deps) (py : PythonJson) (agents : ℕ → RelayAgent) (fuel : ℕ)
    (s₀ : Relays) (ops : List RelayAction) : Prop where
  held : ∀ as a bs s s' i event, ops = as ++ a :: bs →
    run (relayStep d py agents fuel) s₀ as = some s →
      relayStep d py agents fuel s a = some s' →
        s'.returned = s.returned ++ [(i, event, true)] → OnHub s'.hub (agents i) event
  found : ∀ as a bs cs s s' t i event, ops = (as ++ a :: bs) ++ cs →
    run (relayStep d py agents fuel) s₀ as = some s →
      relayStep d py agents fuel s a = some s' →
        s'.returned = s.returned ++ [(i, event, true)] →
          run (relayStep d py agents fuel) s' bs = some t →
            readByExternalId (agents i).hubUpcasters fuel t.hub
              ((agents i).hubStream event.streamId) event.id.toHex ≠ some (.ok none)

/-- When the append comes to the hub, its id is free, or the event is there already. -/
def FreeOnHub (d : Deps) (py : PythonJson) (agents : ℕ → RelayAgent) (s : Relays) :
    RelayAction → Prop
  | .append i _ => ∀ event causationId id, s.relaying i = .translated event causationId →
    relayedId d py (agents i) event causationId = some id →
      s.hub.streamExists ((agents i).hubStream event.streamId) = true →
        s.hub.maxVersion ((agents i).hubStream event.streamId) event.branch + 1 < 2 ^ 63 →
          (∀ r ∈ s.hub.events, r.id ≠ id) ∨ OnHub s.hub (agents i) event
  | _ => True

/-- The hub keeps its events. -/
theorem hub_subset_of_step (h : relayStep d py agents fuel s a = some s') :
    s.hub.events ⊆ s'.hub.events := by
  cases relayTaken_of_step h with
  | appended hi happend =>
    obtain ⟨id, -, -, -, ⟨row, -, -, hinsert⟩ | ⟨-, heq⟩⟩ := relayAppend_spec happend
    · rw [hinsert]
      exact List.subset_append_left _ _
    · rw [heq]
      exact fun r hr => hr
  | onHub hop =>
    obtain ⟨db₁, rows, hevents, -, hgrows, -⟩ := @exec_grows d s.hub _ hop
    rw [hgrows.eq, hevents]
    exact List.subset_append_left _ _
  | _ => exact fun r hr => hr

theorem hub_subset_of_run {as : List RelayAction}
    (h : run (relayStep d py agents fuel) s as = some s') : s.hub.events ⊆ s'.hub.events := by
  have : Std.Refl fun s s' : Relays => s.hub.events ⊆ s'.hub.events := ⟨fun _ _ hr => hr⟩
  have : IsTrans Relays fun s s' => s.hub.events ⊆ s'.hub.events :=
    ⟨fun _ _ _ h h' => List.Subset.trans h h'⟩
  exact run_related (R := fun s s' : Relays => s.hub.events ⊆ s'.hub.events)
    (fun _ _ _ => hub_subset_of_step) h

/-- `True` is returned by the append, and by nothing else. -/
theorem appended_of_returned (h : relayStep d py agents fuel s a = some s')
    (hreturned : s'.returned = s.returned ++ [(i, event, true)]) :
    ∃ now causationId, a = .append i now ∧ s.relaying i = .translated event causationId ∧
      relayAppend d py (agents i) event causationId now s.hub = some s'.hub := by
  have hsame : s.returned ≠ s.returned ++ [(i, event, true)] := by simp
  cases relayTaken_of_step h with
  | appended hi happend =>
    obtain ⟨rfl, rfl, -⟩ : _ = i ∧ _ = event ∧ true = true := by
      simpa [Relays.returns] using hreturned
    exact ⟨_, _, rfl, hi, happend⟩
  | filtered | present => simp [Relays.returns] at hreturned
  | _ => exact absurd hreturned hsame

/-- **One append**: the event is on the hub afterwards exactly when its id was free or
the event was there already. -/
theorem onHub_relayAppend_iff {causationId : Option EventId} {now : Int64}
    (h : relayAppend d py agent event causationId now hub = some hub') : OnHub hub' agent event ↔
      ∀ id, relayedId d py agent event causationId = some id →
        (∀ r ∈ hub.events, r.id ≠ id) ∨ OnHub hub agent event := by
  obtain ⟨id, hid, -, -, ⟨row, hrow, hins, rfl⟩ | ⟨⟨r, hr, hr'⟩, rfl⟩⟩ := relayAppend_spec h
  · refine ⟨fun _ id' hid' => .inl ?_, fun _ => ⟨row, ?_, hrow.placed, hrow.externalId⟩⟩
    · obtain rfl := Option.some_inj.mp (hid.symm.trans hid')
      exact hrow.id_eq ▸ hins.fresh
    · exact List.mem_append_right _ (List.mem_singleton_self _)
  · refine ⟨fun hon _ _ => .inr hon, fun hcond => (hcond id hid).resolve_left ?_⟩
    exact fun hfree => hfree r hr hr'

/-- **A relayed event is on the hub, exactly when its id was free there**: in every run
of any agents, each event reported as relayed is on the hub on its mapped stream, on its
branch and under its external id, and is found by later checks, if and only if at each
append the id derived for the event is free, or the event is on the hub already. -/
theorem relayed_on_hub_iff (d : Deps) (py : PythonJson) (agents : ℕ → RelayAgent) (fuel : ℕ)
    (hub : Db) (locals : ℕ → Db) (ops : List RelayAction) :
    RelaysHold d py agents fuel (.init hub locals) ops ↔
      Along (relayStep d py agents fuel) (FreeOnHub d py agents) (.init hub locals) ops := by
  rw [along_iff]
  constructor
  · intro h as a bs s hops hrun
    cases a with
    | append i now =>
      intro event causationId id hi hid hexists hlt
      by_cases htaken : ∃ r ∈ s.hub.events, r.id = id
      · -- the append returns, so the claim puts the event on the hub it leaves as it was
        have happend := relayAppend_taken now hid hexists hlt htaken
        have hstep : relayStep d py agents fuel s (.append i now)
            = some { s.returns i event true with hub := s.hub } := by
          rw [relayStep, hi]
          show (match relayAppend d py (agents i) event causationId now s.hub with
            | none => some (s.go i .idle)
            | some hub => some { s.returns i event true with hub := hub }) = _
          rw [happend]
        have hon := h.held as _ bs s _ i event hops hrun hstep rfl
        exact .inr hon
      · exact .inl fun r hr hid => htaken ⟨r, hr, hid⟩
    | _ => trivial
  · intro h
    have hheld : ∀ as a bs s s' i event, ops = as ++ a :: bs →
        run (relayStep d py agents fuel) (.init hub locals) as = some s →
          relayStep d py agents fuel s a = some s' →
            s'.returned = s.returned ++ [(i, event, true)] → OnHub s'.hub (agents i) event := by
      intro as a bs s s' i event hops hrun hstep hreturned
      obtain ⟨now, causationId, rfl, hi, happend⟩ := appended_of_returned hstep hreturned
      obtain ⟨id, hid, hexists, hlt, -⟩ := relayAppend_spec happend
      refine (onHub_relayAppend_iff happend).mpr fun id' hid' => ?_
      exact h as _ bs s hops hrun event causationId id' hi hid' hexists hlt
    refine ⟨hheld, fun as a bs cs s s' t i event hops hrun hstep hreturned hrest hnone => ?_⟩
    obtain ⟨r, hr, ⟨hstream, -⟩, hexternal⟩ := hheld as a (bs ++ cs) s s' i event
      (by rw [hops, List.append_assoc, List.cons_append]) hrun hstep hreturned
    exact readByExternalId_none hnone r (hub_subset_of_run hrest hr) hstream hexternal

/-! ### Two projects with the same event -/

/-- Python's `json` module on the documents used here. -/
def plainPy : PythonJson := ⟨some, some⟩

/-- Project `i` has the prefix `p…p`, of `i + 1` letters. -/
def projectAgent (i : ℕ) : RelayAgent where
  sourcePrefix := String.ofList (List.replicate (i + 1) 'p')
  relayFilter := []
  localUpcasters := []
  hubUpcasters := []
  hubTransforms := []

/-- A local store with one event on `s`. -/
def projectStore : Db :=
  exec plainDeps (exec plainDeps (Db.bootstrap 0) (.declareStream "s" "t" none 0)) (appendNull "a")

/-- The hub, with the streams of the first two projects. -/
def projectHub : Db :=
  exec plainDeps (exec plainDeps (Db.bootstrap 0) (.declareStream "p/s" "t" none 0))
    (.declareStream "pp/s" "t" none 0)

def projectEvent : StoredEvent :=
  match projectStore.events with
  | r :: _ => rowToEvent r
  | [] => nullEvent 0

theorem projectAgent_ne {i j : ℕ} (h : i ≠ j) :
    (projectAgent i).sourcePrefix ≠ (projectAgent j).sourcePrefix := by
  intro heq
  have hlength := congrArg List.length (String.ofList_injective heq)
  simp only [List.length_replicate] at hlength
  omega

/-- Project `i` relays the event from start to end. -/
def relayAll (i : ℕ) (event : StoredEvent) : List RelayAction :=
  [.deliver i event, .locate i, .append i 0]

/-- Both projects hold an event with the same content.  The second append is ignored on
the hub, and reported as done. -/
theorem same_content_not_relayed : ¬ ∀ (d : Deps), d.MsgpackRoundTrips → ∀ (py : PythonJson)
    (agents : ℕ → RelayAgent) (fuel : ℕ) (hub : Db) (locals : ℕ → Db) (ops : List RelayAction),
    SelfCertifying d hub → (∀ i, SelfCertifying d (locals i)) →
    (∀ i j, i ≠ j → (agents i).sourcePrefix ≠ (agents j).sourcePrefix) →
    (∀ i event, .deliver i event ∈ ops → (∃ r ∈ (locals i).events, event = rowToEvent r) ∧
      hub.streamExists ((agents i).hubStream event.streamId) = true) →
    RelaysHold d py agents fuel (.init hub locals) ops := by
  intro h
  have hself : ∀ op op', SelfCertifying plainDeps
      (exec plainDeps (exec plainDeps (Db.bootstrap 0) op) op') := fun op op' =>
    (exec_storeInv plainDeps_msgpackRoundTrips op'
      (exec_storeInv plainDeps_msgpackRoundTrips op (bootstrap_storeInv 0))).1
  let ops := relayAll 0 projectEvent ++ relayAll 1 projectEvent
  have hlocal : ∀ i event, RelayAction.deliver i event ∈ ops →
      (∃ r ∈ projectStore.events, event = rowToEvent r) ∧
        projectHub.streamExists ((projectAgent i).hubStream event.streamId) = true := by
    intro i event hmem
    obtain ⟨rfl, rfl⟩ | ⟨rfl, rfl⟩ : (i = 0 ∧ event = projectEvent) ∨
        (i = 1 ∧ event = projectEvent) := by
      simpa [ops, relayAll] using hmem
    · exact ⟨⟨_, List.mem_cons_self, rfl⟩, by decide⟩
    · exact ⟨⟨_, List.mem_cons_self, rfl⟩, by decide⟩
  have hheld := (h plainDeps plainDeps_msgpackRoundTrips plainPy projectAgent 1 projectHub
    (fun _ => projectStore) ops (hself _ _) (fun _ => hself _ _)
    (fun _ _ => projectAgent_ne) hlocal).held
  have hon := hheld (relayAll 0 projectEvent ++ [.deliver 1 projectEvent, .locate 1])
    (.append 1 0) [] _ _ 1 projectEvent rfl rfl rfl rfl
  revert hon
  decide

end Fossic
