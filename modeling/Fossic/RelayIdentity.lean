/-
Relaying preserves identity, in whatever order events arrive.

The id on the hub is derived from the translated causation id, and the translation looks
for the cause under the hex of its local id.  If rows with an external id come to the
mapped streams through relays only, each of them has the id that its external id names
(`Relayed`), so the translation changes nothing, whether the cause is local, relayed
before or after its effect, filtered out, or native to the hub.

* `toHex_injective` — an external id names one id;
* `relayFaithful_step`, `relayFaithful_run` — the invariant;
* `relaying_preserves_identity` — every append is for the id of the local event, and the
  ids on the hub are those before and those of the relayed events.
-/
import Fossic.LiveDelivery
import Fossic.Relay

namespace Fossic

open Transition KeyedList Function

/-! ### Hex -/

theorem hexDigit_injective : ∀ m < 16, ∀ n < 16, hexDigit m = hexDigit n → m = n := by decide

theorem hexDigits_injective {b c : UInt8}
    (hhigh : hexDigit (b.toNat / 16) = hexDigit (c.toNat / 16))
    (hlow : hexDigit (b.toNat % 16) = hexDigit (c.toNat % 16)) : b = c := by
  have hb := b.toNat_lt
  have hc := c.toNat_lt
  have hquot := hexDigit_injective _ (by omega) _ (by omega) hhigh
  have hrem := hexDigit_injective _ (by omega) _ (by omega) hlow
  exact UInt8.toNat_inj.mp (by omega)

theorem hexBytes_injective : ∀ {bs cs : Bytes},
    (bs.flatMap fun b => [hexDigit (b.toNat / 16), hexDigit (b.toNat % 16)]) =
      cs.flatMap (fun b => [hexDigit (b.toNat / 16), hexDigit (b.toNat % 16)]) → bs = cs
  | [], [], _ => rfl
  | [], c :: cs, h => absurd h (by simp)
  | b :: bs, [], h => absurd h (by simp)
  | b :: bs, c :: cs, h => by
    simp only [List.flatMap_cons, List.cons_append, List.nil_append, List.cons.injEq] at h
    rw [hexDigits_injective h.1 h.2.1, hexBytes_injective h.2.2]

theorem toHex_injective : Injective EventId.toHex := by
  intro x y h
  have hbytes := hexBytes_injective (String.ofList_injective h)
  obtain ⟨bytes, hx⟩ := x
  obtain rfl : bytes = y.bytes := hbytes
  rfl

/-! ### The invariant -/

/-- A stream of the hub to which some agent relays. -/
def MappedStream (agents : ℕ → RelayAgent) (streamId : String) : Prop :=
  ∃ i localStreamId, streamId = (agents i).hubStream localStreamId

/-- The payload is the same after the passage through Python. -/
def PayloadSurvives (d : Deps) (py : PythonJson) (payload : Bytes) : Prop :=
  ∀ v v', d.fromSlice payload = .ok v →
    (payloadToPy d py payload).bind py.pyToJson = some v' → v' = v

/-- The event carries the id derived from its own fields, and its payload survives. -/
structure Relayable (d : Deps) (py : PythonJson) (event : StoredEvent) : Prop where
  certified : ∃ payload, d.fromSlice event.payload = .ok payload ∧
    deriveEventId d event.eventType event.typeVersion event.causationId payload = .ok event.id
  survives : PayloadSurvives d py event.payload

/-- The agents are given events of self-certifying local stores, and nobody else writes
external ids to the mapped streams. -/
def OnlyRelays (d : Deps) (py : PythonJson) (agents : ℕ → RelayAgent) (s : Relays) :
    RelayAction → Prop
  | .deliver i event => (∀ r ∈ (s.locals i).events, Certified d r) ∧
    (∃ r ∈ (s.locals i).events, event = rowToEvent r) ∧ PayloadSurvives d py event.payload
  | .onHub op => ∀ r ∈ (exec d s.hub op).events, r ∈ s.hub.events ∨
    ¬ MappedStream agents r.streamId ∨ r.externalId = none
  | _ => True

/-- Every external id on a mapped stream names the id of its row. -/
def Relayed (agents : ℕ → RelayAgent) (hub : Db) : Prop :=
  ∀ r ∈ hub.events, MappedStream agents r.streamId →
    ∀ x : EventId, r.externalId = some x.toHex → r.id = x

/-- A call under way is for an event of its store that passes the filter, and once
translated its causation id is that of the event. -/
def Relaying.Faithful (d : Deps) (py : PythonJson) (agent : RelayAgent) : Relaying → Prop
  | .idle => True
  | .checked event => agent.shouldRelay event = true ∧ Relayable d py event
  | .located event causationId _ => agent.shouldRelay event = true ∧ Relayable d py event ∧
    event.causationId = some causationId
  | .translated event causationId => agent.shouldRelay event = true ∧ Relayable d py event ∧
    causationId = event.causationId

structure RelayFaithful (d : Deps) (py : PythonJson) (agents : ℕ → RelayAgent) (s : Relays) :
    Prop where
  relayed : Relayed agents s.hub
  faithful : ∀ i, (s.relaying i).Faithful d py (agents i)

variable {d : Deps} {py : PythonJson} {agents : ℕ → RelayAgent} {fuel : ℕ} {s s' : Relays}
  {a : RelayAction} {i : ℕ} {event : StoredEvent} {agent : RelayAgent} {hub hub' : Db}

/-- Without transforms the id is derived from the value that was given. -/
theorem prepared_of_no_transforms (hmsgpack : d.MsgpackRoundTrips) {streamId eventType : String}
    {payload : Json} {p : Prepared d}
    (h : preparePayload d [] streamId eventType payload = .ok p) : p.payload = payload := by
  obtain ⟨bytes, hbytes, hp⟩ := bind_eq_ok.mp h
  obtain ⟨final, hfinal, hp⟩ := bind_eq_ok.mp hp
  obtain rfl := Except.ok.inj hfinal
  have hdecoded := hmsgpack _ _ (mapError_eq_ok.mp hbytes)
  split at hp
  · rename_i hvalue
    obtain rfl := Except.ok.inj hp
    exact Except.ok.inj (hvalue.symm.trans hdecoded)
  · exact absurd hp (by simp)

/-- **The derived id is the local one** when the causation id is. -/
theorem relayedId_eq (hmsgpack : d.MsgpackRoundTrips) (htransforms : agent.hubTransforms = [])
    (hevent : Relayable d py event) {id : EventId}
    (h : relayedId d py agent event event.causationId = some id) : id = event.id := by
  obtain ⟨a, p, hrequest, hprepare, -, hid⟩ := relayedId_eq_some.mp h
  obtain ⟨payload, tags, rfl, hpayload⟩ := relayRequest_eq hrequest
  obtain ⟨v, hv, hderived⟩ := hevent.certified
  rw [htransforms] at hprepare
  have hsame : p.payload = v :=
    (prepared_of_no_transforms hmsgpack hprepare).trans (hevent.survives v payload hv hpayload)
  rw [deriveId, mapError_eq_ok, hsame] at hid
  exact Except.ok.inj (hid.symm.trans hderived)

theorem mappedStream_hubStream {localStreamId : String} :
    MappedStream agents ((agents i).hubStream localStreamId) := ⟨i, localStreamId, rfl⟩

/-- What an agent finds under the hex of an id has that id. -/
theorem Relayed.id_eq (h : Relayed agents hub) {registry : UpcasterRegistry}
    {localStreamId : String} {x : EventId} {e : StoredEvent}
    (hread : readByExternalId registry fuel hub ((agents i).hubStream localStreamId) x.toHex
      = some (.ok (some e))) : e.id = x := by
  obtain ⟨r, hr, hstream, hexternal, hid⟩ := readByExternalId_some hread
  rw [← hid]
  exact h r hr (hstream ▸ mappedStream_hubStream) x hexternal

/-- A relayed row has the id that its external id names. -/
theorem Relayed.relayAppend (h : Relayed agents hub) (hmsgpack : d.MsgpackRoundTrips)
    (htransforms : agent.hubTransforms = []) (hevent : Relayable d py event) {now : Int64}
    (happend : relayAppend d py agent event event.causationId now hub = some hub') :
    Relayed agents hub' ∧
      ∀ x, (∃ r ∈ hub'.events, r.id = x) ↔ (∃ r ∈ hub.events, r.id = x) ∨ event.id = x := by
  obtain ⟨id, hid, -, -, ⟨row, hrow, -, rfl⟩ | ⟨⟨r, hr, hr'⟩, rfl⟩⟩ := relayAppend_spec happend
  · obtain rfl := relayedId_eq hmsgpack htransforms hevent hid
    refine ⟨fun r hr hmapped x hexternal => ?_, fun x => ?_⟩
    · rcases List.mem_append.mp hr with hr | hr
      · exact h r hr hmapped x hexternal
      · obtain rfl := List.mem_singleton.mp hr
        rw [hrow.id_eq]
        exact toHex_injective (Option.some_inj.mp (hrow.externalId.symm.trans hexternal))
    · simp only [Db.insert, List.mem_append, List.mem_singleton, or_and_right, exists_or,
        exists_eq_left, hrow.id_eq]
  · obtain rfl := relayedId_eq hmsgpack htransforms hevent hid
    refine ⟨h, fun x => ⟨.inl, ?_⟩⟩
    rintro (hx | rfl)
    · exact hx
    · exact ⟨r, hr, hr'⟩

/-! ### Steps -/

theorem faithful_go {relaying : Relaying} (h : ∀ j, (s.relaying j).Faithful d py (agents j))
    (hi : relaying.Faithful d py (agents i)) :
    ∀ j, ((s.go i relaying).relaying j).Faithful d py (agents j) := by
  intro j
  rw [Relays.go]
  by_cases hj : j = i
  · subst hj
    show (update s.relaying j relaying j).Faithful d py (agents j)
    rwa [update_self]
  · show (update s.relaying i relaying j).Faithful d py (agents j)
    rw [update_of_ne hj]
    exact h j

theorem relayFaithful_step (hmsgpack : d.MsgpackRoundTrips)
    (htransforms : ∀ i, (agents i).hubTransforms = []) (h : RelayFaithful d py agents s)
    (ha : OnlyRelays d py agents s a) (hstep : relayStep d py agents fuel s a = some s') :
    RelayFaithful d py agents s' := by
  cases relayTaken_of_step hstep with
  | filtered | present | raised => exact ⟨h.relayed, faithful_go h.faithful trivial⟩
  | unreadable => exact h
  | checked _ hfilter =>
    obtain ⟨hlocal, ⟨r, hr, rfl⟩, hsurvives⟩ := ha
    exact ⟨h.relayed, faithful_go h.faithful ⟨hfilter, hlocal r hr, hsurvives⟩⟩
  | @root i event hi hcause =>
    have hcall := h.faithful i
    rw [hi] at hcall
    exact ⟨h.relayed, faithful_go h.faithful ⟨hcall.1, hcall.2, hcause.symm⟩⟩
  | @notLocal i event causationId hi hcause =>
    have hcall := h.faithful i
    rw [hi] at hcall
    exact ⟨h.relayed, faithful_go h.faithful ⟨hcall.1, hcall.2, hcause.symm⟩⟩
  | @located i event cause causationId hi hcause =>
    have hcall := h.faithful i
    rw [hi] at hcall
    exact ⟨h.relayed, faithful_go h.faithful ⟨hcall.1, hcall.2, hcause⟩⟩
  | @notOnHub i event cause causationId hi =>
    have hcall := h.faithful i
    rw [hi] at hcall
    exact ⟨h.relayed, faithful_go h.faithful ⟨hcall.1, hcall.2.1, hcall.2.2.symm⟩⟩
  | @translated i event cause hubCause causationId hi hread =>
    have hcall := h.faithful i
    rw [hi] at hcall
    -- the row found on the hub has the id that was looked for
    rw [h.relayed.id_eq hread]
    exact ⟨h.relayed, faithful_go h.faithful ⟨hcall.1, hcall.2.1, hcall.2.2.symm⟩⟩
  | @appended i now event causationId hub hi happend =>
    have hcall := h.faithful i
    rw [hi] at hcall
    obtain ⟨-, hevent, rfl⟩ := hcall
    exact ⟨(h.relayed.relayAppend hmsgpack (htransforms i) hevent happend).1,
      faithful_go h.faithful trivial⟩
  | onHub hop =>
    refine ⟨fun r hr hmapped x hexternal => ?_, h.faithful⟩
    rcases ha r hr with hold | hunmapped | hnone
    · exact h.relayed r hold hmapped x hexternal
    · exact absurd hmapped hunmapped
    · exact absurd (hnone.symm.trans hexternal) (by simp)
  | onLocal => exact ⟨h.relayed, h.faithful⟩

theorem relayFaithful_run (hmsgpack : d.MsgpackRoundTrips)
    (htransforms : ∀ i, (agents i).hubTransforms = []) {as : List RelayAction}
    (h : RelayFaithful d py agents s)
    (halong : Along (relayStep d py agents fuel) (OnlyRelays d py agents) s as)
    (hrun : run (relayStep d py agents fuel) s as = some s') : RelayFaithful d py agents s' :=
  run_invariant (fun _ _ _ => relayFaithful_step hmsgpack htransforms) h halong hrun

/-- At first no row of a mapped stream has an external id, and no call is under way. -/
theorem relayFaithful_init {locals : ℕ → Db}
    (hwritten : ∀ r ∈ hub.events, MappedStream agents r.streamId → r.externalId = none) :
    RelayFaithful d py agents (.init hub locals) where
  relayed r hr hmapped x hexternal :=
    absurd ((hwritten r hr hmapped).symm.trans hexternal) (by simp)
  faithful _ := trivial

/-! ### The ids on the hub -/

/-- The ids of the calls that passed the filter. -/
def relayedIds (agents : ℕ → RelayAgent) (returned : List (ℕ × StoredEvent × Bool)) :
    List EventId :=
  (returned.filter fun c => (agents c.1).shouldRelay c.2.1).map fun c => c.2.1.id

/-- From `s` on, the hub has gained the ids of the events relayed since. -/
def Unites (agents : ℕ → RelayAgent) (s t : Relays) : Prop :=
  ∃ calls, t.returned = s.returned ++ calls ∧ ∀ x, (∃ r ∈ t.hub.events, r.id = x) ↔
    (∃ r ∈ s.hub.events, r.id = x) ∨ x ∈ relayedIds agents calls

theorem relayedIds_append {calls calls' : List (ℕ × StoredEvent × Bool)} :
    relayedIds agents (calls ++ calls') =
      relayedIds agents calls ++ relayedIds agents calls' := by
  rw [relayedIds, List.filter_append, List.map_append]
  rfl

/-- A call that returns after the filter has its id on the hub, and is the only one to
have added anything. -/
theorem unites_return {t t' : Relays} {result : Bool} (h : Unites agents s t)
    (hreturned : t'.returned = t.returned ++ [(i, event, result)])
    (hids : ∀ x, (∃ r ∈ t'.hub.events, r.id = x) ↔
      (∃ r ∈ t.hub.events, r.id = x) ∨ x ∈ relayedIds agents [(i, event, result)]) :
    Unites agents s t' := by
  obtain ⟨calls, hcalls, hsame⟩ := h
  refine ⟨calls ++ [(i, event, result)], ?_, fun x => ?_⟩
  · rw [hreturned, hcalls, List.append_assoc]
  · rw [hids x, hsame x, relayedIds_append, List.mem_append, or_assoc]

theorem unites_step (hmsgpack : d.MsgpackRoundTrips)
    (htransforms : ∀ i, (agents i).hubTransforms = []) {t t' : Relays}
    (hfaithful : RelayFaithful d py agents t) (h : Unites agents s t)
    (ha : ∀ op, a ≠ .onHub op) (hstep : relayStep d py agents fuel t a = some t') :
    Unites agents s t' := by
  cases relayTaken_of_step hstep with
  | unreadable | checked | root | notLocal | located | notOnHub | translated | raised
  | onLocal => exact h
  | filtered _ hfilter =>
    refine unites_return h rfl fun x => ?_
    simp [relayedIds, hfilter, Relays.returns, Relays.go]
  | @present i event hubEvent _ hfilter hread =>
    refine unites_return h rfl fun x => ?_
    -- what the check found is the event itself
    obtain ⟨r, hr, -, -, hid⟩ := readByExternalId_some hread
    have hid := hid.trans (hfaithful.relayed.id_eq hread)
    simp only [relayedIds, hfilter, List.filter_cons_of_pos, List.filter_nil, List.map_cons,
      List.map_nil, List.mem_singleton]
    refine ⟨.inl, ?_⟩
    rintro (hx | rfl)
    · exact hx
    · exact ⟨r, hr, hid⟩
  | @appended i now event causationId hub hi happend =>
    have hcall := hfaithful.faithful i
    rw [hi] at hcall
    obtain ⟨hfilter, hevent, rfl⟩ := hcall
    refine unites_return h rfl fun x => ?_
    have hids := (hfaithful.relayed.relayAppend hmsgpack (htransforms i) hevent happend).2 x
    simp only [relayedIds, hfilter, List.filter_cons_of_pos, List.filter_nil, List.map_cons,
      List.map_nil, List.mem_singleton]
    rw [eq_comm (a := x)]
    exact hids
  | onHub => exact absurd rfl (ha _)

/-- **Relaying preserves identity, in any order.**  Agents relay events of self-certifying
local stores, any of them any number of times, to a hub whose external ids on the mapped
streams come from relays.  Every append carries the causation id of the local event and
is for its id, and the rows it adds have both; and over any stretch in which only relays
write to the hub, its ids become those it had and those of the events relayed. -/
theorem relaying_preserves_identity (d : Deps) (hmsgpack : d.MsgpackRoundTrips) (py : PythonJson)
    (agents : ℕ → RelayAgent) (htransforms : ∀ i, (agents i).hubTransforms = []) (fuel : ℕ)
    (hub : Db) (locals : ℕ → Db) (as bs : List RelayAction) (s t : Relays)
    (hwritten : ∀ r ∈ hub.events, MappedStream agents r.streamId → r.externalId = none)
    (halong : Along (relayStep d py agents fuel) (OnlyRelays d py agents) (.init hub locals)
      (as ++ bs))
    (hrelays : ∀ op, .onHub op ∉ bs)
    (hrun : run (relayStep d py agents fuel) (.init hub locals) as = some s)
    (hrest : run (relayStep d py agents fuel) s bs = some t) :
    (∀ cs ds u i now event causationId, bs = cs ++ .append i now :: ds →
      run (relayStep d py agents fuel) s cs = some u →
        u.relaying i = .translated event causationId →
          causationId = event.causationId ∧
          (∀ id, relayedId d py (agents i) event causationId = some id → id = event.id) ∧
          ∀ hub', relayAppend d py (agents i) event causationId now u.hub = some hub' →
            ∀ r ∈ hub'.events, r ∈ u.hub.events ∨
              r.id = event.id ∧ r.causationId = event.causationId) ∧
    ∃ calls, t.returned = s.returned ++ calls ∧
      ∀ x, (∃ r ∈ t.hub.events, r.id = x) ↔ (∃ r ∈ s.hub.events, r.id = x) ∨
        ∃ i event result, (i, event, result) ∈ calls ∧ (agents i).shouldRelay event = true ∧
          event.id = x := by
  have hs : RelayFaithful d py agents s :=
    relayFaithful_run hmsgpack htransforms (relayFaithful_init hwritten) halong.left hrun
  have halong' := halong.right hrun
  constructor
  · rintro cs ds u i now event causationId rfl hcs hi
    have hu := relayFaithful_run hmsgpack htransforms hs halong'.left hcs
    have hcall := hu.faithful i
    rw [hi] at hcall
    obtain ⟨-, hevent, rfl⟩ := hcall
    refine ⟨rfl, fun id hid => relayedId_eq hmsgpack (htransforms i) hevent hid, ?_⟩
    intro hub' happend r hr
    obtain ⟨id, hid, -, -, ⟨row, hrow, -, rfl⟩ | ⟨-, rfl⟩⟩ := relayAppend_spec happend
    · obtain rfl := relayedId_eq hmsgpack (htransforms i) hevent hid
      rcases List.mem_append.mp hr with hr | hr
      · exact .inl hr
      · obtain rfl := List.mem_singleton.mp hr
        exact .inr ⟨hrow.id_eq, hrow.causationId⟩
    · exact .inl hr
  · have hunites := run_invariant
      (I := fun t => RelayFaithful d py agents t ∧ Unites agents s t)
      (P := fun t a => OnlyRelays d py agents t a ∧ ∀ op, a ≠ .onHub op)
      (fun t a t' ht ha hstep =>
        ⟨relayFaithful_step hmsgpack htransforms ht.1 ha.1 hstep,
          unites_step hmsgpack htransforms ht.1 ht.2 ha.2 hstep⟩)
      ⟨hs, [], (List.append_nil _).symm, fun x => by simp [relayedIds]⟩
      (halong'.and (along_of_forall fun a ha op heq => hrelays op (heq ▸ ha))) hrest
    obtain ⟨-, calls, hcalls, hids⟩ := hunites
    refine ⟨calls, hcalls, fun x => ?_⟩
    rw [hids x]
    simp only [relayedIds, List.mem_map, List.mem_filter, Prod.exists, and_assoc]

/-- A local store with an event on `s` and a second one caused by it. -/
def chainStore : Db :=
  exec plainDeps projectStore (.write []
    (.append { streamId := "s", eventType := "b", payload := .null,
               causationId := some projectEvent.id }) fun _ => 0)

def effectEvent : StoredEvent :=
  match chainStore.events with
  | _ :: r :: _ => rowToEvent r
  | _ => projectEvent

/-- The effect is relayed before its cause, and then once more. -/
def relayChain : List RelayAction :=
  [.deliver 0 effectEvent, .locate 0, .lookup 0, .append 0 0] ++ relayAll 0 projectEvent ++
    [.deliver 0 effectEvent]

theorem relaying_preserves_identity_chain : ∃ t : Relays, t.hub.events.length = 2 ∧
    ∃ calls, t.returned = calls ∧ ∀ x, (∃ r ∈ t.hub.events, r.id = x) ↔
      ∃ i event result, (i, event, result) ∈ calls ∧
        (projectAgent i).shouldRelay event = true ∧ event.id = x := by
  have hlocal : ∀ r ∈ chainStore.events, Certified plainDeps r :=
    (exec_storeInv plainDeps_msgpackRoundTrips _ (exec_storeInv plainDeps_msgpackRoundTrips _
      (exec_storeInv plainDeps_msgpackRoundTrips _ (bootstrap_storeInv 0)))).1.certified
  have hpayload : ∀ payload, PayloadSurvives plainDeps plainPy payload := by
    intro payload v v' hv hv'
    rw [payloadToPy, hv] at hv'
    exact (Option.some_inj.mp hv').symm
  have hcause : ∃ r ∈ chainStore.events, projectEvent = rowToEvent r := ⟨_, .head _, rfl⟩
  have heffect : ∃ r ∈ chainStore.events, effectEvent = rowToEvent r :=
    ⟨_, .tail _ (.head _), rfl⟩
  have hruns : ∃ t, run (relayStep plainDeps plainPy projectAgent 1)
      (.init projectHub fun _ => chainStore) relayChain = some t ∧ t.hub.events.length = 2 :=
    ⟨_, rfl, rfl⟩
  obtain ⟨t, hrun, hlength⟩ := hruns
  have hkept := relaying_preserves_identity plainDeps plainDeps_msgpackRoundTrips plainPy
    projectAgent (fun _ => rfl) 1 projectHub (fun _ => chainStore) [] relayChain _ t
    (fun r hr => absurd hr List.not_mem_nil) ?_ (by simp [relayChain, relayAll]) rfl hrun
  · obtain ⟨-, calls, hcalls, hids⟩ := hkept
    refine ⟨t, hlength, calls, hcalls, fun x => ?_⟩
    have hempty : projectHub.events = [] := rfl
    rw [hids x]
    simp [Relays.init, hempty]
  · refine along_cons ⟨hlocal, heffect, hpayload _⟩ rfl (along_cons trivial rfl ?_)
    refine along_cons trivial rfl (along_cons trivial rfl ?_)
    refine along_cons ⟨hlocal, hcause, hpayload _⟩ rfl (along_cons trivial rfl ?_)
    refine along_cons trivial rfl ?_
    exact along_cons ⟨hlocal, heffect, hpayload _⟩ rfl trivial

end Fossic
