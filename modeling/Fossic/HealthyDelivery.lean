/-
Delivery to a subscription whose queue never fills and whose handler stays alive.

For such a subscription the registry is a consumer behind a high-water mark: for
each stream and branch that it covers, the versions put in its queue are those that
`HighWater.accept` takes from the versions offered, starting at the seeded cursor,
and its cursor is `HighWater.mark` (`Flowing`, `flowing_run`).  Health is never
regained (`healthyAt_of_step`), so a subscription that is healthy at the end of a run
was healthy all along.
-/
import Fossic.Delivery
import Fossic.HighWater

namespace Fossic

open BoundedChannel KeyedList Transition HighWater

/-! ### Health -/

/-- A PostCommit entry that is not degraded and whose handler thread has not ended. -/
def SubscriberEntry.Healthy (entry : SubscriberEntry) : Prop :=
  entry.degraded = false ∧ ∃ tx walCursor streamCursors,
    entry.kind = .postCommit tx walCursor streamCursors ∧ tx.receiver ≠ .gone

def DeliveryState.HealthyAt (s : DeliveryState) (id : ℕ) : Prop :=
  ∃ entry, s.registry.get id = some entry ∧ entry.Healthy

theorem SubscriberEntry.Healthy.kind_ne {entry : SubscriberEntry} (h : entry.Healthy) :
    entry.kind ≠ .synchronous := by
  obtain ⟨-, tx, walCursor, streamCursors, hkind, -⟩ := h
  rw [hkind]
  exact SubscriberKind.noConfusion

variable {s s' : DeliveryState} {id : ℕ} {op : DeliveryOp} {entry entry₀ : SubscriberEntry}
  {event : StoredEvent} {streamId branch : String}

theorem healthy_of_dispatch (h : (entry.dispatch event).1.Healthy) : entry.Healthy := by
  obtain ⟨hd, -⟩ | ⟨tx, w, sc, hkind, hwants, -, ⟨-, hd⟩ | ⟨-, hd⟩ | ⟨-, hd⟩⟩ :=
    entry.dispatch_cases event
  · rwa [hd] at h
  · rw [hd] at h
    refine ⟨h.1, tx, w, sc, hkind, fun hgone => ?_⟩
    obtain ⟨-, tx', w', sc', hkind', hreceiver⟩ := h
    obtain ⟨rfl, -, -⟩ := SubscriberKind.postCommit.inj hkind'
    exact hreceiver (trySend_gone hgone)
  · rw [hd] at h
    exact absurd h.1 (by simp)
  · rwa [hd] at h

/-- A queue takes events while the entry is healthy. -/
theorem healthy_of_delivered (h : (entry.dispatch event).2 = .delivered) :
    (entry.dispatch event).1.Healthy := by
  obtain ⟨hd, -⟩ | ⟨tx, w, sc, hkind, hwants, -, ⟨hr, hd⟩ | ⟨-, hd⟩ | ⟨-, hd⟩⟩ :=
    entry.dispatch_cases event
  · rw [hd] at h
    exact absurd h (by simp)
  · rw [hd]
    refine ⟨SubscriberEntry.not_degraded_of_wants hwants, _, w, sc, rfl, trySend_receiver ?_⟩
    intro hgone
    exact absurd (hr.symm.trans (trySend_disconnected_iff.mpr hgone)) (by simp)
  · rw [hd] at h
    exact absurd h (by simp)
  · rw [hd] at h
    exact absurd h (by simp)

theorem healthy_of_advance {v : ℤ} (h : (entry.advance streamId branch v).Healthy) :
    entry.Healthy := by
  rcases hkind : entry.kind with _ | ⟨tx, w, sc⟩
  · rw [SubscriberEntry.advance, hkind] at h
    exact h
  · rw [SubscriberEntry.advance, hkind] at h
    by_cases hglob : isGlob entry.streamPattern = true
    · simp only [hglob, if_true] at h
      obtain ⟨hdegraded, tx', w', sc', hkind', hreceiver⟩ := h
      obtain ⟨rfl, -, -⟩ := SubscriberKind.postCommit.inj hkind'
      exact ⟨hdegraded, tx, w, sc, hkind, hreceiver⟩
    · simp only [hglob] at h
      obtain ⟨hdegraded, tx', w', sc', hkind', hreceiver⟩ := h
      obtain ⟨rfl, -, -⟩ := SubscriberKind.postCommit.inj hkind'
      exact ⟨hdegraded, tx, w, sc, hkind, hreceiver⟩

/-- How one step changes the entry of a subscription registered before it. -/
inductive EntryStep (s : DeliveryState) (id : ℕ) (entry : SubscriberEntry) :
    DeliveryOp → SubscriberEntry → Prop
  | same (op : DeliveryOp) : EntryStep s id entry op entry
  | received (step : ReceiverStep) (tx tx' : Channel StoredEvent) (walCursor : ℤ)
      (streamCursors : StreamCursors) (hkind : entry.kind = .postCommit tx walCursor streamCursors)
      (htx : tx.receiverStep step = some tx') :
      EntryStep s id entry (.receiver id step)
        { entry with kind := .postCommit tx' walCursor streamCursors }
  | panicked (event : StoredEvent) (panics : ℕ → Bool) :
      EntryStep s id entry (.dispatchSync event panics) { entry with degraded := true }
  | offered (event : StoredEvent) : EntryStep s id entry (.firstPass event) (entry.dispatch event).1
  | advanced (a : Advancing) (hadv : s.advancing = some a) (hmem : id ∈ a.delivered) :
      EntryStep s id entry .secondPass
        (entry.advance a.event.streamId a.event.branch (u64AsI64 a.event.version))

theorem entryStep_of_step {entry' : SubscriberEntry} (hid : id ≠ s.registry.nextId)
    (hstep : deliveryStep s op = some s') (hget' : s'.registry.get id = some entry') :
    ∃ entry, s.registry.get id = some entry ∧ EntryStep s id entry op entry' := by
  cases op with
  | subscribe q mode c sc =>
    obtain rfl := Option.some_inj.mp hstep
    rw [Registry.get_subscribe, if_neg (Ne.symm hid)] at hget'
    exact ⟨entry', hget', .same _⟩
  | unsubscribe j =>
    obtain rfl := Option.some_inj.mp hstep
    rw [Registry.get_unsubscribe] at hget'
    split at hget'
    · exact absurd hget' (by simp)
    · exact ⟨entry', hget', .same _⟩
  | receiver j step =>
    obtain ⟨reg', hreg, rfl⟩ := receiver_eq_some.mp hstep
    obtain ⟨entry, tx, w, sc, hentry, hkind, tx', htx, rfl⟩ := receiverStep_cases hreg
    rw [Registry.get_mapEntries, Option.map_eq_some_iff] at hget'
    obtain ⟨old, hold, rfl⟩ := hget'
    refine ⟨old, hold, ?_⟩
    by_cases hj : id = j
    · subst hj
      obtain rfl := Option.some_inj.mp (hold.symm.trans hentry)
      rw [if_pos rfl]
      exact .received step tx tx' w sc hkind htx
    · rw [if_neg hj]
      exact .same _
  | dispatchSync event panics =>
    obtain rfl := Option.some_inj.mp hstep
    rw [Registry.dispatchSync, Registry.get_mapEntries, Option.map_eq_some_iff] at hget'
    obtain ⟨old, hold, rfl⟩ := hget'
    refine ⟨old, hold, ?_⟩
    split
    · exact .panicked event panics
    · exact .same _
  | firstPass event =>
    obtain ⟨-, rfl⟩ := firstPass_eq_some.mp hstep
    rw [Registry.firstPass, Registry.get_mapEntries, Option.map_eq_some_iff] at hget'
    obtain ⟨old, hold, rfl⟩ := hget'
    exact ⟨old, hold, .offered event⟩
  | secondPass =>
    obtain ⟨a, hadv, rfl⟩ := secondPass_eq_some.mp hstep
    rw [Registry.secondPass, Registry.get_mapEntries, Option.map_eq_some_iff] at hget'
    obtain ⟨old, hold, rfl⟩ := hget'
    refine ⟨old, hold, ?_⟩
    split
    · exact .advanced a hadv ‹_›
    · exact .same _

theorem healthy_of_entryStep {entry' : SubscriberEntry} (h : EntryStep s id entry op entry')
    (hhealthy : entry'.Healthy) : entry.Healthy := by
  cases h with
  | same => exact hhealthy
  | received step tx tx' w sc hkind htx =>
    refine ⟨hhealthy.1, tx, w, sc, hkind, fun hgone => ?_⟩
    rw [receiverStep_gone hgone] at htx
    exact absurd htx (by simp)
  | panicked => exact absurd hhealthy.1 (by simp)
  | offered event => exact healthy_of_dispatch hhealthy
  | advanced => exact healthy_of_advance hhealthy

/-- Health is never regained. -/
theorem healthyAt_of_step (hid : id ≠ s.registry.nextId) (hstep : deliveryStep s op = some s')
    (h : s'.HealthyAt id) : s.HealthyAt id := by
  obtain ⟨entry', hget', hhealthy⟩ := h
  obtain ⟨entry, hget, hentry⟩ := entryStep_of_step hid hstep hget'
  exact ⟨entry, hget, healthy_of_entryStep hentry hhealthy⟩

/-! ### The handler thread -/

/-- A PostCommit entry whose handler thread has not ended. -/
def SubscriberEntry.Running (entry : SubscriberEntry) : Prop :=
  ∃ tx walCursor streamCursors,
    entry.kind = .postCommit tx walCursor streamCursors ∧ tx.receiver ≠ .gone

def DeliveryState.RunningAt (s : DeliveryState) (id : ℕ) : Prop :=
  ∀ entry, s.registry.get id = some entry → entry.Running

theorem running_of_entryStep {entry' : SubscriberEntry} (h : EntryStep s id entry op entry')
    (hop : op ≠ .receiver id .stop) (hrunning : entry.Running) : entry'.Running := by
  obtain ⟨tx, w, sc, hkind, hreceiver⟩ := hrunning
  cases h with
  | same | panicked => exact ⟨tx, w, sc, hkind, hreceiver⟩
  | received step _ tx' _ _ _ htx =>
    exact ⟨tx', _, _, rfl, receiverStep_receiver (fun hstop => hop (hstop ▸ rfl)) htx⟩
  | offered event =>
    obtain ⟨hd, -⟩ | ⟨tx', w', sc', hkind', -, -, ⟨-, hd⟩ | ⟨-, hd⟩ | ⟨-, hd⟩⟩ :=
      entry.dispatch_cases event
    · exact hd ▸ ⟨tx, w, sc, hkind, hreceiver⟩
    · obtain ⟨rfl, rfl, rfl⟩ := SubscriberKind.postCommit.inj (hkind.symm.trans hkind')
      rw [hd]
      exact ⟨_, _, _, rfl, trySend_receiver hreceiver⟩
    · exact hd ▸ ⟨tx, w, sc, hkind, hreceiver⟩
    · exact hd ▸ ⟨tx, w, sc, hkind, hreceiver⟩
  | advanced a =>
    rw [SubscriberEntry.advance, hkind]
    by_cases hglob : isGlob entry.streamPattern = true
    · simp only [hglob, if_true]
      exact ⟨tx, _, _, rfl, hreceiver⟩
    · simp only [hglob]
      exact ⟨tx, _, _, rfl, hreceiver⟩

/-- A handler thread ends by a step of its own only. -/
theorem runningAt_of_step (hid : id ≠ s.registry.nextId) (hop : op ≠ .receiver id .stop)
    (hstep : deliveryStep s op = some s') (h : s.RunningAt id) : s'.RunningAt id := by
  intro entry' hget'
  obtain ⟨entry, hget, hentry⟩ := entryStep_of_step hid hstep hget'
  exact running_of_entryStep hentry hop (h entry hget)

/-! ### Configuration -/

/-- What a subscription asks for never changes. -/
def SubscriberEntry.SameConfig (entry entry₀ : SubscriberEntry) : Prop :=
  entry.streamPattern = entry₀.streamPattern ∧ entry.branch = entry₀.branch ∧
    entry.includeSystem = entry₀.includeSystem

theorem covers_of_sameConfig (h : entry.SameConfig entry₀) :
    entry.covers streamId branch = entry₀.covers streamId branch := by
  rw [SubscriberEntry.covers, SubscriberEntry.covers, h.1, h.2.1, h.2.2]

theorem sameConfig_dispatch : (entry.dispatch event).1.SameConfig entry := by
  obtain ⟨hd, -⟩ | ⟨_, _, _, -, -, -, ⟨-, hd⟩ | ⟨-, hd⟩ | ⟨-, hd⟩⟩ := entry.dispatch_cases event <;>
    rw [hd] <;> exact ⟨rfl, rfl, rfl⟩

theorem sameConfig_advance {v : ℤ} : (entry.advance streamId branch v).SameConfig entry := by
  rw [SubscriberEntry.advance]
  split
  · exact ⟨rfl, rfl, rfl⟩
  · split <;> exact ⟨rfl, rfl, rfl⟩

theorem sameConfig_of_entryStep {entry' : SubscriberEntry} (h : EntryStep s id entry op entry') :
    entry'.SameConfig entry := by
  cases h with
  | same => exact ⟨rfl, rfl, rfl⟩
  | received => exact ⟨rfl, rfl, rfl⟩
  | panicked => exact ⟨rfl, rfl, rfl⟩
  | offered => exact sameConfig_dispatch
  | advanced => exact sameConfig_advance

/-! ### The high-water mark -/

/-- The versions, as the cursors count them, of the events of a stream and branch. -/
def keyVersions (streamId branch : String) (events : List StoredEvent) : List ℤ :=
  (events.filter fun e => e.streamId = streamId && e.branch = branch).map fun e =>
    u64AsI64 e.version

theorem keyVersions_append {events events' : List StoredEvent} :
    keyVersions streamId branch (events ++ events') =
      keyVersions streamId branch events ++ keyVersions streamId branch events' := by
  rw [keyVersions, List.filter_append, List.map_append]
  rfl

theorem keyVersions_singleton : keyVersions streamId branch [event] =
    if event.streamId = streamId ∧ event.branch = branch then [u64AsI64 event.version] else [] := by
  by_cases h : event.streamId = streamId ∧ event.branch = branch
  · rw [if_pos h]
    simp [keyVersions, h.1, h.2]
  · rw [if_neg h, keyVersions, List.filter_cons_of_neg (by simpa using h)]
    rfl

theorem mem_keyVersions {events : List StoredEvent} {v : ℤ} :
    v ∈ keyVersions streamId branch events ↔
      ∃ e ∈ events, e.streamId = streamId ∧ e.branch = branch ∧ u64AsI64 e.version = v := by
  simp [keyVersions, and_assoc]

theorem keyVersions_subset {events events' : List StoredEvent} (h : events ⊆ events') :
    keyVersions streamId branch events ⊆ keyVersions streamId branch events' := by
  intro v hv
  obtain ⟨e, he, hkey⟩ := mem_keyVersions.mp hv
  exact mem_keyVersions.mpr ⟨e, h he, hkey⟩

/-- The events offered to a subscription, whatever became of them. -/
def offered (s : DeliveryState) (id : ℕ) : List StoredEvent :=
  (offersTo s.offers id).map Prod.fst

/-- The versions put in its queue. -/
def queued (s : DeliveryState) (id : ℕ) (streamId branch : String) : List ℤ :=
  (acceptedVersions (offersTo s.offers id) streamId branch).map u64AsI64

/-- The cursor once the second pass, if one is due, has run. -/
def nextCursor (s : DeliveryState) (id : ℕ) (entry : SubscriberEntry) (streamId branch : String) :
    ℤ :=
  match s.advancing with
  | none => entry.cursor streamId branch
  | some a =>
    if id ∈ a.delivered ∧ a.event.streamId = streamId ∧ a.event.branch = branch then
      max (entry.cursor streamId branch) (u64AsI64 a.event.version)
    else entry.cursor streamId branch

theorem nextCursor_of_idle (hadv : s.advancing = none) :
    nextCursor s id entry streamId branch = entry.cursor streamId branch := by
  rw [nextCursor, hadv]

theorem nextCursor_of_advancing {a : Advancing} (hadv : s.advancing = some a) :
    nextCursor s id entry streamId branch =
      if id ∈ a.delivered ∧ a.event.streamId = streamId ∧ a.event.branch = branch then
        max (entry.cursor streamId branch) (u64AsI64 a.event.version)
      else entry.cursor streamId branch := by
  rw [nextCursor, hadv]

/-- The subscription `id`, registered as `entry₀`, behaves as a consumer behind a
high-water mark on every stream and branch that it covers. -/
structure Flowing (s : DeliveryState) (id : ℕ) (entry₀ : SubscriberEntry) : Prop where
  known : id < s.registry.nextId
  config : ∀ entry, s.registry.get id = some entry → entry.SameConfig entry₀
  pending : ∀ a, s.advancing = some a → id ∈ a.delivered →
    entry₀.covers a.event.streamId a.event.branch = true
  accepts : s.HealthyAt id → ∀ streamId branch, entry₀.covers streamId branch = true →
    queued s id streamId branch =
      accept (entry₀.cursor streamId branch) (keyVersions streamId branch (offered s id))
  marks : ∀ entry, s.registry.get id = some entry → entry.Healthy → ∀ streamId branch,
    entry₀.covers streamId branch = true → nextCursor s id entry streamId branch =
      mark (entry₀.cursor streamId branch) (keyVersions streamId branch (offered s id))

/-! ### Steps keep the flow -/

theorem nextCursor_of_same {entry' : SubscriberEntry} (hadv : s'.advancing = s.advancing)
    (hcursor : entry'.cursor streamId branch = entry.cursor streamId branch) :
    nextCursor s' id entry' streamId branch = nextCursor s id entry streamId branch := by
  rw [nextCursor, nextCursor, hadv, hcursor]

/-- Steps that make no offer and move no cursor. -/
theorem flowing_of_same (h : Flowing s id entry₀) (hoffers : s'.offers = s.offers)
    (hadv : s'.advancing = s.advancing) (hknown : s.registry.nextId ≤ s'.registry.nextId)
    (hentry : ∀ entry', s'.registry.get id = some entry' → ∃ entry, s.registry.get id = some entry ∧
      entry'.SameConfig entry ∧ (entry'.Healthy → entry.Healthy) ∧
      ∀ streamId branch, entry'.cursor streamId branch = entry.cursor streamId branch) :
    Flowing s' id entry₀ where
  known := h.known.trans_le hknown
  config := by
    intro entry' hget'
    obtain ⟨entry, hget, hconfig, -⟩ := hentry entry' hget'
    obtain ⟨h1, h2, h3⟩ := h.config entry hget
    exact ⟨hconfig.1.trans h1, hconfig.2.1.trans h2, hconfig.2.2.trans h3⟩
  pending := by rw [hadv]; exact h.pending
  accepts := by
    rintro ⟨entry', hget', hhealthy⟩ streamId branch hcovers
    obtain ⟨entry, hget, -, hback, -⟩ := hentry entry' hget'
    rw [queued, offered, hoffers]
    exact h.accepts ⟨entry, hget, hback hhealthy⟩ streamId branch hcovers
  marks := by
    intro entry' hget' hhealthy streamId branch hcovers
    obtain ⟨entry, hget, -, hback, hcursor⟩ := hentry entry' hget'
    rw [nextCursor_of_same hadv (hcursor streamId branch), offered, hoffers]
    exact h.marks entry hget (hback hhealthy) streamId branch hcovers

/-- What an event does to a healthy subscription that covers it and stays healthy: it
goes into the queue exactly when it is above the cursor. -/
theorem dispatch_of_healthy (hhealthy : (entry.dispatch event).1.Healthy)
    (hcovers : entry.covers event.streamId event.branch = true) :
    (entry.dispatch event).2 =
      if entry.cursor event.streamId event.branch < u64AsI64 event.version then .delivered
      else .skipped := by
  have hbefore := healthy_of_dispatch hhealthy
  obtain ⟨hd, hskip⟩ | ⟨tx, w, sc, hkind, -, hlt, ⟨-, hd⟩ | ⟨-, hd⟩ | ⟨hr, hd⟩⟩ :=
    entry.dispatch_cases event
  · have hwants : entry.wants event = true := by
      rw [SubscriberEntry.wants, hcovers, hbefore.1]
      rfl
    rw [hd, if_neg (not_lt.mpr (hskip hbefore.kind_ne hwants))]
  · rw [hd, if_pos hlt]
  · rw [hd] at hhealthy
    exact absurd hhealthy.1 (by simp)
  · obtain ⟨-, tx', w', sc', hkind', hreceiver⟩ := hbefore
    obtain ⟨rfl, -, -⟩ := SubscriberKind.postCommit.inj (hkind.symm.trans hkind')
    exact absurd (trySend_disconnected_iff.mp hr) hreceiver

/-- The first pass is one event more for the high-water mark. -/
theorem accepts_firstPass (h : Flowing s id entry₀)
    (hstep : deliveryStep s (.firstPass event) = some s') (hget : s.registry.get id = some entry)
    (hhealthy : (entry.dispatch event).1.Healthy)
    (hcovers : entry₀.covers streamId branch = true) :
    queued s' id streamId branch = accept (entry₀.cursor streamId branch)
        (keyVersions streamId branch (offered s' id)) ∧
      nextCursor s' id (entry.dispatch event).1 streamId branch =
        mark (entry₀.cursor streamId branch) (keyVersions streamId branch (offered s' id)) := by
  obtain ⟨hadv, rfl⟩ := firstPass_eq_some.mp hstep
  have hbefore := healthy_of_dispatch hhealthy
  have hold := h.accepts ⟨entry, hget, hbefore⟩ streamId branch hcovers
  have hmark := h.marks entry hget hbefore streamId branch hcovers
  rw [nextCursor_of_idle hadv] at hmark
  have hdelivered : id ∈ idsWith .delivered (s.registry.outcomes event) ↔
      (entry.dispatch event).2 = .delivered := by
    rw [mem_idsWith, hget]
    constructor
    · rintro ⟨entry', hentry', ho⟩
      exact Option.some_inj.mp hentry' ▸ ho
    · exact fun ho => ⟨entry, rfl, ho⟩
  -- the subscriber's log gets one more offer, with the outcome of this dispatch
  have hoffers : offersTo (s.offers ++ (s.registry.outcomes event).map fun p => (p.1, event, p.2)) id
      = offersTo s.offers id ++ [(event, (entry.dispatch event).2)] := by
    rw [offersTo_append, offersTo_outcomes, hget]
    rfl
  rw [queued, offered, hoffers, acceptedVersions_append, List.map_append, List.map_append,
    keyVersions_append, nextCursor_of_advancing rfl, SubscriberEntry.cursor_dispatch]
  simp only [hdelivered, List.map_cons, List.map_nil, keyVersions_singleton]
  by_cases hkey : event.streamId = streamId ∧ event.branch = branch
  · obtain ⟨rfl, rfl⟩ := hkey
    have hcovers' : entry.covers event.streamId event.branch = true := by
      rw [covers_of_sameConfig (h.config entry hget)]
      exact hcovers
    have hout := dispatch_of_healthy hhealthy hcovers'
    rw [if_pos ⟨rfl, rfl⟩, accept_append, mark_append]
    rw [queued, offered] at hold
    rw [offered] at hmark
    rw [← hold, ← hmark]
    by_cases hlt : entry.cursor event.streamId event.branch < u64AsI64 event.version
    · rw [if_pos hlt] at hout
      simp [hout, hlt, acceptedVersions]
    · rw [if_neg hlt] at hout
      simp [hout, hlt, acceptedVersions, not_lt.mp hlt]
  · -- an event of another stream or branch changes neither side
    have hnone : acceptedVersions [(event, (entry.dispatch event).2)] streamId branch = [] := by
      rw [List.eq_nil_iff_forall_not_mem]
      intro v hv
      obtain ⟨-, hs, hb, -⟩ := mem_acceptedVersions_singleton.mp hv
      exact hkey ⟨hs, hb⟩
    rw [if_neg hkey, hnone, List.map_nil, List.append_nil, List.append_nil,
      if_neg fun hc => hkey hc.2]
    exact ⟨hold, hmark⟩

theorem flowing_firstPass (h : Flowing s id entry₀)
    (hstep : deliveryStep s (.firstPass event) = some s') : Flowing s' id entry₀ := by
  obtain ⟨hadv, rfl⟩ := firstPass_eq_some.mp hstep
  have hget' : ∀ entry', (s.registry.firstPass event).get id = some entry' → ∃ entry,
      s.registry.get id = some entry ∧ entry' = (entry.dispatch event).1 := by
    intro entry' hget'
    rw [Registry.firstPass, Registry.get_mapEntries, Option.map_eq_some_iff] at hget'
    obtain ⟨entry, hget, rfl⟩ := hget'
    exact ⟨entry, hget, rfl⟩
  refine ⟨h.known, ?_, ?_, ?_, ?_⟩
  · intro entry' hentry'
    obtain ⟨entry, hget, rfl⟩ := hget' entry' hentry'
    have hconfig := h.config entry hget
    have hsame : (entry.dispatch event).1.SameConfig entry := sameConfig_dispatch
    exact ⟨hsame.1.trans hconfig.1, hsame.2.1.trans hconfig.2.1, hsame.2.2.trans hconfig.2.2⟩
  · -- what was delivered was wanted
    intro a ha hmem
    obtain rfl := Option.some_inj.mp ha
    obtain ⟨entry, hget, ho⟩ := mem_idsWith.mp hmem
    obtain ⟨hd, -⟩ | ⟨_, _, _, -, hwants, -⟩ := entry.dispatch_cases event
    · rw [hd] at ho
      exact absurd ho (by simp)
    · rw [SubscriberEntry.wants, Bool.and_eq_true, covers_of_sameConfig (h.config entry hget)]
        at hwants
      exact hwants.1
  · rintro ⟨entry', hentry', hhealthy⟩ streamId branch hcovers
    obtain ⟨entry, hget, rfl⟩ := hget' entry' hentry'
    exact (accepts_firstPass h hstep hget hhealthy hcovers).1
  · intro entry' hentry' hhealthy streamId branch hcovers
    obtain ⟨entry, hget, rfl⟩ := hget' entry' hentry'
    exact (accepts_firstPass h hstep hget hhealthy hcovers).2

theorem flowing_secondPass (h : Flowing s id entry₀)
    (hstep : deliveryStep s .secondPass = some s') : Flowing s' id entry₀ := by
  obtain ⟨a, hadv, rfl⟩ := secondPass_eq_some.mp hstep
  -- the pass moves the cursors of the entries it delivered to, and no others
  have hget' : ∀ entry', (s.registry.secondPass a.event a.delivered).get id = some entry' →
      ∃ entry, s.registry.get id = some entry ∧ entry' = if id ∈ a.delivered then
        entry.advance a.event.streamId a.event.branch (u64AsI64 a.event.version) else entry := by
    intro entry' hget'
    rw [Registry.secondPass, Registry.get_mapEntries, Option.map_eq_some_iff] at hget'
    obtain ⟨entry, hget, rfl⟩ := hget'
    exact ⟨entry, hget, rfl⟩
  have hback : ∀ entry : SubscriberEntry, (if id ∈ a.delivered then
      entry.advance a.event.streamId a.event.branch (u64AsI64 a.event.version)
        else entry).Healthy → entry.Healthy := by
    intro entry hhealthy
    split at hhealthy
    · exact healthy_of_advance hhealthy
    · exact hhealthy
  refine ⟨h.known, ?_, ?_, ?_, ?_⟩
  · intro entry' hentry'
    obtain ⟨entry, hget, rfl⟩ := hget' entry' hentry'
    have hconfig := h.config entry hget
    split
    · have hsame : (entry.advance a.event.streamId a.event.branch
          (u64AsI64 a.event.version)).SameConfig entry := sameConfig_advance
      exact ⟨hsame.1.trans hconfig.1, hsame.2.1.trans hconfig.2.1, hsame.2.2.trans hconfig.2.2⟩
    · exact hconfig
  · exact fun _ ha => absurd ha (by simp)
  · rintro ⟨entry', hentry', hhealthy⟩
    obtain ⟨entry, hget, rfl⟩ := hget' entry' hentry'
    exact h.accepts ⟨entry, hget, hback entry hhealthy⟩
  · intro entry' hentry' hhealthy streamId branch hcovers
    obtain ⟨entry, hget, rfl⟩ := hget' entry' hentry'
    have hmark := h.marks entry hget (hback entry hhealthy) streamId branch hcovers
    rw [nextCursor_of_advancing hadv] at hmark
    refine Eq.trans ?_ hmark
    show (if id ∈ a.delivered then
      entry.advance a.event.streamId a.event.branch (u64AsI64 a.event.version)
        else entry).cursor streamId branch = _
    by_cases hmem : id ∈ a.delivered
    · have hkind := (hback entry hhealthy).kind_ne
      rw [if_pos hmem, SubscriberEntry.cursor_advance hkind]
      by_cases hkey : a.event.streamId = streamId ∧ a.event.branch = branch
      · obtain ⟨rfl, rfl⟩ := hkey
        simp [hmem]
      · -- an exact subscription takes events of one stream and branch only
        have hglob : isGlob entry.streamPattern = true := by
          by_contra hexact
          have hcov := h.pending a hadv hmem
          rw [← covers_of_sameConfig (h.config entry hget)] at hcov hcovers
          simp only [SubscriberEntry.covers, Bool.and_eq_true, decide_eq_true_eq,
            globMatches_of_not_isGlob (Bool.not_eq_true _ ▸ hexact)] at hcov hcovers
          exact hkey ⟨hcov.2.symm.trans hcovers.2, hcov.1.1.symm.trans hcovers.1.1⟩
        have hne : (a.event.streamId, a.event.branch) ≠ (streamId, branch) := by
          simpa using hkey
        rw [if_pos ⟨hglob, hne⟩, if_neg fun hc => hkey hc.2]
    · rw [if_neg hmem, if_neg fun hc => hmem hc.1]

theorem cursor_postCommit {tx tx' : Channel StoredEvent} {walCursor : ℤ}
    {streamCursors : StreamCursors} (hkind : entry.kind = .postCommit tx walCursor streamCursors)
    (streamId branch : String) :
    SubscriberEntry.cursor { entry with kind := .postCommit tx' walCursor streamCursors } streamId
      branch = entry.cursor streamId branch := by
  rw [SubscriberEntry.cursor, SubscriberEntry.cursor, hkind]

/-- Only the second pass moves a cursor. -/
theorem cursor_of_entryStep {entry' : SubscriberEntry} (h : EntryStep s id entry op entry')
    (hsecond : op ≠ .secondPass) (streamId branch : String) :
    entry'.cursor streamId branch = entry.cursor streamId branch := by
  cases h with
  | same => rfl
  | received _ _ _ _ _ hkind => exact cursor_postCommit hkind streamId branch
  | panicked => rfl
  | offered event => exact SubscriberEntry.cursor_dispatch
  | advanced => exact absurd rfl hsecond

/-- **A healthy subscription is a consumer behind a high-water mark**, step by
step. -/
theorem flowing_step (h : Flowing s id entry₀) (hstep : deliveryStep s op = some s') :
    Flowing s' id entry₀ := by
  -- the steps that make no offers and move no cursor
  have hquiet : s'.offers = s.offers → s'.advancing = s.advancing →
      s.registry.nextId ≤ s'.registry.nextId → op ≠ .secondPass → Flowing s' id entry₀ := by
    intro hoffers hadv hknown hsecond
    refine flowing_of_same h hoffers hadv hknown fun entry' hget' => ?_
    obtain ⟨entry, hget, hes⟩ := entryStep_of_step h.known.ne hstep hget'
    exact ⟨entry, hget, sameConfig_of_entryStep hes, healthy_of_entryStep hes,
      cursor_of_entryStep hes hsecond⟩
  cases op with
  | subscribe q mode c sc =>
    obtain rfl := Option.some_inj.mp hstep
    exact hquiet rfl rfl (Nat.le_succ _) DeliveryOp.noConfusion
  | unsubscribe j =>
    obtain rfl := Option.some_inj.mp hstep
    exact hquiet rfl rfl le_rfl DeliveryOp.noConfusion
  | receiver j step =>
    obtain ⟨reg', hreg, rfl⟩ := receiver_eq_some.mp hstep
    obtain ⟨_, _, _, _, -, -, _, -, rfl⟩ := receiverStep_cases hreg
    exact hquiet rfl rfl le_rfl DeliveryOp.noConfusion
  | dispatchSync event panics =>
    obtain rfl := Option.some_inj.mp hstep
    exact hquiet rfl rfl le_rfl DeliveryOp.noConfusion
  | firstPass event => exact flowing_firstPass h hstep
  | secondPass => exact flowing_secondPass h hstep

/-- A subscription flows from the moment it is registered. -/
theorem flowing_subscribe {q : SubscribeQuery} {mode : SubscriptionMode} {c : ℤ}
    {sc : StreamCursors} (hinv : DeliveryInv s) (hadv : ∀ a, s.advancing = some a →
      s.registry.nextId ∉ a.delivered) (hstep : deliveryStep s (.subscribe q mode c sc) = some s') :
    Flowing s' s.registry.nextId (newEntry q mode c sc) := by
  obtain rfl := Option.some_inj.mp hstep
  have hnone : offersTo s.offers s.registry.nextId = [] := (hinv.unknown _ (hinv.fresh _ le_rfl)).2
  have hget : (s.registry.subscribe q mode c sc).get s.registry.nextId
      = some (newEntry q mode c sc) := by
    rw [Registry.get_subscribe, if_pos rfl]
  refine ⟨Nat.lt_succ_self _, ?_, ?_, ?_, ?_⟩
  · intro entry hentry
    obtain rfl := Option.some_inj.mp (hget.symm.trans hentry)
    exact ⟨rfl, rfl, rfl⟩
  · exact fun a ha hmem => absurd hmem (hadv a ha)
  · intro _ streamId branch _
    simp [queued, offered, hnone, acceptedVersions, keyVersions, accept]
  · intro entry hentry _ streamId branch _
    obtain rfl := Option.some_inj.mp (hget.symm.trans hentry)
    have hmark : mark ((newEntry q mode c sc).cursor streamId branch)
        (keyVersions streamId branch (offered s s.registry.nextId))
          = (newEntry q mode c sc).cursor streamId branch := by
      rw [offered, hnone]
      rfl
    refine Eq.trans ?_ hmark.symm
    rcases ha : s.advancing with _ | a
    · exact nextCursor_of_idle rfl
    · rw [nextCursor_of_advancing rfl, if_neg fun hc => hadv a ha hc.1]

end Fossic
