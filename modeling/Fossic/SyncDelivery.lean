/-
Synchronous subscribers.

A writer calls the synchronous handlers for each new event between its commit and
the release of the mutex, but only if `has_subscribers()` was true when its call began.
A subscription registered in between is not called for what the writer then commits.

* `SyncSafe` — no writer with a stale reading commits an event for the subscription,
  and the subscription neither ends nor fails while events for it are still to be
  dispatched under the mutex;
* `sync_calls` — along such runs the handler is called for what was due to it at its
  commit, once and in order, after what was already under way at the registration;
* `stale_reading_misses` — and without the condition not.
-/
import Fossic.ChannelDelivery

namespace Fossic

open BoundedChannel Transition KeyedList Function

variable {d : Deps} {s s' : World d} {a : Action} {id : ℕ} {entry₀ : SubscriberEntry}
  {event : StoredEvent}

/-! ### Calls due and made -/

def Writer.todo : Writer d → List StoredEvent
  | .holding todo _ _ => todo
  | _ => []

def Writer.holds : Writer d → Bool
  | .holding _ _ _ => true
  | _ => false

/-- The events that the holder of the mutex has still to dispatch. -/
def World.todo (s : World d) : List StoredEvent :=
  match s.lock with
  | some w => (s.writers w).todo
  | none => []

/-- A subscription's share of a list of calls. -/
def eventsOf (id : ℕ) (calls : List (ℕ × StoredEvent)) : List StoredEvent :=
  (calls.filter fun c => c.1 = id).map Prod.snd

/-- The calls of the subscription that are still to be made under the mutex. -/
def World.pendingFor (s : World d) (id : ℕ) : List StoredEvent :=
  s.todo.filter fun e => id ∈ s.registry.syncCalls e

def PreparedCall.requests : PreparedCall d → List Append
  | .append a _ => [a]
  | .appendBatch appends _ => appends
  | .appendIf a _ _ => [a]

/-- The subscription is registered, is not degraded and covers the stream and branch. -/
def World.Listens (s : World d) (id : ℕ) (streamId branch : String) : Prop :=
  ∃ entry, s.registry.get id = some entry ∧ entry.degraded = false ∧
    entry.covers streamId branch = true

def SyncSafe (id : ℕ) (s : World d) : Action → Prop
  | .commit w _ => ∀ call, s.writers w = .begun false call → ∀ r ∈ call.requests,
    internal r.streamId = false → ¬s.Listens id r.streamId r.branch
  | .unsubscribe j => j = id → s.pendingFor id = []
  | .syncDispatch w panics => ∀ e todo post degraded, s.writers w = .holding (e :: todo) post degraded →
    id ∈ s.registry.syncCalls e → panics id = true → ∀ e' ∈ todo, id ∉ s.registry.syncCalls e'
  | _ => True

theorem mem_syncCalls {reg : Registry} : id ∈ reg.syncCalls event ↔
    ∃ entry, reg.get id = some entry ∧ entry.kind = .synchronous ∧ entry.wants event = true := by
  simp only [Registry.syncCalls, List.mem_map, List.mem_filter]
  constructor
  · rintro ⟨p, ⟨hp, hwants⟩, rfl⟩
    refine ⟨p.2, find_of_mem reg.distinct hp, ?_⟩
    split at hwants
    · exact ⟨‹_›, hwants⟩
    · exact absurd hwants Bool.false_ne_true
  · rintro ⟨entry, hget, hkind, hwants⟩
    refine ⟨(id, entry), ⟨mem_of_find hget, ?_⟩, rfl⟩
    simp only [hkind, hwants]

/-- A handler is called once for each event. -/
theorem nodup_syncCalls {reg : Registry} : (reg.syncCalls event).Nodup :=
  reg.distinct.sublist (List.filter_sublist.map _)

theorem eventsOf_append {calls calls' : List (ℕ × StoredEvent)} :
    eventsOf id (calls ++ calls') = eventsOf id calls ++ eventsOf id calls' := by
  rw [eventsOf, List.filter_append, List.map_append]
  rfl

theorem eventsOf_event {ids : List ℕ} (hnd : ids.Nodup) :
    eventsOf id (ids.map fun i => (i, event)) = if id ∈ ids then [event] else [] := by
  induction ids with
  | nil => rfl
  | cons j ids ih =>
    obtain ⟨hj, hids⟩ := List.nodup_cons.mp hnd
    rw [List.map_cons, ← List.singleton_append, eventsOf_append, ih hids]
    by_cases hji : j = id
    · subst hji
      simp [eventsOf, hj]
    · simp [eventsOf, hji, Ne.symm hji]

theorem eventsOf_events {reg : Registry} {events : List StoredEvent} :
    eventsOf id (events.flatMap fun e => (reg.syncCalls e).map fun i => (i, e)) =
      events.filter fun e => id ∈ reg.syncCalls e := by
  induction events with
  | nil => rfl
  | cons e events ih =>
    rw [List.flatMap_cons, eventsOf_append, eventsOf_event nodup_syncCalls, ih]
    by_cases h : id ∈ reg.syncCalls e
    · rw [if_pos h, List.filter_cons_of_pos (by simpa using h)]
      rfl
    · rw [if_neg h, List.filter_cons_of_neg (by simpa using h)]
      rfl

/-! ### The entry of a synchronous subscription -/

/-- Only a synchronous dispatch and its own end touch a synchronous entry. -/
theorem get_of_quiet {t t' : DeliveryState} {op : DeliveryOp} (hid : id < t.registry.nextId)
    (hsync : ∀ entry, t.registry.get id = some entry → entry.kind = .synchronous)
    (hstep : deliveryStep t op = some t') (hend : op ≠ .unsubscribe id)
    (hop : ∀ e panics, op ≠ .dispatchSync e panics) : t'.registry.get id = t.registry.get id := by
  cases op with
  | subscribe q mode c sc =>
    obtain rfl := Option.some_inj.mp hstep
    rw [Registry.get_subscribe, if_neg hid.ne']
  | unsubscribe j =>
    obtain rfl := Option.some_inj.mp hstep
    rw [Registry.get_unsubscribe, if_neg fun hj => hend (by rw [hj])]
  | receiver j step =>
    obtain ⟨reg', hreg, rfl⟩ := receiver_eq_some.mp hstep
    obtain ⟨entry, _, _, _, hget, hkind, _, -, rfl⟩ := receiverStep_cases hreg
    rw [Registry.get_mapEntries]
    by_cases hj : id = j
    · subst hj
      exact absurd ((hsync entry hget).symm.trans hkind) (by simp)
    · simp only [if_neg hj, Option.map_id']
  | dispatchSync e panics => exact absurd rfl (hop e panics)
  | firstPass e =>
    obtain ⟨-, rfl⟩ := firstPass_eq_some.mp hstep
    rw [Registry.firstPass, Registry.get_mapEntries]
    rcases hget : t.registry.get id with _ | entry
    · rfl
    · rw [Option.map_some, SubscriberEntry.dispatch, hsync entry hget]
  | secondPass =>
    obtain ⟨adv, -, rfl⟩ := secondPass_eq_some.mp hstep
    rw [Registry.secondPass, Registry.get_mapEntries]
    rcases hget : t.registry.get id with _ | entry
    · rfl
    · rw [Option.map_some, SubscriberEntry.advance, hsync entry hget]
      simp

/-! ### What a step does under the mutex -/

/-- Only the holder of the mutex is between its commit and the release. -/
def LockInv (s : World d) : Prop := ∀ w, (s.writers w).holds = true → s.lock = some w

/-- A step, as the mutex, the synchronous handlers and the registry see it. -/
inductive SyncEffect (s s' : World d) : Action → Prop
  | quiet (a : Action) (htodo : s'.todo = s.todo) (hlog : s'.log = s.log)
      (hcalls : s'.calls = s.calls) (hdue : s'.due = s.due)
      (hdelivery : s'.delivery = s.delivery ∨ ∃ op, (∀ j, op = .unsubscribe j → a = .unsubscribe j) ∧
        (∀ e panics, op ≠ .dispatchSync e panics) ∧
        deliveryStep s.delivery op = some s'.delivery) : SyncEffect s s' a
  | committed (w : ℕ) (clock : ℕ → Int64) (hasSubs : Bool) (call : PreparedCall d)
      (outcomes : List (AppendOutcome × Append)) (hbegun : s.writers w = .begun hasSubs call)
      (hcommit : call.commit clock s.db = .ok (outcomes, s'.db)) (hnone : s.todo = [])
      (htodo : s'.todo = if hasSubs then inserted outcomes else [])
      (hlog : s'.log = s.log ++ inserted outcomes) (hcalls : s'.calls = s.calls)
      (hdue : s'.due = s.due ++ (inserted outcomes).flatMap fun e =>
        (s.registry.syncCalls e).map fun i => (i, e))
      (hdelivery : s'.delivery = s.delivery) : SyncEffect s s' (.commit w clock)
  | dispatched (w : ℕ) (panics : ℕ → Bool) (e : StoredEvent) (todo post : List StoredEvent)
      (degraded : List Degraded) (hholding : s.writers w = .holding (e :: todo) post degraded)
      (hbefore : s.todo = e :: todo) (htodo : s'.todo = todo) (hlog : s'.log = s.log)
      (hcalls : s'.calls = s.calls ++ (s.registry.syncCalls e).map fun i => (i, e))
      (hdue : s'.due = s.due)
      (hdelivery : deliveryStep s.delivery (.dispatchSync e panics) = some s'.delivery) :
      SyncEffect s s' (.syncDispatch w panics)

theorem lockInv_setWriter {w : ℕ} {writer : Writer d} (h : LockInv s) (hw : writer.holds = false)
    (hwriters : s'.writers = update s.writers w writer) (hlock : s'.lock = s.lock) : LockInv s' := by
  intro v hv
  rw [hwriters] at hv
  rw [hlock]
  by_cases hvw : v = w
  · subst hvw
    rw [update_self, hw] at hv
    exact absurd hv Bool.false_ne_true
  · rw [update_of_ne hvw] at hv
    exact h v hv

theorem todo_setWriter {w : ℕ} {writer : Writer d} (hw : writer.todo = (s.writers w).todo)
    (hwriters : s'.writers = update s.writers w writer) (hlock : s'.lock = s.lock) :
    s'.todo = s.todo := by
  rw [World.todo, World.todo, hlock, hwriters]
  rcases s.lock with _ | v
  · rfl
  · by_cases hvw : v = w
    · subst hvw
      show (update s.writers v writer v).todo = (s.writers v).todo
      rw [update_self, hw]
    · show (update s.writers w writer v).todo = (s.writers v).todo
      rw [update_of_ne hvw]

theorem todo_of_holding {w : ℕ} {todo post : List StoredEvent} {degraded : List Degraded}
    (h : LockInv s) (hw : s.writers w = .holding todo post degraded) :
    s.lock = some w ∧ s.todo = todo := by
  have hlock := h w (by rw [hw]; rfl)
  refine ⟨hlock, ?_⟩
  rw [World.todo, hlock]
  show (s.writers w).todo = todo
  rw [hw]
  rfl

/-- The mutex goes to a writer that finds it free, or stays with its holder. -/
theorem lockInv_of_holding {w : ℕ} {writer : Writer d} (h : LockInv s)
    (hfree : s.lock = none ∨ s.lock = some w) (hwriters : s'.writers = update s.writers w writer)
    (hlock : s'.lock = some w) : LockInv s' := by
  intro v hv
  rw [hlock]
  by_cases hvw : v = w
  · rw [hvw]
  · rw [hwriters, update_of_ne hvw] at hv
    have hv := h v hv
    rcases hfree with hfree | hfree
    · exact absurd (hfree.symm.trans hv) (by simp)
    · exact hfree.symm.trans hv

/-- After the release nobody holds the mutex. -/
theorem lockInv_of_released {w : ℕ} {writer : Writer d} (h : LockInv s) (hheld : s.lock = some w)
    (hw : writer.holds = false) (hwriters : s'.writers = update s.writers w writer) :
    LockInv s' := by
  intro v hv
  rw [hwriters] at hv
  by_cases hvw : v = w
  · rw [hvw, update_self, hw] at hv
    exact absurd hv Bool.false_ne_true
  · rw [update_of_ne hvw] at hv
    exact absurd (Option.some_inj.mp (hheld.symm.trans (h v hv))) (Ne.symm hvw)

theorem todo_update {w : ℕ} {writer : Writer d} {todo : List StoredEvent}
    (hwriters : s'.writers = update s.writers w writer) (hlock : s'.lock = some w)
    (htodo : writer.todo = todo) : s'.todo = todo := by
  rw [World.todo, hlock, hwriters]
  show (update s.writers w writer w).todo = todo
  rw [update_self, htodo]

theorem syncEffect_of_step (hlock : LockInv s) (h : worldStep d s a = some s') :
    LockInv s' ∧ SyncEffect s s' a := by
  cases taken_of_step h with
  | seeded | refused | skipped | reported | reportedSync | allReported | other | scanned =>
    exact ⟨hlock, .quiet _ rfl rfl rfl rfl (.inl rfl)⟩
  | unregistered hdelivery =>
    refine ⟨hlock, .quiet _ rfl rfl rfl rfl (.inr ⟨_, fun j heq => ?_, fun _ _ => ?_, hdelivery⟩)⟩
    · rw [DeliveryOp.unsubscribe.inj heq]
    · exact DeliveryOp.noConfusion
  | registered _ hdelivery | received hdelivery | offered _ _ _ _ hdelivery
  | advanced _ hdelivery =>
    refine ⟨hlock, .quiet _ rfl rfl rfl rfl (.inr ⟨_, fun j heq => ?_, fun _ _ => ?_, hdelivery⟩)⟩
    · exact absurd heq (by simp)
    · exact DeliveryOp.noConfusion
  | begun hw | failed hw | noted hw | sent hw | returned hw =>
    refine ⟨lockInv_setWriter hlock rfl rfl rfl, .quiet _ ?_ rfl rfl rfl (.inl rfl)⟩
    exact todo_setWriter (by rw [hw]; rfl) rfl rfl
  | committed hw hfree hcommit =>
    refine ⟨lockInv_of_holding hlock (.inl hfree) rfl rfl, ?_⟩
    refine .committed _ _ _ _ _ hw hcommit ?_ ?_ rfl rfl rfl rfl
    · rw [World.todo, hfree]
    · exact todo_update rfl rfl rfl
  | dispatched hw hdelivery =>
    obtain ⟨hheld, htodo⟩ := todo_of_holding hlock hw
    refine ⟨lockInv_of_holding hlock (.inr hheld) rfl hheld, ?_⟩
    refine .dispatched _ _ _ _ _ _ hw htodo ?_ rfl rfl rfl hdelivery
    exact todo_update rfl hheld rfl
  | unlocked hw =>
    obtain ⟨hheld, htodo⟩ := todo_of_holding hlock hw
    refine ⟨lockInv_of_released hlock hheld rfl rfl, .quiet _ ?_ rfl rfl rfl (.inl rfl)⟩
    -- the release leaves no event to dispatch
    rw [htodo]
    rfl

/-! ### The log of new events -/

/-- On the same stream and branch the second event has the higher version. -/
def Follows (e e' : StoredEvent) : Prop :=
  e.streamId = e'.streamId → e.branch = e'.branch → u64AsI64 e.version < u64AsI64 e'.version

/-- What is called and what is still to be dispatched are in the order of the log, and
all of it concerns ids that have been given out. -/
structure LogInv (s : World d) : Prop where
  lock : LockInv s
  recorded : ∀ e ∈ s.log, Recorded s.db e
  increasing : s.log.Pairwise Follows
  order : ∀ id, (eventsOf id s.calls ++ s.todo).Sublist s.log
  known : ∀ c ∈ s.calls ++ s.due, c.1 < s.registry.nextId

theorem Grows.increasing {P : EventRow → Prop} {db db' : Db} {rows : List EventRow}
    (h : Grows P db rows db') : rows.Pairwise fun r r' =>
      r.On r'.streamId r'.branch → r.version < r'.version := by
  induction h with
  | refl => exact .nil
  | @insert db db' row rows hins hrow hrest ih =>
    refine .cons (fun r' hr' hon => ?_) ih
    exact hrest.above r' hr' row (List.mem_append_right _ List.mem_cons_self) hon

theorem Describes.follows {db : Db} {e e' : StoredEvent} {r r' : EventRow} (hsane : db.Sane)
    (hd : Describes e r) (hd' : Describes e' r') (hr : r ∈ db.events) (hr' : r' ∈ db.events)
    (hlt : r.On r'.streamId r'.branch → r.version < r'.version) : Follows e e' := by
  intro hs hb
  rw [hd.version hsane hr, hd'.version hsane hr']
  exact hlt ⟨hd.on.1.symm.trans (hs.trans hd'.on.1), hd.on.2.symm.trans (hb.trans hd'.on.2)⟩

/-- Events of increasing rows increase. -/
theorem follows_of_describes {db : Db} (hsane : db.Sane) {events : List StoredEvent}
    {rows : List EventRow} (h : List.Forall₂ Describes events rows) (hmem : rows ⊆ db.events)
    (hrows : rows.Pairwise fun r r' => r.On r'.streamId r'.branch → r.version < r'.version) :
    events.Pairwise Follows := by
  induction h with
  | nil => exact .nil
  | @cons e r events rows hd hrest ih =>
    obtain ⟨hhead, htail⟩ := List.pairwise_cons.mp hrows
    obtain ⟨hr, hmem⟩ := List.cons_subset.mp hmem
    refine .cons (fun e' he' => ?_) (ih hmem htail)
    obtain ⟨r', hr', hd'⟩ := exists_of_mem_forall₂ hrest.flip he'
    exact hd.follows hsane hd' hr (hmem hr') (hhead r' hr')

/-- The new events of a commit follow those in the log and one another. -/
theorem increasing_commit {db db' : Db} {clock : ℕ → Int64} {call : PreparedCall d}
    {outcomes : List (AppendOutcome × Append)} {log : List StoredEvent} (hsane : db'.Sane)
    (hcommit : call.commit clock db = .ok (outcomes, db')) (hrecorded : ∀ e ∈ log, Recorded db e)
    (h : log.Pairwise Follows) :
    (log ++ inserted outcomes).Pairwise Follows ∧
      ∀ e ∈ log ++ inserted outcomes, Recorded db' e := by
  obtain ⟨rows, hrows, hevents⟩ := commit_grows hcommit
  have hdb : db'.events = db.events ++ rows := by rw [hrows.eq]
  have hnew : rows ⊆ db'.events := hdb ▸ List.subset_append_right _ _
  have hold : db.events ⊆ db'.events := hdb ▸ List.subset_append_left _ _
  have hdescribes : ∀ e ∈ inserted outcomes, ∃ r ∈ rows, Describes e r := fun e he =>
    exists_of_mem_forall₂ hevents.flip (List.mem_of_mem_filter he)
  refine ⟨List.pairwise_append.mpr ⟨h, ?_, ?_⟩, ?_⟩
  · exact (follows_of_describes hsane hevents hnew hrows.increasing).sublist List.filter_sublist
  · intro e he e' he'
    obtain ⟨r, hr, hd⟩ := hrecorded e he
    obtain ⟨r', hr', hd'⟩ := hdescribes e' he'
    exact hd.follows hsane hd' (hold hr) (hnew hr') (hrows.above r' hr' r hr)
  · intro e he
    rcases List.mem_append.mp he with he | he
    · obtain ⟨r, hr, hd⟩ := hrecorded e he
      exact ⟨r, hold hr, hd⟩
    · obtain ⟨r, hr, hd⟩ := hdescribes e he
      exact ⟨r, hnew hr, hd⟩

theorem logInv_step (hinv : WorldInv s) (h : LogInv s) (hstep : worldStep d s a = some s') :
    LogInv s' := by
  obtain ⟨hlock, heffect⟩ := syncEffect_of_step h.lock hstep
  have hlater := later_of_step hstep
  -- a call is only ever due to a subscription that had its id by then
  have hsyncCalls : ∀ e, ∀ i ∈ s.registry.syncCalls e, i < s.registry.nextId := by
    intro e i hi
    obtain ⟨entry, hget, -⟩ := mem_syncCalls.mp hi
    exact Registry.lt_nextId_of_get hget
  cases heffect with
  | quiet _ htodo hlog hcalls hdue hdelivery =>
    refine ⟨hlock, ?_, hlog ▸ h.increasing, ?_, ?_⟩
    · rw [hlog]
      exact fun e he => (h.recorded e he).later hlater
    · rw [hcalls, htodo, hlog]
      exact h.order
    · rw [hcalls, hdue]
      rcases hdelivery with heq | ⟨op, -, -, hop⟩
      · rw [World.registry, heq]
        exact h.known
      · exact fun c hc => (h.known c hc).trans_le (nextId_le_of_step hop)
  | committed w clock hasSubs call outcomes hbegun hcommit hnone htodo hlog hcalls hdue hdelivery =>
    obtain ⟨hincreasing, hrecorded⟩ := increasing_commit (sane_of_step hstep hinv.sane) hcommit
      h.recorded h.increasing
    refine ⟨hlock, hlog ▸ hrecorded, hlog ▸ hincreasing, fun id => ?_, ?_⟩
    · -- nothing was left to dispatch, so the new events come last
      have horder := h.order id
      rw [hnone, List.append_nil] at horder
      rw [hcalls, htodo, hlog]
      split
      · exact horder.append (List.Sublist.refl _)
      · exact horder.append (List.nil_sublist _)
    · have hnext : s'.registry.nextId = s.registry.nextId :=
        congrArg (fun t => t.registry.nextId) hdelivery
      rw [hcalls, hdue, hnext]
      intro c hc
      rcases List.mem_append.mp hc with hc | hc
      · exact h.known c (List.mem_append_left _ hc)
      · rcases List.mem_append.mp hc with hc | hc
        · exact h.known c (List.mem_append_right _ hc)
        · obtain ⟨e, -, hc⟩ := List.mem_flatMap.mp hc
          obtain ⟨i, hi, rfl⟩ := List.mem_map.mp hc
          exact hsyncCalls e i hi
  | dispatched w panics e todo post degraded hholding hbefore htodo hlog hcalls hdue hdelivery =>
    refine ⟨hlock, ?_, hlog ▸ h.increasing, fun id => ?_, ?_⟩
    · rw [hlog]
      exact fun e he => (h.recorded e he).later hlater
    · -- the first event to be dispatched becomes the last one that was called for
      have horder := h.order id
      rw [hbefore] at horder
      rw [hcalls, htodo, hlog, eventsOf_append, eventsOf_event nodup_syncCalls, List.append_assoc]
      refine List.Sublist.trans (List.Sublist.append_left ?_ _) horder
      split
      · exact List.Sublist.refl _
      · exact List.sublist_cons_self _ _
    · rw [hcalls, hdue]
      intro c hc
      refine lt_of_lt_of_le ?_ (nextId_le_of_step hdelivery)
      rcases List.mem_append.mp hc with hc | hc
      · rcases List.mem_append.mp hc with hc | hc
        · exact h.known c (List.mem_append_left _ hc)
        · obtain ⟨i, hi, rfl⟩ := List.mem_map.mp hc
          exact hsyncCalls e i hi
      · exact h.known c (List.mem_append_right _ hc)

/-! ### Calls made balance calls due -/

/-- Every new event is for one of the requests. -/
theorem inserted_request {db db' : Db} {clock : ℕ → Int64} {call : PreparedCall d}
    {outcomes : List (AppendOutcome × Append)}
    (hcommit : call.commit clock db = .ok (outcomes, db')) {e : StoredEvent}
    (he : e ∈ inserted outcomes) : ∃ r ∈ call.requests, internal r.streamId = false ∧
      e.streamId = r.streamId ∧ e.branch = r.branch := by
  have hrequests : ∀ o ∈ outcomes, o.2 ∈ call.requests := by
    intro o ho
    cases call with
    | append r p =>
      simp only [PreparedCall.commit, bind_eq_ok, Except.ok.injEq, Prod.mk.injEq] at hcommit
      obtain ⟨_, -, rfl, -⟩ := hcommit
      obtain rfl := List.mem_singleton.mp ho
      exact List.mem_cons_self
    | appendBatch appends prepared =>
      simp only [PreparedCall.commit, bind_eq_ok, Except.ok.injEq, Prod.mk.injEq] at hcommit
      obtain ⟨_, -, rfl, -⟩ := hcommit
      exact (List.of_mem_zip ho).2
    | appendIf r p condition =>
      simp only [PreparedCall.commit, bind_eq_ok, Except.ok.injEq, Prod.mk.injEq] at hcommit
      obtain ⟨o', -, rfl, -⟩ := hcommit
      obtain ⟨o'', -, rfl⟩ : ∃ o'', o'.1 = some o'' ∧ (o'', r) = o := by simpa using ho
      exact List.mem_cons_self
  obtain ⟨hnew, hinternal⟩ := List.mem_filter.mp he
  obtain ⟨o, ho, rfl⟩ := List.mem_map.mp hnew
  exact ⟨o.2, hrequests o (List.mem_of_mem_filter ho), by simpa [buildStoredEvent] using hinternal,
    rfl, rfl⟩

/-- The calls made to the subscription, with those still to be made, are those that
were under way at its registration (`early`) and those due since. -/
structure Balanced (s : World d) (id : ℕ) (early : List StoredEvent) : Prop where
  known : id < s.registry.nextId
  sync : ∀ entry, s.registry.get id = some entry → entry.kind = .synchronous
  balance : eventsOf id s.calls ++ s.pendingFor id = early ++ eventsOf id s.due

theorem pendingFor_congr (htodo : s'.todo = s.todo)
    (h : ∀ e ∈ s.todo, id ∈ s'.registry.syncCalls e ↔ id ∈ s.registry.syncCalls e) :
    s'.pendingFor id = s.pendingFor id := by
  rw [World.pendingFor, World.pendingFor, htodo]
  exact List.filter_congr fun e he => by simp only [h e he]

theorem syncCalls_congr {reg reg' : Registry} (h : reg'.get id = reg.get id) (e : StoredEvent) :
    id ∈ reg'.syncCalls e ↔ id ∈ reg.syncCalls e := by
  rw [mem_syncCalls, mem_syncCalls, h]

theorem pendingFor_of_none (h : s.registry.get id = none) : s.pendingFor id = [] := by
  rw [World.pendingFor, List.filter_eq_nil_iff]
  intro e he
  simp [mem_syncCalls, h]

theorem get_dispatchSync {reg : Registry} {e : StoredEvent} {panics : ℕ → Bool} :
    (reg.dispatchSync e panics).1.get id = (reg.get id).map fun entry =>
      if id ∈ reg.syncCalls e ∧ panics id = true then { entry with degraded := true } else entry := by
  rw [Registry.dispatchSync, Registry.get_mapEntries]
  simp only [List.mem_filter]

/-- Steps that leave the entry and the tasks under the mutex as they are. -/
theorem balanced_of_same {early : List StoredEvent} (h : Balanced s id early)
    (hnext : s.registry.nextId ≤ s'.registry.nextId)
    (hget : s'.registry.get id = s.registry.get id) (htodo : s'.todo = s.todo)
    (hcalls : s'.calls = s.calls) (hdue : s'.due = s.due) : Balanced s' id early := by
  refine ⟨h.known.trans_le hnext, ?_, ?_⟩
  · rw [hget]
    exact h.sync
  · rw [hcalls, hdue, pendingFor_congr htodo fun e _ => syncCalls_congr hget e]
    exact h.balance

/-- The subscription ends with nothing under way. -/
theorem balanced_of_gone {early : List StoredEvent} (h : Balanced s id early)
    (hnext : s.registry.nextId ≤ s'.registry.nextId) (hgone : s'.registry.get id = none)
    (hpending : s.pendingFor id = []) (hcalls : s'.calls = s.calls) (hdue : s'.due = s.due) :
    Balanced s' id early := by
  refine ⟨h.known.trans_le hnext, ?_, ?_⟩
  · rw [hgone]
    exact fun _ hget => absurd hget (by simp)
  · have hbalance := h.balance
    rw [hpending, List.append_nil] at hbalance
    rw [hcalls, hdue, pendingFor_of_none hgone, List.append_nil]
    exact hbalance

theorem balanced_step {early : List StoredEvent} (hlock : LockInv s) (h : Balanced s id early)
    (hsafe : SyncSafe id s a) (hstep : worldStep d s a = some s') : Balanced s' id early := by
  cases (syncEffect_of_step hlock hstep).2 with
  | quiet _ htodo hlog hcalls hdue hdelivery =>
    rcases hdelivery with heq | ⟨op, hend, hop, hdeliver⟩
    · have hregistry : s'.registry = s.registry := congrArg DeliveryState.registry heq
      exact balanced_of_same h (by rw [hregistry]) (by rw [hregistry]) htodo hcalls hdue
    · have hnext := nextId_le_of_step hdeliver
      by_cases hself : op = .unsubscribe id
      · subst hself
        obtain rfl := hend id rfl
        refine balanced_of_gone h hnext ?_ (hsafe rfl) hcalls hdue
        have hs' := Option.some_inj.mp hdeliver
        rw [World.registry, ← hs', Registry.get_unsubscribe, if_pos rfl]
      · exact balanced_of_same h hnext (get_of_quiet h.known h.sync hdeliver hself hop) htodo hcalls
          hdue
  | committed w clock hasSubs call outcomes hbegun hcommit hnone htodo hlog hcalls hdue hdelivery =>
    have hbalance := h.balance
    rw [World.pendingFor, hnone, List.filter_nil, List.append_nil] at hbalance
    have hpending : s'.pendingFor id =
        (inserted outcomes).filter fun e => id ∈ s.registry.syncCalls e := by
      rw [World.pendingFor, htodo, World.registry, hdelivery]
      cases hasSubs with
      | true => rfl
      | false =>
        -- a stale reading, but no request is for the subscription
        refine (List.filter_eq_nil_iff.mpr fun e he hcall => ?_).symm
        obtain ⟨entry, hget, -, hwants⟩ := mem_syncCalls.mp (of_decide_eq_true hcall)
        obtain ⟨r, hr, hinternal, hs, hb⟩ := inserted_request hcommit he
        simp only [SubscriberEntry.wants, Bool.and_eq_true, Bool.not_eq_true', hs, hb] at hwants
        exact hsafe call hbegun r hr hinternal ⟨entry, hget, hwants.2, hwants.1⟩
    have hget : s'.registry.get id = s.registry.get id :=
      congrArg (fun t => t.registry.get id) hdelivery
    refine ⟨?_, ?_, ?_⟩
    · exact h.known.trans_le (congrArg (fun t => t.registry.nextId) hdelivery).ge
    · rw [hget]
      exact h.sync
    · rw [hcalls, hdue, hpending, eventsOf_append, eventsOf_events, hbalance, List.append_assoc]
  | dispatched w panics e todo post degraded hholding hbefore htodo hlog hcalls hdue hdelivery =>
    have hreg : s'.registry = (s.registry.dispatchSync e panics).1 := by
      rw [World.registry, ← Option.some_inj.mp hdelivery]
    have hget : s'.registry.get id = _ := hreg ▸ get_dispatchSync
    have hsame : ∀ e' ∈ todo, id ∈ s'.registry.syncCalls e' ↔ id ∈ s.registry.syncCalls e' := by
      intro e' he'
      by_cases hpanic : id ∈ s.registry.syncCalls e ∧ panics id = true
      · -- the handler fails, but nothing more is under way for it
        refine iff_of_false (fun hcall => ?_)
          (hsafe e todo post degraded hholding hpanic.1 hpanic.2 e' he')
        obtain ⟨entry', hget', -, hwants⟩ := mem_syncCalls.mp hcall
        rw [hget, Option.map_eq_some_iff] at hget'
        obtain ⟨entry, -, rfl⟩ := hget'
        rw [if_pos hpanic, SubscriberEntry.wants_degraded rfl] at hwants
        exact Bool.false_ne_true hwants
      · refine syncCalls_congr ?_ e'
        simp only [hget, if_neg hpanic, Option.map_id']
    have hbalance := h.balance
    rw [World.pendingFor, hbefore] at hbalance
    have hpending : s'.pendingFor id = todo.filter fun e' => id ∈ s.registry.syncCalls e' := by
      rw [World.pendingFor, htodo]
      exact List.filter_congr fun e' he' => by simp only [hsame e' he']
    refine ⟨h.known.trans_le (nextId_le_of_step hdelivery), fun entry' hget' => ?_, ?_⟩
    · rw [hget, Option.map_eq_some_iff] at hget'
      obtain ⟨entry, hold, rfl⟩ := hget'
      split
      · exact h.sync entry hold
      · exact h.sync entry hold
    · rw [hcalls, hdue, hpending, eventsOf_append, eventsOf_event nodup_syncCalls, ← hbalance,
        List.append_assoc]
      by_cases hcall : id ∈ s.registry.syncCalls e
      · rw [if_pos hcall, List.filter_cons_of_pos (by simpa using hcall)]
        rfl
      · rw [if_neg hcall, List.filter_cons_of_neg (by simpa using hcall)]
        rfl

theorem eventsOf_eq_nil {calls : List (ℕ × StoredEvent)} (h : ∀ c ∈ calls, c.1 ≠ id) :
    eventsOf id calls = [] := by
  rw [eventsOf, List.filter_eq_nil_iff.mpr fun c hc => by simpa using h c hc]
  rfl

theorem balanced_of_registers {i : ℕ} (hlog : LogInv s) (hreg : Registers s s' i id entry₀)
    (hsync : entry₀.kind = .synchronous) : Balanced s' id (s'.pendingFor id) := by
  obtain ⟨q, mode, c, sc, hget, rfl⟩ := hreg.entry
  obtain rfl := hreg.id_eq
  have hstep := hreg.step
  rw [worldStep, hget] at hstep
  obtain ⟨delivery, hdelivery, rfl⟩ := deliver_eq_some.mp hstep
  obtain rfl := Option.some_inj.mp hdelivery
  have hcalls : eventsOf s.registry.nextId s.calls = [] := eventsOf_eq_nil fun c hc heq =>
    absurd (hlog.known c (List.mem_append_left _ hc)) (heq ▸ lt_irrefl _)
  have hdue : eventsOf s.registry.nextId s.due = [] := eventsOf_eq_nil fun c hc heq =>
    absurd (hlog.known c (List.mem_append_right _ hc)) (heq ▸ lt_irrefl _)
  refine ⟨Nat.lt_succ_self _, fun entry hentry => ?_, ?_⟩
  · have hentry' : (s.registry.subscribe q mode c sc).get s.registry.nextId = some entry := hentry
    rw [Registry.get_subscribe, if_pos rfl] at hentry'
    obtain rfl := Option.some_inj.mp hentry'
    exact hsync
  · show eventsOf _ s.calls ++ _ = _ ++ eventsOf _ s.due
    rw [hcalls, hdue, List.nil_append, List.append_nil]

/-! ### Nothing is missed -/

theorem logInv_init {db : Db} {sysWriter : Bool} : LogInv (World.init d db sysWriter) where
  lock _ hw := absurd hw Bool.false_ne_true
  recorded _ he := absurd he List.not_mem_nil
  increasing := .nil
  order _ := List.Sublist.refl _
  known _ hc := absurd hc List.not_mem_nil

theorem logInv_run {as : List Action} (hinv : WorldInv s) (h : LogInv s)
    (hrun : run (worldStep d) s as = some s') : WorldInv s' ∧ LogInv s' :=
  run_invariant_all (I := fun s => WorldInv s ∧ LogInv s)
    (fun _ _ _ hs hstep => ⟨worldInv_step hs.1 hstep, logInv_step hs.1 hs.2 hstep⟩) ⟨hinv, h⟩ hrun

/-- **A synchronous subscriber misses nothing** along runs that are safe for it:
whenever the mutex is free, the calls made to it are those for what was under way at
its registration, followed by those that were due to it at their commits, in that
order; and no event is passed to it twice. -/
theorem sync_calls (d : Deps) (db : Db) (hsane : db.Sane) (sysWriter : Bool)
    (as₀ as : List Action) (s₀ s₁ s₂ : World d) (i id : ℕ) (entry₀ : SubscriberEntry)
    (hrun₀ : run (worldStep d) (World.init d db sysWriter) as₀ = some s₀)
    (hreg : Registers s₀ s₁ i id entry₀) (hsync : entry₀.kind = .synchronous)
    (hsafe : Along (worldStep d) (SyncSafe id) s₁ as) (hrun : run (worldStep d) s₁ as = some s₂)
    (hfree : s₂.lock = none) :
    eventsOf id s₂.calls = s₁.pendingFor id ++ eventsOf id s₂.due ∧
      (eventsOf id s₂.calls).Pairwise Follows := by
  obtain ⟨hinv₀, hlog₀⟩ := logInv_run (worldInv_init hsane sysWriter) logInv_init hrun₀
  have hinv₁ := worldInv_step hinv₀ hreg.step
  have hlog₁ := logInv_step hinv₀ hlog₀ hreg.step
  have hend := run_invariant
    (I := fun s => WorldInv s ∧ LogInv s ∧ Balanced s id (s₁.pendingFor id))
    (fun s a s' h hP hstep => ⟨worldInv_step h.1 hstep, logInv_step h.1 h.2.1 hstep,
      balanced_step h.2.1.lock h.2.2 hP hstep⟩)
    ⟨hinv₁, hlog₁, balanced_of_registers hlog₀ hreg hsync⟩ hsafe hrun
  have htodo : s₂.todo = [] := by rw [World.todo, hfree]
  have hbalance := hend.2.2.balance
  rw [World.pendingFor, htodo, List.filter_nil, List.append_nil] at hbalance
  have horder := hend.2.1.order id
  rw [htodo, List.append_nil] at horder
  exact ⟨hbalance, hend.2.1.increasing.sublist horder⟩

/-- A call that begins after the registration. -/
theorem sync_calls_single : ∃ s₂ : World plainDeps, (eventsOf 1 s₂.due).length = 1 ∧
    eventsOf 1 s₂.calls = eventsOf 1 s₂.due := by
  have hkept := sync_calls plainDeps _ (bootstrap_sane 0) true (seedNull .synchronous)
    (commitNull 0 "a") _ _ _ 0 1 _ rfl ⟨rfl, rfl, _, _, _, _, rfl, rfl⟩ rfl ?_ rfl rfl
  · exact ⟨_, by decide, hkept.1⟩
  · refine along_cons trivial rfl (along_cons (fun call hw => ?_) rfl ?_)
    · exact absurd (Writer.begun.inj hw).1 (by decide)
    · refine along_cons (fun _ _ _ _ _ _ hpanics => ?_) rfl (along_cons trivial rfl trivial)
      exact absurd hpanics Bool.false_ne_true

/-- A call that begins before the registration and commits after it is not passed to
the subscriber. -/
theorem stale_reading_misses : ¬ ∀ (d : Deps) (db : Db) (_ : db.Sane) (sysWriter : Bool)
    (as₀ as : List Action) (s₀ s₁ s₂ : World d) (i id : ℕ) (entry₀ : SubscriberEntry)
    (_ : run (worldStep d) (World.init d db sysWriter) as₀ = some s₀)
    (_ : Registers s₀ s₁ i id entry₀) (_ : entry₀.kind = .synchronous)
    (_ : run (worldStep d) s₁ as = some s₂) (_ : s₂.lock = none),
    eventsOf id s₂.calls = s₁.pendingFor id ++ eventsOf id s₂.due := by
  intro h
  have hmissed := h plainDeps _ (bootstrap_sane 0) true
    (seedNull .synchronous ++ (commitNull 0 "a").take 1) [.commit 0 fun _ => 0, .unlock 0]
    _ _ _ 0 1 _ rfl ⟨rfl, rfl, _, _, _, _, rfl, rfl⟩ rfl rfl rfl
  exact absurd (congrArg List.length hmissed) (by decide)

end Fossic
