/-
Subscriptions and the internal streams.

A subscription may ask for `_fossic/system`, with `include_system` set.  The writers do
not dispatch events of `_fossic/*` and the dispatcher drops them, whoever wrote or found
them, so that a degraded subscription cannot cause events about itself.  Streams with
another name that begins with `_` are left to `include_system`.

* `blocked_run` — nothing internal is offered to a queue or passed to a handler, in any
  run, deletions included;
* `internal_streams_not_delivered` — and the filters for all other events;
* `system_subscription_silent` — a subscription for `_fossic/system` that loses an event.
-/
import Fossic.CrossProcess
import Fossic.SilentLoss

namespace Fossic

open Transition KeyedList Function

/-- A step of a store in use, or a deletion. -/
def purgingStep (d : Deps) (s : World d) : Action → Option (World d)
  | .other op => some { s with db := exec d s.db op }
  | a => worldStep d s a

/-- What the filters that both dispatch functions apply let through. -/
structure SubscriberEntry.Admits (entry : SubscriberEntry) (event : StoredEvent) : Prop where
  branch : entry.branch = event.branch
  system : startsWith event.streamId "_" = true → entry.includeSystem = true
  pattern : globMatches entry.streamPattern event.streamId = true
  degraded : entry.degraded = false

/-- Nothing internal has been offered or passed to a handler, or is about to be sent. -/
structure SystemBlocked {d : Deps} (s : World d) : Prop where
  offers : ∀ o ∈ s.delivery.offers, internal o.2.1.streamId = false
  calls : ∀ c ∈ s.calls, internal c.2.streamId = false
  unsent : ∀ w, ∀ e ∈ s.unsent w, internal e.streamId = false

variable {d : Deps} {s s' : World d} {a : Action} {entry : SubscriberEntry} {event : StoredEvent}

/-! ### The filters of one entry -/

theorem SubscriberEntry.admits_iff : entry.Admits event ↔ entry.wants event = true := by
  rw [SubscriberEntry.wants, SubscriberEntry.covers]
  simp only [Bool.and_eq_true, decide_eq_true_eq, Bool.not_eq_true', Bool.and_eq_false_imp,
    Bool.not_eq_false']
  constructor
  · rintro ⟨hbranch, hsystem, hpattern, hdegraded⟩
    exact ⟨⟨⟨hbranch, hsystem⟩, hpattern⟩, hdegraded⟩
  · rintro ⟨⟨⟨hbranch, hsystem⟩, hpattern⟩, hdegraded⟩
    exact ⟨hbranch, hsystem, hpattern, hdegraded⟩

/-- A PostCommit entry is passed over unless its filters admit the event and its cursor
is below it. -/
theorem SubscriberEntry.dispatch_ne_skipped_iff : (entry.dispatch event).2 ≠ .skipped ↔
    entry.kind ≠ .synchronous ∧ entry.Admits event ∧
      entry.cursor event.streamId event.branch < u64AsI64 event.version := by
  rw [SubscriberEntry.admits_iff]
  obtain ⟨hd, hskip⟩ | ⟨tx, w, sc, hkind, hwants, hlt, hsend⟩ := entry.dispatch_cases event
  · rw [hd]
    refine ⟨fun h => absurd rfl h, ?_⟩
    rintro ⟨hkind, hwants, hlt⟩
    exact absurd (hskip hkind hwants) (not_le.mpr hlt)
  · refine ⟨fun _ => ⟨?_, hwants, hlt⟩, fun _ => ?_⟩
    · rw [hkind]
      exact SubscriberKind.noConfusion
    · rcases hsend with ⟨-, hd⟩ | ⟨-, hd⟩ | ⟨-, hd⟩
      all_goals
        rw [hd]
        exact Outcome.noConfusion

/-! ### Steps -/

/-- Handlers are called only by a writer that holds the mutex, for its next event. -/
theorem calls_of_step (h : worldStep d s a = some s') : s'.calls = s.calls ∨
    ∃ w panics e todo post degraded, a = .syncDispatch w panics ∧
      s.writers w = .holding (e :: todo) post degraded ∧
      s'.calls = s.calls ++ (s.registry.syncCalls e).map fun id => (id, e) := by
  cases taken_of_step h with
  | dispatched hw => exact .inr ⟨_, _, _, _, _, _, rfl, hw, rfl⟩
  | _ => exact .inl rfl

theorem blocked_offers (h : SystemBlocked s) (hstep : worldStep d s a = some s') :
    ∀ o ∈ s'.delivery.offers, internal o.2.1.streamId = false := by
  have hsame : s'.delivery = s.delivery →
      ∀ o ∈ s'.delivery.offers, internal o.2.1.streamId = false := fun heq => heq ▸ h.offers
  cases effect_of_step hstep with
  | quiet _ _ _ _ _ hdelivery =>
    rcases hdelivery with heq | ⟨op, hop, hdelivery⟩
    · exact hsame heq
    · rw [(offers_of_step hop hdelivery).1]
      exact h.offers
  | committed _ _ _ _ _ _ _ _ _ _ _ _ hdelivery => exact hsame hdelivery
  | grown _ _ _ _ _ _ _ _ _ hdelivery => exact hsame hdelivery
  | sent _ _ _ _ _ _ _ _ hdelivery => exact hsame hdelivery
  | scanned _ _ _ _ hdelivery => exact hsame hdelivery
  | taken e _ hdelivery =>
    split at hdelivery
    · exact hsame hdelivery
    · -- the new offers are all of the event that was not skipped
      rename_i hinternal
      obtain ⟨-, heq⟩ := firstPass_eq_some.mp hdelivery
      intro o ho
      rw [← heq] at ho
      rcases List.mem_append.mp ho with ho | ho
      · exact h.offers o ho
      · obtain ⟨p, -, rfl⟩ := List.mem_map.mp ho
        exact Bool.eq_false_iff.mpr hinternal

theorem blocked_unsent (h : SystemBlocked s) (hstep : worldStep d s a = some s') :
    ∀ w, ∀ e ∈ s'.unsent w, internal e.streamId = false := by
  cases effect_of_step hstep with
  | quiet _ _ _ _ hunsent => exact hunsent ▸ h.unsent
  | grown _ _ _ _ _ _ _ _ hunsent => exact hunsent ▸ h.unsent
  | taken _ _ _ _ _ hunsent => exact hunsent ▸ h.unsent
  | scanned _ _ _ hunsent => exact hunsent ▸ h.unsent
  | committed w _ hasSubs _ _ events _ _ _ hunsent =>
    intro w' e he
    rw [hunsent] at he
    rcases mem_update_unsent he with he | he
    · exact h.unsent w' e he
    · split at he
      · simpa using (List.mem_filter.mp he).2
      · exact absurd he List.not_mem_nil
  | sent w e events hsending hunsent =>
    intro w' e' he
    rw [hunsent] at he
    rcases mem_update_unsent he with he | he
    · exact h.unsent w' e' he
    · exact h.unsent w e' (mem_unsent_of_sending hsending (List.mem_cons_of_mem _ he))

theorem blocked_calls (h : SystemBlocked s) (hstep : worldStep d s a = some s') :
    ∀ c ∈ s'.calls, internal c.2.streamId = false := by
  rcases calls_of_step hstep with heq | ⟨w, _, e, todo, post, degraded, -, hw, heq⟩
  · exact heq ▸ h.calls
  · intro c hc
    rw [heq] at hc
    rcases List.mem_append.mp hc with hc | hc
    · exact h.calls c hc
    · obtain ⟨id, -, rfl⟩ := List.mem_map.mp hc
      refine h.unsent w e ?_
      rw [World.unsent, hw]
      exact List.mem_append_right _ List.mem_cons_self

theorem blocked_step (h : SystemBlocked s) (hstep : purgingStep d s a = some s') :
    SystemBlocked s' := by
  rw [purgingStep.eq_def] at hstep
  split at hstep
  · obtain rfl := Option.some_inj.mp hstep
    exact ⟨h.offers, h.calls, h.unsent⟩
  · exact ⟨blocked_offers h hstep, blocked_calls h hstep, blocked_unsent h hstep⟩

/-- **Nothing internal is delivered**, in any run. -/
theorem blocked_run {db : Db} {sysWriter : Bool} {as : List Action}
    (hrun : run (purgingStep d) (World.init d db sysWriter) as = some s) : SystemBlocked s :=
  run_invariant_all (fun _ _ _ => blocked_step)
    ⟨fun _ h => absurd h List.not_mem_nil, fun _ h => absurd h List.not_mem_nil,
      fun _ _ h => absurd h List.not_mem_nil⟩ hrun

/-! ### The filters, over runs -/

/-- **Internal events are not delivered, whatever a subscription asks for.**  In every
run, deletions included, no event of a `_fossic/` stream is offered to a queue or passed
to a handler.  An event of another stream that the dispatcher takes is sent to exactly
the PostCommit subscriptions whose filters admit it and whose cursor is below it, and one
that a writer dispatches is passed to exactly the synchronous subscriptions whose filters
admit it. -/
theorem internal_streams_not_delivered (d : Deps) (db : Db) (sysWriter : Bool)
    (as : List Action) (s : World d)
    (hrun : run (purgingStep d) (World.init d db sysWriter) as = some s) :
    (∀ id e o, (id, e, o) ∈ s.delivery.offers → startsWith e.streamId "_fossic/" = false) ∧
    (∀ id e, (id, e) ∈ s.calls → startsWith e.streamId "_fossic/" = false) ∧
    (∀ s' e, purgingStep d s .firstPass = some s' →
      s.channel.receive = some (e, s'.channel) → startsWith e.streamId "_fossic/" = false →
        ∀ id entry, s.registry.get id = some entry →
          ∃ o, offersTo s'.delivery.offers id = offersTo s.delivery.offers id ++ [(e, o)] ∧
            (o ≠ .skipped ↔ entry.kind ≠ .synchronous ∧ entry.Admits e ∧
              entry.cursor e.streamId e.branch < u64AsI64 e.version)) ∧
    (∀ s' w panics, purgingStep d s (.syncDispatch w panics) = some s' →
      ∃ e todo post degraded, ∃ called : List ℕ,
        s.writers w = .holding (e :: todo) post degraded ∧
        s'.calls = s.calls ++ called.map (fun id => (id, e)) ∧
          ∀ id entry, s.registry.get id = some entry →
            (id ∈ called ↔ entry.kind = .synchronous ∧ entry.Admits e)) := by
  have hblocked := blocked_run hrun
  refine ⟨fun id e o ho => hblocked.offers _ ho, fun id e hc => hblocked.calls _ hc, ?_, ?_⟩
  · intro s' e hstep hreceive hinternal id entry hget
    cases taken_of_step (a := .firstPass) hstep with
    | skipped _ _ hreceive' hinternal' =>
      obtain ⟨rfl, -⟩ := Prod.mk.inj (Option.some_inj.mp (hreceive'.symm.trans hreceive))
      exact absurd (hinternal.symm.trans hinternal') Bool.false_ne_true
    | offered _ _ hreceive' _ hdelivery =>
      obtain ⟨rfl, -⟩ := Prod.mk.inj (Option.some_inj.mp (hreceive'.symm.trans hreceive))
      obtain ⟨-, rfl⟩ := firstPass_eq_some.mp hdelivery
      refine ⟨_, ?_, SubscriberEntry.dispatch_ne_skipped_iff⟩
      rw [offersTo_append, offersTo_outcomes, hget]
      rfl
  · intro s' w panics hstep
    cases taken_of_step (a := .syncDispatch w panics) hstep with
    | dispatched hw =>
      refine ⟨_, _, _, _, _, hw, rfl, fun id entry hget => ?_⟩
      rw [mem_syncCalls, SubscriberEntry.admits_iff, hget]
      constructor
      · rintro ⟨_, h, hkind, hwants⟩
        obtain rfl := Option.some_inj.mp h
        exact ⟨hkind, hwants⟩
      · rintro ⟨hkind, hwants⟩
        exact ⟨entry, rfl, hkind, hwants⟩

/-- A subscription for `s`, and the first event of `s` on its way to it. -/
theorem internal_streams_not_delivered_sent : ∃ (s s' : World plainDeps) (e : StoredEvent)
    (o : Outcome), s.channel.receive = some (e, s'.channel) ∧
      offersTo s'.delivery.offers 1 = [(e, o)] ∧ o ≠ .skipped := by
  have hruns : ∃ (s s' : World plainDeps) (e : StoredEvent) (entry : SubscriberEntry),
      run (purgingStep plainDeps) (World.init plainDeps (Db.bootstrap 0) true)
        (seedNull (.postCommit 8) ++ [.subscribeInsert 0] ++ commitNull 0 "a" ++ [.send 0]) =
          some s ∧
      purgingStep plainDeps s .firstPass = some s' ∧
      s.channel.receive = some (e, s'.channel) ∧ s.registry.get 1 = some entry ∧
      offersTo s.delivery.offers 1 = [] ∧ startsWith e.streamId "_fossic/" = false ∧
      entry.kind ≠ .synchronous ∧ entry.wants e = true ∧
      entry.cursor e.streamId e.branch < u64AsI64 e.version :=
    ⟨_, _, _, _, rfl, rfl, rfl, rfl, rfl, by decide, SubscriberKind.noConfusion, by decide,
      by decide⟩
  obtain ⟨s, s', e, entry, hrun, hstep, hreceive, hget, hnone, hinternal, hkind, hwants, hlt⟩ := hruns
  obtain ⟨-, -, hfirst, -⟩ := internal_streams_not_delivered plainDeps _ true _ s hrun
  obtain ⟨o, hoffers, ho⟩ := hfirst s' e hstep hreceive hinternal 1 entry hget
  rw [hnone] at hoffers
  exact ⟨s, s', e, o, hreceive, hoffers,
    ho.mpr ⟨hkind, SubscriberEntry.admits_iff.mpr hwants, hlt⟩⟩

/-- Append one event to the system stream, as any caller may. -/
def commitSystem : List Action :=
  [.beginCall 0 [] (.append { streamId := SYSTEM_STREAM, eventType := "a", payload := .null }),
    .commit 0 fun _ => 0, .unlock 0, .send 0]

/-- A subscription for `_fossic/system` that includes system streams and stays healthy
does not get the event, though a whole round of the watcher comes after it. -/
theorem system_subscription_silent : ¬ ∀ (d : Deps) (db : Db) (_ : db.Sane) (sysWriter : Bool)
    (as₀ as₁ as₂ : List Action) (s₀ s₁ s₂ s₃ s₄ : World d) (i id : ℕ) (entry₀ : SubscriberEntry)
    (_ : run (purgingStep d) (World.init d db sysWriter) as₀ = some s₀)
    (_ : Registers s₀ s₁ i id entry₀)
    (_ : globMatches entry₀.streamPattern SYSTEM_STREAM = true) (_ : entry₀.branch = SYSTEM_BRANCH)
    (_ : entry₀.includeSystem = true)
    (_ : run (purgingStep d) s₁ as₁ = some s₂) (_ : purgingStep d s₂ (.scan .start) = some s₃)
    (_ : run (purgingStep d) s₃ as₂ = some s₄) (_ : s₄.delivery.HealthyAt id)
    (_ : ∀ w, s₄.unsent w = []) (_ : s₄.scan = .idle) (_ : s₄.channel.pending = []),
    ∀ r ∈ s₂.db.events, r ∉ s₁.db.events → r.On SYSTEM_STREAM SYSTEM_BRANCH → Queued s₄ id r := by
  intro h
  let as₀ : List Action :=
    [.subscribeSeed { streamPattern := SYSTEM_STREAM, includeSystem := true } (.postCommit 8)]
  let as₂ : List Action := scanRound 1 ++ [.firstPass]
  have hlost := h plainDeps _ (bootstrap_sane 0) true as₀ commitSystem as₂ _ _ _ _ _ 0 1 _ rfl
    ⟨rfl, rfl, _, _, _, _, rfl, rfl⟩ (by decide) rfl rfl rfl rfl rfl
    ⟨_, rfl, rfl, _, _, _, rfl, by decide⟩ ?_ rfl rfl
  · have hmem := (hlost _ List.mem_cons_self List.not_mem_nil ⟨rfl, rfl⟩).mem_accepted
    revert hmem
    decide
  · intro w
    match w with
    | 0 => rfl
    | w + 1 => rfl

end Fossic
