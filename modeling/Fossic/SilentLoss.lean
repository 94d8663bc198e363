/-
Events that a subscription loses without a sign.

`dispatch_post_commit` puts an event into the queue of a subscription, or marks the
subscription degraded and reports it, or, when the consumer thread of the queue is
gone, does nothing.  The thread ends when the handle is dropped, which takes the
entry away, and when the handler panics, which does not.

* `full_of_degraded` — a PostCommit subscription is degraded only by a full queue, and
  has been reported then;
* `no_silent_loss_iff` — no event that is due is lost without a sign exactly when each
  such event finds the consumer of a subscription that is not degraded alive.
-/
import Fossic.SyncDelivery

namespace Fossic

open BoundedChannel KeyedList Transition

/-- The event is one that the dispatcher has for the subscription: it matches, and it
is above the cursor. -/
def SubscriberEntry.Due (entry : SubscriberEntry) (event : StoredEvent) : Prop :=
  entry.kind ≠ .synchronous ∧ entry.covers event.streamId event.branch = true ∧
    entry.cursor event.streamId event.branch < u64AsI64 event.version

/-- The ids that `dispatch_post_commit` has found newly degraded, those included that
it is about to return. -/
def DeliveryState.reported (s : DeliveryState) : List ℕ :=
  s.reports ++ (s.advancing.map Advancing.newlyDegraded).getD []

/-- No event that is due is lost without a sign: it goes to a consumer that is alive, or
the subscription is degraded and reported.  So a subscription that is not degraded
has accepted every event that was due. -/
structure NoSilentLoss (ops : List DeliveryOp) : Prop where
  handled : ∀ as event bs s s', ops = as ++ .firstPass event :: bs →
    run deliveryStep .init as = some s → deliveryStep s (.firstPass event) = some s' →
      ∀ id entry, s.registry.get id = some entry → entry.Due event →
        (entry.Healthy ∧ (entry.dispatch event).2 = .delivered) ∨
          (∃ entry', s'.registry.get id = some entry' ∧ entry'.degraded = true) ∧
            id ∈ s'.reported
  accepted : ∀ as event bs cs s t, ops = (as ++ .firstPass event :: bs) ++ cs →
    run deliveryStep .init as = some s →
      run deliveryStep s (.firstPass event :: bs) = some t →
        ∀ id entry entry', s.registry.get id = some entry → entry.Due event →
          t.registry.get id = some entry' → entry'.degraded = false →
            (event, .delivered) ∈ offersTo t.offers id

/-- Whenever the dispatcher has an event for a subscription that is not degraded, the
consumer thread of its queue is alive. -/
def ConsumerAlive (s : DeliveryState) : DeliveryOp → Prop
  | .firstPass event => s.advancing = none → ∀ id entry, s.registry.get id = some entry →
      entry.Due event → entry.degraded = false → entry.Healthy
  | _ => True

variable {s s' : DeliveryState} {id : ℕ} {op : DeliveryOp} {ops : List DeliveryOp}
  {entry entry' : SubscriberEntry} {event : StoredEvent}

/-! ### One event, one entry -/

theorem SubscriberEntry.Due.wants (h : entry.Due event) (hdegraded : entry.degraded = false) :
    entry.wants event = true := by
  rw [SubscriberEntry.wants, h.2.1, hdegraded]
  rfl

/-- An event that is due is delivered, or fills the queue up, or finds the consumer
gone; the last leaves no trace. -/
theorem SubscriberEntry.Due.dispatch (h : entry.Due event) (hdegraded : entry.degraded = false) :
    (entry.Healthy ∧ (entry.dispatch event).2 = .delivered) ∨
      (entry.Healthy ∧ (entry.dispatch event).2 = .full) ∨
      (¬ entry.Healthy ∧ entry.dispatch event = (entry, .disconnected)) := by
  obtain ⟨-, hskip⟩ | ⟨tx, w, sc, hkind, -, -, hsend⟩ := entry.dispatch_cases event
  · exact absurd (hskip h.1 (h.wants hdegraded)) (not_le.mpr h.2.2)
  · have halive : (tx.trySend event).2 ≠ .disconnected → entry.Healthy := fun hne =>
      ⟨hdegraded, tx, w, sc, hkind, fun hgone => hne (trySend_disconnected_iff.mpr hgone)⟩
    rcases hsend with ⟨hr, hd⟩ | ⟨hr, hd⟩ | ⟨hr, hd⟩
    · exact .inl ⟨halive (by rw [hr]; decide), by rw [hd]⟩
    · exact .inr (.inl ⟨halive (by rw [hr]; decide), by rw [hd]⟩)
    · refine .inr (.inr ⟨?_, hd⟩)
      rintro ⟨-, tx', w', sc', hkind', hreceiver⟩
      obtain ⟨rfl, -, -⟩ := SubscriberKind.postCommit.inj (hkind.symm.trans hkind')
      exact hreceiver (trySend_disconnected_iff.mp hr)

/-! ### What degrades a PostCommit subscription -/

/-- Every degraded PostCommit subscription has met a full queue. -/
def DegradedByFull (s : DeliveryState) : Prop :=
  ∀ id entry, s.registry.get id = some entry → entry.kind ≠ .synchronous →
    entry.degraded = true → 0 < fullCount (offersTo s.offers id)

theorem offers_mono (hstep : deliveryStep s op = some s') (id : ℕ) :
    offersTo s.offers id <+: offersTo s'.offers id := by
  have hsame : s'.offers = s.offers → offersTo s.offers id <+: offersTo s'.offers id :=
    fun h => h ▸ List.prefix_refl _
  cases op with
  | subscribe | unsubscribe | dispatchSync =>
    obtain rfl := Option.some_inj.mp hstep
    exact hsame rfl
  | receiver =>
    obtain ⟨_, -, rfl⟩ := receiver_eq_some.mp hstep
    exact hsame rfl
  | firstPass =>
    obtain ⟨-, rfl⟩ := firstPass_eq_some.mp hstep
    rw [offersTo_append]
    exact List.prefix_append _ _
  | secondPass =>
    obtain ⟨_, -, rfl⟩ := secondPass_eq_some.mp hstep
    exact hsame rfl

theorem fullCount_mono {offers offers' : List (StoredEvent × Outcome)} (h : offers <+: offers') :
    fullCount offers ≤ fullCount offers' :=
  h.sublist.countP_le

theorem degradedByFull_step (h : DegradedByFull s) (hstep : deliveryStep s op = some s') :
    DegradedByFull s' := by
  intro id entry' hget' hkind' hdegraded'
  have hmore := fullCount_mono (offers_mono hstep id)
  cases op with
  | subscribe q mode c sc =>
    obtain rfl := Option.some_inj.mp hstep
    rw [Registry.get_subscribe] at hget'
    split at hget'
    · obtain rfl := Option.some_inj.mp hget'
      exact absurd hdegraded' (by simp [newEntry])
    · exact h id entry' hget' hkind' hdegraded'
  | unsubscribe j =>
    obtain rfl := Option.some_inj.mp hstep
    rw [Registry.get_unsubscribe] at hget'
    split at hget'
    · exact absurd hget' (by simp)
    · exact h id entry' hget' hkind' hdegraded'
  | receiver j step =>
    obtain ⟨reg', hreg, rfl⟩ := receiver_eq_some.mp hstep
    obtain ⟨entry, tx, w, sc, hentry, hkind, tx', -, rfl⟩ := receiverStep_cases hreg
    rw [Registry.get_mapEntries, Option.map_eq_some_iff] at hget'
    obtain ⟨old, hold, rfl⟩ := hget'
    by_cases hj : id = j
    · subst hj
      rw [if_pos rfl] at hdegraded'
      exact h id entry hentry (by rw [hkind]; exact SubscriberKind.noConfusion) hdegraded'
    · rw [if_neg hj] at hkind' hdegraded'
      exact h id old hold hkind' hdegraded'
  | dispatchSync event panics =>
    -- a panicking handler degrades its own, synchronous, subscription
    obtain rfl := Option.some_inj.mp hstep
    rw [get_dispatchSync, Option.map_eq_some_iff] at hget'
    obtain ⟨old, hold, rfl⟩ := hget'
    split at hkind'
    · rename_i hcalled
      obtain ⟨entry, hentry, hkind, -⟩ := mem_syncCalls.mp hcalled.1
      obtain rfl := Option.some_inj.mp (hold.symm.trans hentry)
      exact absurd hkind hkind'
    · rename_i hcalled
      rw [if_neg hcalled] at hdegraded'
      exact h id old hold hkind' hdegraded'
  | firstPass event =>
    obtain ⟨-, rfl⟩ := firstPass_eq_some.mp hstep
    rw [Registry.firstPass, Registry.get_mapEntries, Option.map_eq_some_iff] at hget'
    obtain ⟨old, hold, rfl⟩ := hget'
    obtain ⟨hd, -⟩ | ⟨tx, w, sc, hkind, hwants, -, ⟨-, hd⟩ | ⟨-, hd⟩ | ⟨-, hd⟩⟩ :=
      old.dispatch_cases event
    · rw [hd] at hkind' hdegraded'
      exact (h id old hold hkind' hdegraded').trans_le hmore
    · rw [hd] at hdegraded'
      rw [SubscriberEntry.not_degraded_of_wants hwants] at hdegraded'
      exact absurd hdegraded' (by simp)
    · -- the queue is full: this offer is the one
      rw [offersTo_append, fullCount_append, offersTo_outcomes, hold, Option.map_some, hd,
        Option.toList_some, fullCount_singleton, if_pos rfl]
      exact Nat.succ_pos _
    · rw [hd] at hdegraded'
      rw [SubscriberEntry.not_degraded_of_wants hwants] at hdegraded'
      exact absurd hdegraded' (by simp)
  | secondPass =>
    obtain ⟨a, -, rfl⟩ := secondPass_eq_some.mp hstep
    rw [Registry.secondPass, Registry.get_mapEntries, Option.map_eq_some_iff] at hget'
    obtain ⟨old, hold, rfl⟩ := hget'
    split at hkind'
    · rename_i hmem
      rw [if_pos hmem, SubscriberEntry.degraded_advance] at hdegraded'
      refine h id old hold (fun hsync => hkind' ?_) hdegraded'
      rw [SubscriberEntry.advance, hsync]
      exact hsync
    · rename_i hmem
      rw [if_neg hmem] at hdegraded'
      exact h id old hold hkind' hdegraded'

theorem full_of_degraded (hrun : run deliveryStep .init ops = some s) : DegradedByFull s :=
  run_invariant_all (fun _ _ _ => degradedByFull_step) (fun _ _ h => absurd h (by
    simp [DeliveryState.init, Registry.get, Registry.new, find])) hrun

/-- A degraded PostCommit subscription has been reported. -/
theorem reported_of_degraded (hrun : run deliveryStep .init ops = some s)
    (hget : s.registry.get id = some entry) (hkind : entry.kind ≠ .synchronous)
    (hdegraded : entry.degraded = true) : id ∈ s.reported := by
  have hcount := (deliveryInv_run hrun).reported id
  have hpos := full_of_degraded hrun id entry hget hkind hdegraded
  rw [← hcount] at hpos
  exact List.count_pos_iff.mp hpos

/-! ### Silent loss -/

theorem reported_firstPass (hstep : deliveryStep s (.firstPass event) = some s')
    (hget : s.registry.get id = some entry) (hfull : (entry.dispatch event).2 = .full) :
    id ∈ s'.reported := by
  obtain ⟨-, rfl⟩ := firstPass_eq_some.mp hstep
  exact List.mem_append_right _ (mem_idsWith.mpr ⟨entry, hget, hfull⟩)

theorem get_of_firstPass (hstep : deliveryStep s (.firstPass event) = some s')
    (hget : s.registry.get id = some entry) :
    s'.registry.get id = some (entry.dispatch event).1 := by
  obtain ⟨-, rfl⟩ := firstPass_eq_some.mp hstep
  rw [Registry.firstPass, Registry.get_mapEntries, hget]
  rfl

/-- A pass that finds a due event's consumer alive leaves a trace. -/
theorem handled_of_alive (hrun : run deliveryStep .init ops = some s)
    (hstep : deliveryStep s (.firstPass event) = some s') (hget : s.registry.get id = some entry)
    (hdue : entry.Due event) (halive : entry.degraded = false → entry.Healthy) :
    (entry.Healthy ∧ (entry.dispatch event).2 = .delivered) ∨
      (∃ entry', s'.registry.get id = some entry' ∧ entry'.degraded = true) ∧ id ∈ s'.reported := by
  have hget' := get_of_firstPass hstep hget
  by_cases hdegraded : entry.degraded = true
  · rw [SubscriberEntry.dispatch_degraded hdegraded] at hget'
    have hrun' : run deliveryStep .init (ops ++ [.firstPass event]) = some s' :=
      run_append.mpr ⟨s, hrun, run_cons.mpr ⟨s', hstep, rfl⟩⟩
    exact .inr ⟨⟨entry, hget', hdegraded⟩, reported_of_degraded hrun' hget' hdue.1 hdegraded⟩
  · rw [Bool.not_eq_true] at hdegraded
    rcases hdue.dispatch hdegraded with hdone | ⟨-, hfull⟩ | ⟨hdead, -⟩
    · exact .inl hdone
    · exact .inr ⟨⟨_, hget', (SubscriberEntry.dispatch_full hfull).2⟩,
        reported_firstPass hstep hget hfull⟩
    · exact absurd (halive hdegraded) hdead

/-- A subscription that meets a full queue is degraded from then on. -/
theorem degraded_of_full {t : DeliveryState} (hrun : run deliveryStep .init ops = some t)
    (hget : t.registry.get id = some entry') (hfull : 0 < fullCount (offersTo t.offers id)) :
    entry'.degraded = true := by
  have hinv := deliveryInv_run hrun
  rcases hreg : find t.registered id with _ | entry₀
  · exact absurd ((hinv.unknown id hreg).1.symm.trans hget) (by simp)
  · exact (hinv.tracked id entry₀ hreg).sticky entry' hget hfull

theorem offers_run {t : DeliveryState} (hrun : run deliveryStep s ops = some t) (id : ℕ) :
    offersTo s.offers id <+: offersTo t.offers id :=
  run_invariant_all (I := fun t => offersTo s.offers id <+: offersTo t.offers id)
    (fun _ _ _ h hstep => h.trans (offers_mono hstep id)) (List.prefix_refl _) hrun

/-- The pass of an event records its offer to each subscription. -/
theorem offer_firstPass (hstep : deliveryStep s (.firstPass event) = some s')
    (hget : s.registry.get id = some entry) :
    (event, (entry.dispatch event).2) ∈ offersTo s'.offers id := by
  obtain ⟨-, rfl⟩ := firstPass_eq_some.mp hstep
  rw [offersTo_append, offersTo_outcomes, hget]
  exact List.mem_append_right _ (List.mem_singleton.mpr rfl)

/-- **When nothing is lost without a sign**: in every run, whatever the handlers do,
each due event is accepted by a living consumer or the subscription is degraded and
reported, and a subscription that is not degraded has accepted all of them, exactly
when every due event finds the consumer of its undegraded subscription alive. -/
theorem no_silent_loss_iff (ops : List DeliveryOp) :
    NoSilentLoss ops ↔ Along deliveryStep ConsumerAlive .init ops := by
  constructor
  · intro h
    rw [along_iff]
    intro as op bs s hops hrun
    cases op with
    | firstPass event =>
      intro hadv id entry hget hdue hdegraded
      obtain ⟨s', hstep⟩ : ∃ s', deliveryStep s (.firstPass event) = some s' :=
        ⟨_, firstPass_eq_some.mpr ⟨hadv, rfl⟩⟩
      rcases h.handled as event bs s s' hops hrun hstep id entry hget hdue with hdone |
        ⟨⟨entry', hget', hdegraded'⟩, -⟩
      · exact hdone.1
      · obtain rfl := Option.some_inj.mp ((get_of_firstPass hstep hget).symm.trans hget')
        rcases hdue.dispatch hdegraded with ⟨halive, -⟩ | ⟨halive, -⟩ | ⟨-, hd⟩
        · exact halive
        · exact halive
        · -- the consumer is gone, and the entry is as it was
          rw [hd] at hdegraded'
          exact absurd (hdegraded.symm.trans hdegraded') (by simp)
    | _ => trivial
  · intro h
    have halive : ∀ as event bs s, ops = as ++ .firstPass event :: bs →
        run deliveryStep .init as = some s → ∀ s', deliveryStep s (.firstPass event) = some s' →
          ∀ id entry, s.registry.get id = some entry → entry.Due event →
            entry.degraded = false → entry.Healthy := by
      intro as event bs s hops hrun s' hstep
      exact along_iff.mp h as (.firstPass event) bs s hops hrun (firstPass_eq_some.mp hstep).1
    constructor
    · intro as event bs s s' hops hrun hstep id entry hget hdue
      exact handled_of_alive hrun hstep hget hdue (halive as event bs s hops hrun s' hstep id entry
        hget hdue)
    · intro as event bs cs s t hops hrun hrest id entry entry' hget hdue hget' hdegraded'
      obtain ⟨s', hstep, hlater⟩ := run_cons.mp hrest
      have hall : run deliveryStep .init (as ++ .firstPass event :: bs) = some t :=
        run_append.mpr ⟨s, hrun, hrest⟩
      have hops' : ops = as ++ .firstPass event :: (bs ++ cs) := by rw [hops, List.append_assoc]; rfl
      have hoffer := (offers_run hlater id).subset (offer_firstPass hstep hget)
      have hopen : entry.degraded = false := by
        by_contra hdegraded
        rw [Bool.not_eq_false] at hdegraded
        have hfull := full_of_degraded hrun id entry hget hdue.1 hdegraded
        have hlater := hfull.trans_le (fullCount_mono (offers_run hrest id))
        exact absurd ((degraded_of_full hall hget' hlater).symm.trans hdegraded') (by simp)
      rcases hdue.dispatch hopen with ⟨-, hd⟩ | ⟨-, hd⟩ | ⟨hdead, -⟩
      · rw [hd] at hoffer
        exact hoffer
      · -- a full queue would show
        rw [hd] at hoffer
        have hpos : 0 < fullCount (offersTo t.offers id) :=
          List.countP_pos_iff.mpr ⟨_, hoffer, by simp⟩
        exact absurd ((degraded_of_full hall hget' hpos).symm.trans hdegraded') (by simp)
      · exact absurd (halive as event (bs ++ cs) s hops' hrun s' hstep id entry hget hdue hopen) hdead

/-- The handler panics on the first event: the second one is dropped, and the
subscription is not degraded. -/
theorem lost_after_panic : ¬ ∀ ops, NoSilentLoss ops := by
  intro h
  have hlost := (h ([.subscribe { streamPattern := "s" } (.postCommit 8) (-1) [],
    .receiver 1 .finish, .firstPass (nullEvent 0), .secondPass, .receiver 1 .receive,
    .receiver 1 .stop] ++ [.firstPass (nullEvent 1)])).handled _ (nullEvent 1) [] _ _ rfl rfl rfl
      1 _ rfl ⟨SubscriberKind.noConfusion, by decide, by decide⟩
  rcases hlost with ⟨-, hdelivered⟩ | ⟨⟨entry', hget', hdegraded'⟩, -⟩
  · exact absurd hdelivered (by decide)
  · obtain rfl := Option.some_inj.mp hget'
    exact absurd hdegraded' (by decide)

end Fossic
