/-
Delivery to PostCommit subscriptions over a whole run.

`deliveryStep` is the registry as its callers drive it: subscriptions come and go,
handler threads drain their queues or end, synchronous dispatches mark entries
degraded, and one dispatcher thread calls `dispatch_post_commit`, whose two passes
are separate steps.  The state records every offer of an event to an entry, with its
outcome, every id that a finished call has returned as newly degraded, and
every entry as it was registered.

* `Tracked` — the invariant of one subscription;
* `deliveryInv_step` — a step keeps it, operation by operation;
* `delivery_at_most_once` — versions put in a queue increase above the seeded
  cursor, a full queue is final and reported once, and it concerns nobody else.
-/
import Fossic.Subscriptions
import Fossic.Transition

namespace Fossic

open BoundedChannel KeyedList Transition

/-! ### The machine -/

inductive DeliveryOp
  | subscribe (q : SubscribeQuery) (mode : SubscriptionMode) (initialCursor : ℤ)
      (initialStreamCursors : StreamCursors)
  | unsubscribe (id : ℕ)
  | receiver (id : ℕ) (step : ReceiverStep)
  | dispatchSync (event : StoredEvent) (panics : ℕ → Bool)
  | firstPass (event : StoredEvent)
  | secondPass

/-- Between its passes the dispatcher holds the event, the ids that took it and the
ids that it will return. -/
structure Advancing where
  event : StoredEvent
  delivered : List ℕ
  newlyDegraded : List ℕ

structure DeliveryState where
  registry : Registry
  advancing : Option Advancing
  /-- Every offer of an event to an entry, with its outcome. -/
  offers : List (ℕ × StoredEvent × Outcome)
  /-- The ids returned by the calls of `dispatch_post_commit` so far. -/
  reports : List ℕ
  /-- Every entry as it was registered. -/
  registered : List (ℕ × SubscriberEntry)

def DeliveryState.init : DeliveryState := ⟨.new, none, [], [], []⟩

def deliveryStep (s : DeliveryState) : DeliveryOp → Option DeliveryState
  | .subscribe q mode initialCursor initialStreamCursors => some
    { s with
      registry := s.registry.subscribe q mode initialCursor initialStreamCursors
      registered := s.registered ++
        [(s.registry.nextId, newEntry q mode initialCursor initialStreamCursors)] }
  | .unsubscribe id => some { s with registry := s.registry.unsubscribe id }
  | .receiver id step =>
    (s.registry.receiverStep id step).map fun registry => { s with registry := registry }
  | .dispatchSync event panics => some
    { s with registry := (s.registry.dispatchSync event panics).1 }
  | .firstPass event =>
    match s.advancing with
    | some _ => none
    | none => some
      { s with
        registry := s.registry.firstPass event
        advancing := some ⟨event, idsWith .delivered (s.registry.outcomes event),
          idsWith .full (s.registry.outcomes event)⟩
        offers := s.offers ++ (s.registry.outcomes event).map fun p => (p.1, event, p.2) }
  | .secondPass =>
    s.advancing.map fun a =>
      { s with
        registry := s.registry.secondPass a.event a.delivered
        advancing := none
        reports := s.reports ++ a.newlyDegraded }

section Steps

variable {s s' : DeliveryState} {id : ℕ} {step : ReceiverStep} {event : StoredEvent}

theorem receiver_eq_some : deliveryStep s (.receiver id step) = some s' ↔
    ∃ registry, s.registry.receiverStep id step = some registry ∧
      { s with registry := registry } = s' :=
  Option.map_eq_some_iff

theorem firstPass_eq_some : deliveryStep s (.firstPass event) = some s' ↔
    s.advancing = none ∧
      { s with
        registry := s.registry.firstPass event
        advancing := some ⟨event, idsWith .delivered (s.registry.outcomes event),
          idsWith .full (s.registry.outcomes event)⟩
        offers := s.offers ++ (s.registry.outcomes event).map fun p => (p.1, event, p.2) } = s' := by
  rw [deliveryStep]
  split
  · rename_i hadv
    simp [hadv]
  · rename_i hadv
    simp [hadv]

theorem secondPass_eq_some : deliveryStep s .secondPass = some s' ↔
    ∃ a, s.advancing = some a ∧
      { s with
        registry := s.registry.secondPass a.event a.delivered
        advancing := none
        reports := s.reports ++ a.newlyDegraded } = s' :=
  Option.map_eq_some_iff

end Steps

/-! ### One subscription's share -/

/-- The offers made to one subscription. -/
def offersTo (offers : List (ℕ × StoredEvent × Outcome)) (id : ℕ) : List (StoredEvent × Outcome) :=
  (offers.filter fun o => o.1 = id).map Prod.snd

/-- The versions of a stream and branch that were put in its queue. -/
def acceptedVersions (offers : List (StoredEvent × Outcome)) (streamId branch : String) :
    List UInt64 :=
  (offers.filter fun o => o.2 = .delivered && o.1.streamId = streamId && o.1.branch = branch).map
    fun o => o.1.version

/-- The failed sends because of a full queue. -/
def fullCount (offers : List (StoredEvent × Outcome)) : ℕ := offers.countP fun o => o.2 = .full

theorem offersTo_append {offers offers' : List (ℕ × StoredEvent × Outcome)} {id : ℕ} :
    offersTo (offers ++ offers') id = offersTo offers id ++ offersTo offers' id := by
  rw [offersTo, List.filter_append, List.map_append]
  rfl

variable {reg : Registry} {event : StoredEvent} {id : ℕ} {o : Outcome}

theorem filter_outcomes : ((reg.outcomes event).filter fun p => p.1 = id) =
    ((reg.get id).map fun entry => (id, (entry.dispatch event).2)).toList := by
  rw [Registry.outcomes, List.filter_map]
  have hkey : (reg.entries.filter ((fun p : ℕ × Outcome => decide (p.1 = id)) ∘
      fun p => (p.1, (p.2.dispatch event).2))) = reg.entries.filter fun p => p.1 = id := rfl
  rw [hkey, filter_key reg.distinct, Registry.get]
  cases find reg.entries id <;> rfl

/-- One event makes one offer to each registered entry. -/
theorem offersTo_outcomes : offersTo ((reg.outcomes event).map fun p => (p.1, event, p.2)) id =
    ((reg.get id).map fun entry => (event, (entry.dispatch event).2)).toList := by
  have hfilter := congrArg (List.map fun p => (event, p.2)) (@filter_outcomes reg event id)
  rw [offersTo, List.filter_map, List.map_map]
  refine Eq.trans hfilter ?_
  cases reg.get id <;> rfl

theorem mem_idsWith : id ∈ idsWith o (reg.outcomes event) ↔
    ∃ entry, reg.get id = some entry ∧ (entry.dispatch event).2 = o := by
  have hmem : id ∈ idsWith o (reg.outcomes event) ↔ (id, o) ∈ reg.outcomes event := by
    rw [idsWith, List.mem_map]
    constructor
    · rintro ⟨p, hp, rfl⟩
      obtain ⟨hmem, ho⟩ := List.mem_filter.mp hp
      exact of_decide_eq_true ho ▸ hmem
    · exact fun h => ⟨(id, o), List.mem_filter.mpr ⟨h, by simp⟩, rfl⟩
  rw [hmem, Registry.outcomes, List.mem_map]
  constructor
  · rintro ⟨p, hp, heq⟩
    obtain ⟨rfl, rfl⟩ := Prod.mk.inj heq
    exact ⟨p.2, find_of_mem reg.distinct hp, rfl⟩
  · rintro ⟨entry, hget, rfl⟩
    exact ⟨(id, entry), mem_of_find hget, rfl⟩

theorem acceptedVersions_append {offers offers' : List (StoredEvent × Outcome)}
    {streamId branch : String} : acceptedVersions (offers ++ offers') streamId branch =
      acceptedVersions offers streamId branch ++ acceptedVersions offers' streamId branch := by
  rw [acceptedVersions, List.filter_append, List.map_append]
  rfl

theorem acceptedVersions_of_ne {event : StoredEvent} {o : Outcome} {streamId branch : String}
    (h : o ≠ .delivered) : acceptedVersions [(event, o)] streamId branch = [] := by
  simp [acceptedVersions, h]

theorem mem_acceptedVersions_singleton {event : StoredEvent} {o : Outcome}
    {streamId branch : String} {v : UInt64} :
    v ∈ acceptedVersions [(event, o)] streamId branch ↔
      o = .delivered ∧ event.streamId = streamId ∧ event.branch = branch ∧ event.version = v := by
  by_cases h : o = .delivered ∧ event.streamId = streamId ∧ event.branch = branch
  · obtain ⟨rfl, rfl, rfl⟩ := h
    simp [acceptedVersions, eq_comm]
  · rw [acceptedVersions, List.filter_cons_of_neg]
    · simp only [List.filter_nil, List.map_nil, List.not_mem_nil, false_iff]
      exact fun h' => h ⟨h'.1, h'.2.1, h'.2.2.1⟩
    · simpa [and_assoc] using h

theorem fullCount_append {offers offers' : List (StoredEvent × Outcome)} :
    fullCount (offers ++ offers') = fullCount offers + fullCount offers' :=
  List.countP_append

theorem fullCount_singleton : fullCount [(event, o)] = if o = .full then 1 else 0 := by
  by_cases h : o = .full <;> simp [fullCount, h]

/-- Each entry that a call fills up is returned once. -/
theorem count_idsWith_full : (idsWith .full (reg.outcomes event)).count id =
    fullCount (offersTo ((reg.outcomes event).map fun p => (p.1, event, p.2)) id) := by
  have hnd : (idsWith .full (reg.outcomes event)).Nodup := by
    have hkeys : ((reg.outcomes event).map Prod.fst).Nodup := by
      rw [Registry.outcomes, List.map_map]
      exact reg.distinct
    exact hkeys.sublist (List.filter_sublist.map _)
  rw [offersTo_outcomes, hnd.count]
  rcases hget : reg.get id with _ | entry
  · rw [if_neg]
    · rfl
    · rw [mem_idsWith, hget]
      rintro ⟨entry, h, -⟩
      exact absurd h (by simp)
  · rw [Option.map_some, Option.toList_some, fullCount_singleton]
    refine if_congr ?_ rfl rfl
    rw [mem_idsWith, hget]
    constructor
    · rintro ⟨_, h, ho⟩
      rwa [Option.some_inj.mp h]
    · exact fun ho => ⟨entry, rfl, ho⟩

/-! ### The invariant of one subscription -/

/-- The dispatcher is between its passes, about to advance the subscription's cursor
to `v`. -/
def DeliveryState.Pending (s : DeliveryState) (id : ℕ) (streamId branch : String) (v : UInt64) :
    Prop :=
  ∃ a, s.advancing = some a ∧ id ∈ a.delivered ∧ a.event.streamId = streamId ∧
    a.event.branch = branch ∧ a.event.version = v

/-- What has happened to the subscription `id`, registered as `entry₀`. -/
structure Tracked (s : DeliveryState) (id : ℕ) (entry₀ : SubscriberEntry) : Prop where
  increasing : ∀ streamId branch, (acceptedVersions (offersTo s.offers id) streamId branch).Pairwise
    fun v w => u64AsI64 v < u64AsI64 w
  above : ∀ streamId branch, ∀ v ∈ acceptedVersions (offersTo s.offers id) streamId branch,
    entry₀.cursor streamId branch < u64AsI64 v
  current : ∀ entry, s.registry.get id = some entry → ∀ streamId branch,
    entry₀.cursor streamId branch ≤ entry.cursor streamId branch ∧
      ∀ v ∈ acceptedVersions (offersTo s.offers id) streamId branch,
        u64AsI64 v ≤ entry.cursor streamId branch ∨
          entry.kind ≠ .synchronous ∧ s.Pending id streamId branch v
  sticky : ∀ entry, s.registry.get id = some entry → 0 < fullCount (offersTo s.offers id) →
    entry.degraded = true
  silent : (offersTo s.offers id).Pairwise fun a b => a.2 = .full → b.2 ≠ .delivered
  once : fullCount (offersTo s.offers id) ≤ 1

variable {s s' : DeliveryState} {entry₀ : SubscriberEntry}

/-- Steps that make no offers and, at the subscription, move no cursor and clear no
flag. -/
theorem tracked_of_same (h : Tracked s id entry₀) (hoffers : s'.offers = s.offers)
    (hadv : s'.advancing = s.advancing)
    (hentry : ∀ entry', s'.registry.get id = some entry' → ∃ entry, s.registry.get id = some entry ∧
      (∀ streamId branch, entry'.cursor streamId branch = entry.cursor streamId branch) ∧
      (entry.kind ≠ .synchronous → entry'.kind ≠ .synchronous) ∧
      (entry.degraded = true → entry'.degraded = true)) : Tracked s' id entry₀ where
  increasing := by rw [hoffers]; exact h.increasing
  above := by rw [hoffers]; exact h.above
  current := by
    intro entry' hget streamId branch
    obtain ⟨entry, hget, hcursor, hkind, -⟩ := hentry entry' hget
    simp only [hoffers, hcursor, DeliveryState.Pending, hadv]
    obtain ⟨hstart, haccepted⟩ := h.current entry hget streamId branch
    exact ⟨hstart, fun v hv => (haccepted v hv).imp_right fun hp => ⟨hkind hp.1, hp.2⟩⟩
  sticky := by
    intro entry' hget hfull
    obtain ⟨entry, hget, -, -, hdegraded⟩ := hentry entry' hget
    rw [hoffers] at hfull
    exact hdegraded (h.sticky entry hget hfull)
  silent := by rw [hoffers]; exact h.silent
  once := by rw [hoffers]; exact h.once

/-- A pass makes no offer to a subscription that is gone. -/
theorem tracked_firstPass_of_gone (h : Tracked s id entry₀) (hget : s.registry.get id = none)
    (hoffers : s'.offers = s.offers ++ (s.registry.outcomes event).map fun p => (p.1, event, p.2))
    (hregistry : s'.registry = s.registry.firstPass event) : Tracked s' id entry₀ := by
  have hsame : offersTo s'.offers id = offersTo s.offers id := by
    rw [hoffers, offersTo_append, offersTo_outcomes, hget]
    exact List.append_nil _
  have hgone : s'.registry.get id = none := by
    rw [hregistry, Registry.firstPass, Registry.get_mapEntries, hget]
    rfl
  refine ⟨?_, ?_, ?_, ?_, ?_, ?_⟩
  · rw [hsame]
    exact h.increasing
  · rw [hsame]
    exact h.above
  · intro entry hentry
    exact absurd (hgone.symm.trans hentry) (by simp)
  · intro entry hentry
    exact absurd (hgone.symm.trans hentry) (by simp)
  · rw [hsame]
    exact h.silent
  · rw [hsame]
    exact h.once

/-- The pass that offers the event. -/
theorem tracked_firstPass (h : Tracked s id entry₀)
    (hstep : deliveryStep s (.firstPass event) = some s') : Tracked s' id entry₀ := by
  obtain ⟨hadv, rfl⟩ := firstPass_eq_some.mp hstep
  rcases hget : s.registry.get id with _ | entry
  · exact tracked_firstPass_of_gone h hget rfl rfl
  · obtain ⟨o, ho⟩ : ∃ o, (entry.dispatch event).2 = o := ⟨_, rfl⟩
    have hnew : offersTo ((s.registry.outcomes event).map fun p => (p.1, event, p.2)) id
        = [(event, o)] := by
      rw [offersTo_outcomes, hget, ← ho]
      rfl
    have hentry : (s.registry.firstPass event).get id = some (entry.dispatch event).1 := by
      rw [Registry.firstPass, Registry.get_mapEntries, hget]
      rfl
    -- nothing was pending, so the cursor is above everything accepted
    have hcursor : ∀ streamId branch,
        ∀ v ∈ acceptedVersions (offersTo s.offers id) streamId branch,
          u64AsI64 v ≤ entry.cursor streamId branch := by
      intro streamId branch v hv
      rcases (h.current entry hget streamId branch).2 v hv with hle | ⟨-, a, ha, -⟩
      · exact hle
      · exact absurd (hadv.symm.trans ha) (by simp)
    have hnever : entry.degraded = false → fullCount (offersTo s.offers id) = 0 := by
      intro hd
      refine Nat.eq_zero_of_not_pos fun hpos => ?_
      exact Bool.false_ne_true (hd.symm.trans (h.sticky entry hget hpos))
    -- a delivery is above the cursor and to an entry that was never full
    have hdelivered : o = .delivered →
        entry.cursor event.streamId event.branch < u64AsI64 event.version ∧
          fullCount (offersTo s.offers id) = 0 ∧ (entry.dispatch event).1.kind ≠ .synchronous := by
      intro hd
      obtain ⟨hgood, hkind, hlt⟩ := SubscriberEntry.dispatch_delivered (ho.trans hd)
      exact ⟨hlt, hnever hgood, hkind⟩
    have hfull : o = .full → fullCount (offersTo s.offers id) = 0 ∧
        (entry.dispatch event).1.degraded = true := by
      intro hf
      obtain ⟨hgood, hdegraded⟩ := SubscriberEntry.dispatch_full (ho.trans hf)
      exact ⟨hnever hgood, hdegraded⟩
    refine ⟨?_, ?_, ?_, ?_, ?_, ?_⟩
    · intro streamId branch
      rw [offersTo_append, hnew, acceptedVersions_append, List.pairwise_append]
      refine ⟨h.increasing streamId branch, ?_, ?_⟩
      · by_cases hd : o = .delivered
        · refine List.Pairwise.sublist (List.filter_sublist.map _) (List.pairwise_singleton _ _)
        · rw [acceptedVersions_of_ne hd]
          exact .nil
      · intro v hv w hw
        obtain ⟨hd, rfl, rfl, rfl⟩ := mem_acceptedVersions_singleton.mp hw
        exact (hcursor _ _ v hv).trans_lt (hdelivered hd).1
    · intro streamId branch v hv
      rw [offersTo_append, hnew, acceptedVersions_append] at hv
      rcases List.mem_append.mp hv with hv | hv
      · exact h.above streamId branch v hv
      · obtain ⟨hd, rfl, rfl, rfl⟩ := mem_acceptedVersions_singleton.mp hv
        exact (h.current entry hget _ _).1.trans_lt (hdelivered hd).1
    · intro entry' hentry' streamId branch
      obtain rfl := Option.some_inj.mp (hentry.symm.trans hentry')
      rw [SubscriberEntry.cursor_dispatch, offersTo_append, hnew, acceptedVersions_append]
      refine ⟨(h.current entry hget streamId branch).1, fun v hv => ?_⟩
      rcases List.mem_append.mp hv with hv | hv
      · exact .inl (hcursor streamId branch v hv)
      · obtain ⟨hd, hs, hb, hv⟩ := mem_acceptedVersions_singleton.mp hv
        refine .inr ⟨?_, _, rfl, mem_idsWith.mpr ⟨entry, hget, ho.trans hd⟩, hs, hb, hv⟩
        exact (hdelivered hd).2.2
    · intro entry' hentry' hpos
      obtain rfl := Option.some_inj.mp (hentry.symm.trans hentry')
      rw [offersTo_append, hnew, fullCount_append, fullCount_singleton] at hpos
      by_cases hf : o = .full
      · exact (hfull hf).2
      · rw [if_neg hf, Nat.add_zero] at hpos
        have hdegraded := h.sticky entry hget hpos
        rw [SubscriberEntry.dispatch_degraded hdegraded]
        exact hdegraded
    · rw [offersTo_append, hnew, List.pairwise_append]
      refine ⟨h.silent, List.pairwise_singleton _ _, ?_⟩
      intro x hx y hy hfx hdy
      obtain rfl := List.mem_singleton.mp hy
      have hpos : 0 < fullCount (offersTo s.offers id) :=
        List.countP_pos_iff.mpr ⟨x, hx, by simp [hfx]⟩
      exact absurd (hdelivered hdy).2.1 hpos.ne'
    · rw [offersTo_append, hnew, fullCount_append, fullCount_singleton]
      by_cases hf : o = .full
      · rw [if_pos hf, (hfull hf).1]
      · rw [if_neg hf]
        exact h.once

/-- The pass that moves the cursors. -/
theorem tracked_secondPass (h : Tracked s id entry₀)
    (hstep : deliveryStep s .secondPass = some s') : Tracked s' id entry₀ := by
  obtain ⟨a, hadv, rfl⟩ := secondPass_eq_some.mp hstep
  refine ⟨h.increasing, h.above, ?_, ?_, h.silent, h.once⟩
  · intro entry' hentry' streamId branch
    rw [Registry.secondPass, Registry.get_mapEntries, Option.map_eq_some_iff] at hentry'
    obtain ⟨entry, hget, rfl⟩ := hentry'
    obtain ⟨hstart, haccepted⟩ := h.current entry hget streamId branch
    by_cases hid : id ∈ a.delivered
    · rw [if_pos hid]
      refine ⟨hstart.trans SubscriberEntry.cursor_le_advance, fun v hv => .inl ?_⟩
      rcases haccepted v hv with hle | ⟨hkind, a', ha', -, rfl, rfl, rfl⟩
      · exact hle.trans SubscriberEntry.cursor_le_advance
      · -- the pending version is what the cursor moves to
        obtain rfl := Option.some_inj.mp (hadv.symm.trans ha')
        rw [SubscriberEntry.cursor_advance hkind, if_neg fun hne => hne.2 rfl]
        exact le_max_right _ _
    · rw [if_neg hid]
      refine ⟨hstart, fun v hv => .inl ?_⟩
      rcases haccepted v hv with hle | ⟨-, a', ha', hmem, -⟩
      · exact hle
      · obtain rfl := Option.some_inj.mp (hadv.symm.trans ha')
        exact absurd hmem hid
  · intro entry' hentry' hpos
    rw [Registry.secondPass, Registry.get_mapEntries, Option.map_eq_some_iff] at hentry'
    obtain ⟨entry, hget, rfl⟩ := hentry'
    have hdegraded := h.sticky entry hget hpos
    split
    · rw [SubscriberEntry.degraded_advance]
      exact hdegraded
    · exact hdegraded

/-! ### Every subscription over a run -/

/-- The subscription's cursors are those that `Store::subscribe` reads from tables
whose versions count from 0. -/
def DeliveryOp.Seeded : DeliveryOp → Prop
  | .subscribe q _ c sc => ∃ db : Db, (∀ r ∈ db.events, 0 ≤ r.version) ∧ seedCursors db q = (c, sc)
  | _ => True

structure DeliveryInv (s : DeliveryState) : Prop where
  fresh : ∀ id, s.registry.nextId ≤ id → find s.registered id = none
  unknown : ∀ id, find s.registered id = none →
    s.registry.get id = none ∧ offersTo s.offers id = []
  tracked : ∀ id entry₀, find s.registered id = some entry₀ → Tracked s id entry₀
  reported : ∀ id, (s.reports ++ (s.advancing.map Advancing.newlyDegraded).getD []).count id =
    fullCount (offersTo s.offers id)

/-- Steps that make no offers, register nothing and leave the dispatcher alone. -/
theorem deliveryInv_of_same (h : DeliveryInv s) (hoffers : s'.offers = s.offers)
    (hadv : s'.advancing = s.advancing) (hreports : s'.reports = s.reports)
    (hregistered : s'.registered = s.registered) (hnext : s'.registry.nextId = s.registry.nextId)
    (hentry : ∀ id entry', s'.registry.get id = some entry' →
      ∃ entry, s.registry.get id = some entry ∧
        (∀ streamId branch, entry'.cursor streamId branch = entry.cursor streamId branch) ∧
        (entry.kind ≠ .synchronous → entry'.kind ≠ .synchronous) ∧
        (entry.degraded = true → entry'.degraded = true)) : DeliveryInv s' where
  fresh := by rw [hregistered, hnext]; exact h.fresh
  unknown := by
    intro id hid
    rw [hregistered] at hid
    obtain ⟨hget, hnone⟩ := h.unknown id hid
    refine ⟨?_, by rw [hoffers]; exact hnone⟩
    rcases hget' : s'.registry.get id with _ | entry'
    · rfl
    · obtain ⟨entry, hsome, -⟩ := hentry id entry' hget'
      exact absurd (hget.symm.trans hsome) (by simp)
  tracked := by
    intro id entry₀ hid
    rw [hregistered] at hid
    exact tracked_of_same (h.tracked id entry₀ hid) hoffers hadv (hentry id)
  reported := by rw [hreports, hadv, hoffers]; exact h.reported

theorem cursor_of_kind {entry entry' : SubscriberEntry} (hkind : entry'.kind = entry.kind)
    (hpattern : entry'.streamPattern = entry.streamPattern) (streamId branch : String) :
    entry'.cursor streamId branch = entry.cursor streamId branch := by
  rw [SubscriberEntry.cursor, SubscriberEntry.cursor, hkind, hpattern]

theorem deliveryInv_subscribe {q : SubscribeQuery} {mode : SubscriptionMode} {c : ℤ}
    {sc : StreamCursors} (h : DeliveryInv s)
    (hstep : deliveryStep s (.subscribe q mode c sc) = some s') : DeliveryInv s' := by
  obtain rfl := Option.some_inj.mp hstep
  have hnew : find s.registered s.registry.nextId = none := h.fresh _ le_rfl
  refine ⟨?_, ?_, ?_, h.reported⟩
  · intro id hid
    have hlt : s.registry.nextId < id := hid
    rw [find_append, if_neg hlt.ne, Option.or_none]
    exact h.fresh id hlt.le
  · intro id hid
    rw [find_append, Option.or_eq_none_iff] at hid
    obtain ⟨hget, hoffers⟩ := h.unknown id hid.1
    refine ⟨?_, hoffers⟩
    have hne : s.registry.nextId ≠ id := fun heq => by simp [heq] at hid
    rw [Registry.get_subscribe, if_neg hne]
    exact hget
  · intro id entry₀ hid
    rw [find_append, Option.or_eq_some_iff] at hid
    rcases hid with hid | ⟨hnone, hid⟩
    · -- an older subscription
      have hne : s.registry.nextId ≠ id := fun heq => by simp [← heq, hnew] at hid
      refine tracked_of_same (h.tracked id entry₀ hid) rfl rfl fun entry' hget => ?_
      rw [Registry.get_subscribe, if_neg hne] at hget
      exact ⟨entry', hget, fun _ _ => rfl, fun hk => hk, fun hd => hd⟩
    · -- the new one has been offered nothing
      have hoffers := (h.unknown id hnone).2
      split at hid
      · rename_i heq
        obtain rfl := Option.some_inj.mp hid
        subst heq
        refine ⟨?_, ?_, ?_, ?_, ?_, ?_⟩ <;> simp only [hoffers]
        · exact fun _ _ => .nil
        · exact fun _ _ _ hv => absurd hv List.not_mem_nil
        · intro entry hget streamId branch
          rw [Registry.get_subscribe, if_pos rfl] at hget
          obtain rfl := Option.some_inj.mp hget
          exact ⟨le_rfl, fun _ hv => absurd hv List.not_mem_nil⟩
        · exact fun _ _ hpos => absurd hpos (lt_irrefl _)
        · exact .nil
        · exact Nat.zero_le _
      · exact absurd hid (by simp)

theorem deliveryInv_firstPass (h : DeliveryInv s)
    (hstep : deliveryStep s (.firstPass event) = some s') : DeliveryInv s' := by
  have htracked := fun id entry₀ hid => tracked_firstPass (h.tracked id entry₀ hid) hstep
  obtain ⟨hadv, rfl⟩ := firstPass_eq_some.mp hstep
  refine ⟨h.fresh, ?_, htracked, ?_⟩
  · intro id hid
    obtain ⟨hget, hoffers⟩ := h.unknown id hid
    refine ⟨?_, ?_⟩
    · rw [Registry.firstPass, Registry.get_mapEntries, hget]
      rfl
    · rw [offersTo_append, hoffers, offersTo_outcomes, hget]
      rfl
  · -- each new report answers to the offer that filled the queue up
    intro id
    have hold := h.reported id
    rw [hadv, Option.map_none, Option.getD_none, List.append_nil] at hold
    rw [Option.map_some, Option.getD_some, List.count_append, hold, count_idsWith_full,
      offersTo_append, fullCount_append]

theorem deliveryInv_secondPass (h : DeliveryInv s)
    (hstep : deliveryStep s .secondPass = some s') : DeliveryInv s' := by
  have htracked := fun id entry₀ hid => tracked_secondPass (h.tracked id entry₀ hid) hstep
  obtain ⟨a, hadv, rfl⟩ := secondPass_eq_some.mp hstep
  refine ⟨h.fresh, ?_, htracked, ?_⟩
  · intro id hid
    obtain ⟨hget, hoffers⟩ := h.unknown id hid
    refine ⟨?_, hoffers⟩
    rw [Registry.secondPass, Registry.get_mapEntries, hget]
    rfl
  · intro id
    have hold := h.reported id
    rw [hadv, Option.map_some, Option.getD_some] at hold
    rw [Option.map_none, Option.getD_none, List.append_nil]
    exact hold

theorem receiverStep_cases {reg' : Registry} {step : ReceiverStep}
    (h : reg.receiverStep id step = some reg') : ∃ entry tx walCursor streamCursors,
      reg.get id = some entry ∧ entry.kind = .postCommit tx walCursor streamCursors ∧
      ∃ tx', tx.receiverStep step = some tx' ∧ reg' = reg.mapEntries fun i e =>
        if i = id then { entry with kind := .postCommit tx' walCursor streamCursors } else e := by
  rw [Registry.receiverStep] at h
  split at h
  · exact absurd h (by simp)
  · rename_i entry hget
    rw [Option.map_eq_some_iff] at h
    obtain ⟨entry', hentry', rfl⟩ := h
    rw [SubscriberEntry.receiverStep] at hentry'
    split at hentry'
    · exact absurd hentry' (by simp)
    · rename_i tx walCursor streamCursors hkind
      rw [Option.map_eq_some_iff] at hentry'
      obtain ⟨tx', htx', rfl⟩ := hentry'
      exact ⟨entry, tx, walCursor, streamCursors, hget, hkind, tx', htx', rfl⟩

theorem deliveryInv_receiver {step : ReceiverStep} (h : DeliveryInv s)
    (hstep : deliveryStep s (.receiver id step) = some s') : DeliveryInv s' := by
  obtain ⟨reg', hreg, rfl⟩ := receiver_eq_some.mp hstep
  obtain ⟨entry, tx, walCursor, streamCursors, hentry, hkind, tx', -, rfl⟩ :=
    receiverStep_cases hreg
  refine deliveryInv_of_same h rfl rfl rfl rfl rfl fun j entry' hget => ?_
  rw [Registry.get_mapEntries, Option.map_eq_some_iff] at hget
  obtain ⟨old, hold, rfl⟩ := hget
  refine ⟨old, hold, ?_⟩
  by_cases hj : j = id
  · subst hj
    obtain rfl := Option.some_inj.mp (hold.symm.trans hentry)
    rw [if_pos rfl]
    refine ⟨fun streamId branch => ?_, fun _ => SubscriberKind.noConfusion, fun hd => hd⟩
    rw [SubscriberEntry.cursor, SubscriberEntry.cursor, hkind]
  · rw [if_neg hj]
    exact ⟨fun _ _ => rfl, fun hk => hk, fun hd => hd⟩

theorem deliveryInv_step {op : DeliveryOp} (h : DeliveryInv s)
    (hstep : deliveryStep s op = some s') : DeliveryInv s' := by
  cases op with
  | subscribe q mode c sc => exact deliveryInv_subscribe h hstep
  | unsubscribe id =>
    obtain rfl := Option.some_inj.mp hstep
    refine deliveryInv_of_same h rfl rfl rfl rfl rfl fun j entry' hget => ?_
    rw [Registry.get_unsubscribe] at hget
    split at hget
    · exact absurd hget (by simp)
    · exact ⟨entry', hget, fun _ _ => rfl, fun hk => hk, fun hd => hd⟩
  | receiver id step => exact deliveryInv_receiver h hstep
  | dispatchSync event panics =>
    obtain rfl := Option.some_inj.mp hstep
    refine deliveryInv_of_same h rfl rfl rfl rfl rfl fun j entry' hget => ?_
    rw [Registry.dispatchSync, Registry.get_mapEntries, Option.map_eq_some_iff] at hget
    obtain ⟨entry, hget, rfl⟩ := hget
    refine ⟨entry, hget, ?_, ?_, ?_⟩
    · intro streamId branch
      split
      · exact cursor_of_kind rfl rfl streamId branch
      · rfl
    · intro hk
      split <;> exact hk
    · intro hd
      split
      · rfl
      · exact hd
  | firstPass event => exact deliveryInv_firstPass h hstep
  | secondPass => exact deliveryInv_secondPass h hstep

theorem deliveryInv_init : DeliveryInv .init where
  fresh _ _ := rfl
  unknown _ _ := ⟨rfl, rfl⟩
  tracked _ _ h := absurd h (by simp [DeliveryState.init, find])
  reported _ := rfl

theorem deliveryInv_run {ops : List DeliveryOp} (hrun : run deliveryStep .init ops = some s) :
    DeliveryInv s :=
  run_invariant_all (fun _ _ _ => deliveryInv_step) deliveryInv_init hrun

/-! ### Seeds -/

theorem cursor_newEntry_ge {q : SubscribeQuery} {mode : SubscriptionMode} {c : ℤ}
    {sc : StreamCursors} (hseed : (DeliveryOp.subscribe q mode c sc).Seeded)
    (streamId branch : String) : -1 ≤ (newEntry q mode c sc).cursor streamId branch := by
  obtain ⟨db, hdb, heq⟩ := hseed
  obtain ⟨hc, hsc⟩ := seedCursors_ge hdb q
  rw [heq] at hc hsc
  cases mode with
  | synchronous => exact le_rfl
  | postCommit queueSize =>
    show -1 ≤ cursorOf q.streamPattern c sc streamId branch
    rw [cursorOf]
    split
    · rcases hfind : find sc (streamId, branch) with _ | v
      · exact le_rfl
      · exact hsc _ (mem_of_find hfind)
    · exact hc

/-- The steps of a run register only entries whose cursors are at least `-1`. -/
theorem registered_ge {ops : List DeliveryOp} (hseeds : ∀ op ∈ ops, op.Seeded)
    (hrun : run deliveryStep .init ops = some s) (hreg : find s.registered id = some entry₀)
    (streamId branch : String) : -1 ≤ entry₀.cursor streamId branch := by
  have hall : ∀ p ∈ s.registered, ∀ streamId branch, -1 ≤ p.2.cursor streamId branch := by
    refine run_invariant (I := fun s => ∀ p ∈ s.registered, ∀ streamId branch,
      -1 ≤ p.2.cursor streamId branch) (fun s op s' hs hseed hstep => ?_)
      (by simp [DeliveryState.init]) (along_of_forall hseeds) hrun
    cases op with
    | subscribe q mode c sc =>
      obtain rfl := Option.some_inj.mp hstep
      intro p hp
      rcases List.mem_append.mp hp with hp | hp
      · exact hs p hp
      · obtain rfl := List.mem_singleton.mp hp
        exact cursor_newEntry_ge hseed
    | unsubscribe id =>
      obtain rfl := Option.some_inj.mp hstep
      exact hs
    | receiver id step =>
      obtain ⟨_, -, rfl⟩ := receiver_eq_some.mp hstep
      exact hs
    | dispatchSync event panics =>
      obtain rfl := Option.some_inj.mp hstep
      exact hs
    | firstPass event =>
      obtain ⟨-, rfl⟩ := firstPass_eq_some.mp hstep
      exact hs
    | secondPass =>
      obtain ⟨_, -, rfl⟩ := secondPass_eq_some.mp hstep
      exact hs
  exact hall _ (mem_of_find hreg) streamId branch

/-! ### At most once, in order, and final when full -/

/-- What a dispatch does to one entry depends on that entry alone. -/
theorem get_dispatchPostCommit : (reg.dispatchPostCommit event).1.get id =
    (reg.get id).map fun entry =>
      if (entry.dispatch event).2 = .delivered then
        (entry.dispatch event).1.advance event.streamId event.branch (u64AsI64 event.version)
      else (entry.dispatch event).1 := by
  rw [Registry.dispatchPostCommit, Registry.secondPass, Registry.get_mapEntries, Registry.firstPass,
    Registry.get_mapEntries]
  rcases hget : reg.get id with _ | entry
  · rfl
  · have hmem : id ∈ idsWith .delivered (reg.outcomes event) ↔
        (entry.dispatch event).2 = .delivered := by
      rw [mem_idsWith, hget]
      exact ⟨fun ⟨_, h, ho⟩ => Option.some_inj.mp h ▸ ho, fun ho => ⟨entry, rfl, ho⟩⟩
    rw [Option.map_some, Option.map_some, Option.map_some, if_congr hmem rfl rfl]

/-- **At most once, in order, sticky degradation**: in every run, for every
subscription, the versions put in its queue increase strictly for each stream and
branch and lie above its seeded cursor; after a send that failed because the queue
was full nothing is put in it; its id is returned as newly degraded once if such a
send happened and never otherwise; and what a dispatch does to another
subscription does not depend on this one. -/
theorem delivery_at_most_once (ops : List DeliveryOp) (s : DeliveryState) (id : ℕ)
    (entry₀ : SubscriberEntry) (hseeds : ∀ op ∈ ops, op.Seeded)
    (hrun : run deliveryStep .init ops = some s) (hreg : find s.registered id = some entry₀) :
    (∀ streamId branch,
      (acceptedVersions (offersTo s.offers id) streamId branch).Pairwise (· < ·) ∧
        ∀ v ∈ acceptedVersions (offersTo s.offers id) streamId branch,
          entry₀.cursor streamId branch < u64AsI64 v) ∧
    (offersTo s.offers id).Pairwise (fun a b => a.2 = .full → b.2 ≠ .delivered) ∧
    (s.advancing = none →
      ((∃ a ∈ offersTo s.offers id, a.2 = .full) → s.reports.count id = 1) ∧
      ((∀ a ∈ offersTo s.offers id, a.2 ≠ .full) → s.reports.count id = 0)) ∧
    (∀ (j : ℕ) (event : StoredEvent), j ≠ id →
      (s.registry.dispatchPostCommit event).1.get j =
        ((s.registry.unsubscribe id).dispatchPostCommit event).1.get j) := by
  have hinv := deliveryInv_run hrun
  have htracked := hinv.tracked id entry₀ hreg
  refine ⟨fun streamId branch => ⟨?_, htracked.above streamId branch⟩, htracked.silent, ?_, ?_⟩
  · refine (htracked.increasing streamId branch).imp_of_mem fun hv _ hlt => ?_
    -- no cursor starts below -1, so no version it lets through has wrapped
    have hge := registered_ge hseeds hrun hreg streamId branch
    exact lt_of_u64AsI64_lt (hge.trans_lt (htracked.above streamId branch _ hv)) hlt
  · intro hadv
    have hcount := hinv.reported id
    rw [hadv, Option.map_none, Option.getD_none, List.append_nil] at hcount
    rw [hcount]
    constructor
    · rintro ⟨a, ha, hfull⟩
      have hpos : 0 < fullCount (offersTo s.offers id) :=
        List.countP_pos_iff.mpr ⟨a, ha, by simp [hfull]⟩
      exact le_antisymm htracked.once hpos
    · intro hnone
      exact List.countP_eq_zero.mpr fun a ha => by simpa using hnone a ha
  · intro j event hj
    rw [get_dispatchPostCommit, get_dispatchPostCommit, Registry.get_unsubscribe,
      if_neg (Ne.symm hj)]

/-- An event of the stream `s`. -/
def nullEvent (version : UInt64) : StoredEvent where
  id := plainDeps.hash []
  streamId := "s"
  branch := "main"
  version := version
  timestampUs := 0
  causationId := none
  correlationId := none
  eventType := "a"
  typeVersion := 1
  payload := [0xc0]
  externalId := none
  indexedTags := none

/-- A queue of one place and a handler that never gets to it: the second event
fills it up. -/
theorem delivery_at_most_once_slow_handler : ∃ s : DeliveryState,
    acceptedVersions (offersTo s.offers 1) "s" "main" = [0] ∧ s.reports.count 1 = 1 := by
  let ops : List DeliveryOp :=
    [.subscribe { streamPattern := "s" } (.postCommit 1) (-1) [], .firstPass (nullEvent 0),
      .secondPass, .firstPass (nullEvent 1), .secondPass, .firstPass (nullEvent 2), .secondPass]
  have hseeds : ∀ op ∈ ops, op.Seeded := by
    simp only [ops, List.forall_mem_cons, DeliveryOp.Seeded, true_and]
    exact ⟨⟨Db.bootstrap 0, by simp [Db.bootstrap], rfl⟩, fun _ h => absurd h List.not_mem_nil⟩
  obtain ⟨-, -, hreports, -⟩ := delivery_at_most_once ops _ 1 _ hseeds rfl rfl
  exact ⟨_, rfl, (hreports rfl).1 ⟨(nullEvent 1, .full), .tail _ (.head _), rfl⟩⟩

end Fossic
