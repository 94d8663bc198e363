/-
What the queue of one subscription has taken, over steps of the whole store.

* `acceptedOn` — the events of a stream and branch that the queue took, in order;
* `accepted_sound` — they increase above the cursor that the subscription was registered with, and
  are those of stored rows;
* `complete_step` — when what is sent on the stream and branch comes in turn, the queue leaves
  nothing out below what it takes, whatever becomes of the subscription.
-/
import Fossic.ChannelDelivery

namespace Fossic

open BoundedChannel Transition KeyedList HighWater Function

variable {d : Deps} {s s' : World d} {a : Action} {id : ℕ} {entry₀ : SubscriberEntry}
  {streamId branch : String} {base v : ℤ} {before : List ℤ} {e : StoredEvent}

/-! ### The events -/

def acceptedOn (s : World d) (id : ℕ) (streamId branch : String) : List StoredEvent :=
  ((offersTo s.delivery.offers id).filter fun o =>
    o.2 = .delivered && o.1.streamId = streamId && o.1.branch = branch).map Prod.fst

theorem queued_eq : queued s.delivery id streamId branch =
    (acceptedOn s id streamId branch).map fun e => u64AsI64 e.version := by
  rw [queued, acceptedVersions, acceptedOn, List.map_map, List.map_map]
  rfl

theorem mem_acceptedOn : e ∈ acceptedOn s id streamId branch ↔
    (e, Outcome.delivered) ∈ offersTo s.delivery.offers id ∧ e.streamId = streamId ∧
      e.branch = branch := by
  simp [acceptedOn, and_assoc]

/-- What a subscription was registered as stays as it is. -/
theorem registered_step {op : DeliveryOp} {t t' : DeliveryState} (h : deliveryStep t op = some t')
    (hreg : find t.registered id = some entry₀) : find t'.registered id = some entry₀ := by
  cases op with
  | subscribe q mode c sc =>
    obtain rfl := Option.some_inj.mp h
    rw [find_append, hreg, Option.some_or]
  | unsubscribe j =>
    obtain rfl := Option.some_inj.mp h
    exact hreg
  | receiver j step =>
    obtain ⟨_, -, rfl⟩ := receiver_eq_some.mp h
    exact hreg
  | dispatchSync event panics =>
    obtain rfl := Option.some_inj.mp h
    exact hreg
  | firstPass event =>
    obtain ⟨-, rfl⟩ := firstPass_eq_some.mp h
    exact hreg
  | secondPass =>
    obtain ⟨_, -, rfl⟩ := secondPass_eq_some.mp h
    exact hreg

/-- Offers are only added. -/
theorem offers_prefix {op : DeliveryOp} {t t' : DeliveryState} (h : deliveryStep t op = some t') :
    t.offers <+: t'.offers := by
  by_cases hop : ∀ e, op ≠ .firstPass e
  · exact (offers_of_step hop h).1 ▸ List.prefix_rfl
  · obtain ⟨event, rfl⟩ := not_forall_not.mp hop
    obtain ⟨-, rfl⟩ := firstPass_eq_some.mp h
    exact List.prefix_append _ _

/-- The registry moves by its own steps only. -/
theorem delivery_of_step (hstep : worldStep d s a = some s') :
    s'.delivery = s.delivery ∨ ∃ op, deliveryStep s.delivery op = some s'.delivery := by
  cases effect_of_step hstep with
  | quiet _ _ _ _ _ hdelivery => exact hdelivery.imp_right fun ⟨op, _, hop⟩ => ⟨op, hop⟩
  | taken e _ hdelivery =>
    split at hdelivery
    · exact .inl hdelivery
    · exact .inr ⟨_, hdelivery⟩
  | committed _ _ _ _ _ _ _ _ _ _ _ _ hdelivery => exact .inl hdelivery
  | grown _ _ _ _ _ _ _ _ _ hdelivery => exact .inl hdelivery
  | sent _ _ _ _ _ _ _ _ hdelivery => exact .inl hdelivery
  | scanned _ _ _ _ hdelivery => exact .inl hdelivery

theorem registered_of_worldStep (hstep : worldStep d s a = some s')
    (hreg : find s.delivery.registered id = some entry₀) :
    find s'.delivery.registered id = some entry₀ := by
  rcases delivery_of_step hstep with heq | ⟨op, hop⟩
  · exact heq ▸ hreg
  · exact registered_step hop hreg

theorem acceptedOn_prefix (hstep : worldStep d s a = some s') :
    acceptedOn s id streamId branch <+: acceptedOn s' id streamId branch := by
  have hoffers : s.delivery.offers <+: s'.delivery.offers := by
    rcases delivery_of_step hstep with heq | ⟨op, hop⟩
    · exact heq ▸ List.prefix_rfl
    · exact offers_prefix hop
  obtain ⟨rest, hrest⟩ := hoffers
  rw [acceptedOn, acceptedOn, ← hrest, offersTo_append, List.filter_append, List.map_append]
  exact List.prefix_append _ _

/-- What holds of the events that a queue took. -/
structure AcceptedSound (s : World d) (id : ℕ) (entry₀ : SubscriberEntry)
    (streamId branch : String) : Prop where
  increasing : (acceptedOn s id streamId branch).Pairwise fun e e' =>
    u64AsI64 e.version < u64AsI64 e'.version
  above : ∀ e ∈ acceptedOn s id streamId branch,
    entry₀.cursor streamId branch < u64AsI64 e.version
  recorded : ∀ e ∈ acceptedOn s id streamId branch, ∃ r ∈ s.db.events,
    r.On streamId branch ∧ Describes e r
  sent : ∀ e ∈ acceptedOn s id streamId branch,
    u64AsI64 e.version ∈ keyVersions streamId branch s.channel.sent

theorem accepted_sound (hinv : WorldInv s) (hreg : find s.delivery.registered id = some entry₀) :
    AcceptedSound s id entry₀ streamId branch := by
  have htracked := hinv.delivery.tracked id entry₀ hreg
  have hsent : ∀ e ∈ acceptedOn s id streamId branch, e ∈ s.channel.sent := fun e he =>
    Fifo.mem_sent_of_received
      (hinv.offered id e (List.mem_map.mpr ⟨_, (mem_acceptedOn.mp he).1, rfl⟩))
  refine ⟨?_, fun e he => ?_, fun e he => ?_, fun e he => ?_⟩
  · have hincreasing := @queued_increasing id streamId branch _ hinv.delivery
    rw [queued_eq] at hincreasing
    exact List.pairwise_map.mp hincreasing
  · obtain ⟨hmem, hs, hb⟩ := mem_acceptedOn.mp he
    refine htracked.above streamId branch e.version ?_
    exact List.mem_map.mpr ⟨_, List.mem_filter.mpr ⟨hmem, by simp [hs, hb]⟩, rfl⟩
  · obtain ⟨-, hs, hb⟩ := mem_acceptedOn.mp he
    obtain ⟨r, hr, hd⟩ := hinv.sent e (hsent e he)
    exact ⟨r, hr, ⟨hd.on.1.symm.trans hs, hd.on.2.symm.trans hb⟩, hd⟩
  · obtain ⟨-, hs, hb⟩ := mem_acceptedOn.mp he
    exact mem_keyVersions.mpr ⟨e, hsent e he, hs, hb, rfl⟩

/-! ### Nothing is left out -/

/-- A queue that takes something belongs to a healthy subscription. -/
theorem healthyAt_of_queued {op : DeliveryOp} {t t' : DeliveryState}
    (h : deliveryStep t op = some t')
    (hgrown : queued t' id streamId branch ≠ queued t id streamId branch) : t'.HealthyAt id := by
  by_cases hop : ∀ e, op ≠ .firstPass e
  · refine absurd ?_ hgrown
    rw [queued, queued, (offers_of_step hop h).1]
  · obtain ⟨event, rfl⟩ := not_forall_not.mp hop
    obtain ⟨-, rfl⟩ := firstPass_eq_some.mp h
    rw [queued, queued, offersTo_append, offersTo_outcomes, acceptedVersions_append] at hgrown
    rcases hget : t.registry.get id with _ | entry
    · rw [hget] at hgrown
      exact absurd (by simp [acceptedVersions]) hgrown
    · rw [hget] at hgrown
      have htaken : (entry.dispatch event).2 = .delivered := by
        by_contra hother
        refine hgrown ?_
        rw [Option.map_some, Option.toList_some, acceptedVersions_of_ne hother, List.append_nil]
      refine ⟨(entry.dispatch event).1, ?_, healthy_of_delivered htaken⟩
      show (t.registry.firstPass event).get id = _
      rw [Registry.firstPass, Registry.get_mapEntries, hget]
      rfl

/-- What a queue has taken, when the events that enter the channel do so in turn: all committed
events between `base` and each one that it took, whether or not the subscription is healthy
still. -/
structure Complete (s : World d) (id : ℕ) (entry₀ : SubscriberEntry) (streamId branch : String)
    (base : ℤ) (before : List ℤ) : Prop where
  inv : WorldInv s
  flowing : Flowing s.delivery id entry₀
  following : s.delivery.HealthyAt id → Following s id entry₀ streamId branch base before
  closed : ∀ v ∈ queued s.delivery id streamId branch, ∀ u ∈ s.db.versions streamId branch,
    base < u → u < v → u ∈ queued s.delivery id streamId branch

theorem mem_versions_of_queued (hinv : WorldInv s)
    (hv : v ∈ queued s.delivery id streamId branch) : v ∈ s.db.versions streamId branch := by
  obtain ⟨e, he, hs, hb, hv⟩ := mem_queued.mp hv
  have hsent := Fifo.mem_sent_of_received (hinv.offered id e (List.mem_map.mpr ⟨_, he, rfl⟩))
  exact mem_versions_of_keyVersions hinv.sane hinv.sent
    (mem_keyVersions.mpr ⟨e, hsent, hs, hb, hv⟩)

/-- A healthy subscription has taken what was offered above `base`, and that came in turn. -/
theorem Following.closed (hinv : WorldInv s)
    (h : Following s id entry₀ streamId branch base before)
    (hcovers : entry₀.covers streamId branch = true) (hhealthy : s.delivery.HealthyAt id) {u : ℤ}
    (hv : v ∈ queued s.delivery id streamId branch) (hu : u ∈ s.db.versions streamId branch)
    (hbase : base < u) (huv : u < v) : u ∈ queued s.delivery id streamId branch := by
  refine h.queued_of_offered hinv hcovers hhealthy ?_ hbase
  have haccepts := h.flowing.accepts hhealthy streamId branch hcovers
  rw [haccepts] at hv
  exact (h.inOrder_offered hhealthy).mem_of_lt (accept_sublist.subset hv) (hbase.trans huv) hbase
    huv hu

theorem complete_step (hinternal : internal streamId = false)
    (hcovers : entry₀.covers streamId branch = true)
    (h : Complete s id entry₀ streamId branch base before)
    (hturn : ∀ e, Sends s a e → e.streamId = streamId → e.branch = branch → InTurn s base e)
    (hstep : worldStep d s a = some s') : Complete s' id entry₀ streamId branch base before := by
  have hinv' := worldInv_step h.inv hstep
  have hfollowing : s'.delivery.HealthyAt id → Following s' id entry₀ streamId branch base before :=
    fun hh => following_step h.inv hinternal
      (h.following (healthyAt_of_worldStep h.flowing.known hstep hh)) hstep hturn
  refine ⟨hinv', flowing_of_worldStep h.flowing hstep, hfollowing, fun v hv u hu hbase huv => ?_⟩
  by_cases hhealthy : s'.delivery.HealthyAt id
  · exact (hfollowing hhealthy).closed hinv' hcovers hhealthy hv hu hbase huv
  · -- the queue is what it was, and what is committed now is above it
    have hsame : queued s'.delivery id streamId branch = queued s.delivery id streamId branch := by
      by_contra hgrown
      rcases delivery_of_step hstep with heq | ⟨op, hop⟩
      · exact hgrown (by rw [heq])
      · exact hhealthy (healthyAt_of_queued hop hgrown)
    rw [hsame] at hv ⊢
    rcases (later_of_step hstep).versions hinv'.sane hu with hold | hnew
    · exact h.closed v hv u hold hbase huv
    · have hle := Db.version_le_maxVersion (mem_versions_of_queued h.inv hv)
      omega

/-- Nothing has been taken when the subscription is registered. -/
theorem complete_of_registers {i : ℕ} (hinv : WorldInv s) (hseeded : Seeded s)
    (h : Registers s s' i id entry₀) (hcovers : entry₀.covers streamId branch = true) :
    Complete s' id entry₀ streamId branch (s'.db.maxVersion streamId branch)
      (keyVersions streamId branch s'.channel.received) := by
  have hfollowing := following_of_registers hinv hseeded h hcovers
  refine ⟨worldInv_step hinv h.step, hfollowing.flowing, fun _ => hfollowing,
    fun v _ u hu hbase _ => ?_⟩
  exact absurd hbase (not_lt.mpr (Db.version_le_maxVersion hu))

end Fossic
