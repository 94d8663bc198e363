/-
From the dispatch channel to one subscription's queue.

A subscription that stays healthy takes, for each stream and branch that it covers,
what a consumer behind a high-water mark takes from the events received after its
registration.  If each event above `base` enters the channel only after all committed
events between them (`Preceded`), none of them is lost: `Following` is the invariant,
`following_step` keeps it and `queued_of_following` concludes.

`base` is the largest version when the subscription was registered; its seed was
read before that and may be lower.
-/
import Fossic.WorldInvariant
import Mathlib.Data.List.Dedup

namespace Fossic

open BoundedChannel Transition KeyedList HighWater Function

variable {d : Deps} {s s' : World d} {a : Action} {id : ℕ} {entry₀ : SubscriberEntry}
  {streamId branch : String} {base : ℤ} {before : List ℤ}

/-! ### Health over steps of the whole store -/

theorem healthyAt_of_worldStep (hid : id < s.registry.nextId) (hstep : worldStep d s a = some s')
    (h : s'.delivery.HealthyAt id) : s.delivery.HealthyAt id := by
  cases effect_of_step hstep with
  | quiet _ _ _ _ _ hdelivery =>
    rcases hdelivery with heq | ⟨op, -, hop⟩
    · exact heq ▸ h
    · exact healthyAt_of_step hid.ne hop h
  | taken e _ hdelivery =>
    split at hdelivery
    · exact hdelivery ▸ h
    · exact healthyAt_of_step hid.ne hdelivery h
  | committed _ _ _ _ _ _ _ _ _ _ _ _ hdelivery => exact hdelivery ▸ h
  | grown _ _ _ _ _ _ _ _ _ hdelivery => exact hdelivery ▸ h
  | sent _ _ _ _ _ _ _ _ hdelivery => exact hdelivery ▸ h
  | scanned _ _ _ _ hdelivery => exact hdelivery ▸ h

theorem flowing_of_worldStep (h : Flowing s.delivery id entry₀)
    (hstep : worldStep d s a = some s') : Flowing s'.delivery id entry₀ := by
  cases effect_of_step hstep with
  | quiet _ _ _ _ _ hdelivery =>
    rcases hdelivery with heq | ⟨op, -, hop⟩
    · exact heq ▸ h
    · exact flowing_step h hop
  | taken e _ hdelivery =>
    split at hdelivery
    · exact hdelivery ▸ h
    · exact flowing_step h hdelivery
  | committed _ _ _ _ _ _ _ _ _ _ _ _ hdelivery => exact hdelivery ▸ h
  | grown _ _ _ _ _ _ _ _ _ hdelivery => exact hdelivery ▸ h
  | sent _ _ _ _ _ _ _ _ hdelivery => exact hdelivery ▸ h
  | scanned _ _ _ _ hdelivery => exact hdelivery ▸ h

theorem healthyAt_of_worldRun {as : List Action} (h : Flowing s.delivery id entry₀)
    (hrun : run (worldStep d) s as = some s') (hhealthy : s'.delivery.HealthyAt id) :
    s.delivery.HealthyAt id := by
  induction as generalizing s with
  | nil => exact Option.some_inj.mp hrun ▸ hhealthy
  | cons a as ih =>
    obtain ⟨t, ht, hrun⟩ := run_cons.mp hrun
    exact healthyAt_of_worldStep h.known ht (ih (flowing_of_worldStep h ht) hrun)

/-! ### The invariant -/

/-- The event enters the channel after all committed events of its stream and branch
between `base` and it. -/
def InTurn (s : World d) (base : ℤ) (e : StoredEvent) : Prop :=
  Preceded (· ∈ s.db.versions e.streamId e.branch) base
    (keyVersions e.streamId e.branch s.channel.sent) (u64AsI64 e.version)

/-- `before` are the versions received when the subscription was registered. -/
structure Following (s : World d) (id : ℕ) (entry₀ : SubscriberEntry) (streamId branch : String)
    (base : ℤ) (before : List ℤ) : Prop where
  flowing : Flowing s.delivery id entry₀
  old : ∀ v ∈ before, v ≤ base
  seed : entry₀.cursor streamId branch ≤ base
  offers : s.delivery.HealthyAt id → keyVersions streamId branch s.channel.received =
    before ++ keyVersions streamId branch (offered s.delivery id)
  order : InOrder (· ∈ s.db.versions streamId branch) base
    (keyVersions streamId branch s.channel.sent)

/-- New versions are above everything sent. -/
theorem versions_above_sent (hinv : WorldInv s) (hstep : worldStep d s a = some s') (u : ℤ)
    (hu : u ∈ s'.db.versions streamId branch) : u ∈ s.db.versions streamId branch ∨
      ∀ v ∈ keyVersions streamId branch s.channel.sent, v < u := by
  refine ((later_of_step hstep).versions (sane_of_step hstep hinv.sane) hu).imp_right ?_
  intro habove v hv
  have hv' := mem_versions_of_keyVersions hinv.sane hinv.sent hv
  exact (Db.version_le_maxVersion hv').trans_lt habove

/-- **The invariant is kept** when what enters the channel does so in turn. -/
theorem following_step (hinv : WorldInv s) (hinternal : internal streamId = false)
    (h : Following s id entry₀ streamId branch base before) (hstep : worldStep d s a = some s')
    (hturn : ∀ e, Sends s a e → e.streamId = streamId → e.branch = branch → InTurn s base e) :
    Following s' id entry₀ streamId branch base before := by
  have hhealthy : s'.delivery.HealthyAt id → s.delivery.HealthyAt id :=
    healthyAt_of_worldStep h.flowing.known hstep
  have hflowing := flowing_of_worldStep h.flowing hstep
  -- commits only add versions above everything sent
  have horder : InOrder (· ∈ s'.db.versions streamId branch) base
      (keyVersions streamId branch s.channel.sent) :=
    InOrderAfter.mono h.order (versions_above_sent hinv hstep)
  have hquiet : s'.channel = s.channel →
      offered s'.delivery id = offered s.delivery id →
        Following s' id entry₀ streamId branch base before := by
    intro hchannel hoffered
    refine ⟨hflowing, h.old, h.seed, fun hh => ?_, ?_⟩
    · rw [hchannel, hoffered]
      exact h.offers (hhealthy hh)
    · rw [hchannel]
      exact horder
  have hsend : ∀ e, Sends s a e → s'.channel = s.channel.send e → s'.db = s.db →
      s'.delivery = s.delivery → Following s' id entry₀ streamId branch base before := by
    intro e hsends hchannel hdb hdelivery
    refine ⟨hflowing, h.old, h.seed, fun hh => ?_, ?_⟩
    · rw [hchannel, hdelivery]
      exact h.offers (hhealthy hh)
    · rw [hchannel, Fifo.sent_send, keyVersions_append, keyVersions_singleton]
      by_cases hkey : e.streamId = streamId ∧ e.branch = branch
      · obtain ⟨rfl, rfl⟩ := hkey
        rw [if_pos ⟨rfl, rfl⟩]
        refine InOrderAfter.append horder ?_
        rw [hdb]
        exact hturn e hsends rfl rfl
      · rw [if_neg hkey, List.append_nil]
        exact horder
  cases effect_of_step hstep with
  | quiet _ _ hchannel _ _ hdelivery =>
    refine hquiet hchannel ?_
    rcases hdelivery with heq | ⟨op, hop, hop'⟩
    · rw [heq]
    · exact offered_of_quiet hop hop'
  | committed _ _ _ _ _ _ _ _ _ _ hchannel _ hdelivery => exact hquiet hchannel (by rw [hdelivery])
  | grown _ _ _ _ _ _ hchannel _ _ hdelivery => exact hquiet hchannel (by rw [hdelivery])
  | sent w e events hsending _ hchannel hdb _ hdelivery =>
    exact hsend e ⟨events, hsending⟩ hchannel hdb hdelivery
  | taken e hreceive hdelivery =>
    refine ⟨hflowing, h.old, h.seed, fun hh => ?_, ?_⟩
    · have hoffers := h.offers (hhealthy hh)
      rw [(Fifo.receive_eq_some.mp hreceive).2, keyVersions_append, hoffers]
      split at hdelivery
      · -- the dispatcher drops events of internal streams
        rename_i hdropped
        have hne : ¬(e.streamId = streamId ∧ e.branch = branch) := by
          rintro ⟨rfl, -⟩
          exact absurd (hinternal.symm.trans hdropped) Bool.false_ne_true
        rw [hdelivery, keyVersions_singleton, if_neg hne, List.append_nil]
      · obtain ⟨entry, hget, -⟩ := hhealthy hh
        have hget' : s.delivery.registry.get id = some entry := hget
        rw [(offered_of_firstPass hdelivery).2, hget', keyVersions_append, List.append_assoc]
        rfl
    · rw [Fifo.sent_receive hreceive]
      exact horder
  | scanned a hscan hdb _ hdelivery =>
    rcases channel_of_scan hscan with hchannel | ⟨e, hsends, hchannel⟩
    · exact hquiet hchannel (by rw [hdelivery])
    · exact hsend e hsends hchannel hdb hdelivery

/-! ### The conclusion -/

/-- The event of a row was put in the subscription's queue. -/
def Queued (s : World d) (id : ℕ) (r : EventRow) : Prop :=
  ∃ e, (e, Outcome.delivered) ∈ offersTo s.delivery.offers id ∧ Describes e r

theorem Queued.mem_accepted {d : Deps} {s : World d} {id : ℕ} {r : EventRow} (h : Queued s id r) :
    i64AsU64 r.version ∈ acceptedVersions (offersTo s.delivery.offers id) r.streamId r.branch := by
  obtain ⟨e, he, hd⟩ := h
  rw [hd] at he
  exact List.mem_map.mpr ⟨_, List.mem_filter.mpr ⟨he, by simp [rowToEvent]⟩, rfl⟩

theorem mem_queued {s : DeliveryState} {v : ℤ} : v ∈ queued s id streamId branch ↔
    ∃ e, (e, Outcome.delivered) ∈ offersTo s.offers id ∧ e.streamId = streamId ∧
      e.branch = branch ∧ u64AsI64 e.version = v := by
  simp only [queued, acceptedVersions, List.map_map, List.mem_map, List.mem_filter,
    Bool.and_eq_true, decide_eq_true_eq, Function.comp_apply]
  constructor
  · rintro ⟨⟨e, o⟩, ⟨hmem, ⟨rfl, hs⟩, hb⟩, hv⟩
    exact ⟨e, hmem, hs, hb, hv⟩
  · rintro ⟨e, hmem, hs, hb, hv⟩
    exact ⟨(e, .delivered), ⟨hmem, ⟨rfl, hs⟩, hb⟩, hv⟩

/-- Whatever reaches the queue of a subscription does so in increasing order. -/
theorem queued_increasing {s : DeliveryState} (h : DeliveryInv s) :
    (queued s id streamId branch).Pairwise (· < ·) := by
  rw [queued, List.pairwise_map]
  rcases hreg : find s.registered id with _ | entry
  · rw [(h.unknown id hreg).2]
    exact .nil
  · exact (h.tracked id entry hreg).increasing streamId branch

/-- The events offered to a healthy subscription came in turn. -/
theorem Following.inOrder_offered (h : Following s id entry₀ streamId branch base before)
    (hhealthy : s.delivery.HealthyAt id) :
    InOrder (· ∈ s.db.versions streamId branch) base
      (keyVersions streamId branch (offered s.delivery id)) := by
  have horder := h.order
  rw [Fifo.sent, keyVersions_append, h.offers hhealthy] at horder
  exact InOrder.right h.old horder.left

/-- A healthy subscription has taken all that it was offered above `base`. -/
theorem Following.queued_of_offered (h : Following s id entry₀ streamId branch base before)
    (hinv : WorldInv s) (hcovers : entry₀.covers streamId branch = true)
    (hhealthy : s.delivery.HealthyAt id) {v : ℤ}
    (hv : v ∈ keyVersions streamId branch (offered s.delivery id)) (hbase : base < v) :
    v ∈ queued s.delivery id streamId branch := by
  have hrecorded : ∀ e ∈ offered s.delivery id, Recorded s.db e := fun e he =>
    hinv.sent e (Fifo.mem_sent_of_received (hinv.offered id e he))
  rw [h.flowing.accepts hhealthy streamId branch hcovers]
  refine mem_accept_of_inOrder h.seed (fun w hw _ => ?_) (h.inOrder_offered hhealthy) hv hbase
  exact mem_versions_of_keyVersions hinv.sane hrecorded hw

/-- **Nothing sent in turn is lost**: once the channel is drained, a row above `base`
whose event was sent is in the queue of a subscription that covers it and is healthy
still. -/
theorem queued_of_following (hinv : WorldInv s)
    (h : Following s id entry₀ streamId branch base before) (hhealthy : s.delivery.HealthyAt id)
    (hcovers : entry₀.covers streamId branch = true) (hdrained : s.channel.pending = [])
    {r : EventRow} (hr : r ∈ s.db.events) (hon : r.On streamId branch) (hbase : base < r.version)
    (hsent : r.version ∈ keyVersions streamId branch s.channel.sent) : Queued s id r := by
  have hoffers := h.offers hhealthy
  rw [Fifo.sent_of_drained hdrained, hoffers] at hsent
  have hoffered : r.version ∈ keyVersions streamId branch (offered s.delivery id) := by
    rcases List.mem_append.mp hsent with hmem | hmem
    · exact absurd hbase (not_lt.mpr (h.old _ hmem))
    · exact hmem
  obtain ⟨e, he, hs, hb, hv⟩ :=
    mem_queued.mp (h.queued_of_offered hinv hcovers hhealthy hoffered hbase)
  -- the event in the queue is that of the row, since versions are unique
  obtain ⟨r', hr', hd⟩ := hinv.sent e
    (Fifo.mem_sent_of_received (hinv.offered id e (List.mem_map.mpr ⟨_, he, rfl⟩)))
  obtain ⟨hs', hb'⟩ := hd.on
  have hon' : r'.On r.streamId r.branch :=
    ⟨hs'.symm.trans (hs.trans hon.1.symm), hb'.symm.trans (hb.trans hon.2.symm)⟩
  obtain rfl := hinv.sane.eq_of_version hr' hr hon' ((hd.version hinv.sane hr').symm.trans hv)
  exact ⟨e, he, hd⟩

/-! ### Registration -/

/-- Seeds that have been read are not above the largest versions. -/
def Seeded (s : World d) : Prop :=
  ∀ q mode c sc, (q, mode, c, sc) ∈ s.subscribing → ∀ streamId branch,
    (newEntry q mode c sc).covers streamId branch = true →
      (newEntry q mode c sc).cursor streamId branch ≤ s.db.maxVersion streamId branch

/-- The cursors read for a glob pattern are those of the streams with rows. -/
theorem seedCursors_distinct {db : Db} {q : SubscribeQuery} :
    ((seedCursors db q).2.map Prod.fst).Nodup := by
  rw [seedCursors]
  split
  · rw [List.map_map]
    refine List.Nodup.map ?_ ((List.nodup_dedup _).filter _)
    exact fun t t' heq => (Prod.mk.inj heq).1
  · exact List.nodup_nil

/-- A subscription starts, on what it covers, at the largest version that was read. -/
theorem cursor_of_seed {db : Db} {q : SubscribeQuery} {queueSize : ℕ}
    (hcovers : (newEntry q (.postCommit queueSize) (seedCursors db q).1 (seedCursors db q).2).covers
      streamId branch = true) :
    (newEntry q (.postCommit queueSize) (seedCursors db q).1 (seedCursors db q).2).cursor streamId
      branch = db.maxVersion streamId branch := by
  simp only [SubscriberEntry.covers, newEntry, Bool.and_eq_true] at hcovers
  obtain ⟨⟨hbranch, -⟩, hmatches⟩ := hcovers
  obtain rfl := of_decide_eq_true hbranch
  show cursorOf q.streamPattern (seedCursors db q).1 (seedCursors db q).2 streamId q.branch = _
  rw [cursorOf]
  by_cases hglob : isGlob q.streamPattern = true
  · rw [if_pos hglob]
    have hmem : ∀ t v, ((t, q.branch), v) ∈ (seedCursors db q).2 ↔
        ((∃ r ∈ db.events, r.On t q.branch) ∧ globMatches q.streamPattern t = true) ∧
          db.maxVersion t q.branch = v := by
      intro t v
      rw [seedCursors, if_pos hglob]
      simp [EventRow.On, and_assoc, and_comm, and_left_comm]
    rcases hfind : find (seedCursors db q).2 (streamId, q.branch) with _ | v
    · rcases db.maxVersion_attained streamId q.branch with hnone | ⟨r, hr, hon, -⟩
      · exact hnone.symm
      · have hrow := (hmem streamId _).mpr ⟨⟨⟨r, hr, hon⟩, hmatches⟩, rfl⟩
        exact absurd ((find_of_mem seedCursors_distinct hrow).symm.trans hfind) (by simp)
    · exact ((hmem streamId v).mp (mem_of_find hfind)).2.symm
  · rw [if_neg hglob, seedCursors, if_neg hglob]
    rw [globMatches_of_not_isGlob (Bool.not_eq_true _ ▸ hglob)] at hmatches
    rw [hmatches]

theorem cursor_seedCursors {db : Db} (hsane : db.Sane) {q : SubscribeQuery}
    {mode : SubscriptionMode}
    (hcovers : (newEntry q mode (seedCursors db q).1 (seedCursors db q).2).covers streamId branch
      = true) :
    (newEntry q mode (seedCursors db q).1 (seedCursors db q).2).cursor streamId branch ≤
      db.maxVersion streamId branch := by
  cases mode with
  | synchronous => exact hsane.le_maxVersion
  | postCommit queueSize => exact (cursor_of_seed hcovers).le

theorem seeded_step (hsane : s.db.Sane) (h : Seeded s) (hstep : worldStep d s a = some s') :
    Seeded s' := by
  intro q mode c sc hmem streamId branch hcovers
  have hmax : s.db.maxVersion streamId branch ≤ s'.db.maxVersion streamId branch :=
    (later_of_step hstep).maxVersion_le (sane_of_step hstep hsane)
  refine le_trans ?_ hmax
  rcases (reads_of_step hstep).2 _ hmem with hold | ⟨q', mode', heq⟩
  · exact h q mode c sc hold streamId branch hcovers
  · obtain ⟨rfl, rfl, hseed⟩ : q = q' ∧ mode = mode' ∧ (c, sc) = seedCursors s.db q' := by
      simpa using heq
    obtain ⟨rfl, rfl⟩ := Prod.mk.inj hseed
    exact cursor_seedCursors hsane hcovers

theorem seeded_run {db : Db} (hsane : db.Sane) {sysWriter : Bool} {as : List Action}
    (hrun : run (worldStep d) (World.init d db sysWriter) as = some s) :
    WorldInv s ∧ Seeded s := by
  refine run_invariant_all (I := fun s => WorldInv s ∧ Seeded s) (fun s a s' h hstep => ?_)
    ⟨worldInv_init hsane sysWriter, fun _ _ _ _ hmem => absurd hmem List.not_mem_nil⟩ hrun
  exact ⟨worldInv_step h.1 hstep, seeded_step h.1.sane h.2 hstep⟩

/-- The `i`-th subscribe call in progress registers the subscription `id` as
`entry₀`. -/
structure Registers (s s' : World d) (i id : ℕ) (entry₀ : SubscriberEntry) : Prop where
  step : worldStep d s (.subscribeInsert i) = some s'
  id_eq : id = s.registry.nextId
  entry : ∃ q mode c sc, s.subscribing[i]? = some (q, mode, c, sc) ∧ entry₀ = newEntry q mode c sc

/-- **A subscription is followed from its registration on.** -/
theorem following_of_registers {i : ℕ} (hinv : WorldInv s) (hseeded : Seeded s)
    (h : Registers s s' i id entry₀) (hcovers : entry₀.covers streamId branch = true) :
    Following s' id entry₀ streamId branch (s'.db.maxVersion streamId branch)
      (keyVersions streamId branch s'.channel.received) := by
  have hinv' := worldInv_step hinv h.step
  obtain ⟨q, mode, c, sc, hget, rfl⟩ := h.entry
  obtain rfl := h.id_eq
  have hstep := h.step
  rw [worldStep, hget] at hstep
  obtain ⟨delivery, hdelivery, rfl⟩ := deliver_eq_some.mp hstep
  -- a second pass that is under way knows nothing of the new id
  have hfresh : ∀ a, s.delivery.advancing = some a → s.registry.nextId ∉ a.delivered :=
    fun a ha hmem => absurd (hinv.pending a ha _ hmem) (lt_irrefl _)
  have hle : ∀ v ∈ keyVersions streamId branch s.channel.sent,
      v ≤ s.db.maxVersion streamId branch := fun v hv =>
    Db.version_le_maxVersion (mem_versions_of_keyVersions hinv.sane hinv.sent hv)
  refine ⟨flowing_subscribe hinv.delivery hfresh hdelivery, fun v hv => ?_, ?_, fun _ => ?_,
    inOrder_of_le hle⟩
  · refine hle v ?_
    rw [Fifo.sent, keyVersions_append]
    exact List.mem_append_left _ hv
  · exact hseeded q mode c sc (List.mem_of_getElem? hget) streamId branch hcovers
  · -- it has been offered nothing yet
    have hnone : offersTo s.delivery.offers s.registry.nextId = [] :=
      (hinv.delivery.unknown _ (hinv.delivery.fresh _ le_rfl)).2
    obtain rfl := Option.some_inj.mp hdelivery
    show _ = _ ++ keyVersions streamId branch ((offersTo s.delivery.offers _).map Prod.fst)
    rw [hnone]
    exact (List.append_nil _).symm

end Fossic
