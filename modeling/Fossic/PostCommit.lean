/-
Delivery between the writers of one store.

A writer assigns the version under the mutex but sends the event after releasing it,
so another writer may overtake it.  Delivery drops what is not above its cursor, and
the overtaken event is lost.  `NotOvertaking` says that the writer about to send
holds the lowest unsent version of the stream and branch; along runs that meet it
every matching event reaches the queue (`nothing_lost`), and without it not
(`overtaken_event_lost`).
-/
import Fossic.ChannelDelivery

namespace Fossic

open BoundedChannel Transition KeyedList HighWater Function

variable {d : Deps} {s s' : World d} {a : Action} {id : ℕ} {entry₀ : SubscriberEntry}
  {streamId branch : String} {base : ℤ} {before : List ℤ}

/-- The steps of the store's own threads, the watcher apart. -/
def Action.InProcess : Action → Prop
  | .other op => op.isDeclaration = true
  | .scan _ => False
  | _ => True

/-- A writer that sends an event covered by the subscription overtakes none: no
committed event of the same stream and branch with a lower version is unsent. -/
def NotOvertaking (entry₀ : SubscriberEntry) (s : World d) : Action → Prop
  | .send w => ∀ e events, s.writers w = .sending [] (e :: events) →
    entry₀.covers e.streamId e.branch = true → ∀ w',
      ∀ v ∈ keyVersions e.streamId e.branch (s.unsent w'), u64AsI64 e.version ≤ v
  | _ => True

/-! ### Every new event is sent or unsent -/

/-- Writers that have read `has_subscribers()` have found some. -/
def Sighted (s : World d) : Prop :=
  ∀ w hasSubs call, s.writers w = .begun hasSubs call → hasSubs = true

/-- What is committed above `base` is in the channel or with a writer. -/
def Accounted (s : World d) (streamId branch : String) (base : ℤ) : Prop :=
  ∀ v ∈ s.db.versions streamId branch, base < v →
    v ∈ keyVersions streamId branch s.channel.sent ∨
      ∃ w, v ∈ keyVersions streamId branch (s.unsent w)

theorem hasSubscribers_of_healthy {s : World d} (h : s.delivery.HealthyAt id) :
    s.registry.hasSubscribers = true := by
  obtain ⟨entry, hget, -⟩ := h
  have hmem := mem_of_find hget
  rw [Registry.hasSubscribers, Bool.not_eq_true', List.isEmpty_eq_false_iff]
  exact List.ne_nil_of_mem hmem

theorem sighted_step (hhealthy : s.delivery.HealthyAt id) (h : Sighted s)
    (hstep : worldStep d s a = some s') : Sighted s' := by
  intro w hasSubs call hw
  rcases (reads_of_step hstep).1 with heq | ⟨w', writer, heq, hreads⟩
  · exact h w hasSubs call (heq ▸ hw)
  · rw [heq] at hw
    by_cases hww : w = w'
    · subst hww
      rw [update_self] at hw
      rw [hreads hasSubs call hw]
      exact hasSubscribers_of_healthy hhealthy
    · rw [update_of_ne hww] at hw
      exact h w hasSubs call hw

/-- A new version is that of a new row. -/
theorem mem_versions_grows {db db₁ db' : Db} {rows : List EventRow} {P : EventRow → Prop} {v : ℤ}
    (hdb : db.events = db₁.events) (hgrows : Grows P db rows db')
    (hv : v ∈ db'.versions streamId branch) : v ∈ db₁.versions streamId branch ∨
      ∃ r ∈ rows, r.On streamId branch ∧ r.version = v := by
  obtain ⟨r, hr, hon, rfl⟩ := db'.mem_versions.mp hv
  rw [hgrows.eq] at hr
  rcases List.mem_append.mp hr with hr | hr
  · exact .inl (db₁.mem_versions.mpr ⟨r, hdb ▸ hr, hon, rfl⟩)
  · exact .inr ⟨r, hr, hon, rfl⟩

theorem accounted_step (hinv : WorldInv s) (hinternal : internal streamId = false)
    (hsighted : Sighted s) (h : Accounted s streamId branch base) (ha : a.InProcess)
    (hstep : worldStep d s a = some s') : Accounted s' streamId branch base := by
  have hinv' := worldInv_step hinv hstep
  intro v hv hbase
  cases effect_of_step hstep with
  | quiet _ hdb hchannel _ hunsent =>
    rw [hchannel, hunsent]
    exact h v (hdb ▸ hv) hbase
  | committed w clock hasSubs call rows events hbegun hrows hevents hunsent hchannel =>
    rw [hchannel, hunsent]
    rcases mem_versions_grows rfl hrows hv with hold | ⟨r, hr, hon, rfl⟩
    · refine (h v hold hbase).imp_right ?_
      rintro ⟨w', hw'⟩
      -- the committing writer had nothing unsent
      have hne : w' ≠ w := by
        rintro rfl
        rw [World.unsent, hbegun] at hw'
        exact absurd hw' List.not_mem_nil
      exact ⟨w', by rwa [update_of_ne hne]⟩
    · right
      obtain ⟨e, he, hd⟩ := exists_of_mem_forall₂ hevents hr
      have hr' : r ∈ s'.db.events := by
        rw [hrows.eq]
        exact List.mem_append_right _ hr
      have hs : e.streamId = streamId := hd.on.1.trans hon.1
      refine ⟨w, ?_⟩
      rw [update_self, hsighted w hasSubs call hbegun, if_pos rfl, mem_keyVersions]
      refine ⟨e, List.mem_filter.mpr ⟨he, ?_⟩, hs, hd.on.2.trans hon.2,
        hd.version hinv'.sane hr'⟩
      rw [hs, hinternal]
      rfl
  | grown _ db rows hdb hrows hsystem hchannel _ hunsent =>
    rw [hchannel, hunsent]
    rcases mem_versions_grows hdb hrows hv with hold | ⟨r, hr, hon, rfl⟩
    · exact h v hold hbase
    · rcases hsystem with ⟨op, rfl, hop⟩ | hsystem
      · exact absurd (hop.symm.trans (show op.isDeclaration = true from ha)) Bool.false_ne_true
      · have hin := hsystem r hr
        rw [hon.1, hinternal] at hin
        exact absurd hin Bool.false_ne_true
  | sent w e events hsending hunsent hchannel hdb =>
    rw [hchannel, hunsent, Fifo.sent_send, keyVersions_append]
    rcases h v (hdb ▸ hv) hbase with hsent | ⟨w', hw'⟩
    · exact .inl (List.mem_append_left _ hsent)
    · by_cases hww : w' = w
      · subst hww
        rw [World.unsent, hsending, Writer.unsent, ← List.singleton_append, keyVersions_append]
          at hw'
        rcases List.mem_append.mp hw' with hw' | hw'
        · exact .inl (List.mem_append_right _ hw')
        · exact .inr ⟨w', by rwa [update_self]⟩
      · exact .inr ⟨w', by rwa [update_of_ne hww]⟩
  | taken e hreceive _ hdb _ hunsent =>
    rw [Fifo.sent_receive hreceive, hunsent]
    exact h v (hdb ▸ hv) hbase
  | scanned a => exact ha.elim

/-- The condition puts each event that is sent in turn. -/
theorem inTurn_of_notOvertaking {e : StoredEvent}
    (haccounted : Accounted s e.streamId e.branch base)
    (hcovers : entry₀.covers e.streamId e.branch = true) (hcond : NotOvertaking entry₀ s a)
    (ha : a.InProcess) (hsends : Sends s a e) : InTurn s base e := by
  cases a with
  | send w =>
    obtain ⟨events, hw⟩ := hsends
    intro _ u hu hlt hcommitted
    rcases haccounted u hcommitted hu with hsent | ⟨w', hunsent⟩
    · exact hsent
    · -- the writer would overtake `u`
      exact absurd hlt (not_lt.mpr (hcond e events hw hcovers w' u hunsent))
  | scan a => exact ha.elim
  | _ => exact hsends.elim

/-! ### Nothing is lost -/

/-- What a run from the registration on keeps: as long as the subscription is
healthy, it is followed and every new event is accounted for. -/
structure Covered (s : World d) (id : ℕ) (entry₀ : SubscriberEntry) (streamId branch : String)
    (base : ℤ) (before : List ℤ) : Prop where
  inv : WorldInv s
  flowing : Flowing s.delivery id entry₀
  following : s.delivery.HealthyAt id → Following s id entry₀ streamId branch base before
  sighted : s.delivery.HealthyAt id → Sighted s
  accounted : s.delivery.HealthyAt id → Accounted s streamId branch base

theorem covered_step (hinternal : internal streamId = false)
    (hcovers : entry₀.covers streamId branch = true)
    (h : Covered s id entry₀ streamId branch base before) (ha : a.InProcess)
    (hcond : NotOvertaking entry₀ s a) (hstep : worldStep d s a = some s') :
    Covered s' id entry₀ streamId branch base before := by
  have hhealthy : s'.delivery.HealthyAt id → s.delivery.HealthyAt id :=
    healthyAt_of_worldStep h.flowing.known hstep
  refine ⟨worldInv_step h.inv hstep, flowing_of_worldStep h.flowing hstep, fun hh => ?_,
    fun hh => sighted_step (hhealthy hh) (h.sighted (hhealthy hh)) hstep, fun hh => ?_⟩
  · refine following_step h.inv hinternal (h.following (hhealthy hh)) hstep ?_
    rintro e hsends rfl rfl
    exact inTurn_of_notOvertaking (h.accounted (hhealthy hh)) hcovers hcond ha hsends
  · exact accounted_step h.inv hinternal (h.sighted (hhealthy hh)) (h.accounted (hhealthy hh)) ha
      hstep

/-- Before any call begins there is nothing to account for. -/
theorem covered_of_registers {i : ℕ} (hinv : WorldInv s) (hseeded : Seeded s)
    (hreg : Registers s s' i id entry₀) (hidle : ∀ w, s'.writers w = .idle)
    (hcovers : entry₀.covers streamId branch = true) :
    Covered s' id entry₀ streamId branch (s'.db.maxVersion streamId branch)
      (keyVersions streamId branch s'.channel.received) := by
  have hfollowing := following_of_registers hinv hseeded hreg hcovers
  refine ⟨worldInv_step hinv hreg.step, hfollowing.flowing, fun _ => hfollowing, fun _ => ?_,
    fun _ => ?_⟩
  · intro w hasSubs call hw
    rw [hidle w] at hw
    exact absurd hw (by simp)
  · intro v hv hbase
    exact absurd hbase (not_lt.mpr (Db.version_le_maxVersion hv))

/-- **No event is lost between the writers of one store**, when none overtakes
another: whatever is committed after the registration, on a stream that is not
internal and that the subscription covers, is in its queue once all is sent and
received. -/
theorem nothing_lost (d : Deps) (db : Db) (hsane : db.Sane) (sysWriter : Bool)
    (as₀ as : List Action) (s₀ s₁ s₂ : World d) (i id : ℕ) (entry₀ : SubscriberEntry)
    (hrun₀ : run (worldStep d) (World.init d db sysWriter) as₀ = some s₀)
    (hreg : Registers s₀ s₁ i id entry₀) (hidle : ∀ w, s₁.writers w = .idle)
    (hmodel : ∀ a ∈ as, a.InProcess) (hcond : Along (worldStep d) (NotOvertaking entry₀) s₁ as)
    (hrun : run (worldStep d) s₁ as = some s₂) (hhealthy : s₂.delivery.HealthyAt id)
    (hsent : ∀ w, s₂.unsent w = []) (hdrained : s₂.channel.pending = []) :
    (∀ r ∈ s₂.db.events, r ∉ s₁.db.events → internal r.streamId = false →
      entry₀.covers r.streamId r.branch = true → Queued s₂ id r) ∧
    ∀ streamId branch, (queued s₂.delivery id streamId branch).Pairwise (· < ·) := by
  obtain ⟨hinv, hseeded⟩ := seeded_run hsane hrun₀
  have hinv₂ := worldInv_run (worldInv_step hinv hreg.step) hrun
  refine ⟨fun r hr hnew hinternal hcovers => ?_, fun _ _ => queued_increasing hinv₂.delivery⟩
  have hcovered := run_invariant
    (P := fun s a => a.InProcess ∧ NotOvertaking entry₀ s a)
    (fun _ _ _ h hP hstep => covered_step hinternal hcovers h hP.1 hP.2 hstep)
    (covered_of_registers hinv hseeded hreg hidle hcovers)
    ((along_of_forall hmodel).and hcond) hrun
  have hbase := (later_of_run hrun).lt_of_new hinv₂.sane hr hnew
  refine queued_of_following hinv₂ (hcovered.following hhealthy) hhealthy hcovers hdrained hr
    ⟨rfl, rfl⟩ hbase ?_
  rcases hcovered.accounted hhealthy r.version (s₂.db.mem_versions.mpr ⟨r, hr, ⟨rfl, rfl⟩, rfl⟩)
    hbase with hmem | ⟨w, hmem⟩
  · exact hmem
  · rw [hsent w] at hmem
    exact absurd hmem List.not_mem_nil

/-- Steps that send nothing overtake nothing. -/
theorem along_notOvertaking {as : List Action} (h : ∀ a ∈ as, ∀ w, a ≠ .send w) :
    Along (worldStep d) (NotOvertaking entry₀) s as := by
  refine (along_of_forall h).imp fun _ a ha => ?_
  cases a with
  | send w => exact absurd rfl (ha w)
  | _ => trivial

/-- An event overtakes nothing when its version is the lowest of what is unsent. -/
theorem notOvertaking_of_lowest {w : ℕ} {e : StoredEvent} {events : List StoredEvent}
    (hnext : s.unsent w = e :: events)
    (hlowest : ∀ w', ∀ e' ∈ s.unsent w', u64AsI64 e.version ≤ u64AsI64 e'.version) :
    NotOvertaking entry₀ s (.send w) := by
  intro e₁ events₁ hw _ w' v hv
  have hunsent : s.unsent w = e₁ :: events₁ := by rw [World.unsent, hw]; rfl
  obtain ⟨rfl, -⟩ := List.cons.inj (hnext.symm.trans hunsent)
  obtain ⟨e', he', -, -, rfl⟩ := mem_keyVersions.mp hv
  exact hlowest w' e' he'

/-- Two writers commit one after the other, and then send in the order of their commits. -/
theorem nothing_lost_two : ∃ (s₂ : World plainDeps) (r₀ r₁ : EventRow),
    s₂.db.events = [r₀, r₁] ∧ Queued s₂ 1 r₀ ∧ Queued s₂ 1 r₁ := by
  obtain ⟨s₀, s₁, t, u, s₂, entry₀, e₀, e₁, r₀, r₁, hrun₀, hreg, hidle, hcommits, ht₀, ht₁, hothers,
    hle, hsend, hu₀, hu₁, hrest, hdone, hhealthy, hsent, hdrained, hevents, hnew, hinternal,
    hcovers⟩ : ∃ (s₀ s₁ t u s₂ : World plainDeps) (entry₀ : SubscriberEntry) (e₀ e₁ : StoredEvent)
      (r₀ r₁ : EventRow),
      run (worldStep plainDeps) (World.init plainDeps (Db.bootstrap 0) true)
        (seedNull (.postCommit 8)) = some s₀ ∧ Registers s₀ s₁ 0 1 entry₀ ∧
      (∀ w, s₁.writers w = .idle) ∧
      run (worldStep plainDeps) s₁ (commitNull 0 "a" ++ commitNull 1 "b") = some t ∧
      t.unsent 0 = [e₀] ∧ t.unsent 1 = [e₁] ∧ (∀ w, t.unsent (w + 2) = []) ∧
      u64AsI64 e₀.version ≤ u64AsI64 e₁.version ∧ worldStep plainDeps t (.send 0) = some u ∧
      u.unsent 0 = [] ∧ u.unsent 1 = [e₁] ∧ (∀ w, u.unsent (w + 2) = []) ∧
      run (worldStep plainDeps) u (.send 1 :: (dispatchOne ++ dispatchOne)) = some s₂ ∧
      s₂.delivery.HealthyAt 1 ∧ (∀ w, s₂.unsent w = []) ∧ s₂.channel.pending = [] ∧
      s₂.db.events = [r₀, r₁] ∧ s₁.db.events = [] ∧
      (internal r₀.streamId = false ∧ internal r₁.streamId = false) ∧
      entry₀.covers r₀.streamId r₀.branch = true ∧ entry₀.covers r₁.streamId r₁.branch = true := by
    refine ⟨_, _, _, _, _, _, _, _, _, _, rfl, ⟨rfl, rfl, _, _, _, _, rfl, rfl⟩, fun w => rfl, rfl,
      rfl, rfl, fun w => rfl, by decide, rfl, rfl, rfl, fun w => rfl, rfl,
      ⟨_, rfl, rfl, _, _, _, rfl, by decide⟩, fun w => ?_, rfl, rfl, rfl, by decide, by decide⟩
    match w with
    | 0 => rfl
    | 1 => rfl
    | w + 2 => rfl
  have halong : Along (worldStep plainDeps) (NotOvertaking entry₀) s₁
      ((commitNull 0 "a" ++ commitNull 1 "b") ++
        .send 0 :: .send 1 :: (dispatchOne ++ dispatchOne)) := by
    refine (along_notOvertaking (by simp [commitNull])).append hcommits ?_
    refine along_cons (notOvertaking_of_lowest ht₀ fun w e' he' => ?_) hsend
      ⟨notOvertaking_of_lowest hu₁ fun w e' he' => ?_, fun _ _ =>
        along_notOvertaking (by simp [dispatchOne])⟩
    · match w with
      | 0 => exact List.mem_singleton.mp (ht₀ ▸ he') ▸ le_rfl
      | 1 => exact List.mem_singleton.mp (ht₁ ▸ he') ▸ hle
      | w + 2 => exact absurd (hothers w ▸ he') List.not_mem_nil
    · match w with
      | 0 => exact absurd (hu₀ ▸ he') List.not_mem_nil
      | 1 => exact List.mem_singleton.mp (hu₁ ▸ he') ▸ le_rfl
      | w + 2 => exact absurd (hrest w ▸ he') List.not_mem_nil
  obtain ⟨hqueued, -⟩ := nothing_lost plainDeps _ (bootstrap_sane 0) true _ _ s₀ s₁ s₂ 0 1 entry₀
    hrun₀ hreg hidle (by simp [commitNull, dispatchOne, Action.InProcess]) halong
    (run_append.mpr ⟨t, hcommits, run_cons.mpr ⟨u, hsend, hdone⟩⟩) hhealthy hsent hdrained
  refine ⟨s₂, r₀, r₁, hevents, ?_, ?_⟩
  · exact hqueued r₀ (by simp [hevents]) (by simp [hnew]) hinternal.1 hcovers.1
  · exact hqueued r₁ (by simp [hevents]) (by simp [hnew]) hinternal.2 hcovers.2

/-- Two writers commit one after the other and send in the opposite order: the first
event is never delivered. -/
theorem overtaken_event_lost : ¬ ∀ (d : Deps) (db : Db) (_ : db.Sane) (sysWriter : Bool)
    (as₀ as : List Action) (s₀ s₁ s₂ : World d) (i id : ℕ) (entry₀ : SubscriberEntry)
    (_ : run (worldStep d) (World.init d db sysWriter) as₀ = some s₀)
    (_ : Registers s₀ s₁ i id entry₀) (_ : ∀ w, s₁.writers w = .idle)
    (_ : ∀ a ∈ as, a.InProcess)
    (_ : run (worldStep d) s₁ as = some s₂) (_ : s₂.delivery.HealthyAt id)
    (_ : ∀ w, s₂.unsent w = []) (_ : s₂.channel.pending = []),
    ∀ r ∈ s₂.db.events, r ∉ s₁.db.events → internal r.streamId = false →
      entry₀.covers r.streamId r.branch = true → Queued s₂ id r := by
  intro h
  let as := commitNull 0 "a" ++ commitNull 1 "b" ++ [.send 1, .send 0] ++ dispatchOne ++ dispatchOne
  have hmodel : ∀ a ∈ as, a.InProcess := by
    simp [as, commitNull, dispatchOne, Action.InProcess]
  have hlost := h plainDeps _ (bootstrap_sane 0) true (seedNull (.postCommit 8)) as _ _ _ 0 1 _ rfl
    ⟨rfl, rfl, _, _, _, _, rfl, rfl⟩ (fun w => rfl) hmodel rfl
    ⟨_, rfl, rfl, _, _, _, rfl, by decide⟩ ?_ rfl
  · have hmem := (hlost _ List.mem_cons_self List.not_mem_nil (by decide) (by decide)).mem_accepted
    revert hmem
    decide
  · intro w
    match w with
    | 0 => rfl
    | 1 => rfl
    | w + 2 => rfl

end Fossic
