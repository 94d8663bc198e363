/-
What every run of a store in use keeps.

The tables only grow, by rows above those already on the same stream and branch
(`Later`); every event under way, sent or offered is that of a stored row
(`Recorded`); and the registry is as `DeliveryInv` says.
-/
import Fossic.World
import Mathlib.Data.List.Pairwise

namespace Fossic

open BoundedChannel Transition KeyedList Function

/-! ### Tables -/

/-- Versions are `i64`s that count from 0, and no stream and branch has one twice. -/
structure Db.Sane (db : Db) : Prop where
  range : ∀ r ∈ db.events, 0 ≤ r.version ∧ r.version < 2 ^ 63
  distinct : db.events.Pairwise fun r r' => ¬(r.On r'.streamId r'.branch ∧ r.version = r'.version)

/-- `db'` keeps the events of `db`; those it adds are above them. -/
structure Later (db db' : Db) : Prop where
  kept : ∀ r ∈ db.events, r ∈ db'.events
  above : ∀ r ∈ db'.events, r ∈ db.events ∨
    ∀ r₀ ∈ db.events, r₀.On r.streamId r.branch → r₀.version < r.version

variable {db db' db₁ db₂ db₃ : Db} {rows : List EventRow} {P : EventRow → Prop}
  {streamId branch : String} {v : ℤ}

theorem Db.Sane.le_maxVersion (h : db.Sane) : -1 ≤ db.maxVersion streamId branch := by
  rcases db.maxVersion_attained streamId branch with hmax | ⟨r, hr, -, hmax⟩
  · rw [hmax]
  · have := h.range r hr
    omega

theorem Db.version_le_maxVersion (hv : v ∈ db.versions streamId branch) :
    v ≤ db.maxVersion streamId branch := by
  obtain ⟨r, hr, hon, rfl⟩ := db.mem_versions.mp hv
  exact db.le_maxVersion hr hon

theorem sane_insert {row : EventRow} (h : db.Sane) (hins : Insertable db row) :
    (db.insert row).Sane where
  range := by
    intro r hr
    rcases List.mem_append.mp hr with hr | hr
    · exact h.range r hr
    · obtain rfl := List.mem_singleton.mp hr
      have hmax : -1 ≤ db.maxVersion r.streamId r.branch := h.le_maxVersion
      have hnext := hins.next
      exact ⟨by omega, hins.bounded⟩
  distinct := versions_insert h.distinct hins

theorem Db.Sane.grows (hgrows : Grows P db rows db') (h : db.Sane) : db'.Sane := by
  induction hgrows with
  | refl => exact h
  | insert hins _ _ ih => exact ih (sane_insert h hins)

theorem Db.Sane.congr (hevents : db'.events = db.events) (h : db.Sane) : db'.Sane where
  range := by rw [hevents]; exact h.range
  distinct := by rw [hevents]; exact h.distinct

/-- A row is known by its stream, branch and version. -/
theorem Db.Sane.eq_of_version {r r' : EventRow} (h : db.Sane) (hr : r ∈ db.events)
    (hr' : r' ∈ db.events) (hon : r.On r'.streamId r'.branch) (hv : r.version = r'.version) :
    r = r' := by
  have : Std.Symm fun r r' : EventRow =>
      ¬(r.On r'.streamId r'.branch ∧ r.version = r'.version) :=
    ⟨fun a b hab hba => hab ⟨⟨hba.1.1.symm, hba.1.2.symm⟩, hba.2.symm⟩⟩
  by_contra hne
  exact h.distinct.forall hr hr' hne ⟨hon, hv⟩

theorem Later.refl (db : Db) : Later db db := ⟨fun _ hr => hr, fun _ hr => .inl hr⟩

theorem Later.trans (h : Later db₁ db₂) (h' : Later db₂ db₃) : Later db₁ db₃ where
  kept r hr := h'.kept r (h.kept r hr)
  above := by
    intro r hr
    rcases h'.above r hr with hr₂ | habove
    · exact h.above r hr₂
    · exact .inr fun r₀ hr₀ => habove r₀ (h.kept r₀ hr₀)

theorem later_of_grows (hdb : db.events = db₁.events) (h : Grows P db rows db') : Later db₁ db' where
  kept := by
    intro r hr
    rw [h.eq]
    exact List.mem_append_left _ (hdb ▸ hr)
  above := by
    intro r hr
    rw [h.eq] at hr
    rcases List.mem_append.mp hr with hr | hr
    · exact .inl (hdb ▸ hr)
    · exact .inr fun r₀ hr₀ => h.above r hr r₀ (hdb ▸ hr₀)

theorem Later.mem_versions (h : Later db db') (hv : v ∈ db.versions streamId branch) :
    v ∈ db'.versions streamId branch := by
  obtain ⟨r, hr, hon, rfl⟩ := db.mem_versions.mp hv
  exact db'.mem_versions.mpr ⟨r, h.kept r hr, hon, rfl⟩

/-- A version that is new is above the largest old one. -/
theorem Later.versions (h : Later db db') (hsane : db'.Sane)
    (hv : v ∈ db'.versions streamId branch) :
    v ∈ db.versions streamId branch ∨ db.maxVersion streamId branch < v := by
  obtain ⟨r, hr, hon, rfl⟩ := db'.mem_versions.mp hv
  rcases h.above r hr with hold | habove
  · exact .inl (db.mem_versions.mpr ⟨r, hold, hon, rfl⟩)
  · refine .inr ?_
    rcases db.maxVersion_attained streamId branch with hmax | ⟨r₀, hr₀, hon₀, hmax⟩
    · have := (hsane.range r hr).1
      omega
    · rw [← hmax]
      exact habove r₀ hr₀ ⟨hon₀.1.trans hon.1.symm, hon₀.2.trans hon.2.symm⟩

/-- So is that of a new row. -/
theorem Later.lt_of_new {r : EventRow} (h : Later db db') (hsane : db'.Sane) (hr : r ∈ db'.events)
    (hnew : r ∉ db.events) : db.maxVersion r.streamId r.branch < r.version := by
  rcases h.above r hr with hold | habove
  · exact absurd hold hnew
  · rcases db.maxVersion_attained r.streamId r.branch with hmax | ⟨r₀, hr₀, hon₀, hmax⟩
    · have := (hsane.range r hr).1
      omega
    · rw [← hmax]
      exact habove r₀ hr₀ hon₀

theorem Later.maxVersion_le (h : Later db db') (hsane : db'.Sane) :
    db.maxVersion streamId branch ≤ db'.maxVersion streamId branch := by
  rcases db.maxVersion_attained streamId branch with hmax | ⟨r, hr, hon, hmax⟩
  · rw [hmax]
    exact hsane.le_maxVersion
  · rw [← hmax]
    exact db'.le_maxVersion (h.kept r hr) hon

/-! ### Events of stored rows -/

def Recorded (db : Db) (e : StoredEvent) : Prop := ∃ r ∈ db.events, Describes e r

theorem Recorded.later {e : StoredEvent} (h : Later db db') (he : Recorded db e) :
    Recorded db' e := by
  obtain ⟨r, hr, hd⟩ := he
  exact ⟨r, h.kept r hr, hd⟩

theorem describes_rowToEvent (r : EventRow) : Describes (rowToEvent r) r := rfl

theorem Describes.on {e : StoredEvent} {r : EventRow} (h : Describes e r) :
    e.streamId = r.streamId ∧ e.branch = r.branch := by
  rw [h]
  exact ⟨rfl, rfl⟩

theorem Describes.version {e : StoredEvent} {r : EventRow} (h : Describes e r) (hsane : db.Sane)
    (hr : r ∈ db.events) : u64AsI64 e.version = r.version := by
  rw [h]
  exact u64AsI64_i64AsU64 (hsane.range r hr).1 (hsane.range r hr).2

/-- The versions of recorded events are those of stored rows. -/
theorem mem_versions_of_keyVersions {events : List StoredEvent} (hsane : db.Sane)
    (hrecorded : ∀ e ∈ events, Recorded db e) (hv : v ∈ keyVersions streamId branch events) :
    v ∈ db.versions streamId branch := by
  obtain ⟨e, he, hs, hb, rfl⟩ := mem_keyVersions.mp hv
  obtain ⟨r, hr, hd⟩ := hrecorded e he
  obtain ⟨hs', hb'⟩ := hd.on
  exact db.mem_versions.mpr
    ⟨r, hr, ⟨hs'.symm.trans hs, hb'.symm.trans hb⟩, (hd.version hsane hr).symm⟩

/-! ### The registry -/

section Registry

variable {s s' : DeliveryState} {op : DeliveryOp} {id : ℕ} {event : StoredEvent}

theorem nextId_le_of_step (h : deliveryStep s op = some s') :
    s.registry.nextId ≤ s'.registry.nextId := by
  cases op with
  | subscribe q mode c sc =>
    obtain rfl := Option.some_inj.mp h
    exact Nat.le_succ _
  | unsubscribe j =>
    obtain rfl := Option.some_inj.mp h
    exact le_rfl
  | receiver j step =>
    obtain ⟨reg', hreg, rfl⟩ := receiver_eq_some.mp h
    obtain ⟨_, _, _, _, -, -, _, -, rfl⟩ := receiverStep_cases hreg
    exact le_rfl
  | dispatchSync event panics =>
    obtain rfl := Option.some_inj.mp h
    exact le_rfl
  | firstPass event =>
    obtain ⟨-, rfl⟩ := firstPass_eq_some.mp h
    exact le_rfl
  | secondPass =>
    obtain ⟨a, -, rfl⟩ := secondPass_eq_some.mp h
    exact le_rfl

/-- Only a first pass makes offers. -/
theorem offers_of_step (hop : ∀ e, op ≠ .firstPass e) (h : deliveryStep s op = some s') :
    s'.offers = s.offers ∧ (s'.advancing = s.advancing ∨ s'.advancing = none) := by
  cases op with
  | firstPass event => exact absurd rfl (hop event)
  | receiver j step =>
    obtain ⟨reg', -, rfl⟩ := receiver_eq_some.mp h
    exact ⟨rfl, .inl rfl⟩
  | secondPass =>
    obtain ⟨a, -, rfl⟩ := secondPass_eq_some.mp h
    exact ⟨rfl, .inr rfl⟩
  | _ =>
    obtain rfl := Option.some_inj.mp h
    exact ⟨rfl, .inl rfl⟩

/-- The event is offered to each entry, and nothing else is. -/
theorem offered_of_firstPass (h : deliveryStep s (.firstPass event) = some s') :
    s.advancing = none ∧
      offered s' id = offered s id ++ ((s.registry.get id).map fun _ => event).toList := by
  obtain ⟨hadv, rfl⟩ := firstPass_eq_some.mp h
  refine ⟨hadv, ?_⟩
  rw [offered, offersTo_append, offersTo_outcomes, List.map_append]
  cases s.registry.get id <;> rfl

/-- The ids that the dispatcher has yet to advance have been given out. -/
def PendingKnown (s : DeliveryState) : Prop :=
  ∀ a, s.advancing = some a → ∀ id ∈ a.delivered, id < s.registry.nextId

theorem pendingKnown_step (h : deliveryStep s op = some s') (hs : PendingKnown s) :
    PendingKnown s' := by
  intro a ha id hid
  by_cases hop : ∀ e, op ≠ .firstPass e
  · rcases (offers_of_step hop h).2 with hadv | hadv
    · exact (hs a (hadv ▸ ha) id hid).trans_le (nextId_le_of_step h)
    · exact absurd (hadv.symm.trans ha) (by simp)
  · obtain ⟨event, rfl⟩ := not_forall_not.mp hop
    obtain ⟨-, rfl⟩ := firstPass_eq_some.mp h
    obtain rfl := Option.some_inj.mp ha
    obtain ⟨entry, hget, -⟩ := mem_idsWith.mp hid
    have hlt : id < s.registry.nextId := Registry.lt_nextId_of_get hget
    exact hlt

end Registry

/-! ### The invariant -/

variable {d : Deps} {s s' : World d} {a : Action}

def Scan.events : Scan → List StoredEvent
  | .sending _ events => events
  | _ => []

/-- What holds in every state of a store in use. -/
structure WorldInv (s : World d) : Prop where
  sane : s.db.Sane
  sent : ∀ e ∈ s.channel.sent, Recorded s.db e
  unsent : ∀ w, ∀ e ∈ s.unsent w, Recorded s.db e
  scanned : ∀ e ∈ s.scan.events, Recorded s.db e
  delivery : DeliveryInv s.delivery
  pending : PendingKnown s.delivery
  offered : ∀ id, ∀ e ∈ offered s.delivery id, e ∈ s.channel.received

theorem later_of_step (h : worldStep d s a = some s') : Later s.db s'.db := by
  cases effect_of_step h with
  | quiet _ hdb => exact hdb ▸ .refl _
  | committed w clock hasSubs call rows events hbegun hrows => exact later_of_grows rfl hrows
  | grown _ db rows hdb hrows => exact later_of_grows hdb hrows
  | sent w e events _ _ _ hdb => exact hdb ▸ .refl _
  | taken e _ _ hdb => exact hdb ▸ .refl _
  | scanned a _ hdb => exact hdb ▸ .refl _

theorem sane_of_step (h : worldStep d s a = some s') (hs : s.db.Sane) : s'.db.Sane := by
  cases effect_of_step h with
  | quiet _ hdb => exact hdb ▸ hs
  | committed w clock hasSubs call rows events hbegun hrows => exact hs.grows hrows
  | grown _ db rows hdb hrows => exact (hs.congr hdb).grows hrows
  | sent w e events _ _ _ hdb => exact hdb ▸ hs
  | taken e _ _ hdb => exact hdb ▸ hs
  | scanned a _ hdb => exact hdb ▸ hs

theorem later_of_run {as : List Action} (h : run (worldStep d) s as = some s') :
    Later s.db s'.db := by
  have : Std.Refl fun s s' : World d => Later s.db s'.db := ⟨fun s => .refl s.db⟩
  have : IsTrans (World d) fun s s' => Later s.db s'.db := ⟨fun _ _ _ => Later.trans⟩
  exact run_related (R := fun s s' : World d => Later s.db s'.db) (fun _ _ _ => later_of_step) h

/-! ### The watcher's steps -/

inductive ScanEffect (reg : Registry) (db : Db) : Scan → Fifo StoredEvent → ScanAction →
    Scan → Fifo StoredEvent → Prop
  | skipped (channel : Fifo StoredEvent) (hnone : reg.postCommitCursors = []) :
      ScanEffect reg db .idle channel .start .idle channel
  | started (channel : Fifo StoredEvent) :
      ScanEffect reg db .idle channel .start (.listing reg.postCommitCursors) channel
  | listed (channel : Fifo StoredEvent) (cursors : List (ℕ × String × String × ℤ)) :
      ScanEffect reg db (.listing cursors) channel .list
        (.sending (groupMin (listAllStreams db) cursors) []) channel
  | fetched (channel : Fifo StoredEvent) (groups : StreamCursors) (i : ℕ)
      (g : (String × String) × ℤ) (hg : groups[i]? = some g) :
      ScanEffect reg db (.sending groups []) channel (.fetch i)
        (.sending (groups.eraseIdx i) ((fetchAfter db g.1 g.2).map rowToEvent)) channel
  | unreadable (channel : Fifo StoredEvent) (groups : StreamCursors) (i : ℕ)
      (g : (String × String) × ℤ) (hg : groups[i]? = some g) (r : EventRow)
      (hr : r ∈ fetchAfter db g.1 g.2) (hparse : r.tagsParse = false) :
      ScanEffect reg db (.sending groups []) channel (.fetch i)
        (.sending (groups.eraseIdx i) []) channel
  | sent (channel : Fifo StoredEvent) (groups : StreamCursors) (e : StoredEvent)
      (events : List StoredEvent) : ScanEffect reg db (.sending groups (e :: events)) channel .send
        (.sending groups events) (channel.send e)
  | finished (channel : Fifo StoredEvent) :
      ScanEffect reg db (.sending [] []) channel .finish .idle channel

theorem scanEffect_of_step {reg : Registry} {db : Db} {scan scan' : Scan}
    {channel channel' : Fifo StoredEvent} {a : ScanAction}
    (h : scanStep reg db scan channel a = some (scan', channel')) :
    ScanEffect reg db scan channel a scan' channel' := by
  rw [scanStep.eq_def] at h
  split at h
  · split at h
    · rename_i hnone
      obtain ⟨rfl, rfl⟩ := Prod.mk.inj (Option.some_inj.mp h)
      exact .skipped _ (List.isEmpty_iff.mp hnone)
    · obtain ⟨rfl, rfl⟩ := Prod.mk.inj (Option.some_inj.mp h)
      exact .started _
  · obtain ⟨rfl, rfl⟩ := Prod.mk.inj (Option.some_inj.mp h)
    exact .listed _ _
  · obtain ⟨g, hg, heq⟩ := Option.map_eq_some_iff.mp h
    split at heq
    · rename_i hfetch
      obtain ⟨rfl, rfl⟩ := Prod.mk.inj heq
      obtain ⟨-, rfl⟩ := decodeRows_eq_ok_iff.mp hfetch
      exact .fetched _ _ _ g hg
    · rename_i hfetch
      obtain ⟨rfl, rfl⟩ := Prod.mk.inj heq
      obtain ⟨r, hr, hparse⟩ := decodeRows_error hfetch
      exact .unreadable _ _ _ g hg r hr hparse
  · obtain ⟨rfl, rfl⟩ := Prod.mk.inj (Option.some_inj.mp h)
    exact .sent _ _ _ _
  · obtain ⟨rfl, rfl⟩ := Prod.mk.inj (Option.some_inj.mp h)
    exact .finished _
  · exact absurd h (by simp)

theorem channel_of_scan {a : ScanAction}
    (h : scanStep s.registry s.db s.scan s.channel a = some (s'.scan, s'.channel)) :
    s'.channel = s.channel ∨ ∃ e, Sends s (.scan a) e ∧ s'.channel = s.channel.send e := by
  rw [scanStep.eq_def] at h
  split at h
  · split at h
    · exact .inl (Prod.mk.inj (Option.some_inj.mp h)).2.symm
    · exact .inl (Prod.mk.inj (Option.some_inj.mp h)).2.symm
  · exact .inl (Prod.mk.inj (Option.some_inj.mp h)).2.symm
  · obtain ⟨g, -, heq⟩ := Option.map_eq_some_iff.mp h
    split at heq <;> exact .inl (Prod.mk.inj heq).2.symm
  · rename_i groups e events hscan
    exact .inr ⟨e, ⟨groups, events, hscan⟩, (Prod.mk.inj (Option.some_inj.mp h)).2.symm⟩
  · exact .inl (Prod.mk.inj (Option.some_inj.mp h)).2.symm
  · exact absurd h (by simp)

/-- What has been sent stays so. -/
theorem sent_subset_of_step (hstep : worldStep d s a = some s') :
    s.channel.sent ⊆ s'.channel.sent := by
  cases effect_of_step hstep with
  | quiet _ _ hchannel => exact hchannel ▸ fun _ h => h
  | committed _ _ _ _ _ _ _ _ _ _ hchannel => exact hchannel ▸ fun _ h => h
  | grown _ _ _ _ _ _ hchannel => exact hchannel ▸ fun _ h => h
  | sent w e events _ _ hchannel =>
    rw [hchannel, Fifo.sent_send]
    exact List.subset_append_left _ _
  | taken e hreceive =>
    rw [Fifo.sent_receive hreceive]
    exact fun _ h => h
  | scanned a hscan =>
    rcases channel_of_scan hscan with hchannel | ⟨e, -, hchannel⟩
    · exact hchannel ▸ fun _ h => h
    · rw [hchannel, Fifo.sent_send]
      exact List.subset_append_left _ _

/-- The events of a new group come from rows. -/
theorem recorded_fetch {key : String × String} {m : ℤ} :
    ∀ e ∈ (fetchAfter db key m).map rowToEvent, Recorded db e := by
  intro e he
  obtain ⟨r, hr, rfl⟩ := List.mem_map.mp he
  rw [fetchAfter, KeySort.mem_sortBy] at hr
  exact ⟨r, List.mem_of_mem_filter hr, describes_rowToEvent r⟩

/-! ### The invariant holds over runs -/

theorem offered_of_quiet {op : DeliveryOp} {delivery : DeliveryState} {id : ℕ}
    (hop : ∀ e, op ≠ .firstPass e) (h : deliveryStep s.delivery op = some delivery) :
    offered delivery id = offered s.delivery id := by
  rw [offered, offered, (offers_of_step hop h).1]

/-- Steps that leave channel, watcher and unsent events as they are, or only record
more rows. -/
theorem worldInv_of_same (h : WorldInv s) (hsane : s'.db.Sane) (hlater : Later s.db s'.db)
    (hchannel : s'.channel = s.channel) (hscan : s'.scan = s.scan)
    (hunsent : ∀ w, ∀ e ∈ s'.unsent w, e ∈ s.unsent w ∨ Recorded s'.db e)
    (hdelivery : s'.delivery = s.delivery ∨
      ∃ op, (∀ e, op ≠ .firstPass e) ∧ deliveryStep s.delivery op = some s'.delivery) :
    WorldInv s' where
  sane := hsane
  sent := by
    rw [hchannel]
    exact fun e he => (h.sent e he).later hlater
  unsent := by
    intro w e he
    rcases hunsent w e he with hold | hnew
    · exact (h.unsent w e hold).later hlater
    · exact hnew
  scanned := by
    rw [hscan]
    exact fun e he => (h.scanned e he).later hlater
  delivery := by
    rcases hdelivery with heq | ⟨op, -, hstep⟩
    · exact heq ▸ h.delivery
    · exact deliveryInv_step h.delivery hstep
  pending := by
    rcases hdelivery with heq | ⟨op, -, hstep⟩
    · exact heq ▸ h.pending
    · exact pendingKnown_step hstep h.pending
  offered := by
    rw [hchannel]
    rcases hdelivery with heq | ⟨op, hop, hstep⟩
    · exact heq ▸ h.offered
    · intro id
      rw [offered_of_quiet hop hstep]
      exact h.offered id

theorem mem_update_unsent {w w' : ℕ} {events : List StoredEvent} {e : StoredEvent}
    (h : e ∈ update s.unsent w events w') : e ∈ s.unsent w' ∨ e ∈ events := by
  by_cases hw : w' = w
  · subst hw
    rw [update_self] at h
    exact .inr h
  · rw [update_of_ne hw] at h
    exact .inl h

theorem mem_unsent_of_sending {w : ℕ} {events : List StoredEvent} {e : StoredEvent}
    (h : s.writers w = .sending [] events) (he : e ∈ events) : e ∈ s.unsent w := by
  rw [World.unsent, h]
  exact he

theorem worldInv_taken {e : StoredEvent} (h : WorldInv s)
    (hreceive : s.channel.receive = some (e, s'.channel))
    (hdelivery : if internal e.streamId then s'.delivery = s.delivery
      else deliveryStep s.delivery (.firstPass e) = some s'.delivery)
    (hdb : s'.db = s.db) (hscan : s'.scan = s.scan) (hunsent : s'.unsent = s.unsent) :
    WorldInv s' := by
  have hreceived := (Fifo.receive_eq_some.mp hreceive).2
  have hsent : ∀ e ∈ s'.channel.sent, Recorded s'.db e := by
    rw [Fifo.sent_receive hreceive, hdb]
    exact h.sent
  have hscanned : ∀ e ∈ s'.scan.events, Recorded s'.db e := by
    rw [hscan, hdb]
    exact h.scanned
  have hunsent' : ∀ w, ∀ e ∈ s'.unsent w, Recorded s'.db e := by
    rw [hunsent, hdb]
    exact h.unsent
  have hsane : s'.db.Sane := hdb ▸ h.sane
  split at hdelivery
  · -- an internal event is taken from the channel and offered to nobody
    refine ⟨hsane, hsent, hunsent', hscanned, hdelivery ▸ h.delivery, hdelivery ▸ h.pending, ?_⟩
    intro id e' he'
    rw [hdelivery] at he'
    rw [hreceived]
    exact List.mem_append_left _ (h.offered id e' he')
  · refine ⟨hsane, hsent, hunsent', hscanned, deliveryInv_step h.delivery hdelivery,
      pendingKnown_step hdelivery h.pending, ?_⟩
    intro id e' he'
    rw [(offered_of_firstPass hdelivery).2] at he'
    rw [hreceived]
    rcases List.mem_append.mp he' with he' | he'
    · exact List.mem_append_left _ (h.offered id e' he')
    · obtain ⟨_, -, rfl⟩ : ∃ entry, s.delivery.registry.get id = some entry ∧ e = e' := by
        simpa using he'
      exact List.mem_append_right _ List.mem_cons_self

theorem worldInv_scanned {a : ScanAction} (h : WorldInv s)
    (hscan : scanStep s.registry s.db s.scan s.channel a = some (s'.scan, s'.channel))
    (hdb : s'.db = s.db) (hunsent : s'.unsent = s.unsent) (hdelivery : s'.delivery = s.delivery) :
    WorldInv s' := by
  -- a scan touches only its own events and the channel's queue
  have hkeep : (∀ e ∈ s'.channel.sent, Recorded s.db e) →
      s'.channel.received = s.channel.received → (∀ e ∈ s'.scan.events, Recorded s.db e) →
        WorldInv s' := by
    intro hsent hreceived hscanned
    refine ⟨hdb ▸ h.sane, hdb ▸ hsent, ?_, hdb ▸ hscanned, hdelivery ▸ h.delivery,
      hdelivery ▸ h.pending, ?_⟩
    · rw [hunsent, hdb]
      exact h.unsent
    · rw [hdelivery, hreceived]
      exact h.offered
  have hsent := h.sent
  have hscanned := h.scanned
  generalize s.scan = scan, s'.scan = scan', hc : s.channel = channel, hc' : s'.channel = channel'
    at *
  cases scanEffect_of_step hscan with
  | skipped => exact hkeep hsent rfl hscanned
  | started | listed | unreadable =>
    exact hkeep hsent rfl (fun _ he => absurd he List.not_mem_nil)
  | fetched => exact hkeep hsent rfl recorded_fetch
  | sent _ _ e events =>
    refine hkeep ?_ rfl fun e' he' => hscanned e' (List.mem_cons_of_mem _ he')
    intro e' he'
    rw [Fifo.sent_send] at he'
    rcases List.mem_append.mp he' with he' | he'
    · exact hsent e' he'
    · obtain rfl := List.mem_singleton.mp he'
      exact hscanned e' List.mem_cons_self
  | finished => exact hkeep hsent rfl hscanned

theorem worldInv_step (h : WorldInv s) (hstep : worldStep d s a = some s') : WorldInv s' := by
  have hlater := later_of_step hstep
  have hsane := sane_of_step hstep h.sane
  cases effect_of_step hstep with
  | quiet _ hdb hchannel hscan hunsent hdelivery =>
    refine worldInv_of_same h hsane hlater hchannel hscan (fun w e he => .inl ?_) hdelivery
    rwa [hunsent] at he
  | committed w clock hasSubs call rows events hbegun hrows hevents hunsent hchannel hscan
      hdelivery =>
    refine worldInv_of_same h hsane hlater hchannel hscan (fun w' e he => ?_) (.inl hdelivery)
    rw [hunsent] at he
    refine (mem_update_unsent he).imp_right fun hnew => ?_
    split at hnew
    · -- a new event is that of a new row
      obtain ⟨r, hr, hd⟩ := exists_of_mem_forall₂ hevents.flip (List.mem_of_mem_filter hnew)
      refine ⟨r, ?_, hd⟩
      rw [hrows.eq]
      exact List.mem_append_right _ hr
    · exact absurd hnew List.not_mem_nil
  | grown _ db rows hdb hrows _ hchannel hscan hunsent hdelivery =>
    refine worldInv_of_same h hsane hlater hchannel hscan (fun w e he => .inl ?_) (.inl hdelivery)
    rwa [hunsent] at he
  | sent w e events hsending hunsent hchannel hdb hscan hdelivery =>
    refine ⟨hsane, ?_, ?_, ?_, hdelivery ▸ h.delivery, hdelivery ▸ h.pending, ?_⟩
    · intro e' he'
      rw [hchannel, Fifo.sent_send] at he'
      rw [hdb]
      rcases List.mem_append.mp he' with he' | he'
      · exact h.sent e' he'
      · obtain rfl := List.mem_singleton.mp he'
        exact h.unsent w e' (mem_unsent_of_sending hsending List.mem_cons_self)
    · intro w' e' he'
      rw [hunsent] at he'
      rw [hdb]
      rcases mem_update_unsent he' with he' | he'
      · exact h.unsent w' e' he'
      · exact h.unsent w e' (mem_unsent_of_sending hsending (List.mem_cons_of_mem _ he'))
    · rw [hscan, hdb]
      exact h.scanned
    · rw [hdelivery, hchannel]
      exact h.offered
  | taken e hreceive hdelivery hdb hscan hunsent =>
    exact worldInv_taken h hreceive hdelivery hdb hscan hunsent
  | scanned a hscan hdb hunsent hdelivery => exact worldInv_scanned h hscan hdb hunsent hdelivery

theorem bootstrap_sane (now : Int64) : (Db.bootstrap now).Sane :=
  ⟨by simp [Db.bootstrap], .nil⟩

theorem worldInv_init {db : Db} (hsane : db.Sane) (sysWriter : Bool) :
    WorldInv (World.init d db sysWriter) where
  sane := hsane
  sent _ he := absurd he List.not_mem_nil
  unsent _ _ he := absurd he List.not_mem_nil
  scanned _ he := absurd he List.not_mem_nil
  delivery := deliveryInv_init
  pending _ ha := absurd ha (by simp [World.init, DeliveryState.init])
  offered _ _ he := absurd he List.not_mem_nil

theorem worldInv_run {as : List Action} (h : WorldInv s)
    (hrun : run (worldStep d) s as = some s') : WorldInv s' :=
  run_invariant_all (fun _ _ _ => worldInv_step) h hrun

end Fossic
