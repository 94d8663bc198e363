/-
Delivery of what other processes commit.

The WAL watcher sends rows to the same channel as the writers of the store.  A round
starts no higher than the cursor of an exact subscription, so what lies between has
been sent, and its rows come in order (`RoundInTurn`); a round therefore never makes
delivery skip anything.  A writer does, when it sends an event while a lower version,
committed by another process, has not been scanned yet.

* `roundInTurn_step` — rounds stay in turn;
* `Outstanding` — what a round has yet to send, and `outstanding_step`, that it does;
* `runningAt_of_worldRun` — a handler thread ends only by a panic of its own;
* `cross_process_complete` — a round that starts after the last commit completes the
  queue, if no writer was ahead of a foreign row (`NotAhead`), the handler has not panicked,
  and the round could decode what it fetched (`FetchParses`).
-/
import Fossic.PostCommit

namespace Fossic

open BoundedChannel Transition KeyedList KeySort HighWater Function

variable {d : Deps} {s s' : World d} {a : Action} {id : ℕ} {entry₀ : SubscriberEntry}
  {streamId branch : String} {base v : ℤ} {before : List ℤ}

/-- A writer sends an event of the stream and branch only when every lower version
committed since `base` has been sent. -/
def NotAhead (streamId branch : String) (base : ℤ) (s : World d) : Action → Prop
  | .send w => ∀ e events, s.writers w = .sending [] (e :: events) → e.streamId = streamId →
    e.branch = branch → InTurn s base e
  | _ => True

/-- A round that fetches the stream and branch can decode all that it finds. -/
def FetchParses (streamId branch : String) (s : World d) : Action → Prop
  | .scan (.fetch i) => ∀ groups m, s.scan = .sending groups [] →
    groups[i]? = some ((streamId, branch), m) →
      ∀ r ∈ s.db.events, r.On streamId branch → m < r.version → r.tagsParse = true
  | _ => True

/-- The subscription is registered and has not been degraded. -/
def NotDegraded (s : World d) (id : ℕ) : Prop :=
  ∃ entry, s.registry.get id = some entry ∧ entry.degraded = false

/-- The round under way has read no cursor above `base` for the stream and branch. -/
def Scan.Low (streamId branch : String) (base : ℤ) : Scan → Prop
  | .idle => True
  | .listing cursors => ∀ c ∈ cursors, c.2.2.1 = branch → globMatches c.2.1 streamId = true →
    c.2.2.2 ≤ base
  | .sending groups _ => ∀ m, ((streamId, branch), m) ∈ groups → m ≤ base

/-! ### The minimum of a group -/

section Groups

variable {allStreams : List String} {cursors : List (ℕ × String × String × ℤ)}
  {key : String × String} {m : ℤ}

theorem groupMin_le (hm : (key, m) ∈ groupMin allStreams cursors)
    {c : ℕ × String × String × ℤ} (hc : c ∈ cursors)
    (hkey : key ∈ expand allStreams c.2.1 c.2.2.1) : m ≤ c.2.2.2 := by
  by_contra hlt
  obtain ⟨m', hm', hlt'⟩ := exists_lt_groupMin.mpr ⟨c, hc, hkey, not_le.mp hlt⟩
  obtain rfl := Option.some_inj.mp ((find_of_mem nodup_groupMin hm).symm.trans hm')
  exact lt_irrefl _ hlt'

theorem exists_of_groupMin (hm : (key, m) ∈ groupMin allStreams cursors) :
    ∃ c ∈ cursors, key ∈ expand allStreams c.2.1 c.2.2.1 := by
  obtain ⟨c, hc, hkey, -⟩ := exists_lt_groupMin.mp
    ⟨m, find_of_mem nodup_groupMin hm, lt_add_one m⟩
  exact ⟨c, hc, hkey⟩

theorem of_mem_expand {pattern branch' : String}
    (h : (streamId, branch) ∈ expand allStreams pattern branch') :
    branch' = branch ∧ globMatches pattern streamId = true := by
  rw [expand] at h
  split at h
  · obtain ⟨t, ht, heq⟩ := List.mem_map.mp h
    obtain ⟨rfl, rfl⟩ := Prod.mk.inj heq
    exact ⟨rfl, (List.mem_filter.mp ht).2⟩
  · rename_i hglob
    obtain ⟨rfl, rfl⟩ := Prod.mk.inj (List.mem_singleton.mp h)
    rw [globMatches_of_not_isGlob (by simpa using hglob)]
    exact ⟨rfl, rfl⟩

theorem mem_expand_exact (h : isGlob streamId = false) :
    (streamId, branch) ∈ expand allStreams streamId branch := by
  rw [expand, if_neg (by simp [h])]
  exact List.mem_cons_self

end Groups

/-! ### Rows of a group -/

/-- The versions fetched for a group, in order. -/
theorem keyVersions_fetch {db : Db} {m : ℤ} (hsane : db.Sane) :
    keyVersions streamId branch ((fetchAfter db (streamId, branch) m).map rowToEvent) =
      (fetchAfter db (streamId, branch) m).map (·.version) := by
  have hon : ∀ e ∈ (fetchAfter db (streamId, branch) m).map rowToEvent,
      (e.streamId = streamId && e.branch = branch) = true := by
    intro e he
    obtain ⟨r, hr, rfl⟩ := List.mem_map.mp he
    obtain ⟨-, ⟨hs, hb⟩, -⟩ := mem_fetchAfter.mp hr
    simp only [rowToEvent, hs, hb, decide_true, Bool.and_true]
  rw [keyVersions, List.filter_eq_self.mpr hon, List.map_map]
  refine List.map_congr_left fun r hr => ?_
  have hrange := hsane.range r (mem_fetchAfter.mp hr).1
  exact u64AsI64_i64AsU64 hrange.1 hrange.2

theorem keyVersions_fetch_other {db : Db} {m : ℤ} {key : String × String}
    (hkey : key ≠ (streamId, branch)) :
    keyVersions streamId branch ((fetchAfter db key m).map rowToEvent) = [] := by
  rw [List.eq_nil_iff_forall_not_mem]
  intro v hv
  obtain ⟨e, he, hs, hb, -⟩ := mem_keyVersions.mp hv
  obtain ⟨r, hr, rfl⟩ := List.mem_map.mp he
  obtain ⟨-, ⟨hs', hb'⟩, -⟩ := mem_fetchAfter.mp hr
  exact hkey (Prod.ext (hs'.symm.trans hs) (hb'.symm.trans hb))

/-! ### Rounds in turn -/

/-- Everything committed between `base` and `m` has been sent, and later commits are
above `m`. -/
structure Reached (db : Db) (sent : List StoredEvent) (streamId branch : String) (base m : ℤ) :
    Prop where
  le : m ≤ db.maxVersion streamId branch
  sent : ∀ u ∈ db.versions streamId branch, base < u → u ≤ m →
    u ∈ keyVersions streamId branch sent

theorem Reached.mono {db : Db} {sent : List StoredEvent} {m m' : ℤ}
    (h : Reached db sent streamId branch base m) (hm : m' ≤ m) :
    Reached db sent streamId branch base m' :=
  ⟨hm.trans h.le, fun u hu hbase hle => h.sent u hu hbase (hle.trans hm)⟩

theorem reached_of_le {db : Db} {sent : List StoredEvent} {m : ℤ}
    (hbase : base ≤ db.maxVersion streamId branch) (hm : m ≤ base) :
    Reached db sent streamId branch base m :=
  ⟨hm.trans hbase, fun _ _ hlt hle => absurd (hlt.trans_le (hle.trans hm)) (lt_irrefl _)⟩

/-- What the watcher holds for the stream and branch is in turn. -/
def RoundInTurn (db : Db) (sent : List StoredEvent) (streamId branch : String) (base : ℤ) :
    Scan → Prop
  | .idle => True
  | .listing cursors => ∀ allStreams m,
    ((streamId, branch), m) ∈ groupMin allStreams cursors →
      Reached db sent streamId branch base m
  | .sending groups events =>
    (∀ m, ((streamId, branch), m) ∈ groups → Reached db sent streamId branch base m) ∧
    InOrderAfter (· ∈ db.versions streamId branch) base
      (keyVersions streamId branch sent) (keyVersions streamId branch events)

theorem reached_step {m : ℤ} (hinv : WorldInv s) (hstep : worldStep d s a = some s')
    (h : Reached s.db s.channel.sent streamId branch base m) :
    Reached s'.db s'.channel.sent streamId branch base m where
  le := h.le.trans ((later_of_step hstep).maxVersion_le (sane_of_step hstep hinv.sane))
  sent := by
    intro u hu hbase hle
    rcases (later_of_step hstep).versions (sane_of_step hstep hinv.sane) hu with hold | hnew
    · exact keyVersions_subset (sent_subset_of_step hstep) (h.sent u hold hbase hle)
    · exact absurd (h.le.trans_lt hnew) (not_lt.mpr hle)

/-- Events that the watcher holds stay in order while others commit and send. -/
theorem inOrderAfter_step {events : List StoredEvent} (hinv : WorldInv s)
    (hstep : worldStep d s a = some s') (hrecorded : ∀ e ∈ events, Recorded s.db e)
    (h : InOrderAfter (· ∈ s.db.versions streamId branch) base
      (keyVersions streamId branch s.channel.sent) (keyVersions streamId branch events)) :
    InOrderAfter (· ∈ s'.db.versions streamId branch) base
      (keyVersions streamId branch s'.channel.sent) (keyVersions streamId branch events) := by
  refine (h.mono fun u hu => ?_).mono_seen (keyVersions_subset (sent_subset_of_step hstep))
  refine ((later_of_step hstep).versions (sane_of_step hstep hinv.sane) hu).imp_right ?_
  intro hnew v hv
  have hv' := mem_versions_of_keyVersions hinv.sane hrecorded hv
  exact (Db.version_le_maxVersion hv').trans_lt hnew

/-- Rounds stay in turn while others commit and send. -/
theorem roundInTurn_mono (hinv : WorldInv s) (hstep : worldStep d s a = some s')
    (h : RoundInTurn s.db s.channel.sent streamId branch base s.scan) :
    RoundInTurn s'.db s'.channel.sent streamId branch base s.scan := by
  have hrecorded := hinv.scanned
  cases hscan : s.scan with
  | idle => trivial
  | listing cursors =>
    rw [hscan] at h
    exact fun allStreams m hm => reached_step hinv hstep (h allStreams m hm)
  | sending groups events =>
    rw [hscan] at h hrecorded
    exact ⟨fun m hm => reached_step hinv hstep (h.1 m hm),
      inOrderAfter_step hinv hstep hrecorded h.2⟩

/-- The cursor of a healthy subscription has been reached. -/
theorem reached_cursor (hinv : WorldInv s) (h : Following s id entry₀ streamId branch base before)
    (hhealthy : s.delivery.HealthyAt id) (hcovers : entry₀.covers streamId branch = true)
    (hbase : base ≤ s.db.maxVersion streamId branch) {entry : SubscriberEntry}
    (hget : s.delivery.registry.get id = some entry) :
    Reached s.db s.channel.sent streamId branch base (entry.cursor streamId branch) := by
  obtain ⟨entry', hget', hh⟩ := hhealthy
  obtain rfl := Option.some_inj.mp (hget.symm.trans hget')
  have hmark := h.flowing.marks entry hget hh streamId branch hcovers
  -- a cursor waiting for its second pass lags behind the mark, never ahead of it
  have hle : entry.cursor streamId branch ≤ nextCursor s.delivery id entry streamId branch := by
    rw [nextCursor]
    split
    · exact le_rfl
    · split
      · exact le_max_left _ _
      · exact le_rfl
  refine Reached.mono ?_ (hle.trans hmark.le)
  rcases mark_cases (c := entry₀.cursor streamId branch)
    (l := keyVersions streamId branch (offered s.delivery id)) with hm | hm
  · rw [hm]
    exact reached_of_le hbase h.seed
  · -- the mark is a version that was sent, and everything below it came before it
    have hoffered : offered s.delivery id ⊆ Fifo.sent s.channel :=
      fun e he => Fifo.mem_sent_of_received (hinv.offered id e he)
    have hsent := keyVersions_subset hoffered hm
    refine ⟨Db.version_le_maxVersion (mem_versions_of_keyVersions hinv.sane hinv.sent hsent), ?_⟩
    intro u hu hub hle
    rcases hle.lt_or_eq with hlt | heq
    · exact h.order.mem_of_lt hsent (hub.trans hlt) hub hlt hu
    · rw [heq]
      exact hsent

/-- The subscription's own entry among the cursors that a round reads. -/
theorem mem_cursors_of_healthy {reg : Registry} {entry : SubscriberEntry}
    (hget : reg.get id = some entry) (hhealthy : entry.Healthy)
    (hglob : isGlob entry.streamPattern = false) :
    (id, entry.streamPattern, entry.branch, entry.cursor streamId branch)
      ∈ reg.postCommitCursors := by
  obtain ⟨hdegraded, tx, w, sc, hkind, -⟩ := hhealthy
  refine mem_postCommitCursors.mpr ⟨entry, hget, hdegraded, rfl, rfl, ?_⟩
  rw [SubscriberEntry.scanStart, SubscriberEntry.cursor, hkind]
  simp [hglob, cursorOf]

/-- An exact subscription is for one stream and branch. -/
theorem exact_of_covers {entry : SubscriberEntry} (hglob : isGlob entry.streamPattern = false)
    (hcovers : entry.covers streamId branch = true) :
    entry.streamPattern = streamId ∧ entry.branch = branch := by
  simp only [SubscriberEntry.covers, Bool.and_eq_true, decide_eq_true_eq,
    globMatches_of_not_isGlob hglob] at hcovers
  exact ⟨hcovers.2, hcovers.1.1⟩

/-- **The watcher's own steps keep rounds in turn**, when the cursors that a round
reads have been reached. -/
theorem roundInTurn_scan {reg : Registry} {db : Db} {scan scan' : Scan}
    {channel channel' : Fifo StoredEvent} {b : ScanAction} (hsane : db.Sane)
    (hstart : ∀ allStreams m,
      ((streamId, branch), m) ∈ groupMin allStreams reg.postCommitCursors →
        Reached db channel.sent streamId branch base m)
    (hround : RoundInTurn db channel.sent streamId branch base scan)
    (h : ScanEffect reg db scan channel b scan' channel') :
    RoundInTurn db channel'.sent streamId branch base scan' := by
  cases h with
  | skipped => trivial
  | started => exact hstart
  | listed => exact ⟨fun m hm => hround _ m hm, inOrderAfter_nil⟩
  | fetched _ groups i g hg =>
    refine ⟨fun m hm => hround.1 m (List.mem_of_mem_eraseIdx hm), ?_⟩
    obtain ⟨key, m⟩ := g
    by_cases hkey : key = (streamId, branch)
    · -- what is fetched starts right after the group's cursor, which has been reached
      subst hkey
      have hreached := hround.1 m (List.mem_of_getElem? hg)
      rw [keyVersions_fetch hsane]
      refine inOrderAfter_of_sorted (m := m) ?_ (fun u hu hle hC => hreached.sent u hC hu hle) ?_
      · exact List.pairwise_map.mpr (sortBy_sorted _ _)
      · intro u hu hC
        obtain ⟨r, hr, hon, rfl⟩ := db.mem_versions.mp hC
        exact List.mem_map.mpr ⟨r, mem_fetchAfter.mpr ⟨hr, hon, hu⟩, rfl⟩
    · rw [keyVersions_fetch_other hkey]
      exact inOrderAfter_nil
  | unreadable => exact ⟨fun m hm => hround.1 m (List.mem_of_mem_eraseIdx hm), inOrderAfter_nil⟩
  | sent _ groups e events =>
    obtain ⟨hreached, horder⟩ := hround
    rw [← List.singleton_append, keyVersions_append, keyVersions_singleton] at horder
    rw [Fifo.sent_send]
    refine ⟨fun m hm => ⟨(hreached m hm).le, fun u hu hlt hle => ?_⟩, ?_⟩
    · exact keyVersions_subset (List.subset_append_left _ _) ((hreached m hm).sent u hu hlt hle)
    · rw [keyVersions_append, keyVersions_singleton]
      split
      · rename_i hkey
        rw [if_pos hkey] at horder
        exact horder.tail
      · rename_i hkey
        rw [if_neg hkey] at horder
        rwa [List.append_nil]
  | finished => trivial

/-! ### The invariant -/

/-- What a run from the registration on keeps: as long as the subscription is
healthy, it is followed and rounds are in turn. -/
structure Watched (s : World d) (id : ℕ) (entry₀ : SubscriberEntry) (streamId branch : String)
    (base : ℤ) (before : List ℤ) : Prop where
  inv : WorldInv s
  flowing : Flowing s.delivery id entry₀
  base_le : base ≤ s.db.maxVersion streamId branch
  following : s.delivery.HealthyAt id → Following s id entry₀ streamId branch base before
  round : s.delivery.HealthyAt id →
    RoundInTurn s.db s.channel.sent streamId branch base s.scan

/-- The cursor of a healthy exact subscription is among those that a round reads. -/
theorem cursor_of_healthy (h : Watched s id entry₀ streamId branch base before)
    (hglob : isGlob entry₀.streamPattern = false) (hcovers : entry₀.covers streamId branch = true)
    (hhealthy : s.delivery.HealthyAt id) :
    ∃ entry, s.registry.get id = some entry ∧ entry.streamPattern = streamId ∧
      entry.branch = branch ∧ (id, entry.streamPattern, entry.branch,
        entry.cursor streamId branch) ∈ s.registry.postCommitCursors := by
  obtain ⟨entry, hget, hh⟩ := hhealthy
  have hconfig := h.flowing.config entry hget
  obtain ⟨hpattern, hbranch⟩ := exact_of_covers hglob hcovers
  have hglob' : isGlob entry.streamPattern = false := by rw [hconfig.1]; exact hglob
  exact ⟨entry, hget, hconfig.1.trans hpattern, hconfig.2.1.trans hbranch,
    mem_cursors_of_healthy hget hh hglob'⟩

/-- A round that starts now reads the subscription's cursor, which has been reached. -/
theorem reached_start (h : Watched s id entry₀ streamId branch base before)
    (hglob : isGlob entry₀.streamPattern = false) (hcovers : entry₀.covers streamId branch = true)
    (hhealthy : s.delivery.HealthyAt id) (allStreams : List String) (m : ℤ)
    (hm : ((streamId, branch), m) ∈ groupMin allStreams s.registry.postCommitCursors) :
    Reached s.db s.channel.sent streamId branch base m := by
  obtain ⟨entry, hget, hpattern, hbranch, hmem⟩ := cursor_of_healthy h hglob hcovers hhealthy
  have hreached := reached_cursor h.inv (h.following hhealthy) hhealthy hcovers h.base_le hget
  refine hreached.mono (groupMin_le hm hmem ?_)
  rw [hpattern, hbranch]
  exact mem_expand_exact ((exact_of_covers hglob hcovers).1 ▸ hglob)

theorem roundInTurn_step (h : Watched s id entry₀ streamId branch base before)
    (hglob : isGlob entry₀.streamPattern = false) (hcovers : entry₀.covers streamId branch = true)
    (hhealthy : s.delivery.HealthyAt id) (hstep : worldStep d s a = some s') :
    RoundInTurn s'.db s'.channel.sent streamId branch base s'.scan := by
  have hmono := roundInTurn_mono h.inv hstep (h.round hhealthy)
  cases effect_of_step hstep with
  | quiet _ _ _ hscan => exact hscan ▸ hmono
  | committed _ _ _ _ _ _ _ _ _ _ _ hscan => exact hscan ▸ hmono
  | grown _ _ _ _ _ _ _ hscan => exact hscan ▸ hmono
  | sent _ _ _ _ _ _ _ hscan => exact hscan ▸ hmono
  | taken _ _ _ _ hscan => exact hscan ▸ hmono
  | scanned b hscan hdb =>
    rw [hdb]
    exact roundInTurn_scan h.inv.sane (reached_start h hglob hcovers hhealthy) (h.round hhealthy)
      (scanEffect_of_step hscan)

/-- What the watcher sends is in turn. -/
theorem inTurn_of_round {e : StoredEvent}
    (h : RoundInTurn s.db s.channel.sent e.streamId e.branch base s.scan)
    (hsends : ∃ groups events, s.scan = .sending groups (e :: events)) : InTurn s base e := by
  obtain ⟨groups, events, hscan⟩ := hsends
  rw [hscan] at h
  have horder := h.2
  rw [← List.singleton_append, keyVersions_append, keyVersions_singleton, if_pos ⟨rfl, rfl⟩]
    at horder
  exact horder.head

theorem watched_step (hinternal : internal streamId = false)
    (hglob : isGlob entry₀.streamPattern = false) (hcovers : entry₀.covers streamId branch = true)
    (h : Watched s id entry₀ streamId branch base before) (hcond : NotAhead streamId branch base s a)
    (hstep : worldStep d s a = some s') : Watched s' id entry₀ streamId branch base before := by
  have hhealthy : s'.delivery.HealthyAt id → s.delivery.HealthyAt id :=
    healthyAt_of_worldStep h.flowing.known hstep
  refine ⟨worldInv_step h.inv hstep, flowing_of_worldStep h.flowing hstep, ?_, fun hh => ?_,
    fun hh => roundInTurn_step h hglob hcovers (hhealthy hh) hstep⟩
  · exact h.base_le.trans ((later_of_step hstep).maxVersion_le (sane_of_step hstep h.inv.sane))
  · refine following_step h.inv hinternal (h.following (hhealthy hh)) hstep ?_
    rintro e hsends rfl rfl
    cases a with
    | send w =>
      obtain ⟨events, hw⟩ := hsends
      exact hcond e events hw rfl rfl
    | scan b =>
      cases b with
      | send => exact inTurn_of_round (h.round (hhealthy hh)) hsends
      | _ => exact hsends.elim
    | _ => exact hsends.elim

theorem watched_run {as : List Action} (hinternal : internal streamId = false)
    (hglob : isGlob entry₀.streamPattern = false) (hcovers : entry₀.covers streamId branch = true)
    (h : Watched s id entry₀ streamId branch base before)
    (hcond : Along (worldStep d) (NotAhead streamId branch base) s as)
    (hrun : run (worldStep d) s as = some s') :
    Watched s' id entry₀ streamId branch base before :=
  run_invariant (fun _ _ _ h hP hstep => watched_step hinternal hglob hcovers h hP hstep) h hcond
    hrun

/-- A round under way at the registration is in turn if it has read no cursor above
the versions of then. -/
theorem roundInTurn_of_low {db : Db} {sent : List StoredEvent} {scan : Scan}
    (hbase : base ≤ db.maxVersion streamId branch) (hlow : scan.Low streamId branch base)
    (hevents : ∀ v ∈ keyVersions streamId branch scan.events, v ≤ base) :
    RoundInTurn db sent streamId branch base scan := by
  cases scan with
  | idle => trivial
  | listing cursors =>
    intro allStreams m hm
    obtain ⟨c, hc, hkey⟩ := exists_of_groupMin hm
    obtain ⟨hb, hmatch⟩ := of_mem_expand hkey
    exact reached_of_le hbase ((groupMin_le hm hc hkey).trans (hlow c hc hb hmatch))
  | sending groups events =>
    refine ⟨fun m hm => reached_of_le hbase (hlow m hm), ?_⟩
    exact (inOrder_of_le hevents).mono_seen (List.nil_subset _)

theorem watched_of_registers {i : ℕ} (hinv : WorldInv s) (hseeded : Seeded s)
    (hreg : Registers s s' i id entry₀) (hcovers : entry₀.covers streamId branch = true)
    (hlow : s'.scan.Low streamId branch (s'.db.maxVersion streamId branch)) :
    Watched s' id entry₀ streamId branch (s'.db.maxVersion streamId branch)
      (keyVersions streamId branch s'.channel.received) := by
  have hfollowing := following_of_registers hinv hseeded hreg hcovers
  have hinv' := worldInv_step hinv hreg.step
  refine ⟨hinv', hfollowing.flowing, le_rfl, fun _ => hfollowing, fun _ => ?_⟩
  refine roundInTurn_of_low le_rfl hlow fun v hv => ?_
  exact Db.version_le_maxVersion (mem_versions_of_keyVersions hinv'.sane hinv'.scanned hv)

/-! ### A round sends everything above its start -/

/-- The round has the version still to send. -/
def Scan.Outstanding (streamId branch : String) (v : ℤ) : Scan → Prop
  | .idle => False
  | .listing cursors => ∃ c ∈ cursors, c.2.1 = streamId ∧ c.2.2.1 = branch ∧ c.2.2.2 < v
  | .sending groups events =>
    (∃ m, ((streamId, branch), m) ∈ groups ∧ m < v) ∨ v ∈ keyVersions streamId branch events

/-- Another group than the one that was taken. -/
theorem mem_eraseIdx_of_ne {α : Type} {l : List α} {i : ℕ} {x y : α} (hx : x ∈ l)
    (hy : l[i]? = some y) (hne : y ≠ x) : x ∈ l.eraseIdx i := by
  obtain ⟨j, hj⟩ := List.mem_iff_getElem?.mp hx
  refine List.mem_eraseIdx_iff_getElem?.mpr ⟨j, fun hij => hne ?_, hj⟩
  rw [hij, hy] at hj
  exact Option.some_inj.mp hj

theorem outstanding_scan {reg : Registry} {db : Db} {scan scan' : Scan}
    {channel channel' : Fifo StoredEvent} {b : ScanAction} (hsane : db.Sane)
    (hexact : isGlob streamId = false) (hv : v ∈ db.versions streamId branch)
    (hparse : ∀ i groups m, b = .fetch i → scan = .sending groups [] →
      groups[i]? = some ((streamId, branch), m) →
        ∀ r ∈ db.events, r.On streamId branch → m < r.version → r.tagsParse = true)
    (h : scan.Outstanding streamId branch v) (hstep : ScanEffect reg db scan channel b scan' channel') :
    v ∈ keyVersions streamId branch channel'.sent ∨ scan'.Outstanding streamId branch v := by
  cases hstep with
  | skipped => exact h.elim
  | started => exact h.elim
  | listed _ cursors =>
    obtain ⟨c, hc, hpattern, hbranch, hlt⟩ := h
    have hkey : (streamId, branch) ∈ expand (listAllStreams db) c.2.1 c.2.2.1 := by
      rw [hpattern, hbranch]
      exact mem_expand_exact hexact
    obtain ⟨m, hm, hmv⟩ := exists_lt_groupMin.mpr ⟨c, hc, hkey, hlt⟩
    exact .inr (.inl ⟨m, mem_of_find hm, hmv⟩)
  | fetched _ groups i g hg =>
    rcases h with ⟨m, hm, hmv⟩ | hnil
    · by_cases hgm : g = ((streamId, branch), m)
      · -- the group with the version: it is among the rows that are fetched
        subst hgm
        obtain ⟨r, hr, hon, rfl⟩ := db.mem_versions.mp hv
        refine .inr (.inr ?_)
        rw [keyVersions_fetch hsane]
        exact List.mem_map.mpr ⟨r, mem_fetchAfter.mpr ⟨hr, hon, hmv⟩, rfl⟩
      · exact .inr (.inl ⟨m, mem_eraseIdx_of_ne hm hg hgm, hmv⟩)
    · exact absurd hnil List.not_mem_nil
  | unreadable _ groups i g hg r hr hnot =>
    rcases h with ⟨m, hm, hmv⟩ | hnil
    · refine .inr (.inl ⟨m, mem_eraseIdx_of_ne hm hg ?_, hmv⟩)
      -- the group with the version can be read
      rintro rfl
      obtain ⟨hmem, hon, hlt⟩ := mem_fetchAfter.mp hr
      exact Bool.false_ne_true (hnot.symm.trans (hparse i groups m rfl rfl hg r hmem hon hlt))
    · exact absurd hnil List.not_mem_nil
  | sent _ groups e events =>
    rcases h with hgroup | hmem
    · exact .inr (.inl hgroup)
    · rw [← List.singleton_append, keyVersions_append] at hmem
      rw [Fifo.sent_send, keyVersions_append]
      rcases List.mem_append.mp hmem with hmem | hmem
      · exact .inl (List.mem_append_right _ hmem)
      · exact .inr (.inr hmem)
  | finished =>
    rcases h with ⟨m, hm, -⟩ | hnil
    · exact absurd hm List.not_mem_nil
    · exact absurd hnil List.not_mem_nil

/-- What is committed and outstanding stays so until it is sent. -/
theorem outstanding_step (hsane : s.db.Sane) (hexact : isGlob streamId = false)
    (hv : v ∈ s.db.versions streamId branch) (hparse : FetchParses streamId branch s a)
    (h : v ∈ keyVersions streamId branch s.channel.sent ∨ s.scan.Outstanding streamId branch v)
    (hstep : worldStep d s a = some s') :
    v ∈ keyVersions streamId branch s'.channel.sent ∨ s'.scan.Outstanding streamId branch v := by
  rcases h with hsent | hout
  · exact .inl (keyVersions_subset (sent_subset_of_step hstep) hsent)
  · cases effect_of_step hstep with
    | quiet _ _ _ hscan => exact .inr (hscan ▸ hout)
    | committed _ _ _ _ _ _ _ _ _ _ _ hscan => exact .inr (hscan ▸ hout)
    | grown _ _ _ _ _ _ _ hscan => exact .inr (hscan ▸ hout)
    | sent _ _ _ _ _ _ _ hscan => exact .inr (hscan ▸ hout)
    | taken _ _ _ _ hscan => exact .inr (hscan ▸ hout)
    | scanned b hscan =>
      refine outstanding_scan hsane hexact hv ?_ hout (scanEffect_of_step hscan)
      rintro i groups m rfl hgroups hi
      exact hparse groups m hgroups hi

/-- **A round that has finished has sent everything outstanding at its start.** -/
theorem sent_of_outstanding {as : List Action} (hsane : s.db.Sane)
    (hexact : isGlob streamId = false) (hv : v ∈ s.db.versions streamId branch)
    (hparse : Along (worldStep d) (FetchParses streamId branch) s as)
    (h : v ∈ keyVersions streamId branch s.channel.sent ∨ s.scan.Outstanding streamId branch v)
    (hrun : run (worldStep d) s as = some s') (hidle : s'.scan = .idle) :
    v ∈ keyVersions streamId branch s'.channel.sent := by
  have hend := run_invariant
    (I := fun s => s.db.Sane ∧ v ∈ s.db.versions streamId branch ∧
      (v ∈ keyVersions streamId branch s.channel.sent ∨ s.scan.Outstanding streamId branch v))
    (fun s a s' hs hparse hstep => ⟨sane_of_step hstep hs.1,
      (later_of_step hstep).mem_versions hs.2.1,
      outstanding_step hs.1 hexact hs.2.1 hparse hs.2.2 hstep⟩) ⟨hsane, hv, h⟩ hparse hrun
  rcases hend.2.2 with hsent | hout
  · exact hsent
  · rw [hidle] at hout
    exact hout.elim

/-- When a round starts, everything that was not sent is outstanding. -/
theorem outstanding_start (h : Watched s id entry₀ streamId branch base before)
    (hglob : isGlob entry₀.streamPattern = false) (hcovers : entry₀.covers streamId branch = true)
    (hhealthy : s.delivery.HealthyAt id) (hstart : worldStep d s (.scan .start) = some s')
    (hv : v ∈ s.db.versions streamId branch) (hbase : base < v) :
    v ∈ keyVersions streamId branch s'.channel.sent ∨ s'.scan.Outstanding streamId branch v := by
  obtain ⟨entry, hget, hpattern, hbranch, hmem⟩ := cursor_of_healthy h hglob hcovers hhealthy
  -- the cursor has been reached, and what is above it the round will fetch
  rcases le_or_gt v (entry.cursor streamId branch) with hle | hlt
  · have hreached := reached_cursor h.inv (h.following hhealthy) hhealthy hcovers h.base_le hget
    exact .inl (keyVersions_subset (sent_subset_of_step hstart) (hreached.sent v hv hbase hle))
  · right
    obtain ⟨r, hr, rfl⟩ := Option.map_eq_some_iff.mp hstart
    rw [scanStep.eq_def] at hr
    split at hr
    · split at hr
      · rename_i hnone
        rw [List.isEmpty_iff.mp hnone] at hmem
        exact absurd hmem List.not_mem_nil
      · obtain rfl := Option.some_inj.mp hr
        exact ⟨_, hmem, hpattern, hbranch, hlt⟩
    all_goals contradiction

/-! ### The handler thread -/

theorem runningAt_of_worldStep (hid : id < s.registry.nextId) (ha : a ≠ .receiver id .stop)
    (hstep : worldStep d s a = some s') (h : s.delivery.RunningAt id) :
    s'.delivery.RunningAt id := by
  cases taken_of_step hstep with
  | registered _ hdelivery | unregistered hdelivery | dispatched _ hdelivery
  | offered _ _ _ _ hdelivery | advanced _ hdelivery =>
    exact runningAt_of_step hid.ne (by simp) hdelivery h
  | received hdelivery =>
    refine runningAt_of_step hid.ne (fun hop => ha ?_) hdelivery h
    obtain ⟨rfl, rfl⟩ := DeliveryOp.receiver.inj hop
    rfl
  | _ => exact h

theorem runningAt_of_worldRun {as : List Action} (hflowing : Flowing s.delivery id entry₀)
    (has : ∀ a ∈ as, a ≠ .receiver id .stop) (hrun : run (worldStep d) s as = some s')
    (h : s.delivery.RunningAt id) : s'.delivery.RunningAt id :=
  (run_invariant
    (I := fun s : World d => Flowing s.delivery id entry₀ ∧ s.delivery.RunningAt id)
    (fun _ _ _ hs ha hstep => ⟨flowing_of_worldStep hs.1 hstep,
      runningAt_of_worldStep hs.1.known ha hstep hs.2⟩) ⟨hflowing, h⟩
    (along_of_forall (Q := fun a => a ≠ Action.receiver id .stop) has) hrun).2

/-- A new subscription has a thread. -/
theorem runningAt_of_registers {i : ℕ} (hreg : Registers s s' i id entry₀)
    (hkind : entry₀.kind ≠ .synchronous) : s'.delivery.RunningAt id := by
  obtain ⟨q, mode, c, sc, hget, rfl⟩ := hreg.entry
  obtain rfl := hreg.id_eq
  have hstep := hreg.step
  rw [worldStep, hget] at hstep
  obtain ⟨delivery, hdelivery, rfl⟩ := deliver_eq_some.mp hstep
  obtain rfl := Option.some_inj.mp hdelivery
  intro entry hentry
  have hnew : (s.registry.subscribe q mode c sc).get s.registry.nextId = some entry := hentry
  rw [Registry.get_subscribe, if_pos rfl] at hnew
  obtain rfl := Option.some_inj.mp hnew
  cases mode with
  | synchronous => exact absurd rfl hkind
  | postCommit queueSize => exact ⟨_, _, _, rfl, Receiver.noConfusion⟩

theorem healthyAt_of_running (h : NotDegraded s id) (hrunning : s.delivery.RunningAt id) :
    s.delivery.HealthyAt id := by
  obtain ⟨entry, hget, hdegraded⟩ := h
  exact ⟨entry, hget, hdegraded, hrunning entry hget⟩

/-! ### Nothing is lost across processes -/

/-- **A round completes the queue**: everything committed to the stream and branch
after the registration and before a round starts, by whichever process, is in the
queue of a subscription for it once the round is done and the channel drained, if no
writer was ahead, the handler has not panicked, and the round can decode what it fetches for
the stream and branch. -/
theorem cross_process_complete (d : Deps) (db : Db) (hsane : db.Sane) (sysWriter : Bool)
    (as₀ as₁ as₂ : List Action) (s₀ s₁ s₂ s₃ s₄ : World d) (i id : ℕ) (entry₀ : SubscriberEntry)
    (streamId branch : String)
    (hrun₀ : run (worldStep d) (World.init d db sysWriter) as₀ = some s₀)
    (hreg : Registers s₀ s₁ i id entry₀) (hkind : entry₀.kind ≠ .synchronous)
    (hglob : isGlob entry₀.streamPattern = false)
    (hcovers : entry₀.covers streamId branch = true) (hinternal : internal streamId = false)
    (hlow : s₁.scan.Low streamId branch (s₁.db.maxVersion streamId branch))
    (hrun₁ : run (worldStep d) s₁ as₁ = some s₂)
    (hstart : worldStep d s₂ (.scan .start) = some s₃)
    (hrun₂ : run (worldStep d) s₃ as₂ = some s₄)
    (hcond : Along (worldStep d) (NotAhead streamId branch (s₁.db.maxVersion streamId branch)) s₁
      (as₁ ++ .scan .start :: as₂))
    (hhandler : ∀ a ∈ as₁ ++ as₂, a ≠ .receiver id .stop)
    (hparse : Along (worldStep d) (FetchParses streamId branch) s₃ as₂)
    (hdegraded : NotDegraded s₄ id) (hround : s₄.scan = .idle)
    (hdrained : s₄.channel.pending = []) :
    ∀ r ∈ s₂.db.events, r.On streamId branch → r ∉ s₁.db.events → Queued s₄ id r := by
  intro r hr hon hnew
  obtain ⟨hinv, hseeded⟩ := seeded_run hsane hrun₀
  have hwatched := watched_of_registers hinv hseeded hreg hcovers hlow
  have h₂ := watched_run hinternal hglob hcovers hwatched hcond.left hrun₁
  have h₃ := watched_step hinternal hglob hcovers h₂ (hcond.right hrun₁).1 hstart
  have h₄ := watched_run hinternal hglob hcovers h₃ ((hcond.right hrun₁).2 s₃ hstart) hrun₂
  -- the subscription is healthy to the end, and so it was all along
  have hrunning₂ := runningAt_of_worldRun hwatched.flowing
    (fun a ha => hhandler a (List.mem_append_left _ ha)) hrun₁ (runningAt_of_registers hreg hkind)
  have hrunning₃ := runningAt_of_worldStep h₂.flowing.known (by simp) hstart hrunning₂
  have hrunning₄ := runningAt_of_worldRun h₃.flowing
    (fun a ha => hhandler a (List.mem_append_right _ ha)) hrun₂ hrunning₃
  have hhealthy := healthyAt_of_running hdegraded hrunning₄
  have hhealthy₃ := healthyAt_of_worldRun h₃.flowing hrun₂ hhealthy
  have hhealthy₂ := healthyAt_of_worldStep h₂.flowing.known hstart hhealthy₃
  -- the row is outstanding at the start of the round, and sent by its end
  have hlater : Later s₂.db s₄.db := (later_of_step hstart).trans (later_of_run hrun₂)
  have hbase : s₁.db.maxVersion streamId branch < r.version := by
    rw [← hon.1, ← hon.2]
    exact (later_of_run hrun₁).lt_of_new h₂.inv.sane hr hnew
  have hv : r.version ∈ s₂.db.versions streamId branch :=
    s₂.db.mem_versions.mpr ⟨r, hr, hon, rfl⟩
  have hout := outstanding_start h₂ hglob hcovers hhealthy₂ hstart hv hbase
  obtain ⟨hpattern, -⟩ := exact_of_covers hglob hcovers
  have hsent := sent_of_outstanding h₃.inv.sane (hpattern ▸ hglob)
    ((later_of_step hstart).mem_versions hv) hparse hout hrun₂ hround
  exact queued_of_following h₄.inv (h₄.following hhealthy) hhealthy hcovers hdrained
    (hlater.kept r hr) hon hbase hsent

/-- A round with one group that has `n` rows. -/
def scanRound (n : ℕ) : List Action :=
  [.scan .list, .scan (.fetch 0)] ++ List.replicate n (.scan .send) ++ [.scan .finish]

/-- One foreign commit, found by a round. -/
theorem cross_process_complete_foreign : ∃ (s₄ : World plainDeps) (r : EventRow),
    r ∈ s₄.db.events ∧ Queued s₄ 1 r := by
  have hnone : ∀ a ∈ [.other (appendNull "f")] ++ .scan .start :: (scanRound 1 ++ dispatchOne),
      (∀ w, a ≠ .send w) ∧ a ≠ .receiver 1 .stop := by
    simp [scanRound, dispatchOne]
  have hkept := cross_process_complete plainDeps _ (bootstrap_sane 0) true
    (seedNull (.postCommit 8)) [.other (appendNull "f")] (scanRound 1 ++ dispatchOne)
    _ _ _ _ _ 0 1 _ "s" "main" rfl ⟨rfl, rfl, _, _, _, _, rfl, rfl⟩ SubscriberKind.noConfusion
    (by decide) (by decide) (by decide) trivial rfl rfl rfl ?_
    (fun a ha => (hnone a ?_).2) ?_ ⟨_, rfl, rfl⟩ rfl rfl
  · exact ⟨_, _, List.mem_cons_self, hkept _ List.mem_cons_self ⟨rfl, rfl⟩ List.not_mem_nil⟩
  · refine (along_of_forall (Q := fun a => ∀ w, a ≠ Action.send w)
      fun a ha => (hnone a ha).1).imp fun s a ha => ?_
    cases a with
    | send w => exact absurd rfl (ha w)
    | _ => trivial
  · exact List.mem_append.mpr ((List.mem_append.mp ha).imp_right (List.mem_cons_of_mem _))
  · -- the round fetches one row, which has no tags
    refine along_cons trivial rfl (along_cons ?_ rfl ?_)
    · intro groups m _ _ r hr _ _
      obtain rfl := List.mem_singleton.mp hr
      rfl
    · exact along_cons trivial rfl (along_cons trivial rfl (along_cons trivial rfl
        (along_cons trivial rfl (along_cons trivial rfl trivial))))

/-- Only one thread of the store writes. -/
def Action.OneWriter : Action → Prop
  | .beginCall w _ _ => w = 0
  | _ => True

/-- Another process commits, then the store's own writer commits and sends: the round
that follows starts above both, and the foreign event is never delivered. -/
theorem foreign_event_lost : ¬ ∀ (d : Deps) (db : Db) (_ : db.Sane) (sysWriter : Bool)
    (as₀ as₁ as₂ : List Action) (s₀ s₁ s₂ s₃ s₄ : World d) (i id : ℕ) (entry₀ : SubscriberEntry)
    (streamId branch : String) (_ : ∀ a ∈ as₀ ++ as₁ ++ as₂, a.OneWriter)
    (_ : run (worldStep d) (World.init d db sysWriter) as₀ = some s₀)
    (_ : Registers s₀ s₁ i id entry₀) (_ : entry₀.kind ≠ .synchronous)
    (_ : isGlob entry₀.streamPattern = false)
    (_ : entry₀.covers streamId branch = true) (_ : internal streamId = false)
    (_ : s₁.scan.Low streamId branch (s₁.db.maxVersion streamId branch))
    (_ : run (worldStep d) s₁ as₁ = some s₂) (_ : worldStep d s₂ (.scan .start) = some s₃)
    (_ : run (worldStep d) s₃ as₂ = some s₄) (_ : NotDegraded s₄ id)
    (_ : s₄.scan = .idle) (_ : s₄.channel.pending = []),
    ∀ r ∈ s₂.db.events, r.On streamId branch → r ∉ s₁.db.events → Queued s₄ id r := by
  intro h
  let as₁ := [.other (appendNull "f")] ++ commitNull 0 "a" ++ [.send 0] ++ dispatchOne
  have hwriter : ∀ a ∈ seedNull (.postCommit 8) ++ as₁ ++ scanRound 0, a.OneWriter := by
    simp [as₁, seedNull, commitNull, dispatchOne, scanRound, Action.OneWriter]
  have hlost := h plainDeps _ (bootstrap_sane 0) true (seedNull (.postCommit 8)) as₁ (scanRound 0)
    _ _ _ _ _ 0 1 _ "s" "main" hwriter rfl ⟨rfl, rfl, _, _, _, _, rfl, rfl⟩
    SubscriberKind.noConfusion (by decide) (by decide) (by decide) trivial rfl rfl rfl
    ⟨_, rfl, rfl⟩ rfl rfl
  have hmem := (hlost _ List.mem_cons_self ⟨rfl, rfl⟩ List.not_mem_nil).mem_accepted
  revert hmem
  decide

end Fossic
