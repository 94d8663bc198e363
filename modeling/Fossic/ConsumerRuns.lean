/-
Runs of a consumer with a cursor: what it processes, and how often.

* `consumer_covers` — no event is processed more often than there are starts, and none is left
  out, if none came between the read and the registration and what is sent comes in turn;
* `subscribe_gap_loses` — an event that is there when the seed is read, but was not when the
  consumer read, is never processed, from the next cursor on.
-/
import Fossic.ConsumerCursors

namespace Fossic

open Transition KeyedList Checkpoint KeySort

variable {d : Deps} {registry : UpcasterRegistry} {fuel : ℕ} {c : Consumer} {s s' s'' : Consuming d}
  {a : ConsumerAction} {as bs : List ConsumerAction} {db : Db} {r : EventRow} {e : StoredEvent}
  {m k : ℤ} {p : Action}

/-! ### How often an event is processed -/

/-- The tables only grow, and nothing is forgotten. -/
theorem consumer_grows (hcounted : s.world.db.Counted)
    (hstep : consumerStep registry fuel c s a = some s') :
    Extends s.world.db s'.world.db ∧ s.processed <+: s'.processed := by
  cases consumerTaken_of_step hstep with
  | stepped hphase hworld => exact ⟨extends_of_worldStep hcounted hworld, List.prefix_rfl⟩
  | seeded hphase hworld | registered hphase hworld =>
    exact ⟨extends_of_worldStep hcounted hworld, List.prefix_rfl⟩
  | read | taken => exact ⟨extends_congr rfl, List.prefix_append _ _⟩
  | other | started | failed | cursorSet | crashed => exact ⟨extends_congr rfl, List.prefix_rfl⟩

/-- A row is there already, or is above everything that was. -/
theorem Extends.row_cases {db' : Db} (h : Extends db db') (hr : r ∈ c.rows db') :
    r ∈ c.rows db ∨ db.maxVersion c.streamId c.branch < r.version := by
  obtain ⟨new, hnew, habove⟩ := h.rowsOn c.streamId c.branch
  rw [Consumer.rows, hnew] at hr
  exact (List.mem_append.mp hr).imp_right (habove r)

theorem Extends.row_kept {db' : Db} (h : Extends db db') (hr : r ∈ c.rows db) : r ∈ c.rows db' := by
  obtain ⟨new, hnew, -⟩ := h.rowsOn c.streamId c.branch
  rw [Consumer.rows, hnew]
  exact List.mem_append_left _ hr

theorem Consuming.HasProcessed.mono (h : s.HasProcessed r)
    (hgrown : s.processed <+: s'.processed) : s'.HasProcessed r := by
  obtain ⟨e, he, hevent⟩ := h
  exact ⟨e, hgrown.subset he, hevent⟩

/-- Only rows that are there have been processed. -/
theorem Stands.row_of_processed (h : Stands c s m) (hr : r ∈ c.rows db)
    (hrows : ∀ row ∈ c.rows s.world.db, row ∈ c.rows db) (hsane : db.Sane)
    (hdone : ∃ e ∈ s.processed, e.version = i64AsU64 r.version) : r ∈ c.rows s.world.db := by
  obtain ⟨e, he, hversion⟩ := hdone
  obtain ⟨row, hrow, hevent⟩ := h.own e he
  have hrange := hsane.range r (mem_rowsOn.mp hr).1
  have heq : r.version = row.version := by
    rw [← hevent.version hsane (hrows row hrow), hversion, u64AsI64_i64AsU64 hrange.1 hrange.2]
  exact row_of_version hsane hr (hrows row hrow) heq ▸ hrow

/-- An event that is processed is that of the row with its version. -/
theorem Stands.hasProcessed (h : Stands c s m) (hr : r ∈ c.rows s.world.db)
    (he : e ∈ s.processed) (hversion : u64AsI64 e.version = r.version) : s.HasProcessed r := by
  obtain ⟨row, hrow, hevent⟩ := h.own e he
  have heq : row = r := row_of_version h.world.sane hrow hr
    ((hevent.version h.world.sane hrow).symm.trans hversion)
  exact ⟨e, he, heq ▸ hevent⟩

def ConsumerAction.isCrash : ConsumerAction → Bool
  | crash => true
  | _ => false

/-- Only a crash takes a consumer down. -/
theorem down_of_step (hstep : consumerStep registry fuel c s a = some s')
    (hdown : s'.phase = .down) : s.phase = .down ∨ a = .crash := by
  cases consumerTaken_of_step hstep with
  | stepped hphase hworld =>
    rcases after_eq_some hphase with ⟨i, j, -, rfl⟩ | rfl
    · exact absurd hdown (by simp)
    · exact .inl hdown
  | other | failed => exact .inl hdown
  | cursorSet hunset =>
    have hdown : s.phase.settled = .down := hdown
    cases hphase : s.phase <;> simp [hphase, ConsumerPhase.settled] at hdown ⊢
  | crashed => exact .inr rfl
  | started | read | taken | seeded | registered => exact absurd hdown (by simp)

/-- After so many crashes a row has been processed as often, and once more if the consumer has
come past it since. -/
structure OnceMore (c : Consumer) (crashes : ℕ) (s : Consuming d) (m : ℤ) : Prop where
  stands : Stands c s m
  times : ∀ r ∈ c.rows s.world.db, s.times r ≤ crashes ∨
    s.times r ≤ crashes + 1 ∧ r.version ≤ m ∧ s.phase ≠ .down

theorem OnceMore.le {crashes : ℕ} (h : OnceMore c crashes s m) (hr : r ∈ c.rows s.world.db) :
    s.times r ≤ crashes + 1 := by
  rcases h.times r hr with hle | ⟨hle, -⟩
  · exact Nat.le_succ_of_le hle
  · exact hle

/-- The row of an event that is processed. -/
theorem times_processed (hprocessed : s'.processed = s.processed ++ [e]) :
    s'.times r = s.times r + if e.version = i64AsU64 r.version then 1 else 0 := by
  rw [Consuming.times, Consuming.times, hprocessed, List.countP_append, List.countP_singleton]
  simp only [decide_eq_true_eq]

theorem OnceMore.times_eq_zero {crashes : ℕ} (h : OnceMore c crashes s m)
    (hr : r ∈ c.rows s'.world.db) (hrows : ∀ row ∈ c.rows s.world.db, row ∈ c.rows s'.world.db)
    (hsane : s'.world.db.Sane) (hnew : r ∉ c.rows s.world.db) : s.times r = 0 := by
  refine List.countP_eq_zero.mpr fun e he hversion => hnew ?_
  exact h.stands.row_of_processed hr hrows hsane ⟨e, he, of_decide_eq_true hversion⟩

/-- An event that is processed is that of a row which the consumer is not past. -/
theorem onceMore_processed {crashes : ℕ} (h : OnceMore c crashes s m) (hup : s'.phase ≠ .down)
    (hstands : Stands c s' (u64AsI64 e.version))
    (hrows : ∀ row ∈ c.rows s.world.db, row ∈ c.rows s'.world.db)
    (hprocessed : s'.processed = s.processed ++ [e]) (hversion : m < u64AsI64 e.version) :
    OnceMore c crashes s' (u64AsI64 e.version) := by
  refine ⟨hstands, fun r hr => ?_⟩
  have hsane := hstands.world.sane
  have hrange := hsane.range r (mem_rowsOn.mp hr).1
  rw [times_processed hprocessed]
  by_cases hthis : e.version = i64AsU64 r.version
  · have heq : u64AsI64 e.version = r.version := by
      rw [hthis, u64AsI64_i64AsU64 hrange.1 hrange.2]
    have hle : s.times r ≤ crashes := by
      by_cases hold : r ∈ c.rows s.world.db
      · rcases h.times r hold with hle | ⟨-, hpast, -⟩
        · exact hle
        · omega
      · rw [h.times_eq_zero hr hrows hsane hold]
        exact Nat.zero_le _
    rw [if_pos hthis]
    exact .inr ⟨Nat.succ_le_succ hle, heq.ge, hup⟩
  · rw [if_neg hthis]
    by_cases hold : r ∈ c.rows s.world.db
    · exact (h.times r hold).imp_right fun ⟨hle, hpast, _⟩ => ⟨hle, hpast.trans hversion.le, hup⟩
    · rw [h.times_eq_zero hr hrows hsane hold]
      exact .inl (Nat.zero_le _)

/-- Steps that process nothing. -/
theorem onceMore_of_same {crashes : ℕ} (h : OnceMore c crashes s m)
    (hup : s.phase ≠ .down → s'.phase ≠ .down) (hstands : Stands c s' k) (hle : m ≤ k)
    (hrows : ∀ row ∈ c.rows s.world.db, row ∈ c.rows s'.world.db)
    (hsame : s'.processed = s.processed) : OnceMore c crashes s' k := by
  refine ⟨hstands, fun r hr => ?_⟩
  have htimes : s'.times r = s.times r := by rw [Consuming.times, Consuming.times, hsame]
  rw [htimes]
  by_cases hold : r ∈ c.rows s.world.db
  · exact (h.times r hold).imp_right fun ⟨hcount, hpast, hphase⟩ =>
      ⟨hcount, hpast.trans hle, hup hphase⟩
  · rw [h.times_eq_zero hr hrows hstands.world.sane hold]
    exact .inl (Nat.zero_le _)

theorem onceMore_step {crashes : ℕ} (hcovers : c.Covers) (h : OnceMore c crashes s m)
    (hstep : consumerStep registry fuel c s a = some s') :
    ∃ k, OnceMore c (if a.isCrash then crashes + 1 else crashes) s' k := by
  obtain ⟨k, hstands, -, hmoved⟩ := stands_step hcovers h.stands hstep
  have hrows : ∀ row ∈ c.rows s.world.db, row ∈ c.rows s'.world.db := fun row hrow =>
    (consumer_grows h.stands.counted hstep).1.row_kept hrow
  cases a with
  | crash =>
    obtain rfl := Option.some_inj.mp hstep
    exact ⟨_, stands_crashed h.stands, fun r hr => .inl (h.le hr)⟩
  | _ =>
    have hup : s.phase ≠ .down → s'.phase ≠ .down := fun hphase hdown =>
      (down_of_step hstep hdown).elim hphase (by simp)
    cases hmoved with
    | still hsame => exact ⟨m, onceMore_of_same h hup hstands le_rfl hrows hsame⟩
    | read e hphase hprocessed hversion =>
      exact ⟨_, onceMore_processed h (hup hphase) hstands hrows hprocessed hversion⟩
    | taken e hphase hevent hprocessed hversion =>
      exact ⟨_, onceMore_processed h (hup (by rw [hphase]; simp)) hstands hrows hprocessed hversion⟩
    | registered _ hle hsame => exact ⟨k, onceMore_of_same h hup hstands hle hrows hsame⟩
    | crashed ha => exact absurd ha (by simp)

theorem onceMore_run {now : Int64} {sysWriter : Bool} (hcovers : c.Covers)
    (hrun : run (consumerStep registry fuel c) (.init d now sysWriter) as = some s) :
    ∃ m, OnceMore c (as.countP ConsumerAction.isCrash) s m := by
  refine run_history (J := fun as s => ∃ m, OnceMore c (as.countP ConsumerAction.isCrash) s m)
    ⟨-1, stands_init, fun _ _ => .inl (Nat.zero_le _)⟩ (fun as s a s' h _ hstep => ?_)
    along_true hrun
  obtain ⟨m, h⟩ := h
  rw [List.countP_append, List.countP_singleton]
  obtain ⟨k, hnext⟩ := onceMore_step hcovers h hstep
  cases hcrash : a.isCrash with
  | true =>
    rw [hcrash] at hnext
    exact ⟨k, hnext⟩
  | false =>
    rw [hcrash] at hnext
    exact ⟨k, hnext⟩

/-! ### What is processed before a cursor -/

/-- When the consumer registers, it has processed all that is there: no event has come between
the read and the registration. -/
def Gapless (c : Consumer) (s : Consuming d) (a : ConsumerAction) : Prop :=
  a = .subscribeInsert → ∀ r ∈ c.rows s.world.db, s.HasProcessed r

/-- While the consumer is live, an event of its stream and branch enters the dispatch channel
after all lower ones, but for those that it has processed. -/
def SentInTurn (c : Consumer) (s : Consuming d) (a : ConsumerAction) : Prop :=
  ∀ p e, a = .world p → Sends s.world p e → e.streamId = c.streamId → e.branch = c.branch →
    (∃ id taken unset, s.phase = .live id taken unset) →
    ∀ r ∈ c.rows s.world.db, r.version < u64AsI64 e.version →
      s.HasProcessed r ∨ r.version ∈ keyVersions c.streamId c.branch s.world.channel.sent

/-- The subscription `id` leaves nothing out: `base` is the largest version when it was
registered. -/
structure Lossless (c : Consumer) (s : Consuming d) (id : ℕ) (entry : SubscriberEntry) (base : ℤ)
    (before : List ℤ) : Prop where
  complete : Complete s.world id entry c.streamId c.branch base before
  covers : entry.covers c.streamId c.branch = true
  le : base ≤ s.world.db.maxVersion c.streamId c.branch
  old : ∀ r ∈ c.rows s.world.db, r.version ≤ base → s.HasProcessed r
  sent : ∀ r ∈ c.rows s.world.db, s.HasProcessed r →
    r.version ≤ base ∨ r.version ∈ keyVersions c.streamId c.branch s.world.channel.sent

/-- A consumer that has left nothing out. -/
structure Covering (c : Consumer) (s : Consuming d) (m : ℤ) : Prop where
  stands : Stands c s m
  passed : ∀ r ∈ c.rows s.world.db, r.version ≤ m → s.HasProcessed r
  cursor : ∀ r ∈ c.rows s.world.db, r.version ≤ c.mark s.cursors → s.HasProcessed r
  live : ∀ id taken unset, s.phase = .live id taken unset → ∃ entry base before,
    Lossless c s id entry base before

section Lossless

variable {id taken : ℕ} {entry : SubscriberEntry} {base : ℤ} {before : List ℤ}

theorem mem_versions_rows {v : ℤ} :
    v ∈ db.versions c.streamId c.branch ↔ ∃ r ∈ c.rows db, r.version = v := by
  rw [Db.mem_versions]
  constructor
  · rintro ⟨r, hr, hon, hv⟩
    exact ⟨r, mem_rowsOn.mpr ⟨hr, hon⟩, hv⟩
  · rintro ⟨r, hr, hv⟩
    exact ⟨r, (mem_rowsOn.mp hr).1, (mem_rowsOn.mp hr).2, hv⟩

/-- Nothing lies between what the consumer is past and the next event that its queue took. -/
theorem Lossless.next (h : Lossless c s id entry base before) (hstands : Stands c s m)
    (hphase : s.phase = .live id taken none) (hevent : (c.accepted s.world id)[taken]? = some e)
    (hr : r ∈ c.rows s.world.db) (hlt : r.version < u64AsI64 e.version) :
    s.HasProcessed r := by
  by_cases hbase : r.version ≤ base
  · exact h.old r hr hbase
  · have hqueued := h.complete.closed (u64AsI64 e.version)
      (queued_eq ▸ List.mem_map.mpr ⟨e, List.mem_of_getElem? hevent, rfl⟩) r.version
      (mem_versions_rows.mpr ⟨r, hr, rfl⟩) (not_le.mp hbase) hlt
    rw [queued_eq] at hqueued
    obtain ⟨e', he', hversion⟩ := List.mem_map.mp hqueued
    have hahead := hstands.ahead
    rw [hphase] at hahead
    obtain - | - | - | @⟨_, _, _, entry', hentry, -, htaken, hdone, -⟩ := hahead
    have hsound : AcceptedSound s.world id entry' c.streamId c.branch :=
      accepted_sound hstands.world hentry
    have hsplit := List.take_append_drop taken (c.accepted s.world id)
    have hincreasing := hsound.increasing
    change (c.accepted s.world id).Pairwise _ at hincreasing
    have hmem : e' ∈ c.accepted s.world id := he'
    rw [← hsplit] at hmem
    rcases List.mem_append.mp hmem with htook | hlater
    · -- it has been taken out of the queue
      exact hstands.hasProcessed hr (hdone e' htook) hversion
    · -- what is still in the queue is not below the next event
      have hdrop : (c.accepted s.world id).drop taken =
          e :: (c.accepted s.world id).drop (taken + 1) := by
        obtain ⟨hlt', rfl⟩ := List.getElem?_eq_some_iff.mp hevent
        exact List.drop_eq_getElem_cons hlt'
      have hsorted := hincreasing.sublist (List.drop_sublist taken _)
      rw [hdrop] at hlater hsorted
      rcases List.mem_cons.mp hlater with rfl | hlater
      · omega
      · have := (List.pairwise_cons.mp hsorted).1 e' hlater
        omega

/-- The step of the store. -/
theorem lossless_world {world : World d} {phase : ConsumerPhase} (hstands : Stands c s m)
    (hinternal : internal c.streamId = false) (h : Lossless c s id entry base before)
    (hlive : ∃ id taken unset, s.phase = .live id taken unset)
    (hturn : SentInTurn c s (.world p)) (hstep : worldStep d s.world p = some world) :
    Lossless c { s with world := world, phase := phase } id entry base before := by
  have hextends := extends_of_worldStep hstands.counted hstep
  refine ⟨complete_step hinternal h.covers h.complete ?_ hstep, h.covers,
    h.le.trans (hextends.maxVersion _ _), fun r hr hbase => ?_, fun r hr hdone => ?_⟩
  · rintro e hsends hs hb hbase u hu huv hcommitted
    rw [hs, hb] at hcommitted ⊢
    obtain ⟨r, hr, rfl⟩ := mem_versions_rows.mp hcommitted
    rcases hturn p e rfl hsends hs hb hlive r hr huv with hdone | hsent
    · exact (h.sent r hr hdone).resolve_left (not_le.mpr hu)
    · exact hsent
  · rcases hextends.row_cases hr with hold | hfresh
    · exact h.old r hold hbase
    · have := h.le
      omega
  · have hold : r ∈ c.rows s.world.db := by
      obtain ⟨e, he, hevent⟩ := hdone
      exact hstands.row_of_processed hr (fun _ => hextends.row_kept)
        (worldInv_step hstands.world hstep).sane ⟨e, he, hevent.2⟩
    exact (h.sent r hold hdone).imp_right fun hsent =>
      keyVersions_subset (sent_subset_of_step hstep) hsent

/-- The consumer takes an event out of its queue. -/
theorem lossless_taken {phase : ConsumerPhase} (hstands : Stands c s m)
    (h : Lossless c s id entry base before) (hphase : s.phase = .live id taken none)
    (hevent : (c.accepted s.world id)[taken]? = some e) :
    Lossless c { s with phase := phase, processed := s.processed ++ [e] } id entry base before := by
  refine ⟨h.complete, h.covers, h.le, fun r hr hbase => ?_, fun r hr hdone => ?_⟩
  · exact (h.old r hr hbase).mono (List.prefix_append _ _)
  · obtain ⟨e', he', hevent'⟩ := hdone
    rcases List.mem_append.mp he' with he' | he'
    · exact h.sent r hr ⟨e', he', hevent'⟩
    · obtain rfl := List.mem_singleton.mp he'
      have hahead := hstands.ahead
      rw [hphase] at hahead
      obtain - | - | - | @⟨_, _, _, entry', hentry, -⟩ := hahead
      have hsound : AcceptedSound s.world id entry' c.streamId c.branch :=
        accepted_sound hstands.world hentry
      rw [← hevent'.version hstands.world.sane hr]
      exact .inr (hsound.sent e' (List.mem_of_getElem? hevent))

/-- It registers. -/
theorem lossless_registered {i : ℕ} {world : World d} {phase : ConsumerPhase} (hcovers : c.Covers)
    (hstands : Stands c s m) (hphase : s.phase = .subscribing i)
    (hgapless : ∀ r ∈ c.rows s.world.db, s.HasProcessed r)
    (hstep : worldStep d s.world (.subscribeInsert i) = some world) : ∃ entry base before,
    Lossless c { s with world := world, phase := phase } s.world.registry.nextId entry base
      before := by
  have hahead := hstands.ahead
  rw [hphase] at hahead
  obtain - | - | @⟨_, cursor, streamCursors, hcall, -⟩ := hahead
  have hregisters : Registers s.world world i s.world.registry.nextId
      (newEntry c.query c.mode cursor streamCursors) :=
    ⟨hstep, rfl, _, _, _, _, hcall, rfl⟩
  have hcomplete := complete_of_registers hstands.world hstands.seeded hregisters hcovers.entry
  have hdb : world.db = s.world.db := by
    rw [worldStep, hcall] at hstep
    obtain ⟨delivery, -, rfl⟩ := deliver_eq_some.mp hstep
    rfl
  refine ⟨_, _, _, hcomplete, hcovers.entry, le_rfl, fun r hr _ => ?_, fun r hr _ => ?_⟩
  · exact hgapless r (hdb ▸ hr)
  · exact .inl (le_of_mem_rowsOn hr)

end Lossless

/-- The cursor moves only to what the consumer is past. -/
theorem mark_step (h : Stands c s m) (hstep : consumerStep registry fuel c s a = some s') :
    c.cursor s'.cursors = c.cursor s.cursors ∨ c.mark s'.cursors = m := by
  cases consumerTaken_of_step hstep with
  | other hkey =>
    refine .inl ?_
    rw [Consumer.cursor, getCursorImpl_set, if_neg hkey]
    rfl
  | @cursorSet event now hunset =>
    refine .inr ?_
    rw [Consumer.mark, Consumer.cursor, getCursorImpl_set, if_pos rfl]
    exact (h.unset event hunset).2
  | stepped | started | failed | read | taken | seeded | registered | crashed => exact .inl rfl

/-- The row of the event that has just been processed. -/
theorem processed_of_version (hstands : Stands c s' k) (hr : r ∈ c.rows s'.world.db)
    (hprocessed : s'.processed = s.processed ++ [e]) (hversion : u64AsI64 e.version = r.version) :
    s'.HasProcessed r := by
  have hmem : e ∈ s'.processed := by
    rw [hprocessed]
    exact List.mem_append_right _ (List.mem_singleton_self _)
  exact hstands.hasProcessed hr hmem hversion

/-- What a step comes past has been processed. -/
theorem covering_passed (h : Covering c s m) (hgapless : Gapless c s a)
    (hstep : consumerStep registry fuel c s a = some s') (hstands : Stands c s' k)
    (hk : k ≤ s.world.db.maxVersion c.streamId c.branch) (hmoved : Moved c s a s' m k)
    (hr : r ∈ c.rows s'.world.db) (hle : r.version ≤ k) : s'.HasProcessed r := by
  obtain ⟨hextends, hgrown⟩ := consumer_grows h.stands.counted hstep
  have hold : r ∈ c.rows s.world.db := by
    rcases hextends.row_cases hr with hold | hnew
    · exact hold
    · omega
  rcases le_or_gt r.version m with hpast | hahead
  · exact (h.passed r hold hpast).mono hgrown
  · cases hmoved with
    | still => omega
    | read e hup hprocessed hversion hnext =>
      exact processed_of_version hstands hr hprocessed (le_antisymm (hnext r hold hahead) hle)
    | taken e hphase hevent hprocessed hversion =>
      rcases hle.lt_or_eq with hlt | heq
      · obtain ⟨entry, base, before, hlossless⟩ := h.live _ _ _ hphase
        exact (hlossless.next h.stands hphase hevent hold hlt).mono hgrown
      · exact processed_of_version hstands hr hprocessed heq.symm
    | registered ha _ hsame => exact (hgapless ha r hold).mono hgrown
    | crashed ha hsame => exact (h.cursor r hold hle).mono hgrown

/-- So has what is up to the cursor. -/
theorem covering_cursor (h : Covering c s m) (hstep : consumerStep registry fuel c s a = some s')
    (hr : r ∈ c.rows s'.world.db) (hle : r.version ≤ c.mark s'.cursors) : s'.HasProcessed r := by
  obtain ⟨hextends, hgrown⟩ := consumer_grows h.stands.counted hstep
  have hmark := h.stands.mark_le
  have hmle := h.stands.le
  rcases mark_step h.stands hstep with hsame | hset
  · rw [Consumer.mark, hsame, ← Consumer.mark] at hle
    rcases hextends.row_cases hr with hold | hnew
    · exact (h.cursor r hold hle).mono hgrown
    · omega
  · rw [hset] at hle
    rcases hextends.row_cases hr with hold | hnew
    · exact (h.passed r hold hle).mono hgrown
    · omega

/-- A subscription is followed from its registration on. -/
theorem covering_live (hcovers : c.Covers) (hinternal : internal c.streamId = false)
    (h : Covering c s m) (hgapless : Gapless c s a) (hturn : SentInTurn c s a)
    (hstep : consumerStep registry fuel c s a = some s') {id taken : ℕ}
    {unset : Option StoredEvent} (hphase' : s'.phase = .live id taken unset) :
    ∃ entry base before, Lossless c s' id entry base before := by
  cases consumerTaken_of_step hstep with
  | stepped hphase hworld =>
    have hsame : s.phase = .live id taken unset := by
      rcases after_eq_some hphase with ⟨i, j, -, rfl⟩ | rfl
      · exact absurd hphase' (by simp)
      · exact hphase'
    obtain ⟨entry, base, before, hlossless⟩ := h.live _ _ _ hsame
    exact ⟨entry, base, before,
      lossless_world h.stands hinternal hlossless ⟨_, _, _, hsame⟩ hturn hworld⟩
  | other | failed =>
    obtain ⟨entry, base, before, hlossless⟩ := h.live _ _ _ hphase'
    exact ⟨entry, base, before, hlossless.complete, hlossless.covers, hlossless.le, hlossless.old,
      hlossless.sent⟩
  | taken hphase hevent =>
    obtain ⟨rfl, -, -⟩ := ConsumerPhase.live.inj hphase'
    obtain ⟨entry, base, before, hlossless⟩ := h.live _ _ _ hphase
    exact ⟨entry, base, before, lossless_taken h.stands hlossless hphase hevent⟩
  | cursorSet hunset =>
    have hsettled : s.phase.settled = .live id taken unset := hphase'
    cases hphase : s.phase with
    | live id₀ taken₀ unset₀ =>
      rw [hphase] at hsettled
      obtain ⟨rfl, -, -⟩ := ConsumerPhase.live.inj hsettled
      obtain ⟨entry, base, before, hlossless⟩ := h.live _ _ _ hphase
      exact ⟨entry, base, before, hlossless.complete, hlossless.covers, hlossless.le, hlossless.old,
        hlossless.sent⟩
    | down | reading | subscribing =>
      rw [hphase] at hsettled
      exact absurd hsettled (by simp [ConsumerPhase.settled])
  | registered hphase hworld =>
    obtain ⟨rfl, -, -⟩ := ConsumerPhase.live.inj hphase'
    exact lossless_registered hcovers h.stands hphase (hgapless rfl) hworld
  | started | read | seeded | crashed => exact absurd hphase' (by simp)

/-- **One step** of a consumer leaves nothing out. -/
theorem covering_step (hcovers : c.Covers) (hinternal : internal c.streamId = false)
    (h : Covering c s m) (hgapless : Gapless c s a) (hturn : SentInTurn c s a)
    (hstep : consumerStep registry fuel c s a = some s') : ∃ k, Covering c s' k := by
  obtain ⟨k, hstands, hk, hmoved⟩ := stands_step hcovers h.stands hstep
  exact ⟨k, hstands, fun _ => covering_passed h hgapless hstep hstands hk hmoved,
    fun _ => covering_cursor h hstep,
    fun _ _ _ => covering_live hcovers hinternal h hgapless hturn hstep⟩

theorem covering_init {now : Int64} {sysWriter : Bool} :
    Covering c (.init d now sysWriter) (-1) where
  stands := stands_init
  passed _ hr := absurd hr (by simp [Consumer.rows, Consuming.init, World.init, Db.rowsOn,
    Db.bootstrap])
  cursor _ hr := absurd hr (by simp [Consumer.rows, Consuming.init, World.init, Db.rowsOn,
    Db.bootstrap])
  live _ _ _ hphase := absurd hphase (by simp [Consuming.init])

/-- When the consumer has taken what its queue took, and that is all that was sent, it has
processed it. -/
theorem Covering.drained (h : Covering c s m) {id taken : ℕ} {unset : Option StoredEvent}
    (hphase : s.phase = .live id taken unset) (hall : (c.accepted s.world id).length ≤ taken)
    (hhealthy : s.world.delivery.HealthyAt id) (hdrained : s.world.channel.pending = [])
    (hr : r ∈ c.rows s.world.db)
    (hsent : r.version ∈ keyVersions c.streamId c.branch s.world.channel.sent) :
    s.HasProcessed r := by
  obtain ⟨entry, base, before, hlossless⟩ := h.live _ _ _ hphase
  by_cases hbase : r.version ≤ base
  · exact hlossless.old r hr hbase
  · obtain ⟨hmem, hon⟩ := mem_rowsOn.mp hr
    obtain ⟨e, he, hd⟩ := queued_of_following h.stands.world
      (hlossless.complete.following hhealthy) hhealthy hlossless.covers hdrained hmem hon
      (not_le.mp hbase) hsent
    have hahead := h.stands.ahead
    rw [hphase] at hahead
    obtain - | - | - | @⟨_, _, _, _, -, -, -, hdone, -⟩ := hahead
    rw [List.take_of_length_le hall] at hdone
    have haccepted : e ∈ c.accepted s.world id :=
      mem_acceptedOn.mpr ⟨he, hd.on.1.trans hon.1, hd.on.2.trans hon.2⟩
    exact ⟨e, hdone e haccepted, hd.eventOf⟩

/-- **At least once, and once more for each crash at most.**  Whatever the store and others do
between the steps of a consumer, and wherever it crashes: an event is processed at most once more
than the consumer has crashed.  If the consumer had processed all that was there whenever it
registered, and what was sent while it was live came in turn, every event with a version up to the
cursor has been processed; and so has every event that was sent, when the consumer has taken all
that its healthy subscription was handed. -/
theorem consumer_covers {now : Int64} {sysWriter : Bool} (hcovers : c.Covers)
    (hrun : run (consumerStep registry fuel c) (.init d now sysWriter) as = some s) :
    (∀ r ∈ c.rows s.world.db, s.times r ≤ as.countP ConsumerAction.isCrash + 1) ∧
    (internal c.streamId = false →
      Along (consumerStep registry fuel c) (fun s a => Gapless c s a ∧ SentInTurn c s a)
        (.init d now sysWriter) as →
      (∀ version ∈ c.cursor s.cursors, ∀ r ∈ c.rows s.world.db, r.version ≤ u64AsI64 version →
        s.HasProcessed r) ∧
      ∀ id unset, s.phase = .live id (c.accepted s.world id).length unset →
        s.world.delivery.HealthyAt id → s.world.channel.pending = [] →
        ∀ r ∈ c.rows s.world.db,
          r.version ∈ keyVersions c.streamId c.branch s.world.channel.sent → s.HasProcessed r) := by
  refine ⟨?_, fun hinternal halong => ?_⟩
  · obtain ⟨m, h⟩ := onceMore_run hcovers hrun
    exact fun r hr => h.le hr
  · obtain ⟨m, h⟩ : ∃ m, Covering c s m := by
      refine run_invariant (I := fun s => ∃ m, Covering c s m) (fun s a s' h hP hstep => ?_)
        ⟨-1, covering_init⟩ halong hrun
      obtain ⟨m, h⟩ := h
      exact covering_step hcovers hinternal h hP.1 hP.2 hstep
    refine ⟨fun version hversion r hr hle => h.cursor r hr ?_, fun id unset hphase hhealthy hdrained
      r hr hsent => h.drained hphase le_rfl hhealthy hdrained hr hsent⟩
    rw [Consumer.mark, Option.mem_def.mp hversion]
    exact hle

/-- A consumer that follows the stream `s`. -/
def nullConsumer : Consumer := ⟨"c", "s", "main", { streamPattern := "s" }, 8⟩

/-- The consumer neither registers, nor is an event sent. -/
def ConsumerAction.Quiet : ConsumerAction → Bool
  | subscribeInsert | world (.send _) | world (.scan _) => false
  | _ => true

theorem undisturbed (h : ∀ a ∈ as, a.Quiet = true) :
    Along (consumerStep registry fuel c) (fun s a => Gapless c s a ∧ SentInTurn c s a) s as := by
  refine (along_of_forall h).imp fun s a ha => ⟨?_, ?_⟩
  · rintro rfl
    exact absurd ha (by simp [ConsumerAction.Quiet])
  · rintro p e rfl hsends
    cases p with
    | send | scan => exact absurd ha (by simp [ConsumerAction.Quiet])
    | _ => exact hsends.elim

/-- A consumer that crashes before it sets its cursor. -/
def unsetCrash : List ConsumerAction :=
  [.world (.other (.declareStream "s" "t" none 0)), .start, .subscribeSeed] ++
    (.subscribeInsert :: (commitNull 0 "a").map .world ++
      (.world (.send 0) :: dispatchOne.map .world ++
        [.process, .crash, .start, .process, .setCursor 1]))

/-- The event is processed twice, and not a third time. -/
theorem consumer_covers_twice : ∃ (s : Consuming plainDeps) (r : EventRow),
    run (consumerStep [] 1 nullConsumer) (.init plainDeps 0 true) unsetCrash = some s ∧
      s.processed.map (·.eventType) = ["a", "a"] ∧ s.times r ≤ 2 ∧ s.HasProcessed r := by
  obtain ⟨s₁, s₂, s, e₀, r, hrun₁, hrows₁, hrun₂, hsending, hfirst, hrun₃, hcursor, hprocessed,
      hrows, hversion⟩ : ∃ (s₁ s₂ s : Consuming plainDeps) (e₀ : StoredEvent) (r : EventRow),
      run (consumerStep [] 1 nullConsumer) (.init plainDeps 0 true)
        [.world (.other (.declareStream "s" "t" none 0)), .start, .subscribeSeed] = some s₁ ∧
      nullConsumer.rows s₁.world.db = [] ∧
      run (consumerStep [] 1 nullConsumer) s₁
        (.subscribeInsert :: (commitNull 0 "a").map .world) = some s₂ ∧
      s₂.world.writers 0 = .sending [] [e₀] ∧ u64AsI64 e₀.version = 0 ∧
      run (consumerStep [] 1 nullConsumer) s₂ (.world (.send 0) :: dispatchOne.map .world ++
        [.process, .crash, .start, .process, .setCursor 1]) = some s ∧
      nullConsumer.cursor s.cursors = some 0 ∧ s.processed.map (·.eventType) = ["a", "a"] ∧
      nullConsumer.rows s.world.db = [r] ∧ r.version = 0 :=
    ⟨_, _, _, _, _, rfl, rfl, rfl, rfl, rfl, rfl, rfl, rfl, rfl, rfl⟩
  have hrun : run (consumerStep [] 1 nullConsumer) (.init plainDeps 0 true) unsetCrash = some s :=
    run_append.mpr ⟨s₁, hrun₁, run_append.mpr ⟨s₂, hrun₂, hrun₃⟩⟩
  have hcovers : nullConsumer.Covers := by decide
  have hsane : s₂.world.db.Sane := by
    obtain ⟨m, h⟩ := onceMore_run hcovers (run_append.mpr ⟨s₁, hrun₁, hrun₂⟩)
    exact h.stands.world.sane
  have halong : Along (consumerStep [] 1 nullConsumer)
      (fun s a => Gapless nullConsumer s a ∧ SentInTurn nullConsumer s a)
      (.init plainDeps 0 true) unsetCrash := by
    rw [unsetCrash]
    refine Along.append (undisturbed ?_) hrun₁ (Along.append ?_ hrun₂ ?_)
    · decide
    · -- nothing is there when the consumer registers
      refine ⟨⟨fun _ r hr => ?_, fun p e hp => absurd hp (by simp)⟩, fun t _ =>
        undisturbed (by decide)⟩
      rw [hrows₁] at hr
      exact absurd hr List.not_mem_nil
    · -- and the event that is sent is the first one
      refine ⟨⟨fun ha => absurd ha (by simp), fun p e hp hsends _ _ _ r hr hlt => ?_⟩, fun t _ =>
        undisturbed (by decide)⟩
      obtain rfl := ConsumerAction.world.inj hp
      obtain ⟨events, hsends⟩ := hsends
      obtain ⟨-, heq⟩ := Writer.sending.inj (hsending.symm.trans hsends)
      obtain ⟨rfl, -⟩ := List.cons.inj heq
      have hnonneg := (hsane.range r (mem_rowsOn.mp hr).1).1
      omega
  obtain ⟨htimes, hcovered⟩ := consumer_covers hcovers hrun
  have hmem : r ∈ nullConsumer.rows s.world.db := hrows ▸ List.mem_cons_self
  refine ⟨s, r, hrun, hprocessed, htimes r hmem, ?_⟩
  exact (hcovered (by decide) halong).1 0 hcursor r hmem hversion.le

/-! ### Events that are missed -/

/-- The consumer is past the row without having processed it; its cursor is past it too, or still
where it was. -/
structure PassedBy (c : Consumer) (cursor : Option UInt64) (r : EventRow) (s : Consuming d)
    (m : ℤ) : Prop where
  stands : Stands c s m
  here : r ∈ c.rows s.world.db
  missed : ¬s.HasProcessed r
  past : r.version ≤ m
  cursor : c.cursor s.cursors = cursor ∨ r.version ≤ c.mark s.cursors

/-- **One step** does not bring the row back. -/
theorem passedBy_step {cursor : Option UInt64} (hcovers : c.Covers)
    (h : PassedBy c cursor r s m) (hcrash : a = .crash → c.cursor s.cursors ≠ cursor)
    (hstep : consumerStep registry fuel c s a = some s') : ∃ k, PassedBy c cursor r s' k := by
  obtain ⟨k, hstands, -, hmoved⟩ := stands_step hcovers h.stands hstep
  have hpast := h.past
  have hcursor : c.cursor s'.cursors = cursor ∨ r.version ≤ c.mark s'.cursors := by
    rcases mark_step h.stands hstep with hsame | hset
    · rw [Consumer.mark, hsame]
      exact h.cursor
    · exact .inr (hset ▸ hpast)
  have hhere := (consumer_grows h.stands.counted hstep).1.row_kept h.here
  -- the events that are processed are above the row
  have hmissed : ∀ e, s'.processed = s.processed ++ [e] → m < u64AsI64 e.version →
      ¬s'.HasProcessed r := by
    rintro e hprocessed hversion ⟨e', he', hevent⟩
    rw [hprocessed] at he'
    rcases List.mem_append.mp he' with he' | he'
    · exact h.missed ⟨e', he', hevent⟩
    · obtain rfl := List.mem_singleton.mp he'
      have := hevent.version h.stands.world.sane h.here
      omega
  have hsame : s'.processed = s.processed → ¬s'.HasProcessed r := fun hprocessed hdone =>
    h.missed (by rwa [Consuming.HasProcessed, hprocessed] at hdone)
  cases hmoved with
  | still hkept => exact ⟨m, hstands, hhere, hsame hkept, hpast, hcursor⟩
  | read e _ hprocessed hversion =>
    exact ⟨_, hstands, hhere, hmissed e hprocessed hversion, hpast.trans hversion.le, hcursor⟩
  | taken e _ _ hprocessed hversion =>
    exact ⟨_, hstands, hhere, hmissed e hprocessed hversion, hpast.trans hversion.le, hcursor⟩
  | registered _ hle hkept => exact ⟨k, hstands, hhere, hsame hkept, hpast.trans hle, hcursor⟩
  | crashed ha hkept =>
    exact ⟨_, hstands, hhere, hsame hkept, h.cursor.resolve_left (hcrash ha), hcursor⟩

/-- **Events that come between the read and the seed are lost.**  When the subscription of a
consumer reads its seed while an event of the stream and branch is there that has not been
processed, that event is not processed afterwards, unless the consumer crashes before it sets its
cursor again: every cursor that it sets is past the event, and so is every start after that. -/
theorem subscribe_gap_loses {now : Int64} {sysWriter : Bool} (hcovers : c.Covers)
    (hrun : run (consumerStep registry fuel c) (.init d now sysWriter) as = some s)
    (hr : r ∈ c.rows s.world.db) (hmissed : ¬s.HasProcessed r)
    (hseed : consumerStep registry fuel c s .subscribeSeed = some s')
    (hcrash : Along (consumerStep registry fuel c)
      (fun t a => a = .crash → c.cursor t.cursors ≠ c.cursor s.cursors) s' bs)
    (hrun' : run (consumerStep registry fuel c) s' bs = some s'') :
    ¬s''.HasProcessed r ∧ (c.cursor s''.cursors = c.cursor s.cursors ∨
      ∃ version ∈ c.cursor s''.cursors, r.version ≤ u64AsI64 version) := by
  obtain ⟨m, hstands⟩ : ∃ m, Stands c s m := by
    obtain ⟨m, h⟩ := onceMore_run hcovers hrun
    exact ⟨m, h.stands⟩
  have hstart : ∃ k, PassedBy c (c.cursor s.cursors) r s' k := by
    have hhere := (consumer_grows hstands.counted hseed).1.row_kept hr
    cases consumerTaken_of_step hseed with
    | seeded hphase hworld =>
      exact ⟨_, stands_seeded hcovers hstands hworld le_rfl, hhere, hmissed, le_of_mem_rowsOn hr,
        .inl rfl⟩
  obtain ⟨k, hend⟩ := run_invariant (I := fun t => ∃ k, PassedBy c (c.cursor s.cursors) r t k)
    (fun t a t' h hP hstep => h.elim fun k h => passedBy_step hcovers h hP hstep) hstart hcrash
    hrun'
  refine ⟨hend.missed, hend.cursor.imp_right fun hpast => ?_⟩
  have hnonneg := (hend.stands.world.sane.range r (mem_rowsOn.mp hend.here).1).1
  rw [Consumer.mark] at hpast
  cases hcursor : c.cursor s''.cursors with
  | none =>
    rw [hcursor] at hpast
    change r.version ≤ -1 at hpast
    omega
  | some version =>
    rw [hcursor] at hpast
    exact ⟨version, rfl, hpast⟩

/-- An event comes before the seed is read, and another one after the registration; then the
consumer crashes, and starts again. -/
theorem subscribe_gap_loses_first : ∃ (s : Consuming plainDeps) (r : EventRow),
    r ∈ nullConsumer.rows s.world.db ∧ r.eventType = "a" ∧
      s.processed.map (·.eventType) = ["b"] ∧ ¬s.HasProcessed r := by
  obtain ⟨s₀, s₁, s₂, s, r, hrun₀, hr, htype, hnone, hseed, hrun₁, hset, hrun₂, hprocessed, hrows⟩ :
      ∃ (s₀ s₁ s₂ s : Consuming plainDeps) (r : EventRow),
        run (consumerStep [] 1 nullConsumer) (.init plainDeps 0 true)
          [.world (.other (.declareStream "s" "t" none 0)), .start,
            .world (.other (appendNull "a"))] = some s₀ ∧
        nullConsumer.rows s₀.world.db = [r] ∧ r.eventType = "a" ∧ s₀.processed = [] ∧
        consumerStep [] 1 nullConsumer s₀ .subscribeSeed = some s₁ ∧
        run (consumerStep [] 1 nullConsumer) s₁ (.subscribeInsert ::
          (commitNull 0 "b" ++ [Action.send 0] ++ dispatchOne).map .world ++
            [.process, .setCursor 1]) = some s₂ ∧
        nullConsumer.cursor s₂.cursors ≠ nullConsumer.cursor s₀.cursors ∧
        run (consumerStep [] 1 nullConsumer) s₂ [.crash, .start] = some s ∧
        s.processed.map (·.eventType) = ["b"] ∧ r ∈ nullConsumer.rows s.world.db := by
    refine ⟨_, _, _, _, _, rfl, rfl, rfl, rfl, rfl, rfl, ?_, rfl, rfl, List.mem_cons_self⟩
    decide
  have hmissed : ¬s₀.HasProcessed r := by
    rintro ⟨e, he, -⟩
    rw [hnone] at he
    exact absurd he List.not_mem_nil
  have hmem : r ∈ nullConsumer.rows s₀.world.db := hr ▸ List.mem_cons_self
  have hcrash : Along (consumerStep [] 1 nullConsumer) (fun t a => a = .crash →
      nullConsumer.cursor t.cursors ≠ nullConsumer.cursor s₀.cursors) s₁
      (.subscribeInsert :: (commitNull 0 "b" ++ [Action.send 0] ++ dispatchOne).map .world ++
        [.process, .setCursor 1] ++ [.crash, .start]) := by
    refine Along.append ?_ hrun₁ ⟨fun _ => hset, fun t _ => ⟨fun ha => absurd ha (by simp), ?_⟩⟩
    · refine (along_of_forall (Q := fun a => a.isCrash = false) (by decide)).imp ?_
      rintro t a ha rfl
      exact absurd ha (by simp [ConsumerAction.isCrash])
    · exact fun _ _ => trivial
  exact ⟨s, r, hrows, htype, hprocessed, (subscribe_gap_loses (by decide) hrun₀ hmem hmissed hseed
    hcrash (run_append.mpr ⟨s₂, hrun₁, hrun₂⟩)).1⟩

end Fossic
