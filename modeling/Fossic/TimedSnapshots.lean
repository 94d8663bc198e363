/-
How often `EveryNSeconds` schedules a snapshot.

A full read under this policy reads the clock, looks up the last stamp of its stream and branch
under a read lock, and, if the window has passed, stamps its reading under the write lock and then
hands a task to the background executor; the executor stamps again when it has taken the snapshot.
The stamp before the task is there to keep reads from scheduling one task each until the executor
gets to run.

* `timed_uninterrupted` — a check that nothing interrupts is the one of `autoSnapshotDue`;
* `timed_snapshots_spaced` — checks that do not overlap schedule one task to a window;
* `timed_snapshots_storm` — any number of checks that overlap schedule a task each.
-/
import Fossic.Handover
import Fossic.ReadState
import Fossic.Spacing
import Fossic.Transition

namespace Fossic

open Transition KeyedList Spacing Handover Function

/-! ### Threads -/

/-- Where a full read is in `maybe_auto_snapshot`. -/
inductive TimedCheck
  | idle
  /-- after the reading of the clock -/
  | clocked (key : String × String) (n : UInt32) (now : Int64)
  /-- the window has passed; before the stamp -/
  | due (key : String × String) (now : Int64)
  /-- before the task is scheduled -/
  | stamped (key : String × String) (now : Int64)

/-- The clock reading of a check on the key whose task is yet to be scheduled. -/
def TimedCheck.task (key : String × String) : TimedCheck → Option ℤ
  | .stamped k now => if k = key then some now.toInt else none
  | _ => none

/-- The read has read the clock for the key, and may come to stamp it. -/
def TimedCheck.On (key : String × String) : TimedCheck → Prop
  | .clocked k _ _ | .due k _ => k = key
  | _ => False

/-- `last_snapshot_us` of an open store, the reads, the clock, and the history of the stamps that
reads have made and of the tasks that they have scheduled. -/
structure TimedSnapshots where
  storeOpenUs : Int64
  lastSnapshotUs : List ((String × String) × Int64)
  checks : ℕ → TimedCheck
  clock : Int64
  decided : List ((String × String) × Int64)
  scheduled : List ((String × String) × Int64)

def TimedSnapshots.init (storeOpenUs : Int64) : TimedSnapshots :=
  ⟨storeOpenUs, [], fun _ => .idle, storeOpenUs, [], []⟩

inductive CheckAction
  /-- thread `i` reads the clock, under `EveryNSeconds(n)` -/
  | clock (i : ℕ) (key : String × String) (n : UInt32) (now : Int64)
  | look (i : ℕ)
  | stamp (i : ℕ)
  | schedule (i : ℕ)
  /-- the executor has taken a snapshot -/
  | background (key : String × String) (now : Int64)

def windowUs (n : UInt32) : Int64 := n.toUInt64.toInt64 * 1000000

def TimedSnapshots.last (s : TimedSnapshots) (key : String × String) : Int64 :=
  (find s.lastSnapshotUs key).getD s.storeOpenUs

def checkStep (s : TimedSnapshots) : CheckAction → Option TimedSnapshots
  | .clock i key n now =>
    match s.checks i with
    | .idle => some { s with checks := update s.checks i (.clocked key n now), clock := now }
    | _ => none
  | .look i =>
    match s.checks i with
    | .clocked key n now =>
      let check := if windowUs n ≤ now - s.last key then .due key now else .idle
      some { s with checks := update s.checks i check }
    | _ => none
  | .stamp i =>
    match s.checks i with
    | .due key now =>
      some { s with
        lastSnapshotUs := upsert s.lastSnapshotUs key now
        checks := update s.checks i (.stamped key now)
        decided := s.decided ++ [(key, now)] }
    | _ => none
  | .schedule i =>
    match s.checks i with
    | .stamped key now =>
      some { s with checks := update s.checks i .idle, scheduled := s.scheduled ++ [(key, now)] }
    | _ => none
  | .background key now =>
    some { s with lastSnapshotUs := upsert s.lastSnapshotUs key now, clock := now }

/-- **What a step does**, action by action. -/
inductive CheckTaken (s : TimedSnapshots) : CheckAction → TimedSnapshots → Prop
  | clocked {i : ℕ} {key : String × String} {n : UInt32} {now : Int64}
      (hidle : s.checks i = .idle) :
      CheckTaken s (.clock i key n now)
        { s with checks := update s.checks i (.clocked key n now), clock := now }
  | early {i : ℕ} {key : String × String} {n : UInt32} {now : Int64}
      (hcheck : s.checks i = .clocked key n now) (hearly : now - s.last key < windowUs n) :
      CheckTaken s (.look i) { s with checks := update s.checks i .idle }
  | found {i : ℕ} {key : String × String} {n : UInt32} {now : Int64}
      (hcheck : s.checks i = .clocked key n now) (hdue : windowUs n ≤ now - s.last key) :
      CheckTaken s (.look i) { s with checks := update s.checks i (.due key now) }
  | stamped {i : ℕ} {key : String × String} {now : Int64} (hcheck : s.checks i = .due key now) :
      CheckTaken s (.stamp i)
        { s with
          lastSnapshotUs := upsert s.lastSnapshotUs key now
          checks := update s.checks i (.stamped key now)
          decided := s.decided ++ [(key, now)] }
  | scheduled {i : ℕ} {key : String × String} {now : Int64}
      (hcheck : s.checks i = .stamped key now) :
      CheckTaken s (.schedule i)
        { s with checks := update s.checks i .idle, scheduled := s.scheduled ++ [(key, now)] }
  | taken {key : String × String} {now : Int64} :
      CheckTaken s (.background key now)
        { s with lastSnapshotUs := upsert s.lastSnapshotUs key now, clock := now }

variable {s s' : TimedSnapshots} {a : CheckAction} {as : List CheckAction} {i j : ℕ}
  {key : String × String} {n : UInt32} {now : Int64} {g : ℤ}

theorem checkTaken_of_step (h : checkStep s a = some s') : CheckTaken s a s' := by
  cases a with
  | clock i key n now =>
    rw [checkStep] at h
    split at h
    · rename_i hidle
      obtain rfl := Option.some_inj.mp h
      exact .clocked hidle
    · exact absurd h (by simp)
  | look i =>
    rw [checkStep] at h
    split at h
    · rename_i key n now hcheck
      obtain rfl := Option.some_inj.mp h
      by_cases hdue : windowUs n ≤ now - s.last key
      · rw [if_pos hdue]
        exact .found hcheck hdue
      · rw [if_neg hdue]
        exact .early hcheck (Int64.not_le.mp hdue)
    · exact absurd h (by simp)
  | stamp i =>
    rw [checkStep] at h
    split at h
    · rename_i key now hcheck
      obtain rfl := Option.some_inj.mp h
      exact .stamped hcheck
    · exact absurd h (by simp)
  | schedule i =>
    rw [checkStep] at h
    split at h
    · rename_i key now hcheck
      obtain rfl := Option.some_inj.mp h
      exact .scheduled hcheck
    · exact absurd h (by simp)
  | background key now =>
    obtain rfl := Option.some_inj.mp h
    exact .taken

/-- **A check that nothing interrupts** stamps and schedules as `maybe_auto_snapshot` does. -/
theorem timed_uninterrupted {st : StoreInner} {streamId branch : String} {eventsApplied : UInt32}
    (hopen : s.storeOpenUs = st.storeOpenUs) (hlast : s.lastSnapshotUs = st.lastSnapshotUs)
    (hidle : s.checks i = .idle) : ∃ s' new,
      (run checkStep s [.clock i (streamId, branch) n now, .look i, .stamp i, .schedule i] =
          some s' ∨
        run checkStep s [.clock i (streamId, branch) n now, .look i] = some s' ∧ new = []) ∧
      s'.checks i = .idle ∧ s'.scheduled = s.scheduled ++ new.map (fun key => (key, now)) ∧
      autoSnapshotDue st streamId branch eventsApplied (.everyNSeconds n) now =
        (false, { st with
          lastSnapshotUs := s'.lastSnapshotUs
          backlog := st.backlog ++ new }) := by
  have hfound : s.last (streamId, branch) =
      (find st.lastSnapshotUs (streamId, branch)).getD st.storeOpenUs := by
    rw [TimedSnapshots.last, hlast, hopen]
  have hclock : checkStep s (.clock i (streamId, branch) n now) = some
      { s with checks := update s.checks i (.clocked (streamId, branch) n now), clock := now } := by
    rw [checkStep, hidle]
  have hlook : checkStep
      { s with checks := update s.checks i (.clocked (streamId, branch) n now), clock := now }
      (.look i) = some { s with
        checks := update s.checks i
          (if windowUs n ≤ now - s.last (streamId, branch) then .due (streamId, branch) now
          else .idle)
        clock := now } := by
    rw [checkStep]
    dsimp only
    rw [update_self]
    dsimp only
    rw [update_idem]
    rfl
  by_cases hdue : windowUs n ≤ now - s.last (streamId, branch)
  · rw [if_pos hdue] at hlook
    have hstamp : checkStep
        { s with checks := update s.checks i (.due (streamId, branch) now), clock := now }
        (.stamp i) = some { s with
          lastSnapshotUs := upsert s.lastSnapshotUs (streamId, branch) now
          checks := update s.checks i (.stamped (streamId, branch) now)
          clock := now
          decided := s.decided ++ [((streamId, branch), now)] } := by
      rw [checkStep]
      dsimp only
      rw [update_self]
      dsimp only
      rw [update_idem]
    have hschedule : checkStep { s with
          lastSnapshotUs := upsert s.lastSnapshotUs (streamId, branch) now
          checks := update s.checks i (.stamped (streamId, branch) now)
          clock := now
          decided := s.decided ++ [((streamId, branch), now)] } (.schedule i) = some { s with
          lastSnapshotUs := upsert s.lastSnapshotUs (streamId, branch) now
          checks := update s.checks i .idle
          clock := now
          decided := s.decided ++ [((streamId, branch), now)]
          scheduled := s.scheduled ++ [((streamId, branch), now)] } := by
      rw [checkStep]
      dsimp only
      rw [update_self]
      dsimp only
      rw [update_idem]
    refine ⟨_, [(streamId, branch)], .inl (run_cons.mpr ⟨_, hclock, run_cons.mpr ⟨_, hlook,
      run_cons.mpr ⟨_, hstamp, run_cons.mpr ⟨_, hschedule, rfl⟩⟩⟩⟩), update_self _ _ _, rfl, ?_⟩
    rw [hfound] at hdue
    rw [autoSnapshotDue.eq_def]
    dsimp only
    rw [hlast]
    exact if_pos hdue
  · rw [if_neg hdue] at hlook
    refine ⟨_, [], .inr ⟨run_cons.mpr ⟨_, hclock, run_cons.mpr ⟨_, hlook, rfl⟩⟩, rfl⟩,
      update_self _ _ _, (List.append_nil _).symm, ?_⟩
    rw [hfound] at hdue
    rw [autoSnapshotDue.eq_def]
    dsimp only
    rw [hlast, List.append_nil]
    exact if_neg hdue

/-! ### Checks that do not overlap -/

/-- The clock readings of the entries on the key. -/
def timesOn (key : String × String) (l : List ((String × String) × Int64)) : List ℤ :=
  (l.filter fun e => e.1 = key).map fun e => e.2.toInt

/-- The clock is not set back, every check on the key is under a policy of `n` seconds or more,
and none begins while another one may still come to its stamp. -/
def Orderly (key : String × String) (n : UInt32) (s : TimedSnapshots) : CheckAction → Prop
  | .clock _ k m now => s.clock ≤ now ∧ (k = key → n ≤ m ∧ ∀ j, ¬(s.checks j).On key)
  | .background _ now => s.clock ≤ now
  | _ => True

/-- The time of the last stamp of a check on the key, or that at which the store was opened. -/
def TimedSnapshots.lastTime (s : TimedSnapshots) (key : String × String) : ℤ :=
  (timesOn key s.decided).getLast?.getD s.storeOpenUs.toInt

structure CheckInv (key : String × String) (n : UInt32) (s : TimedSnapshots) : Prop where
  opened : 0 ≤ s.storeOpenUs.toInt
  past : ∀ t ∈ s.storeOpenUs.toInt :: timesOn key s.decided, t ≤ s.clock.toInt
  spaced : Spaced (n.toNat * 1000000) (s.storeOpenUs.toInt :: timesOn key s.decided)
  stamp : s.lastTime key ≤ (s.last key).toInt
  clocked : ∀ i m now, s.checks i = .clocked key m now →
    n ≤ m ∧ 0 ≤ now.toInt ∧ now.toInt ≤ s.clock.toInt
  due : ∀ i now, s.checks i = .due key now →
    s.lastTime key + n.toNat * 1000000 ≤ now.toInt ∧ now.toInt ≤ s.clock.toInt
  apart : ∀ i j, (s.checks i).On key → (s.checks j).On key → i = j
  accounted : HandedOver (timesOn key s.decided) (timesOn key s.scheduled)
    (TimedCheck.task key ∘ s.checks)

theorem timesOn_append {l : List ((String × String) × Int64)} {k : String × String} :
    timesOn key (l ++ [(k, now)]) = timesOn key l ++ if k = key then [now.toInt] else [] := by
  rw [timesOn, List.filter_append, List.map_append]
  split <;> rename_i hkey <;> simp [timesOn, hkey]

/-- A window of `n` seconds, in microseconds. -/
theorem windowUs_toInt : (windowUs n).toInt = n.toNat * 1000000 := by
  have hlt := n.toNat_lt
  have hcast : n.toUInt64.toInt64.toInt = n.toNat := by
    have hnat : n.toUInt64.toBitVec.toNat = n.toNat := UInt32.toNat_toUInt64 n
    show n.toUInt64.toBitVec.toInt = _
    rw [BitVec.toInt_eq_toNat_of_lt (by omega), hnat]
  have hmul : (windowUs n).toInt = (n.toUInt64.toInt64.toInt * 1000000).bmod (2 ^ 64) :=
    Int64.toInt_mul _ _
  rw [hmul, hcast, Int.bmod_eq_of_le (by omega) (by omega)]

/-- With two readings from after 1970 the subtraction does not wrap. -/
theorem windowUs_le_sub_iff {last : Int64} (hnow : 0 ≤ now.toInt) (hlast : 0 ≤ last.toInt) :
    windowUs n ≤ now - last ↔ last.toInt + n.toNat * 1000000 ≤ now.toInt := by
  have hnow' := now.toInt_lt
  have hlast' := last.toInt_lt
  rw [Int64.le_iff_toInt_le, Int64.toInt_sub, Int.bmod_eq_of_le (by omega) (by omega),
    windowUs_toInt]
  omega

theorem task_update {checks : ℕ → TimedCheck} {check : TimedCheck} :
    TimedCheck.task key ∘ update checks i check =
      update (TimedCheck.task key ∘ checks) i (check.task key) :=
  Function.comp_update _ _ _ _

theorem apart_update {checks : ℕ → TimedCheck} {check : TimedCheck}
    (h : ∀ i j, (checks i).On key → (checks j).On key → i = j)
    (hon : check.On key → (checks i).On key ∨ ∀ j, ¬(checks j).On key) (j k : ℕ)
    (hj : (update checks i check j).On key) (hk : (update checks i check k).On key) : j = k := by
  by_cases hji : j = i <;> by_cases hki : k = i
  · rw [hji, hki]
  · subst hji
    rw [update_self] at hj
    rw [update_of_ne hki] at hk
    rcases hon hj with hi | hnone
    · exact h _ _ hi hk
    · exact absurd hk (hnone k)
  · subst hki
    rw [update_self] at hk
    rw [update_of_ne hji] at hj
    rcases hon hk with hi | hnone
    · exact h _ _ hj hi
    · exact absurd hj (hnone j)
  · rw [update_of_ne hji] at hj
    rw [update_of_ne hki] at hk
    exact h _ _ hj hk

/-- A check moves on without a stamp and without a task. -/
theorem accounted_update {decided handed : List ℤ} {checks : ℕ → TimedCheck} {check : TimedCheck}
    (h : HandedOver decided handed (TimedCheck.task key ∘ checks))
    (hsame : check.task key = (checks i).task key) :
    HandedOver decided handed (TimedCheck.task key ∘ update checks i check) := by
  rw [task_update, hsame]
  have hid : update (TimedCheck.task key ∘ checks) i ((checks i).task key) =
      TimedCheck.task key ∘ checks := update_eq_self i _
  rw [hid]
  exact h

theorem eq_of_update {checks : ℕ → TimedCheck} {check c : TimedCheck}
    (h : update checks i check j = c) : check = c ∨ checks j = c := by
  by_cases hij : j = i
  · subst hij
    exact .inl (by rwa [update_self] at h)
  · exact .inr (by rwa [update_of_ne hij] at h)

theorem CheckInv.lastTime_mem (_ : CheckInv key n s) :
    s.lastTime key ∈ s.storeOpenUs.toInt :: timesOn key s.decided := by
  rw [TimedSnapshots.lastTime]
  cases hlast : (timesOn key s.decided).getLast? with
  | none => exact List.mem_cons_self
  | some t => exact List.mem_cons_of_mem _ (List.mem_of_getLast? hlast)

theorem CheckInv.lastTime_nonneg (h : CheckInv key n s) : 0 ≤ s.lastTime key := by
  have hopened := h.opened
  rcases List.mem_cons.mp h.lastTime_mem with hopen | hmem
  · omega
  · have := (List.pairwise_cons.mp h.spaced).1 _ hmem
    omega

/-- A step that is not about the key, or does not concern its stamps. -/
theorem CheckInv.move {check : TimedCheck} (h : CheckInv key n s)
    (hopen : s'.storeOpenUs = s.storeOpenUs) (hclock : s'.clock = s.clock)
    (hdecided : timesOn key s'.decided = timesOn key s.decided)
    (hscheduled : timesOn key s'.scheduled = timesOn key s.scheduled)
    (hlast : s'.last key = s.last key) (hchecks : s'.checks = update s.checks i check)
    (hon : ¬check.On key) (htask : check.task key = (s.checks i).task key) :
    CheckInv key n s' := by
  have hlastTime : s'.lastTime key = s.lastTime key := by
    rw [TimedSnapshots.lastTime, hdecided, hopen]
    rfl
  refine ⟨?_, ?_, ?_, ?_, fun j m now hj => ?_, fun j now hj => ?_, ?_, ?_⟩
  · rw [hopen]
    exact h.opened
  · rw [hopen, hdecided, hclock]
    exact h.past
  · rw [hopen, hdecided]
    exact h.spaced
  · rw [hlastTime, hlast]
    exact h.stamp
  · rw [hchecks] at hj
    rcases eq_of_update hj with hnew | hold
    · exact absurd (by rw [hnew]; rfl) hon
    · rw [hclock]
      exact h.clocked j m now hold
  · rw [hchecks] at hj
    rcases eq_of_update hj with hnew | hold
    · exact absurd (by rw [hnew]; rfl) hon
    · rw [hclock, hlastTime]
      exact h.due j now hold
  · rw [hchecks]
    exact apart_update h.apart fun hcheck => absurd hcheck hon
  · rw [hdecided, hscheduled, hchecks]
    exact accounted_update h.accounted htask

theorem last_upsert {k : String × String} {s : TimedSnapshots} :
    TimedSnapshots.last { s with lastSnapshotUs := upsert s.lastSnapshotUs k now } key =
      if k = key then now else s.last key := by
  rw [TimedSnapshots.last, find_upsert]
  split <;> rfl

/-- The check on the key that is due stamps it. -/
theorem checkInv_stamped (h : CheckInv key n s) (hn : 0 < n.toNat)
    (hcheck : s.checks i = .due key now) : CheckInv key n { s with
      lastSnapshotUs := upsert s.lastSnapshotUs key now
      checks := update s.checks i (.stamped key now)
      decided := s.decided ++ [(key, now)] } := by
  obtain ⟨hafter, hnow⟩ := h.due i now hcheck
  have htimes : timesOn key (s.decided ++ [(key, now)]) = timesOn key s.decided ++ [now.toInt] := by
    rw [timesOn_append, if_pos rfl]
  have hspaced : Spaced (n.toNat * 1000000)
      (s.storeOpenUs.toInt :: (timesOn key s.decided ++ [now.toInt])) := by
    rw [← List.cons_append, spaced_concat (by omega), List.getLast?_cons]
    exact ⟨h.spaced, fun last hlast => Option.some_inj.mp hlast ▸ hafter⟩
  have hfresh : now.toInt ∉ timesOn key s.decided := by
    intro hmem
    have hnodup := (List.nodup_cons.mp (hspaced.nodup (by omega))).2
    exact (List.nodup_append.mp hnodup).2.2 _ hmem _ (List.mem_singleton_self _) rfl
  have hidle : (TimedCheck.task key ∘ s.checks) i = none := by
    rw [comp_apply, hcheck]
    rfl
  refine ⟨h.opened, fun t ht => ?_, ?_, ?_, fun j m now' hj => ?_, fun j now' hj => ?_,
    apart_update h.apart fun hon => hon.elim, ?_⟩
  · rw [htimes, ← List.cons_append] at ht
    rcases List.mem_append.mp ht with ht | ht
    · exact h.past t ht
    · rw [List.mem_singleton.mp ht]
      exact hnow
  · rw [htimes]
    exact hspaced
  · rw [TimedSnapshots.lastTime, htimes, List.getLast?_concat, Option.getD_some]
    show now.toInt ≤ Int64.toInt ((find (upsert _ _ _) key).getD _)
    rw [find_upsert, if_pos rfl, Option.getD_some]
  · rcases eq_of_update hj with hnew | hold
    · exact absurd hnew (by simp)
    · exact h.clocked j m now' hold
  · -- no other check on the key is due
    have hon : (s.checks i).On key := by
      rw [hcheck]
      rfl
    by_cases hij : j = i
    · subst hij
      exact absurd hj (by simp)
    · replace hj : update s.checks i _ j = _ := hj
      rw [update_of_ne hij] at hj
      have hother : (s.checks j).On key := by
        rw [hj]
        rfl
      exact absurd (h.apart j i hother hon) hij
  · rw [htimes, task_update, TimedCheck.task, if_pos rfl]
    exact h.accounted.take hidle hfresh

/-- The task of a stamped check is scheduled. -/
theorem checkInv_scheduled (h : CheckInv key n s) (hcheck : s.checks i = .stamped key now) :
    CheckInv key n { s with
      checks := update s.checks i .idle, scheduled := s.scheduled ++ [(key, now)] } := by
  have hheld : (TimedCheck.task key ∘ s.checks) i = some now.toInt := by
    rw [comp_apply, hcheck, TimedCheck.task, if_pos rfl]
  refine ⟨h.opened, h.past, h.spaced, h.stamp, fun j m now' hj => ?_, fun j now' hj => ?_,
    apart_update h.apart fun hon => hon.elim, ?_⟩
  · rcases eq_of_update hj with hnew | hold
    · exact absurd hnew (by simp)
    · exact h.clocked j m now' hold
  · rcases eq_of_update hj with hnew | hold
    · exact absurd hnew (by simp)
    · exact h.due j now' hold
  · rw [task_update, timesOn_append, if_pos rfl]
    exact h.accounted.hand hheld

/-- **One step** keeps the stamps apart. -/
theorem checkInv_step (hn : 0 < n.toNat) (h : CheckInv key n s) (hallowed : Orderly key n s a)
    (hstep : checkStep s a = some s') : CheckInv key n s' := by
  have hopen : s.storeOpenUs.toInt ≤ s.clock.toInt := h.past _ List.mem_cons_self
  have hopened := h.opened
  cases checkTaken_of_step hstep with
  | @clocked i k m now hidle =>
    obtain ⟨hclock, hkey⟩ := hallowed
    have hle : s.clock.toInt ≤ now.toInt := Int64.le_iff_toInt_le.mp hclock
    refine ⟨h.opened, fun t ht => (h.past t ht).trans hle, h.spaced, h.stamp,
      fun j m' now' hj => ?_, fun j now' hj => ?_, apart_update h.apart fun hon => ?_,
      accounted_update h.accounted (by rw [hidle]; rfl)⟩
    · rcases eq_of_update hj with hnew | hold
      · obtain ⟨rfl, rfl, rfl⟩ := TimedCheck.clocked.inj hnew
        exact ⟨(hkey rfl).1, by omega, le_refl _⟩
      · obtain ⟨hm, h0, hnow⟩ := h.clocked j m' now' hold
        exact ⟨hm, h0, hnow.trans hle⟩
    · rcases eq_of_update hj with hnew | hold
      · exact absurd hnew (by simp)
      · exact ⟨(h.due j now' hold).1, (h.due j now' hold).2.trans hle⟩
    · exact .inr (hkey hon).2
  | early hcheck =>
    exact h.move rfl rfl rfl rfl rfl rfl (fun hon => hon) (by rw [hcheck]; rfl)
  | @found i k m now hcheck hdue =>
    refine ⟨h.opened, h.past, h.spaced, h.stamp, fun j m' now' hj => ?_, fun j now' hj => ?_,
      apart_update h.apart fun hon => .inl ?_, accounted_update h.accounted (by rw [hcheck]; rfl)⟩
    · rcases eq_of_update hj with hnew | hold
      · exact absurd hnew (by simp)
      · exact h.clocked j m' now' hold
    · rcases eq_of_update hj with hnew | hold
      · -- the stamp that it found is at or after the last one of a check
        obtain ⟨rfl, rfl⟩ := TimedCheck.due.inj hnew
        obtain ⟨hm, h0, hnow⟩ := h.clocked i m now hcheck
        have hlast := h.stamp
        have hnonneg := h.lastTime_nonneg
        have hwindow := (windowUs_le_sub_iff h0 (by omega)).mp hdue
        have hle := UInt32.le_iff_toNat_le.mp hm
        exact ⟨by show s.lastTime k + _ ≤ _; omega, hnow⟩
      · exact h.due j now' hold
    · rw [hcheck]
      exact hon
  | @stamped i k now hcheck =>
    by_cases hkey : k = key
    · subst hkey
      exact checkInv_stamped h hn hcheck
    · refine h.move rfl rfl ?_ rfl ?_ rfl (fun hon => hon) ?_
      · rw [timesOn_append, if_neg hkey, List.append_nil]
      · exact last_upsert.trans (if_neg hkey)
      · rw [hcheck]
        exact if_neg hkey
  | @scheduled i k now hcheck =>
    by_cases hkey : k = key
    · subst hkey
      exact checkInv_scheduled h hcheck
    · refine h.move rfl rfl rfl ?_ rfl rfl (fun hon => hon) ?_
      · rw [timesOn_append, if_neg hkey, List.append_nil]
      · rw [hcheck]
        exact (if_neg hkey).symm
  | @taken k now =>
    have hle : s.clock.toInt ≤ now.toInt := Int64.le_iff_toInt_le.mp hallowed
    refine ⟨h.opened, fun t ht => (h.past t ht).trans hle, h.spaced, ?_, fun j m now' hj => ?_,
      fun j now' hj => ?_, h.apart, h.accounted⟩
    · show s.lastTime key ≤ Int64.toInt (TimedSnapshots.last { s with lastSnapshotUs := _ } key)
      rw [last_upsert]
      split
      · exact (h.past _ h.lastTime_mem).trans hle
      · exact h.stamp
    · obtain ⟨hm, h0, hnow⟩ := h.clocked j m now' hj
      exact ⟨hm, h0, hnow.trans hle⟩
    · exact ⟨(h.due j now' hj).1, (h.due j now' hj).2.trans hle⟩

theorem open_step (hstep : checkStep s a = some s') : s'.storeOpenUs = s.storeOpenUs := by
  cases checkTaken_of_step hstep with
  | clocked | early | found | stamped | scheduled | taken => rfl

theorem checkInv_init {storeOpenUs : Int64} (hopen : 0 ≤ storeOpenUs.toInt) :
    CheckInv key n (.init storeOpenUs) where
  opened := hopen
  past t ht := by
    rw [List.mem_singleton.mp ht]
    exact le_refl _
  spaced := List.pairwise_singleton _ _
  stamp := le_refl _
  clocked i m now h := absurd h (by simp [TimedSnapshots.init])
  due i now h := absurd h (by simp [TimedSnapshots.init])
  apart i j h := h.elim
  accounted := handedOver_nil

/-- **Checks that do not overlap keep the window.**  In every run in which the clock is not set
back, whatever the executor and the reads of other streams do in between: if no check on a stream
and branch begins while another one may still come to its stamp, and each is under a policy of `n`
seconds or more, then the checks that schedule are `n` seconds apart, from the opening of the
store on, each schedules one task, and no window of time has more than one task, and one more for
each full `n` seconds. -/
theorem timed_snapshots_spaced {storeOpenUs : Int64} (hopen : 0 ≤ storeOpenUs.toInt)
    (hn : 0 < n.toNat) (horderly : Along checkStep (Orderly key n) (.init storeOpenUs) as)
    (hrun : run checkStep (.init storeOpenUs) as = some s) :
    Spaced (n.toNat * 1000000) (storeOpenUs.toInt :: timesOn key s.decided) ∧
      (timesOn key s.scheduled).Nodup ∧ timesOn key s.scheduled ⊆ timesOn key s.decided ∧
      ∀ lo hi, lo ≤ hi → (((timesOn key s.scheduled).filter fun t => lo ≤ t ∧ t ≤ hi).length : ℤ) ≤
        (hi - lo) / (n.toNat * 1000000) + 1 := by
  have h := run_invariant (fun _ _ _ => checkInv_step hn) (checkInv_init hopen) horderly hrun
  have hsame : s.storeOpenUs = storeOpenUs :=
    run_invariant_all (I := fun s => s.storeOpenUs = storeOpenUs)
      (fun _ _ _ hs hstep => (open_step hstep).trans hs) rfl hrun
  refine ⟨hsame ▸ h.spaced, h.accounted.once, h.accounted.subset, fun lo hi hle => ?_⟩
  have hcount := h.accounted.length_le fun t => lo ≤ t ∧ t ≤ hi
  have hspaced : Spaced (n.toNat * 1000000) (timesOn key s.decided) :=
    h.spaced.sublist (List.sublist_cons_self _ _)
  have hwindow := hspaced.count_le (by omega) hle
  omega

/-- Two checks that schedule, with one between them that comes too early. -/
def threeChecks : List CheckAction :=
  [.clock 0 ("s", "main") 1 1000000, .look 0, .stamp 0, .schedule 0,
    .clock 0 ("s", "main") 1 1500000, .look 0, .background ("s", "main") 1600000,
    .clock 0 ("s", "main") 1 2600000, .look 0, .stamp 0, .schedule 0]

theorem timed_snapshots_spaced_three : ∃ s, run checkStep (.init 0) threeChecks = some s ∧
    timesOn ("s", "main") s.decided = [1000000, 2600000] ∧
    Spaced 1000000 (0 :: timesOn ("s", "main") s.decided) := by
  have horderly : Along checkStep (Orderly ("s", "main") 1) (.init 0) threeChecks := by
    refine along_cons ⟨by decide, fun _ => ⟨UInt32.le_refl _, fun j => id⟩⟩ rfl ?_
    refine along_cons trivial rfl (along_cons trivial rfl (along_cons trivial rfl ?_))
    refine along_cons ⟨by decide, fun _ => ⟨UInt32.le_refl _, fun j => ?_⟩⟩ rfl ?_
    · cases j <;> exact id
    refine along_cons trivial rfl (along_cons (show (1500000 : Int64) ≤ 1600000 by decide) rfl ?_)
    refine along_cons ⟨by decide, fun _ => ⟨UInt32.le_refl _, fun j => ?_⟩⟩ rfl ?_
    · cases j <;> exact id
    exact along_cons trivial rfl (along_cons trivial rfl (along_cons trivial rfl trivial))
  obtain ⟨s, hrun, hdecided⟩ : ∃ s, run checkStep (.init 0) threeChecks = some s ∧
    timesOn ("s", "main") s.decided = [1000000, 2600000] := ⟨_, rfl, rfl⟩
  exact ⟨s, hrun, hdecided, (timed_snapshots_spaced (by decide) (by decide) horderly hrun).1⟩

/-! ### Checks that overlap -/

/-- The reading of the clock that a step takes. -/
def CheckAction.reading : CheckAction → Option Int64
  | .clock _ _ _ now | .background _ now => some now
  | _ => none

/-- `m` threads look at the stamp before any of them sets it. -/
def lookAll (key : String × String) (n : UInt32) (now : Int64) (m : ℕ) : List CheckAction :=
  (List.range m).flatMap fun i => [.clock i key n now, .look i]

def stampAll (m : ℕ) : List CheckAction :=
  (List.range m).flatMap fun i => [.stamp i, .schedule i]

theorem lookAll_run {storeOpenUs : Int64} (hwindow : windowUs n ≤ now - storeOpenUs) (m : ℕ) :
    ∃ s, run checkStep (.init storeOpenUs) (lookAll key n now m) = some s ∧
      s.storeOpenUs = storeOpenUs ∧ s.lastSnapshotUs = [] ∧ s.scheduled = [] ∧
      ∀ i, s.checks i = if i < m then .due key now else .idle := by
  induction m with
  | zero => exact ⟨_, rfl, rfl, rfl, rfl, fun _ => rfl⟩
  | succ m ih =>
    obtain ⟨s, hrun, hopen, hlast, hscheduled, hchecks⟩ := ih
    have hidle : s.checks m = .idle := by
      rw [hchecks, if_neg (lt_irrefl m)]
    have hfound : s.last key = storeOpenUs := by
      rw [TimedSnapshots.last, hlast, hopen]
      rfl
    have hclock : checkStep s (.clock m key n now) = some
        { s with checks := update s.checks m (.clocked key n now), clock := now } := by
      rw [checkStep, hidle]
    have hlook : checkStep
        { s with checks := update s.checks m (.clocked key n now), clock := now } (.look m) = some
        { s with checks := update s.checks m (.due key now), clock := now } := by
      rw [checkStep]
      dsimp only
      rw [update_self]
      dsimp only
      rw [if_pos, update_idem]
      show windowUs n ≤ now - s.last key
      rwa [hfound]
    have hnext : run checkStep (.init storeOpenUs) (lookAll key n now (m + 1)) = some
        { s with checks := update s.checks m (.due key now), clock := now } := by
      rw [lookAll, List.range_succ, List.flatMap_append]
      exact run_append.mpr ⟨s, hrun, run_cons.mpr ⟨_, hclock, run_cons.mpr ⟨_, hlook, rfl⟩⟩⟩
    refine ⟨_, hnext, hopen, hlast, hscheduled, fun i => ?_⟩
    show update s.checks m (.due key now) i = _
    by_cases hi : i = m
    · subst hi
      rw [update_self, if_pos (by omega)]
    · rw [update_of_ne hi, hchecks]
      exact if_congr (by omega) rfl rfl

theorem stampAll_run {m : ℕ} (hchecks : ∀ i, i < m → s.checks i = .due key now)
    (hnone : s.scheduled = []) (k : ℕ) (hk : k ≤ m) :
    ∃ s', run checkStep s (stampAll k) = some s' ∧ s'.scheduled = List.replicate k (key, now) ∧
      ∀ i, k ≤ i → i < m → s'.checks i = .due key now := by
  induction k with
  | zero => exact ⟨s, rfl, hnone, fun i _ hi => hchecks i hi⟩
  | succ k ih =>
    obtain ⟨t, hrun, hscheduled, hdue⟩ := ih (by omega)
    have hstamp : checkStep t (.stamp k) = some { t with
        lastSnapshotUs := upsert t.lastSnapshotUs key now
        checks := update t.checks k (.stamped key now)
        decided := t.decided ++ [(key, now)] } := by
      rw [checkStep, hdue k (le_refl k) (by omega)]
    have hschedule : checkStep { t with
        lastSnapshotUs := upsert t.lastSnapshotUs key now
        checks := update t.checks k (.stamped key now)
        decided := t.decided ++ [(key, now)] } (.schedule k) = some { t with
        lastSnapshotUs := upsert t.lastSnapshotUs key now
        checks := update t.checks k .idle
        decided := t.decided ++ [(key, now)]
        scheduled := t.scheduled ++ [(key, now)] } := by
      rw [checkStep]
      dsimp only
      rw [update_self]
      dsimp only
      rw [update_idem]
    have hnext : run checkStep s (stampAll (k + 1)) = some { t with
        lastSnapshotUs := upsert t.lastSnapshotUs key now
        checks := update t.checks k .idle
        decided := t.decided ++ [(key, now)]
        scheduled := t.scheduled ++ [(key, now)] } := by
      rw [stampAll, List.range_succ, List.flatMap_append]
      exact run_append.mpr ⟨t, hrun, run_cons.mpr ⟨_, hstamp, run_cons.mpr ⟨_, hschedule, rfl⟩⟩⟩
    refine ⟨_, hnext, ?_, fun i hi him => ?_⟩
    · show t.scheduled ++ [(key, now)] = _
      rw [hscheduled, List.replicate_succ']
    · show update t.checks k .idle i = _
      rw [update_of_ne (by omega)]
      exact hdue i (by omega) him

/-- **Checks that overlap schedule a task each.**  The stamp keeps later reads from scheduling, but
not those that have looked before it was set: any number of threads that read a state at one time,
when the window has passed, can schedule as many snapshots of it. -/
theorem timed_snapshots_storm {storeOpenUs : Int64} (hwindow : windowUs n ≤ now - storeOpenUs)
    (key : String × String) (m : ℕ) : ∃ as s, run checkStep (.init storeOpenUs) as = some s ∧
      (∀ t ∈ as.filterMap CheckAction.reading, t = now) ∧
      s.scheduled = List.replicate m (key, now) := by
  obtain ⟨s, hlook, -, -, hnone, hchecks⟩ := @lookAll_run key n now _ hwindow m
  obtain ⟨t, hstamp, hscheduled, -⟩ := stampAll_run (fun i hi => by rw [hchecks, if_pos hi]) hnone m
    (le_refl m)
  refine ⟨lookAll key n now m ++ stampAll m, t, run_append.mpr ⟨s, hlook, hstamp⟩, ?_, hscheduled⟩
  intro u hu
  obtain ⟨a, ha, hreading⟩ := List.mem_filterMap.mp hu
  rcases List.mem_append.mp ha with ha | ha
  · obtain ⟨i, -, hi⟩ := List.mem_flatMap.mp ha
    rcases List.mem_cons.mp hi with rfl | hi
    · exact (Option.some_inj.mp hreading).symm
    · obtain rfl := List.mem_singleton.mp hi
      exact absurd hreading (by simp [CheckAction.reading])
  · obtain ⟨i, -, hi⟩ := List.mem_flatMap.mp ha
    rcases List.mem_cons.mp hi with rfl | hi
    · exact absurd hreading (by simp [CheckAction.reading])
    · obtain rfl := List.mem_singleton.mp hi
      exact absurd hreading (by simp [CheckAction.reading])

/-- Three reads a second after the store was opened. -/
theorem timed_snapshots_storm_three : ∃ as s, run checkStep (.init 0) as = some s ∧
    s.scheduled = List.replicate 3 (("s", "main"), 1000000) := by
  obtain ⟨as, s, hrun, -, hscheduled⟩ :=
    @timed_snapshots_storm 1 1000000 0 (by decide) ("s", "main") 3
  exact ⟨as, s, hrun, hscheduled⟩

end Fossic
