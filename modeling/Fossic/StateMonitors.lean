/-
How often a large reducer state is reported.

Every full read records the size of each state that it passes through; at its end it asks whether
the mean of the last 32 sizes is above the threshold, and whether a minute has gone by since the
last report on the same stream and branch.  The question and the stamp are under one lock, the
report is written after it.  Sizes and reports of other threads come in between, and the clock may
be set back.

* `stateLargeCheck_eq_some_iff` — when a check decides to report;
* `monitorInv_step` — what the monitors know of the run so far;
* `state_large_iff` — the decision, in terms of the run;
* `state_large_reports` — what is written, and how often.
-/
import Fossic.Handover
import Fossic.ReadState
import Fossic.Spacing
import Fossic.Transition
import Mathlib.Data.List.DropRight

namespace Fossic

open Transition KeyedList Spacing Handover Function

/-! ### The check -/

/-- A `ReducerStateLarge` event, and the clock reading that it was decided at. -/
structure StateLarge where
  key : String × String
  meanStateBytes : UInt64
  thresholdBytes : UInt64
  decidedUs : Int64
  deriving DecidableEq

/-- What `maybe_emit_state_large` does under the lock of the monitors; `none` when it returns. -/
def stateLargeCheck (threshold : UInt64) (monitors : StateMonitors) (key : String × String)
    (now : Int64) : Option (StateLarge × StateMonitors) :=
  if threshold = USIZE_MAX then none
  else
    match find monitors key with
    | none => none
    | some m =>
      if m.meanStateSize ≤ threshold then none
      else if now - m.lastEmissionUs < EMISSION_INTERVAL_US then none
      else some (⟨key, m.meanStateSize, threshold, now⟩,
        upsert monitors key { m with lastEmissionUs := now })

variable {threshold : UInt64} {monitors : StateMonitors} {key : String × String} {now : Int64}
  {notice : StateLarge} {i : ℕ}

/-- The check is the part of `maybe_emit_state_large` before the event is written. -/
theorem maybeEmitStateLarge_eq_check (d : Deps) (s : StoreInner) (streamId branch : String)
    (now emitUs : Int64) : maybeEmitStateLarge d s streamId branch now emitUs =
      match stateLargeCheck s.reducerStateLargeThresholdBytes s.stateMonitors (streamId, branch)
        now with
      | none => s
      | some (notice, monitors) =>
        { s with
          stateMonitors := monitors
          db := emit d "ReducerStateLarge" (reducerStateLargePayload notice.key.1 notice.key.2
            notice.meanStateBytes notice.thresholdBytes) none emitUs s.db } := by
  rw [maybeEmitStateLarge.eq_def, stateLargeCheck.eq_def]
  dsimp only
  split
  · rfl
  · cases find s.stateMonitors (streamId, branch) with
    | none => rfl
    | some m =>
      dsimp only
      split
      · rfl
      · split <;> rfl

theorem stateLargeCheck_eq_some_iff {monitors' : StateMonitors} :
    stateLargeCheck threshold monitors key now = some (notice, monitors') ↔
      threshold ≠ USIZE_MAX ∧ ∃ m, find monitors key = some m ∧ threshold < m.meanStateSize ∧
        EMISSION_INTERVAL_US ≤ now - m.lastEmissionUs ∧
        notice = ⟨key, m.meanStateSize, threshold, now⟩ ∧
        monitors' = upsert monitors key { m with lastEmissionUs := now } := by
  rw [stateLargeCheck.eq_def]
  constructor
  · intro h
    split at h
    · exact absurd h (by simp)
    · rename_i hthreshold
      cases hfind : find monitors key with
      | none =>
        rw [hfind] at h
        exact absurd h (by simp)
      | some m =>
        rw [hfind] at h
        dsimp only at h
        split at h
        · exact absurd h (by simp)
        · rename_i hmean
          split at h
          · exact absurd h (by simp)
          · rename_i hsince
            obtain ⟨rfl, rfl⟩ := Prod.mk.inj (Option.some_inj.mp h)
            exact ⟨hthreshold, m, rfl, UInt64.not_le.mp hmean, Int64.not_lt.mp hsince, rfl, rfl⟩
  · rintro ⟨hthreshold, m, hfind, hmean, hsince, rfl, rfl⟩
    rw [if_neg hthreshold, hfind]
    dsimp only
    rw [if_neg (UInt64.not_le.mpr hmean), if_neg (Int64.not_lt.mpr hsince)]

/-! ### Threads -/

/-- The monitors of an open store, the reads that have decided to report and have yet to write,
and the reports in the order of the decisions. -/
structure Monitoring where
  threshold : UInt64
  monitors : StateMonitors
  readers : ℕ → Option StateLarge
  written : List StateLarge
  decided : List StateLarge

def Monitoring.init (threshold : UInt64) : Monitoring := ⟨threshold, [], fun _ => none, [], []⟩

inductive MonitorAction
  /-- `update_state_monitor`, by any thread -/
  | update (key : String × String) (stateLen applyCostUs : UInt64)
  /-- the check of the read on thread `i` -/
  | check (i : ℕ) (key : String × String) (now : Int64)
  /-- thread `i` writes its report -/
  | emit (i : ℕ)

def monitorStep (s : Monitoring) : MonitorAction → Option Monitoring
  | .update key stateLen applyCostUs =>
    some { s with monitors := updateStateMonitor s.monitors key stateLen applyCostUs }
  | .check i key now =>
    if (s.readers i).isSome then none
    else
      match stateLargeCheck s.threshold s.monitors key now with
      | none => some s
      | some (notice, monitors) =>
        some { s with
          monitors := monitors
          readers := update s.readers i (some notice)
          decided := s.decided ++ [notice] }
  | .emit i =>
    match s.readers i with
    | none => none
    | some notice =>
      some { s with
        readers := update s.readers i none
        written := s.written ++ [notice] }

/-! ### What the run has recorded -/

/-- The sizes that the run has recorded for the key. -/
def recordedSizes (key : String × String) (as : List MonitorAction) : List UInt64 :=
  as.filterMap fun
    | .update k stateLen _ => if k = key then some stateLen else none
    | _ => none

/-- The clock readings of the decisions on the key. -/
def decidedTimes (key : String × String) (decided : List StateLarge) : List ℤ :=
  (decided.filter fun n => n.key = key).map fun n => n.decidedUs.toInt

/-- The last 32 sizes, by which a check goes. -/
def monitoredSizes (key : String × String) (as : List MonitorAction) : List UInt64 :=
  (recordedSizes key as).rtake 32

/-- The clock has not been set to before 1970. -/
def MonitorAction.Timed : MonitorAction → Prop
  | .check _ _ now => 0 ≤ now.toInt
  | _ => True

/-- A buffer of the last 32 values of a list is one of the list with a value more. -/
theorem pushBounded_rtake (l : List UInt64) (value : UInt64) :
    pushBounded (l.rtake 32) value = (l ++ [value]).rtake 32 := by
  rw [List.rtake_concat_succ, pushBounded]
  congr 1
  have hlength : (l.rtake 32).length = min 32 l.length := by
    rw [List.rtake, List.length_drop]
    omega
  split
  · rename_i hfull
    rw [List.rtake, List.rtake, List.tail_drop]
    congr 1
    omega
  · rename_i hroom
    rw [List.rtake, List.rtake]
    congr 1
    omega

variable {as : List MonitorAction} {a : MonitorAction} {s s' : Monitoring}

theorem recordedSizes_append_update {k : String × String} {stateLen applyCostUs : UInt64} :
    recordedSizes key (as ++ [.update k stateLen applyCostUs]) =
      recordedSizes key as ++ if k = key then [stateLen] else [] := by
  rw [recordedSizes, List.filterMap_append]
  show _ ++ (List.filterMap _ [_]) = _
  split <;> simp_all [recordedSizes]

theorem recordedSizes_append_other (h : ∀ k stateLen applyCostUs,
    a ≠ .update k stateLen applyCostUs) :
    recordedSizes key (as ++ [a]) = recordedSizes key as := by
  rw [recordedSizes, List.filterMap_append]
  cases a with
  | update k stateLen applyCostUs => exact absurd rfl (h k stateLen applyCostUs)
  | check | emit => exact List.append_nil _

theorem decidedTimes_append {decided : List StateLarge} :
    decidedTimes key (decided ++ [notice]) =
      decidedTimes key decided ++ if notice.key = key then [notice.decidedUs.toInt] else [] := by
  rw [decidedTimes, List.filter_append, List.map_append]
  split <;> rename_i hkey <;> simp [decidedTimes, hkey]

/-! ### The steps -/

/-- **What a step does**, action by action. -/
inductive MonitorTaken (s : Monitoring) : MonitorAction → Monitoring → Prop
  | updated (key : String × String) (stateLen applyCostUs : UInt64) :
      MonitorTaken s (.update key stateLen applyCostUs)
        { s with monitors := updateStateMonitor s.monitors key stateLen applyCostUs }
  | passed {i : ℕ} {key : String × String} {now : Int64} (hidle : s.readers i = none)
      (hcheck : stateLargeCheck s.threshold s.monitors key now = none) :
      MonitorTaken s (.check i key now) s
  | decided {i : ℕ} {key : String × String} {now : Int64} {m : StateMonitor}
      (hidle : s.readers i = none) (hthreshold : s.threshold ≠ USIZE_MAX)
      (hfind : find s.monitors key = some m) (hmean : s.threshold < m.meanStateSize)
      (hsince : EMISSION_INTERVAL_US ≤ now - m.lastEmissionUs) :
      MonitorTaken s (.check i key now)
        { s with
          monitors := upsert s.monitors key { m with lastEmissionUs := now }
          readers := update s.readers i (some ⟨key, m.meanStateSize, s.threshold, now⟩)
          decided := s.decided ++ [⟨key, m.meanStateSize, s.threshold, now⟩] }
  | emitted {i : ℕ} {notice : StateLarge} (hreader : s.readers i = some notice) :
      MonitorTaken s (.emit i)
        { s with readers := update s.readers i none, written := s.written ++ [notice] }

theorem monitorTaken_of_step (h : monitorStep s a = some s') : MonitorTaken s a s' := by
  cases a with
  | update key stateLen applyCostUs =>
    obtain rfl := Option.some_inj.mp h
    exact .updated key stateLen applyCostUs
  | check i key now =>
    rw [monitorStep] at h
    split at h
    · exact absurd h (by simp)
    · rename_i hreader
      have hidle : s.readers i = none := by simpa using hreader
      cases hcheck : stateLargeCheck s.threshold s.monitors key now with
      | none =>
        rw [hcheck] at h
        obtain rfl := Option.some_inj.mp h
        exact .passed hidle hcheck
      | some result =>
        obtain ⟨notice, monitors'⟩ := result
        rw [hcheck] at h
        obtain rfl := Option.some_inj.mp h
        obtain ⟨hthreshold, m, hfind, hmean, hsince, rfl, rfl⟩ :=
          stateLargeCheck_eq_some_iff.mp hcheck
        exact .decided hidle hthreshold hfind hmean hsince
  | emit i =>
    rw [monitorStep] at h
    cases hreader : s.readers i with
    | none =>
      rw [hreader] at h
      exact absurd h (by simp)
    | some notice =>
      rw [hreader] at h
      obtain rfl := Option.some_inj.mp h
      exact .emitted hreader

theorem monitorStep_decided {monitors : StateMonitors} (hidle : s.readers i = none)
    (hcheck : stateLargeCheck s.threshold s.monitors key now = some (notice, monitors)) :
    monitorStep s (.check i key now) = some { s with
      monitors := monitors
      readers := update s.readers i (some notice)
      decided := s.decided ++ [notice] } := by
  have hfree : ¬ (s.readers i).isSome = true := by simp [hidle]
  rw [monitorStep, if_neg hfree, hcheck]

/-! ### The invariant -/

/-- The monitor of a key, as the run has left it. -/
def MonitorOf (as : List MonitorAction) (decided : List StateLarge) (key : String × String) :
    Option StateMonitor → Prop
  | none => recordedSizes key as = [] ∧ decidedTimes key decided = []
  | some m => recordedSizes key as ≠ [] ∧ m.stateSizes = monitoredSizes key as ∧
      m.lastEmissionUs.toInt = (decidedTimes key decided).getLast?.getD 0

/-- What is known of a report: the check that decided it, and the sizes at that time. -/
def ReportOf (threshold : UInt64) (as : List MonitorAction) (n : StateLarge) : Prop :=
  ∃ bs i cs, as = bs ++ .check i n.key n.decidedUs :: cs ∧
    n.meanStateBytes = meanOf (monitoredSizes n.key bs) ∧ threshold < n.meanStateBytes ∧
    n.thresholdBytes = threshold

structure MonitorInv (threshold : UInt64) (as : List MonitorAction) (s : Monitoring) : Prop where
  threshold_eq : s.threshold = threshold
  monitor : ∀ key, MonitorOf as s.decided key (find s.monitors key)
  /-- The monitors start from a report at 0. -/
  spaced : ∀ key, Spaced 60000000 (0 :: decidedTimes key s.decided)
  reports : ∀ n ∈ s.decided, ReportOf threshold as n
  accounted : HandedOver s.decided s.written s.readers

theorem monitorInv_init : MonitorInv threshold [] (.init threshold) where
  threshold_eq := rfl
  monitor _ := ⟨rfl, rfl⟩
  spaced _ := List.pairwise_singleton _ _
  reports _ h := absurd h List.not_mem_nil
  accounted := handedOver_nil

theorem ReportOf.append {n : StateLarge} (h : ReportOf threshold as n) (a : MonitorAction) :
    ReportOf threshold (as ++ [a]) n := by
  obtain ⟨bs, i, cs, rfl, hn⟩ := h
  exact ⟨bs, i, cs ++ [a], by simp, hn⟩

/-- With two readings from after 1970 the subtraction does not wrap. -/
theorem interval_le_sub_iff {last : Int64} (hnow : 0 ≤ now.toInt) (hlast : 0 ≤ last.toInt) :
    EMISSION_INTERVAL_US ≤ now - last ↔ last.toInt + 60000000 ≤ now.toInt := by
  have hnow' := now.toInt_lt
  have hlast' := last.toInt_lt
  rw [Int64.le_iff_toInt_le, Int64.toInt_sub, Int.bmod_eq_of_le (by omega) (by omega)]
  show (60000000 : ℤ) ≤ _ ↔ _
  omega

/-- The last report on a key, from what its monitor has kept. -/
theorem last_nonneg {times : List ℤ} (h : Spaced 60000000 (0 :: times)) :
    0 ≤ times.getLast?.getD 0 := by
  cases hlast : times.getLast? with
  | none => exact le_refl _
  | some t =>
    have := (List.pairwise_cons.mp h).1 t (List.mem_of_getLast? hlast)
    rw [Option.getD_some]
    omega

theorem spaced_concat_iff {times : List ℤ} {t : ℤ} (h : Spaced 60000000 (0 :: times)) :
    Spaced 60000000 (0 :: (times ++ [t])) ↔ times.getLast?.getD 0 + 60000000 ≤ t := by
  rw [← List.cons_append, spaced_concat (by omega), List.getLast?_cons]
  constructor
  · exact fun hspaced => hspaced.2 _ rfl
  · rintro hle
    exact ⟨h, fun last hlast => Option.some_inj.mp hlast ▸ hle⟩

/-- Checks and writes leave the recorded sizes alone. -/
theorem MonitorOf.append_other {decided : List StateLarge} {o : Option StateMonitor}
    (h : MonitorOf as decided key o)
    (ha : ∀ k stateLen applyCostUs, a ≠ .update k stateLen applyCostUs) :
    MonitorOf (as ++ [a]) decided key o := by
  cases o with
  | none => exact ⟨(recordedSizes_append_other ha).trans h.1, h.2⟩
  | some m =>
    rw [MonitorOf, monitoredSizes, recordedSizes_append_other ha]
    exact h

theorem mem_decidedTimes {decided : List StateLarge} (hn : notice ∈ decided) :
    notice.decidedUs.toInt ∈ decidedTimes notice.key decided :=
  List.mem_map.mpr ⟨notice, List.mem_filter.mpr ⟨hn, decide_eq_true rfl⟩, rfl⟩

theorem monitorInv_step (h : MonitorInv threshold as s) (ha : a.Timed)
    (hstep : monitorStep s a = some s') : MonitorInv threshold (as ++ [a]) s' := by
  cases monitorTaken_of_step hstep with
  | updated key stateLen applyCostUs =>
    refine ⟨h.threshold_eq, fun key' => ?_, h.spaced, fun n hn => (h.reports n hn).append _,
      h.accounted⟩
    have hmonitor := h.monitor key'
    show MonitorOf _ _ _ (find (updateStateMonitor s.monitors key stateLen applyCostUs) key')
    rw [updateStateMonitor, find_upsert]
    by_cases hkey : key = key'
    · subst hkey
      rw [if_pos rfl]
      refine ⟨?_, ?_, ?_⟩
      · rw [recordedSizes_append_update, if_pos rfl]
        exact List.append_ne_nil_of_right_ne_nil _ (List.cons_ne_nil _ _)
      · rw [monitoredSizes, recordedSizes_append_update, if_pos rfl, ← pushBounded_rtake]
        cases hfind : find s.monitors key with
        | none =>
          rw [hfind] at hmonitor
          rw [hmonitor.1]
          rfl
        | some m =>
          rw [hfind] at hmonitor
          exact congrArg (pushBounded · stateLen) hmonitor.2.1
      · cases hfind : find s.monitors key with
        | none =>
          rw [hfind] at hmonitor
          rw [hmonitor.2]
          rfl
        | some m =>
          rw [hfind] at hmonitor
          exact hmonitor.2.2
    · rw [if_neg hkey]
      cases hfind : find s.monitors key' with
      | none =>
        rw [hfind] at hmonitor
        refine ⟨?_, hmonitor.2⟩
        rw [recordedSizes_append_update, if_neg hkey, List.append_nil]
        exact hmonitor.1
      | some m =>
        rw [hfind] at hmonitor
        rw [MonitorOf, monitoredSizes, recordedSizes_append_update, if_neg hkey, List.append_nil]
        exact hmonitor
  | passed hidle hcheck =>
    exact ⟨h.threshold_eq, fun key' => (h.monitor key').append_other (by simp), h.spaced,
      fun n hn => (h.reports n hn).append _, h.accounted⟩
  | @decided i key now m hidle hthreshold hfind hmean hsince =>
    have hmonitor := h.monitor key
    rw [hfind] at hmonitor
    obtain ⟨hrecorded, hsizes, hlast⟩ := hmonitor
    have hnow : 0 ≤ now.toInt := ha
    have hle := (interval_le_sub_iff hnow (hlast ▸ last_nonneg (h.spaced key))).mp hsince
    have hspaced := (spaced_concat_iff (h.spaced key)).mpr (hlast ▸ hle)
    -- the decision is later than all others on the key
    have hfresh : (⟨key, m.meanStateSize, s.threshold, now⟩ : StateLarge) ∉ s.decided := by
      intro hmem
      have hnodup := (List.nodup_cons.mp (hspaced.nodup (by omega))).2
      exact (List.nodup_append.mp hnodup).2.2 _ (mem_decidedTimes hmem) _
        (List.mem_singleton_self _) rfl
    refine ⟨h.threshold_eq, fun key' => ?_, fun key' => ?_, fun n hn => ?_,
      h.accounted.take hidle hfresh⟩
    · show MonitorOf _ (s.decided ++ [_]) _ (find (upsert s.monitors key _) key')
      rw [find_upsert]
      by_cases hkey : key = key'
      · subst hkey
        rw [if_pos rfl]
        refine MonitorOf.append_other ⟨hrecorded, hsizes, ?_⟩ (by simp)
        rw [decidedTimes_append, if_pos rfl, List.getLast?_concat, Option.getD_some]
      · rw [if_neg hkey]
        have hother := (h.monitor key').append_other (a := .check i key now) (by simp)
        have htimes : decidedTimes key' (s.decided ++ [⟨key, m.meanStateSize, s.threshold, now⟩]) =
            decidedTimes key' s.decided := by
          rw [decidedTimes_append, if_neg hkey, List.append_nil]
        cases hfind' : find s.monitors key' with
        | none =>
          rw [hfind'] at hother
          exact ⟨hother.1, htimes.trans hother.2⟩
        | some m' =>
          rw [hfind'] at hother
          exact ⟨hother.1, hother.2.1, htimes.symm ▸ hother.2.2⟩
    · show Spaced _ (0 :: decidedTimes key' (s.decided ++ [_]))
      rw [decidedTimes_append]
      by_cases hkey : key = key'
      · subst hkey
        rw [if_pos rfl]
        exact hspaced
      · rw [if_neg hkey, List.append_nil]
        exact h.spaced key'
    · rcases List.mem_append.mp hn with hn | hn
      · exact (h.reports n hn).append _
      · obtain rfl := List.mem_singleton.mp hn
        refine ⟨as, i, [], rfl, ?_, h.threshold_eq ▸ hmean, h.threshold_eq⟩
        show meanOf m.stateSizes = _
        rw [hsizes]
  | emitted hreader =>
    exact ⟨h.threshold_eq, fun key' => (h.monitor key').append_other (by simp), h.spaced,
      fun n hn => (h.reports n hn).append _, h.accounted.hand hreader⟩

theorem monitorInv_run (hrun : run monitorStep (.init threshold) as = some s)
    (htimed : ∀ a ∈ as, a.Timed) : MonitorInv threshold as s :=
  run_history monitorInv_init (fun _ _ _ _ h ha hstep => monitorInv_step h ha hstep)
    (along_of_forall htimed) hrun

/-! ### What is reported -/

theorem mem_decidedTimes_iff {decided : List StateLarge} {t : ℤ} :
    t ∈ decidedTimes key decided ↔ ∃ n ∈ decided, n.key = key ∧ n.decidedUs.toInt = t := by
  simp only [decidedTimes, List.mem_map, List.mem_filter, decide_eq_true_eq, and_assoc]

/-- The stamp of a monitor stands for all decisions on its key. -/
theorem last_le_iff {decided : List StateLarge} {t : ℤ}
    (h : Spaced 60000000 (0 :: decidedTimes key decided)) :
    (decidedTimes key decided).getLast?.getD 0 + 60000000 ≤ t ↔ 60000000 ≤ t ∧
      ∀ n ∈ decided, n.key = key → n.decidedUs.toInt + 60000000 ≤ t := by
  rw [← spaced_concat_iff h, Spaced, ← List.cons_append, List.pairwise_append]
  constructor
  · rintro ⟨-, -, hle⟩
    refine ⟨?_, fun n hn hkey => ?_⟩
    · have := hle 0 List.mem_cons_self t (List.mem_singleton_self t)
      omega
    · exact hle _ (List.mem_cons_of_mem _ (mem_decidedTimes_iff.mpr ⟨n, hn, hkey, rfl⟩)) t
        (List.mem_singleton_self t)
  · rintro ⟨hfirst, hle⟩
    refine ⟨h, List.pairwise_singleton _ _, fun u hu v hv => ?_⟩
    obtain rfl := List.mem_singleton.mp hv
    rcases List.mem_cons.mp hu with rfl | hu
    · omega
    · obtain ⟨n, hn, hkey, rfl⟩ := mem_decidedTimes_iff.mp hu
      exact hle n hn hkey

/-- **When a read reports.**  In every run, whatever other threads do in between: the check at the
end of a read decides to report exactly when reports are not switched off, a size has been
recorded for the stream and branch, the mean of the last 32 is above the threshold, and the
clock is a minute or more past every earlier decision on them. -/
theorem state_large_iff (hrun : run monitorStep (.init threshold) as = some s)
    (htimed : ∀ a ∈ as, a.Timed) (hidle : s.readers i = none) (hnow : 0 ≤ now.toInt) :
    (∃ s', monitorStep s (.check i key now) = some s' ∧ (s'.readers i).isSome) ↔
      threshold ≠ USIZE_MAX ∧ recordedSizes key as ≠ [] ∧
        threshold < meanOf (monitoredSizes key as) ∧ 60000000 ≤ now.toInt ∧
        ∀ n ∈ s.decided, n.key = key → n.decidedUs.toInt + 60000000 ≤ now.toInt := by
  have h := monitorInv_run hrun htimed
  have hmonitor := h.monitor key
  rw [← last_le_iff (h.spaced key)]
  constructor
  · rintro ⟨s', hstep, hreader⟩
    cases monitorTaken_of_step hstep with
    | passed => exact absurd hreader (by simp [hidle])
    | decided _ hthreshold hfind hmean hsince =>
      rw [hfind] at hmonitor
      obtain ⟨hrecorded, hsizes, hlast⟩ := hmonitor
      have hle := (interval_le_sub_iff hnow (hlast ▸ last_nonneg (h.spaced key))).mp hsince
      refine ⟨h.threshold_eq ▸ hthreshold, hrecorded, ?_, hlast ▸ hle⟩
      rw [← hsizes, ← h.threshold_eq]
      exact hmean
  · rintro ⟨hthreshold, hrecorded, hmean, hle⟩
    cases hfind : find s.monitors key with
    | none =>
      rw [hfind] at hmonitor
      exact absurd hmonitor.1 hrecorded
    | some m =>
      rw [hfind] at hmonitor
      obtain ⟨-, hsizes, hlast⟩ := hmonitor
      have hsince := (interval_le_sub_iff hnow (hlast ▸ last_nonneg (h.spaced key))).mpr
        (hlast ▸ hle)
      have hcheck : stateLargeCheck s.threshold s.monitors key now = some _ :=
        stateLargeCheck_eq_some_iff.mpr ⟨h.threshold_eq ▸ hthreshold, m, hfind,
          show s.threshold < meanOf m.stateSizes by rw [hsizes, h.threshold_eq]; exact hmean,
          hsince, rfl, rfl⟩
      refine ⟨_, monitorStep_decided hidle hcheck, ?_⟩
      show (update s.readers i (some _) i).isSome = true
      rw [update_self]
      rfl

/-- A first state of ten bytes, over a threshold of five. -/
theorem state_large_iff_first : ∃ s s',
    run monitorStep (.init 5) [.update ("s", "main") 10 1] = some s ∧
    monitorStep s (.check 0 ("s", "main") 60000000) = some s' ∧ (s'.readers 0).isSome := by
  obtain ⟨s', hstep, hreader⟩ := (@state_large_iff 5 ("s", "main") 60000000 0
    [.update ("s", "main") 10 1] _ rfl (by simp [MonitorAction.Timed]) rfl (by decide)).mpr
    ⟨by decide, by decide, by decide, by decide, fun n hn => absurd hn List.not_mem_nil⟩
  exact ⟨_, s', rfl, hstep, hreader⟩

/-- **What is reported, and how often.**  In every run of any number of reading threads, with a
clock that may be set back: each report is written once, by the check that decided it, and gives
the mean of the last 32 sizes at that time, which is above the threshold; and in any window of
clock readings a stream and branch get at most one report, and one more for each full minute
of the window. -/
theorem state_large_reports (hrun : run monitorStep (.init threshold) as = some s)
    (htimed : ∀ a ∈ as, a.Timed) : s.written.Nodup ∧
      (∀ n ∈ s.written, ReportOf threshold as n ∧ ∀ i, s.readers i ≠ some n) ∧
      ∀ key lo hi, lo ≤ hi → ((s.written.filter fun n => n.key = key ∧ lo ≤ n.decidedUs.toInt ∧
        n.decidedUs.toInt ≤ hi).length : ℤ) ≤ (hi - lo) / 60000000 + 1 := by
  have h := monitorInv_run hrun htimed
  refine ⟨h.accounted.once, fun n hn => ⟨h.reports n (h.accounted.subset hn),
    fun i hi => h.accounted.pending i n hi hn⟩, fun key lo hi hle => ?_⟩
  -- the decisions are in the order of their times, which the reports need not be
  have hcount := h.accounted.length_le fun n => n.key = key ∧ lo ≤ n.decidedUs.toInt ∧
    n.decidedUs.toInt ≤ hi
  have hfilter : (s.decided.filter fun n => n.key = key ∧ lo ≤ n.decidedUs.toInt ∧
      n.decidedUs.toInt ≤ hi).length =
      ((decidedTimes key s.decided).filter fun t => lo ≤ t ∧ t ≤ hi).length := by
    rw [decidedTimes, List.filter_map, List.length_map, List.filter_filter]
    refine congrArg _ (List.filter_congr fun n _ => ?_)
    rw [Function.comp, ← Bool.decide_and]
    exact decide_eq_decide.mpr and_comm
  have hspaced : Spaced 60000000 (decidedTimes key s.decided) :=
    (h.spaced key).sublist (List.sublist_cons_self _ _)
  have hwindow := hspaced.count_le (by omega) hle
  omega

/-- Two threads read the same state at the same time; one of them reports it. -/
theorem state_large_reports_two : ∃ s, run monitorStep (.init 5)
      [.update ("s", "main") 10 1, .update ("s", "main") 12 1, .check 0 ("s", "main") 60000000,
        .check 1 ("s", "main") 60000001, .emit 0] = some s ∧ s.written.length = 1 ∧
      ∀ n ∈ s.written, 5 < n.meanStateBytes := by
  refine ⟨_, rfl, rfl, fun n hn => ?_⟩
  obtain ⟨-, hreports, -⟩ := @state_large_reports 5
    [.update ("s", "main") 10 1, .update ("s", "main") 12 1, .check 0 ("s", "main") 60000000,
      .check 1 ("s", "main") 60000001, .emit 0] _ rfl (by simp [MonitorAction.Timed])
  obtain ⟨bs, i, cs, -, -, hmean, -⟩ := (hreports n hn).1
  exact hmean

end Fossic
