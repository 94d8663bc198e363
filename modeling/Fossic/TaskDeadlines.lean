/-
The background executor under a clock.

Every step of the executor is given the reading of the clock when it begins, and each
execution of a task is logged with the readings around it.  A task carries the serial
number of its scheduling, which it keeps when it is put back.  The loop orders the heap by
priority and deadline, but it runs the first task whether its deadline has come or not.

* `run_executor` — without clock and log, the runs are those of the executor;
* `timedInv_step` — what every step keeps that does not open the gate before the first task
  is due;
* `deadlines_respected` — along such steps no task is early, and the executions of a
  recurring task are its interval apart.
-/
import Fossic.Executor
import Mathlib.Data.List.Nodup

namespace Fossic

open Transition MaxHeap

/-! ### The executor under a clock -/

/-- An execution of a task: the clock was read before it, and again after it. -/
structure Execution where
  serial : ℕ
  task : BacklogTask
  start : Int64
  finish : Int64

structure TimedExecutor where
  executor : Executor
  /-- The last reading. -/
  clock : Int64
  /-- The tasks in the channel, with their serial numbers. -/
  waiting : List (ℕ × BacklogTask)
  /-- The tasks in the heap. -/
  queued : List (ℕ × BacklogTask)
  next : ℕ
  log : List Execution

def TimedExecutor.init (clock : Int64) : TimedExecutor := ⟨.init, clock, [], [], 0, []⟩

/-- The last reading in a step that begins at `start`. -/
def ExecutorAction.lastReading (start : Int64) : ExecutorAction → Int64
  | execute _ now => now
  | _ => start

/-- What the step of the executor to `executor` does to the clock, the serial numbers and the
log. -/
def TimedExecutor.follow (s : TimedExecutor) (start : Int64) (a : ExecutorAction)
    (executor : Executor) : TimedExecutor :=
  let t := { s with executor := executor, clock := a.lastReading start }
  match a with
  | .schedule task => { t with waiting := s.waiting ++ [(s.next, task)], next := s.next + 1 }
  | .receive => { t with waiting := s.waiting.tail, queued := s.queued ++ s.waiting.head?.toList }
  | .execute i now =>
    match s.queued[i]? with
    | some (serial, task) =>
      { t with
        queued := s.queued.eraseIdx i ++ (task.requeue now).map fun u => (serial, u)
        log := s.log ++ [⟨serial, task, start, now⟩] }
    | none => t
  | .dropTask i => { t with queued := s.queued.eraseIdx i }
  | _ => t

/-- A step that begins at a reading of the clock. -/
def timedStep (s : TimedExecutor) (a : Int64 × ExecutorAction) : Option TimedExecutor :=
  if s.clock ≤ a.1 ∧ a.1 ≤ a.2.lastReading a.1 then
    (executorStep s.executor a.2).map (s.follow a.1 a.2)
  else none

variable {s s' : TimedExecutor} {a : Int64 × ExecutorAction} {start : Int64}

theorem timedStep_eq_some : timedStep s a = some s' ↔
    s.clock ≤ a.1 ∧ a.1 ≤ a.2.lastReading a.1 ∧
      ∃ executor, executorStep s.executor a.2 = some executor ∧ s.follow a.1 a.2 executor = s' := by
  rw [timedStep]
  split
  · rename_i hclock
    rw [Option.map_eq_some_iff]
    exact ⟨fun h => ⟨hclock.1, hclock.2, h⟩, fun h => h.2.2⟩
  · rename_i hclock
    exact ⟨fun h => absurd h (by simp), fun h => absurd ⟨h.1, h.2.1⟩ hclock⟩

theorem follow_executor {action : ExecutorAction} {executor : Executor} :
    (s.follow start action executor).executor = executor := by
  cases action with
  | execute i now =>
    simp only [TimedExecutor.follow]
    split <;> rfl
  | _ => rfl

/-- Without the clock, the runs are those of the executor. -/
theorem run_executor {as : List (Int64 × ExecutorAction)} (h : run timedStep s as = some s') :
    run executorStep s.executor (as.map (·.2)) = some s'.executor := by
  induction as generalizing s with
  | nil => exact congrArg (some ∘ TimedExecutor.executor) (Option.some_inj.mp h)
  | cons a as ih =>
    obtain ⟨t, hstep, hrun⟩ := run_cons.mp h
    obtain ⟨-, -, executor, hexecutor, rfl⟩ := timedStep_eq_some.mp hstep
    have hrest := ih hrun
    rw [follow_executor] at hrest
    exact run_cons.mpr ⟨executor, hexecutor, hrest⟩

/-! ### Deadlines and intervals -/

/-- Two executions of one scheduling are its interval apart. -/
def Execution.Apart (x y : Execution) : Prop :=
  x.serial = y.serial → ∀ n ∈ x.task.recurringInterval, x.finish.toInt + n ≤ y.start.toInt

/-- The task was put back after the execution, with a deadline one interval later. -/
def Execution.Spaced (x : Execution) (t : BacklogTask) : Prop :=
  t.recurringInterval = x.task.recurringInterval ∧
    ∀ n ∈ t.recurringInterval, x.finish.toInt + n ≤ t.deadlineUs.toInt

/-- When the gate opens, the first task of the heap is due; and what is added to the clock
when a task is put back fits an `i64`. -/
def OnTime (s : TimedExecutor) (a : Int64 × ExecutorAction) : Prop :=
  match a.2 with
  | .gate true => ∀ t ∈ s.executor.heap, isTop BacklogTask.cmp s.executor.heap t = true →
      t.deadlineUs ≤ a.1
  | .execute i now => ∀ t ∈ s.executor.heap[i]?, ∀ n ∈ t.recurringInterval,
      now.toInt + n < 2 ^ 63
  | _ => True

structure TimedInv (s : TimedExecutor) : Prop where
  queued : s.queued.map (·.2) = s.executor.heap
  waiting : s.waiting.map (·.2) = s.executor.channel.pending
  distinct : ((s.queued ++ s.waiting).map (·.1)).Nodup
  fresh : ∀ p ∈ s.queued ++ s.waiting, p.1 < s.next
  past : ∀ x ∈ s.log, x.serial < s.next ∧ x.finish.toInt ≤ s.clock.toInt
  unstarted : ∀ p ∈ s.waiting, ∀ x ∈ s.log, x.serial ≠ p.1
  spaced : ∀ p ∈ s.queued, ∀ x ∈ s.log, x.serial = p.1 → x.Spaced p.2
  /-- Behind the gate the first task is due. -/
  gated : s.executor.phase = .ready → ∀ t ∈ s.executor.heap,
    isTop BacklogTask.cmp s.executor.heap t = true → t.deadlineUs.toInt ≤ s.clock.toInt
  due : ∀ x ∈ s.log, x.task.deadlineUs.toInt ≤ x.start.toInt ∧ x.start.toInt ≤ x.finish.toInt
  apart : s.log.Pairwise Execution.Apart

theorem timedInv_init {clock : Int64} : TimedInv (.init clock) where
  queued := rfl
  waiting := rfl
  distinct := .nil
  fresh p hp := absurd hp List.not_mem_nil
  past x hx := absurd hx List.not_mem_nil
  unstarted p hp := absurd hp List.not_mem_nil
  spaced p hp := absurd hp List.not_mem_nil
  gated h := absurd h (by simp [TimedExecutor.init, Executor.init])
  due x hx := absurd hx List.not_mem_nil
  apart := .nil

/-- The deadline of a task that is put back. -/
theorem toInt_deadline {now : Int64} {n : ℕ} (hfits : now.toInt + n < 2 ^ 63) :
    (now + Int64.ofNat n).toInt = now.toInt + n := by
  have hlow := now.le_toInt
  have hsize : Int64.size = 2 ^ 64 := rfl
  rw [Int64.toInt_add, Int64.toInt_ofNat', hsize, Int.add_bmod_bmod]
  exact Int.bmod_eq_of_le (by omega) (by omega)

/-- A step that moves no task. -/
theorem TimedInv.keep (h : TimedInv s) {executor : Executor} {clock : Int64}
    (hclock : s.clock ≤ clock) (hheap : executor.heap = s.executor.heap)
    (hpending : executor.channel.pending = s.executor.channel.pending)
    (hgated : executor.phase = .ready → ∀ t ∈ executor.heap,
      isTop BacklogTask.cmp executor.heap t = true → t.deadlineUs.toInt ≤ clock.toInt) :
    TimedInv { s with executor := executor, clock := clock } where
  queued := h.queued.trans hheap.symm
  waiting := h.waiting.trans hpending.symm
  distinct := h.distinct
  fresh := h.fresh
  past x hx := ⟨(h.past x hx).1, (h.past x hx).2.trans (Int64.le_iff_toInt_le.mp hclock)⟩
  unstarted := h.unstarted
  spaced := h.spaced
  gated := hgated
  due := h.due
  apart := h.apart

/-- The popped task, with its serial number. -/
theorem exists_queued (h : TimedInv s) {i : ℕ} {task : BacklogTask} {heap : List BacklogTask}
    (hpop : popAt BacklogTask.cmp s.executor.heap i = some (task, heap)) :
    ∃ serial, s.queued[i]? = some (serial, task) ∧
      (s.queued.eraseIdx i).map (·.2) = heap := by
  obtain ⟨hget, -, herase⟩ := popAt_eq_some.mp hpop
  rw [← h.queued, List.getElem?_map, Option.map_eq_some_iff] at hget
  obtain ⟨⟨serial, task⟩, hget, rfl⟩ := hget
  exact ⟨serial, hget, by rw [← herase, ← h.queued, List.eraseIdx_map]⟩

/-- A task is scheduled. -/
theorem TimedInv.schedule (h : TimedInv s) {task : BacklogTask} {clock : Int64}
    (hclock : s.clock ≤ clock) :
    TimedInv
      { s with
        executor := { s.executor with channel := s.executor.channel.send task }
        clock := clock
        waiting := s.waiting ++ [(s.next, task)]
        next := s.next + 1 } := by
  have hkept := @TimedInv.keep _ h s.executor clock hclock rfl rfl
    fun hphase t ht htop => (h.gated hphase t ht htop).trans (Int64.le_iff_toInt_le.mp hclock)
  have hnew : ∀ p ∈ s.queued ++ s.waiting, p.1 ≠ s.next := fun p hp => (h.fresh p hp).ne
  refine ⟨h.queued, ?_, ?_, ?_, ?_, ?_, h.spaced, hkept.gated, h.due, h.apart⟩
  · rw [List.map_append, h.waiting]
    rfl
  · show ((s.queued ++ (s.waiting ++ [(s.next, task)])).map (·.1)).Nodup
    rw [← List.append_assoc, List.map_append, List.nodup_append]
    refine ⟨h.distinct, List.nodup_singleton _, fun i hi j hj => ?_⟩
    obtain ⟨p, hp, rfl⟩ := List.mem_map.mp hi
    obtain rfl := List.mem_singleton.mp hj
    exact hnew p hp
  · intro p hp
    rw [← List.append_assoc] at hp
    rcases List.mem_append.mp hp with hp | hp
    · exact (h.fresh p hp).trans (Nat.lt_succ_self _)
    · obtain rfl := List.mem_singleton.mp hp
      exact Nat.lt_succ_self _
  · exact fun x hx => ⟨(h.past x hx).1.trans (Nat.lt_succ_self _), (hkept.past x hx).2⟩
  · intro p hp x hx
    rcases List.mem_append.mp hp with hp | hp
    · exact h.unstarted p hp x hx
    · obtain rfl := List.mem_singleton.mp hp
      exact (h.past x hx).1.ne

/-- A task is moved from the channel to the heap. -/
theorem TimedInv.receive (h : TimedInv s) {p : ℕ × BacklogTask} {waiting : List (ℕ × BacklogTask)}
    {channel : Fifo BacklogTask} {clock : Int64} (hclock : s.clock ≤ clock)
    (hphase : s.executor.phase ≠ .ready) (hwaiting : s.waiting = p :: waiting)
    (hpending : channel.pending = waiting.map (·.2)) :
    TimedInv
      { s with
        executor := { s.executor with channel := channel, heap := s.executor.heap ++ [p.2] }
        clock := clock
        waiting := waiting
        queued := s.queued ++ [p] } := by
  have hsame : s.queued ++ [p] ++ waiting = s.queued ++ s.waiting := by
    rw [hwaiting, List.append_assoc]
    rfl
  have hlater : ∀ x ∈ s.log, x.serial < s.next ∧ x.finish.toInt ≤ clock.toInt := fun x hx =>
    ⟨(h.past x hx).1, (h.past x hx).2.trans (Int64.le_iff_toInt_le.mp hclock)⟩
  refine ⟨?_, hpending.symm, ?_, ?_, hlater, ?_, ?_, fun hready => absurd hready hphase, h.due,
    h.apart⟩
  · rw [List.map_append, h.queued]
    rfl
  · show ((s.queued ++ [p] ++ waiting).map (·.1)).Nodup
    rw [hsame]
    exact h.distinct
  · show ∀ q ∈ s.queued ++ [p] ++ waiting, q.1 < s.next
    rw [hsame]
    exact h.fresh
  · exact fun q hq => h.unstarted q (hwaiting ▸ List.mem_cons_of_mem _ hq)
  · intro q hq x hx hserial
    rcases List.mem_append.mp hq with hq | hq
    · exact h.spaced q hq x hx hserial
    · -- nothing has been executed under the serial number of a task in the channel
      obtain rfl := List.mem_singleton.mp hq
      exact absurd hserial (h.unstarted q (hwaiting ▸ List.mem_cons_self) x hx)

/-- What is put back is the task, due one interval later. -/
theorem eq_of_mem_requeue {task u : BacklogTask} {now : Int64} (hu : u ∈ task.requeue now) :
    ∃ n, task.recurringInterval = some n ∧
      u = { task with deadlineUs := now + Int64.ofNat n } := by
  rw [BacklogTask.requeue] at hu
  split at hu
  · rename_i n hn
    exact ⟨n, hn, List.mem_singleton.mp hu⟩
  · exact absurd hu List.not_mem_nil

/-- It keeps its serial number and its interval, and is due one interval after `now`. -/
theorem requeue_spec {task : BacklogTask} {now : Int64} {serial : ℕ} {p : ℕ × BacklogTask}
    (hfits : ∀ n ∈ task.recurringInterval, now.toInt + n < 2 ^ 63)
    (hp : p ∈ (task.requeue now).map fun u => (serial, u)) :
    p.1 = serial ∧ p.2.recurringInterval = task.recurringInterval ∧
      ∀ n ∈ p.2.recurringInterval, p.2.deadlineUs.toInt = now.toInt + n := by
  obtain ⟨u, hu, rfl⟩ := List.mem_map.mp hp
  obtain ⟨n, hn, rfl⟩ := eq_of_mem_requeue hu
  refine ⟨rfl, rfl, fun m hm => ?_⟩
  obtain rfl := Option.some_inj.mp (hn.symm.trans hm)
  exact toInt_deadline (hfits n hn)

theorem serials_requeue (task : BacklogTask) (now : Int64) (serial : ℕ) :
    (((task.requeue now).map fun u => (serial, u)).map Prod.fst).Sublist [serial] := by
  rw [BacklogTask.requeue]
  split
  · exact List.Sublist.refl _
  · exact List.nil_sublist _

/-- The serial numbers stay distinct when a task is put back at the end. -/
theorem distinct_requeue {task : BacklogTask} {serial : ℕ} {others waiting : List (ℕ × BacklogTask)}
    {now : Int64} (h : (serial :: (others ++ waiting).map Prod.fst).Nodup) :
    ((others ++ ((task.requeue now).map fun u => (serial, u)) ++ waiting).map Prod.fst).Nodup := by
  have hsub := ((List.Sublist.refl (others.map Prod.fst)).append
    (serials_requeue task now serial)).append_right (waiting.map Prod.fst)
  rw [← List.map_append, ← List.map_append] at hsub
  refine List.Nodup.sublist hsub (List.Perm.nodup_iff ?_ |>.mpr h)
  rw [List.append_assoc, List.map_append]
  exact List.perm_middle

/-- The first task is executed, and put back if it is recurring. -/
theorem TimedInv.execute (h : TimedInv s) {executor : Executor} {i serial : ℕ}
    {task : BacklogTask} {now : Int64} (hclock : s.clock ≤ start) (hread : start ≤ now)
    (hphase : executor.phase ≠ .ready) (hdue : task.deadlineUs.toInt ≤ s.clock.toInt)
    (hget : s.queued[i]? = some (serial, task))
    (hheap : executor.heap = (s.queued.eraseIdx i).map (·.2) ++ task.requeue now)
    (hpending : executor.channel.pending = s.executor.channel.pending)
    (hfits : ∀ n ∈ task.recurringInterval, now.toInt + n < 2 ^ 63) :
    TimedInv
      { s with
        executor := executor
        clock := now
        queued := s.queued.eraseIdx i ++ (task.requeue now).map fun u => (serial, u)
        log := s.log ++ [⟨serial, task, start, now⟩] } := by
  have hstart := Int64.le_iff_toInt_le.mp hclock
  have hnow := Int64.le_iff_toInt_le.mp hread
  obtain ⟨hi, hitem⟩ := List.getElem?_eq_some_iff.mp hget
  have hperm : ((serial, task) :: s.queued.eraseIdx i).Perm s.queued :=
    hitem ▸ List.getElem_cons_eraseIdx_perm hi
  have hmem : (serial, task) ∈ s.queued := hperm.subset List.mem_cons_self
  have hrest : ∀ p ∈ s.queued.eraseIdx i, p ∈ s.queued := fun p hp =>
    hperm.subset (List.mem_cons_of_mem _ hp)
  -- the serial numbers of the other tasks are different
  have hserials : (serial :: (s.queued.eraseIdx i ++ s.waiting).map (·.1)).Nodup :=
    ((hperm.append_right s.waiting).map Prod.fst).nodup_iff.mpr h.distinct
  have hother : ∀ p ∈ s.queued.eraseIdx i ++ s.waiting, serial ≠ p.1 := by
    rintro p hp rfl
    exact (List.nodup_cons.mp hserials).1 (List.mem_map_of_mem hp)
  refine ⟨?_, h.waiting.trans hpending.symm, ?_, ?_, ?_, ?_, ?_,
    fun hready => absurd hready hphase, ?_, ?_⟩
  · rw [hheap, List.map_append, List.map_map]
    exact congrArg _ (List.map_id _)
  · exact distinct_requeue hserials
  · intro p hp
    rcases List.mem_append.mp hp with hp | hp
    · rcases List.mem_append.mp hp with hp | hp
      · exact h.fresh p (List.mem_append_left _ (hrest p hp))
      · rw [(requeue_spec hfits hp).1]
        exact h.fresh _ (List.mem_append_left _ hmem)
    · exact h.fresh p (List.mem_append_right _ hp)
  · intro x hx
    rcases List.mem_append.mp hx with hx | hx
    · exact ⟨(h.past x hx).1, (h.past x hx).2.trans (hstart.trans hnow)⟩
    · obtain rfl := List.mem_singleton.mp hx
      exact ⟨h.fresh _ (List.mem_append_left _ hmem), Int.le_refl _⟩
  · intro p hp x hx
    rcases List.mem_append.mp hx with hx | hx
    · exact h.unstarted p hp x hx
    · obtain rfl := List.mem_singleton.mp hx
      exact hother p (List.mem_append_right _ hp)
  · intro p hp x hx hserial
    rcases List.mem_append.mp hp with hp | hp
    · rcases List.mem_append.mp hx with hx | hx
      · exact h.spaced p (hrest p hp) x hx hserial
      · obtain rfl := List.mem_singleton.mp hx
        exact absurd hserial (hother p (List.mem_append_left _ hp))
    · obtain ⟨hp1, hinterval, hdeadline⟩ := requeue_spec hfits hp
      rcases List.mem_append.mp hx with hx | hx
      · -- an earlier execution of the same task
        have hspaced := h.spaced _ hmem x hx (hserial.trans hp1)
        have hpast := (h.past x hx).2
        refine ⟨hinterval.trans hspaced.1, fun n hn => ?_⟩
        rw [hdeadline n hn]
        omega
      · obtain rfl := List.mem_singleton.mp hx
        exact ⟨hinterval, fun n hn => (hdeadline n hn).ge⟩
  · intro x hx
    rcases List.mem_append.mp hx with hx | hx
    · exact h.due x hx
    · obtain rfl := List.mem_singleton.mp hx
      exact ⟨hdue.trans hstart, hnow⟩
  · refine List.pairwise_append.mpr ⟨h.apart, List.pairwise_singleton _ _, fun x hx y hy => ?_⟩
    obtain rfl := List.mem_singleton.mp hy
    intro hserial n hn
    obtain ⟨hinterval, hspaced⟩ := h.spaced _ hmem x hx hserial
    have hdeadline := hspaced n (hinterval.symm ▸ hn)
    exact hdeadline.trans (hdue.trans hstart)

/-- The first task is dropped. -/
theorem TimedInv.dropTask (h : TimedInv s) {executor : Executor} {i : ℕ} {clock : Int64}
    (hclock : s.clock ≤ clock) (hphase : executor.phase ≠ .ready)
    (hheap : executor.heap = (s.queued.eraseIdx i).map (·.2))
    (hpending : executor.channel.pending = s.executor.channel.pending) :
    TimedInv
      { s with
        executor := executor
        clock := clock
        queued := s.queued.eraseIdx i } := by
  have hrest : ∀ p ∈ s.queued.eraseIdx i, p ∈ s.queued := fun p hp => List.mem_of_mem_eraseIdx hp
  refine ⟨hheap.symm, h.waiting.trans hpending.symm, ?_, fun p hp => ?_, fun x hx => ?_,
    h.unstarted, fun p hp => h.spaced p (hrest p hp), fun hready => absurd hready hphase, h.due,
    h.apart⟩
  · exact h.distinct.sublist (((List.eraseIdx_sublist _ i).append_right _).map _)
  · exact h.fresh p (((List.eraseIdx_sublist _ i).append_right _).subset hp)
  · exact ⟨(h.past x hx).1, (h.past x hx).2.trans (Int64.le_iff_toInt_le.mp hclock)⟩

/-- **Step lemma.** -/
theorem timedInv_step (h : TimedInv s) (hon : OnTime s a) (hstep : timedStep s a = some s') :
    TimedInv s' := by
  obtain ⟨hclock, hread, executor, hexecutor, rfl⟩ := timedStep_eq_some.mp hstep
  obtain ⟨start, action⟩ := a
  cases executorTaken_of_step hexecutor with
  | scheduled _ => exact h.schedule hclock
  | stopped =>
    exact h.keep hclock rfl rfl fun hphase t ht htop =>
      (h.gated hphase t ht htop).trans (Int64.le_iff_toInt_le.mp hclock)
  | woken _ => exact h.keep hclock rfl rfl fun hready => absurd hready (by simp)
  | received hphase hreceive =>
    obtain ⟨hpending, -⟩ := Fifo.receive_eq_some.mp hreceive
    have hqueue := h.waiting.trans hpending
    rcases hwaiting : s.waiting with _ | ⟨p, waiting⟩
    · rw [hwaiting] at hqueue
      exact absurd hqueue (by simp)
    · rw [hwaiting] at hqueue
      obtain ⟨rfl, hrest⟩ := List.cons.inj hqueue
      have hkept := h.receive hclock (by simp [hphase]) hwaiting hrest.symm
      simp only [TimedExecutor.follow, hwaiting]
      exact hkept
  | @drained stopping hphase hreceive =>
    have hnone : s.waiting = [] := by
      have hqueue := h.waiting.trans (Fifo.receive_eq_none.mp hreceive)
      exact List.map_eq_nil_iff.mp hqueue
    simp only [TimedExecutor.follow, hnone, List.tail_nil, List.head?_nil, Option.toList_none,
      List.append_nil]
    rw [← hnone]
    exact h.keep hclock rfl rfl fun hready => absurd hready (by cases stopping <;> simp)
  | @gated quiescent hphase =>
    refine h.keep hclock rfl rfl fun hready t ht htop => ?_
    cases quiescent with
    | false => exact absurd hready (by simp)
    | true => exact Int64.le_iff_toInt_le.mp (hon t ht htop)
  | @executed i now task heap hphase hpop =>
    obtain ⟨serial, hget, herase⟩ := exists_queued h hpop
    obtain ⟨hitem, htop, -⟩ := popAt_eq_some.mp hpop
    have hdue := h.gated hphase task (List.mem_of_getElem? hitem) htop
    have hheap : heap ++ task.requeue now =
        (s.queued.eraseIdx i).map (·.2) ++ task.requeue now := by
      rw [herase]
    simp only [TimedExecutor.follow, hget]
    exact h.execute hclock hread (by simp) hdue hget hheap rfl (hon task hitem)
  | dropped hphase hpop =>
    obtain ⟨serial, -, herase⟩ := exists_queued h hpop
    exact h.dropTask hclock (by simp [hphase]) herase.symm rfl
  | finished _ _ => exact h.keep hclock rfl rfl fun hready => absurd hready (by simp)

/-- **Deadlines.**  In a run in which the gate opens only when the first task is due, no task
is executed before its deadline, and two executions of a recurring task are its interval
apart, from the end of the first on. -/
theorem deadlines_respected {clock : Int64} {as : List (Int64 × ExecutorAction)}
    (hrun : run timedStep (.init clock) as = some s) (hon : Along timedStep OnTime (.init clock) as) :
    (∀ x ∈ s.log, x.task.deadlineUs.toInt ≤ x.start.toInt ∧ x.start.toInt ≤ x.finish.toInt) ∧
      s.log.Pairwise Execution.Apart := by
  have hinv : TimedInv s :=
    run_invariant (fun _ _ _ h hon hstep => timedInv_step h hon hstep) timedInv_init hon hrun
  exact ⟨hinv.due, hinv.apart⟩

/-- The task that `Store::open` schedules, once an hour. -/
def gcTask (deadlineUs : Int64) : BacklogTask :=
  ⟨.low, deadlineUs, false, .gcOrphanSnapshots, some 3600000000⟩

/-- It is scheduled and executed at 0, and executed again when the loop wakes at `later`. -/
def gcRun (later : Int64) : List (Int64 × ExecutorAction) :=
  [(0, .schedule (gcTask 0)), (0, .wake), (0, .receive), (0, .receive), (0, .gate true),
    (0, .execute 0 0), (later, .wake), (later, .receive), (later, .gate true),
    (later, .execute 0 later)]

theorem gcRun_log : (run timedStep (.init 0) (gcRun 500000)).map (·.log) =
    some [⟨0, gcTask 0, 0, 0⟩, ⟨0, gcTask 3600000000, 500000, 500000⟩] := by
  rfl

/-- An hour later the task is due. -/
theorem deadlines_respected_hourly : ∃ s, run timedStep (.init 0) (gcRun 3600000000) = some s ∧
    s.log.length = 2 ∧ s.log.Pairwise Execution.Apart := by
  refine ⟨_, rfl, rfl, (@deadlines_respected _ 0 (gcRun 3600000000) rfl ?_).2⟩
  have hdue : ∀ {t u : BacklogTask} {clock : Int64}, u.deadlineUs ≤ clock → t ∈ [u] →
      t.deadlineUs ≤ clock := fun hu ht => List.mem_singleton.mp ht ▸ hu
  have hfits : ∀ {t : BacklogTask} {deadlineUs now : Int64},
      now.toInt + (3600000000 : ℕ) < 2 ^ 63 → t ∈ some (gcTask deadlineUs) →
        ∀ n ∈ t.recurringInterval, now.toInt + n < 2 ^ 63 := by
    intro t deadlineUs now hnow ht n hn
    obtain rfl := Option.some_inj.mp ht
    obtain rfl := Option.some_inj.mp hn
    exact hnow
  exact along_cons trivial rfl <| along_cons trivial rfl <| along_cons trivial rfl <|
    along_cons trivial rfl <| along_cons (fun t ht _ => @hdue t (gcTask 0) 0 (by decide) ht) rfl <|
    along_cons (fun t ht => @hfits t 0 0 (by decide) ht) rfl <| along_cons trivial rfl <|
    along_cons trivial rfl <|
    along_cons (fun t ht _ => @hdue t (gcTask 3600000000) 3600000000 (by decide) ht) rfl <|
    along_cons (fun t ht => @hfits t 3600000000 3600000000 (by decide) ht) rfl trivial

/-- Half a second later it is executed all the same. -/
theorem gc_twice_a_second : ¬∀ (clock : Int64) (as : List (Int64 × ExecutorAction))
    (s : TimedExecutor), run timedStep (.init clock) as = some s →
      (∀ x ∈ s.log, x.task.deadlineUs.toInt ≤ x.start.toInt) ∧
        s.log.Pairwise fun x y : Execution => x.serial = y.serial →
          ∀ n ∈ x.task.recurringInterval, x.start.toInt + n ≤ y.start.toInt := by
  intro h
  obtain ⟨s, hrun, hlog⟩ := Option.map_eq_some_iff.mp gcRun_log
  obtain ⟨-, hapart⟩ := h 0 (gcRun 500000) s hrun
  rw [hlog] at hapart
  have hhour := (List.pairwise_cons.mp hapart).1 _ List.mem_cons_self rfl _ rfl
  exact absurd hhour (by decide)

end Fossic
