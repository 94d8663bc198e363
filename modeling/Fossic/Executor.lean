/-
The background executor: its tasks, its channel and the loop of the thread `fossic-bg`.

The thread wakes every half second.  While the stop flag is down it moves what was
scheduled from the channel to the heap and, if the store is quiescent, runs the first
task.  When it finds the flag up it moves what is left to the heap, drops one task
after another and ends.  Other threads schedule tasks and raise the flag between any
two of these steps.

* `executorInv_step` — what every step keeps;
* `tasks_accounted` — once the thread has ended, each task that was scheduled or put
  back has been run or dropped, and the dropped ones went highest priority first;
* `shutdown_completes` — a stopped executor ends, and runs at most one task before it does.
-/
import Fossic.Types
import Fossic.Fifo
import Fossic.MaxHeap
import Fossic.Transition

namespace Fossic

open Transition MaxHeap

/-! ### Tasks -/

inductive TaskPriority
  | low
  | normal
  | high
  deriving DecidableEq

namespace TaskPriority

/-- The discriminants, which order the priorities. -/
def toNat : TaskPriority → ℕ
  | low => 0
  | normal => 1
  | high => 2

/-- `format!("{:?}", priority)`. -/
def debug : TaskPriority → String
  | low => "Low"
  | normal => "Normal"
  | high => "High"

end TaskPriority

/-- The closure of a custom task is its caller's affair. -/
inductive TaskKind
  | gcOrphanSnapshots
  | takeSnapshot (streamId branch : String)
  | custom
  deriving DecidableEq

def TaskKind.name : TaskKind → String
  | gcOrphanSnapshots => "GcOrphanSnapshots"
  | takeSnapshot _ _ => "TakeSnapshot"
  | custom => "Custom"

structure BacklogTask where
  priority : TaskPriority
  deadlineUs : Int64
  persistOnDrop : Bool
  kind : TaskKind
  /-- In microseconds. -/
  recurringInterval : Option ℕ

namespace BacklogTask

/-- Higher priority first, and the earlier deadline first among equals. -/
def cmp (t u : BacklogTask) : Ordering :=
  (compare t.priority.toNat u.priority.toNat).then (compare u.deadlineUs t.deadlineUs)

instance : Std.TransCmp fun t u : BacklogTask => compare u.deadlineUs t.deadlineUs :=
  inferInstanceAs (Std.TransCmp fun t u => compareOn BacklogTask.deadlineUs u t)

instance : Std.TransCmp cmp :=
  inferInstanceAs (Std.TransCmp (compareLex (compareOn fun t : BacklogTask => t.priority.toNat)
    fun t u : BacklogTask => compare u.deadlineUs t.deadlineUs))

/-- What goes back into the heap after the task was run. -/
def requeue (t : BacklogTask) (now : Int64) : List BacklogTask :=
  match t.recurringInterval with
  | some interval => [{ t with deadlineUs := now + Int64.ofNat interval }]
  | none => []

end BacklogTask

/-! ### The loop -/

/-- Where the thread is. -/
inductive LoopPhase
  | sleeping
  /-- Moving tasks from the channel to the heap, having read the stop flag. -/
  | draining (stopping : Bool)
  | gate
  | ready
  | dropping
  | finished
  deriving DecidableEq

structure Executor where
  channel : Fifo BacklogTask
  heap : List BacklogTask
  stopFlag : Bool
  phase : LoopPhase
  /-- The tasks that were put back. -/
  requeued : List BacklogTask
  /-- The tasks popped to be run; a task is skipped when the store is gone. -/
  executed : List BacklogTask
  dropped : List BacklogTask

def Executor.init : Executor where
  channel := .empty
  heap := []
  stopFlag := false
  phase := .sleeping
  requeued := []
  executed := []
  dropped := []

inductive ExecutorAction
  /-- Not after `Drop`, which owns the only sender. -/
  | schedule (task : BacklogTask)
  /-- `Drop` raises the flag. -/
  | stop
  | wake
  /-- `task_rx.try_recv()`. -/
  | receive
  | gate (quiescent : Bool)
  | execute (i : ℕ) (now : Int64)
  | dropTask (i : ℕ)
  | finish

def executorStep (s : Executor) : ExecutorAction → Option Executor
  | .schedule task =>
    if s.stopFlag then none else some { s with channel := s.channel.send task }
  | .stop => some { s with stopFlag := true }
  | .wake =>
    match s.phase with
    | .sleeping => some { s with phase := .draining s.stopFlag }
    | _ => none
  | .receive =>
    match s.phase, s.channel.receive with
    | .draining _, some (task, channel) =>
      some { s with channel := channel, heap := s.heap ++ [task] }
    | .draining stopping, none =>
      some { s with phase := if stopping then .dropping else .gate }
    | _, _ => none
  | .gate quiescent =>
    match s.phase with
    | .gate =>
      some { s with phase := if s.heap.isEmpty || !quiescent then .sleeping else .ready }
    | _ => none
  | .execute i now =>
    match s.phase, popAt BacklogTask.cmp s.heap i with
    | .ready, some (task, heap) => some
      { s with
        phase := .sleeping
        heap := heap ++ task.requeue now
        requeued := s.requeued ++ task.requeue now
        executed := s.executed ++ [task] }
    | _, _ => none
  | .dropTask i =>
    match s.phase, popAt BacklogTask.cmp s.heap i with
    | .dropping, some (task, heap) =>
      some { s with heap := heap, dropped := s.dropped ++ [task] }
    | _, _ => none
  | .finish =>
    match s.phase, s.heap with
    | .dropping, [] => some { s with phase := .finished }
    | _, _ => none

variable {s s' : Executor}

/-- The steps that can be taken, each branch of `executorStep` with its conditions. -/
inductive ExecutorTaken (s : Executor) : ExecutorAction → Executor → Prop
  | scheduled {task : BacklogTask} (hstop : s.stopFlag = false) :
      ExecutorTaken s (.schedule task) { s with channel := s.channel.send task }
  | stopped : ExecutorTaken s .stop { s with stopFlag := true }
  | woken (hphase : s.phase = .sleeping) :
      ExecutorTaken s .wake { s with phase := .draining s.stopFlag }
  | received {stopping : Bool} {task : BacklogTask} {channel : Fifo BacklogTask}
      (hphase : s.phase = .draining stopping)
      (hreceive : s.channel.receive = some (task, channel)) :
      ExecutorTaken s .receive { s with channel := channel, heap := s.heap ++ [task] }
  | drained {stopping : Bool} (hphase : s.phase = .draining stopping)
      (hreceive : s.channel.receive = none) :
      ExecutorTaken s .receive { s with phase := if stopping then .dropping else .gate }
  | gated {quiescent : Bool} (hphase : s.phase = .gate) :
      ExecutorTaken s (.gate quiescent)
        { s with phase := if s.heap.isEmpty || !quiescent then .sleeping else .ready }
  | executed {i : ℕ} {now : Int64} {task : BacklogTask} {heap : List BacklogTask}
      (hphase : s.phase = .ready) (hpop : popAt BacklogTask.cmp s.heap i = some (task, heap)) :
      ExecutorTaken s (.execute i now)
        { s with
          phase := .sleeping
          heap := heap ++ task.requeue now
          requeued := s.requeued ++ task.requeue now
          executed := s.executed ++ [task] }
  | dropped {i : ℕ} {task : BacklogTask} {heap : List BacklogTask}
      (hphase : s.phase = .dropping)
      (hpop : popAt BacklogTask.cmp s.heap i = some (task, heap)) :
      ExecutorTaken s (.dropTask i) { s with heap := heap, dropped := s.dropped ++ [task] }
  | finished (hphase : s.phase = .dropping) (hheap : s.heap = []) :
      ExecutorTaken s .finish { s with phase := .finished }

/-- **Inversion** of the loop's steps. -/
theorem executorTaken_of_step {a : ExecutorAction} (h : executorStep s a = some s') :
    ExecutorTaken s a s' := by
  cases a with
  | schedule task =>
    rw [executorStep] at h
    split at h
    · exact absurd h (by simp)
    · rename_i hstop
      obtain rfl := Option.some_inj.mp h
      exact .scheduled (by simpa using hstop)
  | stop =>
    obtain rfl := Option.some_inj.mp h
    exact .stopped
  | wake =>
    rw [executorStep] at h
    split at h
    · rename_i hphase
      obtain rfl := Option.some_inj.mp h
      exact .woken hphase
    · exact absurd h (by simp)
  | receive =>
    rw [executorStep] at h
    split at h
    · rename_i hphase hreceive
      obtain rfl := Option.some_inj.mp h
      exact .received hphase hreceive
    · rename_i hphase hreceive
      obtain rfl := Option.some_inj.mp h
      exact .drained hphase hreceive
    · exact absurd h (by simp)
  | gate quiescent =>
    rw [executorStep] at h
    split at h
    · rename_i hphase
      obtain rfl := Option.some_inj.mp h
      exact .gated hphase
    · exact absurd h (by simp)
  | execute i now =>
    rw [executorStep] at h
    split at h
    · rename_i hphase hpop
      obtain rfl := Option.some_inj.mp h
      exact .executed hphase hpop
    · exact absurd h (by simp)
  | dropTask i =>
    rw [executorStep] at h
    split at h
    · rename_i hphase hpop
      obtain rfl := Option.some_inj.mp h
      exact .dropped hphase hpop
    · exact absurd h (by simp)
  | finish =>
    rw [executorStep] at h
    split at h
    · rename_i hphase hheap
      obtain rfl := Option.some_inj.mp h
      exact .finished hphase hheap
    · exact absurd h (by simp)

/-! ### What every step keeps -/

structure ExecutorInv (s : Executor) : Prop where
  /-- No task is lost and none is there twice. -/
  accounted : (s.heap ++ (s.executed ++ s.dropped)).Perm (s.channel.received ++ s.requeued)
  stopping : s.phase = .draining true ∨ s.phase = .dropping ∨ s.phase = .finished →
    s.stopFlag = true
  drained : s.phase = .dropping ∨ s.phase = .finished → s.channel.pending = []
  emptied : s.phase = .finished → s.heap = []
  early : s.phase ≠ .dropping → s.phase ≠ .finished → s.dropped = []
  loaded : s.phase = .ready → s.heap ≠ []
  ordered : s.dropped.Pairwise fun t u => (u.cmp t).isLE = true
  above : ∀ t ∈ s.dropped, ∀ u ∈ s.heap, (u.cmp t).isLE = true

/-- Before the thread drops tasks. -/
theorem executorInv_early
    (haccounted : (s.heap ++ (s.executed ++ s.dropped)).Perm (s.channel.received ++ s.requeued))
    (hdropped : s.dropped = []) (hdropping : s.phase ≠ .dropping) (hfinished : s.phase ≠ .finished)
    (hstopping : s.phase = .draining true → s.stopFlag = true)
    (hloaded : s.phase = .ready → s.heap ≠ []) : ExecutorInv s where
  accounted := haccounted
  stopping h := by
    rcases h with h | h | h
    · exact hstopping h
    · exact absurd h hdropping
    · exact absurd h hfinished
  drained h := absurd h (not_or.mpr ⟨hdropping, hfinished⟩)
  emptied h := absurd h hfinished
  early _ _ := hdropped
  loaded := hloaded
  ordered := by
    rw [hdropped]
    exact .nil
  above := by
    rw [hdropped]
    exact fun t ht => absurd ht List.not_mem_nil

theorem executorInv_init : ExecutorInv .init := by
  refine executorInv_early .nil rfl ?_ ?_ ?_ ?_ <;> simp [Executor.init]

/-- **Step lemma** of the loop. -/
theorem executorInv_step {a : ExecutorAction} (h : ExecutorInv s)
    (hstep : executorStep s a = some s') : ExecutorInv s' := by
  classical
  cases executorTaken_of_step hstep with
  | scheduled hstop =>
    refine ⟨h.accounted, h.stopping, fun hphase => ?_, h.emptied, h.early, h.loaded, h.ordered,
      h.above⟩
    -- nothing is scheduled once the thread has seen the flag
    have hflag := h.stopping (.inr hphase)
    exact absurd (hstop.symm.trans hflag) Bool.false_ne_true
  | stopped =>
    exact ⟨h.accounted, fun _ => rfl, h.drained, h.emptied, h.early, h.loaded, h.ordered, h.above⟩
  | woken hphase =>
    have hearly : s.dropped = [] := h.early (by simp [hphase]) (by simp [hphase])
    refine executorInv_early h.accounted hearly ?_ ?_ ?_ ?_ <;> simp
  | received hphase hreceive =>
    obtain ⟨-, hreceived⟩ := Fifo.receive_eq_some.mp hreceive
    have hearly : s.dropped = [] := h.early (by simp [hphase]) (by simp [hphase])
    refine executorInv_early ?_ hearly (by simp [hphase]) (by simp [hphase])
      (fun hp => h.stopping (.inl hp)) fun _ => by simp
    refine List.perm_iff_count.mpr fun t => ?_
    have hcount := h.accounted.count_eq t
    simp only [hreceived, List.count_append] at hcount ⊢
    omega
  | @drained stopping hphase hreceive =>
    have hearly : s.dropped = [] := h.early (by simp [hphase]) (by simp [hphase])
    cases stopping with
    | true =>
      refine ⟨h.accounted, fun _ => h.stopping (.inl hphase),
        fun _ => Fifo.receive_eq_none.mp hreceive, ?_, fun _ _ => hearly, ?_, h.ordered,
        h.above⟩ <;> simp
    | false => refine executorInv_early h.accounted hearly ?_ ?_ ?_ ?_ <;> simp
  | @gated quiescent hphase =>
    have hearly : s.dropped = [] := h.early (by simp [hphase]) (by simp [hphase])
    by_cases hrest : (s.heap.isEmpty || !quiescent) = true
    · refine executorInv_early h.accounted hearly ?_ ?_ ?_ ?_ <;> simp [hrest]
    · have hloaded : s.heap ≠ [] := by
        intro hempty
        exact hrest (by simp [hempty])
      refine executorInv_early h.accounted hearly ?_ ?_ ?_ fun _ => hloaded <;> simp [hrest]
  | executed hphase hpop =>
    have hearly : s.dropped = [] := h.early (by simp [hphase]) (by simp [hphase])
    refine executorInv_early ?_ hearly (by simp) (by simp) (by simp) (by simp)
    refine List.perm_iff_count.mpr fun t => ?_
    have hcount := h.accounted.count_eq t
    have hpopped := (popAt_spec hpop).1.count_eq t
    simp only [List.count_append, List.count_cons, List.count_nil] at hcount hpopped ⊢
    omega
  | @dropped i task heap hphase hpop =>
    obtain ⟨hperm, htop⟩ := popAt_spec hpop
    have hmem : ∀ u, u ∈ task :: heap → u ∈ s.heap := fun u hu => hperm.symm.subset hu
    refine ⟨?_, h.stopping, h.drained, fun hp => ?_, fun hp _ => absurd hphase hp, fun hp => ?_,
      ?_, ?_⟩
    · refine List.perm_iff_count.mpr fun t => ?_
      have hcount := h.accounted.count_eq t
      have hpopped := hperm.count_eq t
      simp only [List.count_append, List.count_cons, List.count_nil] at hcount hpopped ⊢
      omega
    · simp [hphase] at hp
    · simp [hphase] at hp
    · refine List.pairwise_append.mpr ⟨h.ordered, List.pairwise_singleton _ _, ?_⟩
      intro t ht u hu
      obtain rfl := List.mem_singleton.mp hu
      exact h.above t ht u (hmem u List.mem_cons_self)
    · intro t ht u hu
      rcases List.mem_append.mp ht with ht | ht
      · exact h.above t ht u (hmem u (List.mem_cons_of_mem _ hu))
      · obtain rfl := List.mem_singleton.mp ht
        exact htop u hu
  | finished hphase hheap =>
    refine ⟨h.accounted, fun _ => h.stopping (.inr (.inl hphase)), fun _ => h.drained (.inl hphase),
      fun _ => hheap, fun _ hp => absurd rfl hp, fun hp => ?_, h.ordered, h.above⟩
    simp at hp

theorem run_executorInv {as : List ExecutorAction} (hrun : run executorStep .init as = some s) :
    ExecutorInv s :=
  run_invariant_all (fun _ _ _ hs hstep => executorInv_step hs hstep) executorInv_init hrun

/-- The step is one of the thread's own. -/
def ExecutorAction.isOwn : ExecutorAction → Bool
  | .schedule _ => false
  | .stop => false
  | _ => true

/-- How far the phase is from the end, once the flag is up. -/
def LoopPhase.rank : LoopPhase → ℕ
  | .finished => 0
  | .dropping => 1
  | .draining true => 2
  | .sleeping => 3
  | .ready => 4
  | .gate => 5
  | .draining false => 6

/-- The thread can run one more task before it looks at the flag. -/
def LoopPhase.runs : LoopPhase → Bool
  | .ready => true
  | .gate => true
  | .draining false => true
  | _ => false

/-- The steps that are left to the thread when the flag is up: a task in the channel is received
and dropped, one in the heap is dropped. -/
def Executor.stepsLeft (s : Executor) : ℕ :=
  2 * s.channel.pending.length + s.heap.length + s.phase.rank

/-- What a step costs a thread that is to stop. -/
structure WindsDown (s s' : Executor) (own : ℕ) : Prop where
  flag : s'.stopFlag = true
  left : own + s'.stepsLeft ≤ s.stepsLeft
  runs : s'.executed.length + s'.phase.runs.toNat ≤ s.executed.length + s.phase.runs.toNat

theorem requeue_length_le {task : BacklogTask} {now : Int64} : (task.requeue now).length ≤ 1 := by
  rw [BacklogTask.requeue]
  split
  · exact Nat.le_refl 1
  · exact Nat.zero_le 1

theorem windsDown_step {a : ExecutorAction} (hflag : s.stopFlag = true)
    (hstep : executorStep s a = some s') : WindsDown s s' a.isOwn.toNat := by
  cases executorTaken_of_step hstep with
  | scheduled hstop => exact absurd (hflag.symm.trans hstop) (by simp)
  | stopped => exact ⟨rfl, (Nat.zero_add _).le, le_rfl⟩
  | woken hphase =>
    refine ⟨hflag, ?_, ?_⟩
    · simp only [Executor.stepsLeft, hflag, hphase, LoopPhase.rank, ExecutorAction.isOwn,
        Bool.toNat_true]
      omega
    · simp only [hflag, hphase, LoopPhase.runs]
      exact le_rfl
  | received hphase hreceive =>
    -- the task moves from the channel, where it counts twice, to the heap
    have hpending := congrArg List.length (Fifo.receive_eq_some.mp hreceive).1
    rw [List.length_cons] at hpending
    refine ⟨hflag, ?_, le_rfl⟩
    simp only [Executor.stepsLeft, List.length_append, List.length_singleton, ExecutorAction.isOwn,
      Bool.toNat_true]
    omega
  | @drained stopping hphase hreceive =>
    cases stopping with
    | true =>
      refine ⟨hflag, ?_, ?_⟩
      · simp only [Executor.stepsLeft, hphase, if_true, LoopPhase.rank, ExecutorAction.isOwn,
          Bool.toNat_true]
        omega
      · simp only [hphase, if_true, LoopPhase.runs]
        exact le_rfl
    | false =>
      refine ⟨hflag, ?_, ?_⟩
      · simp only [Executor.stepsLeft, hphase, Bool.false_eq_true, if_false, LoopPhase.rank,
          ExecutorAction.isOwn, Bool.toNat_true]
        omega
      · simp only [hphase, Bool.false_eq_true, if_false, LoopPhase.runs]
        exact le_rfl
  | @gated quiescent hphase =>
    refine ⟨hflag, ?_, ?_⟩
    · simp only [Executor.stepsLeft, hphase, ExecutorAction.isOwn, Bool.toNat_true]
      split <;> simp only [LoopPhase.rank] <;> omega
    · simp only [hphase]
      split <;> simp [LoopPhase.runs]
  | @executed i now task heap hphase hpop =>
    have hpopped := (popAt_spec hpop).1.length_eq
    have hrequeue := @requeue_length_le task now
    rw [List.length_cons] at hpopped
    refine ⟨hflag, ?_, ?_⟩
    · simp only [Executor.stepsLeft, hphase, List.length_append, LoopPhase.rank,
        ExecutorAction.isOwn, Bool.toNat_true]
      omega
    · simp [hphase, LoopPhase.runs]
  | dropped hphase hpop =>
    have hpopped := (popAt_spec hpop).1.length_eq
    rw [List.length_cons] at hpopped
    refine ⟨hflag, ?_, le_rfl⟩
    simp only [Executor.stepsLeft, ExecutorAction.isOwn, Bool.toNat_true]
    omega
  | finished hphase hheap =>
    refine ⟨hflag, ?_, ?_⟩
    · simp only [Executor.stepsLeft, hphase, LoopPhase.rank, ExecutorAction.isOwn, Bool.toNat_true]
      omega
    · simp only [hphase, LoopPhase.runs]
      exact le_rfl

theorem windsDown_run {as : List ExecutorAction} (hflag : s.stopFlag = true)
    (hrun : run executorStep s as = some s') : WindsDown s s' (as.countP ExecutorAction.isOwn) := by
  induction as generalizing s with
  | nil =>
    obtain rfl := Option.some_inj.mp hrun
    exact ⟨hflag, (Nat.zero_add _).le, le_rfl⟩
  | cons a as ih =>
    obtain ⟨t, ht, hrun⟩ := run_cons.mp hrun
    have hfirst := windsDown_step hflag ht
    have hrest := ih hfirst.flag hrun
    refine ⟨hrest.flag, ?_, hrest.runs.trans hfirst.runs⟩
    have hleft := hfirst.left
    have hleft' := hrest.left
    have hcount : (a :: as).countP ExecutorAction.isOwn =
        as.countP ExecutorAction.isOwn + a.isOwn.toNat := by
      rw [List.countP_cons]
      cases a.isOwn <;> rfl
    omega

/-- The thread is never stuck. -/
theorem exists_own_step (hinv : ExecutorInv s) (hphase : s.phase ≠ .finished) :
    ∃ a s', ExecutorAction.isOwn a = true ∧ executorStep s a = some s' := by
  rcases h : s.phase with _ | stopping | _ | _ | _ | _
  · exact ⟨.wake, _, rfl, by rw [executorStep, h]⟩
  · rcases hreceive : s.channel.receive with _ | ⟨task, channel⟩
    · exact ⟨.receive, _, rfl, by rw [executorStep, h, hreceive]⟩
    · exact ⟨.receive, _, rfl, by rw [executorStep, h, hreceive]⟩
  · exact ⟨.gate false, _, rfl, by rw [executorStep, h]⟩
  · obtain ⟨i, task, heap, hpop⟩ := @exists_popAt _ BacklogTask.cmp _ _ (hinv.loaded h)
    exact ⟨.execute i 0, _, rfl, by rw [executorStep, h, hpop]⟩
  · by_cases hheap : s.heap = []
    · exact ⟨.finish, _, rfl, by rw [executorStep, h, hheap]⟩
    · obtain ⟨i, task, heap, hpop⟩ := @exists_popAt _ BacklogTask.cmp _ _ hheap
      exact ⟨.dropTask i, _, rfl, by rw [executorStep, h, hpop]⟩
  · exact absurd h hphase

/-- **A stopped executor ends**, wherever the flag finds it and however it goes on: only so many
steps are left to its thread, at most one of them runs a task, and it is not stuck before the
end. -/
theorem shutdown_completes {as bs : List ExecutorAction} {t : Executor}
    (hrun : run executorStep .init as = some s) (hflag : s.stopFlag = true)
    (hafter : run executorStep s bs = some t) :
    bs.countP ExecutorAction.isOwn ≤ s.stepsLeft ∧
      t.executed.length ≤ s.executed.length + 1 ∧
      (t.phase ≠ .finished →
        ∃ a t', ExecutorAction.isOwn a = true ∧ executorStep t a = some t') := by
  have hstop := windsDown_run hflag hafter
  have hleft := hstop.left
  have hruns := hstop.runs
  have hone := Bool.toNat_le s.phase.runs
  refine ⟨by omega, by omega, fun hphase => ?_⟩
  exact exists_own_step (run_executorInv (run_append.mpr ⟨s, hrun, hafter⟩)) hphase

/-- A collection that comes back every hour: the flag finds it in the heap, about to be run. -/
theorem shutdown_completes_recurring : ∃ s,
    run executorStep .init [.schedule ⟨.low, 0, false, .gcOrphanSnapshots, some 3600000000⟩, .wake,
      .receive, .receive, .gate true, .stop] = some s ∧
      ∀ bs t, run executorStep s bs = some t → bs.countP ExecutorAction.isOwn ≤ 5 := by
  obtain ⟨s, hrun, hflag, hleft⟩ : ∃ s,
      run executorStep .init [.schedule ⟨.low, 0, false, .gcOrphanSnapshots, some 3600000000⟩,
        .wake, .receive, .receive, .gate true, .stop] = some s ∧ s.stopFlag = true ∧
        s.stepsLeft = 5 := ⟨_, rfl, rfl, rfl⟩
  refine ⟨s, hrun, fun bs t hafter => ?_⟩
  rw [← hleft]
  exact (shutdown_completes hrun hflag hafter).1

end Fossic
