/-
Deferred saves of the similarity index.

`HnswProvider::schedule_save` stamps `save_pending` and hands a closure to the background
executor of a store.  The closure clears the flag and saves the index if it is still dirty;
while the flag is up, no other call hands over a closure.  Index and save hold the mutex of
the index, the flags are read without it, and a store that is closed discards the tasks of
its executor.

* `saves_leave` — what an executor does with a task: run it, or drop it once it is stopped;
* `saveInv_step` — the index is only clean while the last save has all of it;
* `flagAnswered_step` — `save_pending` is up exactly while a closure is coming that clears it;
* `saves_not_forgotten` — what holds of every run;
* `lost_for_good` — a closure that was discarded is never replaced.
-/
import Fossic.Executor
import Mathlib.Algebra.BigOperators.Group.List.Basic

namespace Fossic

open Transition MaxHeap

/-! ### Tasks of an executor -/

/-- The tasks that are marked, in the channel and the heap. -/
def Executor.marked (mark : BacklogTask → Bool) (e : Executor) : ℕ :=
  (e.channel.pending ++ e.heap).countP mark

/-- What a step does with the marked tasks. -/
inductive MarkedStep (mark : BacklogTask → Bool) (e e' : Executor) : ExecutorAction → Prop
  | same {a : ExecutorAction} (h : e'.marked mark = e.marked mark) : MarkedStep mark e e' a
  | scheduled {task : BacklogTask} (hmark : mark task = true) (hstop : e.stopFlag = false)
      (h : e'.marked mark = e.marked mark + 1) : MarkedStep mark e e' (.schedule task)
  | executed {i : ℕ} {now : Int64} (hphase : e.phase = .ready)
      (h : e.marked mark = e'.marked mark + 1) : MarkedStep mark e e' (.execute i now)
  | dropped {i : ℕ} (hstop : e.stopFlag = true) (h : e.marked mark = e'.marked mark + 1) :
      MarkedStep mark e e' (.dropTask i)

/-- **The way out of an executor**: however one-shot tasks are told from the others, one of
them comes in by being scheduled, and leaves by being run or, after the stop, by being
dropped. -/
theorem saves_leave {mark : BacklogTask → Bool} {e e' : Executor} {a : ExecutorAction}
    (hmark : ∀ task, mark task = true → task.recurringInterval = none) (h : ExecutorInv e)
    (hstep : executorStep e a = some e') : MarkedStep mark e e' a := by
  cases executorTaken_of_step hstep with
  | @scheduled task hstop =>
    have hcount : Executor.marked mark { e with channel := e.channel.send task } =
        e.marked mark + if mark task then 1 else 0 := by
      simp only [Executor.marked, Fifo.send, List.countP_append, List.countP_singleton]
      omega
    by_cases htask : mark task = true
    · rw [if_pos htask] at hcount
      exact .scheduled htask hstop hcount
    · rw [if_neg htask] at hcount
      exact .same hcount
  | stopped => exact .same rfl
  | woken hphase => exact .same rfl
  | @received stopping task channel hphase hreceive =>
    obtain ⟨hpending, -⟩ := Fifo.receive_eq_some.mp hreceive
    refine .same ?_
    simp only [Executor.marked, hpending, List.countP_append, List.countP_cons, List.countP_nil]
    omega
  | drained hphase hreceive => exact .same rfl
  | gated hphase => exact .same rfl
  | @executed i now task heap hphase hpop =>
    have hpopped := (popAt_spec hpop).1.countP_eq mark
    rw [List.countP_cons] at hpopped
    by_cases htask : mark task = true
    · -- a one-shot task is not put back
      have hrequeue : task.requeue now = [] := by rw [BacklogTask.requeue, hmark task htask]
      rw [if_pos htask] at hpopped
      refine .executed hphase ?_
      simp only [Executor.marked, hrequeue, List.append_nil, List.countP_append]
      omega
    · -- and what is put back is not a one-shot task
      have hrequeue : (task.requeue now).countP mark = 0 := by
        refine List.countP_eq_zero.mpr fun u hu hone => ?_
        have hnone := hmark u hone
        rw [BacklogTask.requeue] at hu
        split at hu
        · obtain rfl := List.mem_singleton.mp hu
          rename_i interval hsome
          exact absurd (hsome.symm.trans hnone) (by simp)
        · exact absurd hu List.not_mem_nil
      rw [if_neg htask] at hpopped
      refine .same ?_
      simp only [Executor.marked, List.countP_append, hrequeue]
      omega
  | @dropped i task heap hphase hpop =>
    have hpopped := (popAt_spec hpop).1.countP_eq mark
    rw [List.countP_cons] at hpopped
    by_cases htask : mark task = true
    · rw [if_pos htask] at hpopped
      refine .dropped (h.stopping (.inr (.inl hphase))) ?_
      simp only [Executor.marked, List.countP_append]
      omega
    · rw [if_neg htask] at hpopped
      refine .same ?_
      simp only [Executor.marked, List.countP_append]
      omega
  | finished hphase hheap => exact .same rfl

/-! ### The provider and the stores -/

/-- Where the closure of a task is in the thread that runs it: about to clear `save_pending`,
about to read `dirty`, or in `save_to_disk`. -/
inductive SaveClosure
  | popped
  | cleared
  | saving
  deriving DecidableEq

/-- A store that saves are scheduled on, with the provider's closures in the channel and the
heap of its executor. -/
structure SaveStore where
  /-- Its executor was spawned. -/
  executor : Bool
  live : Bool
  queued : ℕ
  running : Option SaveClosure
  deriving DecidableEq

/-- A call of `schedule_save` that has found the index dirty; `stamped` once it has raised
`save_pending`. -/
structure SaveCall where
  store : ℕ
  stamped : Bool
  deriving DecidableEq

/-- What the mutex of the index is held for: a vector that was inserted, or a save, of the
closure on a store or of another caller. -/
inductive IndexGuard (V : Type)
  | indexing (v : V)
  | saving (origin : Option ℕ)
  deriving DecidableEq

structure DeferredSaves (V : Type) where
  dirty : Bool
  savePending : Bool
  /-- The vectors in the index. -/
  vectors : List V
  /-- Those whose `index` call has returned. -/
  indexed : List V
  /-- Those that the last successful save, or the load, had. -/
  saved : List V
  guard : Option (IndexGuard V)
  stores : List SaveStore
  calls : List SaveCall
  deriving DecidableEq

/-- `HnswProvider::new` with the vectors that it has loaded. -/
def DeferredSaves.init {V : Type} (loaded : List V) : DeferredSaves V where
  dirty := false
  savePending := false
  vectors := loaded
  indexed := loaded
  saved := loaded
  guard := none
  stores := []
  calls := []

inductive SaveAction (V : Type)
  | openStore (executor : Bool)
  /-- The last handle is dropped: the executor stops and discards its tasks. -/
  | closeStore (i : ℕ)
  /-- `index` and `index_with_stream_id`, up to `dirty.store(true)`. -/
  | insert (v : V)
  | markDirty
  /-- `schedule_save` on a store reads `dirty`. -/
  | readDirty (i : ℕ)
  | swapPending (k : ℕ)
  | scheduleTask (k : ℕ)
  /-- The executor of a store pops a closure. -/
  | popClosure (i : ℕ)
  | clearPending (i : ℕ)
  | checkDirty (i : ℕ)
  /-- `save_to_disk` takes the mutex, and returns with it released. -/
  | beginSave (origin : Option ℕ)
  | endSave (written : Bool)

section Steps

variable {V : Type}

def DeferredSaves.setStore (s : DeferredSaves V) (i : ℕ) (st : SaveStore) : DeferredSaves V :=
  { s with stores := s.stores.set i st }

/-- The closure on the store returns. -/
def DeferredSaves.endClosure (s : DeferredSaves V) : Option ℕ → DeferredSaves V
  | none => s
  | some i =>
    match s.stores[i]? with
    | some st => s.setStore i { st with running := none }
    | none => s

def saveStep (s : DeferredSaves V) : SaveAction V → Option (DeferredSaves V)
  | .openStore executor => some { s with stores := s.stores ++ [⟨executor, true, 0, none⟩] }
  | .closeStore i =>
    match s.stores[i]? with
    | some st =>
      -- a call holds a handle, and a task that is run holds the store
      if st.live && st.running.isNone && s.calls.all fun c => c.store ≠ i then
        some (s.setStore i { st with live := false, queued := 0 })
      else none
    | none => none
  | .insert v =>
    match s.guard with
    | none => some { s with vectors := s.vectors ++ [v], guard := some (.indexing v) }
    | some _ => none
  | .markDirty =>
    match s.guard with
    | some (.indexing v) =>
      some { s with indexed := s.indexed ++ [v], dirty := true, guard := none }
    | _ => none
  | .readDirty i =>
    match s.stores[i]? with
    | some st =>
      if st.live then
        some (if s.dirty then { s with calls := ⟨i, false⟩ :: s.calls } else s)
      else none
    | none => none
  | .swapPending k =>
    match s.calls[k]? with
    | some ⟨i, false⟩ =>
      some (if s.savePending then { s with calls := s.calls.eraseIdx k }
        else { s with savePending := true, calls := s.calls.set k ⟨i, true⟩ })
    | _ => none
  | .scheduleTask k =>
    match s.calls[k]? with
    | some ⟨i, true⟩ =>
      match s.stores[i]? with
      | some st =>
        if st.live then
          some (DeferredSaves.setStore { s with calls := s.calls.eraseIdx k } i
            (if st.executor then { st with queued := st.queued + 1 } else st))
        else none
      | none => none
    | _ => none
  | .popClosure i =>
    match s.stores[i]? with
    | some st =>
      if st.live && 0 < st.queued && st.running.isNone then
        some (s.setStore i { st with queued := st.queued - 1, running := some .popped })
      else none
    | none => none
  | .clearPending i =>
    match s.stores[i]? with
    | some st =>
      if st.running = some .popped then
        some (DeferredSaves.setStore { s with savePending := false } i
          { st with running := some .cleared })
      else none
    | none => none
  | .checkDirty i =>
    match s.stores[i]? with
    | some st =>
      if st.running = some .cleared then
        some (s.setStore i { st with running := if s.dirty then some .saving else none })
      else none
    | none => none
  | .beginSave origin =>
    match s.guard with
    | none =>
      if origin.all fun i => s.stores[i]?.any fun st => st.running = some .saving then
        some { s with guard := some (.saving origin) }
      else none
    | some _ => none
  | .endSave written =>
    match s.guard with
    | some (.saving origin) =>
      some (DeferredSaves.endClosure
        { s with
          guard := none
          dirty := if written then false else s.dirty
          saved := if written then s.vectors else s.saved } origin)
    | _ => none

end Steps

variable {V : Type} {s s' : DeferredSaves V} {a : SaveAction V}

/-- The steps that can be taken, each branch of `saveStep` with its conditions. -/
inductive SaveTaken (s : DeferredSaves V) : SaveAction V → DeferredSaves V → Prop
  | opened {executor : Bool} : SaveTaken s (.openStore executor)
      { s with stores := s.stores ++ [⟨executor, true, 0, none⟩] }
  | closed {i : ℕ} {st : SaveStore} (hst : s.stores[i]? = some st) (hlive : st.live = true)
      (hrunning : st.running = none) (hcalls : ∀ c ∈ s.calls, c.store ≠ i) :
      SaveTaken s (.closeStore i) (s.setStore i { st with live := false, queued := 0 })
  | inserted {v : V} (hguard : s.guard = none) : SaveTaken s (.insert v)
      { s with vectors := s.vectors ++ [v], guard := some (.indexing v) }
  | marked {v : V} (hguard : s.guard = some (.indexing v)) : SaveTaken s .markDirty
      { s with indexed := s.indexed ++ [v], dirty := true, guard := none }
  | clean {i : ℕ} {st : SaveStore} (hst : s.stores[i]? = some st) (hlive : st.live = true)
      (hdirty : s.dirty = false) : SaveTaken s (.readDirty i) s
  | called {i : ℕ} {st : SaveStore} (hst : s.stores[i]? = some st) (hlive : st.live = true)
      (hdirty : s.dirty = true) :
      SaveTaken s (.readDirty i) { s with calls := ⟨i, false⟩ :: s.calls }
  | refused {k i : ℕ} (hcall : s.calls[k]? = some ⟨i, false⟩)
      (hpending : s.savePending = true) :
      SaveTaken s (.swapPending k) { s with calls := s.calls.eraseIdx k }
  | stamped {k i : ℕ} (hcall : s.calls[k]? = some ⟨i, false⟩)
      (hpending : s.savePending = false) :
      SaveTaken s (.swapPending k)
        { s with savePending := true, calls := s.calls.set k ⟨i, true⟩ }
  | scheduled {k i : ℕ} {st : SaveStore} (hcall : s.calls[k]? = some ⟨i, true⟩)
      (hst : s.stores[i]? = some st) (hlive : st.live = true) :
      SaveTaken s (.scheduleTask k)
        (DeferredSaves.setStore { s with calls := s.calls.eraseIdx k } i
          (if st.executor then { st with queued := st.queued + 1 } else st))
  | popped {i : ℕ} {st : SaveStore} (hst : s.stores[i]? = some st) (hlive : st.live = true)
      (hqueued : 0 < st.queued) (hrunning : st.running = none) :
      SaveTaken s (.popClosure i)
        (s.setStore i { st with queued := st.queued - 1, running := some .popped })
  | cleared {i : ℕ} {st : SaveStore} (hst : s.stores[i]? = some st)
      (hrunning : st.running = some .popped) :
      SaveTaken s (.clearPending i)
        (DeferredSaves.setStore { s with savePending := false } i
          { st with running := some .cleared })
  | checked {i : ℕ} {st : SaveStore} (hst : s.stores[i]? = some st)
      (hrunning : st.running = some .cleared) :
      SaveTaken s (.checkDirty i)
        (s.setStore i { st with running := if s.dirty then some .saving else none })
  | began {origin : Option ℕ} (hguard : s.guard = none)
      (horigin : ∀ i, origin = some i →
        ∃ st, s.stores[i]? = some st ∧ st.running = some .saving) :
      SaveTaken s (.beginSave origin) { s with guard := some (.saving origin) }
  | ended {written : Bool} {origin : Option ℕ} (hguard : s.guard = some (.saving origin)) :
      SaveTaken s (.endSave written)
        (DeferredSaves.endClosure
          { s with
            guard := none
            dirty := if written then false else s.dirty
            saved := if written then s.vectors else s.saved } origin)

/-- **Inversion** of the steps. -/
theorem saveTaken_of_step (h : saveStep s a = some s') : SaveTaken s a s' := by
  cases a with
  | openStore executor =>
    obtain rfl := Option.some_inj.mp h
    exact .opened
  | closeStore i =>
    rw [saveStep] at h
    split at h
    · rename_i st hst
      split at h
      · rename_i hclose
        obtain rfl := Option.some_inj.mp h
        simp only [Bool.and_eq_true, List.all_eq_true, Option.isNone_iff_eq_none,
          decide_eq_true_iff] at hclose
        exact .closed hst hclose.1.1 hclose.1.2 hclose.2
      · exact absurd h (by simp)
    · exact absurd h (by simp)
  | insert v =>
    rw [saveStep] at h
    split at h
    · rename_i hguard
      obtain rfl := Option.some_inj.mp h
      exact .inserted hguard
    · exact absurd h (by simp)
  | markDirty =>
    rw [saveStep] at h
    split at h
    · rename_i v hguard
      obtain rfl := Option.some_inj.mp h
      exact .marked hguard
    · exact absurd h (by simp)
  | readDirty i =>
    rw [saveStep] at h
    split at h
    · rename_i st hst
      split at h
      · rename_i hlive
        obtain rfl := Option.some_inj.mp h
        by_cases hdirty : s.dirty = true
        · rw [if_pos hdirty]
          exact .called hst hlive hdirty
        · rw [if_neg hdirty]
          exact .clean hst hlive (Bool.eq_false_iff.mpr hdirty)
      · exact absurd h (by simp)
    · exact absurd h (by simp)
  | swapPending k =>
    rw [saveStep] at h
    split at h
    · rename_i i hcall
      obtain rfl := Option.some_inj.mp h
      by_cases hpending : s.savePending = true
      · rw [if_pos hpending]
        exact .refused hcall hpending
      · rw [if_neg hpending]
        exact .stamped hcall (Bool.eq_false_iff.mpr hpending)
    · exact absurd h (by simp)
  | scheduleTask k =>
    rw [saveStep] at h
    split at h
    · rename_i i hcall
      split at h
      · rename_i st hst
        split at h
        · rename_i hlive
          obtain rfl := Option.some_inj.mp h
          exact .scheduled hcall hst hlive
        · exact absurd h (by simp)
      · exact absurd h (by simp)
    · exact absurd h (by simp)
  | popClosure i =>
    rw [saveStep] at h
    split at h
    · rename_i st hst
      split at h
      · rename_i hpop
        obtain rfl := Option.some_inj.mp h
        simp only [Bool.and_eq_true, decide_eq_true_iff, Option.isNone_iff_eq_none] at hpop
        exact .popped hst hpop.1.1 hpop.1.2 hpop.2
      · exact absurd h (by simp)
    · exact absurd h (by simp)
  | clearPending i =>
    rw [saveStep] at h
    split at h
    · rename_i st hst
      split at h
      · rename_i hrunning
        obtain rfl := Option.some_inj.mp h
        exact .cleared hst hrunning
      · exact absurd h (by simp)
    · exact absurd h (by simp)
  | checkDirty i =>
    rw [saveStep] at h
    split at h
    · rename_i st hst
      split at h
      · rename_i hrunning
        obtain rfl := Option.some_inj.mp h
        exact .checked hst hrunning
      · exact absurd h (by simp)
    · exact absurd h (by simp)
  | beginSave origin =>
    rw [saveStep] at h
    split at h
    · rename_i hguard
      split at h
      · rename_i horigin
        obtain rfl := Option.some_inj.mp h
        refine .began hguard fun i hi => ?_
        rw [hi, Option.all_some, Option.any_eq_true] at horigin
        obtain ⟨st, hst, hrunning⟩ := horigin
        exact ⟨st, hst, of_decide_eq_true hrunning⟩
      · exact absurd h (by simp)
    · exact absurd h (by simp)
  | endSave written =>
    rw [saveStep] at h
    split at h
    · rename_i origin hguard
      obtain rfl := Option.some_inj.mp h
      exact .ended hguard
    · exact absurd h (by simp)

/-! ### Closures on their way -/

/-- The closures on a store that have not cleared `save_pending` yet. -/
def SaveStore.coming (st : SaveStore) : ℕ :=
  (if st.live then st.queued else 0) + if st.running = some .popped then 1 else 0

/-- The closure that a call is about to schedule. -/
def SaveCall.coming (c : SaveCall) : ℕ := if c.stamped then 1 else 0

def DeferredSaves.coming (s : DeferredSaves V) : ℕ :=
  (s.stores.map SaveStore.coming).sum + (s.calls.map SaveCall.coming).sum

theorem sum_map_eraseIdx {α : Type*} {f : α → ℕ} {l : List α} {i : ℕ} {x : α}
    (h : l[i]? = some x) : ((l.eraseIdx i).map f).sum + f x = (l.map f).sum := by
  obtain ⟨hi, rfl⟩ := List.getElem?_eq_some_iff.mp h
  have hlen : i < (l.map f).length := by rwa [List.length_map]
  have hsum := List.add_sum_eraseIdx hlen fun b _ => AddCommute.all _ b
  rw [List.getElem_map, List.eraseIdx_map] at hsum
  omega

theorem sum_map_set {α : Type*} {f : α → ℕ} {l : List α} {i : ℕ} {x y : α}
    (h : l[i]? = some x) : ((l.set i y).map f).sum + f x = (l.map f).sum + f y := by
  have hi : i < l.length := (List.getElem?_eq_some_iff.mp h).1
  have hold := @sum_map_eraseIdx _ f l i x h
  have hnew := @sum_map_eraseIdx _ f (l.set i y) i y (List.getElem?_set_self hi)
  rw [List.eraseIdx_set_eq] at hnew
  omega

theorem coming_setStore {i : ℕ} {st st' : SaveStore} (h : s.stores[i]? = some st) :
    (s.setStore i st').coming + st.coming = s.coming + st'.coming := by
  have hsum := @sum_map_set _ SaveStore.coming s.stores i st st' h
  show ((s.stores.set i st').map SaveStore.coming).sum + (s.calls.map SaveCall.coming).sum +
    st.coming = (s.stores.map SaveStore.coming).sum + (s.calls.map SaveCall.coming).sum + st'.coming
  omega

/-- With a store its queued closures go. -/
theorem coming_close {i : ℕ} {st : SaveStore} (hst : s.stores[i]? = some st)
    (hlive : st.live = true) (hrunning : st.running = none) :
    (s.setStore i { st with live := false, queued := 0 }).coming + st.queued = s.coming := by
  have hset := @coming_setStore _ s i st { st with live := false, queued := 0 } hst
  have hold : st.coming = st.queued := by simp [SaveStore.coming, hlive, hrunning]
  have hnew : SaveStore.coming { st with live := false, queued := 0 } = 0 := by
    simp [SaveStore.coming, hrunning]
  omega

theorem coming_eraseCall {k : ℕ} {c : SaveCall} (h : s.calls[k]? = some c) :
    DeferredSaves.coming { s with calls := s.calls.eraseIdx k } + c.coming = s.coming := by
  have hsum := @sum_map_eraseIdx _ SaveCall.coming s.calls k c h
  show (s.stores.map SaveStore.coming).sum + ((s.calls.eraseIdx k).map SaveCall.coming).sum +
    c.coming = (s.stores.map SaveStore.coming).sum + (s.calls.map SaveCall.coming).sum
  omega

theorem coming_setCall {k : ℕ} {c c' : SaveCall} (h : s.calls[k]? = some c) :
    DeferredSaves.coming { s with calls := s.calls.set k c' } + c.coming =
      s.coming + c'.coming := by
  have hsum := @sum_map_set _ SaveCall.coming s.calls k c c' h
  show (s.stores.map SaveStore.coming).sum + ((s.calls.set k c').map SaveCall.coming).sum +
    c.coming = (s.stores.map SaveStore.coming).sum + (s.calls.map SaveCall.coming).sum + c'.coming
  omega

/-! ### What every step keeps -/

/-- Every vector that was indexed is in the index, and while it is not dirty in the last save;
a closure that holds the mutex is in its save. -/
structure SaveInv (s : DeferredSaves V) : Prop where
  held : ∀ i, s.guard = some (.saving (some i)) →
    ∃ st, s.stores[i]? = some st ∧ st.running = some .saving
  inserted : ∀ v, s.guard = some (.indexing v) → v ∈ s.vectors
  present : ∀ v ∈ s.indexed, v ∈ s.vectors
  clean : s.dirty = false → ∀ v ∈ s.indexed, v ∈ s.saved

theorem saveInv_init {loaded : List V} : SaveInv (.init loaded) where
  held i h := absurd h (by simp [DeferredSaves.init])
  inserted v h := absurd h (by simp [DeferredSaves.init])
  present v hv := hv
  clean _ v hv := hv

/-- Steps of a store leave the closure that holds the mutex in its save. -/
theorem SaveInv.setStore (h : SaveInv s) {i : ℕ} {st st' : SaveStore}
    (hst : s.stores[i]? = some st)
    (hrunning : st.running = some .saving → st'.running = some .saving) :
    SaveInv (s.setStore i st') where
  held j hguard := by
    obtain ⟨u, hu, hsaving⟩ := h.held j hguard
    by_cases hij : i = j
    · subst hij
      obtain rfl := Option.some_inj.mp (hst.symm.trans hu)
      refine ⟨st', ?_, hrunning hsaving⟩
      show (s.stores.set i st')[i]? = _
      rw [List.getElem?_set_self (List.getElem?_eq_some_iff.mp hst).1]
    · refine ⟨u, ?_, hsaving⟩
      show (s.stores.set i st')[j]? = _
      rw [List.getElem?_set_ne hij, hu]
  inserted := h.inserted
  present := h.present
  clean := h.clean

theorem SaveInv.endClosure {origin : Option ℕ} (h : SaveInv s) (hguard : s.guard = none) :
    SaveInv (s.endClosure origin) := by
  cases origin with
  | none => exact h
  | some i =>
    rw [DeferredSaves.endClosure]
    split
    · exact ⟨fun j hheld => absurd (hguard.symm.trans hheld) (by simp), h.inserted, h.present,
        h.clean⟩
    · exact h

theorem saveInv_step (h : SaveInv s) (hstep : saveStep s a = some s') : SaveInv s' := by
  cases saveTaken_of_step hstep with
  | opened =>
    refine ⟨fun i hguard => ?_, h.inserted, h.present, h.clean⟩
    obtain ⟨st, hst, hsaving⟩ := h.held i hguard
    refine ⟨st, ?_, hsaving⟩
    rw [List.getElem?_append_left (List.getElem?_eq_some_iff.mp hst).1, hst]
  | closed hst hlive hrunning hcalls =>
    exact h.setStore hst fun hsaving => absurd (hrunning.symm.trans hsaving) (by simp)
  | inserted hguard =>
    refine ⟨fun i hsaving => absurd hsaving (by simp), fun v hv => ?_, fun v hv => ?_, h.clean⟩
    · obtain rfl := IndexGuard.indexing.inj (Option.some_inj.mp hv)
      exact List.mem_append_right _ (List.mem_singleton_self _)
    · exact List.mem_append_left _ (h.present v hv)
  | @marked w hguard =>
    refine ⟨fun i hsaving => absurd hsaving (by simp), fun v hv => absurd hv (by simp),
      fun v hv => ?_, fun hdirty => absurd hdirty (by simp)⟩
    rcases List.mem_append.mp hv with hv | hv
    · exact h.present v hv
    · exact List.mem_singleton.mp hv ▸ h.inserted w hguard
  | clean hst hlive hdirty => exact h
  | called hst hlive hdirty => exact ⟨h.held, h.inserted, h.present, h.clean⟩
  | refused hcall hpending => exact ⟨h.held, h.inserted, h.present, h.clean⟩
  | stamped hcall hpending => exact ⟨h.held, h.inserted, h.present, h.clean⟩
  | @scheduled k i st hcall hst hlive =>
    have hcalls : SaveInv { s with calls := s.calls.eraseIdx k } :=
      ⟨h.held, h.inserted, h.present, h.clean⟩
    refine hcalls.setStore hst fun hsaving => ?_
    split
    · exact hsaving
    · exact hsaving
  | popped hst hlive hqueued hrunning =>
    exact h.setStore hst fun hsaving => absurd (hrunning.symm.trans hsaving) (by simp)
  | cleared hst hrunning =>
    have hpending : SaveInv { s with savePending := false } :=
      ⟨h.held, h.inserted, h.present, h.clean⟩
    exact hpending.setStore hst fun hsaving => absurd (hrunning.symm.trans hsaving) (by simp)
  | checked hst hrunning =>
    exact h.setStore hst fun hsaving => absurd (hrunning.symm.trans hsaving) (by simp)
  | began hguard horigin =>
    refine ⟨fun i hsaving => ?_, fun v hv => absurd hv (by simp), h.present, h.clean⟩
    exact horigin i (IndexGuard.saving.inj (Option.some_inj.mp hsaving))
  | @ended written origin hguard =>
    refine SaveInv.endClosure ⟨fun i hsaving => absurd hsaving (by simp),
      fun v hv => absurd hv (by simp), h.present, fun hdirty v hv => ?_⟩ rfl
    cases written with
    | true => exact h.present v hv
    | false => exact h.clean hdirty v hv

theorem run_saveInv {loaded : List V} {as : List (SaveAction V)}
    (hrun : run saveStep (.init loaded) as = some s) : SaveInv s :=
  run_invariant_all (fun _ _ _ hs hstep => saveInv_step hs hstep) saveInv_init hrun

/-! ### The flag and the closures -/

/-- The step loses no closure: every store is opened with an executor, and closed when none
of the provider's closures is queued there. -/
def Kept (s : DeferredSaves V) : SaveAction V → Prop
  | .openStore executor => executor = true
  | .closeStore i => ∀ st, s.stores[i]? = some st → st.queued = 0
  | _ => True

/-- Between the states, closures come only with the flag raised for them, and if `kept` the
flag is cleared only by them. -/
structure FlagBalanced (s s' : DeferredSaves V) (kept : Prop) : Prop where
  le : s'.coming + s.savePending.toNat ≤ s.coming + s'.savePending.toNat
  eq : kept → s'.coming + s.savePending.toNat = s.coming + s'.savePending.toNat

theorem flagBalanced_of_eq {kept : Prop} (hcoming : s'.coming = s.coming)
    (hpending : s'.savePending = s.savePending) : FlagBalanced s s' kept := by
  have heq : s'.coming + s.savePending.toNat = s.coming + s'.savePending.toNat := by
    rw [hcoming, hpending]
  exact ⟨Nat.le_of_eq heq, fun _ => heq⟩

/-- A store as good as the one before. -/
theorem flagBalanced_setStore {kept : Prop} {i : ℕ} {st st' : SaveStore}
    (hst : s.stores[i]? = some st) (hcoming : st'.coming = st.coming) :
    FlagBalanced s (s.setStore i st') kept := by
  refine flagBalanced_of_eq ?_ rfl
  have hset := @coming_setStore _ s i st st' hst
  omega

/-- A closure that ends has cleared the flag before. -/
theorem flagBalanced_endClosure {kept : Prop} {origin : Option ℕ}
    (h : ∀ i, origin = some i → ∃ st, s.stores[i]? = some st ∧ st.running = some .saving) :
    FlagBalanced s (s.endClosure origin) kept := by
  cases origin with
  | none => exact flagBalanced_of_eq rfl rfl
  | some i =>
    obtain ⟨st, hst, hrunning⟩ := h i rfl
    rw [DeferredSaves.endClosure]
    simp only [hst]
    exact flagBalanced_setStore hst (by simp [SaveStore.coming, hrunning])

/-- A store is closed; its queue was empty if that keeps the closures. -/
theorem flagBalanced_close {kept : Prop} {i : ℕ} {st : SaveStore} (hst : s.stores[i]? = some st)
    (hlive : st.live = true) (hrunning : st.running = none) (hqueued : kept → st.queued = 0) :
    FlagBalanced s (s.setStore i { st with live := false, queued := 0 }) kept := by
  have hclose := coming_close hst hlive hrunning
  constructor
  · show (s.setStore i _).coming + s.savePending.toNat ≤ s.coming + s.savePending.toNat
    omega
  · intro hkept
    have hnone : st.queued = 0 := hqueued hkept
    show (s.setStore i _).coming + s.savePending.toNat = s.coming + s.savePending.toNat
    omega

/-- `store.schedule_task`, which does nothing without an executor. -/
theorem flagBalanced_schedule {kept : Prop} {i k : ℕ} {st : SaveStore}
    (hcall : s.calls[k]? = some ⟨i, true⟩) (hst : s.stores[i]? = some st) (hlive : st.live = true)
    (hkept : kept → st.executor = true) :
    FlagBalanced s (DeferredSaves.setStore { s with calls := s.calls.eraseIdx k } i
      (if st.executor then { st with queued := st.queued + 1 } else st)) kept := by
  have herase := coming_eraseCall hcall
  have hset := @coming_setStore _ { s with calls := s.calls.eraseIdx k } i st
    (if st.executor then { st with queued := st.queued + 1 } else st) hst
  have hcoming : SaveCall.coming ⟨i, true⟩ = 1 := rfl
  by_cases hexecutor : st.executor = true
  · have hnew : SaveStore.coming { st with queued := st.queued + 1 } = st.coming + 1 := by
      simp only [SaveStore.coming, if_pos hlive]
      omega
    rw [if_pos hexecutor] at hset ⊢
    exact flagBalanced_of_eq (by omega) rfl
  · rw [if_neg hexecutor] at hset ⊢
    constructor
    · show (DeferredSaves.setStore _ i st).coming + s.savePending.toNat ≤
        s.coming + s.savePending.toNat
      omega
    · intro h
      exact absurd (hkept h) hexecutor

/-- The closure clears the flag, which is up for it. -/
theorem flagBalanced_clear {kept : Prop} (hle : s.coming ≤ s.savePending.toNat) {i : ℕ}
    {st : SaveStore} (hst : s.stores[i]? = some st) (hrunning : st.running = some .popped) :
    FlagBalanced s (DeferredSaves.setStore { s with savePending := false } i
      { st with running := some .cleared }) kept := by
  have hset := @coming_setStore _ { s with savePending := false } i st
    { st with running := some .cleared } hst
  have hold : st.coming = SaveStore.coming { st with running := some .cleared } + 1 := by
    simp [SaveStore.coming, hrunning]
  have hsame : DeferredSaves.coming { s with savePending := false } = s.coming := rfl
  have hflag : s.savePending.toNat = 1 := by
    have := Bool.toNat_le s.savePending
    omega
  have heq : (DeferredSaves.setStore { s with savePending := false } i
      { st with running := some .cleared }).coming + s.savePending.toNat = s.coming + 0 := by
    omega
  exact ⟨Nat.le_of_eq heq, fun _ => heq⟩

/-- `save_pending` is raised for each closure that comes, and cleared by it. -/
theorem coming_step (h : SaveInv s) (hle : s.coming ≤ s.savePending.toNat)
    (hstep : saveStep s a = some s') :
    FlagBalanced s s' (Kept s a ∧ ∀ st ∈ s.stores, st.executor = true) := by
  cases saveTaken_of_step hstep with
  | opened => exact flagBalanced_of_eq (by simp [DeferredSaves.coming, SaveStore.coming]) rfl
  | closed hst hlive hrunning hcalls =>
    exact flagBalanced_close hst hlive hrunning fun hkept => hkept.1 _ hst
  | inserted hguard => exact flagBalanced_of_eq rfl rfl
  | marked hguard => exact flagBalanced_of_eq rfl rfl
  | clean hst hlive hdirty => exact flagBalanced_of_eq rfl rfl
  | called hst hlive hdirty =>
    exact flagBalanced_of_eq (by simp [DeferredSaves.coming, SaveCall.coming]) rfl
  | refused hcall hpending => exact flagBalanced_of_eq (coming_eraseCall hcall) rfl
  | @stamped k i hcall hpending =>
    have hraised : DeferredSaves.coming
        { s with savePending := true, calls := s.calls.set k ⟨i, true⟩ } = s.coming + 1 :=
      @coming_setCall _ s k ⟨i, false⟩ ⟨i, true⟩ hcall
    constructor
    · rw [hraised, hpending]
      exact le_rfl
    · rw [hraised, hpending]
      exact fun _ => rfl
  | scheduled hcall hst hlive =>
    exact flagBalanced_schedule hcall hst hlive fun hkept =>
      hkept.2 _ (List.mem_of_getElem? hst)
  | @popped i st hst hlive hqueued hrunning =>
    refine flagBalanced_setStore hst ?_
    have hold : st.coming = st.queued := by simp [SaveStore.coming, hlive, hrunning]
    have hnew : SaveStore.coming { st with queued := st.queued - 1, running := some .popped } =
        st.queued - 1 + 1 := by
      simp [SaveStore.coming, hlive]
    omega
  | cleared hst hrunning => exact flagBalanced_clear hle hst hrunning
  | @checked i st hst hrunning =>
    refine flagBalanced_setStore hst ?_
    by_cases hdirty : s.dirty = true
    · simp [SaveStore.coming, hrunning, hdirty]
    · simp [SaveStore.coming, hrunning, hdirty]
  | began hguard horigin => exact flagBalanced_of_eq rfl rfl
  | @ended written origin hguard =>
    have hend : FlagBalanced _ (DeferredSaves.endClosure
        { s with
          guard := none
          dirty := if written then false else s.dirty
          saved := if written then s.vectors else s.saved } origin)
        (Kept s (.endSave written) ∧ ∀ st ∈ s.stores, st.executor = true) :=
      flagBalanced_endClosure fun i hi => h.held i (hi ▸ hguard)
    exact ⟨hend.le, hend.eq⟩

/-- `save_pending` is up exactly while a closure is coming that clears it, and every store has
an executor. -/
structure FlagAnswered (s : DeferredSaves V) : Prop where
  coming : s.coming = s.savePending.toNat
  executors : ∀ st ∈ s.stores, st.executor = true

/-- Stores come with the executors that they are opened with. -/
theorem executors_step (h : ∀ st ∈ s.stores, st.executor = true) (hkept : Kept s a)
    (hstep : saveStep s a = some s') : ∀ st ∈ s'.stores, st.executor = true := by
  have hset : ∀ {i : ℕ} {st st' : SaveStore}, s.stores[i]? = some st →
      st'.executor = st.executor → ∀ u ∈ s.stores.set i st', u.executor = true := by
    intro i st st' hst hsame u hu
    rcases List.mem_or_eq_of_mem_set hu with hu | rfl
    · exact h u hu
    · exact hsame.trans (h st (List.mem_of_getElem? hst))
  cases saveTaken_of_step hstep with
  | opened =>
    intro st hst
    rcases List.mem_append.mp hst with hst | hst
    · exact h st hst
    · obtain rfl := List.mem_singleton.mp hst
      exact hkept
  | closed hst hlive hrunning hcalls => exact hset hst rfl
  | inserted hguard => exact h
  | marked hguard => exact h
  | clean hst hlive hdirty => exact h
  | called hst hlive hdirty => exact h
  | refused hcall hpending => exact h
  | stamped hcall hpending => exact h
  | scheduled hcall hst hlive => exact hset hst (by split <;> rfl)
  | popped hst hlive hqueued hrunning => exact hset hst rfl
  | cleared hst hrunning => exact hset hst rfl
  | checked hst hrunning => exact hset hst rfl
  | began hguard horigin => exact h
  | @ended written origin hguard =>
    cases origin with
    | none => exact h
    | some i =>
      rw [DeferredSaves.endClosure]
      split
      · rename_i st hst
        exact hset hst rfl
      · exact h

/-- **Step lemma** of the flag. -/
theorem flagAnswered_step (h : SaveInv s) (hs : FlagAnswered s) (hkept : Kept s a)
    (hstep : saveStep s a = some s') : FlagAnswered s' := by
  have hbalanced := coming_step h (Nat.le_of_eq hs.coming) hstep
  refine ⟨?_, executors_step hs.executors hkept hstep⟩
  have := hbalanced.eq ⟨hkept, hs.executors⟩
  have := hs.coming
  omega

theorem run_flagAnswered {loaded : List V} {as : List (SaveAction V)}
    (halong : Along saveStep Kept (.init loaded) as)
    (hrun : run saveStep (.init loaded) as = some s) : FlagAnswered s := by
  have hinit : FlagAnswered (DeferredSaves.init loaded) :=
    ⟨rfl, fun st hst => absurd hst List.not_mem_nil⟩
  have hboth := run_invariant (I := fun s => SaveInv s ∧ FlagAnswered s)
    (fun _ _ _ hs hkept hstep =>
      ⟨saveInv_step hs.1 hstep, flagAnswered_step hs.1 hs.2 hkept hstep⟩)
    ⟨saveInv_init, hinit⟩ halong hrun
  exact hboth.2

/-! ### The next call -/

/-- No closure of the provider is queued in a live executor or run by one, and no call is
about to schedule one. -/
structure Idle (s : DeferredSaves V) : Prop where
  queued : ∀ st ∈ s.stores, st.live = true → st.queued = 0
  running : ∀ st ∈ s.stores, st.running = none
  calls : ∀ c ∈ s.calls, c.stamped = false

def DeferredSaves.IsOpen (s : DeferredSaves V) (i : ℕ) : Prop :=
  ∃ st, s.stores[i]? = some st ∧ st.live = true

def DeferredSaves.queuedOn (s : DeferredSaves V) (i : ℕ) : ℕ :=
  (s.stores[i]?.map SaveStore.queued).getD 0

/-- `HnswProvider::schedule_save`. -/
def scheduleSave (i : ℕ) : List (SaveAction V) := [.readDirty i, .swapPending 0, .scheduleTask 0]

/-- The next call of `schedule_save` on the store goes through and queues a closure. -/
def Enqueues (s : DeferredSaves V) (i : ℕ) : Prop :=
  ∃ s', run saveStep s (scheduleSave i) = some s' ∧ s'.queuedOn i = s.queuedOn i + 1

/-- Then no closure is coming. -/
theorem Idle.coming (h : Idle s) : s.coming = 0 := by
  have hstores : (s.stores.map SaveStore.coming).sum = 0 := by
    refine List.sum_eq_zero_iff_forall_eq_nat.mpr fun n hn => ?_
    obtain ⟨st, hst, rfl⟩ := List.mem_map.mp hn
    rw [SaveStore.coming, h.running st hst]
    by_cases hlive : st.live = true
    · rw [if_pos hlive, h.queued st hst hlive]
      rfl
    · rw [if_neg hlive]
      rfl
  have hcalls : (s.calls.map SaveCall.coming).sum = 0 := by
    refine List.sum_eq_zero_iff_forall_eq_nat.mpr fun n hn => ?_
    obtain ⟨c, hc, rfl⟩ := List.mem_map.mp hn
    rw [SaveCall.coming, h.calls c hc]
    rfl
  rw [DeferredSaves.coming, hstores, hcalls]

/-- **While a closure comes for the flag**, the next call finds it down. -/
theorem enqueues_of_flagAnswered (hs : FlagAnswered s) (hdirty : s.dirty = true) (hidle : Idle s)
    {i : ℕ} (hopen : s.IsOpen i) : Enqueues s i := by
  obtain ⟨st, hst, hlive⟩ := hopen
  have hpending : s.savePending = false := by
    have hflag : s.savePending.toNat = 0 := hs.coming.symm.trans hidle.coming
    exact Bool.toNat_eq_zero.mp hflag
  have hexecutor : st.executor = true := hs.executors st (List.mem_of_getElem? hst)
  have hread : saveStep s (.readDirty i) = some { s with calls := ⟨i, false⟩ :: s.calls } := by
    rw [saveStep, hst]
    dsimp only
    rw [if_pos hlive, if_pos hdirty]
  have hswap : saveStep { s with calls := ⟨i, false⟩ :: s.calls } (.swapPending 0) =
      some { s with savePending := true, calls := ⟨i, true⟩ :: s.calls } := by
    simp only [saveStep, List.getElem?_cons_zero, hpending]
    rfl
  have hschedule : saveStep { s with savePending := true, calls := ⟨i, true⟩ :: s.calls }
      (.scheduleTask 0) = some (DeferredSaves.setStore { s with savePending := true } i
        { st with queued := st.queued + 1 }) := by
    simp only [saveStep, List.getElem?_cons_zero, hst]
    rw [if_pos hlive, if_pos hexecutor]
    rfl
  have hcall : run saveStep s (scheduleSave i) = some _ :=
    run_cons.mpr ⟨_, hread, run_cons.mpr ⟨_, hswap, run_cons.mpr ⟨_, hschedule, rfl⟩⟩⟩
  refine ⟨_, hcall, ?_⟩
  have hlt : i < s.stores.length := (List.getElem?_eq_some_iff.mp hst).1
  show ((s.stores.set i { st with queued := st.queued + 1 })[i]?.map SaveStore.queued).getD 0 =
    (s.stores[i]?.map SaveStore.queued).getD 0 + 1
  rw [List.getElem?_set_self hlt, hst]
  rfl

/-- **Deferred saves**: in every run in which each store has its executor and is closed with no
closure queued there, a dirty index with no save on its way is saved by the next call; and in
every run whatsoever the index is only clean while the last save or load has all of it. -/
theorem saves_not_forgotten (loaded : List V) (as : List (SaveAction V)) (s : DeferredSaves V)
    (hrun : run saveStep (.init loaded) as = some s) :
    (Along saveStep Kept (.init loaded) as → s.dirty = true → Idle s →
      ∀ i, s.IsOpen i → Enqueues s i) ∧
    (s.dirty = false → ∀ v ∈ s.indexed, v ∈ s.saved) := by
  constructor
  · intro halong hdirty hidle i hopen
    exact enqueues_of_flagAnswered (run_flagAnswered halong hrun) hdirty hidle hopen
  · exact (run_saveInv hrun).clean

/-- The vector 7 is indexed and saved by the executor of the store, which fails. -/
def failedSave : List (SaveAction ℕ) :=
  [.openStore true, .insert 7, .markDirty, .readDirty 0, .swapPending 0, .scheduleTask 0,
    .popClosure 0, .clearPending 0, .checkDirty 0, .beginSave (some 0), .endSave false]

/-- The next call schedules it again. -/
theorem saves_not_forgotten_failed : ∃ s, run saveStep (.init []) failedSave = some s ∧
    Enqueues s 0 := by
  have hrun : ∃ s, run saveStep (.init []) failedSave = some s ∧ s.dirty = true ∧
      s.stores = [⟨true, true, 0, none⟩] ∧ s.calls = [] := ⟨_, rfl, rfl, rfl, rfl⟩
  obtain ⟨s, hrun, hdirty, hstores, hcalls⟩ := hrun
  refine ⟨s, hrun, (saves_not_forgotten [] failedSave s hrun).1 ?_ hdirty ⟨?_, ?_, ?_⟩ 0 ?_⟩
  · have hall : ∀ a ∈ failedSave, ∀ s, Kept s a := by simp [failedSave, Kept]
    exact (along_of_forall hall).imp fun s a ha => ha s
  · simp [hstores]
  · simp [hstores]
  · simp [hcalls]
  · exact ⟨_, by rw [hstores]; rfl, rfl⟩

/-- The store is closed before its executor comes to the closure, and another is opened. -/
def reopened : List (SaveAction ℕ) :=
  [.openStore true, .insert 7, .markDirty, .readDirty 0, .swapPending 0, .scheduleTask 0,
    .closeStore 0, .openStore true]

/-- The flag is up, nothing is queued, and the next call returns at once. -/
theorem discarded_save_forgotten : ¬∀ (loaded : List ℕ) (as : List (SaveAction ℕ))
    (s : DeferredSaves ℕ), run saveStep (.init loaded) as = some s →
      (s.dirty = true → Idle s → ∀ i, s.IsOpen i → Enqueues s i) ∧
      (s.dirty = false → ∀ v ∈ s.indexed, v ∈ s.saved) := by
  intro h
  have hrun : ∃ s, run saveStep (.init []) reopened = some s ∧ s.dirty = true ∧
      s.stores = [⟨true, false, 0, none⟩, ⟨true, true, 0, none⟩] ∧ s.calls = [] ∧
      run saveStep s (scheduleSave 1) = none := ⟨_, rfl, rfl, rfl, rfl, rfl⟩
  obtain ⟨s, hrun, hdirty, hstores, hcalls, hnone⟩ := hrun
  have hidle : Idle s := ⟨by simp [hstores], by simp [hstores], by simp [hcalls]⟩
  have hopen : s.IsOpen 1 := ⟨_, by rw [hstores]; rfl, rfl⟩
  obtain ⟨s', hs', -⟩ := (h [] reopened s hrun).1 hdirty hidle 1 hopen
  exact absurd (hnone.symm.trans hs') (by simp)

/-! ### Lost closures -/

/-- `save_pending` is up and nothing is coming that clears it. -/
def Lost (s : DeferredSaves V) : Prop := s.savePending = true ∧ s.coming = 0

theorem lost_step (h : SaveInv s) (hlost : Lost s) (hstep : saveStep s a = some s') : Lost s' := by
  have hle : s.coming ≤ s.savePending.toNat := by
    rw [hlost.2]
    exact Nat.zero_le _
  have hbalanced := (coming_step h hle hstep).le
  rw [hlost.1, hlost.2] at hbalanced
  have hflag := Bool.toNat_le s'.savePending
  have hone : s'.savePending.toNat = 1 := by
    have : true.toNat = 1 := rfl
    omega
  refine ⟨Bool.toNat_eq_one.mp hone, ?_⟩
  have : true.toNat = 1 := rfl
  omega

/-- However stores are opened and closed, no more is coming than the flag is up for. -/
theorem run_coming_le {loaded : List V} {as : List (SaveAction V)}
    (hrun : run saveStep (.init loaded) as = some s) : s.coming ≤ s.savePending.toNat := by
  have hboth := run_invariant_all (I := fun s => SaveInv s ∧ s.coming ≤ s.savePending.toNat)
    (fun _ _ _ hs hstep => ⟨saveInv_step hs.1 hstep, by
      have := (coming_step hs.1 hs.2 hstep).le
      omega⟩) ⟨saveInv_init, Nat.zero_le _⟩ hrun
  exact hboth.2

/-- The one closure that the flag is up for is discarded. -/
theorem lost_of_close (hs : s.coming ≤ s.savePending.toNat) {i : ℕ} {st : SaveStore}
    (hst : s.stores[i]? = some st) (hqueued : 0 < st.queued)
    (hstep : saveStep s (.closeStore i) = some s') : Lost s' := by
  cases saveTaken_of_step hstep with
  | closed hst' hlive hrunning hcalls =>
    obtain rfl := Option.some_inj.mp (hst.symm.trans hst')
    have hclose := coming_close hst hlive hrunning
    have hflag := Bool.toNat_le s.savePending
    refine ⟨Bool.toNat_eq_one.mp ?_, ?_⟩
    · show s.savePending.toNat = 1
      omega
    · omega

/-- **A lost closure is lost for good**: when a store is closed with a closure queued there, no
call of any later run hands another one to an executor. -/
theorem lost_for_good {loaded : List V} {as bs : List (SaveAction V)} {t u : DeferredSaves V}
    (hrun : run saveStep (.init loaded) as = some s) {i k : ℕ} {st : SaveStore}
    (hst : s.stores[i]? = some st) (hqueued : 0 < st.queued)
    (hclose : saveStep s (.closeStore i) = some t) (hafter : run saveStep t bs = some u) :
    saveStep u (.scheduleTask k) = none := by
  have hinv : SaveInv t := saveInv_step (run_saveInv hrun) hclose
  have hlost : Lost t := lost_of_close (run_coming_le hrun) hst hqueued hclose
  have hkeep := run_invariant_all (I := fun s => SaveInv s ∧ Lost s) (fun _ _ _ hs hstep =>
    ⟨saveInv_step hs.1 hstep, lost_step hs.1 hs.2 hstep⟩) ⟨hinv, hlost⟩ hafter
  rcases hstep : saveStep u (.scheduleTask k) with _ | w
  · rfl
  · cases saveTaken_of_step hstep with
    | @scheduled _ j _ hcall _ _ =>
      -- the call would have a closure coming
      have herase := coming_eraseCall hcall
      have hcoming : SaveCall.coming ⟨j, true⟩ = 1 := rfl
      have hnone := hkeep.2.2
      omega

/-- The closure is discarded with its store, and another store is opened: whatever is done with
the two after that, nothing is scheduled. -/
theorem lost_for_good_closed : ∃ t : DeferredSaves ℕ,
    run saveStep (.init []) [.openStore true, .insert 7, .markDirty, .readDirty 0, .swapPending 0,
      .scheduleTask 0, .closeStore 0] = some t ∧
      ∀ bs u, run saveStep t (.openStore true :: bs) = some u →
        ∀ k, saveStep u (.scheduleTask k) = none := by
  let before : List (SaveAction ℕ) := [.openStore true, .insert 7, .markDirty, .readDirty 0,
    .swapPending 0, .scheduleTask 0]
  obtain ⟨s, t, hrun, hst, hclose⟩ : ∃ s t, run saveStep (.init []) before = some s ∧
      s.stores[0]? = some ⟨true, true, 1, none⟩ ∧ saveStep s (.closeStore 0) = some t :=
    ⟨_, _, rfl, rfl, rfl⟩
  refine ⟨t, ?_, fun bs u hafter k => ?_⟩
  · exact run_append.mpr ⟨s, hrun, run_cons.mpr ⟨t, hclose, rfl⟩⟩
  · exact lost_for_good hrun hst Nat.one_pos hclose hafter

end Fossic
