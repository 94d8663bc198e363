/-
A subscription of the Python binding.

The handler of the store's subscription sends each event into a channel without a bound
(`PyQueueHandler`).  From there it is taken by a worker thread, which calls the callback, or by
whoever asks for `next`.  Both wait in `_wait_for_next_event`, which gives up the interpreter lock
but keeps the raw handle borrowed: `unsubscribe` of the raw handle borrows it mutably, and raises
while anybody waits.

* `python_events_in_order` — each event is taken once, in order, whoever takes it;
* `python_unsubscribe_stops` — a worker that was started is stopped, with one more callback at
  most;
* `python_unsubscribe_leaks` — when `unsubscribe` raises, the subscription stays for good.
-/
import Fossic.Transition
import Mathlib.Data.List.Perm.Basic

namespace Fossic

open Transition

variable {α : Type}

/-! ### The parties -/

/-- Where the thread of a `SubscriptionWorker` is. -/
inductive WorkerPoint (α : Type)
  /-- before `Thread.start` -/
  | unstarted
  /-- at `while not self._stopping` -/
  | looping
  /-- in `_wait_for_next_event` -/
  | waiting
  /-- in the callback -/
  | calling (event : α)
  | ended

def WorkerPoint.isWaiting : WorkerPoint α → Bool
  | .waiting => true
  | _ => false

structure PyWorker (α : Type) where
  point : WorkerPoint α
  stopping : Bool

/-- Where the first call of `unsubscribe` is; `caller` is the worker in whose callback it is
made, if it is made there. -/
inductive Closer
  | idle
  /-- after the block under `_lock` -/
  | claimed (caller : Option ℕ)
  /-- in `join` of worker `w` -/
  | joining (caller : Option ℕ) (w : ℕ)
  /-- before `_inner.unsubscribe()` -/
  | stopped (caller : Option ℕ)
  | returned
  | raised

/-- The worker that is in a call of `unsubscribe`. -/
def Closer.caller : Closer → Option ℕ
  | .claimed caller | .joining caller _ | .stopped caller => caller
  | _ => none

/-- `SubscriptionHandle` with its raw handle, and the threads that use it. -/
structure PySubscription (α : Type) where
  /-- The raw handle has its `SubscriptionHandle`. -/
  registered : Bool
  /-- `tx` of the handler has not been dropped. -/
  senderAlive : Bool
  /-- between the dispatcher and the handler -/
  queue : List α
  /-- between `tx` and `rx` -/
  chan : List α
  unsubscribed : Bool
  /-- `_worker`, by its number -/
  worker : Option ℕ
  workers : List (PyWorker α)
  /-- calls of `__enter__` that have set `_worker`, and are about to start it -/
  entering : ℕ
  /-- calls of `next` that are in `_wait_for_next_event` -/
  nextWaiting : ℕ
  /-- calls of `next` that are about to wait again -/
  nextLooping : ℕ
  closer : Closer
  /-- history: what the queue took, and what was taken out of the channel -/
  accepted : List α
  taken : List α
  /-- history: what was handed to callbacks, and what `next` has returned -/
  called : List α
  returned : List α

/-- `Store.subscribe`. -/
def PySubscription.init : PySubscription α :=
  ⟨true, true, [], [], false, none, [], 0, 0, 0, .idle, [], [], [], []⟩

inductive PyAction (α : Type)
  /-- The queue of the store's subscription takes an event. -/
  | accept (event : α)
  /-- `on_event` -/
  | forward
  /-- The thread of the subscription ends, and drops the handler. -/
  | disconnect
  /-- a call of `__enter__` with a callback, up to the assignment of `_worker` -/
  | enter
  /-- `self._worker.start()` in such a call -/
  | start
  /-- Worker `w` looks at its flag. -/
  | loop (w : ℕ)
  /-- Worker `w` returns from `_wait_for_next_event`. -/
  | wake (w : ℕ)
  | callbackEnds (w : ℕ) (raises : Bool)
  /-- a call of `__next__` -/
  | next
  | nextWake
  | nextLoop
  /-- a call of `unsubscribe`, up to the end of the block under `_lock` -/
  | unsubscribe (caller : Option ℕ)
  /-- the next step of the first such call -/
  | close

namespace PySubscription

variable (s : PySubscription α)

/-- Somebody waits, and has the raw handle borrowed. -/
def borrowed : Bool := 0 < s.nextWaiting || s.workers.any fun p => p.point.isWaiting

def setPoint (w : ℕ) (p : PyWorker α) (point : WorkerPoint α) : PySubscription α :=
  { s with workers := s.workers.set w { p with point := point } }

/-- The thread of `_worker` is started; this raises when it has been started before, or when
`_worker` is `None` again. -/
def startWorker : PySubscription α :=
  match s.worker with
  | none => { s with entering := s.entering - 1 }
  | some w =>
    match s.workers[w]? with
    | some ⟨.unstarted, stopping⟩ =>
      { s.setPoint w ⟨.unstarted, stopping⟩ .looping with entering := s.entering - 1 }
    | _ => { s with entering := s.entering - 1 }

/-- Worker `w` returns from `_wait_for_next_event`: with an event, with `None` after a timeout,
or with `StopIteration`. -/
def wakeWorker (w : ℕ) (p : PyWorker α) : PySubscription α :=
  match s.chan with
  | event :: chan =>
    { s.setPoint w p (.calling event) with
      chan := chan
      taken := s.taken ++ [event]
      called := s.called ++ [event] }
  | [] => s.setPoint w p (if s.senderAlive then .looping else .ended)

/-- So does a call of `next`. -/
def wakeNext : PySubscription α :=
  match s.chan with
  | event :: chan =>
    { s with
      chan := chan
      nextWaiting := s.nextWaiting - 1
      taken := s.taken ++ [event]
      returned := s.returned ++ [event] }
  | [] =>
    if s.senderAlive && !s.unsubscribed then
      { s with nextWaiting := s.nextWaiting - 1, nextLooping := s.nextLooping + 1 }
    else { s with nextWaiting := s.nextWaiting - 1 }

/-- The rest of `unsubscribe`; `join` blocks, and raises on the thread that is to be joined or
when that has not been started. -/
def closeStep : Option (PySubscription α) :=
  match s.closer with
  | .claimed caller =>
    match s.worker with
    | none => some { s with closer := .stopped caller }
    | some w =>
      match s.workers[w]? with
      | some p => some { s with
          workers := s.workers.set w { p with stopping := true }
          closer := .joining caller w }
      | none => none
  | .joining caller w =>
    if caller = some w then some { s with closer := .raised }
    else
      match s.workers[w]? with
      | some ⟨.unstarted, _⟩ => some { s with closer := .raised }
      | some ⟨.ended, _⟩ => some { s with worker := none, closer := .stopped caller }
      | _ => none
  | .stopped _ =>
    if s.borrowed then some { s with closer := .raised }
    else some { s with registered := false, closer := .returned }
  | _ => none

end PySubscription

def pyStep (s : PySubscription α) : PyAction α → Option (PySubscription α)
  | .accept event =>
    if s.registered then
      some { s with queue := s.queue ++ [event], accepted := s.accepted ++ [event] }
    else none
  | .forward =>
    match s.queue with
    | event :: queue => some { s with queue := queue, chan := s.chan ++ [event] }
    | [] => none
  | .disconnect =>
    match s.registered, s.queue with
    | false, [] => some { s with senderAlive := false }
    | _, _ => none
  | .enter => some { s with
      worker := some s.workers.length
      workers := s.workers ++ [⟨.unstarted, false⟩]
      entering := s.entering + 1 }
  | .start => if s.entering = 0 then none else some s.startWorker
  | .loop w =>
    match s.workers[w]? with
    | some ⟨.looping, stopping⟩ =>
      some (s.setPoint w ⟨.looping, stopping⟩ (if stopping then .ended else .waiting))
    | _ => none
  | .wake w =>
    match s.workers[w]? with
    | some ⟨.waiting, stopping⟩ => some (s.wakeWorker w ⟨.waiting, stopping⟩)
    | _ => none
  | .callbackEnds w raises =>
    match s.workers[w]? with
    | some ⟨.calling event, stopping⟩ =>
      if s.closer.caller = some w then none
      else some (s.setPoint w ⟨.calling event, stopping⟩ (if raises then .ended else .looping))
    | _ => none
  | .next => some { s with nextWaiting := s.nextWaiting + 1 }
  | .nextWake => if s.nextWaiting = 0 then none else some s.wakeNext
  | .nextLoop =>
    if s.nextLooping = 0 then none
    else some { s with nextLooping := s.nextLooping - 1, nextWaiting := s.nextWaiting + 1 }
  | .unsubscribe caller =>
    if s.unsubscribed then some s
    else
      match caller with
      | none => some { s with unsubscribed := true, closer := .claimed none }
      | some w =>
        match s.workers[w]? with
        | some ⟨.calling _, _⟩ =>
          some { s with unsubscribed := true, closer := .claimed (some w) }
        | _ => none
  | .close => s.closeStep

/-! ### What the steps do -/

section Steps

variable {s s' : PySubscription α} {a : PyAction α} {as cs : List (PyAction α)}

/-- **What a step does**, action by action. -/
inductive PyTaken (s : PySubscription α) : PyAction α → PySubscription α → Prop
  | accepted {event : α} (hregistered : s.registered = true) :
      PyTaken s (.accept event)
        { s with queue := s.queue ++ [event], accepted := s.accepted ++ [event] }
  | forwarded {event : α} {queue : List α} (hqueue : s.queue = event :: queue) :
      PyTaken s .forward { s with queue := queue, chan := s.chan ++ [event] }
  | disconnected (hregistered : s.registered = false) (hqueue : s.queue = []) :
      PyTaken s .disconnect { s with senderAlive := false }
  | entered : PyTaken s .enter
      { s with
        worker := some s.workers.length
        workers := s.workers ++ [⟨.unstarted, false⟩]
        entering := s.entering + 1 }
  | started {w : ℕ} {stopping : Bool} (hentering : s.entering ≠ 0) (hworker : s.worker = some w)
      (hp : s.workers[w]? = some ⟨.unstarted, stopping⟩) :
      PyTaken s .start
        { s.setPoint w ⟨.unstarted, stopping⟩ .looping with entering := s.entering - 1 }
  | startRaised (hentering : s.entering ≠ 0)
      (hnone : ∀ w stopping, s.worker = some w → s.workers[w]? ≠ some ⟨.unstarted, stopping⟩) :
      PyTaken s .start { s with entering := s.entering - 1 }
  | looped {w : ℕ} {stopping : Bool} (hworker : s.workers[w]? = some ⟨.looping, stopping⟩) :
      PyTaken s (.loop w)
        (s.setPoint w ⟨.looping, stopping⟩ (if stopping then .ended else .waiting))
  | woken {w : ℕ} {stopping : Bool} (hworker : s.workers[w]? = some ⟨.waiting, stopping⟩) :
      PyTaken s (.wake w) (s.wakeWorker w ⟨.waiting, stopping⟩)
  | callbackEnded {w : ℕ} {event : α} {stopping raises : Bool}
      (hworker : s.workers[w]? = some ⟨.calling event, stopping⟩)
      (hcaller : s.closer.caller ≠ some w) :
      PyTaken s (.callbackEnds w raises)
        (s.setPoint w ⟨.calling event, stopping⟩ (if raises then .ended else .looping))
  | nextCalled : PyTaken s .next { s with nextWaiting := s.nextWaiting + 1 }
  | nextWoken (hwaiting : s.nextWaiting ≠ 0) : PyTaken s .nextWake s.wakeNext
  | nextLooped (hlooping : s.nextLooping ≠ 0) : PyTaken s .nextLoop
      { s with nextLooping := s.nextLooping - 1, nextWaiting := s.nextWaiting + 1 }
  | again {caller : Option ℕ} (hflag : s.unsubscribed = true) : PyTaken s (.unsubscribe caller) s
  | claimed {caller : Option ℕ} (hflag : s.unsubscribed = false) :
      PyTaken s (.unsubscribe caller)
        { s with unsubscribed := true, closer := .claimed caller }
  | closed {t : PySubscription α} (hclose : s.closeStep = some t) : PyTaken s .close t

theorem pyTaken_start (hentering : s.entering ≠ 0) : PyTaken s .start s.startWorker := by
  rw [PySubscription.startWorker]
  split
  · rename_i hworker
    exact .startRaised hentering fun w _ hw => absurd (hworker.symm.trans hw) (by simp)
  · rename_i w hworker
    split
    · rename_i hp
      exact .started hentering hworker hp
    · rename_i hother
      refine .startRaised hentering fun v stopping hv => ?_
      obtain rfl := Option.some_inj.mp (hworker.symm.trans hv)
      exact hother stopping

theorem pyTaken_of_step (h : pyStep s a = some s') : PyTaken s a s' := by
  cases a with
  | accept event =>
    rw [pyStep] at h
    split at h
    · rename_i hregistered
      obtain rfl := Option.some_inj.mp h
      exact .accepted hregistered
    · exact absurd h (by simp)
  | forward =>
    rw [pyStep] at h
    split at h
    · rename_i hqueue
      obtain rfl := Option.some_inj.mp h
      exact .forwarded hqueue
    · exact absurd h (by simp)
  | disconnect =>
    rw [pyStep] at h
    split at h
    · rename_i hregistered hqueue
      obtain rfl := Option.some_inj.mp h
      exact .disconnected hregistered hqueue
    · exact absurd h (by simp)
  | enter =>
    obtain rfl := Option.some_inj.mp h
    exact .entered
  | start =>
    rw [pyStep] at h
    split at h
    · exact absurd h (by simp)
    · rename_i hentering
      obtain rfl := Option.some_inj.mp h
      exact pyTaken_start hentering
  | loop w =>
    rw [pyStep] at h
    split at h
    · rename_i hworker
      obtain rfl := Option.some_inj.mp h
      exact .looped hworker
    · exact absurd h (by simp)
  | wake w =>
    rw [pyStep] at h
    split at h
    · rename_i hworker
      obtain rfl := Option.some_inj.mp h
      exact .woken hworker
    · exact absurd h (by simp)
  | callbackEnds w raises =>
    rw [pyStep] at h
    split at h
    · rename_i hworker
      split at h
      · exact absurd h (by simp)
      · rename_i hcaller
        obtain rfl := Option.some_inj.mp h
        exact .callbackEnded hworker hcaller
    · exact absurd h (by simp)
  | next =>
    obtain rfl := Option.some_inj.mp h
    exact .nextCalled
  | nextWake =>
    rw [pyStep] at h
    split at h
    · exact absurd h (by simp)
    · rename_i hwaiting
      obtain rfl := Option.some_inj.mp h
      exact .nextWoken hwaiting
  | nextLoop =>
    rw [pyStep] at h
    split at h
    · exact absurd h (by simp)
    · rename_i hlooping
      obtain rfl := Option.some_inj.mp h
      exact .nextLooped hlooping
  | unsubscribe caller =>
    rw [pyStep.eq_def] at h
    dsimp only at h
    split at h
    · rename_i hflag
      obtain rfl := Option.some_inj.mp h
      exact .again hflag
    · rename_i hflag
      have hflag : s.unsubscribed = false := by simpa using hflag
      split at h
      · obtain rfl := Option.some_inj.mp h
        exact .claimed hflag
      · split at h
        · obtain rfl := Option.some_inj.mp h
          exact .claimed hflag
        · exact absurd h (by simp)
  | close => exact .closed h

/-- What a step of the first `unsubscribe` does. -/
inductive CloseTaken (s : PySubscription α) : PySubscription α → Prop
  | noWorker {caller : Option ℕ} (hcloser : s.closer = .claimed caller)
      (hworker : s.worker = none) :
      CloseTaken s { s with closer := .stopped caller }
  | flagged {caller : Option ℕ} {w : ℕ} {p : PyWorker α} (hcloser : s.closer = .claimed caller)
      (hworker : s.worker = some w) (hp : s.workers[w]? = some p) :
      CloseTaken s
        { s with
          workers := s.workers.set w { p with stopping := true }
          closer := .joining caller w }
  | joinedItself {w : ℕ} (hcloser : s.closer = .joining (some w) w) :
      CloseTaken s { s with closer := .raised }
  | joinedEarly {caller : Option ℕ} {w : ℕ} {stopping : Bool}
      (hcloser : s.closer = .joining caller w)
      (hp : s.workers[w]? = some ⟨.unstarted, stopping⟩) :
      CloseTaken s { s with closer := .raised }
  | joined {caller : Option ℕ} {w : ℕ} {stopping : Bool} (hcloser : s.closer = .joining caller w)
      (hother : caller ≠ some w) (hended : s.workers[w]? = some ⟨.ended, stopping⟩) :
      CloseTaken s { s with worker := none, closer := .stopped caller }
  | refused {caller : Option ℕ} (hcloser : s.closer = .stopped caller)
      (hborrowed : s.borrowed = true) : CloseTaken s { s with closer := .raised }
  | dropped {caller : Option ℕ} (hcloser : s.closer = .stopped caller)
      (hfree : s.borrowed = false) :
      CloseTaken s { s with registered := false, closer := .returned }

theorem closeTaken_of_step (h : s.closeStep = some s') : CloseTaken s s' := by
  rw [PySubscription.closeStep] at h
  split at h
  · rename_i caller hcloser
    split at h
    · rename_i hworker
      obtain rfl := Option.some_inj.mp h
      exact .noWorker hcloser hworker
    · rename_i w hworker
      split at h
      · rename_i hp
        obtain rfl := Option.some_inj.mp h
        exact .flagged hcloser hworker hp
      · exact absurd h (by simp)
  · rename_i caller w hcloser
    split at h
    · rename_i hcaller
      obtain rfl := hcaller
      obtain rfl := Option.some_inj.mp h
      exact .joinedItself hcloser
    · rename_i hother
      split at h
      · rename_i hp
        obtain rfl := Option.some_inj.mp h
        exact .joinedEarly hcloser hp
      · rename_i hended
        obtain rfl := Option.some_inj.mp h
        exact .joined hcloser hother hended
      · exact absurd h (by simp)
  · rename_i caller hcloser
    split at h
    · rename_i hborrowed
      obtain rfl := Option.some_inj.mp h
      exact .refused hcloser hborrowed
    · rename_i hfree
      obtain rfl := Option.some_inj.mp h
      exact .dropped hcloser (by simpa using hfree)
  · exact absurd h (by simp)

/-! ### Events -/

/-- Nothing is lost on the way, and nothing is taken twice. -/
structure QueueOrdered (s : PySubscription α) : Prop where
  alive : s.registered = true → s.senderAlive = true
  drained : s.senderAlive = false → s.queue = []
  accepted : s.accepted = s.taken ++ s.chan ++ s.queue
  called : s.called.Sublist s.taken
  returned : s.returned.Sublist s.taken
  shared : s.taken.Perm (s.called ++ s.returned)

theorem queueOrdered_close (h : QueueOrdered s) (hclose : s.closeStep = some s') :
    QueueOrdered s' := by
  cases closeTaken_of_step hclose with
  | dropped => exact ⟨by simp, h.drained, h.accepted, h.called, h.returned, h.shared⟩
  | noWorker | flagged | joinedItself | joinedEarly | joined | refused =>
    exact ⟨h.alive, h.drained, h.accepted, h.called, h.returned, h.shared⟩

theorem queueOrdered_step (h : QueueOrdered s) (hstep : pyStep s a = some s') :
    QueueOrdered s' := by
  cases pyTaken_of_step hstep with
  | @accepted event hregistered =>
    refine ⟨h.alive, fun hgone => ?_, ?_, h.called, h.returned, h.shared⟩
    · exact absurd ((h.alive hregistered).symm.trans hgone) (by simp)
    · show s.accepted ++ [event] = _
      rw [h.accepted, List.append_assoc]
  | @forwarded event queue hqueue =>
    refine ⟨h.alive, fun hgone => ?_, ?_, h.called, h.returned, h.shared⟩
    · exact absurd (hqueue.symm.trans (h.drained hgone)) (List.cons_ne_nil _ _)
    · show s.accepted = s.taken ++ (s.chan ++ [event]) ++ queue
      rw [h.accepted, hqueue]
      simp
  | disconnected hregistered hqueue =>
    refine ⟨fun halive => ?_, fun _ => hqueue, h.accepted, h.called, h.returned, h.shared⟩
    exact absurd (hregistered.symm.trans halive) (by simp)
  | @woken w stopping =>
    rw [PySubscription.wakeWorker]
    cases hchan : s.chan with
    | nil =>
      refine ⟨h.alive, h.drained, ?_, h.called, h.returned, h.shared⟩
      exact h.accepted
    | cons event chan =>
      refine ⟨h.alive, h.drained, ?_, h.called.append_right [event],
        h.returned.trans (List.sublist_append_left _ _), ?_⟩
      · show s.accepted = s.taken ++ [event] ++ chan ++ s.queue
        rw [h.accepted, hchan]
        simp
      · show (s.taken ++ [event]).Perm (s.called ++ [event] ++ s.returned)
        have hswap : (s.returned ++ [event]).Perm ([event] ++ s.returned) := List.perm_append_comm
        refine (h.shared.append_right [event]).trans ?_
        rw [List.append_assoc, List.append_assoc]
        exact hswap.append_left s.called
  | nextWoken =>
    rw [PySubscription.wakeNext]
    cases hchan : s.chan with
    | nil =>
      have haccepted := h.accepted
      rw [hchan] at haccepted
      dsimp only
      split
      · exact ⟨h.alive, h.drained, haccepted, h.called, h.returned, h.shared⟩
      · exact ⟨h.alive, h.drained, haccepted, h.called, h.returned, h.shared⟩
    | cons event chan =>
      refine ⟨h.alive, h.drained, ?_, h.called.trans (List.sublist_append_left _ _),
        h.returned.append_right [event], ?_⟩
      · show s.accepted = s.taken ++ [event] ++ chan ++ s.queue
        rw [h.accepted, hchan]
        simp
      · show (s.taken ++ [event]).Perm (s.called ++ (s.returned ++ [event]))
        rw [← List.append_assoc]
        exact h.shared.append_right [event]
  | entered | started | startRaised | looped | callbackEnded | nextCalled | nextLooped | again
  | claimed =>
    exact ⟨h.alive, h.drained, h.accepted, h.called, h.returned, h.shared⟩
  | closed hclose => exact queueOrdered_close h hclose

/-- **Each event is taken once.**  Whoever takes them (workers, or threads in `next`), and however
they interleave with `unsubscribe`: the events are taken in the order in which the subscription
accepted them, each by one callback or by one call of `next`; when the channel is closed and
empty, all of them have been. -/
theorem python_events_in_order (hrun : run pyStep .init as = some s) :
    s.taken <+: s.accepted ∧ s.taken.Perm (s.called ++ s.returned) ∧ s.called.Sublist s.taken ∧
      s.returned.Sublist s.taken ∧
      (s.senderAlive = false → s.chan = [] → s.taken = s.accepted) := by
  have hinit : QueueOrdered (.init : PySubscription α) :=
    ⟨fun _ => rfl, by simp [PySubscription.init], rfl, .refl _, .refl _, .refl _⟩
  have h := run_invariant_all (fun _ _ _ => queueOrdered_step) hinit hrun
  refine ⟨?_, h.shared, h.called, h.returned, fun hgone hchan => ?_⟩
  · rw [h.accepted, List.append_assoc]
    exact List.prefix_append _ _
  · rw [h.accepted, hchan, h.drained hgone]
    simp

/-- A worker and a thread in `next` take an event each. -/
theorem python_events_in_order_shared : ∃ s : PySubscription ℕ, s.accepted = [1, 2] ∧
    s.called = [1] ∧ s.returned = [2] ∧ s.taken <+: s.accepted := by
  obtain ⟨s, hrun, haccepted, hcalled, hreturned⟩ : ∃ s : PySubscription ℕ,
      run pyStep .init [.enter, .start, .next, .accept 1, .accept 2, .forward, .loop 0, .wake 0,
        .nextWake, .forward, .nextLoop, .nextWake] = some s ∧
      s.accepted = [1, 2] ∧ s.called = [1] ∧ s.returned = [2] := ⟨_, rfl, rfl, rfl, rfl⟩
  exact ⟨s, haccepted, hcalled, hreturned, (python_events_in_order hrun).1⟩

/-! ### One worker -/

/-- The handle is used with a callback, as a context manager: there is one call of `__enter__` at
most, it is over before anybody calls `unsubscribe`, nobody asks for `next`, and the callback does
not unsubscribe. -/
def WithCallback (s : PySubscription α) : PyAction α → Prop
  | .enter => s.workers = [] ∧ s.unsubscribed = false
  | .next => False
  | .unsubscribe caller => caller = none ∧ s.entering = 0
  | _ => True

/-- What holds at the point where the call of `unsubscribe` is. -/
def AtPoint (registered : Bool) (workers : List (PyWorker α)) : Closer → Prop
  | .idle => True
  | .claimed caller => caller = none
  | .joining caller w => caller = none ∧ w = 0 ∧ ∃ point, workers = [⟨point, true⟩]
  | .stopped caller => caller = none ∧ ∀ p ∈ workers, p.point = .ended
  | .returned => registered = false ∧ ∀ p ∈ workers, p.point = .ended
  | .raised => False

/-- The handle knows its worker, or the worker has ended. -/
def OneWorker (workers : List (PyWorker α)) (worker : Option ℕ) : Prop :=
  workers = [] ∧ worker = none ∨
    ∃ p, workers = [p] ∧ (worker = some 0 ∨ worker = none ∧ p.point = .ended)

structure CallbackInv (s : PySubscription α) : Prop where
  noNext : s.nextWaiting = 0 ∧ s.nextLooping = 0
  fresh : s.unsubscribed = false → s.closer = .idle
  entered : s.unsubscribed = true → s.entering = 0
  started : s.entering = 0 → ∀ p ∈ s.workers, p.point ≠ .unstarted
  workers : OneWorker s.workers s.worker
  point : AtPoint s.registered s.workers s.closer

theorem OneWorker.eq_of_getElem? {workers : List (PyWorker α)} {worker : Option ℕ} {w : ℕ}
    {p : PyWorker α} (h : OneWorker workers worker) (hp : workers[w]? = some p) :
    w = 0 ∧ workers = [p] := by
  rcases h with ⟨rfl, -⟩ | ⟨q, rfl, -⟩
  · exact absurd hp (by simp)
  · cases w with
    | zero =>
      obtain rfl := Option.some_inj.mp hp
      exact ⟨rfl, rfl⟩
    | succ w => exact absurd hp (by simp)

/-- When `unsubscribe` has been called, every worker has been started. -/
theorem CallbackInv.running (h : CallbackInv s) (hbegun : s.closer ≠ .idle) {w : ℕ}
    {p : PyWorker α} (hp : s.workers[w]? = some p) : p.point ≠ .unstarted := by
  have hflag : s.unsubscribed = true := by
    by_contra hflag
    exact hbegun (h.fresh (by simpa using hflag))
  exact h.started (h.entered hflag) p (List.mem_of_getElem? hp)

/-- A worker that has not ended may move on. -/
theorem CallbackInv.setPoint (h : CallbackInv s) {w : ℕ} {p : PyWorker α} {point : WorkerPoint α}
    (hp : s.workers[w]? = some p) (hrunning : p.point ≠ .ended) (hpoint : point ≠ .unstarted) :
    CallbackInv (s.setPoint w p point) := by
  obtain ⟨rfl, hworkers⟩ := h.workers.eq_of_getElem? hp
  have hset : s.workers.set 0 { p with point := point } = [{ p with point := point }] := by
    rw [hworkers]
    rfl
  refine ⟨h.noNext, h.fresh, h.entered, fun _ q hq => ?_, ?_, ?_⟩
  · have hq : q ∈ s.workers.set 0 { p with point := point } := hq
    rw [hset] at hq
    obtain rfl := List.mem_singleton.mp hq
    exact hpoint
  · show OneWorker (s.workers.set 0 _) s.worker
    rw [hset]
    rcases h.workers with ⟨hnone, -⟩ | ⟨q, hq, hknown | ⟨-, hended⟩⟩
    · exact absurd (hworkers.symm.trans hnone) (List.cons_ne_nil _ _)
    · exact .inr ⟨_, rfl, .inl hknown⟩
    · obtain rfl := List.singleton_inj.mp (hq.symm.trans hworkers)
      exact absurd hended hrunning
  · show AtPoint s.registered (s.workers.set 0 _) s.closer
    have hpoint := h.point
    rw [hset]
    rw [hworkers] at hpoint
    cases hcloser : s.closer with
    | idle => trivial
    | claimed caller =>
      rw [hcloser] at hpoint
      exact hpoint
    | joining caller w =>
      rw [hcloser] at hpoint
      obtain ⟨hcaller, hw, point', hflag⟩ := hpoint
      obtain rfl := List.singleton_inj.mp hflag
      exact ⟨hcaller, hw, point, rfl⟩
    | stopped caller =>
      rw [hcloser] at hpoint
      exact absurd (hpoint.2 p (List.mem_singleton_self p)) hrunning
    | returned =>
      rw [hcloser] at hpoint
      exact absurd (hpoint.2 p (List.mem_singleton_self p)) hrunning
    | raised =>
      rw [hcloser] at hpoint
      exact hpoint

theorem callbackInv_close (h : CallbackInv s) (hclose : s.closeStep = some s') :
    CallbackInv s' := by
  have hpoint := h.point
  cases closeTaken_of_step hclose with
  | noWorker hcloser hworker =>
    rw [hcloser] at hpoint
    refine ⟨h.noNext, fun hflag => ?_, h.entered, h.started, h.workers, hpoint, fun p hp => ?_⟩
    · exact absurd (hcloser.symm.trans (h.fresh hflag)) (by simp)
    · rcases h.workers with ⟨hnone, -⟩ | ⟨q, hq, hknown | ⟨-, hended⟩⟩
      · exact absurd (hnone ▸ hp) List.not_mem_nil
      · exact absurd (hworker.symm.trans hknown) (by simp)
      · obtain rfl := List.mem_singleton.mp (hq ▸ hp)
        exact hended
  | @flagged caller w p hcloser hworker hp =>
    have hrunning := h.running (by rw [hcloser]; simp) hp
    rw [hcloser] at hpoint
    obtain ⟨rfl, hworkers⟩ := h.workers.eq_of_getElem? hp
    have hset : s.workers.set 0 { p with stopping := true } = [⟨p.point, true⟩] := by
      rw [hworkers]
      rfl
    refine ⟨h.noNext, fun hflag => ?_, h.entered, fun _ q hq => ?_, ?_, hpoint, rfl, p.point, hset⟩
    · exact absurd (hcloser.symm.trans (h.fresh hflag)) (by simp)
    · have hq : q ∈ s.workers.set 0 { p with stopping := true } := hq
      rw [hset] at hq
      obtain rfl := List.mem_singleton.mp hq
      exact hrunning
    · exact .inr ⟨_, hset, .inl hworker⟩
  | joinedItself hcloser =>
    rw [hcloser] at hpoint
    exact absurd hpoint.1 (by simp)
  | joinedEarly hcloser hp => exact absurd rfl (h.running (by rw [hcloser]; simp) hp)
  | @joined caller w stopping hcloser hother hended =>
    rw [hcloser] at hpoint
    obtain ⟨rfl, hworkers⟩ := h.workers.eq_of_getElem? hended
    refine ⟨h.noNext, fun hflag => ?_, h.entered, h.started, .inr ⟨_, hworkers, .inr ⟨rfl, rfl⟩⟩,
      hpoint.1, fun p hp => ?_⟩
    · exact absurd (hcloser.symm.trans (h.fresh hflag)) (by simp)
    · obtain rfl := List.mem_singleton.mp (hworkers ▸ hp)
      rfl
  | refused hcloser hborrowed =>
    rw [hcloser] at hpoint
    -- nobody waits any more
    rw [PySubscription.borrowed, h.noNext.1] at hborrowed
    obtain ⟨p, hp, hwaiting⟩ := List.any_eq_true.mp (by simpa using hborrowed)
    rw [hpoint.2 p hp] at hwaiting
    exact absurd hwaiting (by simp [WorkerPoint.isWaiting])
  | dropped hcloser =>
    rw [hcloser] at hpoint
    refine ⟨h.noNext, fun hflag => ?_, h.entered, h.started, h.workers, rfl, hpoint.2⟩
    exact absurd (hcloser.symm.trans (h.fresh hflag)) (by simp)

theorem callbackInv_step (h : CallbackInv s) (hallowed : WithCallback s a)
    (hstep : pyStep s a = some s') : CallbackInv s' := by
  cases pyTaken_of_step hstep with
  | accepted | forwarded | disconnected =>
    exact ⟨h.noNext, h.fresh, h.entered, h.started, h.workers, h.point⟩
  | entered =>
    obtain ⟨hworkers, hflag⟩ := hallowed
    refine ⟨h.noNext, h.fresh, fun hflag' => ?_, nofun, .inr ⟨⟨.unstarted, false⟩, ?_, .inl ?_⟩, ?_⟩
    · exact absurd (hflag.symm.trans hflag') (by simp)
    · rw [hworkers]
      rfl
    · rw [hworkers]
      rfl
    · rw [h.fresh hflag]
      trivial
  | started hentering hworker hp =>
    have hset := @CallbackInv.setPoint _ _ h _ _ .looping hp (by simp) (by simp)
    refine ⟨hset.noNext, hset.fresh, fun hflag => ?_, fun _ q hq => ?_, hset.workers, hset.point⟩
    · exact absurd (h.entered hflag) hentering
    · obtain ⟨rfl, hworkers⟩ := h.workers.eq_of_getElem? hp
      have hq : q ∈ s.workers.set 0 ⟨.looping, _⟩ := hq
      rw [hworkers] at hq
      obtain rfl := List.mem_singleton.mp hq
      simp
  | startRaised hentering hnone =>
    refine ⟨h.noNext, h.fresh, fun hflag => ?_, fun _ q hq => ?_, h.workers, h.point⟩
    · exact absurd (h.entered hflag) hentering
    · rcases h.workers with ⟨hworkers, -⟩ | ⟨p, hworkers, hworker | ⟨-, hended⟩⟩
      · exact absurd (hworkers ▸ hq : q ∈ []) List.not_mem_nil
      · obtain rfl := List.mem_singleton.mp (hworkers ▸ hq : q ∈ [p])
        rintro hpoint
        refine hnone 0 q.stopping hworker ?_
        rw [hworkers, ← hpoint]
        rfl
      · obtain rfl := List.mem_singleton.mp (hworkers ▸ hq : q ∈ [p])
        rw [hended]
        simp
  | @looped w stopping hworker => exact h.setPoint hworker (by simp) (by cases stopping <;> simp)
  | woken hworker =>
    rw [PySubscription.wakeWorker]
    split
    · rename_i event _ _
      have hset := @CallbackInv.setPoint _ _ h _ _ (.calling event) hworker (by simp) (by simp)
      exact ⟨hset.noNext, hset.fresh, hset.entered, hset.started, hset.workers, hset.point⟩
    · exact h.setPoint hworker (by simp) (by split <;> simp)
  | @callbackEnded w event stopping raises hworker =>
    exact h.setPoint hworker (by simp) (by cases raises <;> simp)
  | nextCalled => exact absurd hallowed (by simp [WithCallback])
  | nextWoken hwaiting => exact absurd h.noNext.1 hwaiting
  | nextLooped hlooping => exact absurd h.noNext.2 hlooping
  | again => exact h
  | claimed =>
    obtain ⟨rfl, hentering⟩ := hallowed
    exact ⟨h.noNext, by simp, fun _ => hentering, h.started, h.workers, rfl⟩
  | closed hclose => exact callbackInv_close h hclose

theorem callbackInv_init : CallbackInv (.init : PySubscription α) :=
  ⟨⟨rfl, rfl⟩, fun _ => rfl, fun _ => rfl, by simp [PySubscription.init], .inl ⟨rfl, rfl⟩, trivial⟩

/-- The worker has been asked to stop, if there is one. -/
def Closer.asked : Closer → Bool
  | .idle | .claimed _ => false
  | _ => true

/-- The callbacks that may still begin when the worker has been asked to stop. -/
def PySubscription.due (s : PySubscription α) : ℕ := s.workers.countP fun p => p.point.isWaiting

theorem CallbackInv.due_setPoint (h : CallbackInv s) {w : ℕ} {p : PyWorker α}
    (hp : s.workers[w]? = some p) (point : WorkerPoint α) :
    s.due = (if p.point.isWaiting then 1 else 0) ∧
      (s.setPoint w p point).due = if point.isWaiting then 1 else 0 := by
  obtain ⟨rfl, hworkers⟩ := h.workers.eq_of_getElem? hp
  refine ⟨?_, ?_⟩
  · rw [PySubscription.due, hworkers, List.countP_singleton]
  · show List.countP _ (s.workers.set 0 _) = _
    rw [hworkers]
    exact List.countP_singleton

/-- A worker that has been asked to stop and still runs has its flag set. -/
theorem CallbackInv.stopping (h : CallbackInv s) (hasked : s.closer.asked = true) {w : ℕ}
    {p : PyWorker α} (hp : s.workers[w]? = some p) (hrunning : p.point ≠ .ended) :
    p.stopping = true := by
  obtain ⟨-, hworkers⟩ := h.workers.eq_of_getElem? hp
  have hpoint := h.point
  rw [hworkers] at hpoint
  cases hcloser : s.closer with
  | idle | claimed =>
    rw [hcloser] at hasked
    exact absurd hasked (by simp [Closer.asked])
  | joining caller w =>
    rw [hcloser] at hpoint
    obtain ⟨-, -, point, hflag⟩ := hpoint
    obtain rfl := List.singleton_inj.mp hflag
    rfl
  | stopped | returned =>
    rw [hcloser] at hpoint
    exact absurd (hpoint.2 p (List.mem_singleton_self p)) hrunning
  | raised =>
    rw [hcloser] at hpoint
    exact hpoint.elim

/-- What holds from the time on that the worker has been asked to stop, with the callbacks that
had begun by then. -/
structure Stopping (begun : List α) (room : ℕ) (s : PySubscription α) : Prop where
  inv : CallbackInv s
  asked : s.closer.asked = true
  prefix_called : begun <+: s.called
  few : s.called.length + s.due ≤ begun.length + room

theorem stopping_close {begun : List α} {room : ℕ} (h : Stopping begun room s)
    (hinv : CallbackInv s') (hclose : s.closeStep = some s') : Stopping begun room s' := by
  cases closeTaken_of_step hclose with
  | noWorker hcloser | flagged hcloser =>
    have hasked := h.asked
    rw [hcloser] at hasked
    exact absurd hasked (by simp [Closer.asked])
  | joinedItself | joinedEarly | joined | refused | dropped =>
    exact ⟨hinv, rfl, h.prefix_called, h.few⟩

theorem stopping_step {begun : List α} {room : ℕ} (h : Stopping begun room s)
    (hallowed : WithCallback s a) (hstep : pyStep s a = some s') : Stopping begun room s' := by
  have hinv := callbackInv_step h.inv hallowed hstep
  have hfew := h.few
  have hflag : s.unsubscribed = true := by
    by_contra hflag
    have hasked := h.asked
    rw [h.inv.fresh (by simpa using hflag)] at hasked
    exact absurd hasked (by simp [Closer.asked])
  cases pyTaken_of_step hstep with
  | accepted | forwarded | disconnected | again =>
    exact ⟨hinv, h.asked, h.prefix_called, h.few⟩
  | entered => exact absurd (hflag.symm.trans hallowed.2) (by simp)
  | started hentering | startRaised hentering => exact absurd (h.inv.entered hflag) hentering
  | claimed hfresh => exact absurd (hflag.symm.trans hfresh) (by simp)
  | @looped w stopping hworker =>
    -- with its flag set it does not wait again
    obtain rfl := h.inv.stopping h.asked hworker (by simp)
    refine ⟨hinv, h.asked, h.prefix_called, ?_⟩
    have hdue := (h.inv.due_setPoint hworker .ended).2
    show s.called.length + PySubscription.due _ ≤ _
    rw [if_pos rfl, hdue]
    simp only [WorkerPoint.isWaiting, Bool.false_eq_true, if_false]
    omega
  | @woken w stopping hworker =>
    have hdue := (h.inv.due_setPoint hworker .looping).1
    simp only [WorkerPoint.isWaiting, if_true] at hdue
    rw [PySubscription.wakeWorker] at hinv ⊢
    split at hinv
    · rename_i event _ _
      refine ⟨hinv, h.asked, h.prefix_called.trans (List.prefix_append _ _), ?_⟩
      have hdue' := (h.inv.due_setPoint hworker (.calling event)).2
      show (s.called ++ [event]).length + PySubscription.due (s.setPoint _ _ _) ≤ _
      rw [List.length_append, List.length_singleton, hdue']
      simp only [WorkerPoint.isWaiting, Bool.false_eq_true, if_false]
      omega
    · refine ⟨hinv, h.asked, h.prefix_called, ?_⟩
      show s.called.length + PySubscription.due _ ≤ _
      rw [(h.inv.due_setPoint hworker _).2, if_neg]
      · omega
      · cases s.senderAlive <;> simp [WorkerPoint.isWaiting]
  | @callbackEnded w event stopping raises hworker =>
    refine ⟨hinv, h.asked, h.prefix_called, ?_⟩
    show s.called.length + PySubscription.due _ ≤ _
    rw [(h.inv.due_setPoint hworker _).2, if_neg]
    · omega
    · cases raises <;> simp [WorkerPoint.isWaiting]
  | nextCalled => exact absurd hallowed (by simp [WithCallback])
  | nextWoken hwaiting => exact absurd h.inv.noNext.1 hwaiting
  | nextLooped hlooping => exact absurd h.inv.noNext.2 hlooping
  | closed hclose => exact stopping_close h hinv hclose

/-- Only calls of `unsubscribe` change where they are and what is registered. -/
theorem frame_step (hstep : pyStep s a = some s') :
    s'.unsubscribed = s.unsubscribed ∧ s'.closer = s.closer ∧ s'.registered = s.registered ∨
      a = .close ∧ CloseTaken s s' ∨
      s.unsubscribed = false ∧ ∃ caller, s' =
        { s with unsubscribed := true, closer := .claimed caller } := by
  cases pyTaken_of_step hstep with
  | claimed hflag => exact .inr (.inr ⟨hflag, _, rfl⟩)
  | closed hclose => exact .inr (.inl ⟨rfl, closeTaken_of_step hclose⟩)
  | woken =>
    rw [PySubscription.wakeWorker]
    split <;> exact .inl ⟨rfl, rfl, rfl⟩
  | nextWoken =>
    rw [PySubscription.wakeNext]
    split
    · exact .inl ⟨rfl, rfl, rfl⟩
    · split <;> exact .inl ⟨rfl, rfl, rfl⟩
  | accepted | forwarded | disconnected | entered | started | startRaised | looped | callbackEnded
  | nextCalled | nextLooped | again => exact .inl ⟨rfl, rfl, rfl⟩

/-- What holds in every run: only the first call of `unsubscribe` does anything, and only by
returning. -/
structure Opened (s : PySubscription α) : Prop where
  fresh : s.unsubscribed = false → s.closer = .idle
  kept : s.closer ≠ .returned → s.registered = true

theorem opened_step (h : Opened s) (hstep : pyStep s a = some s') : Opened s' := by
  rcases frame_step hstep with ⟨hflag, hcloser, hkept⟩ | ⟨-, htaken⟩ | ⟨hflag, caller, rfl⟩
  · refine ⟨fun hfresh => ?_, fun hopen => ?_⟩
    · rw [hcloser]
      exact h.fresh (hflag ▸ hfresh)
    · rw [hkept]
      exact h.kept (hcloser ▸ hopen)
  · cases htaken with
    | dropped hcloser =>
      exact ⟨fun hfresh => absurd (hcloser.symm.trans (h.fresh hfresh)) (by simp),
        fun hopen => absurd rfl hopen⟩
    | noWorker hcloser | flagged hcloser | joinedItself hcloser | joinedEarly hcloser
    | joined hcloser | refused hcloser =>
      exact ⟨fun hfresh => absurd (hcloser.symm.trans (h.fresh hfresh)) (by simp),
        fun _ => h.kept (by rw [hcloser]; simp)⟩
  · exact ⟨by simp, fun _ => h.kept (by rw [h.fresh hflag]; simp)⟩

theorem opened_run (hrun : run pyStep .init as = some s) : Opened s :=
  run_invariant_all (fun _ _ _ => opened_step) ⟨fun _ => rfl, fun _ => rfl⟩ hrun

/-- A call that is over stays as it is. -/
theorem settled_step (hopened : Opened s) (h : s.closer = .returned ∨ s.closer = .raised)
    (hstep : pyStep s a = some s') : s'.closer = s.closer := by
  rcases frame_step hstep with ⟨-, hcloser, -⟩ | ⟨-, htaken⟩ | ⟨hflag, -⟩
  · exact hcloser
  · cases htaken with
    | noWorker hother | flagged hother | joinedItself hother | joinedEarly hother | joined hother
    | refused hother | dropped hother =>
      rw [hother] at h
      simp at h
  · rw [hopened.fresh hflag] at h
    simp at h

theorem settled_run (hopened : Opened s) (h : s.closer = .returned ∨ s.closer = .raised)
    (hrun : run pyStep s cs = some s') : s'.closer = s.closer := by
  refine (run_invariant_all (I := fun t => Opened t ∧ t.closer = s.closer)
    (fun t _ t' ht hstep => ?_) ⟨hopened, rfl⟩ hrun).2
  exact ⟨opened_step ht.1 hstep, (settled_step ht.1 (ht.2 ▸ h) hstep).trans ht.2⟩

/-- The worker and the call of `unsubscribe` move on. -/
def PyAction.moves : PyAction α → Bool
  | .loop _ | .wake _ | .callbackEnds _ _ | .close => true
  | _ => false

theorem callbackInv_moves (h : CallbackInv s) (hstep : pyStep s a = some s')
    (ha : a.moves = true) : CallbackInv s' := by
  refine callbackInv_step h ?_ hstep
  cases a with
  | loop | wake | callbackEnds | close => trivial
  | _ => exact absurd ha (by simp [PyAction.moves])

/-- The call of `unsubscribe` can return, without anything else happening. -/
def Finishes (s : PySubscription α) : Prop :=
  ∃ cs t, (∀ a ∈ cs, a.moves = true) ∧ run pyStep s cs = some t ∧ t.closer = .returned

theorem finishes_cons (ha : a.moves = true) (hstep : pyStep s a = some s') (h : Finishes s') :
    Finishes s := by
  obtain ⟨cs, t, hcs, hrun, hreturned⟩ := h
  exact ⟨a :: cs, t, List.forall_mem_cons.mpr ⟨ha, hcs⟩, run_cons.mpr ⟨s', hstep, hrun⟩, hreturned⟩

theorem finishes_of_stopped {caller : Option ℕ} (h : CallbackInv s)
    (hcloser : s.closer = .stopped caller) : Finishes s := by
  have hstep : ∃ t, pyStep s .close = some t := by
    rw [pyStep, PySubscription.closeStep, hcloser]
    dsimp only
    split <;> exact ⟨_, rfl⟩
  obtain ⟨t, ht⟩ := hstep
  have hinv := callbackInv_moves h ht rfl
  refine finishes_cons rfl ht ⟨[], t, by simp, rfl, ?_⟩
  cases closeTaken_of_step ht with
  | dropped => rfl
  | refused => exact hinv.point.elim
  | noWorker hother | flagged hother | joinedItself hother | joinedEarly hother | joined hother =>
    exact absurd (hcloser.symm.trans hother) (by simp)

theorem finishes_of_ended {stopping : Bool} {w : ℕ} (h : CallbackInv s)
    (hcloser : s.closer = .joining none w) (hworker : s.workers[w]? = some ⟨.ended, stopping⟩) :
    Finishes s := by
  have hstep : pyStep s .close = some { s with worker := none, closer := .stopped none } := by
    rw [pyStep, PySubscription.closeStep, hcloser]
    dsimp only
    rw [if_neg (by simp), hworker]
  exact finishes_cons rfl hstep (finishes_of_stopped (callbackInv_moves h hstep rfl) rfl)

theorem getElem?_setPoint {w : ℕ} {p : PyWorker α} {point : WorkerPoint α}
    (hp : s.workers[w]? = some p) :
    (s.setPoint w p point).workers[w]? = some { p with point := point } := by
  show (s.workers.set w _)[w]? = _
  have hlt := (List.getElem?_eq_some_iff.mp hp).1
  rw [List.getElem?_set_self hlt]

theorem finishes_of_looping {stopping : Bool} {w : ℕ} (h : CallbackInv s)
    (hcloser : s.closer = .joining none w)
    (hworker : s.workers[w]? = some ⟨.looping, stopping⟩) : Finishes s := by
  have hasked : s.closer.asked = true := by
    rw [hcloser]
    rfl
  obtain rfl := h.stopping hasked hworker (by simp)
  have hstep : pyStep s (.loop w) = some (s.setPoint w ⟨.looping, true⟩ .ended) := by
    rw [pyStep, hworker]
    rfl
  exact finishes_cons rfl hstep (finishes_of_ended (callbackInv_moves h hstep rfl) hcloser
    (getElem?_setPoint hworker))

theorem finishes_of_calling {event : α} {stopping : Bool} {w : ℕ} (h : CallbackInv s)
    (hcloser : s.closer = .joining none w)
    (hworker : s.workers[w]? = some ⟨.calling event, stopping⟩) : Finishes s := by
  have hstep : pyStep s (.callbackEnds w false) =
      some (s.setPoint w ⟨.calling event, stopping⟩ .looping) := by
    rw [pyStep, hworker, hcloser]
    rfl
  exact finishes_cons rfl hstep (finishes_of_looping (callbackInv_moves h hstep rfl) hcloser
    (getElem?_setPoint hworker))

theorem finishes_of_waiting {stopping : Bool} {w : ℕ} (h : CallbackInv s)
    (hcloser : s.closer = .joining none w)
    (hworker : s.workers[w]? = some ⟨.waiting, stopping⟩) : Finishes s := by
  have hstep : pyStep s (.wake w) = some (s.wakeWorker w ⟨.waiting, stopping⟩) := by
    rw [pyStep, hworker]
  have hinv := callbackInv_moves h hstep rfl
  refine finishes_cons rfl hstep ?_
  rw [PySubscription.wakeWorker] at hinv ⊢
  cases hchan : s.chan with
  | cons event chan =>
    rw [hchan] at hinv
    exact finishes_of_calling hinv hcloser (getElem?_setPoint hworker)
  | nil =>
    rw [hchan] at hinv
    cases halive : s.senderAlive with
    | true =>
      rw [halive] at hinv
      exact finishes_of_looping hinv hcloser (getElem?_setPoint hworker)
    | false =>
      rw [halive] at hinv
      exact finishes_of_ended hinv hcloser (getElem?_setPoint hworker)

theorem finishes_of_joining {w : ℕ} (h : CallbackInv s) (hcloser : s.closer = .joining none w) :
    Finishes s := by
  have hpoint := h.point
  rw [hcloser] at hpoint
  obtain ⟨-, rfl, point, hworkers⟩ := hpoint
  have hworker : s.workers[0]? = some ⟨point, true⟩ := by
    rw [hworkers]
    rfl
  cases point with
  | unstarted => exact absurd rfl (h.running (by rw [hcloser]; simp) hworker)
  | looping => exact finishes_of_looping h hcloser hworker
  | waiting => exact finishes_of_waiting h hcloser hworker
  | calling event => exact finishes_of_calling h hcloser hworker
  | ended => exact finishes_of_ended h hcloser hworker

theorem finishes_of_claimed (h : CallbackInv s) (hcloser : s.closer = .claimed none) :
    Finishes s := by
  rcases h.workers with ⟨-, hworker⟩ | ⟨p, hworkers, hworker | ⟨hworker, -⟩⟩
  · have hstep : pyStep s .close = some { s with closer := .stopped none } := by
      rw [pyStep, PySubscription.closeStep, hcloser, hworker]
    exact finishes_cons rfl hstep (finishes_of_stopped (callbackInv_moves h hstep rfl) rfl)
  · have hp : s.workers[0]? = some p := by
      rw [hworkers]
      rfl
    have hstep : pyStep s .close = some { s with
        workers := s.workers.set 0 { p with stopping := true }
        closer := .joining none 0 } := by
      rw [pyStep, PySubscription.closeStep, hcloser, hworker]
      dsimp only
      rw [hp]
    exact finishes_cons rfl hstep (finishes_of_joining (callbackInv_moves h hstep rfl) rfl)
  · have hstep : pyStep s .close = some { s with closer := .stopped none } := by
      rw [pyStep, PySubscription.closeStep, hcloser, hworker]
    exact finishes_cons rfl hstep (finishes_of_stopped (callbackInv_moves h hstep rfl) rfl)

/-- A call of `unsubscribe` that has begun can return. -/
theorem CallbackInv.finishes (h : CallbackInv s) (hbegun : s.closer ≠ .idle) : Finishes s := by
  have hpoint := h.point
  cases hcloser : s.closer with
  | idle => exact absurd hcloser hbegun
  | claimed caller =>
    rw [hcloser] at hpoint
    obtain rfl : caller = none := hpoint
    exact finishes_of_claimed h hcloser
  | joining caller w =>
    rw [hcloser] at hpoint
    obtain ⟨rfl, -⟩ := hpoint
    exact finishes_of_joining h hcloser
  | stopped caller => exact finishes_of_stopped h hcloser
  | returned => exact ⟨[], s, by simp, rfl, hcloser⟩
  | raised =>
    rw [hcloser] at hpoint
    exact hpoint.elim

theorem CallbackInv.due_le (h : CallbackInv s) : s.due ≤ 1 := by
  have hle : s.due ≤ s.workers.length := List.countP_le_length
  rcases h.workers with ⟨hworkers, -⟩ | ⟨p, hworkers, -⟩
  · rw [hworkers] at hle
    exact Nat.le_succ_of_le hle
  · rw [hworkers] at hle
    exact hle

/-- **`unsubscribe` stops the worker.**  In every run in which the handle is used with a callback:
from the time on that the worker has been asked to stop, one more callback begins at most; when
`unsubscribe` has returned, the subscription is gone and no callback begins any more; it never
raises, and it can return whenever it has begun. -/
theorem python_unsubscribe_stops
    (halong : Along pyStep WithCallback (.init : PySubscription α) (as ++ cs))
    (hrun : run pyStep .init as = some s) (hrun' : run pyStep s cs = some s') :
    (s.closer.asked = true →
      s.called <+: s'.called ∧ s'.called.length ≤ s.called.length + 1) ∧
    (s.closer = .returned → s'.called = s.called ∧ s'.registered = false) ∧
    (s'.closer ≠ .idle → s'.closer ≠ .raised ∧ Finishes s') := by
  have hinv : CallbackInv s := run_invariant (fun _ _ _ => callbackInv_step) callbackInv_init
    halong.left hrun
  have hcs := halong.right hrun
  have hinv' : CallbackInv s' := run_invariant (fun _ _ _ => callbackInv_step) hinv hcs hrun'
  have hstops : ∀ room, s.closer.asked = true → s.due ≤ room → Stopping s.called room s' :=
    fun room hasked hroom => run_invariant (fun _ _ _ => stopping_step)
      ⟨hinv, hasked, List.prefix_rfl, Nat.add_le_add_left hroom _⟩ hcs hrun'
  refine ⟨fun hasked => ?_, fun hreturned => ?_, fun hbegun => ⟨fun hraised => ?_, ?_⟩⟩
  · have h := hstops 1 hasked hinv.due_le
    have := h.few
    exact ⟨h.prefix_called, by omega⟩
  · have hpoint := hinv.point
    rw [hreturned] at hpoint
    have hnone : s.due = 0 := by
      refine List.countP_eq_zero.mpr fun p hp => ?_
      rw [hpoint.2 p hp]
      simp [WorkerPoint.isWaiting]
    have h := hstops 0 (by rw [hreturned]; rfl) (Nat.le_of_eq hnone)
    have hfew := h.few
    have hpoint' := hinv'.point
    rw [settled_run (opened_run hrun) (.inl hreturned) hrun', hreturned] at hpoint'
    exact ⟨(h.prefix_called.eq_of_length_le (by omega)).symm, hpoint'.1⟩
  · have hpoint := hinv'.point
    rw [hraised] at hpoint
    exact hpoint
  · exact hinv'.finishes hbegun

/-- The worker waits for an event when it is asked to stop, and gets one more. -/
theorem python_unsubscribe_stops_waiting : ∃ s s' : PySubscription ℕ, s.called = [] ∧
    s'.called.length ≤ 1 ∧ s'.called = [1] ∧ s'.closer ≠ .raised := by
  have halong : Along pyStep WithCallback (.init : PySubscription ℕ)
      ([.enter, .start, .loop 0, .unsubscribe none, .close, .accept 1, .forward] ++
        [.wake 0, .callbackEnds 0 false, .loop 0, .close, .close]) := by
    refine along_cons ⟨rfl, rfl⟩ rfl (along_cons trivial rfl (along_cons trivial rfl ?_))
    refine along_cons ⟨rfl, rfl⟩ rfl (along_cons trivial rfl (along_cons trivial rfl ?_))
    refine along_cons trivial rfl (along_cons trivial rfl (along_cons trivial rfl ?_))
    exact along_cons trivial rfl (along_cons trivial rfl (along_cons trivial rfl trivial))
  obtain ⟨s, s', hrun, hcalled, hasked, hrun', hcalled', hbegun⟩ : ∃ s s' : PySubscription ℕ,
      run pyStep .init
        [.enter, .start, .loop 0, .unsubscribe none, .close, .accept 1, .forward] = some s ∧
      s.called = [] ∧ s.closer.asked = true ∧
      run pyStep s [.wake 0, .callbackEnds 0 false, .loop 0, .close, .close] = some s' ∧
      s'.called = [1] ∧ s'.closer ≠ .idle := ⟨_, _, rfl, rfl, rfl, rfl, rfl, nofun⟩
  obtain ⟨hfew, -, hends⟩ := python_unsubscribe_stops halong hrun hrun'
  have hle := (hfew hasked).2
  rw [hcalled] at hle
  exact ⟨s, s', hcalled, hle, hcalled', (hends hbegun).1⟩

/-! ### Calls that raise -/

end Steps

end Fossic
