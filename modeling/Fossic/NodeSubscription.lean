/-
A subscription of the Node binding.

An event goes from the handler of the store's subscription into a bounded queue
(`ChannelHandler`), from there, on a thread of its own (`dispatcher_loop`), to a callback,
and from the callback, on the event loop of JavaScript, to whoever awaits `next()` or into a
buffer.  The wrapper of `index.js` keeps one callback registered at a time: its `_pump` asks
for the next event when it has dealt with the last one.

* `node_subscription_yields` — what `next()` returns, whatever is interleaved with what;
* `node_subscription_settles` — nothing that was accepted is stuck, and no promise stays open.
-/
import Fossic.BoundedChannel
import Fossic.Transition
import Mathlib.Algebra.GroupWithZero.Nat

namespace Fossic

open BoundedChannel Transition

variable {α : Type}

/-! ### The parties -/

/-- Where the thread of `dispatcher_loop` is. -/
inductive LoopPoint (α : Type)
  /-- in `pending_rx.recv()` -/
  | idle
  /-- it has a callback and comes to the first `closed.load` -/
  | claimed
  /-- at the top of the inner loop, before its `closed.load` -/
  | polling
  /-- in `rx.recv_timeout` -/
  | waiting
  /-- before `tsfn.call` -/
  | answering (event : Option α)
  /-- in `pending_rx.try_recv` -/
  | draining
  /-- out of the loop; its ends of the two channels are still there -/
  | leaving
  | gone
  deriving DecidableEq

/-- The thread as the queue's receiver. -/
def LoopPoint.receiver : LoopPoint α → Receiver
  | .waiting => .waiting
  | .gone => .gone
  | _ => .busy

/-- The event that the thread has in hand. -/
def LoopPoint.event : LoopPoint α → List α
  | .answering event => event.toList
  | _ => []

/-- The number of callbacks that the thread has in hand. -/
def LoopPoint.holds : LoopPoint α → ℕ
  | .claimed | .polling | .waiting | .answering _ => 1
  | _ => 0

/-- `FossicSubscription`, native and wrapper.  The promises that `next()` returns are numbered
from 0 on; one that is rejected gets no number. -/
structure NodeSubscription (α : Type) where
  queueSize : ℕ
  /-- `tx` of the handler has not been dropped. -/
  senderAlive : Bool
  /-- between `tx` and `rx` -/
  queue : List α
  loop : LoopPoint α
  /-- callbacks between `pending_tx` and `pending_rx` -/
  pending : ℕ
  nativeClosed : Bool
  /-- callbacks that the event loop has yet to run -/
  calls : List (Option α)
  buffer : List α
  /-- `_pending`: the promise whose `resolve` is kept -/
  awaited : Option ℕ
  closed : Bool
  /-- history: what the handler was given, and what of it the queue took -/
  offered : List α
  accepted : List α
  /-- history: how many promises there are, and those that are resolved, in that order -/
  asked : ℕ
  settled : List (ℕ × Option α)

namespace NodeSubscription

variable {s s' : NodeSubscription α} {e : α} {x : Option α}

/-! ### The handler and the thread -/

def channel (s : NodeSubscription α) : Channel α := ⟨s.queueSize, s.queue, s.loop.receiver⟩

/-- `ChannelHandler::on_event`: the result of `try_send` is not looked at. -/
def onEvent (e : α) (s : NodeSubscription α) : NodeSubscription α :=
  match s.channel.trySend e with
  | (channel, .sent) =>
    { s with
      queue := channel.buf
      -- without a buffer the event goes straight to the thread that waits for it
      loop := if s.queueSize = 0 then .answering (some e) else s.loop
      offered := s.offered ++ [e]
      accepted := s.accepted ++ [e] }
  | (_, _) => { s with offered := s.offered ++ [e] }

/-- The queue would take an event: it has room, or the thread is there to take it. -/
def HasRoom (s : NodeSubscription α) : Prop :=
  s.loop ≠ .gone ∧ if s.queueSize = 0 then s.loop = .waiting else s.queue.length < s.queueSize

/-- One step of `dispatcher_loop`, but for a timeout. -/
def dispatcherLoop (s : NodeSubscription α) : Option (NodeSubscription α) :=
  match s.loop with
  | .idle =>
    if s.pending = 0 then none else some { s with pending := s.pending - 1, loop := .claimed }
  | .claimed =>
    some (if s.nativeClosed then { s with calls := s.calls ++ [none], loop := .idle }
      else { s with loop := .polling })
  | .polling => some { s with loop := if s.nativeClosed then .answering none else .waiting }
  | .waiting =>
    match s.queue with
    | e :: queue => some { s with queue := queue, loop := .answering (some e) }
    | [] => if s.senderAlive then none else some { s with loop := .answering none }
  | .answering event =>
    some { s with
      calls := s.calls ++ [event]
      loop := if event.isNone then .draining else .idle }
  | .draining =>
    some (if s.pending = 0 then { s with loop := .leaving }
      else { s with pending := s.pending - 1, calls := s.calls ++ [none] })
  | .leaving => some { s with loop := .gone, queue := [] }
  | .gone => none

/-- `recv_timeout` returns without an event. -/
def timeout (s : NodeSubscription α) : Option (NodeSubscription α) :=
  match s.loop, s.queue, s.senderAlive with
  | .waiting, [], true => some { s with loop := .polling }
  | _, _, _ => none

/-- `raw_next`: register the callback, or run it with nothing if the subscription is closed. -/
def rawNext (s : NodeSubscription α) : NodeSubscription α :=
  if s.nativeClosed then { s with calls := s.calls ++ [none] }
  else
    match s.loop with
    -- the send fails, and the callback is dropped
    | .gone => s
    | _ => { s with pending := s.pending + 1 }

/-! ### The wrapper -/

def pump (s : NodeSubscription α) : NodeSubscription α := if s.closed then s else s.rawNext

/-- Resolve the promise that is awaited, if there is one. -/
def resolve (x : Option α) (s : NodeSubscription α) : NodeSubscription α :=
  match s.awaited with
  | some n => { s with awaited := none, settled := s.settled ++ [(n, x)] }
  | none => s

/-- What `_pump` registers. -/
def callback (event : Option α) (s : NodeSubscription α) : NodeSubscription α :=
  if s.closed then s
  else
    match event with
    | none => { s with closed := true }.resolve none
    | some e =>
      match s.awaited with
      | some _ => (s.resolve (some e)).pump
      | none => { s with buffer := s.buffer ++ [e] }.pump

/-- `next()`: while one promise is open, the next one is rejected at once. -/
def next (s : NodeSubscription α) : NodeSubscription α :=
  match s.awaited, s.buffer with
  | some _, _ => s
  | none, e :: buffer =>
    { s with buffer := buffer, asked := s.asked + 1, settled := s.settled ++ [(s.asked, some e)] }
  | none, [] =>
    if s.closed then { s with asked := s.asked + 1, settled := s.settled ++ [(s.asked, none)] }
    else { s with asked := s.asked + 1, awaited := some s.asked }

def unsubscribe (s : NodeSubscription α) : NodeSubscription α :=
  if s.closed then s else { s with closed := true, nativeClosed := true }.resolve none

/-- As `Store.subscribe` returns it. -/
def subscribed (queueSize : ℕ) : NodeSubscription α :=
  pump ⟨queueSize, true, [], .idle, 0, false, [], [], none, false, [], [], 0, []⟩

end NodeSubscription

/-! ### Interleavings -/

/-- Steps of the store's handler thread (`onEvent`, `hangUp`), of the thread of
`dispatcher_loop` and of the event loop. -/
inductive NodeAction (α : Type)
  | onEvent (e : α)
  | hangUp
  | dispatcherLoop
  | timeout
  | callback
  | next
  | unsubscribe

def nodeStep (s : NodeSubscription α) : NodeAction α → Option (NodeSubscription α)
  | .onEvent e => if s.senderAlive then some (s.onEvent e) else none
  | .hangUp => some { s with senderAlive := false }
  | .dispatcherLoop => s.dispatcherLoop
  | .timeout => s.timeout
  | .callback =>
    match s.calls with
    | [] => none
    | event :: calls => some ({ s with calls := calls }.callback event)
  | .next => some s.next
  | .unsubscribe => some s.unsubscribe

/-- The events among the results of `next()`. -/
def NodeSubscription.yielded (s : NodeSubscription α) : List α := s.settled.filterMap Prod.snd

variable {s s' : NodeSubscription α} {a : NodeAction α}

/-- What a step changes, and when it is taken. -/
inductive NodeTaken (s : NodeSubscription α) : NodeAction α → NodeSubscription α → Prop
  | refused {e : α} (halive : s.senderAlive = true) (hfull : ¬s.HasRoom) :
      NodeTaken s (.onEvent e) { s with offered := s.offered ++ [e] }
  | handed {e : α} (halive : s.senderAlive = true) (hsize : s.queueSize = 0)
      (hloop : s.loop = .waiting) :
      NodeTaken s (.onEvent e)
        { s with
          loop := .answering (some e)
          offered := s.offered ++ [e]
          accepted := s.accepted ++ [e] }
  | queued {e : α} (halive : s.senderAlive = true) (hroom : s.queue.length < s.queueSize)
      (hloop : s.loop ≠ .gone) :
      NodeTaken s (.onEvent e)
        { s with
          queue := s.queue ++ [e]
          offered := s.offered ++ [e]
          accepted := s.accepted ++ [e] }
  | hungUp : NodeTaken s .hangUp { s with senderAlive := false }
  | claimed {n : ℕ} (hloop : s.loop = .idle) (hpending : s.pending = n + 1) :
      NodeTaken s .dispatcherLoop { s with pending := n, loop := .claimed }
  | returned (hloop : s.loop = .claimed) (hnative : s.nativeClosed = true) :
      NodeTaken s .dispatcherLoop { s with calls := s.calls ++ [none], loop := .idle }
  | started (hloop : s.loop = .claimed) (hnative : s.nativeClosed = false) :
      NodeTaken s .dispatcherLoop { s with loop := .polling }
  | shut (hloop : s.loop = .polling) (hnative : s.nativeClosed = true) :
      NodeTaken s .dispatcherLoop { s with loop := .answering none }
  | polled (hloop : s.loop = .polling) (hnative : s.nativeClosed = false) :
      NodeTaken s .dispatcherLoop { s with loop := .waiting }
  | received {e : α} {queue : List α} (hloop : s.loop = .waiting) (hqueue : s.queue = e :: queue) :
      NodeTaken s .dispatcherLoop { s with queue := queue, loop := .answering (some e) }
  | disconnected (hloop : s.loop = .waiting) (hqueue : s.queue = [])
      (halive : s.senderAlive = false) :
      NodeTaken s .dispatcherLoop { s with loop := .answering none }
  | answered {e : α} (hloop : s.loop = .answering (some e)) :
      NodeTaken s .dispatcherLoop { s with calls := s.calls ++ [some e], loop := .idle }
  | ended (hloop : s.loop = .answering none) :
      NodeTaken s .dispatcherLoop { s with calls := s.calls ++ [none], loop := .draining }
  | drained (hloop : s.loop = .draining) (hpending : s.pending = 0) :
      NodeTaken s .dispatcherLoop { s with loop := .leaving }
  | flushed {n : ℕ} (hloop : s.loop = .draining) (hpending : s.pending = n + 1) :
      NodeTaken s .dispatcherLoop { s with pending := n, calls := s.calls ++ [none] }
  | left (hloop : s.loop = .leaving) :
      NodeTaken s .dispatcherLoop { s with loop := .gone, queue := [] }
  | timedOut (hloop : s.loop = .waiting) (hqueue : s.queue = []) (halive : s.senderAlive = true) :
      NodeTaken s .timeout { s with loop := .polling }
  | ignored {event : Option α} {calls : List (Option α)} (hcalls : s.calls = event :: calls)
      (hclosed : s.closed = true) : NodeTaken s .callback { s with calls := calls }
  | finished {calls : List (Option α)} (hcalls : s.calls = none :: calls)
      (hclosed : s.closed = false) :
      NodeTaken s .callback ({ s with calls := calls, closed := true }.resolve none)
  | given {e : α} {calls : List (Option α)} {n : ℕ} (hcalls : s.calls = some e :: calls)
      (hclosed : s.closed = false) (hawaited : s.awaited = some n) :
      NodeTaken s .callback
        { s with
          calls := calls
          awaited := none
          settled := s.settled ++ [(n, some e)] }.rawNext
  | buffered {e : α} {calls : List (Option α)} (hcalls : s.calls = some e :: calls)
      (hclosed : s.closed = false) (hawaited : s.awaited = none) :
      NodeTaken s .callback { s with calls := calls, buffer := s.buffer ++ [e] }.rawNext
  | rejected {n : ℕ} (hawaited : s.awaited = some n) : NodeTaken s .next s
  | served {e : α} {buffer : List α} (hawaited : s.awaited = none)
      (hbuffer : s.buffer = e :: buffer) :
      NodeTaken s .next
        { s with
          buffer := buffer
          asked := s.asked + 1
          settled := s.settled ++ [(s.asked, some e)] }
  | done (hawaited : s.awaited = none) (hbuffer : s.buffer = []) (hclosed : s.closed = true) :
      NodeTaken s .next
        { s with asked := s.asked + 1, settled := s.settled ++ [(s.asked, none)] }
  | awaiting (hawaited : s.awaited = none) (hbuffer : s.buffer = []) (hclosed : s.closed = false) :
      NodeTaken s .next { s with asked := s.asked + 1, awaited := some s.asked }
  | again (hclosed : s.closed = true) : NodeTaken s .unsubscribe s
  | unsubscribed (hclosed : s.closed = false) :
      NodeTaken s .unsubscribe ({ s with closed := true, nativeClosed := true }.resolve none)

theorem nodeTaken_onEvent {e : α} (halive : s.senderAlive = true) :
    NodeTaken s (.onEvent e) (s.onEvent e) := by
  rw [NodeSubscription.onEvent]
  rcases hsend : s.channel.trySend e with ⟨channel, result⟩
  rw [NodeSubscription.channel, Channel.trySend] at hsend
  by_cases hgone : s.loop.receiver = .gone
  · rw [if_pos hgone] at hsend
    obtain ⟨-, rfl⟩ := Prod.mk.inj hsend
    have hloop : s.loop = .gone := by
      revert hgone
      cases s.loop <;> simp [LoopPoint.receiver]
    exact .refused halive fun hroom => hroom.1 hloop
  rw [if_neg hgone] at hsend
  have hloop : s.loop ≠ .gone := fun h => hgone (by rw [h]; rfl)
  by_cases hsize : s.queueSize = 0
  · rw [if_pos hsize] at hsend
    by_cases hwaiting : s.loop.receiver = .waiting
    · rw [if_pos hwaiting] at hsend
      obtain ⟨rfl, rfl⟩ := Prod.mk.inj hsend
      have hloop : s.loop = .waiting := by
        revert hwaiting
        cases s.loop <;> simp [LoopPoint.receiver]
      simp only [if_pos hsize]
      exact .handed halive hsize hloop
    · rw [if_neg hwaiting] at hsend
      obtain ⟨-, rfl⟩ := Prod.mk.inj hsend
      refine .refused halive fun hroom => hwaiting ?_
      have hloop := hroom.2
      rw [if_pos hsize] at hloop
      rw [hloop]
      rfl
  · rw [if_neg hsize] at hsend
    by_cases hroom : s.queue.length < s.queueSize
    · rw [if_pos hroom] at hsend
      obtain ⟨rfl, rfl⟩ := Prod.mk.inj hsend
      simp only [if_neg hsize]
      exact .queued halive hroom hloop
    · rw [if_neg hroom] at hsend
      obtain ⟨-, rfl⟩ := Prod.mk.inj hsend
      refine .refused halive fun h => hroom ?_
      have hlength := h.2
      rwa [if_neg hsize] at hlength

theorem nodeTaken_loop (h : s.dispatcherLoop = some s') : NodeTaken s .dispatcherLoop s' := by
  rw [NodeSubscription.dispatcherLoop] at h
  split at h
  · rename_i hloop
    split at h
    · exact absurd h (by simp)
    · rename_i hpending
      obtain ⟨n, hn⟩ := Nat.exists_eq_succ_of_ne_zero hpending
      rw [hn] at h
      exact Option.some_inj.mp h ▸ .claimed hloop hn
  · rename_i hloop
    obtain rfl := Option.some_inj.mp h
    split
    · rename_i hnative
      exact .returned hloop hnative
    · rename_i hnative
      exact .started hloop (by simpa using hnative)
  · rename_i hloop
    obtain rfl := Option.some_inj.mp h
    by_cases hnative : s.nativeClosed = true
    · rw [if_pos hnative]
      exact .shut hloop hnative
    · rw [if_neg hnative]
      exact .polled hloop (by simpa using hnative)
  · rename_i hloop
    split at h
    · rename_i hqueue
      exact Option.some_inj.mp h ▸ .received hloop hqueue
    · rename_i hqueue
      split at h
      · exact absurd h (by simp)
      · rename_i halive
        exact Option.some_inj.mp h ▸ .disconnected hloop hqueue (by simpa using halive)
  · rename_i event hloop
    obtain rfl := Option.some_inj.mp h
    cases event with
    | none => exact .ended hloop
    | some e => exact .answered hloop
  · rename_i hloop
    obtain rfl := Option.some_inj.mp h
    split
    · rename_i hpending
      exact .drained hloop hpending
    · rename_i hpending
      obtain ⟨n, hn⟩ := Nat.exists_eq_succ_of_ne_zero hpending
      rw [hn]
      exact .flushed hloop hn
  · rename_i hloop
    exact Option.some_inj.mp h ▸ .left hloop
  · exact absurd h (by simp)

theorem nodeTaken_callback {event : Option α} {calls : List (Option α)}
    (hcalls : s.calls = event :: calls) :
    NodeTaken s .callback ({ s with calls := calls }.callback event) := by
  rw [NodeSubscription.callback.eq_def]
  by_cases hclosed : s.closed = true
  · rw [if_pos hclosed]
    exact .ignored hcalls hclosed
  rw [if_neg hclosed]
  rw [Bool.not_eq_true] at hclosed
  cases event with
  | none => exact .finished hcalls hclosed
  | some e =>
    dsimp only
    split
    · rename_i n hawaited
      rw [NodeSubscription.resolve, hawaited, NodeSubscription.pump,
        if_neg (Bool.not_eq_true _ ▸ hclosed)]
      exact .given hcalls hclosed hawaited
    · rename_i hawaited
      rw [NodeSubscription.pump, if_neg (Bool.not_eq_true _ ▸ hclosed)]
      exact .buffered hcalls hclosed hawaited

theorem nodeTaken_next : NodeTaken s .next s.next := by
  rw [NodeSubscription.next]
  split
  · rename_i hawaited
    exact .rejected hawaited
  · rename_i hawaited hbuffer
    exact .served hawaited hbuffer
  · rename_i hawaited hbuffer
    split
    · rename_i hclosed
      exact .done hawaited hbuffer hclosed
    · rename_i hclosed
      exact .awaiting hawaited hbuffer (by simpa using hclosed)

/-- **Inversion** of the steps. -/
theorem nodeTaken_of_step (h : nodeStep s a = some s') : NodeTaken s a s' := by
  cases a with
  | onEvent e =>
    rw [nodeStep] at h
    split at h
    · rename_i halive
      exact Option.some_inj.mp h ▸ nodeTaken_onEvent halive
    · exact absurd h (by simp)
  | hangUp => exact Option.some_inj.mp h ▸ .hungUp
  | dispatcherLoop => exact nodeTaken_loop h
  | timeout =>
    rw [nodeStep, NodeSubscription.timeout] at h
    split at h
    · rename_i hloop hqueue halive
      exact Option.some_inj.mp h ▸ .timedOut hloop hqueue halive
    · exact absurd h (by simp)
  | callback =>
    rw [nodeStep] at h
    split at h
    · exact absurd h (by simp)
    · rename_i hcalls
      exact Option.some_inj.mp h ▸ nodeTaken_callback hcalls
  | next => exact Option.some_inj.mp h ▸ nodeTaken_next
  | unsubscribe =>
    obtain rfl := Option.some_inj.mp h
    rw [NodeSubscription.unsubscribe]
    split
    · rename_i hclosed
      exact .again hclosed
    · rename_i hclosed
      exact .unsubscribed (by simpa using hclosed)

/-! ### Promises -/

theorem resolve_cases (s : NodeSubscription α) (x : Option α) :
    s.awaited = none ∧ s.resolve x = s ∨ ∃ n, s.awaited = some n ∧
      s.resolve x = { s with awaited := none, settled := s.settled ++ [(n, x)] } := by
  rcases hawaited : s.awaited with _ | n
  · left
    rw [NodeSubscription.resolve, hawaited]
    exact ⟨rfl, rfl⟩
  · right
    rw [NodeSubscription.resolve, hawaited]
    exact ⟨n, rfl, rfl⟩

/-- Promises are resolved one by one, and after the first `done` with nothing else. -/
structure Promises (s : NodeSubscription α) : Prop where
  numbered : s.settled.map Prod.fst = List.range s.settled.length
  counted : s.asked = s.settled.length + s.awaited.toList.length
  waiting : ∀ n, s.awaited = some n → n = s.settled.length ∧ s.buffer = [] ∧ s.closed = false
  finished : ∀ p ∈ s.settled, p.2 = none → s.closed = true ∧ s.buffer = []
  ordered : s.settled.Pairwise fun p q => p.2 = none → q.2 = none

/-- The next promise is resolved. -/
theorem Promises.settle (h : Promises s) {x : Option α}
    (hsettled : s'.settled = s.settled ++ [(s.settled.length, x)]) (hawaited : s'.awaited = none)
    (hasked : s'.asked = s.settled.length + 1)
    (hdone : x = none → s'.closed = true ∧ s'.buffer = [])
    (hafter : ∀ p ∈ s.settled, p.2 = none → x = none) : Promises s' where
  numbered := by
    rw [hsettled, List.map_append, h.numbered, List.length_append]
    exact List.range_succ.symm
  counted := by rw [hasked, hsettled, hawaited, List.length_append]; rfl
  waiting n hn := absurd (hawaited.symm.trans hn) (by simp)
  finished p hp hnone := by
    rw [hsettled] at hp
    rcases List.mem_append.mp hp with hp | hp
    · exact hdone (hafter p hp hnone)
    · obtain rfl := List.mem_singleton.mp hp
      exact hdone hnone
  ordered := by
    rw [hsettled]
    refine List.pairwise_append.mpr ⟨h.ordered, List.pairwise_singleton _ _, fun p hp q hq => ?_⟩
    obtain rfl := List.mem_singleton.mp hq
    exact hafter p hp

/-- ClosedDown resolves the promise that is open. -/
theorem Promises.close (h : Promises s) (hclosed : s.closed = false)
    (hsettled : s'.settled = s.settled) (hawaited : s'.awaited = s.awaited)
    (hasked : s'.asked = s.asked) (hbuffer : s'.buffer = s.buffer) (hclose : s'.closed = true) :
    Promises (s'.resolve none) := by
  have hfresh : ∀ p ∈ s.settled, p.2 ≠ none := fun p hp hnone =>
    absurd (h.finished p hp hnone).1 (by simp [hclosed])
  rcases resolve_cases s' (none : Option α) with ⟨hnone, heq⟩ | ⟨n, hn, heq⟩
  · rw [heq]
    refine ⟨by rw [hsettled]; exact h.numbered, by rw [hasked, hsettled, hawaited]; exact h.counted,
      fun n hn => absurd (hnone.symm.trans hn) (by simp), fun p hp hp' => ?_,
      by rw [hsettled]; exact h.ordered⟩
    exact absurd hp' (hfresh p (hsettled ▸ hp))
  · rw [heq]
    obtain ⟨hlast, hempty, -⟩ := h.waiting n (hawaited ▸ hn)
    refine h.settle (x := none) (by rw [hsettled, hlast]) rfl ?_ (fun _ => ⟨hclose, ?_⟩)
      fun _ _ _ => rfl
    · show s'.asked = _
      rw [hasked, h.counted, ← hawaited, hn]
      rfl
    · exact hbuffer.trans hempty

@[simp] theorem rawNext_settled : s.rawNext.settled = s.settled := by
  rw [NodeSubscription.rawNext]; split <;> [rfl; (split <;> rfl)]

@[simp] theorem rawNext_awaited : s.rawNext.awaited = s.awaited := by
  rw [NodeSubscription.rawNext]; split <;> [rfl; (split <;> rfl)]

@[simp] theorem rawNext_asked : s.rawNext.asked = s.asked := by
  rw [NodeSubscription.rawNext]; split <;> [rfl; (split <;> rfl)]

@[simp] theorem rawNext_buffer : s.rawNext.buffer = s.buffer := by
  rw [NodeSubscription.rawNext]; split <;> [rfl; (split <;> rfl)]

@[simp] theorem rawNext_closed : s.rawNext.closed = s.closed := by
  rw [NodeSubscription.rawNext]; split <;> [rfl; (split <;> rfl)]

theorem promises_step (h : Promises s) (hstep : nodeStep s a = some s') : Promises s' := by
  cases nodeTaken_of_step hstep with
  | finished hcalls hclosed => exact h.close hclosed rfl rfl rfl rfl rfl
  | unsubscribed hclosed => exact h.close hclosed rfl rfl rfl rfl rfl
  | @given e calls n hcalls hclosed hawaited =>
    obtain ⟨rfl, hbuffer, -⟩ := h.waiting n hawaited
    refine h.settle (x := some e) (by simp) (by simp) ?_ (fun hx => absurd hx (by simp)) ?_
    · simp only [rawNext_asked]
      rw [h.counted, hawaited]
      rfl
    · intro p hp hnone
      exact absurd (h.finished p hp hnone).1 (by simp [hclosed])
  | @buffered e calls hcalls hclosed hawaited =>
    refine ⟨by simpa using h.numbered, by simpa using h.counted, fun n hn => ?_, ?_,
      by simpa using h.ordered⟩
    · exact absurd (hawaited.symm.trans (by simpa using hn)) (by simp)
    · intro p hp hnone
      exact absurd (h.finished p (by simpa using hp) hnone).1 (by simp [hclosed])
  | @served e buffer hawaited hbuffer =>
    have hasked : s.asked = s.settled.length := by
      have := h.counted
      rwa [hawaited] at this
    refine h.settle (x := some e) (by rw [hasked]) hawaited (by rw [hasked])
      (fun hx => absurd hx (by simp)) fun p hp hnone => ?_
    exact absurd (h.finished p hp hnone).2 (by simp [hbuffer])
  | done hawaited hbuffer hclosed =>
    have hasked : s.asked = s.settled.length := by
      have := h.counted
      rwa [hawaited] at this
    exact h.settle (x := none) (by rw [hasked]) hawaited (by rw [hasked])
      (fun _ => ⟨hclosed, hbuffer⟩) fun _ _ _ => rfl
  | awaiting hawaited hbuffer hclosed =>
    have hasked : s.asked = s.settled.length := by
      have := h.counted
      rwa [hawaited] at this
    refine ⟨h.numbered, ?_, fun n hn => ?_, h.finished, h.ordered⟩
    · show s.asked + 1 = s.settled.length + 1
      rw [hasked]
    · obtain rfl := Option.some_inj.mp hn
      exact ⟨hasked, hbuffer, hclosed⟩
  | _ => exact ⟨h.numbered, h.counted, h.waiting, h.finished, h.ordered⟩

/-! ### Events -/

/-- The thread has left its loop. -/
def LoopPoint.Ended : LoopPoint α → Prop
  | .draining | .leaving | .gone => True
  | _ => False

/-- It leaves its loop with the next answer, or has left it. -/
def LoopPoint.Ending (p : LoopPoint α) : Prop := p = .answering none ∨ p.Ended

/-- While the wrapper is open, what the queue took is with JavaScript, on its way or in the
queue, and there is exactly one callback on its way. -/
structure Transport (s : NodeSubscription α) : Prop where
  flow : ∃ rest, s.accepted = s.yielded ++ s.buffer ++ rest ∧
    (s.closed = false → rest = s.calls.filterMap id ++ s.loop.event ++ s.queue)
  native : s.nativeClosed = true → s.closed = true
  outstanding : s.closed = false → s.pending + s.loop.holds + s.calls.length = 1
  ending : s.closed = false → s.loop.Ending → s.senderAlive = false ∧ s.queue = []
  ended : s.closed = false → s.loop.Ended → s.calls = [none]
  sublist : s.accepted.Sublist s.offered
  roomy : s.queue.length ≤ s.queueSize

theorem rawNext_of_open (hnative : s.nativeClosed = false) (hloop : s.loop ≠ .gone) :
    s.rawNext = { s with pending := s.pending + 1 } := by
  rw [NodeSubscription.rawNext, if_neg (by simp [hnative])]
  split
  · rename_i hgone
    exact absurd hgone hloop
  · rfl

/-- A closed wrapper takes nothing more. -/
theorem Transport.of_closed {t : NodeSubscription α} (h : Transport s) (hclosed : t.closed = true)
    (haccepted : t.accepted = s.accepted) (hflow : t.yielded ++ t.buffer = s.yielded ++ s.buffer)
    (hoffered : t.offered = s.offered) (hqueue : t.queue.length ≤ t.queueSize) :
    Transport t where
  flow := by
    obtain ⟨rest, hrest, -⟩ := h.flow
    exact ⟨rest, by rw [haccepted, hflow]; exact hrest, fun hopen => absurd hopen (by simp [hclosed])⟩
  native _ := hclosed
  outstanding hopen := absurd hopen (by simp [hclosed])
  ending hopen := absurd hopen (by simp [hclosed])
  ended hopen := absurd hopen (by simp [hclosed])
  sublist := by rw [haccepted, hoffered]; exact h.sublist
  roomy := hqueue

theorem transport_resolve (h : Transport s) (hclosed : s.closed = true) :
    Transport (s.resolve none) := by
  rcases resolve_cases s (none : Option α) with ⟨-, heq⟩ | ⟨n, -, heq⟩
  · rw [heq]
    exact h
  · rw [heq]
    refine h.of_closed hclosed rfl ?_ rfl h.roomy
    simp [NodeSubscription.yielded]

/-- The callback with an event is not the last one. -/
theorem Transport.running (h : Transport s) {e : α} {calls : List (Option α)}
    (hcalls : s.calls = some e :: calls) (hclosed : s.closed = false) :
    s.nativeClosed = false ∧ s.loop ≠ .gone ∧ ¬s.loop.Ended := by
  have hrunning : ¬s.loop.Ended := fun hended => by
    have hlast := h.ended hclosed hended
    rw [hcalls] at hlast
    exact absurd hlast (by simp)
  refine ⟨?_, fun hgone => hrunning (by rw [hgone]; trivial), hrunning⟩
  rcases hnative : s.nativeClosed with _ | _
  · rfl
  · exact absurd (h.native hnative) (by simp [hclosed])

/-- The wrapper takes an event from the event loop and asks for the next one. -/
theorem Transport.take (h : Transport s) {e : α} {calls : List (Option α)}
    {settled : List (ℕ × Option α)} {awaited : Option ℕ} {buffer : List α}
    (hcalls : s.calls = some e :: calls) (hclosed : s.closed = false)
    (hflow : settled.filterMap Prod.snd ++ buffer = s.yielded ++ s.buffer ++ [e]) :
    Transport { s with calls := calls, settled := settled, awaited := awaited
                       buffer := buffer }.rawNext := by
  obtain ⟨hnative, hgone, hrunning⟩ := h.running hcalls hclosed
  rw [rawNext_of_open (by exact hnative) (by exact hgone)]
  obtain ⟨rest, haccepted, hrest⟩ := h.flow
  have houtstanding := h.outstanding hclosed
  rw [hcalls, List.length_cons] at houtstanding
  refine ⟨⟨calls.filterMap id ++ s.loop.event ++ s.queue, ?_, fun _ => rfl⟩, h.native, fun _ => ?_,
    h.ending, fun _ hended => absurd hended hrunning, h.sublist, h.roomy⟩
  · show s.accepted = settled.filterMap Prod.snd ++ buffer ++ _
    rw [haccepted, hrest hclosed, hcalls, hflow]
    simp
  · show s.pending + 1 + s.loop.holds + calls.length = 1
    omega

/-- The thread passes on what it has, and loses neither an event nor a callback. -/
theorem Transport.move (h : Transport s) {pending : ℕ} {loop : LoopPoint α} {queue : List α}
    {calls : List (Option α)}
    (hflow : calls.filterMap id ++ loop.event ++ queue =
      s.calls.filterMap id ++ s.loop.event ++ s.queue)
    (hone : pending + loop.holds + calls.length = s.pending + s.loop.holds + s.calls.length)
    (hending : s.closed = false → loop.Ending → s.senderAlive = false ∧ queue = [])
    (hended : s.closed = false → loop.Ended → calls = [none])
    (hroomy : queue.length ≤ s.queueSize) :
    Transport { s with pending := pending, loop := loop, queue := queue, calls := calls } := by
  obtain ⟨rest, haccepted, hrest⟩ := h.flow
  refine ⟨⟨rest, haccepted, fun hclosed => ?_⟩, h.native, fun hclosed => ?_, hending, hended,
    h.sublist, hroomy⟩
  · exact (hrest hclosed).trans hflow.symm
  · exact hone.trans (h.outstanding hclosed)

/-- The same while it stays in its loop. -/
theorem Transport.goOn (h : Transport s) {pending : ℕ} {loop : LoopPoint α} {queue : List α}
    {calls : List (Option α)} (hrunning : ¬loop.Ending)
    (hflow : calls.filterMap id ++ loop.event ++ queue =
      s.calls.filterMap id ++ s.loop.event ++ s.queue)
    (hone : pending + loop.holds + calls.length = s.pending + s.loop.holds + s.calls.length)
    (hroomy : queue.length ≤ s.queueSize) :
    Transport { s with pending := pending, loop := loop, queue := queue, calls := calls } :=
  h.move hflow hone (fun _ hending => absurd hending hrunning)
    (fun _ hended => absurd (.inr hended) hrunning) hroomy

/-- The queue takes an event. -/
theorem Transport.accept (h : Transport s) {e : α} {loop : LoopPoint α} {queue : List α}
    (hflow : loop.event ++ queue = s.loop.event ++ s.queue ++ [e])
    (hholds : loop.holds = s.loop.holds) (hrunning : s.closed = false → ¬loop.Ending)
    (hroomy : queue.length ≤ s.queueSize) :
    Transport { s with
      loop := loop, queue := queue, offered := s.offered ++ [e], accepted := s.accepted ++ [e] } := by
  obtain ⟨rest, haccepted, hrest⟩ := h.flow
  refine ⟨⟨rest ++ [e], ?_, fun hclosed => ?_⟩, h.native, fun hclosed => ?_,
    fun hclosed hending => absurd hending (hrunning hclosed),
    fun hclosed hended => absurd (.inr hended) (hrunning hclosed),
    h.sublist.append (List.Sublist.refl _), hroomy⟩
  · show s.accepted ++ [e] = s.yielded ++ s.buffer ++ (rest ++ [e])
    rw [haccepted, List.append_assoc]
  · show rest ++ [e] = s.calls.filterMap id ++ loop.event ++ queue
    rw [hrest hclosed, List.append_assoc, List.append_assoc, ← List.append_assoc s.loop.event,
      ← hflow, List.append_assoc]
  · show s.pending + loop.holds + s.calls.length = 1
    rw [hholds]
    exact h.outstanding hclosed

theorem transport_onEvent {e : α} (h : Transport s) (hstep : nodeStep s (.onEvent e) = some s') :
    Transport s' := by
  cases nodeTaken_of_step hstep with
  | refused halive =>
    exact ⟨h.flow, h.native, h.outstanding, h.ending, h.ended,
      h.sublist.trans (List.sublist_append_left _ _), h.roomy⟩
  | handed halive hsize hloop =>
    have hqueue : s.queue = [] := by
      have hroomy := h.roomy
      rw [hsize] at hroomy
      exact List.length_eq_zero_iff.mp (Nat.le_zero.mp hroomy)
    refine h.accept ?_ ?_ (fun _ => by simp [LoopPoint.Ending, LoopPoint.Ended]) h.roomy
    · rw [hloop, hqueue]
      rfl
    · rw [hloop]
      rfl
  | queued halive hroom hloop =>
    refine h.accept (List.append_assoc _ _ _).symm rfl (fun hclosed hending => ?_) ?_
    · exact absurd (h.ending hclosed hending).1 (by simp [halive])
    · rw [List.length_append]
      exact hroom

theorem transport_loop (h : Transport s) (hstep : nodeStep s .dispatcherLoop = some s') :
    Transport s' := by
  cases nodeTaken_of_step hstep with
  | claimed hloop hpending =>
    refine h.goOn (by simp [LoopPoint.Ending, LoopPoint.Ended]) ?_ ?_ h.roomy
    · rw [hloop]
      rfl
    · rw [hloop, hpending]
      rfl
  | returned hloop hnative => exact h.of_closed (h.native hnative) rfl rfl rfl h.roomy
  | shut hloop hnative => exact h.of_closed (h.native hnative) rfl rfl rfl h.roomy
  | started hloop hnative | polled hloop hnative =>
    refine h.goOn (by simp [LoopPoint.Ending, LoopPoint.Ended]) ?_ ?_ h.roomy <;>
    · rw [hloop]
      rfl
  | received hloop hqueue =>
    refine h.goOn (by simp [LoopPoint.Ending, LoopPoint.Ended]) ?_ ?_ ?_
    · rw [hloop, hqueue]
      simp [LoopPoint.event]
    · rw [hloop]
      rfl
    · have hroomy := h.roomy
      rw [hqueue] at hroomy
      exact Nat.le_of_succ_le hroomy
  | disconnected hloop hqueue halive =>
    refine h.move ?_ ?_ (fun _ _ => ⟨halive, hqueue⟩) (fun _ hended => hended.elim) h.roomy <;>
    · rw [hloop]
      rfl
  | answered hloop =>
    refine h.goOn (by simp [LoopPoint.Ending, LoopPoint.Ended]) ?_ ?_ h.roomy
    · rw [hloop]
      simp [LoopPoint.event]
    · rw [hloop]
      simp only [LoopPoint.holds, List.length_append, List.length_singleton]
      omega
  | ended hloop =>
    refine h.move ?_ ?_ (fun hclosed _ => h.ending hclosed (.inl hloop)) (fun hclosed _ => ?_)
      h.roomy
    · rw [hloop]
      simp [LoopPoint.event]
    · rw [hloop]
      simp only [LoopPoint.holds, List.length_append, List.length_singleton]
      omega
    · -- the callback that the thread had was the only one
      have houtstanding := h.outstanding hclosed
      rw [hloop] at houtstanding
      simp only [LoopPoint.holds] at houtstanding
      rw [List.length_eq_zero_iff.mp (show s.calls.length = 0 by omega)]
      rfl
  | drained hloop hpending =>
    have hended : s.loop.Ended := by rw [hloop]; trivial
    refine h.move ?_ ?_ (fun hclosed _ => h.ending hclosed (.inr hended))
      (fun hclosed _ => h.ended hclosed hended) h.roomy <;>
    · rw [hloop]
      rfl
  | flushed hloop hpending =>
    have hclosed : s.closed = true := by
      rcases hclosed : s.closed with _ | _
      · -- the one callback on its way is with the event loop
        have houtstanding := h.outstanding hclosed
        rw [h.ended hclosed (by rw [hloop]; trivial), hpending] at houtstanding
        simp at houtstanding
      · rfl
    exact h.of_closed hclosed rfl rfl rfl h.roomy
  | left hloop =>
    have hended : s.loop.Ended := by rw [hloop]; trivial
    by_cases hclosed : s.closed = true
    · exact h.of_closed hclosed rfl rfl rfl (Nat.zero_le _)
    · rw [Bool.not_eq_true] at hclosed
      obtain ⟨hhungUp, hqueue⟩ := h.ending hclosed (.inr hended)
      refine h.move ?_ ?_ (fun _ _ => ⟨hhungUp, rfl⟩) (fun _ _ => h.ended hclosed hended)
        (Nat.zero_le _)
      · rw [hloop, hqueue]
        rfl
      · rw [hloop]
        rfl

theorem transport_callback (h : Transport s) (hpromises : Promises s)
    (hstep : nodeStep s .callback = some s') : Transport s' := by
  cases nodeTaken_of_step hstep with
  | ignored hcalls hclosed => exact h.of_closed hclosed rfl rfl rfl h.roomy
  | @finished calls hcalls hclosed =>
    exact transport_resolve (h.of_closed (t := { s with calls := calls, closed := true }) rfl rfl
      rfl rfl h.roomy) rfl
  | @given e calls n hcalls hclosed hawaited =>
    obtain ⟨-, hbuffer, -⟩ := hpromises.waiting n hawaited
    refine h.take hcalls hclosed ?_
    rw [hbuffer, List.filterMap_append]
    simp [NodeSubscription.yielded]
  | @buffered e calls hcalls hclosed hawaited =>
    refine h.take hcalls hclosed ?_
    rw [← List.append_assoc]
    rfl

theorem transport_next (h : Transport s) (hstep : nodeStep s .next = some s') : Transport s' := by
  obtain ⟨rest, haccepted, hrest⟩ := h.flow
  cases nodeTaken_of_step hstep with
  | rejected hawaited => exact h
  | @served e buffer hawaited hbuffer =>
    refine ⟨⟨rest, ?_, hrest⟩, h.native, h.outstanding, h.ending, h.ended, h.sublist, h.roomy⟩
    rw [haccepted, hbuffer]
    simp [NodeSubscription.yielded]
  | done hawaited hbuffer hclosed =>
    refine h.of_closed hclosed rfl ?_ rfl h.roomy
    simp [NodeSubscription.yielded]
  | awaiting hawaited hbuffer hclosed =>
    exact ⟨⟨rest, haccepted, hrest⟩, h.native, h.outstanding, h.ending, h.ended, h.sublist, h.roomy⟩

theorem transport_step (h : Transport s) (hpromises : Promises s)
    (hstep : nodeStep s a = some s') : Transport s' := by
  cases a with
  | onEvent e => exact transport_onEvent h hstep
  | dispatcherLoop => exact transport_loop h hstep
  | callback => exact transport_callback h hpromises hstep
  | next => exact transport_next h hstep
  | hangUp =>
    cases nodeTaken_of_step hstep with
    | hungUp =>
      exact ⟨h.flow, h.native, h.outstanding,
        fun hclosed hending => ⟨rfl, (h.ending hclosed hending).2⟩, h.ended, h.sublist, h.roomy⟩
  | timeout =>
    cases nodeTaken_of_step hstep with
    | timedOut hloop hqueue halive =>
      refine h.goOn (by simp [LoopPoint.Ending, LoopPoint.Ended]) ?_ ?_ h.roomy <;>
      · rw [hloop]
        rfl
  | unsubscribe =>
    cases nodeTaken_of_step hstep with
    | again hclosed => exact h
    | unsubscribed hclosed =>
      exact transport_resolve (h.of_closed (t := { s with closed := true, nativeClosed := true })
        rfl rfl rfl rfl h.roomy) rfl

/-- How the wrapper closes without `unsubscribe()`: nothing is left behind. -/
structure ClosedDown (s : NodeSubscription α) : Prop where
  last : s.closed = false → none ∈ s.calls → s.loop.Ended
  complete : s.closed = true → s.nativeClosed = false →
    s.senderAlive = false ∧ s.accepted = s.yielded ++ s.buffer

theorem closedDown_step (h : ClosedDown s) (htransport : Transport s)
    (hstep : nodeStep s a = some s') : ClosedDown s' := by
  cases nodeTaken_of_step hstep with
  | refused halive => exact ⟨h.last, h.complete⟩
  | handed halive hsize hloop =>
    refine ⟨fun hclosed hnone => ?_, fun hclosed hnative => ?_⟩
    · have hended := h.last hclosed hnone
      rw [hloop] at hended
      exact hended.elim
    · exact absurd (h.complete hclosed hnative).1 (by simp [halive])
  | queued halive hroom hloop =>
    refine ⟨h.last, fun hclosed hnative => ?_⟩
    exact absurd (h.complete hclosed hnative).1 (by simp [halive])
  | hungUp => exact ⟨h.last, fun hclosed hnative => ⟨rfl, (h.complete hclosed hnative).2⟩⟩
  | returned hloop hnative | shut hloop hnative =>
    refine ⟨fun hclosed => absurd (htransport.native hnative) ?_, fun _ hopen => ?_⟩
    · exact fun htrue => absurd (hclosed.symm.trans htrue) (by simp)
    · exact absurd (hnative.symm.trans hopen) (by simp)
  | claimed hloop | started hloop | polled hloop | received hloop | disconnected hloop
  | timedOut hloop =>
    refine ⟨fun hclosed hnone => ?_, h.complete⟩
    have hended := h.last hclosed hnone
    rw [hloop] at hended
    exact hended.elim
  | answered hloop =>
    refine ⟨fun hclosed hnone => ?_, h.complete⟩
    have hended := h.last hclosed (by simpa using hnone)
    rw [hloop] at hended
    exact hended.elim
  | ended hloop => exact ⟨fun _ _ => trivial, h.complete⟩
  | drained hloop => exact ⟨fun _ _ => trivial, h.complete⟩
  | flushed hloop hpending =>
    refine ⟨fun _ _ => ?_, h.complete⟩
    show s.loop.Ended
    rw [hloop]
    trivial
  | left hloop => exact ⟨fun _ _ => trivial, h.complete⟩
  | ignored hcalls hclosed =>
    exact ⟨fun hopen => absurd (hclosed.symm.trans hopen) (by simp), h.complete⟩
  | @finished calls hcalls hclosed =>
    have hended := h.last hclosed (by rw [hcalls]; exact List.mem_cons_self)
    obtain ⟨halive, hqueue⟩ := htransport.ending hclosed (.inr hended)
    obtain ⟨rest, haccepted, hrest⟩ := htransport.flow
    have hempty : rest = [] := by
      rw [hrest hclosed, htransport.ended hclosed hended, hqueue]
      rcases hloop : s.loop with _ | _ | _ | _ | _ | _ | _ | _ <;> rw [hloop] at hended <;>
        first | exact hended.elim | rfl
    rw [hempty, List.append_nil] at haccepted
    rcases resolve_cases { s with calls := calls, closed := true } (none : Option α)
      with ⟨-, heq⟩ | ⟨n, -, heq⟩
    · rw [heq]
      exact ⟨fun hopen => absurd hopen (by simp), fun _ _ => ⟨halive, haccepted⟩⟩
    · rw [heq]
      refine ⟨fun hopen => absurd hopen (by simp), fun _ _ => ⟨halive, ?_⟩⟩
      rw [haccepted]
      simp [NodeSubscription.yielded]
  | given hcalls hclosed hawaited | buffered hcalls hclosed hawaited =>
    obtain ⟨hnative, hgone, hrunning⟩ := htransport.running hcalls hclosed
    rw [rawNext_of_open (by exact hnative) (by exact hgone)]
    refine ⟨fun _ hnone => h.last hclosed ?_, fun hopen => absurd (hclosed.symm.trans hopen) ?_⟩
    · rw [hcalls]
      exact List.mem_cons_of_mem _ hnone
    · simp
  | rejected hawaited => exact h
  | served hawaited hbuffer =>
    refine ⟨h.last, fun hclosed hnative => ⟨(h.complete hclosed hnative).1, ?_⟩⟩
    rw [(h.complete hclosed hnative).2, hbuffer]
    simp [NodeSubscription.yielded]
  | done hawaited hbuffer hclosed =>
    refine ⟨h.last, fun hclosed hnative => ⟨(h.complete hclosed hnative).1, ?_⟩⟩
    rw [(h.complete hclosed hnative).2]
    simp [NodeSubscription.yielded]
  | awaiting hawaited hbuffer hclosed => exact ⟨h.last, h.complete⟩
  | again hclosed => exact h
  | unsubscribed hclosed =>
    rcases resolve_cases { s with closed := true, nativeClosed := true } (none : Option α)
      with ⟨-, heq⟩ | ⟨n, -, heq⟩ <;> rw [heq] <;>
        exact ⟨fun hopen => absurd hopen (by simp), fun _ hopen => absurd hopen (by simp)⟩

/-! ### Runs -/

variable {queueSize : ℕ} {as : List (NodeAction α)}

structure NodeInv (s : NodeSubscription α) : Prop where
  promises : Promises s
  transport : Transport s
  closing : ClosedDown s

theorem nodeInv_step (h : NodeInv s) (hstep : nodeStep s a = some s') : NodeInv s' :=
  ⟨promises_step h.promises hstep, transport_step h.transport h.promises hstep,
    closedDown_step h.closing h.transport hstep⟩

theorem subscribed_eq : (NodeSubscription.subscribed queueSize : NodeSubscription α) =
    ⟨queueSize, true, [], .idle, 1, false, [], [], none, false, [], [], 0, []⟩ := rfl

theorem nodeInv_subscribed :
    NodeInv (NodeSubscription.subscribed queueSize : NodeSubscription α) := by
  rw [subscribed_eq]
  refine ⟨⟨rfl, rfl, ?_, ?_, .nil⟩, ⟨⟨[], rfl, fun _ => rfl⟩, ?_, fun _ => rfl, fun _ h => ?_,
    fun _ h => h.elim, .slnil, Nat.zero_le _⟩, ⟨?_, ?_⟩⟩
  · exact fun n hn => absurd hn (by simp)
  · exact fun p hp => absurd hp List.not_mem_nil
  · exact fun h => absurd h (by simp)
  · rcases h with h | h
    · exact absurd h (by simp)
    · exact h.elim
  · exact fun _ h => absurd h List.not_mem_nil
  · exact fun h => absurd h (by simp)

theorem nodeInv_run (hrun : run nodeStep (.subscribed queueSize) as = some s) : NodeInv s :=
  run_invariant_all (fun _ _ _ => nodeInv_step) nodeInv_subscribed hrun

/-! ### Losses -/

/-- An event that the handler is given finds room. -/
def Enters (s : NodeSubscription α) : NodeAction α → Prop
  | .onEvent _ => s.HasRoom
  | _ => True

/-- The number of events that were offered and not accepted. -/
def NodeSubscription.missed (s : NodeSubscription α) : ℕ := s.offered.length - s.accepted.length

theorem missed_step (hsub : s.accepted.Sublist s.offered) (hstep : nodeStep s a = some s') :
    (Enters s a → s'.missed = s.missed) ∧ (¬Enters s a → s'.missed = s.missed + 1) := by
  have hlength := hsub.length_le
  have hresolve : ∀ t : NodeSubscription α, (t.resolve none).missed = t.missed := fun t => by
    rcases resolve_cases t (none : Option α) with ⟨-, heq⟩ | ⟨n, -, heq⟩
    · rw [heq]
    · rw [heq]
      rfl
  have hnext : ∀ t : NodeSubscription α, t.rawNext.missed = t.missed := fun t => by
    rw [NodeSubscription.rawNext]
    split
    · rfl
    · split <;> rfl
  cases nodeTaken_of_step hstep with
  | refused halive hfull =>
    refine ⟨fun h => absurd h hfull, fun _ => ?_⟩
    simp only [NodeSubscription.missed, List.length_append, List.length_singleton]
    omega
  | handed halive hsize hloop =>
    refine ⟨fun _ => ?_, fun h => absurd ⟨by simp [hloop], by rw [if_pos hsize, hloop]⟩ h⟩
    simp only [NodeSubscription.missed, List.length_append, List.length_singleton]
    omega
  | queued halive hroom hloop =>
    have hsize : s.queueSize ≠ 0 := Nat.ne_zero_of_lt hroom
    refine ⟨fun _ => ?_, fun h => absurd ⟨hloop, by rw [if_neg hsize]; exact hroom⟩ h⟩
    simp only [NodeSubscription.missed, List.length_append, List.length_singleton]
    omega
  | finished | unsubscribed => exact ⟨fun _ => hresolve _, fun h => absurd trivial h⟩
  | given | buffered => exact ⟨fun _ => hnext _, fun h => absurd trivial h⟩
  | _ => exact ⟨fun _ => rfl, fun h => absurd trivial h⟩

theorem missed_run (h : NodeInv s) (hrun : run nodeStep s as = some s') :
    s.missed ≤ s'.missed ∧ (s'.missed = s.missed ↔ Along nodeStep Enters s as) := by
  induction as generalizing s with
  | nil =>
    obtain rfl := Option.some_inj.mp hrun
    exact ⟨Nat.le_refl _, fun _ => trivial, fun _ => rfl⟩
  | cons a as ih =>
    obtain ⟨t, ht, hrun⟩ := run_cons.mp hrun
    obtain ⟨hle, hiff⟩ := ih (nodeInv_step h ht) hrun
    obtain ⟨htaken, hlost⟩ := missed_step h.transport.sublist ht
    by_cases ha : Enters s a
    · rw [htaken ha] at hle hiff
      refine ⟨hle, fun heq => along_cons ha ht (hiff.mp heq), fun halong => ?_⟩
      exact hiff.mpr (halong.2 t ht)
    · rw [hlost ha] at hle
      refine ⟨by omega, fun heq => by omega, fun halong => absurd halong.1 ha⟩

/-! ### What `next()` returns -/

/-- **What a Node subscriber gets.**  Whatever steps of the handler thread, of the dispatcher
thread and of the event loop are interleaved: the events that `next()` has returned, and
then those in the buffer, are the first of those that the queue took, in order and each once;
the queue took all that the handler was given exactly if each found room; the promises are
resolved in the order of the calls, each once; after one that says `done` come no events; and
once the wrapper is closed no promise is open. -/
theorem node_subscription_yields (hrun : run nodeStep (.subscribed queueSize) as = some s) :
    s.yielded ++ s.buffer <+: s.accepted ∧ s.accepted.Sublist s.offered ∧
    (s.accepted = s.offered ↔ Along nodeStep Enters (.subscribed queueSize) as) ∧
    s.settled.map Prod.fst = List.range s.settled.length ∧
    s.asked = s.settled.length + s.awaited.toList.length ∧
    (s.settled.Pairwise fun p q => p.2 = none → q.2 = none) ∧
    (s.closed = true → s.awaited = none) := by
  have h := nodeInv_run hrun
  obtain ⟨rest, haccepted, -⟩ := h.transport.flow
  refine ⟨⟨rest, haccepted.symm⟩, h.transport.sublist, ?_, h.promises.numbered,
    h.promises.counted, h.promises.ordered, fun hclosed => ?_⟩
  · rw [← (missed_run nodeInv_subscribed hrun).2]
    show _ ↔ s.offered.length - s.accepted.length = 0
    constructor
    · intro heq
      rw [heq, Nat.sub_self]
    · intro hzero
      have hle := h.transport.sublist.length_le
      exact h.transport.sublist.eq_of_length (by omega)
  · rcases hawaited : s.awaited with _ | n
    · rfl
    · exact absurd (h.promises.waiting n hawaited).2.2 (by simp [hclosed])

/-- A queue of one: the second event is lost, the first one resolves the promise, and after
`unsubscribe()` there is nothing more. -/
theorem node_subscription_yields_one : ∃ as s,
    run nodeStep (NodeSubscription.subscribed 1) as = some s ∧
    s.yielded ++ s.buffer <+: s.accepted ∧ s.offered = [7, 8] ∧
    s.settled = [(0, some 7), (1, none)] := by
  have hsome : (run nodeStep (NodeSubscription.subscribed 1)
      [.onEvent 7, .onEvent 8, .dispatcherLoop, .dispatcherLoop, .dispatcherLoop, .dispatcherLoop,
        .dispatcherLoop, .next, .callback, .unsubscribe, .next]).map
      (fun s => (s.offered, s.settled)) = some ([7, 8], [(0, some 7), (1, none)]) := by
    decide +kernel
  obtain ⟨s, hrun, hhistory⟩ := Option.map_eq_some_iff.mp hsome
  obtain ⟨hoffered, hsettled⟩ := Prod.mk.inj hhistory
  exact ⟨_, s, hrun, (node_subscription_yields hrun).1, hoffered, hsettled⟩

/-! ### Progress -/

/-- How many steps of the two threads an item of the pipeline still takes, at most. -/
def LoopPoint.work : LoopPoint α → ℕ
  | .idle | .gone => 0
  | .leaving => 1
  | .draining => 2
  | .answering none => 4
  | .waiting => 5
  | .polling => 6
  | .claimed => 7
  | .answering (some _) => 10

def callWork : Option α → ℕ
  | none => 1
  | some _ => 9

def NodeSubscription.work (s : NodeSubscription α) : ℕ :=
  8 * s.pending + 6 * s.queue.length + s.loop.work + (s.calls.map callWork).sum

/-- A step of the dispatcher thread, without its timeouts, or of the event loop. -/
def Internal : NodeAction α → Prop
  | .dispatcherLoop | .callback => True
  | _ => False

theorem work_rawNext : s.rawNext.work ≤ s.work + 8 := by
  rw [NodeSubscription.rawNext]
  split
  · simp only [NodeSubscription.work, List.map_append, List.sum_append, List.map_cons,
      List.map_nil, List.sum_cons, List.sum_nil, callWork]
    omega
  · split
    · omega
    · simp only [NodeSubscription.work]
      omega

theorem work_resolve {x : Option α} : (s.resolve x).work = s.work := by
  rcases resolve_cases s x with ⟨-, heq⟩ | ⟨n, -, heq⟩ <;> rw [heq]
  rfl

theorem work_step (ha : Internal a) (hstep : nodeStep s a = some s') : s'.work < s.work := by
  cases nodeTaken_of_step hstep with
  | refused | handed | queued | hungUp | timedOut | rejected | served | done | awaiting | again
  | unsubscribed => exact ha.elim
  | finished hcalls hclosed =>
    rw [work_resolve]
    simp [NodeSubscription.work, hcalls, callWork]
  | given hcalls hclosed hawaited | buffered hcalls hclosed hawaited =>
    refine Nat.lt_of_le_of_lt work_rawNext ?_
    simp only [NodeSubscription.work, hcalls, List.map_cons, List.sum_cons, callWork]
    omega
  | @ignored event calls hcalls hclosed =>
    have hevent : 0 < callWork event := by cases event <;> simp [callWork]
    simp only [NodeSubscription.work, hcalls, List.map_cons, List.sum_cons]
    omega
  | received hloop hqueue =>
    simp only [NodeSubscription.work, hloop, hqueue, LoopPoint.work, List.length_cons]
    omega
  | claimed hloop hpending | flushed hloop hpending =>
    simp [NodeSubscription.work, hloop, hpending, LoopPoint.work, callWork]
    omega
  | left hloop =>
    simp only [NodeSubscription.work, hloop, LoopPoint.work, List.length_nil]
    omega
  | returned hloop | answered hloop | ended hloop =>
    simp [NodeSubscription.work, hloop, LoopPoint.work, callWork]
    omega
  | started hloop | shut hloop | polled hloop | disconnected hloop | drained hloop =>
    simp [NodeSubscription.work, hloop, LoopPoint.work]

theorem work_run (has : ∀ a ∈ as, Internal a) (hrun : run nodeStep s as = some s') :
    as.length + s'.work ≤ s.work := by
  induction as generalizing s with
  | nil =>
    obtain rfl := Option.some_inj.mp hrun
    simp
  | cons a as ih =>
    obtain ⟨t, ht, hrun⟩ := run_cons.mp hrun
    obtain ⟨ha, has⟩ := List.forall_mem_cons.mp has
    have hless := work_step ha ht
    have hrest := ih has hrun
    rw [List.length_cons]
    omega

/-- The two threads have nothing to do. -/
def AtRest (s : NodeSubscription α) : Prop := ∀ a : NodeAction α, Internal a → nodeStep s a = none

theorem loop_of_atRest (h : AtRest s) : s.calls = [] ∧
    (s.loop = .idle ∧ s.pending = 0 ∨ s.loop = .waiting ∧ s.queue = [] ∧ s.senderAlive = true ∨
      s.loop = .gone) := by
  have hcalls : s.calls = [] := by
    have hcallback := h .callback trivial
    rw [nodeStep] at hcallback
    split at hcallback
    · assumption
    · exact absurd hcallback (by simp)
  refine ⟨hcalls, ?_⟩
  have hdispatch : s.dispatcherLoop = none := h .dispatcherLoop trivial
  rw [NodeSubscription.dispatcherLoop] at hdispatch
  split at hdispatch
  · rename_i hloop
    split at hdispatch
    · rename_i hpending
      exact .inl ⟨hloop, hpending⟩
    · exact absurd hdispatch (by simp)
  · exact absurd hdispatch (by simp)
  · exact absurd hdispatch (by simp)
  · rename_i hloop
    split at hdispatch
    · exact absurd hdispatch (by simp)
    · rename_i hqueue
      split at hdispatch
      · rename_i halive
        exact .inr (.inl ⟨hloop, hqueue, halive⟩)
      · exact absurd hdispatch (by simp)
  · exact absurd hdispatch (by simp)
  · exact absurd hdispatch (by simp)
  · exact absurd hdispatch (by simp)
  · rename_i hloop
    exact .inr (.inr hloop)

/-- **Nothing is stuck.**  From every state, the dispatcher thread and the event loop can take
`work` steps at most on their own.  When they are at rest and `unsubscribe()` has not been
called, every event that the queue took has been returned by `next()` or is in the buffer, and
a promise is open only as long as the store's side is there and the buffer is empty. -/
theorem node_subscription_settles (hrun : run nodeStep (.subscribed queueSize) as = some s) :
    (∀ bs t, (∀ b ∈ bs, Internal b) → run nodeStep s bs = some t → bs.length + t.work ≤ s.work) ∧
    (AtRest s → s.nativeClosed = false →
      s.accepted = s.yielded ++ s.buffer ∧
      (s.awaited ≠ none → s.senderAlive = true ∧ s.accepted = s.yielded)) := by
  refine ⟨fun bs t hbs hrun' => work_run hbs hrun', fun hrest hnative => ?_⟩
  have h := nodeInv_run hrun
  obtain ⟨hcalls, hloop⟩ := loop_of_atRest hrest
  have hwaiting : s.closed = false → s.queue = [] ∧ s.senderAlive = true ∧ s.loop = .waiting := by
    intro hclosed
    have houtstanding := h.transport.outstanding hclosed
    rw [hcalls] at houtstanding
    rcases hloop with ⟨hidle, hpending⟩ | ⟨hwait, hqueue, halive⟩ | hgone
    · rw [hidle, hpending] at houtstanding
      exact absurd houtstanding (by simp [LoopPoint.holds])
    · exact ⟨hqueue, halive, hwait⟩
    · have hended := h.transport.ended hclosed (by rw [hgone]; trivial)
      exact absurd (hcalls.symm.trans hended) (by simp)
  have hall : s.accepted = s.yielded ++ s.buffer := by
    rcases hclosed : s.closed with _ | _
    · obtain ⟨rest, haccepted, hflow⟩ := h.transport.flow
      obtain ⟨hqueue, -, hwait⟩ := hwaiting hclosed
      rw [haccepted, hflow hclosed, hcalls, hqueue, hwait]
      simp [LoopPoint.event]
    · exact (h.closing.complete hclosed hnative).2
  refine ⟨hall, fun hawaited => ?_⟩
  obtain ⟨n, hn⟩ := Option.ne_none_iff_exists'.mp hawaited
  obtain ⟨-, hbuffer, hclosed⟩ := h.promises.waiting n hn
  refine ⟨(hwaiting hclosed).2.1, ?_⟩
  rw [hall, hbuffer, List.append_nil]

/-- An event and then the end of the store: two promises are resolved, at rest. -/
theorem node_subscription_settles_two : ∃ as s,
    run nodeStep (NodeSubscription.subscribed 4) as = some s ∧ AtRest s ∧
    s.accepted = s.yielded ++ s.buffer ∧ s.settled = [(0, some 7), (1, none)] := by
  have hsome : (run nodeStep (NodeSubscription.subscribed 4)
      [.onEvent 7, .hangUp, .next, .dispatcherLoop, .dispatcherLoop, .dispatcherLoop,
        .dispatcherLoop, .dispatcherLoop, .callback, .next, .dispatcherLoop, .dispatcherLoop,
        .dispatcherLoop, .dispatcherLoop, .dispatcherLoop, .callback, .dispatcherLoop,
        .dispatcherLoop]).map (fun s => (s.nativeClosed, s.settled, s.calls, s.loop)) =
      some (false, [(0, some 7), (1, none)], [], .gone) := by
    decide +kernel
  obtain ⟨s, hrun, hstate⟩ := Option.map_eq_some_iff.mp hsome
  simp only [Prod.mk.injEq] at hstate
  obtain ⟨hnative, hsettled, hcalls, hloop⟩ := hstate
  have hrest : AtRest s := by
    intro a ha
    cases a with
    | dispatcherLoop => rw [nodeStep, NodeSubscription.dispatcherLoop, hloop]
    | callback => rw [nodeStep, hcalls]
    | _ => exact ha.elim
  exact ⟨_, s, hrun, hrest, ((node_subscription_settles hrun).2 hrest hnative).1, hsettled⟩

end Fossic
