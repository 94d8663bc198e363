/-
A store in use: writers, the dispatcher, the WAL watcher, subscribers and other
processes, step by step.

* A writer reads `has_subscribers()` and prepares its payloads (`beginCall`), commits
  under the connection mutex (`commit`), still under it calls the synchronous handlers
  for each new event (`syncDispatch`), releases it (`unlock`), and then sends what it
  has to the dispatch channel (`send`).
* The dispatcher takes an event off the channel and makes the two passes of
  `dispatch_post_commit`, then reports degraded subscriptions on the system stream.
* The WAL watcher's round reads the cursors, then the streams, then one group after
  another, and sends the rows to the same channel.
* `Store::subscribe` reads its seed before it registers, without the mutex.

Every step changes the registry only as `deliveryStep` does.  `taken_of_step` is the
one place where the step function is taken apart; `Effect` says what a step does to the
tables and to the events under way, and later invariants are proved from it.  What
nothing in the program reads is kept as history: the new events of the write calls,
those received from the channel, the calls of synchronous handlers, and the calls that
were due.
-/
import Fossic.HealthyDelivery
import Fossic.VersionHistory
import Fossic.WalWatch
import Fossic.Fifo
import Mathlib.Logic.Function.Basic

namespace Fossic

open BoundedChannel Transition KeyedList Function

/-! ### The parties -/

/-- The dispatcher drops events of internal streams, and writers do not dispatch
them. -/
def internal (streamId : String) : Bool := startsWith streamId "_fossic/"

/-- A notice `(sub_id, event)` that the subscription was degraded by the event. -/
abbrev Degraded := ℕ × StoredEvent

def Degraded.emit (d : Deps) (n : Degraded) (now : Int64) (db : Db) : Db :=
  emitSubscriptionDegraded d (UInt64.ofNat n.1) n.2.streamId n.2.branch n.2.version now db

/-- A thread in a call of `append`, `append_batch` or `append_if`: it holds the mutex
with events `todo` still to be dispatched synchronously, or has released it and is
sending. -/
inductive Writer (d : Deps)
  | idle
  | begun (hasSubs : Bool) (call : PreparedCall d)
  | holding (todo post : List StoredEvent) (degraded : List Degraded)
  | sending (degraded : List Degraded) (post : List StoredEvent)

/-- The committed events that the writer has yet to send. -/
def Writer.unsent {d : Deps} : Writer d → List StoredEvent
  | .holding todo post _ => post ++ todo
  | .sending _ post => post
  | _ => []

/-- A round of the WAL watcher. -/
inductive Scan
  | idle
  | listing (cursors : List (ℕ × String × String × ℤ))
  | sending (groups : StreamCursors) (events : List StoredEvent)

structure World (d : Deps) where
  db : Db
  delivery : DeliveryState
  /-- Calls of `Store::subscribe` that have read their seed. -/
  subscribing : List (SubscribeQuery × SubscriptionMode × ℤ × StreamCursors)
  writers : ℕ → Writer d
  /-- The writer that holds the connection mutex. -/
  lock : Option ℕ
  /-- `dispatch_tx` and `dispatch_rx`. -/
  channel : Fifo StoredEvent
  /-- `sync_degraded_tx` and `sync_degraded_rx`. -/
  syncDegraded : List Degraded
  /-- Whether the dispatcher could open its own connection. -/
  sysWriter : Bool
  /-- What the dispatcher has left to report for the event it has dispatched. -/
  reporting : Option (List Degraded)
  scan : Scan
  /-- The new events of the write calls, in the order of their commits. -/
  log : List StoredEvent
  /-- The calls of synchronous handlers. -/
  calls : List (ℕ × StoredEvent)
  /-- At each commit, the synchronous entries that want each new event. -/
  due : List (ℕ × StoredEvent)

inductive ScanAction
  | start
  | list
  | fetch (i : ℕ)
  | send
  | finish

inductive Action
  | subscribeSeed (q : SubscribeQuery) (mode : SubscriptionMode)
  | subscribeInsert (i : ℕ)
  | unsubscribe (id : ℕ)
  | receiver (id : ℕ) (step : ReceiverStep)
  | beginCall (w : ℕ) (transforms : List TransformEntry) (call : WriteCall)
  | commit (w : ℕ) (clock : ℕ → Int64)
  | syncDispatch (w : ℕ) (panics : ℕ → Bool)
  | unlock (w : ℕ)
  | send (w : ℕ)
  | firstPass
  | secondPass
  | report (now : Int64)
  /-- A transaction of another process, or of this one outside the write calls. -/
  | other (op : StoreOp)
  | scan (a : ScanAction)

/-! ### Steps -/

namespace World

variable {d : Deps}

abbrev registry (s : World d) : Registry := s.delivery.registry

def unsent (s : World d) (w : ℕ) : List StoredEvent := (s.writers w).unsent

def deliver (s : World d) (op : DeliveryOp) : Option (World d) :=
  (deliveryStep s.delivery op).map fun delivery => { s with delivery := delivery }

def setWriter (s : World d) (w : ℕ) (writer : Writer d) : World d :=
  { s with writers := update s.writers w writer }

end World

/-- The new events that a call dispatches. -/
def inserted (outcomes : List (AppendOutcome × Append)) : List StoredEvent :=
  (newEvents outcomes).filter fun e => !internal e.streamId

def scanStep (reg : Registry) (db : Db) (scan : Scan) (channel : Fifo StoredEvent)
    (a : ScanAction) : Option (Scan × Fifo StoredEvent) :=
  match scan, a with
  | .idle, .start =>
    if reg.postCommitCursors.isEmpty then some (.idle, channel)
    else some (.listing reg.postCommitCursors, channel)
  | .listing cursors, .list =>
    some (.sending (groupMin (listAllStreams db) cursors) [], channel)
  | .sending groups [], .fetch i =>
    groups[i]?.map fun g =>
      match fetchEventsAfter db g.1 g.2 with
      | .ok events => (.sending (groups.eraseIdx i) events, channel)
      | .error _ => (.sending (groups.eraseIdx i) [], channel)
  | .sending groups (e :: events), .send => some (.sending groups events, channel.send e)
  | .sending [] [], .finish => some (.idle, channel)
  | _, _ => none

/-- A deletion; the runs considered here have none. -/
def StoreOp.isPurge : StoreOp → Bool
  | .purge _ _ _ _ _ => true
  | _ => false

def StoreOp.isDeclaration : StoreOp → Bool
  | .declareStream _ _ _ _ => true
  | _ => false

def worldStep (d : Deps) (s : World d) : Action → Option (World d)
  | .subscribeSeed q mode =>
    some { s with subscribing := s.subscribing ++ [(q, mode, seedCursors s.db q)] }
  | .subscribeInsert i =>
    match s.subscribing[i]? with
    | some (q, mode, cursor, streamCursors) =>
      ({ s with subscribing := s.subscribing.eraseIdx i } : World d).deliver
        (.subscribe q mode cursor streamCursors)
    | none => none
  | .unsubscribe id => s.deliver (.unsubscribe id)
  | .receiver id step => s.deliver (.receiver id step)
  | .beginCall w transforms call =>
    match s.writers w, call.prepare d transforms with
    | .idle, .ok prepared => some (s.setWriter w (.begun s.registry.hasSubscribers prepared))
    | .idle, .error _ => some s
    | _, _ => none
  | .commit w clock =>
    match s.writers w, s.lock with
    | .begun hasSubs call, none =>
      match call.commit clock s.db with
      | .error _ => some (s.setWriter w .idle)
      | .ok (outcomes, db') => some
        { s.setWriter w (.holding (if hasSubs then inserted outcomes else []) [] []) with
          db := db'
          lock := some w
          log := s.log ++ inserted outcomes
          due := s.due ++ (inserted outcomes).flatMap fun e =>
            (s.registry.syncCalls e).map fun id => (id, e) }
    | _, _ => none
  | .syncDispatch w panics =>
    match s.writers w with
    | .holding (e :: todo) post degraded =>
      ({ s.setWriter w (.holding todo (post ++ [e]) (degraded ++
          (s.registry.dispatchSync e panics).2.map fun id => (id, e))) with
        calls := s.calls ++ (s.registry.syncCalls e).map fun id => (id, e) } : World d).deliver
          (.dispatchSync e panics)
    | _ => none
  | .unlock w =>
    match s.writers w with
    | .holding [] post degraded =>
      some { s.setWriter w (.sending degraded post) with lock := none }
    | _ => none
  | .send w =>
    match s.writers w with
    | .sending (n :: degraded) post =>
      some { s.setWriter w (.sending degraded post) with syncDegraded := s.syncDegraded ++ [n] }
    | .sending [] (e :: post) =>
      some { s.setWriter w (.sending [] post) with channel := s.channel.send e }
    | .sending [] [] => some (s.setWriter w .idle)
    | _ => none
  | .firstPass =>
    match s.reporting, s.delivery.advancing, s.channel.receive with
    | none, none, some (e, channel) =>
      if internal e.streamId then some { s with channel := channel }
      else ({ s with channel := channel } : World d).deliver (.firstPass e)
    | _, _, _ => none
  | .secondPass =>
    match s.delivery.advancing with
    | some a =>
      ({ s with
        reporting :=
          if s.sysWriter then some (a.newlyDegraded.map fun id => (id, a.event)) else none } :
        World d).deliver .secondPass
    | none => none
  | .report now =>
    match s.reporting, s.syncDegraded with
    | some (n :: rest), _ => some { s with db := n.emit d now s.db, reporting := some rest }
    | some [], n :: rest => some { s with db := n.emit d now s.db, syncDegraded := rest }
    | some [], [] => some { s with reporting := none }
    | none, _ => none
  | .other op => if op.isPurge then none else some { s with db := exec d s.db op }
  | .scan a =>
    (scanStep s.registry s.db s.scan s.channel a).map fun r =>
      { s with scan := r.1, channel := r.2 }

/-- The store opened on the tables `db`. -/
def World.init (d : Deps) (db : Db) (sysWriter : Bool) : World d where
  db := db
  delivery := .init
  subscribing := []
  writers := fun _ => .idle
  lock := none
  channel := .empty
  syncDegraded := []
  sysWriter := sysWriter
  reporting := none
  scan := .idle
  log := []
  calls := []
  due := []

/-! ### The steps, branch by branch -/

variable {d : Deps} {s s' : World d}

theorem deliver_eq_some {op : DeliveryOp} : s.deliver op = some s' ↔
    ∃ delivery, deliveryStep s.delivery op = some delivery ∧
      { s with delivery := delivery } = s' :=
  Option.map_eq_some_iff

/-- The steps that can be taken, each branch of `worldStep` with its conditions. -/
inductive Taken (s : World d) : Action → World d → Prop
  | seeded (q : SubscribeQuery) (mode : SubscriptionMode) : Taken s (.subscribeSeed q mode)
      { s with subscribing := s.subscribing ++ [(q, mode, seedCursors s.db q)] }
  | registered {i : ℕ} {q : SubscribeQuery} {mode : SubscriptionMode} {cursor : ℤ}
      {streamCursors : StreamCursors} {delivery : DeliveryState}
      (hseed : s.subscribing[i]? = some (q, mode, cursor, streamCursors))
      (hdelivery : deliveryStep s.delivery (.subscribe q mode cursor streamCursors)
        = some delivery) :
      Taken s (.subscribeInsert i)
        { s with subscribing := s.subscribing.eraseIdx i, delivery := delivery }
  | unregistered {id : ℕ} {delivery : DeliveryState}
      (hdelivery : deliveryStep s.delivery (.unsubscribe id) = some delivery) :
      Taken s (.unsubscribe id) { s with delivery := delivery }
  | received {id : ℕ} {step : ReceiverStep} {delivery : DeliveryState}
      (hdelivery : deliveryStep s.delivery (.receiver id step) = some delivery) :
      Taken s (.receiver id step) { s with delivery := delivery }
  | begun {w : ℕ} {transforms : List TransformEntry} {call : WriteCall} {prepared : PreparedCall d}
      (hw : s.writers w = .idle) (hprepare : call.prepare d transforms = .ok prepared) :
      Taken s (.beginCall w transforms call)
        (s.setWriter w (.begun s.registry.hasSubscribers prepared))
  | refused {w : ℕ} {transforms : List TransformEntry} {call : WriteCall} {e : Error}
      (hw : s.writers w = .idle) (hprepare : call.prepare d transforms = .error e) :
      Taken s (.beginCall w transforms call) s
  | failed {w : ℕ} {clock : ℕ → Int64} {hasSubs : Bool} {call : PreparedCall d} {e : Error}
      (hw : s.writers w = .begun hasSubs call) (hlock : s.lock = none)
      (hcommit : call.commit clock s.db = .error e) :
      Taken s (.commit w clock) (s.setWriter w .idle)
  | committed {w : ℕ} {clock : ℕ → Int64} {hasSubs : Bool} {call : PreparedCall d}
      {outcomes : List (AppendOutcome × Append)} {db' : Db}
      (hw : s.writers w = .begun hasSubs call) (hlock : s.lock = none)
      (hcommit : call.commit clock s.db = .ok (outcomes, db')) :
      Taken s (.commit w clock)
        { s.setWriter w (.holding (if hasSubs then inserted outcomes else []) [] []) with
          db := db'
          lock := some w
          log := s.log ++ inserted outcomes
          due := s.due ++ (inserted outcomes).flatMap fun e =>
            (s.registry.syncCalls e).map fun id => (id, e) }
  | dispatched {w : ℕ} {panics : ℕ → Bool} {e : StoredEvent} {todo post : List StoredEvent}
      {degraded : List Degraded} {delivery : DeliveryState}
      (hw : s.writers w = .holding (e :: todo) post degraded)
      (hdelivery : deliveryStep s.delivery (.dispatchSync e panics) = some delivery) :
      Taken s (.syncDispatch w panics)
        { s.setWriter w (.holding todo (post ++ [e]) (degraded ++
            (s.registry.dispatchSync e panics).2.map fun id => (id, e))) with
          calls := s.calls ++ (s.registry.syncCalls e).map fun id => (id, e)
          delivery := delivery }
  | unlocked {w : ℕ} {post : List StoredEvent} {degraded : List Degraded}
      (hw : s.writers w = .holding [] post degraded) :
      Taken s (.unlock w) { s.setWriter w (.sending degraded post) with lock := none }
  | noted {w : ℕ} {n : Degraded} {degraded : List Degraded} {post : List StoredEvent}
      (hw : s.writers w = .sending (n :: degraded) post) :
      Taken s (.send w)
        { s.setWriter w (.sending degraded post) with syncDegraded := s.syncDegraded ++ [n] }
  | sent {w : ℕ} {e : StoredEvent} {post : List StoredEvent}
      (hw : s.writers w = .sending [] (e :: post)) :
      Taken s (.send w) { s.setWriter w (.sending [] post) with channel := s.channel.send e }
  | returned {w : ℕ} (hw : s.writers w = .sending [] []) :
      Taken s (.send w) (s.setWriter w .idle)
  | skipped {e : StoredEvent} {channel : Fifo StoredEvent} (hreporting : s.reporting = none)
      (hadvancing : s.delivery.advancing = none)
      (hreceive : s.channel.receive = some (e, channel)) (hinternal : internal e.streamId = true) :
      Taken s .firstPass { s with channel := channel }
  | offered {e : StoredEvent} {channel : Fifo StoredEvent} {delivery : DeliveryState}
      (hreporting : s.reporting = none) (hadvancing : s.delivery.advancing = none)
      (hreceive : s.channel.receive = some (e, channel)) (hinternal : ¬internal e.streamId = true)
      (hdelivery : deliveryStep s.delivery (.firstPass e) = some delivery) :
      Taken s .firstPass { s with channel := channel, delivery := delivery }
  | advanced {a : Advancing} {delivery : DeliveryState} (hadvancing : s.delivery.advancing = some a)
      (hdelivery : deliveryStep s.delivery .secondPass = some delivery) :
      Taken s .secondPass
        { s with
          reporting :=
            if s.sysWriter then some (a.newlyDegraded.map fun id => (id, a.event)) else none
          delivery := delivery }
  | reported {now : Int64} {n : Degraded} {rest : List Degraded}
      (hreporting : s.reporting = some (n :: rest)) :
      Taken s (.report now) { s with db := n.emit d now s.db, reporting := some rest }
  | reportedSync {now : Int64} {n : Degraded} {rest : List Degraded}
      (hreporting : s.reporting = some []) (hsync : s.syncDegraded = n :: rest) :
      Taken s (.report now) { s with db := n.emit d now s.db, syncDegraded := rest }
  | allReported {now : Int64} (hreporting : s.reporting = some []) (hsync : s.syncDegraded = []) :
      Taken s (.report now) { s with reporting := none }
  | other {op : StoreOp} (hop : op.isPurge = false) :
      Taken s (.other op) { s with db := exec d s.db op }
  | scanned {a : ScanAction} {scan : Scan} {channel : Fifo StoredEvent}
      (hscan : scanStep s.registry s.db s.scan s.channel a = some (scan, channel)) :
      Taken s (.scan a) { s with scan := scan, channel := channel }

/-- **Inversion**: the one place where `worldStep` is taken apart. -/
theorem taken_of_step {a : Action} (h : worldStep d s a = some s') : Taken s a s' := by
  cases a with
  | subscribeSeed q mode =>
    obtain rfl := Option.some_inj.mp h
    exact .seeded q mode
  | subscribeInsert i =>
    rw [worldStep] at h
    split at h
    · rename_i hseed
      obtain ⟨delivery, hdelivery, rfl⟩ := deliver_eq_some.mp h
      exact .registered hseed hdelivery
    · exact absurd h (by simp)
  | unsubscribe id =>
    obtain ⟨delivery, hdelivery, rfl⟩ := deliver_eq_some.mp h
    exact .unregistered hdelivery
  | receiver id step =>
    obtain ⟨delivery, hdelivery, rfl⟩ := deliver_eq_some.mp h
    exact .received hdelivery
  | beginCall w transforms call =>
    rw [worldStep] at h
    split at h
    · rename_i hw hprepare
      obtain rfl := Option.some_inj.mp h
      exact .begun hw hprepare
    · rename_i hw hprepare
      obtain rfl := Option.some_inj.mp h
      exact .refused hw hprepare
    · exact absurd h (by simp)
  | commit w clock =>
    rw [worldStep] at h
    split at h
    · rename_i hw hlock
      split at h
      · rename_i hcommit
        obtain rfl := Option.some_inj.mp h
        exact .failed hw hlock hcommit
      · rename_i hcommit
        obtain rfl := Option.some_inj.mp h
        exact .committed hw hlock hcommit
    · exact absurd h (by simp)
  | syncDispatch w panics =>
    rw [worldStep] at h
    split at h
    · rename_i hw
      obtain ⟨delivery, hdelivery, rfl⟩ := deliver_eq_some.mp h
      exact .dispatched hw hdelivery
    · exact absurd h (by simp)
  | unlock w =>
    rw [worldStep] at h
    split at h
    · rename_i hw
      obtain rfl := Option.some_inj.mp h
      exact .unlocked hw
    · exact absurd h (by simp)
  | send w =>
    rw [worldStep] at h
    split at h
    · rename_i hw
      obtain rfl := Option.some_inj.mp h
      exact .noted hw
    · rename_i hw
      obtain rfl := Option.some_inj.mp h
      exact .sent hw
    · rename_i hw
      obtain rfl := Option.some_inj.mp h
      exact .returned hw
    · exact absurd h (by simp)
  | firstPass =>
    rw [worldStep] at h
    split at h
    · rename_i hreporting hadvancing hreceive
      split at h
      · rename_i hinternal
        obtain rfl := Option.some_inj.mp h
        exact .skipped hreporting hadvancing hreceive hinternal
      · rename_i hinternal
        obtain ⟨delivery, hdelivery, rfl⟩ := deliver_eq_some.mp h
        exact .offered hreporting hadvancing hreceive hinternal hdelivery
    · exact absurd h (by simp)
  | secondPass =>
    rw [worldStep] at h
    split at h
    · rename_i hadvancing
      obtain ⟨delivery, hdelivery, rfl⟩ := deliver_eq_some.mp h
      exact .advanced hadvancing hdelivery
    · exact absurd h (by simp)
  | report now =>
    rw [worldStep] at h
    split at h
    · rename_i hreporting
      obtain rfl := Option.some_inj.mp h
      exact .reported hreporting
    · rename_i hreporting hsync
      obtain rfl := Option.some_inj.mp h
      exact .reportedSync hreporting hsync
    · rename_i hreporting hsync
      obtain rfl := Option.some_inj.mp h
      exact .allReported hreporting hsync
    · exact absurd h (by simp)
  | other op =>
    rw [worldStep] at h
    split at h
    · exact absurd h (by simp)
    · rename_i hop
      obtain rfl := Option.some_inj.mp h
      exact .other (by simpa using hop)
  | scan a =>
    obtain ⟨r, hscan, rfl⟩ := Option.map_eq_some_iff.mp h
    exact .scanned hscan

/-! ### What a step does to the tables and to the events under way -/

/-- The event that the action puts in the dispatch channel. -/
def Sends {d : Deps} (s : World d) : Action → StoredEvent → Prop
  | .send w, e => ∃ events, s.writers w = .sending [] (e :: events)
  | .scan .send, e => ∃ groups events, s.scan = .sending groups (e :: events)
  | _, _ => False

/-- A step, as the tables, the channel, the unsent events, the dispatcher and the
watcher see it. -/
inductive Effect {d : Deps} (s s' : World d) : Action → Prop
  | quiet (a : Action) (hdb : s'.db = s.db) (hchannel : s'.channel = s.channel)
      (hscan : s'.scan = s.scan) (hunsent : s'.unsent = s.unsent)
      (hdelivery : s'.delivery = s.delivery ∨
        ∃ op, (∀ e, op ≠ .firstPass e) ∧ deliveryStep s.delivery op = some s'.delivery) :
      Effect s s' a
  | committed (w : ℕ) (clock : ℕ → Int64) (hasSubs : Bool) (call : PreparedCall d)
      (rows : List EventRow) (events : List StoredEvent)
      (hbegun : s.writers w = .begun hasSubs call) (hrows : Grows (fun _ => True) s.db rows s'.db)
      (hevents : List.Forall₂ Describes events rows)
      (hunsent : s'.unsent = update s.unsent w
        (if hasSubs then events.filter fun e => !internal e.streamId else []))
      (hchannel : s'.channel = s.channel) (hscan : s'.scan = s.scan)
      (hdelivery : s'.delivery = s.delivery) : Effect s s' (.commit w clock)
  | grown (a : Action) (db : Db) (rows : List EventRow) (hdb : db.events = s.db.events)
      (hrows : Grows (fun _ => True) db rows s'.db)
      (hsystem : (∃ op, a = .other op ∧ op.isDeclaration = false) ∨
        ∀ r ∈ rows, internal r.streamId = true)
      (hchannel : s'.channel = s.channel) (hscan : s'.scan = s.scan)
      (hunsent : s'.unsent = s.unsent) (hdelivery : s'.delivery = s.delivery) : Effect s s' a
  | sent (w : ℕ) (e : StoredEvent) (events : List StoredEvent)
      (hsending : s.writers w = .sending [] (e :: events))
      (hunsent : s'.unsent = update s.unsent w events) (hchannel : s'.channel = s.channel.send e)
      (hdb : s'.db = s.db) (hscan : s'.scan = s.scan) (hdelivery : s'.delivery = s.delivery) :
      Effect s s' (.send w)
  | taken (e : StoredEvent) (hreceive : s.channel.receive = some (e, s'.channel))
      (hdelivery : if internal e.streamId then s'.delivery = s.delivery
        else deliveryStep s.delivery (.firstPass e) = some s'.delivery)
      (hdb : s'.db = s.db) (hscan : s'.scan = s.scan) (hunsent : s'.unsent = s.unsent) :
      Effect s s' .firstPass
  | scanned (a : ScanAction)
      (hscan : scanStep s.registry s.db s.scan s.channel a = some (s'.scan, s'.channel))
      (hdb : s'.db = s.db) (hunsent : s'.unsent = s.unsent) (hdelivery : s'.delivery = s.delivery) :
      Effect s s' (.scan a)

theorem unsent_setWriter {w : ℕ} {writer : Writer d} :
    (s.setWriter w writer).unsent = update s.unsent w writer.unsent := by
  funext v
  by_cases hv : v = w
  · subst hv
    simp [World.unsent, World.setWriter]
  · simp [World.unsent, World.setWriter, hv]

theorem unsent_setWriter_of_eq {w : ℕ} {writer : Writer d} (h : writer.unsent = s.unsent w) :
    (s.setWriter w writer).unsent = s.unsent := by
  rw [unsent_setWriter, h, update_eq_self]

theorem exec_grows {d : Deps} {db : Db} {op : StoreOp} (hop : op.isPurge = false) :
    ∃ db₁ rows, db₁.events = db.events ∧ db₁.snapshots = db.snapshots ∧
      Grows (fun _ => True) db₁ rows (exec d db op) ∧ (op.isDeclaration = false ∨ rows = []) := by
  cases op with
  | declareStream streamId declaredBy description now =>
    rw [exec, declareStreamImpl]
    cases validateStreamId d.isAlphanumeric streamId with
    | error e => exact ⟨db, [], rfl, rfl, .refl _, .inr rfl⟩
    | ok u => exact ⟨_, [], events_insertStream, snapshots_insertStream, .refl _, .inr rfl⟩
  | write transforms call clock =>
    rw [exec]
    rcases hcall : call.execute d transforms clock db with e | ⟨outcomes, db'⟩
    · exact ⟨db, [], rfl, rfl, .refl _, .inl rfl⟩
    · obtain ⟨rows, hgrows, -⟩ := execute_grows hcall
      exact ⟨db, rows, rfl, rfl, hgrows.imp fun _ _ => trivial, .inl rfl⟩
  | emit eventType payload indexedTags now =>
    obtain ⟨rows, hgrows⟩ := @emit_grows d eventType payload indexedTags now db
    exact ⟨db, rows, rfl, rfl, hgrows.imp fun _ _ => trivial, .inl rfl⟩
  | purge => exact absurd hop (by simp [StoreOp.isPurge])

theorem internal_system : internal SYSTEM_STREAM = true := by decide

/-- A notice is written to an internal stream. -/
theorem notice_grows {n : Degraded} {now : Int64} {db : Db} :
    ∃ rows, Grows (fun _ => True) db rows (n.emit d now db) ∧
      ∀ r ∈ rows, internal r.streamId = true := by
  obtain ⟨rows, hgrows⟩ := @emit_grows d "SubscriptionDegraded"
    (subscriptionDegradedPayload (UInt64.ofNat n.1) n.2.streamId n.2.branch n.2.version) none now db
  refine ⟨rows, hgrows.imp fun _ _ => trivial, fun r hr => ?_⟩
  rw [(hgrows.all r hr).1.1]
  exact internal_system

/-- **What a step does**, action by action. -/
theorem effect_of_step {a : Action} (h : worldStep d s a = some s') : Effect s s' a := by
  cases taken_of_step h with
  | seeded q mode => exact .quiet _ rfl rfl rfl rfl (.inl rfl)
  | registered _ hdelivery =>
    exact .quiet _ rfl rfl rfl rfl (.inr ⟨_, fun _ => DeliveryOp.noConfusion, hdelivery⟩)
  | unregistered hdelivery =>
    exact .quiet _ rfl rfl rfl rfl (.inr ⟨_, fun _ => DeliveryOp.noConfusion, hdelivery⟩)
  | received hdelivery =>
    exact .quiet _ rfl rfl rfl rfl (.inr ⟨_, fun _ => DeliveryOp.noConfusion, hdelivery⟩)
  | begun hw =>
    exact .quiet _ rfl rfl rfl (unsent_setWriter_of_eq (by rw [World.unsent, hw]; rfl)) (.inl rfl)
  | refused => exact .quiet _ rfl rfl rfl rfl (.inl rfl)
  | failed hw =>
    exact .quiet _ rfl rfl rfl (unsent_setWriter_of_eq (by rw [World.unsent, hw]; rfl)) (.inl rfl)
  | committed hw _ hcommit =>
    obtain ⟨rows, hrows, hevents⟩ := commit_grows hcommit
    refine .committed _ _ _ _ rows _ hw (hrows.imp fun _ _ => trivial) hevents ?_ rfl rfl rfl
    show (s.setWriter _ _).unsent = _
    rw [unsent_setWriter]
    rfl
  | dispatched hw hdelivery =>
    refine .quiet _ rfl rfl rfl ?_ (.inr ⟨_, fun _ => DeliveryOp.noConfusion, hdelivery⟩)
    -- the event moves from `todo` to `post`
    refine unsent_setWriter_of_eq ?_
    rw [World.unsent, hw]
    exact List.append_assoc _ _ _
  | unlocked hw =>
    refine .quiet _ rfl rfl rfl ?_ (.inl rfl)
    refine unsent_setWriter_of_eq ?_
    rw [World.unsent, hw]
    exact (List.append_nil _).symm
  | noted hw =>
    exact .quiet _ rfl rfl rfl (unsent_setWriter_of_eq (by rw [World.unsent, hw]; rfl)) (.inl rfl)
  | sent hw => exact .sent _ _ _ hw unsent_setWriter rfl rfl rfl rfl
  | returned hw =>
    exact .quiet _ rfl rfl rfl (unsent_setWriter_of_eq (by rw [World.unsent, hw]; rfl)) (.inl rfl)
  | skipped _ _ hreceive hinternal =>
    exact .taken _ hreceive (by rw [if_pos hinternal]) rfl rfl rfl
  | offered _ _ hreceive hinternal hdelivery =>
    exact .taken _ hreceive (by rw [if_neg hinternal]; exact hdelivery) rfl rfl rfl
  | advanced _ hdelivery =>
    exact .quiet _ rfl rfl rfl rfl (.inr ⟨_, fun _ => DeliveryOp.noConfusion, hdelivery⟩)
  | reported =>
    obtain ⟨rows, hrows, hinternal⟩ := @notice_grows d _ _ s.db
    exact .grown _ s.db rows rfl hrows (.inr hinternal) rfl rfl rfl rfl
  | reportedSync =>
    obtain ⟨rows, hrows, hinternal⟩ := @notice_grows d _ _ s.db
    exact .grown _ s.db rows rfl hrows (.inr hinternal) rfl rfl rfl rfl
  | allReported => exact .quiet _ rfl rfl rfl rfl (.inl rfl)
  | other hop =>
    obtain ⟨db, rows, hdb, -, hrows, hdecl⟩ := @exec_grows d s.db _ hop
    refine .grown _ db rows hdb hrows ?_ rfl rfl rfl rfl
    rcases hdecl with hdecl | rfl
    · exact .inl ⟨_, rfl, hdecl⟩
    · exact .inr fun r hr => absurd hr List.not_mem_nil
  | scanned hscan => exact .scanned _ hscan rfl rfl rfl

/-- Only a call that begins reads `has_subscribers()`, and only a call of
`Store::subscribe` reads its seed. -/
theorem reads_of_step {a : Action} (h : worldStep d s a = some s') :
    (s'.writers = s.writers ∨ ∃ w writer, s'.writers = update s.writers w writer ∧
      ∀ hasSubs call, writer = .begun hasSubs call → hasSubs = s.registry.hasSubscribers) ∧
    ∀ p ∈ s'.subscribing, p ∈ s.subscribing ∨ ∃ q mode, p = (q, mode, seedCursors s.db q) := by
  cases taken_of_step h with
  | begun =>
    exact ⟨.inr ⟨_, _, rfl, fun _ _ heq => (Writer.begun.inj heq).1.symm⟩, fun _ hp => .inl hp⟩
  | failed | committed | dispatched | unlocked | noted | sent | returned =>
    exact ⟨.inr ⟨_, _, rfl, fun _ _ heq => absurd heq (by simp)⟩, fun _ hp => .inl hp⟩
  | seeded q mode =>
    refine ⟨.inl rfl, fun p hp => ?_⟩
    rcases List.mem_append.mp hp with hp | hp
    · exact .inl hp
    · exact .inr ⟨q, mode, List.mem_singleton.mp hp⟩
  | registered => exact ⟨.inl rfl, fun _ hp => .inl (List.mem_of_mem_eraseIdx hp)⟩
  | unregistered | received | refused | skipped | offered | advanced | reported | reportedSync
  | allReported | other | scanned => exact ⟨.inl rfl, fun _ hp => .inl hp⟩

/-! ### Calls on one small stream -/

/-- A call that appends `null` to the stream `s`, up to the release of the mutex. -/
def commitNull (w : ℕ) (eventType : String) : List Action :=
  [.beginCall w [] (.append { streamId := "s", eventType := eventType, payload := .null }),
    .commit w fun _ => 0, .syncDispatch w fun _ => false, .unlock w]

/-- The dispatcher with one event. -/
def dispatchOne : List Action := [.firstPass, .secondPass, .report 0]

/-- Declare the stream `s` and read the seed of a subscription for it. -/
def seedNull (mode : SubscriptionMode) : List Action :=
  [.other (.declareStream "s" "t" none 0), .subscribeSeed { streamPattern := "s" } mode]

end Fossic
