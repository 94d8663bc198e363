/-
The life of a relay agent: `run`, and `_relay_with_retry`.

`run` opens both stores, subscribes, and relays what the subscription yields, one event after
another.  When the session ends, for whatever reason, it begins again with a new subscription,
and a subscription has only what is committed after it was made.  An event whose `relay_event`
raises is tried again, `max_retry_attempts` times in all, and is then skipped.  Other agents,
other users of the hub and the writers of the local store take their steps in between.

* `callTaken_of_step` — what a step of `relay_event` means for the loop;
* `loopInv_step` — what every step keeps while nothing is purged from the local store;
* `relay_loop_accounts` — where each event of the local store ends;
* `relay_never_catches_up` — what a session has missed, or has lost when it ended, is not
  relayed by any later one.
-/
import Fossic.RelayIdentity
import Fossic.PurgeRecord

namespace Fossic

open Transition Function

/-! ### The loop -/

/-- What the loop reads of `RelayConfig`. -/
structure RelayConfig where
  subscribePattern : String
  maxRetryAttempts : ℕ

/-- The subscription of `run`: on `main`, without the system streams. -/
def RelayConfig.covers (config : RelayConfig) (event : StoredEvent) : Bool :=
  (newEntry { streamPattern := config.subscribePattern } (.postCommit 1024) (-1) []).covers
    event.streamId event.branch

/-- How `_relay_with_retry` returned: with the result of `relay_event`, or after the last
exception. -/
inductive RelayEnd
  | returned (result : Bool)
  | skipped
  deriving DecidableEq

structure RelayLoop where
  relays : Relays
  subscribed : Bool
  /-- what the subscription has and has not yielded yet -/
  waiting : List StoredEvent
  /-- the event in `_relay_with_retry`, with the attempts that have raised -/
  inHand : Option (StoredEvent × ℕ)
  /-- history: the events of the local store that the pattern is for -/
  committed : List StoredEvent
  /-- history: those that were committed while there was no subscription -/
  missed : List StoredEvent
  /-- history: those that the subscription had and did not yield, or that were in hand when the
  session ended -/
  lost : List StoredEvent
  handled : List (StoredEvent × RelayEnd)
  /-- history: the attempts that have raised -/
  raises : List StoredEvent

def RelayLoop.init (hub : Db) (locals : ℕ → Db) : RelayLoop :=
  ⟨.init hub locals, false, [], none, [], [], [], [], []⟩

def RelayLoop.held (s : RelayLoop) : List StoredEvent := s.inHand.toList.map Prod.fst

/-- The steps of one call of `relay_event`. -/
inductive CallStep
  | check
  | locate
  | lookup
  | append (now : Int64)

def CallStep.action (me : ℕ) (event : StoredEvent) : CallStep → RelayAction
  | .check => .deliver me event
  | .locate => .locate me
  | .lookup => .lookup me
  | .append now => .append me now

inductive LoopAction
  /-- Both stores are open, and the subscription is made. -/
  | start
  /-- The session ends: the iteration does, or an exception or a crash ends it. -/
  | finish
  /-- A transaction on the local store, the agent's own on the system stream included. -/
  | commit (op : StoreOp)
  | take (k : ℕ)
  /-- The subscription drops an event. -/
  | lose (k : ℕ)
  /-- The append is the last step of a call: with it the call has returned. -/
  | call (c : CallStep)
  /-- A step of another agent, or of another user of the hub. -/
  | other (a : RelayAction)

/-- The step is not one of the agent or of its store. -/
def RelayAction.isOther (me : ℕ) : RelayAction → Bool
  | .deliver i _ => i ≠ me
  | .locate i => i ≠ me
  | .lookup i => i ≠ me
  | .append i _ => i ≠ me
  | .onLocal i _ => i ≠ me
  | .onHub _ => true

/-- The event that the call is for. -/
def Relaying.event : Relaying → Option StoredEvent
  | .idle => none
  | .checked event => some event
  | .located event _ _ => some event
  | .translated event _ => some event

/-- `_relay_with_retry` around the last step of an attempt: it goes on, has returned, or has
raised. -/
def RelayLoop.settle (s : RelayLoop) (maxRetryAttempts : ℕ) (event : StoredEvent)
    (attempts : ℕ) (relays : Relays) (me : ℕ) : RelayLoop :=
  match (relays.relaying me).event, relays.returned.drop s.relays.returned.length with
  | some _, _ => { s with relays := relays }
  | none, (_, _, result) :: _ =>
    { s with
      relays := relays
      inHand := none
      handled := s.handled ++ [(event, .returned result)] }
  | none, [] =>
    if attempts + 1 = maxRetryAttempts then
      { s with
        relays := relays
        inHand := none
        handled := s.handled ++ [(event, .skipped)]
        raises := s.raises ++ [event] }
    else
      { s with
        relays := relays
        inHand := some (event, attempts + 1)
        raises := s.raises ++ [event] }

/-- The new events of the local store that the subscription of `run` is for. -/
def RelayConfig.newEvents (config : RelayConfig) (db db' : Db) : List StoredEvent :=
  ((newRows db db').map rowToEvent).filter config.covers

section Step

variable (d : Deps) (py : PythonJson) (agents : ℕ → RelayAgent) (fuel : ℕ) (config : RelayConfig)
  (me : ℕ)

def loopStep (s : RelayLoop) : LoopAction → Option RelayLoop
  | .start => if s.subscribed then none else some { s with subscribed := true }
  | .finish =>
    if s.subscribed then
      some { s with
        relays := s.relays.go me .idle
        subscribed := false
        waiting := []
        inHand := none
        lost := s.lost ++ (s.waiting ++ s.held) }
    else none
  | .commit op =>
    (relayStep d py agents fuel s.relays (.onLocal me op)).map fun relays =>
      let events := config.newEvents (s.relays.locals me) (relays.locals me)
      if s.subscribed then
        { s with
          relays := relays
          committed := s.committed ++ events
          waiting := s.waiting ++ events }
      else
        { s with
          relays := relays
          committed := s.committed ++ events
          missed := s.missed ++ events }
  | .take k =>
    match s.inHand, s.waiting[k]? with
    | none, some event =>
      -- `range(0)` makes no attempt
      if config.maxRetryAttempts = 0 then
        some { s with
          waiting := s.waiting.eraseIdx k
          handled := s.handled ++ [(event, .skipped)] }
      else some { s with waiting := s.waiting.eraseIdx k, inHand := some (event, 0) }
    | _, _ => none
  | .lose k =>
    match s.waiting[k]? with
    | some event =>
      some { s with waiting := s.waiting.eraseIdx k, lost := s.lost ++ [event] }
    | none => none
  | .call c =>
    match s.inHand with
    | some (event, attempts) =>
      (relayStep d py agents fuel s.relays (c.action me event)).map fun relays =>
        s.settle config.maxRetryAttempts event attempts relays me
    | none => none
  | .other a =>
    if a.isOther me then
      (relayStep d py agents fuel s.relays a).map fun relays => { s with relays := relays }
    else none

end Step

variable {d : Deps} {py : PythonJson} {agents : ℕ → RelayAgent} {fuel : ℕ} {config : RelayConfig}
  {me : ℕ} {s s' : RelayLoop} {r r' : Relays} {a : LoopAction} {as bs : List LoopAction}
  {event e : StoredEvent} {attempts : ℕ} {hub : Db} {locals : ℕ → Db}

/-! ### One step of a call -/

theorem relaying_go {relaying : Relaying} : (r.go me relaying).relaying me = relaying := by
  rw [Relays.go]
  exact update_self me relaying r.relaying

theorem relaying_go_ne {i : ℕ} {relaying : Relaying} (hi : i ≠ me) :
    (r.go i relaying).relaying me = r.relaying me := by
  rw [Relays.go]
  exact update_of_ne hi.symm relaying r.relaying

/-- What a call of `relay_event` by the agent that has returned says of the hub. -/
structure ResultHolds (d : Deps) (py : PythonJson) (agent : RelayAgent) (hub : Db)
    (event : StoredEvent) (result : Bool) : Prop where
  relayed : result = true → ∃ row ∈ hub.events, ∃ causationId,
    relayedId d py agent event causationId = some row.id
  present : result = false → agent.shouldRelay event = false ∨ ∃ row ∈ hub.events,
    row.streamId = agent.hubStream event.streamId ∧ row.externalId = some event.id.toHex

/-- What a step of a call means for the loop around it. -/
inductive CallTaken (d : Deps) (py : PythonJson) (agents : ℕ → RelayAgent) (me : ℕ)
    (event : StoredEvent) (r r' : Relays) : Prop
  | going (hevent : (r'.relaying me).event = some event) (hreturned : r'.returned = r.returned)
      (hhub : r'.hub = r.hub)
  | raised (hidle : r'.relaying me = .idle) (hreturned : r'.returned = r.returned)
      (hhub : r'.hub = r.hub)
  | ended (result : Bool) (hidle : r'.relaying me = .idle)
      (hreturned : r'.returned = r.returned ++ [(me, event, result)])
      (hhub : r'.hub = r.hub ∨ ∃ causationId id row,
        RelayRow (agents me) event causationId id row ∧ r'.hub = r.hub.insert row ∧ result = true)
      (hholds : ResultHolds d py (agents me) r'.hub event result)

/-- **Inversion** of the steps of a call. -/
theorem callTaken_of_step {c : CallStep}
    (hevent : ∀ e, (r.relaying me).event = some e → e = event)
    (h : relayStep d py agents fuel r (c.action me event) = some r') :
    CallTaken d py agents me event r r' ∧ r'.locals = r.locals := by
  have hsame : ∀ {relaying : Relaying} {e : StoredEvent}, r.relaying me = relaying →
      relaying.event = some e → e = event := fun h he => hevent _ (h ▸ he)
  -- each branch of a step of the relay belongs to one step of the call
  generalize ha : c.action me event = a at h
  cases relayTaken_of_step h with
  | filtered hi hfilter =>
    cases c with
    | check =>
      obtain ⟨rfl, rfl⟩ := RelayAction.deliver.inj ha
      exact ⟨.ended false relaying_go rfl (.inl rfl) ⟨by simp, fun _ => .inl hfilter⟩, rfl⟩
    | _ => exact absurd ha (by simp [CallStep.action])
  | present hi hfilter hread =>
    cases c with
    | check =>
      obtain ⟨rfl, rfl⟩ := RelayAction.deliver.inj ha
      obtain ⟨row, hrow, hstream, hexternal, -⟩ := readByExternalId_some hread
      refine ⟨.ended false relaying_go rfl (.inl rfl) ⟨by simp, fun _ => .inr ?_⟩, rfl⟩
      exact ⟨row, hrow, hstream, hexternal⟩
    | _ => exact absurd ha (by simp [CallStep.action])
  | unreadable hi hfilter hread =>
    cases c with
    | check =>
      obtain ⟨rfl, rfl⟩ := RelayAction.deliver.inj ha
      exact ⟨.raised hi rfl rfl, rfl⟩
    | _ => exact absurd ha (by simp [CallStep.action])
  | checked hi hfilter hread =>
    cases c with
    | check =>
      obtain ⟨rfl, rfl⟩ := RelayAction.deliver.inj ha
      exact ⟨.going (congrArg Relaying.event relaying_go) rfl rfl, rfl⟩
    | _ => exact absurd ha (by simp [CallStep.action])
  | root hi hcause =>
    cases c with
    | locate =>
      obtain rfl := RelayAction.locate.inj ha
      obtain rfl := hsame hi rfl
      exact ⟨.going (congrArg Relaying.event relaying_go) rfl rfl, rfl⟩
    | _ => exact absurd ha (by simp [CallStep.action])
  | notLocal hi hcause hread =>
    cases c with
    | locate =>
      obtain rfl := RelayAction.locate.inj ha
      obtain rfl := hsame hi rfl
      exact ⟨.going (congrArg Relaying.event relaying_go) rfl rfl, rfl⟩
    | _ => exact absurd ha (by simp [CallStep.action])
  | located hi hcause hread =>
    cases c with
    | locate =>
      obtain rfl := RelayAction.locate.inj ha
      obtain rfl := hsame hi rfl
      exact ⟨.going (congrArg Relaying.event relaying_go) rfl rfl, rfl⟩
    | _ => exact absurd ha (by simp [CallStep.action])
  | notOnHub hi hread =>
    cases c with
    | lookup =>
      obtain rfl := RelayAction.lookup.inj ha
      obtain rfl := hsame hi rfl
      exact ⟨.going (congrArg Relaying.event relaying_go) rfl rfl, rfl⟩
    | _ => exact absurd ha (by simp [CallStep.action])
  | translated hi hread =>
    cases c with
    | lookup =>
      obtain rfl := RelayAction.lookup.inj ha
      obtain rfl := hsame hi rfl
      exact ⟨.going (congrArg Relaying.event relaying_go) rfl rfl, rfl⟩
    | _ => exact absurd ha (by simp [CallStep.action])
  | @appended i now event' causationId hub' hi happend =>
    cases c with
    | append now' =>
      obtain ⟨rfl, rfl⟩ := RelayAction.append.inj ha
      obtain rfl := hsame hi rfl
      obtain ⟨id, hid, -, -, hrow⟩ := relayAppend_spec happend
      refine ⟨.ended true relaying_go rfl ?_ ⟨fun _ => ?_, by simp⟩, rfl⟩
      · rcases hrow with ⟨row, hrow, -, hinsert⟩ | ⟨-, hkept⟩
        · exact .inr ⟨causationId, id, row, hrow, hinsert, rfl⟩
        · exact .inl hkept
      · -- the row of the append, or the one that has its id
        rcases hrow with ⟨row, hrow, -, rfl⟩ | ⟨⟨row, hmem, hrow⟩, rfl⟩
        · exact ⟨row, List.mem_append_right _ List.mem_cons_self, causationId, hrow.id_eq ▸ hid⟩
        · exact ⟨row, hmem, causationId, hrow ▸ hid⟩
    | _ => exact absurd ha (by simp [CallStep.action])
  | @raised i _ hraised =>
    have hi : i = me := by
      rcases hraised with rfl | rfl | ⟨now, rfl⟩ <;> cases c <;> simp_all [CallStep.action]
    subst hi
    exact ⟨.raised relaying_go rfl rfl, rfl⟩
  | onHub => cases c <;> exact absurd ha (by simp [CallStep.action])
  | onLocal => cases c <;> exact absurd ha (by simp [CallStep.action])

/-- The steps of others leave the agent and its store alone. -/
theorem other_of_step {b : RelayAction} (hother : b.isOther me = true)
    (h : relayStep d py agents fuel r b = some r') :
    r'.relaying me = r.relaying me ∧ r'.locals me = r.locals me := by
  cases relayTaken_of_step h with
  | filtered | present | checked | root | notLocal | located | notOnHub | translated | appended =>
    exact ⟨relaying_go_ne (of_decide_eq_true hother), rfl⟩
  | unreadable | onHub => exact ⟨rfl, rfl⟩
  | @raised i _ hraised =>
    have hi : i ≠ me := by
      rcases hraised with rfl | rfl | ⟨now, rfl⟩ <;> exact of_decide_eq_true hother
    exact ⟨relaying_go_ne hi, rfl⟩
  | @onLocal i op =>
    have hi : i ≠ me := of_decide_eq_true hother
    exact ⟨rfl, update_of_ne hi.symm _ r.locals⟩

/-- What is done on the local store, which is all that is done. -/
def Relays.commit (d : Deps) (r : Relays) (me : ℕ) (op : StoreOp) : Relays :=
  { r with locals := update r.locals me (exec d (r.locals me) op) }

theorem Relays.locals_commit {op : StoreOp} :
    (r.commit d me op).locals me = exec d (r.locals me) op := by
  rw [Relays.commit]
  exact update_self me _ r.locals

/-- The events of the local store that come with the transaction. -/
def RelayLoop.news (d : Deps) (config : RelayConfig) (me : ℕ) (s : RelayLoop) (op : StoreOp) :
    List StoredEvent :=
  config.newEvents (s.relays.locals me) (exec d (s.relays.locals me) op)

/-- **What a step does**, branch by branch. -/
inductive LoopTaken (d : Deps) (py : PythonJson) (agents : ℕ → RelayAgent) (fuel : ℕ)
    (config : RelayConfig) (me : ℕ) (s : RelayLoop) : LoopAction → RelayLoop → Prop
  | started : LoopTaken d py agents fuel config me s .start { s with subscribed := true }
  | finished :
      LoopTaken d py agents fuel config me s .finish
        { s with
          relays := s.relays.go me .idle
          subscribed := false
          waiting := []
          inHand := none
          lost := s.lost ++ (s.waiting ++ s.held) }
  | yielded {op : StoreOp} :
      LoopTaken d py agents fuel config me s (.commit op)
        { s with
          relays := s.relays.commit d me op
          committed := s.committed ++ s.news d config me op
          waiting := s.waiting ++ s.news d config me op }
  | missed {op : StoreOp} :
      LoopTaken d py agents fuel config me s (.commit op)
        { s with
          relays := s.relays.commit d me op
          committed := s.committed ++ s.news d config me op
          missed := s.missed ++ s.news d config me op }
  | untried {k : ℕ} {event : StoredEvent} (hhand : s.inHand = none)
      (hk : s.waiting[k]? = some event) (hmax : config.maxRetryAttempts = 0) :
      LoopTaken d py agents fuel config me s (.take k)
        { s with
          waiting := s.waiting.eraseIdx k
          handled := s.handled ++ [(event, .skipped)] }
  | took {k : ℕ} {event : StoredEvent} (hhand : s.inHand = none)
      (hk : s.waiting[k]? = some event) (hmax : config.maxRetryAttempts ≠ 0) :
      LoopTaken d py agents fuel config me s (.take k)
        { s with waiting := s.waiting.eraseIdx k, inHand := some (event, 0) }
  | lost {k : ℕ} {event : StoredEvent} (hk : s.waiting[k]? = some event) :
      LoopTaken d py agents fuel config me s (.lose k)
        { s with waiting := s.waiting.eraseIdx k, lost := s.lost ++ [event] }
  | going {c : CallStep} {event : StoredEvent} {attempts : ℕ} {relays : Relays}
      (hhand : s.inHand = some (event, attempts))
      (hevent : (relays.relaying me).event = some event) (hlocals : relays.locals = s.relays.locals)
      (hhub : relays.hub = s.relays.hub) :
      LoopTaken d py agents fuel config me s (.call c) { s with relays := relays }
  | returned {c : CallStep} {event : StoredEvent} {attempts : ℕ} {relays : Relays} {result : Bool}
      (hhand : s.inHand = some (event, attempts)) (hidle : relays.relaying me = .idle)
      (hlocals : relays.locals = s.relays.locals)
      (hhub : relays.hub = s.relays.hub ∨ ∃ causationId id row,
        RelayRow (agents me) event causationId id row ∧ relays.hub = s.relays.hub.insert row ∧
          result = true)
      (hholds : ResultHolds d py (agents me) relays.hub event result) :
      LoopTaken d py agents fuel config me s (.call c)
        { s with
          relays := relays
          inHand := none
          handled := s.handled ++ [(event, .returned result)] }
  | gaveUp {c : CallStep} {event : StoredEvent} {attempts : ℕ} {relays : Relays}
      (hhand : s.inHand = some (event, attempts)) (hidle : relays.relaying me = .idle)
      (hlocals : relays.locals = s.relays.locals) (hhub : relays.hub = s.relays.hub)
      (hmax : attempts + 1 = config.maxRetryAttempts) :
      LoopTaken d py agents fuel config me s (.call c)
        { s with
          relays := relays
          inHand := none
          handled := s.handled ++ [(event, .skipped)]
          raises := s.raises ++ [event] }
  | retried {c : CallStep} {event : StoredEvent} {attempts : ℕ} {relays : Relays}
      (hhand : s.inHand = some (event, attempts)) (hidle : relays.relaying me = .idle)
      (hlocals : relays.locals = s.relays.locals) (hhub : relays.hub = s.relays.hub)
      (hmax : attempts + 1 ≠ config.maxRetryAttempts) :
      LoopTaken d py agents fuel config me s (.call c)
        { s with
          relays := relays
          inHand := some (event, attempts + 1)
          raises := s.raises ++ [event] }
  | other {b : RelayAction} {relays : Relays}
      (hsame : relays.relaying me = s.relays.relaying me ∧ relays.locals me = s.relays.locals me)
      (hrelays : relayStep d py agents fuel s.relays b = some relays) :
      LoopTaken d py agents fuel config me s (.other b) { s with relays := relays }

/-- Whoever is in a call is in it for the event in hand. -/
def RelayLoop.Busy (me : ℕ) (s : RelayLoop) : Prop :=
  ∀ e, (s.relays.relaying me).event = some e → ∃ attempts, s.inHand = some (e, attempts)

/-- **Inversion** of the steps of the loop. -/
theorem loopTaken_of_step (hbusy : s.Busy me)
    (h : loopStep d py agents fuel config me s a = some s') :
    LoopTaken d py agents fuel config me s a s' := by
  cases a with
  | start =>
    rw [loopStep] at h
    split at h
    · exact absurd h (by simp)
    · obtain rfl := Option.some_inj.mp h
      exact .started
  | finish =>
    rw [loopStep] at h
    split at h
    · obtain rfl := Option.some_inj.mp h
      exact .finished
    · exact absurd h (by simp)
  | commit op =>
    rw [loopStep] at h
    obtain ⟨relays, hrelays, rfl⟩ := Option.map_eq_some_iff.mp h
    obtain rfl : s.relays.commit d me op = relays := Option.some_inj.mp hrelays
    simp only [Relays.locals_commit]
    split
    · exact .yielded
    · exact .missed
  | take k =>
    rw [loopStep] at h
    split at h
    · rename_i hhand hk
      split at h
      · rename_i hmax
        obtain rfl := Option.some_inj.mp h
        exact .untried hhand hk hmax
      · rename_i hmax
        obtain rfl := Option.some_inj.mp h
        exact .took hhand hk hmax
    · exact absurd h (by simp)
  | lose k =>
    rw [loopStep] at h
    split at h
    · rename_i hk
      obtain rfl := Option.some_inj.mp h
      exact .lost hk
    · exact absurd h (by simp)
  | call c =>
    rw [loopStep] at h
    split at h
    · rename_i event attempts hhand
      obtain ⟨relays, hstep, rfl⟩ := Option.map_eq_some_iff.mp h
      have hevent : ∀ e, (s.relays.relaying me).event = some e → e = event := by
        intro e he
        obtain ⟨n, hn⟩ := hbusy e he
        exact (Prod.mk.inj (Option.some_inj.mp (hn.symm.trans hhand))).1
      obtain ⟨htaken, hlocals⟩ := callTaken_of_step hevent hstep
      cases htaken with
      | going hgoing hreturned hhub =>
        rw [RelayLoop.settle, hgoing]
        exact .going hhand hgoing hlocals hhub
      | raised hidle hreturned hhub =>
        rw [RelayLoop.settle, hidle, hreturned, List.drop_length]
        show LoopTaken d py agents fuel config me s (.call c) (if _ then _ else _)
        split
        · rename_i hmax
          exact .gaveUp hhand hidle hlocals hhub hmax
        · rename_i hmax
          exact .retried hhand hidle hlocals hhub hmax
      | ended result hidle hreturned hhub hholds =>
        rw [RelayLoop.settle, hidle, hreturned, List.drop_left]
        exact .returned hhand hidle hlocals hhub hholds
    · exact absurd h (by simp)
  | other b =>
    rw [loopStep] at h
    split at h
    · rename_i hother
      obtain ⟨relays, hstep, rfl⟩ := Option.map_eq_some_iff.mp h
      exact .other (other_of_step hother hstep) hstep
    · exact absurd h (by simp)

/-! ### Where the events are -/

/-- The events of the local store, by what has become of them. -/
def RelayLoop.placed (s : RelayLoop) : List StoredEvent :=
  s.missed ++ (s.lost ++ (s.waiting ++ (s.held ++ s.handled.map Prod.fst)))

/-- How often an attempt on the event has raised. -/
def RelayLoop.tries (s : RelayLoop) (e : StoredEvent) : ℕ := s.raises.countP fun x => x.id = e.id

/-- Each event has one place; and each was committed with an id that was not there before. -/
structure Placing (me : ℕ) (s : RelayLoop) : Prop where
  accounted : s.committed.Perm s.placed
  distinct : (s.committed.map (·.id)).Nodup
  stored : ∀ e ∈ s.committed, ∃ row ∈ (s.relays.locals me).events, row.id = e.id
  rows : ((s.relays.locals me).events.map (·.id)).Nodup

/-- The attempts that are counted. -/
structure Retrying (config : RelayConfig) (s : RelayLoop) : Prop where
  tried : ∀ e ∈ s.raises, e ∈ s.lost ∨ e ∈ s.held ∨ e ∈ s.handled.map Prod.fst
  trying : ∀ e n, s.inHand = some (e, n) → s.tries e = n ∧ n < config.maxRetryAttempts
  skipped : ∀ e, (e, RelayEnd.skipped) ∈ s.handled → s.tries e = config.maxRetryAttempts
  returned : ∀ e result, (e, RelayEnd.returned result) ∈ s.handled →
    s.tries e < config.maxRetryAttempts

theorem Placing.ids_nodup (h : Placing me s) : (s.placed.map (·.id)).Nodup :=
  (h.accounted.map _).nodup_iff.mp h.distinct

/-- What waits is nothing that has been in hand. -/
theorem Placing.waiting_ne (h : Placing me s) (he : e ∈ s.waiting)
    (hevent : event ∈ s.lost ∨ event ∈ s.held ∨ event ∈ s.handled.map Prod.fst) :
    event.id ≠ e.id := by
  have hids := h.ids_nodup
  simp only [RelayLoop.placed, List.map_append, List.nodup_append, List.mem_append] at hids
  obtain ⟨-, ⟨-, ⟨-, -, hwaiting⟩, hlost⟩, -⟩ := hids
  have heid : e.id ∈ s.waiting.map (·.id) := List.mem_map_of_mem he
  rcases hevent with hevent | hevent | hevent
  · exact hlost _ (List.mem_map_of_mem hevent) _ (.inl heid)
  · exact (hwaiting _ heid _ (.inl (List.mem_map_of_mem hevent))).symm
  · exact (hwaiting _ heid _ (.inr (List.mem_map_of_mem hevent))).symm

/-- What has been handled is not in hand, nor was it missed, nor lost. -/
theorem Placing.handled_ne (h : Placing me s) (he : e ∈ s.handled.map Prod.fst)
    (hevent : event ∈ s.missed ∨ event ∈ s.lost ∨ event ∈ s.held) : event.id ≠ e.id := by
  have hids := h.ids_nodup
  simp only [RelayLoop.placed, List.map_append, List.nodup_append, List.mem_append] at hids
  obtain ⟨-, ⟨-, ⟨-, ⟨-, -, hheld⟩, -⟩, hlost⟩, hmissed⟩ := hids
  have heid : e.id ∈ (s.handled.map Prod.fst).map (·.id) := List.mem_map_of_mem he
  rcases hevent with hevent | hevent | hevent
  · exact hmissed _ (List.mem_map_of_mem hevent) _ (.inr (.inr (.inr heid)))
  · exact hlost _ (List.mem_map_of_mem hevent) _ (.inr (.inr heid))
  · exact hheld _ (List.mem_map_of_mem hevent) _ heid

theorem tries_eq_zero (h : Placing me s) (hretry : Retrying config s) (he : e ∈ s.waiting) :
    s.tries e = 0 := by
  refine List.countP_eq_zero.mpr fun x hx => ?_
  have hne := h.waiting_ne he (hretry.tried x hx)
  simpa using hne

/-! ### The transactions of the local store -/

theorem newEvents_spec {db : Db} {op : StoreOp} (hop : op.isPurge = false)
    (hrows : (db.events.map (·.id)).Nodup) :
    ((exec d db op).events.map (·.id)).Nodup ∧ db.events ⊆ (exec d db op).events ∧
      ((config.newEvents db (exec d db op)).map (·.id)).Nodup ∧
      ∀ e ∈ config.newEvents db (exec d db op),
        (∃ row ∈ (exec d db op).events, row.id = e.id) ∧ ∀ row ∈ db.events, row.id ≠ e.id := by
  obtain ⟨db₁, rows, hevents, -, hgrows, -⟩ := @exec_grows d db op hop
  have hafter : (exec d db op).events = db.events ++ rows := by
    rw [hgrows.eq, hevents]
  have hfresh : ∀ row ∈ rows, ∀ r ∈ db.events, r.id ≠ row.id := hevents ▸ hgrows.fresh
  have hdistinct : ((exec d db op).events.map (·.id)).Nodup := exec_distinct hrows
  have hnew : newRows db (exec d db op) = rows := newRows_of_append hafter hfresh
  refine ⟨hdistinct, ?_, ?_, fun e he => ?_⟩
  · rw [hafter]
    exact List.subset_append_left _ _
  · rw [hafter, List.map_append] at hdistinct
    have hids : ((rows.map rowToEvent).map (·.id)).Nodup := by
      rw [List.map_map]
      exact (List.nodup_append.mp hdistinct).2.1
    rw [RelayConfig.newEvents, hnew]
    exact hids.sublist (List.filter_sublist.map _)
  · rw [RelayConfig.newEvents, hnew] at he
    obtain ⟨row, hrow, rfl⟩ := List.mem_map.mp (List.mem_of_mem_filter he)
    refine ⟨⟨row, ?_, rfl⟩, fun r hr => hfresh row hrow r hr⟩
    rw [hafter]
    exact List.mem_append_right _ hrow

/-! ### Each event keeps one place -/

theorem held_eq (hhand : s.inHand = some (event, attempts)) : s.held = [event] := by
  rw [RelayLoop.held, hhand]
  rfl

theorem waiting_perm {k : ℕ} (hk : s.waiting[k]? = some event) :
    s.waiting.Perm (event :: s.waiting.eraseIdx k) := by
  obtain ⟨hlt, rfl⟩ := List.getElem?_eq_some_iff.mp hk
  exact (List.getElem_cons_eraseIdx_perm hlt).symm

/-- A transaction of the local store brings events whose ids are new. -/
theorem Placing.commit {op : StoreOp} (h : Placing me s) (hop : op.isPurge = false) :
    ((s.committed ++ s.news d config me op).map (·.id)).Nodup ∧
      (∀ e ∈ s.committed ++ s.news d config me op,
        ∃ row ∈ ((s.relays.commit d me op).locals me).events, row.id = e.id) ∧
      (((s.relays.commit d me op).locals me).events.map (·.id)).Nodup := by
  obtain ⟨hrows, hkept, hnews, hfresh⟩ := @newEvents_spec d config (s.relays.locals me) op hop h.rows
  rw [Relays.locals_commit]
  refine ⟨?_, fun e he => ?_, hrows⟩
  · rw [List.map_append]
    refine List.nodup_append.mpr ⟨h.distinct, hnews, ?_⟩
    intro x hx y hy hxy
    obtain ⟨e, he, rfl⟩ := List.mem_map.mp hx
    obtain ⟨e', he', rfl⟩ := List.mem_map.mp hy
    -- what was committed before has its row, and the new ids have none
    obtain ⟨row, hrow, hid⟩ := h.stored e he
    exact (hfresh e' he').2 row hrow (hid.trans hxy)
  · rcases List.mem_append.mp he with he | he
    · obtain ⟨row, hrow, hid⟩ := h.stored e he
      exact ⟨row, hkept hrow, hid⟩
    · exact (hfresh e he).1

/-- What keeps the committed events and the local store keeps the placing, if the places have the
same events. -/
theorem Placing.move (h : Placing me s) (hcommitted : s'.committed = s.committed)
    (hlocal : s'.relays.locals me = s.relays.locals me) (hplaced : s.placed.Perm s'.placed) :
    Placing me s' where
  accounted := hcommitted ▸ h.accounted.trans hplaced
  distinct := hcommitted ▸ h.distinct
  stored := by
    rw [hcommitted, hlocal]
    exact h.stored
  rows := hlocal ▸ h.rows

/-- The event in hand goes to those that have been handled. -/
theorem placed_handled {last : RelayEnd} (hhand : s.inHand = some (event, attempts)) :
    s.placed.Perm (s.missed ++ (s.lost ++ (s.waiting ++
      (s.handled ++ [(event, last)]).map Prod.fst))) := by
  rw [RelayLoop.placed, held_eq hhand, List.map_append]
  exact ((List.perm_append_comm.append_left _).append_left _).append_left _

theorem placing_step (h : Placing me s) (hbusy : s.Busy me)
    (hkeep : ∀ op, a = .commit op → op.isPurge = false)
    (hstep : loopStep d py agents fuel config me s a = some s') : Placing me s' := by
  classical
  -- nothing leaves one place but for another: the copies of each event are counted
  cases loopTaken_of_step hbusy hstep with
  | started => exact h.move rfl rfl .rfl
  | finished =>
    refine h.move rfl rfl (List.perm_iff_count.mpr fun t => ?_)
    simp only [RelayLoop.placed, RelayLoop.held, Option.toList_none, List.map_nil,
      List.count_append, List.count_nil]
    omega
  | @yielded op =>
    obtain ⟨hdistinct, hstored, hrows⟩ := @Placing.commit d config me s op h (hkeep op rfl)
    refine ⟨List.perm_iff_count.mpr fun t => ?_, hdistinct, hstored, hrows⟩
    have hcount := h.accounted.count_eq t
    simp only [RelayLoop.placed, RelayLoop.held, List.count_append] at hcount ⊢
    omega
  | @missed op =>
    obtain ⟨hdistinct, hstored, hrows⟩ := @Placing.commit d config me s op h (hkeep op rfl)
    refine ⟨List.perm_iff_count.mpr fun t => ?_, hdistinct, hstored, hrows⟩
    have hcount := h.accounted.count_eq t
    simp only [RelayLoop.placed, RelayLoop.held, List.count_append] at hcount ⊢
    omega
  | untried hhand hk =>
    refine h.move rfl rfl (List.perm_iff_count.mpr fun t => ?_)
    have hcount := (waiting_perm hk).count_eq t
    simp only [RelayLoop.placed, RelayLoop.held, List.map_append, List.map_cons, List.map_nil,
      List.count_append, List.count_cons, List.count_nil] at hcount ⊢
    omega
  | took hhand hk =>
    refine h.move rfl rfl (List.perm_iff_count.mpr fun t => ?_)
    have hcount := (waiting_perm hk).count_eq t
    simp only [RelayLoop.placed, RelayLoop.held, hhand, Option.toList_none, Option.toList_some,
      List.map_cons, List.map_nil, List.count_append, List.count_cons, List.count_nil] at hcount ⊢
    omega
  | lost hk =>
    refine h.move rfl rfl (List.perm_iff_count.mpr fun t => ?_)
    have hcount := (waiting_perm hk).count_eq t
    simp only [RelayLoop.placed, RelayLoop.held, List.count_append, List.count_cons,
      List.count_nil] at hcount ⊢
    omega
  | going hhand hevent hlocals => exact h.move rfl (congrFun hlocals me) .rfl
  | returned hhand hidle hlocals | gaveUp hhand hidle hlocals =>
    exact h.move rfl (congrFun hlocals me) (placed_handled hhand)
  | retried hhand hidle hlocals =>
    refine h.move rfl (congrFun hlocals me) (.of_eq ?_)
    simp only [RelayLoop.placed, RelayLoop.held, hhand, Option.toList_some, List.map_cons]
  | other hsame => exact h.move rfl hsame.2 .rfl

theorem busy_step (hbusy : s.Busy me)
    (hstep : loopStep d py agents fuel config me s a = some s') : s'.Busy me := by
  intro e he
  have hnot : ∀ {relays : Relays}, relays.relaying me = .idle →
      (relays.relaying me).event ≠ some e := by
    intro relays hidle
    rw [hidle]
    exact Option.some_ne_none e ∘ Eq.symm
  cases loopTaken_of_step hbusy hstep with
  | started | yielded | missed | untried | lost => exact hbusy e he
  | finished => exact absurd he (hnot relaying_go)
  | took hhand =>
    -- nobody was in a call, with no event in hand
    obtain ⟨n, hn⟩ := hbusy e he
    exact absurd (hhand.symm.trans hn) (by simp)
  | going hhand hevent =>
    obtain rfl := Option.some_inj.mp (hevent.symm.trans he)
    exact ⟨_, hhand⟩
  | returned _ hidle | gaveUp _ hidle | retried _ hidle => exact absurd he (hnot hidle)
  | other hsame => exact hbusy e (hsame.1 ▸ he)

/-! ### The attempts -/

theorem countP_raise {raises : List StoredEvent} : (raises ++ [event]).countP (fun x => x.id = e.id)
    = raises.countP (fun x => x.id = e.id) + if event.id = e.id then 1 else 0 := by
  rw [List.countP_append, List.countP_singleton]
  simp only [decide_eq_true_eq]

/-- An exception, after which the event is tried again or skipped. -/
theorem Retrying.raise (h : Placing me s) (hretry : Retrying config s)
    (hhand : s.inHand = some (event, attempts)) :
    (s.raises ++ [event]).countP (fun x => x.id = event.id) = attempts + 1 ∧
      ∀ e ∈ s.handled.map Prod.fst, (s.raises ++ [event]).countP (fun x => x.id = e.id) =
        s.tries e := by
  constructor
  · rw [countP_raise, if_pos rfl]
    exact congrArg (· + 1) (hretry.trying event attempts hhand).1
  · intro e he
    have hheld : event ∈ s.held := held_eq hhand ▸ List.mem_singleton_self event
    rw [countP_raise, if_neg (h.handled_ne he (.inr (.inr hheld)))]
    rfl

/-- What is handled was handled before, or has just been. -/
theorem mem_handled_concat {handled : List (StoredEvent × RelayEnd)} {result last : RelayEnd}
    (h : (e, result) ∈ handled ++ [(event, last)]) :
    (e, result) ∈ handled ∨ e = event ∧ result = last := by
  rcases List.mem_append.mp h with h | h
  · exact .inl h
  · exact .inr (Prod.mk.inj (List.mem_singleton.mp h))

theorem handled_subset {handled : List (StoredEvent × RelayEnd)} {last : RelayEnd} :
    handled.map Prod.fst ⊆ (handled ++ [(event, last)]).map Prod.fst := by
  rw [List.map_append]
  exact List.subset_append_left _ _

theorem retrying_step (h : Placing me s) (hretry : Retrying config s) (hbusy : s.Busy me)
    (hstep : loopStep d py agents fuel config me s a = some s') : Retrying config s' := by
  -- when the event in hand is handled, those that have been tried are handled or lost
  have hdone : ∀ {event : StoredEvent} {attempts : ℕ} {last : RelayEnd},
      s.inHand = some (event, attempts) → ∀ e ∈ s.raises,
        e ∈ s.lost ∨ e ∈ (s.handled ++ [(event, last)]).map Prod.fst := by
    intro event attempts last hhand e he
    rcases hretry.tried e he with hlost | hheld | hhandled
    · exact .inl hlost
    · rw [held_eq hhand] at hheld
      obtain rfl := List.mem_singleton.mp hheld
      exact .inr (List.mem_map_of_mem (List.mem_append_right _ (List.mem_singleton_self _)))
    · exact .inr (handled_subset hhandled)
  have hzero : ∀ {k : ℕ} {event : StoredEvent}, s.waiting[k]? = some event → s.tries event = 0 :=
    fun hk => tries_eq_zero h hretry (List.mem_of_getElem? hk)
  have hstep := loopTaken_of_step hbusy hstep
  obtain ⟨htried, htrying, hskipped, hreturned⟩ := id hretry
  cases hstep with
  | started | yielded | missed | going | other => exact ⟨htried, htrying, hskipped, hreturned⟩
  | finished =>
    refine ⟨fun e he => ?_, fun e n hn => absurd hn (by simp), hskipped, hreturned⟩
    rcases htried e he with hlost | hheld | hhandled
    · exact .inl (List.mem_append_left _ hlost)
    · exact .inl (List.mem_append_right _ (List.mem_append_right _ hheld))
    · exact .inr (.inr hhandled)
  | @untried k event hhand hk hmax =>
    refine ⟨fun e he => (htried e he).imp_right (Or.imp_right fun h => handled_subset h), htrying,
      fun e he => ?_, fun e result he => ?_⟩
    · rcases mem_handled_concat he with he | ⟨rfl, -⟩
      · exact hskipped e he
      · exact (hzero hk).trans hmax.symm
    · rcases mem_handled_concat he with he | ⟨-, hlast⟩
      · exact hreturned e result he
      · exact absurd hlast (by simp)
  | @took k event hhand hk hmax =>
    refine ⟨fun e he => ?_, fun e n hn => ?_, hskipped, hreturned⟩
    · rcases htried e he with hlost | hheld | hhandled
      · exact .inl hlost
      · rw [RelayLoop.held, hhand] at hheld
        exact absurd hheld List.not_mem_nil
      · exact .inr (.inr hhandled)
    · obtain ⟨rfl, rfl⟩ := Prod.mk.inj (Option.some_inj.mp hn)
      exact ⟨hzero hk, Nat.pos_of_ne_zero hmax⟩
  | lost hk =>
    exact ⟨fun e he => (htried e he).imp_left (List.mem_append_left _), htrying, hskipped, hreturned⟩
  | @returned c event attempts relays result hhand hidle =>
    refine ⟨fun e he => (hdone hhand e he).imp_right .inr, fun e n hn => absurd hn (by simp),
      fun e he => ?_, fun e result' he => ?_⟩
    · rcases mem_handled_concat he with he | ⟨-, hlast⟩
      · exact hskipped e he
      · exact absurd hlast (by simp)
    · rcases mem_handled_concat he with he | ⟨rfl, -⟩
      · exact hreturned e result' he
      · obtain ⟨htries, hlt⟩ := htrying _ attempts hhand
        exact htries.trans_lt hlt
  | @gaveUp c event attempts relays hhand hidle hlocals hhub hmax =>
    obtain ⟨hmine, hothers⟩ := Retrying.raise h hretry hhand
    refine ⟨fun e he => ?_, fun e n hn => absurd hn (by simp), fun e he => ?_,
      fun e result he => ?_⟩
    · rcases List.mem_append.mp he with he | he
      · exact (hdone hhand e he).imp_right .inr
      · obtain rfl := List.mem_singleton.mp he
        refine .inr (.inr (List.mem_map_of_mem (a := (e, .skipped)) ?_))
        exact List.mem_append_right _ (List.mem_singleton_self _)
    · rcases mem_handled_concat he with he | ⟨rfl, -⟩
      · exact (hothers e (List.mem_map_of_mem he)).trans (hskipped e he)
      · exact hmine.trans hmax
    · rcases mem_handled_concat he with he | ⟨-, hlast⟩
      · exact (hothers e (List.mem_map_of_mem he)).trans_lt (hreturned e result he)
      · exact absurd hlast (by simp)
  | @retried c event attempts relays hhand hidle hlocals hhub hmax =>
    obtain ⟨hmine, hothers⟩ := Retrying.raise h hretry hhand
    have hlt := (htrying event attempts hhand).2
    refine ⟨fun e he => ?_, fun e n hn => ?_, fun e he => ?_, fun e result he => ?_⟩
    · rcases List.mem_append.mp he with he | he
      · rcases htried e he with hlost | hheld | hhandled
        · exact .inl hlost
        · rw [held_eq hhand] at hheld
          exact .inr (.inl hheld)
        · exact .inr (.inr hhandled)
      · exact .inr (.inl he)
    · obtain ⟨rfl, rfl⟩ := Prod.mk.inj (Option.some_inj.mp hn)
      exact ⟨hmine, by omega⟩
    · exact (hothers e (List.mem_map_of_mem he)).trans (hskipped e he)
    · exact (hothers e (List.mem_map_of_mem he)).trans_lt (hreturned e result he)

/-! ### What the hub has -/

theorem ResultHolds.mono {agent : RelayAgent} {hub hub' : Db} {result : Bool}
    (h : ResultHolds d py agent hub event result) (hsub : hub.events ⊆ hub'.events) :
    ResultHolds d py agent hub' event result where
  relayed hresult := by
    obtain ⟨row, hrow, hid⟩ := h.relayed hresult
    exact ⟨row, hsub hrow, hid⟩
  present hresult := (h.present hresult).imp_right fun ⟨row, hrow, hfound⟩ =>
    ⟨row, hsub hrow, hfound⟩

theorem ResultHolds.of_hub_eq {agent : RelayAgent} {hub hub' : Db} {result : Bool}
    (h : ResultHolds d py agent hub event result) (heq : hub' = hub) :
    ResultHolds d py agent hub' event result := heq ▸ h

/-- The results that were returned, and what they said, which is still so. -/
def ResultsHold (d : Deps) (py : PythonJson) (agents : ℕ → RelayAgent) (me : ℕ) (s : RelayLoop) :
    Prop :=
  ∀ e result, (e, RelayEnd.returned result) ∈ s.handled →
    ResultHolds d py (agents me) s.relays.hub e result

theorem resultsHold_step (h : ResultsHold d py agents me s) (hbusy : s.Busy me)
    (hstep : loopStep d py agents fuel config me s a = some s') :
    ResultsHold d py agents me s' := by
  intro e result he
  cases loopTaken_of_step hbusy hstep with
  | started | finished | yielded | missed | took | lost => exact h e result he
  | untried =>
    rcases mem_handled_concat he with he | ⟨-, hlast⟩
    · exact h e result he
    · exact absurd hlast (by simp)
  | going hhand hevent hlocals hhub => exact (h e result he).of_hub_eq hhub
  | @returned c event attempts relays result' hhand hidle hlocals hhub hholds =>
    rcases mem_handled_concat he with he | ⟨rfl, hlast⟩
    · rcases hhub with hhub | ⟨-, -, row, -, hhub, -⟩
      · exact (h e result he).of_hub_eq hhub
      · refine (h e result he).mono ?_
        rw [hhub]
        exact List.subset_append_left _ _
    · obtain rfl := RelayEnd.returned.inj hlast
      exact hholds
  | gaveUp hhand hidle hlocals hhub =>
    rcases mem_handled_concat he with he | ⟨-, hlast⟩
    · exact (h e result he).of_hub_eq hhub
    · exact absurd hlast (by simp)
  | retried hhand hidle hlocals hhub => exact (h e result he).of_hub_eq hhub
  | other hsame hrelays => exact (h e result he).mono (hub_subset_of_step hrelays)

/-! ### Whole runs -/

/-- Nothing is purged from the local store. -/
def LoopAction.Keeps : LoopAction → Prop
  | .commit op => op.isPurge = false
  | _ => True

structure LoopInv (d : Deps) (py : PythonJson) (agents : ℕ → RelayAgent) (config : RelayConfig)
    (me : ℕ) (s : RelayLoop) : Prop where
  busy : s.Busy me
  placing : Placing me s
  retrying : Retrying config s
  results : ResultsHold d py agents me s

theorem loopInv_init (hlocal : ((locals me).events.map (·.id)).Nodup) :
    LoopInv d py agents config me (.init hub locals) where
  busy e he := absurd he (by simp [RelayLoop.init, Relays.init, Relaying.event])
  placing := ⟨.refl _, List.nodup_nil, fun e he => absurd he List.not_mem_nil, hlocal⟩
  retrying :=
    { tried := fun e he => absurd he List.not_mem_nil
      trying := fun e n hn => absurd hn (by simp [RelayLoop.init])
      skipped := fun e he => absurd he List.not_mem_nil
      returned := fun e result he => absurd he List.not_mem_nil }
  results e result he := absurd he List.not_mem_nil

/-- **One step.** -/
theorem loopInv_step (h : LoopInv d py agents config me s) (hkeep : a.Keeps)
    (hstep : loopStep d py agents fuel config me s a = some s') :
    LoopInv d py agents config me s' where
  busy := busy_step h.busy hstep
  placing := placing_step h.placing h.busy (fun op hop => by rwa [hop] at hkeep) hstep
  retrying := retrying_step h.placing h.retrying h.busy hstep
  results := resultsHold_step h.results h.busy hstep

theorem loopInv_run (hkeep : ∀ a ∈ as, a.Keeps) (h : LoopInv d py agents config me s)
    (hrun : run (loopStep d py agents fuel config me) s as = some s') :
    LoopInv d py agents config me s' :=
  run_invariant (fun _ _ _ h hkeep hstep => loopInv_step h hkeep hstep) h
    (along_of_forall (Q := LoopAction.Keeps) hkeep) hrun

/-- **Where each event ends.**  Whatever interrupts the sessions, whatever fails, and whatever
others do on the hub: each event of the local store that the pattern is for is in one place, and
in no other.  It was committed while there was no subscription; or the subscription lost it; or
it waits; or it is in hand; or it has been handled.  If it was skipped, exactly
`max_retry_attempts` attempts on it have raised.  Otherwise fewer have, and the hub has a row
under its external id or with its content, unless the filter is not for it. -/
theorem relay_loop_accounts (hlocal : ((locals me).events.map (·.id)).Nodup)
    (hkeep : ∀ a ∈ as, a.Keeps)
    (hrun : run (loopStep d py agents fuel config me) (.init hub locals) as = some s) :
    s.committed.Perm
        (s.missed ++ (s.lost ++ (s.waiting ++ (s.held ++ s.handled.map Prod.fst)))) ∧
      (s.committed.map (·.id)).Nodup ∧
      (∀ e, (e, RelayEnd.skipped) ∈ s.handled → s.tries e = config.maxRetryAttempts) ∧
      ∀ e result, (e, RelayEnd.returned result) ∈ s.handled →
        s.tries e < config.maxRetryAttempts ∧
          ResultHolds d py (agents me) s.relays.hub e result := by
  obtain ⟨-, hplacing, hretrying, hresults⟩ :=
    loopInv_run hkeep (loopInv_init hlocal) hrun
  refine ⟨hplacing.accounted, hplacing.distinct, hretrying.skipped, fun e result he => ?_⟩
  exact ⟨hretrying.returned e result he, hresults e result he⟩

def declaredStore : Db := exec plainDeps (Db.bootstrap 0) (.declareStream "s" "t" none 0)

/-- One event is committed before the subscription is made, and one after it. -/
def lateStart : List LoopAction :=
  [.commit (appendNull "a"), .start, .commit (appendNull "b"), .take 0, .call .check,
    .call .locate, .call (.append 0)]

theorem lateStart_keeps : ∀ a ∈ lateStart, a.Keeps := by
  simp [lateStart, LoopAction.Keeps, appendNull, StoreOp.isPurge]

theorem relay_loop_accounts_late : ∃ s : RelayLoop,
    run (loopStep plainDeps plainPy projectAgent 1 ⟨"s", 5⟩ 0)
      (.init projectHub fun _ => declaredStore) lateStart = some s ∧
    (s.missed.length = 1 ∧ s.handled.length = 1) ∧
    s.committed.Perm
      (s.missed ++ (s.lost ++ (s.waiting ++ (s.held ++ s.handled.map Prod.fst)))) := by
  obtain ⟨s, hrun, hcounts⟩ : ∃ s : RelayLoop,
      run (loopStep plainDeps plainPy projectAgent 1 ⟨"s", 5⟩ 0)
        (.init projectHub fun _ => declaredStore) lateStart = some s ∧
      (s.missed.length = 1 ∧ s.handled.length = 1) := ⟨_, rfl, by decide⟩
  exact ⟨s, hrun, hcounts, (relay_loop_accounts (by decide) lateStart_keeps hrun).1⟩

/-! ### No later session catches up -/

/-- Nobody else writes external ids to the streams of the project. -/
def Aside (d : Deps) (py : PythonJson) (agents : ℕ → RelayAgent) (fuel me : ℕ) (s : RelayLoop) :
    LoopAction → Prop
  | .other b => ∀ relays, relayStep d py agents fuel s.relays b = some relays →
    ∀ row ∈ relays.hub.events, row ∈ s.relays.hub.events ∨
      (∀ streamId, row.streamId ≠ (agents me).hubStream streamId) ∨ row.externalId = none
  | _ => True

/-- The external ids on the streams of the project are those of events that were relayed. -/
def OnlyHandled (agents : ℕ → RelayAgent) (me : ℕ) (s : RelayLoop) : Prop :=
  ∀ row ∈ s.relays.hub.events, ∀ streamId, row.streamId = (agents me).hubStream streamId →
    ∀ x : EventId, row.externalId = some x.toHex →
      ∃ e, (e, RelayEnd.returned true) ∈ s.handled ∧ e.id = x

theorem onlyHandled_step (h : OnlyHandled agents me s) (hbusy : s.Busy me)
    (haside : Aside d py agents fuel me s a)
    (hstep : loopStep d py agents fuel config me s a = some s') : OnlyHandled agents me s' := by
  -- what was handled before is handled now
  have hold : ∀ {hub' : Db} {handled : List (StoredEvent × RelayEnd)}, hub' = s.relays.hub →
      s.handled ⊆ handled → ∀ row ∈ hub'.events, ∀ streamId,
        row.streamId = (agents me).hubStream streamId → ∀ x : EventId,
          row.externalId = some x.toHex → ∃ e, (e, RelayEnd.returned true) ∈ handled ∧ e.id = x := by
    intro hub' handled hhub hsub row hrow streamId hstream x hexternal
    obtain ⟨e, he, hid⟩ := h row (hhub ▸ hrow) streamId hstream x hexternal
    exact ⟨e, hsub he, hid⟩
  cases loopTaken_of_step hbusy hstep with
  | started | finished | yielded | missed | took | lost => exact hold rfl (List.Subset.refl _)
  | untried => exact hold rfl (List.subset_append_left _ _)
  | going hhand hevent hlocals hhub => exact hold hhub (List.Subset.refl _)
  | gaveUp hhand hidle hlocals hhub => exact hold hhub (List.subset_append_left _ _)
  | retried hhand hidle hlocals hhub => exact hold hhub (List.Subset.refl _)
  | @returned c event attempts relays result hhand hidle hlocals hhub hholds =>
    rcases hhub with hhub | ⟨causationId, id, new, hnew, hhub, rfl⟩
    · exact hold hhub (List.subset_append_left _ _)
    · intro row hrow streamId hstream x hexternal
      have hrow : row ∈ relays.hub.events := hrow
      rw [hhub] at hrow
      rcases List.mem_append.mp hrow with hrow | hrow
      · exact hold rfl (List.subset_append_left _ _) row hrow streamId hstream x hexternal
      · -- the row of the event in hand
        obtain rfl := List.mem_singleton.mp hrow
        refine ⟨event, List.mem_append_right _ (List.mem_singleton_self _), ?_⟩
        exact toHex_injective (Option.some_inj.mp (hnew.externalId.symm.trans hexternal))
  | @other b relays hsame hrelays =>
    intro row hrow streamId hstream x hexternal
    rcases haside relays hrelays row hrow with hrow | hother | hnone
    · exact h row hrow streamId hstream x hexternal
    · exact absurd hstream (hother streamId)
    · exact absurd (hnone.symm.trans hexternal) (by simp)

theorem passed_step (hbusy : s.Busy me)
    (hstep : loopStep d py agents fuel config me s a = some s') :
    s.missed ⊆ s'.missed ∧ s.lost ⊆ s'.lost := by
  cases loopTaken_of_step hbusy hstep with
  | finished => exact ⟨List.Subset.refl _, List.subset_append_left _ _⟩
  | missed => exact ⟨List.subset_append_left _ _, List.Subset.refl _⟩
  | lost => exact ⟨List.Subset.refl _, List.subset_append_left _ _⟩
  | _ => exact ⟨List.Subset.refl _, List.Subset.refl _⟩

/-- What was missed or lost stays so. -/
theorem passed_run (h : LoopInv d py agents config me s) (hkeep : ∀ a ∈ as, a.Keeps)
    (hrun : run (loopStep d py agents fuel config me) s as = some s') :
    s.missed ⊆ s'.missed ∧ s.lost ⊆ s'.lost := by
  have hall := run_invariant
    (I := fun t => LoopInv d py agents config me t ∧ s.missed ⊆ t.missed ∧ s.lost ⊆ t.lost)
    (fun t a t' ht hkeep hstep => ?_) ⟨h, List.Subset.refl _, List.Subset.refl _⟩
    (along_of_forall (Q := LoopAction.Keeps) hkeep) hrun
  · exact hall.2
  · obtain ⟨hinv, hmissed, hlost⟩ := ht
    obtain ⟨hmissed', hlost'⟩ := passed_step hinv.busy hstep
    exact ⟨loopInv_step hinv hkeep hstep, List.Subset.trans hmissed hmissed',
      List.Subset.trans hlost hlost'⟩

theorem onlyHandled_run (hlocal : ((locals me).events.map (·.id)).Nodup)
    (hhub : ∀ row ∈ hub.events, ∀ streamId, row.streamId = (agents me).hubStream streamId →
      row.externalId = none)
    (hkeep : ∀ a ∈ as, a.Keeps)
    (haside : Along (loopStep d py agents fuel config me) (Aside d py agents fuel me)
      (.init hub locals) as)
    (hrun : run (loopStep d py agents fuel config me) (.init hub locals) as = some s) :
    OnlyHandled agents me s := by
  have hstart : OnlyHandled agents me (.init hub locals) := by
    intro row hrow streamId hstream x hexternal
    exact absurd ((hhub row hrow streamId hstream).symm.trans hexternal) (by simp)
  refine (run_invariant
    (I := fun t => LoopInv d py agents config me t ∧ OnlyHandled agents me t)
    (fun t a t' ht hboth hstep => ?_) ⟨loopInv_init hlocal, hstart⟩
    ((along_of_forall (Q := LoopAction.Keeps) hkeep).and haside) hrun).2
  obtain ⟨hinv, honly⟩ := ht
  exact ⟨loopInv_step hinv hboth.1 hstep, onlyHandled_step honly hinv.busy hboth.2 hstep⟩

/-- **No session catches up.**  An event that was committed while there was no subscription, or
that a subscription lost, or that was in hand when a session ended, is handled by no later
session.  If the hub starts without external ids on the streams of the project, and nobody else
writes any there, it is not on the hub either. -/
theorem relay_never_catches_up (hlocal : ((locals me).events.map (·.id)).Nodup)
    (hkeep : ∀ a ∈ as ++ bs, a.Keeps)
    (hrun : run (loopStep d py agents fuel config me) (.init hub locals) as = some s)
    (he : e ∈ s.missed ∨ e ∈ s.lost)
    (hrun' : run (loopStep d py agents fuel config me) s bs = some s') :
    e ∉ s'.handled.map Prod.fst ∧
      ((∀ row ∈ hub.events, ∀ streamId, row.streamId = (agents me).hubStream streamId →
          row.externalId = none) →
        Along (loopStep d py agents fuel config me) (Aside d py agents fuel me)
          (.init hub locals) (as ++ bs) →
        ¬ OnHub s'.relays.hub (agents me) e) := by
  have hboth := run_append.mpr ⟨s, hrun, hrun'⟩
  have hinv : LoopInv d py agents config me s :=
    loopInv_run (fun a ha => hkeep a (List.mem_append_left _ ha)) (loopInv_init hlocal) hrun
  have hinv' : LoopInv d py agents config me s' :=
    loopInv_run hkeep (loopInv_init hlocal) hboth
  have hpassed : e ∈ s'.missed ∨ e ∈ s'.lost := by
    obtain ⟨hmissed, hlost⟩ :=
      passed_run hinv (fun a ha => hkeep a (List.mem_append_right _ ha)) hrun'
    exact he.imp (fun h => hmissed h) (fun h => hlost h)
  -- an id has one place, and what was passed over is never in hand
  have hne : ∀ e' ∈ s'.handled.map Prod.fst, e.id ≠ e'.id := by
    intro e' he'
    refine hinv'.placing.handled_ne he' ?_
    exact hpassed.imp_right .inl
  refine ⟨fun hmem => hne e hmem rfl, fun hhub haside hon => ?_⟩
  obtain ⟨row, hrow, ⟨hstream, -⟩, hexternal⟩ := hon
  obtain ⟨e', he', hid⟩ :=
    onlyHandled_run hlocal hhub hkeep haside hboth row hrow e.streamId hstream e.id hexternal
  exact hne e' (List.mem_map_of_mem he') hid.symm

theorem relay_never_catches_up_late : ∃ s s' : RelayLoop, ∃ e : StoredEvent,
    run (loopStep plainDeps plainPy projectAgent 1 ⟨"s", 5⟩ 0)
      (.init projectHub fun _ => declaredStore) (lateStart.take 1) = some s ∧
    run (loopStep plainDeps plainPy projectAgent 1 ⟨"s", 5⟩ 0) s (lateStart.drop 1) = some s' ∧
    (e ∈ s.missed ∧ s'.handled.length = 1) ∧
    e ∉ s'.handled.map Prod.fst ∧ ¬ OnHub s'.relays.hub (projectAgent 0) e := by
  have haside : Along (loopStep plainDeps plainPy projectAgent 1 ⟨"s", 5⟩ 0)
      (Aside plainDeps plainPy projectAgent 1 0) (.init projectHub fun _ => declaredStore)
      (lateStart.take 1 ++ lateStart.drop 1) := by
    refine (along_of_forall (Q := fun a => ∀ b, a ≠ .other b) (by simp [lateStart])).imp
      fun s a ha => ?_
    cases a with
    | other b => exact absurd rfl (ha b)
    | _ => trivial
  have hempty : projectHub.events = [] := rfl
  obtain ⟨s, s', e, hrun, hrun', he, hhandled⟩ : ∃ s s' : RelayLoop, ∃ e : StoredEvent,
      run (loopStep plainDeps plainPy projectAgent 1 ⟨"s", 5⟩ 0)
        (.init projectHub fun _ => declaredStore) (lateStart.take 1) = some s ∧
      run (loopStep plainDeps plainPy projectAgent 1 ⟨"s", 5⟩ 0) s (lateStart.drop 1) = some s' ∧
      e ∈ s.missed ∧ s'.handled.length = 1 := ⟨_, _, _, rfl, rfl, List.mem_cons_self, by decide⟩
  obtain ⟨hnever, hhub⟩ := relay_never_catches_up (by decide) lateStart_keeps hrun (.inl he) hrun'
  exact ⟨s, s', e, hrun, hrun', ⟨he, hhandled⟩, hnever, hhub (by simp [hempty]) haside⟩

end Fossic
