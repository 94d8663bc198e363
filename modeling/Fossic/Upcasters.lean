/-
Upcasters, and the reads that apply them.

`UpcasterRegistry::apply` walks the chain of upcasters of an event type from the
stored version.  The walk need not end, so `applyLoop` has fuel: `none` is a walk
that has not returned yet.  `Store::read_range` upcasts every event that it
returns; `compute_state_bytes` does not, and folds the payloads as they are
stored.

* `applyLoop_mono` — more fuel does not change what was returned;
* `readStateBytes_of_quiet` — on a store without snapshots a full read is the
  fold over the stored payloads;
* `reducers_see_reads` — so it agrees with the fold over what `read_range`
  returns, for every reducer, exactly when no stored payload is changed by its
  chain;
* `upcast_payload_not_folded` — a store on which they differ.
-/
import Fossic.SnapshotRuns

namespace Fossic

open KeyedList KeySort Checkpoint

/-! ### The registry -/

structure UpcasterEntry where
  fromVersion : UInt32
  toVersion : UInt32
  upcaster : Bytes → Except Error Bytes

/-- The upcasters of each event type, sorted by the version they start from. -/
abbrev UpcasterRegistry := List (String × List UpcasterEntry)

def UpcasterRegistry.register (registry : UpcasterRegistry) (eventType : String)
    (fromVersion toVersion : UInt32) (upcaster : Bytes → Except Error Bytes) : UpcasterRegistry :=
  let vec := (find registry eventType).getD []
  upsert registry eventType
    (sortBy (fun e => e.fromVersion.toNat) (vec ++ [⟨fromVersion, toVersion, upcaster⟩]))

/-- The loop of `apply`. -/
def applyLoop (entries : List UpcasterEntry) (eventType : String) :
    ℕ → UInt32 → Bytes → Option (Except Error Bytes)
  | 0, _, _ => none
  | fuel + 1, current, payload =>
    match entries.find? fun e => e.fromVersion = current with
    | none =>
      if entries.any fun e => current < e.fromVersion then
        some (.error (.upcasterChainGap eventType current))
      else some (.ok payload)
    | some e =>
      match e.upcaster payload with
      | .error err => some (.error err)
      | .ok payload' => applyLoop entries eventType fuel e.toVersion payload'

def UpcasterRegistry.apply (registry : UpcasterRegistry) (fuel : ℕ) (eventType : String)
    (storedVersion : UInt32) (payload : Bytes) : Option (Except Error Bytes) :=
  match find registry eventType with
  | none => some (.ok payload)
  | some [] => some (.ok payload)
  | some entries => applyLoop entries eventType fuel storedVersion payload

def applyUpcaster (registry : UpcasterRegistry) (fuel : ℕ) (event : StoredEvent) :
    Option (Except Error StoredEvent) :=
  (registry.apply fuel event.eventType event.typeVersion event.payload).map fun result =>
    result.map fun payload => { event with payload := payload }

/-- Upcast the events one after another, up to the first error. -/
def upcastAll (registry : UpcasterRegistry) (fuel : ℕ) :
    List StoredEvent → Option (Except Error (List StoredEvent))
  | [] => some (.ok [])
  | event :: events =>
    match applyUpcaster registry fuel event with
    | none => none
    | some (.error e) => some (.error e)
    | some (.ok event') =>
      (upcastAll registry fuel events).map fun result => result.map fun events' => event' :: events'

/-- `Store::read_range`. -/
def readRange (registry : UpcasterRegistry) (fuel : ℕ) (db : Db) (q : ReadQuery) :
    Option (Except Error (List StoredEvent)) :=
  upcastAll registry fuel (readRangeImpl db q)

/-! ### What upcasting returns -/

variable {registry : UpcasterRegistry} {db : Db} {streamId branch : String}
  {events events' : List StoredEvent} {d : Deps}

theorem applyLoop_mono {entries : List UpcasterEntry} {eventType : String} {fuel fuel' : ℕ}
    {current : UInt32} {payload : Bytes} {result : Except Error Bytes} (hle : fuel ≤ fuel')
    (h : applyLoop entries eventType fuel current payload = some result) :
    applyLoop entries eventType fuel' current payload = some result := by
  induction fuel generalizing fuel' current payload with
  | zero => exact absurd h (by simp [applyLoop])
  | succ fuel ih =>
    obtain ⟨fuel', rfl⟩ : ∃ n, fuel' = n + 1 := ⟨fuel' - 1, by omega⟩
    rw [applyLoop] at h ⊢
    split
    · rename_i hfind
      rw [hfind] at h
      exact h
    · rename_i e hfind
      rw [hfind] at h
      dsimp only at h
      split
      · rename_i err herr
        rw [herr] at h
        exact h
      · rename_i payload' hok
        rw [hok] at h
        exact ih (by omega) h

theorem applyUpcaster_eq_ok {fuel : ℕ} {event event' : StoredEvent}
    (h : applyUpcaster registry fuel event = some (.ok event')) :
    registry.apply fuel event.eventType event.typeVersion event.payload =
        some (.ok event'.payload) ∧
      event' = { event with payload := event'.payload } := by
  obtain ⟨result, hresult, hmap⟩ := Option.map_eq_some_iff.mp h
  cases result with
  | error e => exact absurd hmap (by simp [Except.map])
  | ok payload =>
    obtain rfl := Except.ok.inj hmap
    exact ⟨hresult, rfl⟩

/-- Upcasting a list is upcasting its events. -/
theorem upcastAll_eq_ok {fuel : ℕ} (h : upcastAll registry fuel events = some (.ok events')) :
    List.Forall₂ (fun event event' => applyUpcaster registry fuel event = some (.ok event'))
      events events' := by
  induction events generalizing events' with
  | nil =>
    obtain rfl := Except.ok.inj (Option.some_inj.mp h)
    exact .nil
  | cons event events ih =>
    rw [upcastAll] at h
    split at h
    · exact absurd h (by simp)
    · exact absurd h (by simp)
    · rename_i event' hevent
      obtain ⟨result, hresult, hmap⟩ := Option.map_eq_some_iff.mp h
      cases result with
      | error e => exact absurd hmap (by simp [Except.map])
      | ok events'' =>
        obtain rfl := Except.ok.inj hmap
        exact .cons hevent (ih hresult)

/-! ### Full reads of a store without snapshots -/

/-- The read does not put an event on the stream and branch that it reads. -/
def Quiet (s s' : StoreInner) (streamId branch : String) : Prop :=
  s'.db.rowsOn streamId branch = s.db.rowsOn streamId branch

/-- What every full read of the store returns when it leaves the stream and the
branch alone. -/
def ReadsAs (d : Deps) (s : StoreInner) (streamId branch : String)
    (state : Except Error Bytes) : Prop :=
  ∀ clock snapshotUs result s', readStateBytes d s streamId branch clock snapshotUs = (result, s') →
    Quiet s s' streamId branch → result = state

/-- The fold of the matching reducer over the given events. -/
def stateOver (reducers : List ReducerEntry) (streamId : String) (events : List StoredEvent) :
    Except Error Bytes := do
  let reducer ← getReducer reducers streamId
  foldEvents reducer streamId events

theorem readStateBytes_of_quiet {s s' : StoreInner} (hfits : s.db.Fits)
    (hempty : s.db.snapshots = []) {clock : ReadClock} {snapshotUs : Int64}
    {result : Except Error Bytes}
    (hread : readStateBytes d s streamId branch clock snapshotUs = (result, s'))
    (hquiet : Quiet s s' streamId branch) :
    result = currentState s.reducers s.db streamId branch := by
  -- only the matching reducer matters, and it agrees with itself
  have hsame : SameMeaning fun r => getReducer s.reducers streamId = .ok r := by
    intro r r' hr hr' _
    obtain rfl : r = r' := Except.ok.inj (hr.symm.trans hr')
    exact ⟨rfl, rfl⟩
  have htables : TablesSound (fun r => getReducer s.reducers streamId = .ok r) s.db := by
    refine ⟨hfits, fun sn hsn => ?_⟩
    rw [hempty] at hsn
    exact absurd hsn List.not_mem_nil
  obtain ⟨hreducers, hstate | ⟨-, e, hresult, hafter⟩⟩ :=
    readStateBytes_eq hsame htables (fun _ hr => hr) hread
  · exact hstate
  · rw [hreducers, currentState, history, hquiet] at hafter
    rw [hresult, currentState, history, hafter]

/-- Without a policy and a threshold, a full read changes no table. -/
theorem readStateBytes_manual {s : StoreInner} {r : BoxedReducer} {clock : ReadClock}
    {snapshotUs : Int64} (hfind : findArcWithPolicy s.reducers streamId = some (r, .manual))
    (hthreshold : s.reducerStateLargeThresholdBytes = USIZE_MAX) :
    (readStateBytes d s streamId branch clock snapshotUs).2.db = s.db := by
  rw [readStateBytes, readUpToSnapshot, hfind]
  dsimp only
  cases computeStateBytes r streamId branch none s.db with
  | error e => rfl
  | ok p =>
    obtain ⟨bytes, events⟩ := p
    dsimp only
    cases (readLoop r streamId branch clock.apply events 0 bytes s.stateMonitors).1 with
    | error e => rfl
    | ok state =>
      rw [maybeEmitStateLarge]
      dsimp only
      rw [if_pos hthreshold]
      rfl

/-! ### Probing -/

/-- A reducer that notes for every event whether its payload is `q`. -/
def probeReducer (q : Bytes) : BoxedReducer where
  name := "probe"
  version := 1
  stateSchemaVersion := 1
  initialStateBytes := .ok []
  applyBytes state payload := .returned (.ok (state ++ [if payload = q then 1 else 0]))

theorem applyEvents_probe {q state : Bytes} : applyEvents (probeReducer q) streamId state events =
    .ok (state ++ events.map fun e => if e.payload = q then 1 else 0) := by
  induction events generalizing state with
  | nil =>
    rw [List.map_nil, List.append_nil]
    rfl
  | cons e events ih =>
    rw [applyEvents, List.foldlM_cons, List.map_cons, ← List.singleton_append,
      ← List.append_assoc]
    exact ih

/-- A store whose one reducer is the probe. -/
def probeStore (db : Db) (q : Bytes) : StoreInner :=
  { StoreInner.opened db USIZE_MAX 0 with
    reducers := [⟨"**", specificityScore "**", probeReducer q, .manual⟩] }

theorem findArcWithPolicy_dstar {r : BoxedReducer} {policy : SnapshotPolicy} :
    findArcWithPolicy [⟨"**", specificityScore "**", r, policy⟩] streamId = some (r, policy) := by
  show (betterEntry streamId none _).map _ = _
  rw [betterEntry]
  dsimp only
  rw [globMatches_dstar]
  rfl

theorem findArcWithPolicy_probe {q : Bytes} :
    findArcWithPolicy (probeStore db q).reducers streamId = some (probeReducer q, .manual) :=
  findArcWithPolicy_dstar

theorem getReducer_probe {q : Bytes} :
    getReducer (probeStore db q).reducers streamId = .ok (probeReducer q) := by
  rw [getReducer, findArc, findArcWithPolicy_probe]
  rfl

/-- Equal marks on two lists that go together give equal payloads at the marks. -/
theorem exists_of_marks {q : Bytes} {P : StoredEvent → StoredEvent → Prop}
    (h : List.Forall₂ P events events')
    (hmarks : (events'.map fun e => if e.payload = q then (1 : UInt8) else 0) =
      events.map fun e => if e.payload = q then (1 : UInt8) else 0) :
    ∀ e ∈ events, e.payload = q → ∃ e', P e e' ∧ e'.payload = q := by
  induction h with
  | nil => exact fun e he => absurd he List.not_mem_nil
  | @cons a a' l l' haa' _ ih =>
    obtain ⟨hhead, htail⟩ := List.cons.inj hmarks
    intro e he hq
    rcases List.mem_cons.mp he with rfl | he
    · refine ⟨a', haa', ?_⟩
      by_contra hne
      dsimp only at hhead
      rw [if_pos hq, if_neg hne] at hhead
      exact absurd hhead (by decide)
    · exact ih htail e he hq

/-! ### Reducers and readers -/

/-- **Reducers and readers**: on a store without snapshots, full reads return the
fold over what `read_range` returns, whatever the reducers, if and only if
upcasting changes no payload of the stream and branch. -/
theorem reducers_see_reads (d : Deps) (registry : UpcasterRegistry) (db : Db) (hfits : db.Fits)
    (hempty : db.snapshots = []) (streamId branch : String) (fuel : ℕ) (events : List StoredEvent)
    (hread : readRange registry fuel db ⟨streamId, branch, none, none, none, none⟩ =
      some (.ok events)) :
    (∀ s : StoreInner, s.db = db →
        ReadsAs d s streamId branch (stateOver s.reducers streamId events)) ↔
      ∀ e ∈ history db streamId branch,
        registry.apply fuel e.eventType e.typeVersion e.payload = some (.ok e.payload) := by
  have hupcast := upcastAll_eq_ok hread
  rw [readRangeImpl_all hfits] at hupcast
  constructor
  · intro hreads e he
    -- a reducer that marks where `e.payload` occurs tells the two histories apart
    have hreads' := hreads (probeStore db e.payload) rfl ⟨fun _ => (0, 0), 0, 0, 0⟩ 0 _ _ rfl
    have hquiet : Quiet (probeStore db e.payload) (readStateBytes d (probeStore db e.payload)
        streamId branch ⟨fun _ => (0, 0), 0, 0, 0⟩ 0).2 streamId branch := by
      rw [Quiet, readStateBytes_manual findArcWithPolicy_probe rfl]
    have hstate := (readStateBytes_of_quiet hfits hempty rfl hquiet).symm.trans (hreads' hquiet)
    rw [currentState, stateOver, getReducer_probe] at hstate
    have hfold : applyEvents (probeReducer e.payload) streamId [] (history db streamId branch) =
        applyEvents (probeReducer e.payload) streamId [] events := hstate
    rw [applyEvents_probe, applyEvents_probe] at hfold
    obtain ⟨e', hee', hpayload⟩ :=
      exists_of_marks hupcast (Except.ok.inj hfold).symm e he rfl
    rw [← hpayload]
    exact hpayload ▸ (applyUpcaster_eq_ok hee').1
  · intro hunchanged s hs clock snapshotUs result s' hstate hquiet
    subst hs
    -- upcasting that changes no payload changes no event
    have hsame : history s.db streamId branch = events := by
      have hrows : List.Forall₂ (· = ·) (history s.db streamId branch) events := by
        refine forall₂_imp_of_mem hupcast fun e he e' hee' => ?_
        obtain ⟨happly, hrecord⟩ := applyUpcaster_eq_ok hee'
        have hpayload : e.payload = e'.payload :=
          Except.ok.inj (Option.some_inj.mp ((hunchanged e he).symm.trans happly))
        rw [hrecord, ← hpayload]
      exact List.forall₂_eq_eq_eq ▸ hrows
    rw [readStateBytes_of_quiet hfits hempty hstate hquiet, currentState, stateOver, hsame]

/-- A store with one event, of version 1 of its type. -/
def storedNull : Db :=
  exec plainDeps (exec plainDeps (.bootstrap 0) (.declareStream "s" "t" none 0))
    (.write [] (.append { streamId := "s", eventType := "a", payload := .null }) fun _ => 0)

theorem storedNull_fits : storedNull.Fits :=
  (exec_counted rfl (exec_counted rfl (bootstrap_counted 0))).toFits

/-- With no upcaster registered, reducers and readers agree. -/
theorem reducers_see_reads_plain :
    ReadsAs plainDeps (probeStore storedNull [0xc0]) "s" "main"
      (stateOver (probeStore storedNull [0xc0]).reducers "s" (history storedNull "s" "main")) := by
  have hread : readRange [] 0 storedNull ⟨"s", "main", none, none, none, none⟩ =
      some (.ok (history storedNull "s" "main")) := rfl
  exact (reducers_see_reads plainDeps [] storedNull storedNull_fits rfl "s" "main" 0 _ hread).mpr
    (fun _ _ => rfl) (probeStore storedNull [0xc0]) rfl

/-- An upcaster from version 1 to 2 that turns `null` into `false`. -/
def nullToFalse : UpcasterRegistry := [("a", [⟨1, 2, fun _ => .ok [0xc2]⟩])]

/-- Readers get the payload of version 2, and reducers that of version 1. -/
theorem upcast_payload_not_folded : ¬ ∀ (registry : UpcasterRegistry) (db : Db), db.Fits →
    db.snapshots = [] → ∀ (streamId branch : String) (fuel : ℕ) (events : List StoredEvent),
    readRange registry fuel db ⟨streamId, branch, none, none, none, none⟩ = some (.ok events) →
    ∀ s : StoreInner, s.db = db →
      ReadsAs plainDeps s streamId branch (stateOver s.reducers streamId events) := by
  intro h
  have hreads := h nullToFalse storedNull storedNull_fits rfl "s" "main" 2 _ rfl
    (probeStore storedNull [0xc0]) rfl ⟨fun _ => (0, 0), 0, 0, 0⟩ 0 _ _ rfl
  have hquiet : Quiet (probeStore storedNull [0xc0]) (readStateBytes plainDeps
      (probeStore storedNull [0xc0]) "s" "main" ⟨fun _ => (0, 0), 0, 0, 0⟩ 0).2 "s" "main" := by
    rw [Quiet, readStateBytes_manual findArcWithPolicy_probe rfl]
  have hmark : (.ok [1] : Except Error Bytes) = .ok [0] := hreads hquiet
  exact absurd (Except.ok.inj hmark) (by decide)

end Fossic
