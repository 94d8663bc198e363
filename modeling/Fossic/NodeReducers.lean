/-
Reducers that are written in JavaScript.

`index.js` keeps reducers of its own beside those of the Rust registry.  It looks them up
with its own copy of the matcher, and replays with them what `readRange` returns, upcast,
from a snapshot that `getSnapshotState` returns.  The two native calls of a read are awaited
one after the other, so anything may be committed between them.

* `find_reducer_selects` — which reducer the lookup finds, and when it is the one that the Rust
  registry would find after the same registrations;
* `node_reads_replay` — what a read returns in any run of callers that read, and that save
  what they read, while the store is written to.
-/
import Fossic.ReducerSelection
import Fossic.ReadOutcome

namespace Fossic

open BestScan Checkpoint Transition

namespace Node

/-! ### Looking up a reducer -/

/-- `_matchParts`. -/
def matchParts : List (List Char) → List (List Char) → Bool
  | [], s => s.isEmpty
  | p :: ps, s =>
    if p = ['*', '*'] then (List.range (s.length + 1)).any fun n => matchParts ps (s.drop n)
    else
      match s with
      | [] => false
      | x :: xs =>
        if p = ['*'] then matchParts ps xs
        else if p = x then matchParts ps xs
        else false

/-- `_globMatches`. -/
def globMatches (pattern streamId : String) : Bool :=
  matchParts (segments pattern) (segments streamId)

/-- The loop of `_specificity`. -/
def countLiterals : List (List Char) → ℕ → ℕ
  | [], count => count
  | seg :: segs, count =>
    if seg = ['*'] ∨ seg = ['*', '*'] then count else countLiterals segs (count + 1)

/-- `_specificity`. -/
def specificity (pattern : String) : ℕ := countLiterals (segments pattern) 0

/-- What `registerReducer` pushes. -/
structure Entry (β : Type) where
  pattern : String
  reducer : β

/-- The loop of `_findReducer`, with `best` and `bestSpec`. -/
def considerEntry {β : Type} (streamId : String) (acc : Option β × ℤ) (entry : Entry β) :
    Option β × ℤ :=
  if globMatches entry.pattern streamId then
    if acc.2 < specificity entry.pattern then (some entry.reducer, specificity entry.pattern)
    else acc
  else acc

/-- `_findReducer`. -/
def findReducer {β : Type} (registry : List (Entry β)) (streamId : String) : Option β :=
  (registry.foldl (considerEntry streamId) (none, -1)).1

section Lookup

variable {β : Type} {streamId : String} {registry : List (Entry β)}

/-- The copy of the matcher agrees with the Rust one. -/
theorem matchParts_eq : ∀ ps s : List (List Char), matchParts ps s = Fossic.matchParts ps s
  | [], s => by
    rw [matchParts, Fossic.matchParts]
  | p :: ps, s => by
    rw [matchParts.eq_def, Fossic.matchParts.eq_def]
    dsimp only
    by_cases hstars : p = ['*', '*']
    · rw [if_pos hstars, if_pos hstars]
      exact congrArg _ (funext fun n => matchParts_eq ps (s.drop n))
    · rw [if_neg hstars, if_neg hstars]
      cases s with
      | nil => rfl
      | cons x xs =>
        dsimp only
        rw [matchParts_eq ps xs]
        by_cases hstar : p = ['*']
        · simp [hstar]
        · by_cases heq : p = x
          · simp [heq]
          · simp [hstar, heq]

theorem globMatches_eq (pattern : String) : globMatches pattern streamId =
    Fossic.globMatches pattern streamId :=
  matchParts_eq _ _

theorem countLiterals_eq : ∀ (segs : List (List Char)) (count : ℕ), countLiterals segs count =
    count + (segs.takeWhile fun s => s != ['*'] && s != ['*', '*']).length
  | [], count => rfl
  | seg :: segs, count => by
    rw [countLiterals]
    by_cases hwild : seg = ['*'] ∨ seg = ['*', '*']
    · rw [if_pos hwild, List.takeWhile_cons_of_neg (by simpa [or_iff_not_imp_left] using hwild)]
      rfl
    · rw [if_neg hwild, countLiterals_eq segs,
        List.takeWhile_cons_of_pos (by simpa [not_or] using hwild), List.length_cons]
      omega

/-- So does the score. -/
theorem specificity_eq (pattern : String) : specificity pattern = specificityScore pattern := by
  rw [specificity, countLiterals_eq, Nat.zero_add, specificityScore]

/-- The pair that the loop keeps: the best entry so far, and its score. -/
def bestPair (best : Option (Entry β)) : Option β × ℤ :=
  (best.map (·.reducer), best.elim (-1) fun e => (specificityScore e.pattern : ℤ))

theorem considerEntry_bestPair (best : Option (Entry β)) (entry : Entry β) :
    considerEntry streamId (bestPair best) entry = bestPair (better
      (fun e => Fossic.globMatches e.pattern streamId) (fun e => specificityScore e.pattern)
      best entry) := by
  rw [considerEntry, better, globMatches_eq, specificity_eq]
  by_cases hmatch : Fossic.globMatches entry.pattern streamId = true
  · rw [if_pos hmatch, hmatch, Bool.true_and]
    cases best with
    | none =>
      have hneg : (-1 : ℤ) < specificityScore entry.pattern := by omega
      show (if (-1 : ℤ) < _ then _ else _) = _
      rw [if_pos hneg]
      rfl
    | some b =>
      show (if (specificityScore b.pattern : ℤ) < _ then _ else _) = _
      by_cases hlt : specificityScore b.pattern < specificityScore entry.pattern
      · rw [if_pos (by omega)]
        simp [hlt, bestPair]
      · rw [if_neg (by omega)]
        simp [hlt, bestPair]
  · rw [if_neg hmatch]
    simp [hmatch]

/-- The lookup is the scan for the best entry. -/
theorem findReducer_eq_scan : findReducer registry streamId =
    (scan (fun e : Entry β => Fossic.globMatches e.pattern streamId)
      (fun e => specificityScore e.pattern) registry).map (·.reducer) := by
  have hfold : ∀ (entries : List (Entry β)) (best : Option (Entry β)),
      entries.foldl (considerEntry streamId) (bestPair best) = bestPair (entries.foldl (better
        (fun e => Fossic.globMatches e.pattern streamId) (fun e => specificityScore e.pattern))
        best) := by
    intro entries
    induction entries with
    | nil => exact fun best => rfl
    | cons entry entries ih =>
      intro best
      rw [List.foldl_cons, List.foldl_cons, considerEntry_bestPair, ih]
  exact congrArg Prod.fst (hfold registry none)

theorem findReducer_registrations {regs : List Registration} :
    findReducer (regs.map fun r => ⟨r.pattern, r⟩) streamId =
      scan (fun r : Registration => Fossic.globMatches r.pattern streamId)
        (fun r => specificityScore r.pattern) regs := by
  rw [findReducer_eq_scan, scan_map, Option.map_map]
  exact Option.map_id'

theorem acceptedFrom_sublist : ∀ (regs : List Registration) (entries : List ReducerEntry),
    (acceptedFrom entries regs).Sublist regs
  | [], _ => .slnil
  | r :: regs, entries => by
    rw [acceptedFrom]
    split
    · exact (acceptedFrom_sublist regs _).cons_cons r
    · exact (acceptedFrom_sublist regs _).cons r

theorem accepted_subset {regs : List Registration} {r : Registration} (hr : r ∈ accepted regs) :
    r ∈ regs :=
  (acceptedFrom_sublist regs []).subset hr

/-- The best of all registrations, if it is accepted, is the best of the accepted ones. -/
theorem findArcWithPolicy_of_scan {regs : List Registration} {r : Registration}
    (hscan : scan (fun r : Registration => Fossic.globMatches r.pattern streamId)
      (fun r => specificityScore r.pattern) regs = some r) (hr : r ∈ accepted regs) :
    findArcWithPolicy (registered regs) streamId = some (r.reducer, r.policy) := by
  have hbest : scan (fun e : ReducerEntry => Fossic.globMatches e.pattern streamId)
      (·.specificity) (registered regs) = some r.entry := by
    refine (scan_eq_some_iff untied_registered).mpr ⟨?_, (scan_mem hscan).2, ?_⟩
    · rw [registered_eq]
      exact List.mem_map_of_mem hr
    · intro e he hmatch
      rw [registered_eq] at he
      obtain ⟨r', hr', rfl⟩ := List.mem_map.mp he
      exact score_le_scan hscan r' (accepted_subset hr') hmatch
  rw [findArcWithPolicy_eq_scan, hbest]
  rfl

/-- **Which reducer is found**, after any sequence of registrations: the first of the largest
score among those whose pattern matches.  The Rust registry, which refuses some of the same
registrations, finds one only if this lookup does; and both find the same one whenever the
one that is found here was not refused there. -/
theorem find_reducer_selects (regs : List Registration) (streamId : String) :
    (findReducer (regs.map fun r => ⟨r.pattern, r⟩) streamId = none ↔
      ∀ r ∈ regs, Fossic.globMatches r.pattern streamId = false) ∧
    (∀ r, findReducer (regs.map fun r => ⟨r.pattern, r⟩) streamId = some r →
      (∃ front back, regs = front ++ r :: back ∧
        Fossic.globMatches r.pattern streamId = true ∧
        (∀ r' ∈ front, Fossic.globMatches r'.pattern streamId = true →
          specificityScore r'.pattern < specificityScore r.pattern) ∧
        ∀ r' ∈ back, Fossic.globMatches r'.pattern streamId = true →
          specificityScore r'.pattern ≤ specificityScore r.pattern) ∧
      (r ∈ accepted regs →
        findArcWithPolicy (registered regs) streamId = some (r.reducer, r.policy))) ∧
    (findReducer (regs.map fun r => ⟨r.pattern, r⟩) streamId = none →
      findArcWithPolicy (registered regs) streamId = none) ∧
    (accepted regs = regs → findArcWithPolicy (registered regs) streamId =
      (findReducer (regs.map fun r => ⟨r.pattern, r⟩) streamId).map
        fun r => (r.reducer, r.policy)) := by
  rw [findReducer_registrations]
  have hfound : ∀ r, scan (fun r : Registration => Fossic.globMatches r.pattern streamId)
      (fun r => specificityScore r.pattern) regs = some r → r ∈ accepted regs →
        findArcWithPolicy (registered regs) streamId = some (r.reducer, r.policy) :=
    fun r hscan hr => findArcWithPolicy_of_scan hscan hr
  have hnone : scan (fun r : Registration => Fossic.globMatches r.pattern streamId)
      (fun r => specificityScore r.pattern) regs = none →
        findArcWithPolicy (registered regs) streamId = none := by
    intro hscan
    rw [findArcWithPolicy_eq_scan, scan_eq_none.mpr]
    · rfl
    · intro e he
      rw [registered_eq] at he
      obtain ⟨r, hr, rfl⟩ := List.mem_map.mp he
      exact scan_eq_none.mp hscan r (accepted_subset hr)
  refine ⟨scan_eq_none, fun r hscan => ⟨scan_split hscan, hfound r hscan⟩, hnone, fun hall => ?_⟩
  rcases hscan : scan (fun r : Registration => Fossic.globMatches r.pattern streamId)
      (fun r => specificityScore r.pattern) regs with _ | r
  · exact hnone hscan
  · exact hfound r hscan (hall.symm ▸ (scan_mem hscan).1)

end Lookup

/-! ### Reducers and reads -/

/-- `FossicReducer`.  A state is a byte array; `initialState` and `apply` may throw. -/
structure Reducer (ε : Type) where
  name : String
  version : UInt32
  stateSchemaVersion : UInt32
  initialState : Except ε Bytes
  apply : Bytes → StoredEvent → Except ε Bytes

variable {ε : Type}

def Reducer.key (r : Reducer ε) : String × UInt32 := (r.name, r.stateSchemaVersion)

inductive FossicErrorCode
  | reducerNotFound
  | reducerError
  | streamNotDeclared
  | genericFailure
  deriving DecidableEq

/-- What a read throws: a `FossicError`, an error of the native store as a generic failure, or
what the reducer throws. -/
inductive Thrown (ε : Type)
  | fossicError (message : String) (code : FossicErrorCode)
  | native (e : Error)
  | reducer (x : ε)

/-- A call of `readState` or of `readStateAtVersion`, whose version is a `BigInt`, or missing. -/
inductive Call
  | readState (streamId branch : String)
  | readStateAtVersion (streamId branch : String) (version : Option ℤ) (reducerName : Option String)

def Call.streamId : Call → String
  | .readState streamId _ | .readStateAtVersion streamId _ _ _ => streamId

def Call.branch : Call → String
  | .readState _ branch | .readStateAtVersion _ branch _ _ => branch

/-- The `toVersion` of the range read. -/
def Call.toVersion : Call → Option ℤ
  | .readState _ _ => none
  | .readStateAtVersion _ _ version _ => version

/-- Whether the call starts from a snapshot at the given version.  Nothing is less than a
missing version. -/
def Call.Admits (snapVersion : ℤ) : Call → Prop
  | .readState _ _ => True
  | .readStateAtVersion _ _ none _ => False
  | .readStateAtVersion _ _ (some version) _ => snapVersion < version

instance (snapVersion : ℤ) (call : Call) : Decidable (call.Admits snapVersion) := by
  cases call with
  | readState => exact inferInstanceAs (Decidable True)
  | readStateAtVersion streamId branch version reducerName =>
    cases version with
    | none => exact inferInstanceAs (Decidable False)
    | some version => exact inferInstanceAs (Decidable (_ < _))

/-- `registry.find((e) => e.reducer.name === reducerName)?.reducer`. -/
def findByName (registry : List (Entry (Reducer ε))) (reducerName : String) :
    Option (Reducer ε) :=
  (registry.find? fun e => e.reducer.name == reducerName).map fun e => e.reducer

/-- The reducer that a call uses.  An empty name counts as none. -/
def Call.findReducer (registry : List (Entry (Reducer ε))) : Call → Option (Reducer ε)
  | .readStateAtVersion streamId _ _ (some reducerName) =>
    if reducerName = "" then Node.findReducer registry streamId
    else findByName registry reducerName
  | .readStateAtVersion streamId _ _ none => Node.findReducer registry streamId
  | .readState streamId _ => Node.findReducer registry streamId

/-- The head of a call. -/
def getReducer (registry : List (Entry (Reducer ε))) (call : Call) :
    Except (Thrown ε) (Reducer ε) :=
  match call.findReducer registry with
  | some reducer => .ok reducer
  | none => .error
    (.fossicError s!"no reducer registered for stream {call.streamId}" .reducerNotFound)

/-- `get_u64().1`: the low word of the magnitude. -/
def lowWord (n : ℤ) : UInt64 := UInt64.ofNat n.natAbs

/-- The call after `getSnapshotState`: the state to start from and `fromVersion`. -/
def startFrom (db : Db) (call : Call) (reducer : Reducer ε) : Except (Thrown ε) (Bytes × ℤ) :=
  let initial := (reducer.initialState.mapError Thrown.reducer).map fun state => (state, (0 : ℤ))
  match findLatestSnapshot db call.streamId call.branch reducer.name reducer.stateSchemaVersion
      none with
  | some (version, stateBytes) =>
    if call.Admits (version.toNat : ℤ) then .ok (stateBytes, (version.toNat : ℤ) + 1) else initial
  | none => initial

/-- What the events come to, once they are read. -/
def applyAll (reducer : Reducer ε) (state : Bytes) :
    Except Error (List StoredEvent) → Except (Thrown ε) Bytes
  | .error e => .error (.native e)
  | .ok events => (events.foldlM reducer.apply state).mapError .reducer

/-- The call after `readRange`. -/
def replayFrom (upcasters : UpcasterRegistry) (fuel : ℕ) (db : Db) (call : Call)
    (reducer : Reducer ε) (state : Bytes) (fromVersion : ℤ) : Option (Except (Thrown ε) Bytes) :=
  (readRange upcasters fuel db ⟨call.streamId, call.branch, some (lowWord fromVersion),
    call.toVersion.map lowWord, none, none⟩).map (applyAll reducer state)

/-! ### Runs -/

/-- A call between two of its steps.  With what it returns goes the largest version that there
was when its events were read. -/
inductive Task (ε : Type)
  | idle
  | called (call : Call) (reducer : Reducer ε)
  | lookedUp (call : Call) (reducer : Reducer ε) (state : Bytes) (fromVersion : ℤ)
  | returned (call : Call) (reducer : Reducer ε) (head : ℤ) (result : Except (Thrown ε) Bytes)

/-- A store, and a program that reads it. -/
structure Process (ε : Type) where
  db : Db
  registry : List (Entry (Reducer ε))
  tasks : ℕ → Task ε

/-- What happens next: an operation on the store; a snapshot of another reducer is written, or
snapshots are collected; or a step of the program.  What a program saves by
`writeSnapshotState` is a state that it has read at a version that there was. -/
inductive Action (ε : Type)
  | store (op : StoreOp)
  | snapshot (row : SnapshotRow)
  | collect (active : List (String × UInt32))
  | registerReducer (pattern : String) (reducer : Reducer ε)
  | call (i : ℕ) (call : Call)
  | getSnapshotState (i : ℕ)
  | readRange (i : ℕ)
  | writeSnapshotState (i : ℕ) (now : Int64)

def Process.init (ε : Type) (now : Int64) : Process ε := ⟨.bootstrap now, [], fun _ => .idle⟩

def Process.set (p : Process ε) (i : ℕ) (task : Task ε) : Process ε :=
  { p with tasks := Function.update p.tasks i task }

/-- The call begins, unless there is no reducer. -/
def begin (registry : List (Entry (Reducer ε))) (call : Call) : Task ε :=
  match getReducer registry call with
  | .ok reducer => .called call reducer
  | .error _ => .idle

/-- The call goes on with its snapshot, unless `initialState` throws. -/
def lookUp (db : Db) (call : Call) (reducer : Reducer ε) : Task ε :=
  match startFrom db call reducer with
  | .ok (state, fromVersion) => .lookedUp call reducer state fromVersion
  | .error e => .returned call reducer (db.maxVersion call.streamId call.branch) (.error e)

def step (d : Deps) (upcasters : UpcasterRegistry) (fuel : ℕ) (p : Process ε) :
    Action ε → Option (Process ε)
  | .store op => some { p with db := exec d p.db op }
  | .snapshot row => some { p with db := p.db.replaceSnapshot row }
  | .collect active => some { p with db := (gcOrphanedSnapshotsImpl p.db active).2 }
  | .registerReducer pattern reducer =>
    some { p with registry := p.registry ++ [⟨pattern, reducer⟩] }
  | .call i call =>
    match p.tasks i with
    | .idle | .returned _ _ _ _ => some (p.set i (begin p.registry call))
    | _ => none
  | .getSnapshotState i =>
    match p.tasks i with
    | .called call reducer => some (p.set i (lookUp p.db call reducer))
    | _ => none
  | .readRange i =>
    match p.tasks i with
    | .lookedUp call reducer state fromVersion =>
      (replayFrom upcasters fuel p.db call reducer state fromVersion).map fun result =>
        p.set i (.returned call reducer (p.db.maxVersion call.streamId call.branch) result)
    | _ => none
  | .writeSnapshotState i now =>
    match p.tasks i with
    | .returned (.readStateAtVersion streamId branch (some version) _) reducer head (.ok state) =>
      if 0 ≤ version ∧ version ≤ head then
        some { p with db := (writeSnapshot p.db streamId branch (lowWord version) reducer.name
          reducer.version reducer.stateSchemaVersion state now).2 }
      else none
    | _ => none

/-! ### What the states stand for -/

/-- The replay of the events, upcast, from the initial state. -/
def replay (upcasters : UpcasterRegistry) (fuel : ℕ) (reducer : Reducer ε)
    (events : List StoredEvent) : Option (Except (Thrown ε) Bytes) :=
  match reducer.initialState with
  | .error x => some (.error (.reducer x))
  | .ok state => (upcastAll upcasters fuel events).map (applyAll reducer state)

/-- The state is what the events up to the version come to. -/
def Stands (upcasters : UpcasterRegistry) (fuel : ℕ) (db : Db) (reducer : Reducer ε)
    (streamId branch : String) (version : ℤ) (state : Bytes) : Prop :=
  replay upcasters fuel reducer (historyUpTo db streamId branch version) = some (.ok state)

/-- In `R`, a name and a schema version always denote the same initial state and the same
function. -/
def SameMeaning (R : Reducer ε → Prop) : Prop :=
  ∀ r r', R r → R r' → r.key = r'.key → r.initialState = r'.initialState ∧ r.apply = r'.apply

/-- The program registers reducers of `R` only, and nobody else writes snapshots for these; no
event is purged. -/
def Allowed (R : Reducer ε → Prop) : Action ε → Prop
  | .store op => op.isPurge = false
  | .snapshot row => ∀ r, R r → r.key ≠ row.key
  | .registerReducer _ reducer => R reducer
  | _ => True

/-- Every snapshot for a reducer of `R` stands for a part of its history. -/
def SnapshotsStand (R : Reducer ε → Prop) (upcasters : UpcasterRegistry) (fuel : ℕ) (db : Db) :
    Prop :=
  ∀ sn ∈ db.snapshots, ∀ r, R r → r.key = sn.key →
    (0 ≤ sn.version ∧ sn.version ≤ db.maxVersion sn.streamId sn.branch) ∧
      Stands upcasters fuel db r sn.streamId sn.branch sn.version sn.stateBlob

/-- So does what a call has in hand. -/
def Task.Stands (R : Reducer ε → Prop) (upcasters : UpcasterRegistry) (fuel : ℕ) (db : Db) :
    Task ε → Prop
  | .idle => True
  | .called _ reducer => R reducer
  | .lookedUp call reducer state fromVersion => R reducer ∧
    (0 ≤ fromVersion ∧ fromVersion - 1 ≤ db.maxVersion call.streamId call.branch) ∧
    (∀ version, call.toVersion = some version → 0 ≤ version → fromVersion ≤ version) ∧
      Node.Stands upcasters fuel db reducer call.streamId call.branch (fromVersion - 1) state
  | .returned call reducer head result => R reducer ∧
    head ≤ db.maxVersion call.streamId call.branch ∧
      ∀ version state, call.toVersion = some version → 0 ≤ version → version ≤ head →
        result = .ok state →
          Node.Stands upcasters fuel db reducer call.streamId call.branch version state

structure Sound (R : Reducer ε → Prop) (upcasters : UpcasterRegistry) (fuel : ℕ)
    (p : Process ε) : Prop where
  counted : p.db.Counted
  registered : ∀ e ∈ p.registry, R e.reducer
  snapshots : SnapshotsStand R upcasters fuel p.db
  tasks : ∀ i, (p.tasks i).Stands R upcasters fuel p.db

section Reads

variable {R : Reducer ε → Prop} {upcasters : UpcasterRegistry} {fuel : ℕ} {d : Deps} {db db' : Db}
  {r r' : Reducer ε} {streamId branch : String} {k v : ℤ} {state : Bytes} {call : Call}
  {events events' data : List StoredEvent} {p p' : Process ε} {i : ℕ}

/-! ### Replaying in two parts -/

theorem SameMeaning.replay_eq (hR : SameMeaning R) (hr : R r) (hr' : R r') (hkey : r.key = r'.key) :
    replay upcasters fuel r events = replay upcasters fuel r' events := by
  obtain ⟨hinit, happly⟩ := hR r r' hr hr' hkey
  have hall : ∀ state, applyAll r state = applyAll r' state := by
    intro state
    funext result
    cases result with
    | error e => rfl
    | ok events => rw [applyAll, applyAll, happly]
  rw [replay, replay, hinit]
  split
  · rfl
  · rw [hall]

/-- Upcasting goes on behind what is upcast. -/
theorem upcastAll_append_of_ok (h : upcastAll upcasters fuel events = some (.ok data)) :
    upcastAll upcasters fuel (events ++ events') =
      (upcastAll upcasters fuel events').map fun result => result.map (data ++ ·) := by
  induction events generalizing data with
  | nil =>
    obtain rfl := Except.ok.inj (Option.some_inj.mp h)
    show upcastAll upcasters fuel events' = _
    rcases upcastAll upcasters fuel events' with _ | _ | _ <;> rfl
  | cons event events ih =>
    obtain ⟨event', rest, hevent, hrest, rfl⟩ := upcastAll_cons_iff.mp h
    rw [List.cons_append, upcastAll, hevent]
    dsimp only
    rw [ih hrest]
    rcases upcastAll upcasters fuel events' with _ | _ | _ <;> rfl

/-- **Replaying in two parts.** -/
theorem replay_append (h : replay upcasters fuel r events = some (.ok state)) :
    replay upcasters fuel r (events ++ events') =
      (upcastAll upcasters fuel events').map (applyAll r state) := by
  rw [replay] at h ⊢
  split at h
  · exact absurd h (by simp)
  · rename_i start hinit
    obtain ⟨result, hupcast, hstate⟩ := Option.map_eq_some_iff.mp h
    cases result with
    | error e => exact absurd hstate (by simp [applyAll])
    | ok data =>
      have hfold : data.foldlM r.apply start = .ok state := by
        rw [applyAll] at hstate
        rcases hdata : data.foldlM r.apply start with x | state'
        · rw [hdata] at hstate
          exact absurd hstate (by simp [Except.mapError])
        · rw [hdata] at hstate
          exact congrArg _ (Except.ok.inj hstate)
      rw [upcastAll_append_of_ok hupcast, Option.map_map]
      refine congrArg (Option.map · _) (funext fun result => ?_)
      cases result with
      | error e => rfl
      | ok data' =>
        show (List.foldlM r.apply start (data ++ data')).mapError _ = _
        rw [List.foldlM_append, hfold]
        rfl

/-- Before the first event there is the initial state. -/
theorem stands_initial (hdb : db.Sane) (hinit : r.initialState = .ok state) :
    Stands upcasters fuel db r streamId branch (-1) state := by
  have hnone : upTo EventRow.version (-1) (db.rowsOn streamId branch) = [] := by
    refine upTo_eq_nil fun row hrow => ?_
    have hrange := hdb.range row (mem_rowsOn.mp hrow).1
    omega
  rw [Stands, historyUpTo, hnone, replay, hinit]
  rfl

/-- Later events change nothing about it. -/
theorem Stands.extend (h : Stands upcasters fuel db r streamId branch k state)
    (hk : k ≤ db.maxVersion streamId branch) (hext : Extends db db') :
    Stands upcasters fuel db' r streamId branch k state := by
  obtain ⟨new, hnew, habove⟩ := hext.rowsOn streamId branch
  rw [Stands, historyUpTo, hnew, upTo_append fun row hrow => hk.trans_lt (habove row hrow)]
  exact h

/-- The part of a history up to the later of two versions. -/
theorem historyUpTo_max : historyUpTo db streamId branch (max k v) =
    historyUpTo db streamId branch k ++ ((db.rowsOn streamId branch).filter fun row =>
      k < row.version && row.version ≤ v).map rowToEvent := by
  have hsorted := @rowsOn_sorted db streamId branch
  have hsplit := upTo_append_after (k := k)
    (hsorted.sublist (List.filter_sublist (p := fun row => row.version ≤ max k v)))
  have hafter : after EventRow.version k
      ((db.rowsOn streamId branch).filter fun row => row.version ≤ max k v) =
        (db.rowsOn streamId branch).filter fun row => k < row.version && row.version ≤ v := by
    rw [after, List.filter_filter]
    refine List.filter_congr fun row _ => ?_
    by_cases hrow : k < row.version
    · simp only [hrow, decide_true, Bool.true_and]
      exact decide_eq_decide.mpr (by omega)
    · simp [hrow]
  rw [hafter] at hsplit
  rw [historyUpTo, historyUpTo, ← List.map_append, ← upTo_upTo (le_max_left k v)]
  exact congrArg _ hsplit.symm

theorem u64AsI64_lowWord (h0 : 0 ≤ v) (h : v < 2 ^ 63) : u64AsI64 (lowWord v) = v := by
  have hnat : (lowWord v).toNat = v.natAbs := by
    rw [lowWord]
    have hsize : v.natAbs < 2 ^ 64 := by omega
    exact UInt64.toNat_ofNat_of_lt hsize
  rw [u64AsI64_of_lt (by omega), hnat]
  omega

/-- **A read that has looked up its start** replays what is committed by the time it reads: up
to the version asked for, as the native call takes it, or to its snapshot, if that is later. -/
theorem replayFrom_eq (hdb : db.Counted) {fromVersion : ℤ} (h0 : 0 ≤ fromVersion)
    (hhead : fromVersion - 1 ≤ db.maxVersion call.streamId call.branch)
    (h : Stands upcasters fuel db r call.streamId call.branch (fromVersion - 1) state) :
    replayFrom upcasters fuel db call r state fromVersion = replay upcasters fuel r
      (historyUpTo db call.streamId call.branch
        (max (fromVersion - 1) (stopAt (call.toVersion.map lowWord)))) := by
  have hrows : (MAX_ROWS : ℤ) < 2 ^ 62 := by decide
  have hlt := @Db.Counted.maxVersion_lt db call.streamId call.branch hdb
  have hfrom : u64AsI64 (lowWord fromVersion) = fromVersion := u64AsI64_lowWord h0 (by omega)
  rw [historyUpTo_max, replay_append h, replayFrom, readRange, readRangeImpl_eq hdb.toFits,
    Option.getD_some, hfrom]
  refine congrArg (fun rows => (upcastAll upcasters fuel (List.map rowToEvent rows)).map _) ?_
  refine List.filter_congr fun row _ => ?_
  exact congrArg (· && _) (decide_eq_decide.mpr (by omega))

/-! ### Steps -/

theorem Task.Stands.extend {task : Task ε} (h : task.Stands R upcasters fuel db)
    (hext : Extends db db') : task.Stands R upcasters fuel db' := by
  cases task with
  | idle => trivial
  | called call reducer => exact h
  | lookedUp call reducer state fromVersion =>
    obtain ⟨hr, ⟨h0, hhead⟩, hbound, hstands⟩ := h
    have hmono := hext.maxVersion call.streamId call.branch
    exact ⟨hr, ⟨h0, hhead.trans hmono⟩, hbound, hstands.extend hhead hext⟩
  | returned call reducer head result =>
    obtain ⟨hr, hhead, hstands⟩ := h
    have hmono := hext.maxVersion call.streamId call.branch
    refine ⟨hr, hhead.trans hmono, fun version state hversion h0 hle hresult => ?_⟩
    exact (hstands version state hversion h0 hle hresult).extend (hle.trans hhead) hext

theorem SnapshotsStand.extend (h : SnapshotsStand R upcasters fuel db) (hext : Extends db db')
    (hsub : ∀ sn ∈ db'.snapshots, (∀ r, R r → r.key = sn.key → sn ∈ db.snapshots)) :
    SnapshotsStand R upcasters fuel db' := by
  intro sn hsn r hr hkey
  obtain ⟨⟨h0, hhead⟩, hstands⟩ := h sn (hsub sn hsn r hr hkey) r hr hkey
  have hmono := hext.maxVersion sn.streamId sn.branch
  exact ⟨⟨h0, hhead.trans hmono⟩, hstands.extend hhead hext⟩

/-- A statement on the tables keeps everything, if the histories are only extended and no
snapshot for a reducer of `R` is added. -/
theorem Sound.tables (h : Sound R upcasters fuel p) (hext : Extends p.db db')
    (hsub : ∀ sn ∈ db'.snapshots, (∀ r, R r → r.key = sn.key → sn ∈ p.db.snapshots)) :
    Sound R upcasters fuel { p with db := db' } where
  counted := hext.counted h.counted
  registered := h.registered
  snapshots := h.snapshots.extend hext hsub
  tasks j := (h.tasks j).extend hext

theorem Sound.set (h : Sound R upcasters fuel p) {task : Task ε}
    (htask : task.Stands R upcasters fuel p.db) : Sound R upcasters fuel (p.set i task) where
  counted := h.counted
  registered := h.registered
  snapshots := h.snapshots
  tasks j := by
    by_cases hj : j = i
    · subst hj
      show (Function.update p.tasks j task j).Stands R upcasters fuel p.db
      rw [Function.update_self]
      exact htask
    · show (Function.update p.tasks i task j).Stands R upcasters fuel p.db
      rw [Function.update_of_ne hj]
      exact h.tasks j

theorem findReducer_mem {β : Type} {registry : List (Entry β)} {r : β}
    (h : findReducer registry streamId = some r) : ∃ e ∈ registry, e.reducer = r := by
  rw [findReducer_eq_scan] at h
  obtain ⟨e, he, hr⟩ := Option.map_eq_some_iff.mp h
  exact ⟨e, (scan_mem he).1, hr⟩

/-- A call that begins uses a registered reducer. -/
theorem Sound.begin (h : Sound R upcasters fuel p) (call : Call) :
    (begin p.registry call).Stands R upcasters fuel p.db := by
  have hfound : ∀ r, call.findReducer p.registry = some r → R r := by
    have hmem : ∀ r, call.findReducer p.registry = some r → ∃ e ∈ p.registry, e.reducer = r := by
      intro r hr
      rw [Call.findReducer.eq_def] at hr
      split at hr
      · split at hr
        · exact findReducer_mem hr
        · obtain ⟨e, he, heq⟩ := Option.map_eq_some_iff.mp hr
          exact ⟨e, List.mem_of_find?_eq_some he, heq⟩
      · exact findReducer_mem hr
      · exact findReducer_mem hr
    intro r hr
    obtain ⟨e, he, rfl⟩ := hmem r hr
    exact h.registered e he
  rw [Node.begin, getReducer]
  rcases hcall : call.findReducer p.registry with _ | r
  · trivial
  · exact hfound r hcall

/-- What a replay starts from: a snapshot that the call admits, or the initial state. -/
theorem startFrom_cases {fromVersion : ℤ} (h : startFrom db call r = .ok (state, fromVersion)) :
    (∃ sn ∈ db.snapshots, sn.streamId = call.streamId ∧ sn.branch = call.branch ∧
      sn.key = r.key ∧ sn.stateBlob = state ∧ call.Admits (i64AsU64 sn.version).toNat ∧
        fromVersion = (i64AsU64 sn.version).toNat + 1) ∨
    fromVersion = 0 ∧ r.initialState = .ok state := by
  have hinitial : (r.initialState.mapError Thrown.reducer).map (fun state => (state, (0 : ℤ))) =
      .ok (state, fromVersion) → fromVersion = 0 ∧ r.initialState = .ok state := by
    intro h
    rcases hinit : r.initialState with x | start
    · rw [hinit] at h
      exact absurd h (by simp [Except.map, Except.mapError])
    · rw [hinit] at h
      obtain ⟨hstart, hfrom⟩ := Prod.mk.inj (Except.ok.inj h)
      exact ⟨hfrom.symm, congrArg _ hstart⟩
  rw [startFrom] at h
  split at h
  · rename_i version stateBytes hfind
    obtain ⟨sn, hsn, hstream, hbranch, hkey, rfl, rfl, -⟩ := findLatestSnapshot_eq_some hfind
    split at h
    · rename_i hadmits
      obtain ⟨hstate, hfrom⟩ := Prod.mk.inj (Except.ok.inj h)
      exact .inl ⟨sn, hsn, hstream, hbranch, hkey, hstate, hadmits, hfrom.symm⟩
    · exact .inr (hinitial h)
  · exact .inr (hinitial h)

/-- A call that has looked up its start holds a state that stands for what is below it. -/
theorem Sound.lookUp (h : Sound R upcasters fuel p) (hr : R r) :
    (lookUp p.db call r).Stands R upcasters fuel p.db := by
  have hlow := @Db.Sane.le_maxVersion p.db call.streamId call.branch h.counted.sane
  rw [Node.lookUp]
  split
  · rename_i state fromVersion hstart
    rcases startFrom_cases hstart with
      ⟨sn, hsn, hstream, hbranch, hkey, rfl, hadmits, rfl⟩ | ⟨rfl, hinit⟩
    · obtain ⟨⟨h0, hhead⟩, hstands⟩ := h.snapshots sn hsn r hr hkey.symm
      rw [hstream, hbranch] at hhead hstands
      have hrows : (MAX_ROWS : ℤ) < 2 ^ 62 := by decide
      have hlt := @Db.Counted.maxVersion_lt p.db call.streamId call.branch h.counted
      have hversion : ((i64AsU64 sn.version).toNat : ℤ) = sn.version :=
        toNat_i64AsU64 h0 (by omega)
      rw [hversion] at hadmits ⊢
      refine ⟨hr, ⟨by omega, by omega⟩, fun version hbound _ => ?_, ?_⟩
      · -- the snapshot is below the version asked for
        cases call with
        | readState => exact absurd hbound (by simp [Call.toVersion])
        | readStateAtVersion streamId branch asked reducerName =>
          obtain rfl : asked = some version := hbound
          have hbelow : sn.version < version := hadmits
          omega
      · rw [Int.add_sub_cancel]
        exact hstands
    · refine ⟨hr, ⟨le_rfl, by omega⟩, fun version _ h0 => h0, ?_⟩
      exact stands_initial h.counted.sane hinit
  · exact ⟨hr, le_rfl, fun version state _ _ _ hresult => absurd hresult (by simp)⟩

/-- What a read returns stands for what it was asked for, if there was such a version. -/
theorem Sound.readRange (h : Sound R upcasters fuel p) {fromVersion : ℤ}
    (htask : p.tasks i = .lookedUp call r state fromVersion)
    {result : Except (Thrown ε) Bytes}
    (hread : replayFrom upcasters fuel p.db call r state fromVersion = some result) :
    (Task.returned call r (p.db.maxVersion call.streamId call.branch) result).Stands R upcasters
      fuel p.db := by
  have hheld := h.tasks i
  rw [htask] at hheld
  obtain ⟨hr, ⟨h0, hhead⟩, hbound, hstands⟩ := hheld
  refine ⟨hr, le_rfl, fun version state' hversion hpos hle hresult => ?_⟩
  have hrows : (MAX_ROWS : ℤ) < 2 ^ 62 := by decide
  have hlt := @Db.Counted.maxVersion_lt p.db call.streamId call.branch h.counted
  have hstop : stopAt (call.toVersion.map lowWord) = version := by
    rw [hversion]
    exact u64AsI64_lowWord hpos (by omega)
  have hle' := hbound version hversion hpos
  have hmax : max (fromVersion - 1) (stopAt (call.toVersion.map lowWord)) = version := by
    rw [hstop]
    omega
  rw [replayFrom_eq h.counted h0 hhead hstands, hmax, hresult] at hread
  exact hread

/-- A save of what was read at a version that there was. -/
theorem Sound.writeSnapshotState (hR : SameMeaning R) (h : Sound R upcasters fuel p)
    {version head : ℤ} {reducerName : Option String} {now : Int64}
    (htask : p.tasks i =
      .returned (.readStateAtVersion streamId branch (some version) reducerName) r head (.ok state))
    (h0 : 0 ≤ version) (hle : version ≤ head) :
    Sound R upcasters fuel { p with db := (writeSnapshot p.db streamId branch (lowWord version)
      r.name r.version r.stateSchemaVersion state now).2 } := by
  have hheld := h.tasks i
  rw [htask] at hheld
  obtain ⟨hr, hhead, hstands⟩ := hheld
  have hrows : (MAX_ROWS : ℤ) < 2 ^ 62 := by decide
  have hlt := @Db.Counted.maxVersion_lt p.db streamId branch h.counted
  have hhead' : head ≤ p.db.maxVersion streamId branch := hhead
  have hversion : u64AsI64 (lowWord version) = version := u64AsI64_lowWord h0 (by omega)
  have hsaved := hstands version state rfl h0 hle rfl
  have hext : Extends p.db (writeSnapshot p.db streamId branch (lowWord version) r.name r.version
      r.stateSchemaVersion state now).2 := extends_congr rfl
  refine ⟨hext.counted h.counted, h.registered, ?_, fun j => (h.tasks j).extend hext⟩
  intro sn hsn r' hr' hkey
  rcases mem_replaceSnapshot hsn with rfl | hsn
  · refine ⟨⟨?_, ?_⟩, ?_⟩
    · show 0 ≤ u64AsI64 (lowWord version)
      omega
    · show u64AsI64 (lowWord version) ≤ p.db.maxVersion streamId branch
      omega
    · show Stands upcasters fuel p.db r' streamId branch (u64AsI64 (lowWord version)) state
      rw [hversion, Stands, hR.replay_eq hr' hr hkey]
      exact hsaved
  · exact h.snapshots sn hsn r' hr' hkey

/-- **One step** keeps everything sound. -/
theorem sound_step (hR : SameMeaning R) (h : Sound R upcasters fuel p) {a : Action ε}
    (ha : Allowed R a) (hstep : step d upcasters fuel p a = some p') :
    Sound R upcasters fuel p' := by
  cases a with
  | store op =>
    obtain rfl := Option.some_inj.mp hstep
    obtain ⟨db₁, rows, hevents, hsnapshots, hgrows, -⟩ := @exec_grows d p.db op ha
    have hext : Extends p.db (exec d p.db op) :=
      (extends_congr hevents).trans (extends_grows hgrows (h.counted.sane.congr hevents))
    refine h.tables hext fun sn hsn _ _ _ => ?_
    rw [hgrows.eq] at hsn
    exact hsnapshots ▸ hsn
  | snapshot row =>
    obtain rfl := Option.some_inj.mp hstep
    refine h.tables (extends_congr rfl) fun sn hsn r hr hkey => ?_
    rcases mem_replaceSnapshot hsn with rfl | hsn
    · exact absurd hkey (ha r hr)
    · exact hsn
  | collect active =>
    obtain rfl := Option.some_inj.mp hstep
    obtain ⟨hevents, hmem⟩ := @gcOrphanedSnapshotsImpl_spec p.db active
    exact h.tables (extends_congr hevents) fun sn hsn _ _ _ => ((hmem sn).mp hsn).1
  | registerReducer pattern reducer =>
    obtain rfl := Option.some_inj.mp hstep
    refine ⟨h.counted, fun e he => ?_, h.snapshots, h.tasks⟩
    rcases List.mem_append.mp he with he | he
    · exact h.registered e he
    · obtain rfl := List.mem_singleton.mp he
      exact ha
  | call i call =>
    simp only [step] at hstep
    split at hstep
    · exact Option.some_inj.mp hstep ▸ h.set (h.begin call)
    · exact Option.some_inj.mp hstep ▸ h.set (h.begin call)
    · exact absurd hstep (by simp)
  | getSnapshotState i =>
    simp only [step] at hstep
    split at hstep
    · rename_i call reducer htask
      have hr : R reducer := by
        have hheld := h.tasks i
        rw [htask] at hheld
        exact hheld
      exact Option.some_inj.mp hstep ▸ h.set (h.lookUp hr)
    · exact absurd hstep (by simp)
  | readRange i =>
    simp only [step] at hstep
    split at hstep
    · rename_i call reducer state fromVersion htask
      obtain ⟨result, hread, rfl⟩ := Option.map_eq_some_iff.mp hstep
      exact h.set (h.readRange htask hread)
    · exact absurd hstep (by simp)
  | writeSnapshotState i now =>
    simp only [step] at hstep
    split at hstep
    · rename_i streamId branch version reducerName reducer head state htask
      split at hstep
      · rename_i hbounds
        exact Option.some_inj.mp hstep ▸ h.writeSnapshotState hR htask hbounds.1 hbounds.2
      · exact absurd hstep (by simp)
    · exact absurd hstep (by simp)

theorem sound_init {now : Int64} : Sound R upcasters fuel (.init ε now) where
  counted := bootstrap_counted now
  registered _ he := absurd he List.not_mem_nil
  snapshots _ hsn := absurd hsn List.not_mem_nil
  tasks _ := trivial

/-! ### What reads return -/

/-- **Reads of reducers written in JavaScript**, where those of one snapshot key mean the same.  In
any run of callers that read and save what they read, while anything but purges and snapshots of
others under these keys is done to the store, a call that has looked up what to start from and now
reads the events returns, or does not return, as the plain replay of the upcast events would, from
the initial state: `readState` over the whole history, `readStateAtVersion` up to the version asked
for.  A version that no event can have is taken by its low word; then the replay does not end
before the snapshot it starts from. -/
theorem node_reads_replay {now : Int64} {acts : List (Action ε)} (hR : SameMeaning R)
    (hacts : ∀ a ∈ acts, Allowed R a)
    (hrun : run (step d upcasters fuel) (.init ε now) acts = some p) {fromVersion : ℤ}
    (htask : p.tasks i = .lookedUp call r state fromVersion) :
    (step d upcasters fuel p (.readRange i)).map (fun p' => p'.tasks i) =
      (replay upcasters fuel r (historyUpTo p.db call.streamId call.branch
        (max (fromVersion - 1) (stopAt (call.toVersion.map lowWord))))).map
          (.returned call r (p.db.maxVersion call.streamId call.branch)) ∧
    (call.toVersion = none → historyUpTo p.db call.streamId call.branch
      (max (fromVersion - 1) (stopAt (call.toVersion.map lowWord))) =
        history p.db call.streamId call.branch) ∧
    ∀ version, call.toVersion = some version → 0 ≤ version → version < 2 ^ 63 →
      max (fromVersion - 1) (stopAt (call.toVersion.map lowWord)) = version := by
  have hkeep : ∀ (p : Process ε) (a : Action ε) (p' : Process ε), Sound R upcasters fuel p →
      Allowed R a → step d upcasters fuel p a = some p' → Sound R upcasters fuel p' :=
    fun _ _ _ hs ha hstep => sound_step hR hs ha hstep
  have hsound : Sound R upcasters fuel p :=
    run_invariant (P := fun _ a => Allowed R a) hkeep sound_init (along_of_forall hacts) hrun
  have hheld := hsound.tasks i
  rw [htask] at hheld
  obtain ⟨hr, ⟨h0, hhead⟩, hbound, hstands⟩ := hheld
  have hrows : (MAX_ROWS : ℤ) < 2 ^ 62 := by decide
  have hlt := @Db.Counted.maxVersion_lt p.db call.streamId call.branch hsound.counted
  refine ⟨?_, fun hnone => ?_, fun version hversion hpos hsmall => ?_⟩
  · rw [← replayFrom_eq hsound.counted h0 hhead hstands, step, htask]
    dsimp only
    rw [Option.map_map]
    refine congrArg (Option.map · _) (funext fun result => ?_)
    exact Function.update_self _ _ _
  · have hmax : max (fromVersion - 1) (stopAt (call.toVersion.map lowWord)) = stopAt none := by
      have hall : stopAt none = 2 ^ 63 - 1 := rfl
      rw [hnone]
      show max (fromVersion - 1) (stopAt none) = stopAt none
      omega
    rw [hmax]
    exact historyUpTo_all hsound.counted.sane
  · have hstop : stopAt (call.toVersion.map lowWord) = version := by
      rw [hversion]
      exact u64AsI64_lowWord hpos (by omega)
    have hle := hbound version hversion hpos
    rw [hstop]
    omega

end Reads

/-- A reducer that collects the payloads. -/
def collect : Reducer Unit where
  name := "collect"
  version := 1
  stateSchemaVersion := 1
  initialState := .ok []
  apply state event := .ok (state ++ event.payload)

/-- What is read at the first event is saved; a second one is appended, and a full read starts
from the save. -/
theorem node_reads_replay_collect : ∃ p : Process Unit, p.db.snapshots.length = 1 ∧
    (step plainDeps [] 0 p (.readRange 0)).map (fun p' => p'.tasks 0) =
      (replay [] 0 collect (history p.db "s" "main")).map
        (.returned (.readState "s" "main") collect (p.db.maxVersion "s" "main")) := by
  let append (eventType : String) : Action Unit :=
    .store (.write [] (.append { streamId := "s", eventType := eventType, payload := .null })
      fun _ => 0)
  let acts : List (Action Unit) :=
    [.store (.declareStream "s" "t" none 0), append "a", .registerReducer "s" collect,
      .call 0 (.readStateAtVersion "s" "main" (some 0) none), .getSnapshotState 0, .readRange 0,
      .writeSnapshotState 0 0, append "b", .call 0 (.readState "s" "main"), .getSnapshotState 0]
  have hR : SameMeaning (fun r : Reducer Unit => r = collect) := by
    rintro r r' rfl rfl _
    exact ⟨rfl, rfl⟩
  have hacts : ∀ a ∈ acts, Allowed (fun r : Reducer Unit => r = collect) a := by
    simp [acts, append, Allowed, StoreOp.isPurge]
  have hread := @node_reads_replay Unit _ [] 0 plainDeps collect _ _ _ 0 0 acts hR hacts rfl 1 rfl
  obtain ⟨hstep, hall, -⟩ := hread
  refine ⟨_, ?_, hstep.trans ?_⟩
  · rfl
  · rw [hall rfl]
    rfl

end Node

end Fossic
