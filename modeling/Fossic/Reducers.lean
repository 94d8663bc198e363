/-
Reducers and their registry.

A reducer folds the payloads of a stream into a state, both as msgpack bytes; a
panic inside it is turned into an error.  Reducers are registered under stream
patterns, and the most specific matching pattern decides.

* `applyReducerGuarded` — one step of the fold;
* `registerWithPolicy` — a registration is rejected when its pattern ties with an
  overlapping one;
* `findArcWithPolicy` — the lookup; `findArcWithPolicy_mem` says that it returns
  a registered entry whose pattern matches.
-/
import Fossic.Glob
import Fossic.BestScan

namespace Fossic

/-! ### Applying a reducer -/

/-- What a panic carries: a text, or a value of some other type. -/
inductive PanicPayload
  | text (message : String)
  | other

def PanicPayload.message : PanicPayload → String
  | text message => message
  | other => "<non-string panic payload>"

/-- `apply_bytes` returns or panics. -/
inductive Applied
  | returned (inner : Except Error Bytes)
  | panicked (payload : PanicPayload)

/-- `BoxedReducer`: a reducer whose state and events are msgpack bytes. -/
structure BoxedReducer where
  name : String
  version : UInt32
  stateSchemaVersion : UInt32
  initialStateBytes : Except Error Bytes
  applyBytes : Bytes → Bytes → Applied

/-- What snapshots are filed under. -/
def BoxedReducer.key (r : BoxedReducer) : String × UInt32 := (r.name, r.stateSchemaVersion)

def applyReducerGuarded (reducer : BoxedReducer) (streamId : String) (stateBytes : Bytes)
    (event : StoredEvent) : Except Error Bytes :=
  match reducer.applyBytes stateBytes event.payload with
  | .returned inner => inner
  | .panicked payload =>
    .error (.reducerPanicked streamId reducer.name event.id.toHex payload.message)

/-! ### Policies -/

inductive SnapshotPolicy
  | manual
  | everyNEvents (n : UInt32)
  | everyNSeconds (n : UInt32)
  | stateAdaptive (targetReplayCostUs minEventsBetween : UInt32)
  deriving DecidableEq

def validateSnapshotPolicy : SnapshotPolicy → Except Error Unit
  | .everyNEvents 0 => .error (.snapshotPolicyInvalid "EveryNEvents requires N >= 1")
  | .everyNSeconds 0 => .error (.snapshotPolicyInvalid "EveryNSeconds requires N >= 1")
  | _ => .ok ()

/-! ### The registry -/

structure ReducerEntry where
  pattern : String
  specificity : ℕ
  reducer : BoxedReducer
  policy : SnapshotPolicy

def patternsMayOverlap (a b : String) : Bool :=
  let aParts := segments a
  let bParts := segments b
  let aHasDstar := aParts.contains ['*', '*']
  let bHasDstar := bParts.contains ['*', '*']
  if !aHasDstar && !bHasDstar && aParts.length != bParts.length then false
  else if !aHasDstar && !bHasDstar then
    (aParts.zip bParts).all fun p => p.1 == ['*'] || p.2 == ['*'] || p.1 == p.2
  else true

def registerWithPolicy (entries : List ReducerEntry) (pattern : String) (reducer : BoxedReducer)
    (policy : SnapshotPolicy) : Except Error (List ReducerEntry) := do
  validateSnapshotPolicy policy
  let spec := specificityScore pattern
  match entries.find? fun existing =>
      patternsMayOverlap pattern existing.pattern && spec == existing.specificity with
  | some existing => .error (.reducerPatternAmbiguous existing.pattern pattern)
  | none => .ok (entries ++ [⟨pattern, spec, reducer, policy⟩])

/-- The better of the best entry so far and the next one: a tie keeps the
earlier. -/
def betterEntry (streamId : String) (best : Option ReducerEntry) (entry : ReducerEntry) :
    Option ReducerEntry :=
  if globMatches entry.pattern streamId && best.all fun b => b.specificity < entry.specificity then
    some entry
  else best

def findArcWithPolicy (entries : List ReducerEntry) (streamId : String) :
    Option (BoxedReducer × SnapshotPolicy) :=
  (entries.foldl (betterEntry streamId) none).map fun e => (e.reducer, e.policy)

def findArc (entries : List ReducerEntry) (streamId : String) : Option BoxedReducer :=
  (findArcWithPolicy entries streamId).map Prod.fst

/-- `Store::get_reducer`. -/
def getReducer (entries : List ReducerEntry) (streamId : String) : Except Error BoxedReducer :=
  match findArc entries streamId with
  | some reducer => .ok reducer
  | none => .error (.reducerNotFound streamId)

def activeKeys (entries : List ReducerEntry) : List (String × UInt32) :=
  entries.map fun e => e.reducer.key

/-! ### Lookups -/

variable {entries entries' : List ReducerEntry} {streamId pattern : String}
  {reducer : BoxedReducer} {policy : SnapshotPolicy}

/-- The lookup is a scan for the largest score. -/
theorem findArcWithPolicy_eq_scan : findArcWithPolicy entries streamId =
    (BestScan.scan (fun e => globMatches e.pattern streamId) (·.specificity) entries).map
      fun e => (e.reducer, e.policy) := rfl

theorem findArcWithPolicy_mem (h : findArcWithPolicy entries streamId = some (reducer, policy)) :
    ∃ e ∈ entries, globMatches e.pattern streamId = true ∧ e.reducer = reducer ∧
      e.policy = policy := by
  rw [findArcWithPolicy_eq_scan, Option.map_eq_some_iff] at h
  obtain ⟨e, hscan, hpair⟩ := h
  obtain ⟨rfl, rfl⟩ := Prod.mk.inj hpair
  obtain ⟨hmem, hmatch⟩ := BestScan.scan_mem hscan
  exact ⟨e, hmem, hmatch, rfl, rfl⟩

theorem getReducer_eq_ok (h : getReducer entries streamId = .ok reducer) :
    ∃ policy, findArcWithPolicy entries streamId = some (reducer, policy) := by
  rw [getReducer] at h
  split at h
  · rename_i r hfind
    obtain rfl := Except.ok.inj h
    obtain ⟨⟨r, policy⟩, hpair, rfl⟩ := Option.map_eq_some_iff.mp hfind
    exact ⟨policy, hpair⟩
  · exact absurd h (by simp)

theorem registerWithPolicy_eq_ok
    (h : registerWithPolicy entries pattern reducer policy = .ok entries') :
    entries' = entries ++ [⟨pattern, specificityScore pattern, reducer, policy⟩] := by
  rw [registerWithPolicy, bind_eq_ok] at h
  obtain ⟨u, -, h⟩ := h
  simp only at h
  split at h
  · exact absurd h (by simp)
  · exact (Except.ok.inj h).symm

end Fossic
