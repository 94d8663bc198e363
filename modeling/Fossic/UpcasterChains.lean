/-
Chains of upcasters.

`UpcasterRegistry::register` takes any two versions, and the first upcaster that was
registered from a version is the one that is used from there.  So the upcasters of an event
type are pointers between versions, and `apply` follows them.

* `find?_registeredFor`, `mem_registeredFor` — what sorting and repeated registration leave of
  the order of the registrations;
* `ChainResult` — where the path from the stored version leads, and what becomes of the
  payload on it;
* `apply_iff` — `apply` returns this and nothing else;
* `upcasting_terminates_iff` — and returns if and only if the path does not lead into a loop
  or an upcaster on it fails.
-/
import Fossic.PointerWalk
import Fossic.Upcasters

namespace Fossic

open KeyedList KeySort PointerWalk Relation

/-! ### Registrations -/

/-- A call of `Store::register_upcaster`. -/
structure UpcasterCall where
  eventType : String
  entry : UpcasterEntry

/-- The registry after some calls. -/
def registerAll (calls : List UpcasterCall) : UpcasterRegistry :=
  calls.foldl (fun registry call => registry.register call.eventType call.entry.fromVersion
    call.entry.toVersion call.entry.upcaster) []

/-- The upcasters of an event type in the order of their registration. -/
def entriesFor (calls : List UpcasterCall) (eventType : String) : List UpcasterEntry :=
  (calls.filter fun call => call.eventType = eventType).map (·.entry)

/-- The first upcaster that was registered from a version. -/
def firstFrom (calls : List UpcasterCall) (eventType : String) (version : UInt32) :
    Option UpcasterEntry :=
  (entriesFor calls eventType).find? fun e => e.fromVersion = version

/-- Where it leads to. -/
def nextVersion (calls : List UpcasterCall) (eventType : String) (version : UInt32) :
    Option UInt32 :=
  (firstFrom calls eventType version).map (·.toVersion)

/-- The entries that `apply` finds. -/
def registeredFor (calls : List UpcasterCall) (eventType : String) : List UpcasterEntry :=
  (find (registerAll calls) eventType).getD []

variable {calls : List UpcasterCall} {eventType : String} {version last : UInt32}
  {payload payload' out : Bytes} {result : Except Error Bytes} {e : UpcasterEntry} {fuel : ℕ}

theorem registeredFor_append (call : UpcasterCall) : registeredFor (calls ++ [call]) eventType =
    if call.eventType = eventType then
      sortBy (fun e => e.fromVersion.toNat) (registeredFor calls eventType ++ [call.entry])
    else registeredFor calls eventType := by
  rw [registeredFor, registerAll, List.foldl_append, List.foldl_cons, List.foldl_nil,
    UpcasterRegistry.register]
  show (find (upsert (registerAll calls) call.eventType _) eventType).getD [] = _
  rw [find_upsert]
  split
  · rename_i heq
    rw [← heq]
    rfl
  · rfl

/-- The upcasters from one version stay in the order of their registration. -/
theorem registeredFor_filter : (registeredFor calls eventType).filter (fun e => e.fromVersion = version) =
    (entriesFor calls eventType).filter fun e => e.fromVersion = version := by
  induction calls using List.reverseRecOn with
  | nil => rfl
  | append_singleton calls call ih =>
    rw [registeredFor_append, entriesFor, List.filter_append, List.map_append, List.filter_append]
    by_cases heq : call.eventType = eventType
    · have hkey : (fun e : UpcasterEntry => decide (e.fromVersion = version)) =
          fun e => decide (e.fromVersion.toNat = version.toNat) :=
        funext fun e => decide_eq_decide.mpr UInt32.toNat_inj.symm
      rw [if_pos heq, hkey, sortBy_filter_key, ← hkey, List.filter_append, ih, entriesFor]
      simp [heq]
    · rw [if_neg heq, ih, entriesFor]
      simp [heq]

theorem find?_registeredFor :
    (registeredFor calls eventType).find? (fun e => e.fromVersion = version) =
      firstFrom calls eventType version := by
  rw [firstFrom, ← List.head?_filter, ← List.head?_filter, registeredFor_filter]

theorem mem_registeredFor : e ∈ registeredFor calls eventType ↔ e ∈ entriesFor calls eventType := by
  have hmem : ∀ {l : List UpcasterEntry},
      e ∈ l ↔ e ∈ l.filter fun e' => e'.fromVersion = e.fromVersion := by
    intro l
    rw [List.mem_filter, decide_eq_true_iff, eq_self, and_true]
  rw [hmem, registeredFor_filter, ← hmem]

/-! ### Paths -/

/-- From `version` on, the first upcasters that were registered turn `payload` step by step
into `out`, of version `last`. -/
inductive Reaches (calls : List UpcasterCall) (eventType : String) :
    UInt32 → Bytes → UInt32 → Bytes → Prop
  | refl (version : UInt32) (payload : Bytes) : Reaches calls eventType version payload version payload
  | step {version last : UInt32} {payload payload' out : Bytes} {e : UpcasterEntry}
      (hfirst : firstFrom calls eventType version = some e)
      (hupcast : e.upcaster payload = .ok payload')
      (rest : Reaches calls eventType e.toVersion payload' last out) :
      Reaches calls eventType version payload last out

/-- What upcasting along the path is to return. -/
inductive ChainResult (calls : List UpcasterCall) (eventType : String) (version : UInt32)
    (payload : Bytes) : Except Error Bytes → Prop
  | ended {last : UInt32} {out : Bytes} (path : Reaches calls eventType version payload last out)
      (hlast : firstFrom calls eventType last = none)
      (hhighest : ∀ e ∈ entriesFor calls eventType, ¬last < e.fromVersion) :
      ChainResult calls eventType version payload (.ok out)
  | gap {last : UInt32} {out : Bytes} {e : UpcasterEntry}
      (path : Reaches calls eventType version payload last out)
      (hlast : firstFrom calls eventType last = none) (he : e ∈ entriesFor calls eventType)
      (hhigher : last < e.fromVersion) :
      ChainResult calls eventType version payload (.error (.upcasterChainGap eventType last))
  | failed {last : UInt32} {out : Bytes} {e : UpcasterEntry} {err : Error}
      (path : Reaches calls eventType version payload last out)
      (hfirst : firstFrom calls eventType last = some e) (herror : e.upcaster out = .error err) :
      ChainResult calls eventType version payload (.error err)

/-- An upcaster on the path fails on what it is given. -/
def FailsOnTheWay (calls : List UpcasterCall) (eventType : String) (version : UInt32)
    (payload : Bytes) : Prop :=
  ∃ last out e err, Reaches calls eventType version payload last out ∧
    firstFrom calls eventType last = some e ∧ e.upcaster out = .error err

/-- One step more at the start of the path. -/
theorem ChainResult.cons (hfirst : firstFrom calls eventType version = some e)
    (hupcast : e.upcaster payload = .ok payload')
    (h : ChainResult calls eventType e.toVersion payload' result) :
    ChainResult calls eventType version payload result := by
  cases h with
  | ended path hlast hhighest => exact .ended (.step hfirst hupcast path) hlast hhighest
  | gap path hlast he hhigher => exact .gap (.step hfirst hupcast path) hlast he hhigher
  | failed path hfirst' herror => exact .failed (.step hfirst hupcast path) hfirst' herror

/-! ### The loop -/

/-- A version from which no upcaster starts ends the loop. -/
theorem applyLoop_last (h : firstFrom calls eventType version = none) :
    applyLoop (registeredFor calls eventType) eventType (fuel + 1) version payload =
      if (registeredFor calls eventType).any fun e => version < e.fromVersion then
        some (.error (.upcasterChainGap eventType version))
      else some (.ok payload) := by
  rw [applyLoop, find?_registeredFor, h]

theorem applyLoop_step (h : firstFrom calls eventType version = some e)
    (hupcast : e.upcaster payload = .ok payload') :
    applyLoop (registeredFor calls eventType) eventType (fuel + 1) version payload =
      applyLoop (registeredFor calls eventType) eventType fuel e.toVersion payload' := by
  rw [applyLoop, find?_registeredFor, h]
  simp only [hupcast]

theorem applyLoop_failed {err : Error} (h : firstFrom calls eventType version = some e)
    (herror : e.upcaster payload = .error err) :
    applyLoop (registeredFor calls eventType) eventType (fuel + 1) version payload =
      some (.error err) := by
  rw [applyLoop, find?_registeredFor, h]
  simp only [herror]

/-- What the loop returns is the result of the chain. -/
theorem chainResult_of_applyLoop
    (h : applyLoop (registeredFor calls eventType) eventType fuel version payload = some result) :
    ChainResult calls eventType version payload result := by
  induction fuel generalizing version payload with
  | zero => exact absurd h (by simp [applyLoop])
  | succ fuel ih =>
    rcases hfirst : firstFrom calls eventType version with _ | e
    · rw [applyLoop_last hfirst] at h
      split at h
      · rename_i hany
        obtain ⟨e, he, hlt⟩ := List.any_eq_true.mp hany
        obtain rfl := Option.some_inj.mp h
        exact .gap (.refl _ payload) hfirst (mem_registeredFor.mp he) (of_decide_eq_true hlt)
      · rename_i hany
        obtain rfl := Option.some_inj.mp h
        refine .ended (.refl _ payload) hfirst fun e he hlt => hany ?_
        exact List.any_eq_true.mpr ⟨e, mem_registeredFor.mpr he, decide_eq_true hlt⟩
    · rcases hupcast : e.upcaster payload with err | payload'
      · rw [applyLoop_failed hfirst hupcast] at h
        obtain rfl := Option.some_inj.mp h
        exact .failed (.refl _ _) hfirst hupcast
      · rw [applyLoop_step hfirst hupcast] at h
        exact (ih h).cons hfirst hupcast

/-- The loop goes along the path. -/
theorem Reaches.applyLoop (h : Reaches calls eventType version payload last out) : ∃ n, ∀ fuel,
    applyLoop (registeredFor calls eventType) eventType (fuel + n) version payload =
      applyLoop (registeredFor calls eventType) eventType fuel last out := by
  induction h with
  | refl version payload => exact ⟨0, fun _ => rfl⟩
  | step hfirst hupcast _ ih =>
    obtain ⟨n, hn⟩ := ih
    refine ⟨n + 1, fun fuel => ?_⟩
    rw [← Nat.add_assoc, applyLoop_step hfirst hupcast, hn]

theorem ChainResult.applyLoop (h : ChainResult calls eventType version payload result) :
    ∃ fuel, applyLoop (registeredFor calls eventType) eventType fuel version payload = some result := by
  cases h with
  | ended path hlast hhighest =>
    obtain ⟨n, hn⟩ := path.applyLoop
    refine ⟨0 + 1 + n, ?_⟩
    rw [hn, applyLoop_last hlast, if_neg]
    intro hany
    obtain ⟨e, he, hlt⟩ := List.any_eq_true.mp hany
    exact hhighest e (mem_registeredFor.mp he) (of_decide_eq_true hlt)
  | gap path hlast he hhigher =>
    obtain ⟨n, hn⟩ := path.applyLoop
    refine ⟨0 + 1 + n, ?_⟩
    rw [hn, applyLoop_last hlast, if_pos]
    exact List.any_eq_true.mpr ⟨_, mem_registeredFor.mpr he, decide_eq_true hhigher⟩
  | failed path hfirst herror =>
    obtain ⟨n, hn⟩ := path.applyLoop
    exact ⟨0 + 1 + n, by rw [hn, applyLoop_failed hfirst herror]⟩

/-- An event type without upcasters is left as it is, with or without the loop. -/
theorem apply_iff_applyLoop :
    (∃ fuel, (registerAll calls).apply fuel eventType version payload = some result) ↔
      ∃ fuel, applyLoop (registeredFor calls eventType) eventType fuel version payload =
        some result := by
  have hempty : (∃ _ : ℕ, some (Except.ok payload) = some result) ↔
      ∃ fuel, applyLoop [] eventType fuel version payload = some result := by
    constructor
    · rintro ⟨-, h⟩
      exact ⟨1, h⟩
    · rintro ⟨fuel, h⟩
      cases fuel with
      | zero => exact absurd h (by simp [Fossic.applyLoop])
      | succ fuel => exact ⟨0, h⟩
  simp only [UpcasterRegistry.apply, registeredFor]
  rcases find (registerAll calls) eventType with _ | _ | ⟨e, entries⟩
  · exact hempty
  · exact hempty
  · exact Iff.rfl

/-- **What `apply` returns** is the result of the chain. -/
theorem apply_iff :
    (∃ fuel, (registerAll calls).apply fuel eventType version payload = some result) ↔
      ChainResult calls eventType version payload result := by
  rw [apply_iff_applyLoop]
  exact ⟨fun ⟨_, h⟩ => chainResult_of_applyLoop h, ChainResult.applyLoop⟩

/-! ### Termination -/

/-- A path that ends is a walk along the pointers between versions. -/
theorem Reaches.not_loops (h : Reaches calls eventType version payload last out)
    (hlast : firstFrom calls eventType last = none) :
    ¬Loops (nextVersion calls eventType) version := by
  have hwalk : ∃ n l, walk (nextVersion calls eventType) n version = some l := by
    induction h with
    | refl version payload =>
      have hnone : nextVersion calls eventType version = none := by rw [nextVersion, hlast]; rfl
      exact ⟨1, _, walk_of_none hnone⟩
    | step hfirst _ _ ih =>
      obtain ⟨n, l, hl⟩ := ih hlast
      refine ⟨n + 1, _, (walk_of_some ?_).trans (congrArg _ hl)⟩
      rw [nextVersion, hfirst]
      rfl
  obtain ⟨n, l, hl⟩ := hwalk
  exact not_loops_of_walk hl

/-- Along a walk that ends the chain has a result. -/
theorem exists_chainResult_of_walk {n : ℕ} {l : List UInt32}
    (h : walk (nextVersion calls eventType) n version = some l) :
    ∃ result, ChainResult calls eventType version payload result := by
  induction n generalizing version payload l with
  | zero => exact absurd h (by simp [walk])
  | succ n ih =>
    rcases hfirst : firstFrom calls eventType version with _ | e
    · by_cases hhigher : ∃ e ∈ entriesFor calls eventType, version < e.fromVersion
      · obtain ⟨e, he, hlt⟩ := hhigher
        exact ⟨_, .gap (.refl _ payload) hfirst he hlt⟩
      · exact ⟨_, .ended (.refl _ payload) hfirst fun e he hlt => hhigher ⟨e, he, hlt⟩⟩
    · rcases hupcast : e.upcaster payload with err | payload'
      · exact ⟨_, .failed (.refl _ _) hfirst hupcast⟩
      · have hnext : nextVersion calls eventType version = some e.toVersion := by
          rw [nextVersion, hfirst]
          rfl
        rw [walk_of_some hnext] at h
        obtain ⟨l', hl', -⟩ := Option.map_eq_some_iff.mp h
        obtain ⟨result, hresult⟩ := @ih _ payload' _ hl'
        exact ⟨result, hresult.cons hfirst hupcast⟩

theorem exists_chainResult_iff : (∃ result, ChainResult calls eventType version payload result) ↔
    ¬Loops (nextVersion calls eventType) version ∨ FailsOnTheWay calls eventType version payload := by
  constructor
  · rintro ⟨result, h⟩
    cases h with
    | ended path hlast _ => exact .inl (path.not_loops hlast)
    | gap path hlast _ _ => exact .inl (path.not_loops hlast)
    | failed path hfirst herror => exact .inr ⟨_, _, _, _, path, hfirst, herror⟩
  · rintro (hloops | ⟨last, out, e, err, path, hfirst, herror⟩)
    · have hdom : ∀ v, (nextVersion calls eventType v).isSome →
          v ∈ (entriesFor calls eventType).map (·.fromVersion) := by
        intro v hv
        rw [nextVersion, Option.isSome_map] at hv
        obtain ⟨e, he⟩ := Option.isSome_iff_exists.mp hv
        refine List.mem_map.mpr ⟨e, List.mem_of_find?_eq_some he, ?_⟩
        exact of_decide_eq_true
          (List.find?_some (p := fun e : UpcasterEntry => decide (e.fromVersion = v)) he)
      obtain ⟨n, l, hl⟩ := (exists_walk_iff hdom).mpr hloops
      exact exists_chainResult_of_walk hl
    · exact ⟨_, .failed path hfirst herror⟩

/-- **Termination**: whatever was registered, `apply` returns the result of the chain and
nothing else, and it returns if and only if the path from the stored version does not lead
into a loop or an upcaster on it fails. -/
theorem upcasting_terminates_iff (calls : List UpcasterCall) (eventType : String)
    (storedVersion : UInt32) (payload : Bytes) :
    (∀ result, (∃ fuel,
          (registerAll calls).apply fuel eventType storedVersion payload = some result) ↔
        ChainResult calls eventType storedVersion payload result) ∧
      ((∃ fuel result,
          (registerAll calls).apply fuel eventType storedVersion payload = some result) ↔
        ¬Loops (nextVersion calls eventType) storedVersion ∨
          FailsOnTheWay calls eventType storedVersion payload) := by
  refine ⟨fun _ => apply_iff, ?_⟩
  rw [← exists_chainResult_iff, exists_comm]
  exact exists_congr fun result => apply_iff

/-- An upcaster from version 1 to itself. -/
def sameVersion : List UpcasterCall := [⟨"a", 1, 1, .ok⟩]

/-- It is applied forever. -/
theorem upcasting_not_terminating : ¬∀ (calls : List UpcasterCall) (eventType : String)
    (storedVersion : UInt32) (payload : Bytes), ∃ fuel result,
    (registerAll calls).apply fuel eventType storedVersion payload = some result := by
  intro h
  obtain ⟨fuel, result, happly⟩ := h sameVersion "a" 1 []
  rcases exists_chainResult_iff.mp ⟨result, apply_iff.mp ⟨fuel, happly⟩⟩ with
    hloops | ⟨last, out, e, err, -, hfirst, herror⟩
  · exact hloops ⟨1, .refl, .single rfl⟩
  · have he := List.mem_of_find?_eq_some hfirst
    obtain rfl := List.mem_singleton.mp he
    exact absurd herror (by simp)

end Fossic
