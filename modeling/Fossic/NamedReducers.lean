/-
Historical reads with a reducer of a given name.

`read_state_at_version_with_reducer` does not ask which reducer matches the stream: it takes the
first registration of the name, whatever its pattern.  Snapshots are filed under the name and the
schema version, so such a read may start from a snapshot that was taken for any stream pattern.

* `findByName_append` — a later registration does not take a name over;
* `named_read_eq_fold` — the read is the fold over the history;
* `named_reads_stable` — what it returns for a version that has been reached.
-/
import Fossic.SnapshotRuns

namespace Fossic

open Checkpoint Transition

/-! ### The read -/

/-- `ReducerRegistry::find_by_name`. -/
def findByName (entries : List ReducerEntry) (name : String) : Option BoxedReducer :=
  (entries.find? fun e => e.reducer.name == name).map (·.reducer)

/-- `Error::ReducerNotFoundByName`, or any other error. -/
inductive NamedReadError
  | reducerNotFoundByName (name : String)
  | other (e : Error)

/-- `Store::read_state_at_version_with_reducer`, for a state that `rmp_serde` decodes with
`decode`. -/
def readStateAtVersionWithReducer {S : Type} (decode : Bytes → Except String S) (s : StoreInner)
    (streamId branch : String) (version : UInt64) (reducerName : String) :
    Except NamedReadError S :=
  match findByName s.reducers reducerName with
  | none => .error (.reducerNotFoundByName reducerName)
  | some reducer => Except.mapError .other do
    let (bytes, events) ← computeStateBytes reducer streamId branch (some version) s.db
    let state ← applyEvents reducer streamId bytes events
    (decode state).mapError .msgpackDecode

variable {d : Deps} {R : BoxedReducer → Prop} {db db' : Db} {streamId branch name : String}
  {r r' : BoxedReducer} {entries more : List ReducerEntry} {s s' : SnapshotWorld}
  {as bs : List SnapshotAction} {version : UInt64} {a : SnapshotAction}

/-! ### Names -/

theorem findByName_eq_some (h : findByName entries name = some r) :
    r.name = name ∧ ∃ e ∈ entries, e.reducer = r := by
  obtain ⟨e, he, rfl⟩ := Option.map_eq_some_iff.mp h
  exact ⟨by simpa using List.find?_some he, e, List.mem_of_find?_eq_some he, rfl⟩

theorem findByName_append (h : findByName entries name = some r) :
    findByName (entries ++ more) name = some r := by
  obtain ⟨e, he, rfl⟩ := Option.map_eq_some_iff.mp h
  rw [findByName, List.find?_append, he]
  rfl

/-- The step opens the store again, with no reducers. -/
def SnapshotAction.isReopen : SnapshotAction → Bool
  | .reopen .. => true
  | _ => false

theorem taskStep_reducers (hR : SameMeaning R) {store store' : StoreInner}
    {task task' : SnapshotTask} {a : TaskAction} (h : StoreSound R store)
    (hstep : taskStep d store task a = some (store', task')) :
    store'.reducers = store.reducers := by
  rw [taskStep.eq_def] at hstep
  split at hstep
  · obtain ⟨rfl, rfl⟩ := Prod.mk.inj (Option.some_inj.mp hstep)
    rfl
  · split at hstep
    · obtain ⟨rfl, rfl⟩ := Prod.mk.inj (Option.some_inj.mp hstep)
      rfl
    · exact absurd hstep (by simp)
  · obtain ⟨rfl, rfl⟩ := Prod.mk.inj (Option.some_inj.mp hstep)
    exact (readUpToSnapshot_spec hR h.tables (fun _ => h.getReducer) rfl).2.2
  · obtain ⟨rfl, rfl⟩ := Prod.mk.inj (Option.some_inj.mp hstep)
    rfl
  · split at hstep <;>
    · obtain ⟨rfl, rfl⟩ := Prod.mk.inj (Option.some_inj.mp hstep)
      rfl
  · split at hstep
    · split at hstep <;>
      · obtain ⟨rfl, rfl⟩ := Prod.mk.inj (Option.some_inj.mp hstep)
        rfl
    · obtain ⟨rfl, rfl⟩ := Prod.mk.inj (Option.some_inj.mp hstep)
      rfl
  · obtain ⟨rfl, rfl⟩ := Prod.mk.inj (Option.some_inj.mp hstep)
    rw [recordSnapshot]
    split <;> rfl
  · obtain ⟨rfl, rfl⟩ := Prod.mk.inj (Option.some_inj.mp hstep)
    rfl
  · exact absurd hstep (by simp)

/-- While the store is open, registrations are only added. -/
theorem reducers_of_step (hR : SameMeaning R) (h : SnapshotInv R s) (ha : a.isReopen = false)
    (hstep : snapshotStep d s a = some s') : s.store.reducers <+: s'.store.reducers := by
  cases a with
  | store op =>
    rw [snapshotStep] at hstep
    split at hstep
    · exact absurd hstep (by simp)
    · obtain rfl := Option.some_inj.mp hstep
      exact List.prefix_rfl
  | register pattern reducer policy =>
    rw [snapshotStep] at hstep
    split at hstep
    · rename_i entries hreg
      obtain rfl := Option.some_inj.mp hstep
      show s.store.reducers <+: entries
      rw [registerWithPolicy_eq_ok hreg]
      exact List.prefix_append _ _
    · obtain rfl := Option.some_inj.mp hstep
      exact List.prefix_rfl
  | reopen => exact absurd ha (by simp [SnapshotAction.isReopen])
  | task w a =>
    obtain ⟨⟨store, task⟩, htask, rfl⟩ := Option.map_eq_some_iff.mp hstep
    show s.store.reducers <+: store.reducers
    rw [taskStep_reducers hR h.store htask]

/-! ### Reads -/

/-- **The read is the fold over the history**, with the reducer of the name. -/
theorem named_read_eq_fold {S : Type} {decode : Bytes → Except String S} (hR : SameMeaning R)
    (h : SnapshotInv R s) (hversion : version.toNat < 2 ^ 63)
    (hr : findByName s.store.reducers name = some r) :
    readStateAtVersionWithReducer decode s.store streamId branch version name =
      Except.mapError .other (do
        let state ← foldEvents r streamId
          (historyUpTo s.store.db streamId branch version.toNat)
        (decode state).mapError .msgpackDecode) := by
  obtain ⟨-, e, he, rfl⟩ := findByName_eq_some hr
  have hstop : stopAt (some version) = version.toNat := u64AsI64_of_lt hversion
  have hstate := @computeState_eq R s.store.db streamId branch e.reducer hR
    (h.store.registered e he) h.store.tables.fits h.store.tables.snapshots (some version)
    (by omega)
  rw [readStateAtVersionWithReducer, hr, ← hstop, ← hstate]
  dsimp only
  rw [bind_assoc]

/-- Below a version that has been reached the history does not change. -/
theorem historyUpTo_extends (h : Extends db db') {v : ℤ} (hv : v ≤ db.maxVersion streamId branch) :
    historyUpTo db' streamId branch v = historyUpTo db streamId branch v := by
  obtain ⟨new, hnew, habove⟩ := h.rowsOn streamId branch
  rw [historyUpTo, historyUpTo, hnew, upTo_append fun row hrow => hv.trans_lt (habove row hrow)]

/-- **A historical read by name is settled once the version has been reached**, if all reducers
ever registered under one name and schema version mean the same.  In every run of a store with any
callers, snapshots, collections and re-openings: the read takes the reducer that was first
registered under the name and returns its fold over the events up to the version.  Until the store
is opened again no registration takes the name over; and at any later time, also after it was
opened again with a reducer of that name and schema version, the read returns the same. -/
theorem named_reads_stable {S : Type} (decode : Bytes → Except String S) (hR : SameMeaning R)
    {thresholdBytes : UInt64} {now : Int64}
    (hrun : run (snapshotStep d) (.init thresholdBytes now) as = some s)
    (hrun' : run (snapshotStep d) s bs = some s')
    (has : ∀ reducer, Registered (as ++ bs) reducer → R reducer)
    (hversion : version.toNat < 2 ^ 63)
    (hreached : (version.toNat : ℤ) ≤ s.store.db.maxVersion streamId branch)
    (hr : findByName s.store.reducers name = some r) :
    readStateAtVersionWithReducer decode s.store streamId branch version name =
        Except.mapError .other (do
          let state ← foldEvents r streamId
            (historyUpTo s.store.db streamId branch version.toNat)
          (decode state).mapError .msgpackDecode) ∧
      ((∀ a ∈ bs, a.isReopen = false) → findByName s'.store.reducers name = some r) ∧
      ∀ r', findByName s'.store.reducers name = some r' →
        r'.stateSchemaVersion = r.stateSchemaVersion →
          readStateAtVersionWithReducer decode s'.store streamId branch version name =
            readStateAtVersionWithReducer decode s.store streamId branch version name := by
  have hinv : SnapshotInv R s := (snapshotInv_run hR (snapshotInv_init thresholdBytes now)
    (fun reducer ⟨pattern, policy, hmem⟩ =>
      has reducer ⟨pattern, policy, List.mem_append_left _ hmem⟩) hrun).1
  have hbs : ∀ reducer, Registered bs reducer → R reducer := fun reducer ⟨pattern, policy, hmem⟩ =>
    has reducer ⟨pattern, policy, List.mem_append_right _ hmem⟩
  obtain ⟨hinv', hext⟩ := snapshotInv_run hR hinv hbs hrun'
  refine ⟨named_read_eq_fold hR hinv hversion hr, fun hopen => ?_, fun r' hr' hschema => ?_⟩
  · have hprefix : s.store.reducers <+: s'.store.reducers := by
      refine (run_invariant
        (I := fun t => SnapshotInv R t ∧ s.store.reducers <+: t.store.reducers)
        (P := fun _ a => a.isReopen = false ∧
          ∀ pattern reducer policy, a = .register pattern reducer policy → R reducer)
        (fun t a t' ht ha hstep => ?_) ⟨hinv, List.prefix_rfl⟩
        (along_of_forall fun a ha => ⟨hopen a ha, fun pattern reducer policy heq =>
          hbs reducer ⟨pattern, policy, heq ▸ ha⟩⟩) hrun').2
      exact ⟨(snapshotInv_step hR ht.1 ha.2 hstep).1,
        ht.2.trans (reducers_of_step hR ht.1 ha.1 hstep)⟩
    obtain ⟨more, hmore⟩ := hprefix
    rw [← hmore]
    exact findByName_append hr
  · obtain ⟨hname, e, he, rfl⟩ := findByName_eq_some hr
    obtain ⟨hname', e', he', rfl⟩ := findByName_eq_some hr'
    have hkey : e'.reducer.key = e.reducer.key := Prod.ext (hname'.trans hname.symm) hschema
    have hsame := hR _ _ (hinv'.store.registered e' he') (hinv.store.registered e he) hkey
    rw [named_read_eq_fold hR hinv' hversion hr', named_read_eq_fold hR hinv hversion hr,
      historyUpTo_extends hext hreached]
    have hfold : foldEvents e'.reducer streamId
        (historyUpTo s.store.db streamId branch version.toNat) = foldEvents e.reducer streamId
          (historyUpTo s.store.db streamId branch version.toNat) := by
      rw [historyUpTo, foldEvents_map, foldEvents_map, hsame.1,
        hR.rowStep (hinv'.store.registered e' he') (hinv.store.registered e he) hkey]
    rw [hfold]

/-- A first event is read by a name whose pattern is of another stream; then the store grows, and
a second reducer of the name is registered. -/
theorem named_reads_stable_later : ∃ s s' : SnapshotWorld,
    s'.store.reducers.length = 2 ∧ s'.store.db.events.length = s.store.db.events.length + 1 ∧
      readStateAtVersionWithReducer (S := Bytes) .ok s'.store "s" "main" 0 "collect" =
        readStateAtVersionWithReducer .ok s.store "s" "main" 0 "collect" := by
  let append (eventType : String) : SnapshotAction :=
    .store (.write [] (.append { streamId := "s", eventType := eventType, payload := .null })
      fun _ => 0)
  let as : List SnapshotAction :=
    [.store (.declareStream "s" "t" none 0), .register "elsewhere" collectReducer .manual,
      append "a"]
  let bs : List SnapshotAction := [append "b", .register "s" collectReducer .manual]
  have hcollect : ∀ r, Registered (as ++ bs) r → r = collectReducer := by
    rintro r ⟨pattern, policy, h⟩
    have h' : pattern = "elsewhere" ∧ r = collectReducer ∧ policy = .manual ∨
        pattern = "s" ∧ r = collectReducer ∧ policy = .manual := by
      simpa [as, bs, append] using h
    rcases h' with h' | h' <;> exact h'.2.1
  have hmeaning : SameMeaning (Registered (as ++ bs)) := by
    intro r r' hr hr' _
    rw [hcollect r hr, hcollect r' hr']
    exact ⟨rfl, rfl⟩
  obtain ⟨-, hkeeps, hstable⟩ := @named_reads_stable plainDeps _ "s" "main" "collect" _ _ _ as bs 0
    Bytes .ok hmeaning 0 0 rfl rfl (fun _ h => h) (by decide) (by decide) rfl
  refine ⟨_, _, ?_, ?_, hstable _ (hkeeps ?_) rfl⟩
  · rfl
  · rfl
  · simp [bs, append, SnapshotAction.isReopen]

end Fossic
