/-
What can come of a set-up that other processes join and that may stop anywhere.

* `phase_step` — while nobody gets in between, a file is untouched, or being built by
  one process, or built;
* `stuck_run` — once a process has stopped in the middle of the schema, no open
  succeeds any more;
* `set_up_survives_iff` — opens succeed exactly when every process that starts on the
  schema finds the file untouched, and none stops before its stamp.
-/
import Fossic.SchemaSetup

namespace Fossic

open Transition Function

variable {file : DbFile} {s s' : Opening} {p q : ℕ} {stage : OpenStage} {nowUs : Int64}
  {o : SchemaObject} {rest : List SchemaObject} {a : OpenAction} {actions : List OpenAction}

/-! ### The phases of a set-up -/

/-- An open that has not begun to write: it has not read the stamp, or found it 0. -/
def OpenStage.Early : OpenStage → Prop
  | .readVersion => True
  | .create rest => rest = SCHEMA_V1
  | _ => False

/-- An open of a file that is stamped, unless it has read the stamp before. -/
def OpenStage.Late (file : DbFile) : OpenStage → Prop
  | .readVersion | .bootstrapMeta => True
  | .create rest => rest = SCHEMA_V1
  | .stamp => False
  | .bootstrapSystemStreams => file.metaRows.map Prod.fst = META_KEYS

structure Untouched (s : Opening) : Prop where
  file : s.file = .fresh
  early : ∀ p stage, s.opens p = some stage → stage.Early
  results : s.results = []

/-- Process `p` is between its first statement and its stamp. -/
structure Building (p : ℕ) (rest : List SchemaObject) (s : Opening) : Prop where
  stage : s.opens p = some (.create rest) ∨ s.opens p = some .stamp ∧ rest = []
  schema : SCHEMA_V1 = s.file.objects ++ rest
  begun : s.file.objects ≠ []
  version : s.file.userVersion = 0
  metaRows : s.file.metaRows = []
  streams : s.file.streams = []
  early : ∀ q stage, q ≠ p → s.opens q = some stage → stage.Early
  results : s.results = []

structure Built (s : Opening) : Prop where
  schema : s.file.objects = SCHEMA_V1
  version : s.file.userVersion = 1
  metaRows : s.file.metaRows = [] ∨ s.file.metaRows.map Prod.fst = META_KEYS
  streams : s.file.streams = [] ∨ s.file.streams.map (·.id) = [SYSTEM_STREAM]
  late : ∀ p stage, s.opens p = some stage → stage.Late s.file
  ended : ∀ result ∈ s.results, result = .ok () ∧ SetUp s.file

inductive Phase (s : Opening) : Prop
  | untouched (h : Untouched s)
  | building (p : ℕ) (rest : List SchemaObject) (h : Building p rest s)
  | built (h : Built s)

/-- Nobody gets in between: a process runs the first statement of the schema on an
untouched file, and does not stop before its stamp. -/
def Undisturbed (s : Opening) : OpenAction → Prop
  | .start _ => True
  | .statement p _ => s.opens p = some (.create SCHEMA_V1) → s.file.objects = []
  | .crash p => s.opens p ≠ some .stamp ∧ ∀ rest, s.opens p = some (.create rest) →
      rest = SCHEMA_V1

theorem schema_cons : ∃ o rest, SCHEMA_V1 = o :: rest ∧ rest ≠ SCHEMA_V1 := by
  refine ⟨_, _, rfl, fun h => ?_⟩
  exact absurd (congrArg List.length h) (by decide)

theorem rest_ne (h : SCHEMA_V1 = file.objects ++ rest) (hbegun : file.objects ≠ []) :
    rest ≠ SCHEMA_V1 := by
  intro hrest
  have hlength := congrArg List.length h
  rw [hrest, List.length_append] at hlength
  exact hbegun (List.eq_nil_of_length_eq_zero (by omega))

/-- What holds of the stages of all processes, when one of them changes. -/
theorem forall_update {P : ℕ → OpenStage → Prop} {next : Option OpenStage}
    (h : ∀ q stage, q ≠ p → s.opens q = some stage → P q stage)
    (hnext : ∀ stage, next = some stage → P p stage) (q : ℕ) (stage : OpenStage)
    (hq : update s.opens p next q = some stage) : P q stage := by
  by_cases hqp : q = p
  · subst hqp
    rw [update_self] at hq
    exact hnext stage hq
  · rw [update_of_ne hqp] at hq
    exact h q stage hqp hq

theorem Untouched.move {next : Option OpenStage} (h : Untouched s)
    (hnext : ∀ stage, next = some stage → stage.Early) :
    Untouched { s with opens := update s.opens p next } where
  file := h.file
  early := forall_update (fun q stage _ => h.early q stage) hnext
  results := h.results

/-- A process that is not building moves without writing. -/
theorem Building.move {next : Option OpenStage} (h : Building p rest s) (hqp : q ≠ p)
    (hnext : ∀ stage, next = some stage → stage.Early) :
    Building p rest { s with opens := update s.opens q next } where
  stage := by
    show update s.opens q next p = _ ∨ update s.opens q next p = _ ∧ _
    rw [update_of_ne hqp.symm]
    exact h.stage
  schema := h.schema
  begun := h.begun
  version := h.version
  metaRows := h.metaRows
  streams := h.streams
  early q' stage hne hq' := forall_update (s := s) (P := fun q stage => q ≠ p → stage.Early)
    (fun q stage _ hq hqp => h.early q stage hqp hq) (fun stage hstage _ => hnext stage hstage)
    q' stage hq' hne
  results := h.results

theorem Built.move {next : Option OpenStage} (h : Built s)
    (hnext : ∀ stage, next = some stage → stage.Late s.file) :
    Built { s with opens := update s.opens p next } where
  schema := h.schema
  version := h.version
  metaRows := h.metaRows
  streams := h.streams
  late := forall_update (fun q stage _ => h.late q stage) hnext
  ended := h.ended

/-! ### A statement in each phase -/

theorem readVersion_unstamped (h : file.userVersion = 0) :
    OpenStage.readVersion.statement file nowUs = (file, .inl (.create SCHEMA_V1)) := by
  have hstored : file.stored = 0 := by
    rw [DbFile.stored, h]
    rfl
  rw [OpenStage.statement, hstored]
  rfl

theorem readVersion_stamped (h : file.userVersion = 1) :
    OpenStage.readVersion.statement file nowUs = (file, .inl .bootstrapMeta) := by
  have hstored : file.stored = 1 := by
    rw [DbFile.stored, h]
    rfl
  rw [OpenStage.statement, hstored]
  rfl

theorem untouched_read (p : ℕ) (nowUs : Int64) (h : Untouched s) :
    Untouched (s.after p (OpenStage.readVersion.statement s.file nowUs)) := by
  rw [readVersion_unstamped (by rw [h.file]; rfl)]
  exact h.move fun stage hstage => by rw [← Option.some_inj.mp hstage]; rfl

theorem untouched_create (p : ℕ) (nowUs : Int64) (h : Untouched s) (hschema : SCHEMA_V1 = o :: rest) :
    Building p rest (s.after p ((OpenStage.create SCHEMA_V1).statement s.file nowUs)) := by
  have hfile := h.file
  have hnext : SCHEMA_V1 = s.file.objects ++ o :: rest := by rw [hfile, hschema]; rfl
  rw [hschema, OpenStage.statement, createObject_next hnext]
  exact {
    stage := .inl (update_self ..)
    schema := by rw [hnext]; simp [OpenStage.orFail, Opening.after]
    begun := by simp [OpenStage.orFail, Opening.after]
    version := by simp [OpenStage.orFail, Opening.after, hfile, DbFile.fresh]
    metaRows := by simp [OpenStage.orFail, Opening.after, hfile, DbFile.fresh]
    streams := by simp [OpenStage.orFail, Opening.after, hfile, DbFile.fresh]
    early := fun q stage hqp hq => h.early q stage ((update_of_ne hqp ..).symm.trans hq)
    results := h.results }

theorem untouched_statement (h : Untouched s) (hp : s.opens p = some stage) :
    Phase (s.after p (stage.statement s.file nowUs)) := by
  have hearly := h.early p stage hp
  cases stage with
  | readVersion => exact .untouched (untouched_read p nowUs h)
  | create rest =>
    obtain rfl : rest = SCHEMA_V1 := hearly
    obtain ⟨o, rest, hschema, -⟩ := schema_cons
    exact .building p rest (untouched_create p nowUs h hschema)
  | stamp | bootstrapMeta | bootstrapSystemStreams => exact hearly.elim

/-- The building process leaves the others where they are. -/
theorem Building.others {next : Option OpenStage} (h : Building p rest s) (q : ℕ)
    (stage : OpenStage) (hqp : q ≠ p) (hq : update s.opens p next q = some stage) : stage.Early :=
  h.early q stage hqp ((update_of_ne hqp ..).symm.trans hq)

theorem building_create (nowUs : Int64) (h : Building p (o :: rest) s) :
    Building p rest (s.after p ((OpenStage.create (o :: rest)).statement s.file nowUs)) := by
  rw [OpenStage.statement, createObject_next h.schema]
  exact {
    stage := .inl (update_self ..)
    schema := by rw [h.schema]; simp [OpenStage.orFail, Opening.after]
    begun := by simp [OpenStage.orFail, Opening.after]
    version := h.version
    metaRows := h.metaRows
    streams := h.streams
    early := h.others
    results := h.results }

/-- The end of the batch. -/
theorem building_end (h : Building p [] s) :
    Building p [] (s.after p ((OpenStage.create []).statement s.file nowUs)) where
  stage := .inr ⟨update_self .., rfl⟩
  schema := h.schema
  begun := h.begun
  version := h.version
  metaRows := h.metaRows
  streams := h.streams
  early := h.others
  results := h.results

theorem building_stamp (h : Building p [] s) :
    Built (s.after p (OpenStage.stamp.statement s.file nowUs)) where
  schema := (h.schema.trans (List.append_nil _)).symm
  version := rfl
  metaRows := .inl h.metaRows
  streams := .inl h.streams
  late := by
    refine forall_update (fun q stage hqp hq => ?_) fun stage hstage => ?_
    · have hearly := h.early q stage hqp hq
      cases stage with
      | readVersion => trivial
      | create rest => exact hearly
      | stamp | bootstrapMeta | bootstrapSystemStreams => exact hearly.elim
    · rw [← Option.some_inj.mp hstage]
      trivial
  ended := fun result hresult => by
    have hnone : result ∈ s.results := hresult
    rw [h.results] at hnone
    exact absurd hnone List.not_mem_nil

theorem building_statement (h : Building p rest s) (hp : s.opens p = some stage) :
    Phase (s.after p (stage.statement s.file nowUs)) := by
  rcases h.stage with hstage | ⟨hstage, rfl⟩
  · obtain rfl := Option.some_inj.mp (hp.symm.trans hstage)
    cases rest with
    | nil => exact .building p [] (building_end h)
    | cons o rest => exact .building p rest (building_create nowUs h)
  · obtain rfl := Option.some_inj.mp (hp.symm.trans hstage)
    exact .built (building_stamp h)

/-- A process on the file that another one is building has only the stamp to read. -/
theorem building_other (h : Building p rest s) (hqp : q ≠ p) (hq : s.opens q = some stage)
    (hclear : stage = .create SCHEMA_V1 → s.file.objects = []) :
    Building p rest (s.after q (stage.statement s.file nowUs)) := by
  have hearly := h.early q stage hqp hq
  cases stage with
  | readVersion =>
    rw [readVersion_unstamped h.version]
    exact h.move hqp fun stage hstage => by rw [← Option.some_inj.mp hstage]; rfl
  | create rest => exact absurd (hclear (congrArg _ hearly)) h.begun
  | stamp | bootstrapMeta | bootstrapSystemStreams => exact hearly.elim

theorem built_statement (nowUs : Int64) (h : Built s) (hp : s.opens p = some stage)
    (hclear : stage = .create SCHEMA_V1 → s.file.objects = []) :
    Built (s.after p (stage.statement s.file nowUs)) := by
  have hlate := h.late p stage hp
  cases stage with
  | readVersion =>
    rw [readVersion_stamped h.version]
    exact h.move fun stage hstage => by rw [← Option.some_inj.mp hstage]; trivial
  | create rest =>
    have hempty := hclear (congrArg _ hlate)
    rw [h.schema] at hempty
    exact absurd hempty (by decide)
  | stamp => exact hlate.elim
  | bootstrapMeta =>
    obtain ⟨rows, hrows, hmeta⟩ := bootstrapMeta_built nowUs h.schema h.metaRows
    rw [OpenStage.statement, hmeta]
    refine ⟨h.schema, h.version, .inr hrows, h.streams, ?_, ?_⟩
    · refine forall_update (fun q stage _ hq => ?_) fun stage hstage => ?_
      · have hlate := h.late q stage hq
        cases stage with
        | bootstrapSystemStreams => exact hrows
        | readVersion | bootstrapMeta => trivial
        | create rest => exact hlate
        | stamp => exact hlate.elim
      · rw [← Option.some_inj.mp hstage]
        exact hrows
    · intro result hresult
      obtain ⟨hok, hset⟩ := h.ended result hresult
      exact ⟨hok, hset.schema, hset.version, hrows, hset.system⟩
  | bootstrapSystemStreams =>
    obtain ⟨streams, hids, hstreams⟩ :=
      bootstrapSystemStreams_built nowUs h.schema h.streams
    rw [OpenStage.statement, hstreams]
    refine ⟨h.schema, h.version, h.metaRows, .inr hids, ?_, ?_⟩
    · exact forall_update (fun q stage _ hq => h.late q stage hq) fun stage hstage =>
        absurd hstage (by simp)
    · intro result hresult
      refine ⟨?_, h.schema, h.version, hlate, hids⟩
      rcases List.mem_append.mp hresult with hresult | hresult
      · exact (h.ended result hresult).1
      · exact List.mem_singleton.mp hresult

/-- While nobody gets in between, the phases follow one another. -/
theorem phase_step (h : Phase s) (hclear : Undisturbed s a) (hstep : openStep s a = some s') :
    Phase s' := by
  cases a with
  | start p =>
    rw [openStep] at hstep
    split at hstep
    · rename_i hp
      obtain rfl := Option.some_inj.mp hstep
      cases h with
      | untouched h =>
        exact .untouched (h.move fun stage hstage => by rw [← Option.some_inj.mp hstage]; trivial)
      | building q rest h =>
        have hpq : p ≠ q := by
          rintro rfl
          rcases h.stage with hstage | ⟨hstage, -⟩ <;> exact absurd (hp.symm.trans hstage) (by simp)
        exact .building q rest
          (h.move hpq fun stage hstage => by rw [← Option.some_inj.mp hstage]; trivial)
      | built h =>
        exact .built (h.move fun stage hstage => by rw [← Option.some_inj.mp hstage]; trivial)
    · exact absurd hstep (by simp)
  | statement p nowUs =>
    obtain ⟨stage, hp, rfl⟩ := Option.map_eq_some_iff.mp hstep
    have hclear : stage = .create SCHEMA_V1 → s.file.objects = [] := fun hstage =>
      hclear (hstage ▸ hp)
    cases h with
    | untouched h => exact untouched_statement h hp
    | building q rest h =>
      by_cases hpq : p = q
      · subst hpq
        exact building_statement h hp
      · exact .building q rest (building_other h hpq hp hclear)
    | built h => exact .built (built_statement nowUs h hp hclear)
  | crash p =>
    obtain rfl := Option.some_inj.mp hstep
    obtain ⟨hstamp, hcreate⟩ := hclear
    cases h with
    | untouched h => exact .untouched (h.move fun stage hstage => absurd hstage (by simp))
    | building q rest h =>
      have hpq : p ≠ q := by
        rintro rfl
        rcases h.stage with hstage | ⟨hstage, -⟩
        · exact rest_ne h.schema h.begun (hcreate rest hstage)
        · exact hstamp hstage
      exact .building q rest (h.move hpq fun stage hstage => absurd hstage (by simp))
    | built h => exact .built (h.move fun stage hstage => absurd hstage (by simp))

/-! ### Half a schema -/

/-- Part of the schema is there, without the stamp, and nobody is about to go on. -/
structure Stuck (s : Opening) : Prop where
  schema : ∃ rest, SCHEMA_V1 = s.file.objects ++ rest
  begun : s.file.objects ≠ []
  version : s.file.userVersion = 0
  early : ∀ p stage, s.opens p = some stage → stage.Early

theorem Stuck.move {next : Option OpenStage} (h : Stuck s)
    (hnext : ∀ stage, next = some stage → stage.Early) :
    Stuck { s with opens := update s.opens p next } where
  schema := h.schema
  begun := h.begun
  version := h.version
  early := forall_update (fun q stage _ => h.early q stage) hnext

/-- Such a file stays as it is, and an open that ends on it fails. -/
theorem stuck_step (h : Stuck s) (hstep : openStep s a = some s') :
    Stuck s' ∧ ∃ added, s'.results = s.results ++ added ∧ .ok () ∉ added := by
  have hnone : ∀ opens, ∃ added,
      ({ s with opens := opens } : Opening).results = s.results ++ added ∧ .ok () ∉ added :=
    fun _ => ⟨[], (List.append_nil _).symm, List.not_mem_nil⟩
  cases a with
  | start p =>
    rw [openStep] at hstep
    split at hstep
    · obtain rfl := Option.some_inj.mp hstep
      exact ⟨h.move fun stage hstage => by rw [← Option.some_inj.mp hstage]; trivial, hnone _⟩
    · exact absurd hstep (by simp)
  | statement p nowUs =>
    obtain ⟨stage, hp, rfl⟩ := Option.map_eq_some_iff.mp hstep
    have hearly := h.early p stage hp
    cases stage with
    | readVersion =>
      rw [readVersion_unstamped h.version]
      exact ⟨h.move fun stage hstage => by rw [← Option.some_inj.mp hstage]; rfl, hnone _⟩
    | create rest =>
      obtain rfl : rest = SCHEMA_V1 := hearly
      obtain ⟨o, rest, hschema, -⟩ := schema_cons
      obtain ⟨e, he⟩ := createObject_first hschema h.schema h.begun
      rw [hschema, OpenStage.statement, he]
      have hmoved : Stuck { s with opens := update s.opens p none } :=
        h.move fun stage hstage => absurd hstage (by simp)
      exact ⟨⟨hmoved.schema, hmoved.begun, hmoved.version, hmoved.early⟩, [.error e], rfl, by simp⟩
    | stamp | bootstrapMeta | bootstrapSystemStreams => exact hearly.elim
  | crash p =>
    obtain rfl := Option.some_inj.mp hstep
    exact ⟨h.move fun stage hstage => absurd hstage (by simp), hnone _⟩

/-- **No way back**: once a file holds part of the schema and nobody is going on with
it, every open that ends fails, in every run. -/
theorem stuck_run (h : Stuck s) (hrun : run openStep s actions = some s') :
    Stuck s' ∧ ∃ added, s'.results = s.results ++ added ∧ .ok () ∉ added := by
  refine run_invariant_all
    (I := fun t => Stuck t ∧ ∃ added, t.results = s.results ++ added ∧ .ok () ∉ added)
    (fun t a t' ht hstep => ?_) ⟨h, [], (List.append_nil _).symm, List.not_mem_nil⟩ hrun
  obtain ⟨hstuck, added, hadded, hok⟩ := ht
  obtain ⟨hstuck', more, hmore, hok'⟩ := stuck_step hstuck hstep
  refine ⟨hstuck', added ++ more, by rw [hmore, hadded, List.append_assoc], ?_⟩
  exact fun hmem => (List.mem_append.mp hmem).elim hok hok'

/-- A process that stops between its first statement and its stamp leaves such a file. -/
theorem stuck_of_crash (h : Phase s)
    (hcrash : s.opens p = some .stamp ∨ ∃ rest, s.opens p = some (.create rest) ∧ rest ≠ SCHEMA_V1) :
    Stuck { s with opens := update s.opens p none } := by
  cases h with
  | untouched h =>
    rcases hcrash with hp | ⟨rest, hp, hrest⟩
    · exact (h.early p _ hp).elim
    · exact absurd (h.early p _ hp) hrest
  | building q rest h =>
    have hpq : p = q := by
      by_contra hpq
      rcases hcrash with hp | ⟨rest, hp, hrest⟩
      · exact h.early p _ hpq hp
      · exact hrest (h.early p _ hpq hp)
    subst hpq
    exact ⟨⟨rest, h.schema⟩, h.begun, h.version, forall_update h.early fun stage hstage =>
      absurd hstage (by simp)⟩
  | built h =>
    rcases hcrash with hp | ⟨rest, hp, hrest⟩
    · exact (h.late p _ hp).elim
    · exact absurd (h.late p _ hp) hrest

/-! ### A set-up that runs to its end -/

/-- Some open still succeeds. -/
def Recoverable (s : Opening) : Prop :=
  ∃ actions s', run openStep s actions = some s' ∧ s'.results = s.results ++ [.ok ()]

theorem Recoverable.of_step (hstep : openStep s a = some s') (hresults : s'.results = s.results)
    (h : Recoverable s') : Recoverable s := by
  obtain ⟨actions, t, hrun, ht⟩ := h
  exact ⟨a :: actions, t, run_cons.mpr ⟨s', hstep, hrun⟩, by rw [ht, hresults]⟩

theorem Recoverable.of_statement (hp : s.opens p = some stage)
    (hresults : (s.after p (stage.statement s.file 0)).results = s.results)
    (h : Recoverable (s.after p (stage.statement s.file 0))) : Recoverable s :=
  h.of_step (openStep_statement hp) hresults

theorem recoverable_bootstrapSystemStreams (h : Built s)
    (hp : s.opens p = some .bootstrapSystemStreams) : Recoverable s := by
  obtain ⟨streams, -, hstreams⟩ := bootstrapSystemStreams_built 0 h.schema h.streams
  refine ⟨[.statement p 0], _, run_cons.mpr ⟨_, openStep_statement hp, rfl⟩, ?_⟩
  rw [OpenStage.statement, hstreams]
  rfl

theorem recoverable_bootstrapMeta (h : Built s) (hp : s.opens p = some .bootstrapMeta) :
    Recoverable s := by
  obtain ⟨rows, -, hmeta⟩ := bootstrapMeta_built 0 h.schema h.metaRows
  have hnext : Built (s.after p (OpenStage.bootstrapMeta.statement s.file 0)) :=
    built_statement 0 h hp fun hstage => absurd hstage (by simp)
  refine .of_statement hp ?_ (recoverable_bootstrapSystemStreams (p := p) hnext ?_)
  · rw [OpenStage.statement, hmeta]
    rfl
  · rw [OpenStage.statement, hmeta]
    exact update_self ..

theorem recoverable_building (h : Building p rest s) : Recoverable s := by
  have hstamp : ∀ {s}, Building p [] s → s.opens p = some .stamp → Recoverable s := fun h hp =>
    .of_statement hp rfl (recoverable_bootstrapMeta (building_stamp h) (update_self ..))
  induction rest generalizing s with
  | nil =>
    rcases h.stage with hp | ⟨hp, -⟩
    · exact .of_statement hp rfl (hstamp (building_end h) (update_self ..))
    · exact hstamp h hp
  | cons o rest ih =>
    rcases h.stage with hp | ⟨-, hnil⟩
    · have hnext : Building p rest _ := building_create 0 h
      refine .of_statement hp ?_ (ih hnext)
      rw [hnext.results, h.results]
    · exact absurd hnil (by simp)

/-- Process 0 stops whatever it is doing and opens the file. -/
theorem Recoverable.of_start
    (h : Recoverable { s with opens := update s.opens 0 (some .readVersion) }) : Recoverable s := by
  have hstarted : openStep { s with opens := update s.opens 0 none } (.start 0) =
      some { s with opens := update s.opens 0 (some .readVersion) } := by
    simp only [openStep, update_self]
    show some (Opening.mk s.file (update (update s.opens 0 none) 0 _) s.results) = _
    rw [update_idem]
  exact .of_step (a := .crash 0) rfl rfl (.of_step hstarted rfl h)

theorem recoverable_untouched (h : Untouched s) : Recoverable s := by
  obtain ⟨o, rest, hschema, -⟩ := schema_cons
  have hstart : Untouched { s with opens := update s.opens 0 (some .readVersion) } :=
    h.move fun stage hstage => by rw [← Option.some_inj.mp hstage]; trivial
  have hp : ({ s with opens := update s.opens 0 (some .readVersion) } : Opening).opens 0
      = some .readVersion := update_opens s 0 _
  have hread := untouched_read 0 0 hstart
  have hbuild := untouched_create 0 0 hread hschema
  refine .of_start (.of_statement hp ?_ (.of_statement (p := 0) ?_ ?_
    (recoverable_building hbuild)))
  · rw [hread.results, h.results]
  · rw [readVersion_unstamped (by rw [h.file]; rfl)]
    exact opens_after
  · rw [hbuild.results, hread.results]

theorem recoverable_built (h : Built s) : Recoverable s := by
  have hstart : Built { s with opens := update s.opens 0 (some .readVersion) } :=
    h.move fun stage hstage => by rw [← Option.some_inj.mp hstage]; trivial
  have hp : ({ s with opens := update s.opens 0 (some .readVersion) } : Opening).opens 0
      = some .readVersion := update_opens s 0 _
  have hread := built_statement 0 hstart hp fun hstage => absurd hstage (by simp)
  refine .of_start (.of_statement hp ?_ (recoverable_bootstrapMeta (p := 0) hread ?_))
  · rw [readVersion_stamped h.version]
    rfl
  · rw [readVersion_stamped h.version]
    exact opens_after

theorem Phase.recoverable (h : Phase s) : Recoverable s := by
  cases h with
  | untouched h => exact recoverable_untouched h
  | building p rest h => exact recoverable_building h
  | built h => exact recoverable_built h

/-! ### Every open succeeds -/

/-- In every state that the actions reach, every open that has ended has succeeded and
has left a complete file, and some open still succeeds. -/
structure Survives (s₀ : Opening) (actions : List OpenAction) : Prop where
  ended : ∀ as bs s, actions = as ++ bs → run openStep s₀ as = some s →
    ∀ result ∈ s.results, result = .ok () ∧ SetUp s.file
  recoverable : ∀ as bs s, actions = as ++ bs → run openStep s₀ as = some s → Recoverable s

theorem Survives.tail (h : Survives s (a :: actions)) (hstep : openStep s a = some s') :
    Survives s' actions where
  ended as bs t hactions hrun := h.ended (a :: as) bs t (by rw [hactions]; rfl)
    (run_cons.mpr ⟨s', hstep, hrun⟩)
  recoverable as bs t hactions hrun := h.recoverable (a :: as) bs t (by rw [hactions]; rfl)
    (run_cons.mpr ⟨s', hstep, hrun⟩)

theorem Survives.next (h : Survives s (a :: actions)) (hstep : openStep s a = some s') :
    (∀ result ∈ s'.results, result = .ok () ∧ SetUp s'.file) ∧ Recoverable s' :=
  ⟨(h.tail hstep).ended [] actions s' rfl rfl, (h.tail hstep).recoverable [] actions s' rfl rfl⟩

theorem Phase.ended (h : Phase s) : ∀ result ∈ s.results, result = .ok () ∧ SetUp s.file := by
  cases h with
  | untouched h => rw [h.results]; simp
  | building p rest h => rw [h.results]; simp
  | built h => exact h.ended

theorem Stuck.not_recoverable (h : Stuck s) : ¬ Recoverable s := by
  rintro ⟨actions, s', hrun, hresults⟩
  obtain ⟨-, added, hadded, hok⟩ := stuck_run h hrun
  rw [hadded] at hresults
  rw [List.append_cancel_left hresults] at hok
  exact hok (List.mem_singleton.mpr rfl)

/-- A process that runs the first statement of the schema on a begun file fails. -/
theorem fails_of_begun (nowUs : Int64) (h : Phase s) (hbegun : s.file.objects ≠ []) :
    ∃ e, .error e ∈ (s.after p ((OpenStage.create SCHEMA_V1).statement s.file nowUs)).results := by
  have hschema : ∃ rest, SCHEMA_V1 = s.file.objects ++ rest := by
    cases h with
    | untouched h => exact absurd (by rw [h.file]; rfl) hbegun
    | building q rest h => exact ⟨rest, h.schema⟩
    | built h => exact ⟨[], by rw [h.schema, List.append_nil]⟩
  obtain ⟨o, rest, hcons, -⟩ := schema_cons
  obtain ⟨e, he⟩ := createObject_first hcons hschema hbegun
  refine ⟨e, ?_⟩
  rw [hcons, OpenStage.statement, he]
  exact List.mem_append_right _ (List.mem_singleton.mpr rfl)

theorem undisturbed_of_survives (h : Phase s) (hs : Survives s (a :: actions)) :
    Undisturbed s a := by
  cases a with
  | start p => trivial
  | statement p nowUs =>
    intro hp
    by_contra hbegun
    obtain ⟨e, he⟩ := fails_of_begun nowUs h hbegun
    exact absurd ((hs.next (openStep_statement hp)).1 _ he).1 (by simp)
  | crash p =>
    have hrecoverable := (hs.next (a := .crash p) rfl).2
    constructor
    · exact fun hp => (stuck_of_crash h (.inl hp)).not_recoverable hrecoverable
    · intro rest hp
      by_contra hrest
      exact (stuck_of_crash h (.inr ⟨rest, hp, hrest⟩)).not_recoverable hrecoverable

/-- **When the set-up of a store survives**: for every run of any number of processes
on a new file, with crashes anywhere, all opens that end succeed and leave the whole
schema, and no open is locked out for good, exactly when every process that begins
the schema finds the file untouched and none stops between its first statement and
its stamp. -/
theorem set_up_survives_iff (actions : List OpenAction) :
    Survives .init actions ↔ Along openStep Undisturbed .init actions := by
  have hphase : Phase .init := .untouched ⟨rfl, fun p stage hp => absurd hp (by simp [Opening.init]),
    rfl⟩
  constructor
  · generalize Opening.init = s at hphase
    intro h
    induction actions generalizing s with
    | nil => trivial
    | cons a actions ih =>
      have hclear := undisturbed_of_survives hphase h
      exact ⟨hclear, fun s' hstep => ih s' (phase_step hphase hclear hstep) (h.tail hstep)⟩
  · intro h
    have hreached : ∀ as bs s, actions = as ++ bs → run openStep .init as = some s → Phase s := by
      rintro as bs s rfl hrun
      exact run_invariant (fun _ _ _ ht hclear hstep => phase_step ht hclear hstep) hphase h.left hrun
    exact ⟨fun as bs s hactions hrun => (hreached as bs s hactions hrun).ended,
      fun as bs s hactions hrun => (hreached as bs s hactions hrun).recoverable⟩

/-- A process that stops after the first table: the next open finds the stamp at 0 and
fails on the table that is there. -/
theorem open_after_crash_fails : ¬ ∀ actions, Survives .init actions := by
  intro h
  have hrun : ∃ s, run openStep .init [.start 0, .statement 0 0, .statement 0 0, .crash 0, .start 1,
      .statement 1 0, .statement 1 0] = some s ∧
      .error (.sqlite "table events already exists") ∈ s.results := ⟨_, rfl, .head _⟩
  obtain ⟨s, hrun, herror⟩ := hrun
  exact absurd ((h _).ended _ [] s (List.append_nil _).symm hrun _ herror).1 (by simp)

end Fossic
