/-
Branches and appends on one file.

The lifecycle of a branch is kept by the branch functions only: no append reads the
branches table, except through the condition of `append_if`.

* `closed_branch_frozen` — once a branch is closed its row stays as it is, and an
  append behaves as it would with any other branches table;
* `append_after_promotion` — an append to a promoted branch adds its event.
-/
import Fossic.Branches
import Fossic.StoreRuns

namespace Fossic

open Transition

/-- The tables that branch operations and appends use. -/
structure StoreFile where
  db : Db
  branches : List BranchRow

/-- A write call; the condition of `append_if` may read every table. -/
inductive FileWrite
  | append (a : Append)
  | appendBatch (appends : List Append)
  | appendIf (a : Append) (condition : StoreFile → Except Error Bool)

def FileWrite.call (branches : List BranchRow) : FileWrite → WriteCall
  | append a => .append a
  | appendBatch appends => .appendBatch appends
  | appendIf a condition => .appendIf a fun db => condition ⟨db, branches⟩

inductive FileOp
  | createBranch (b : CreateBranch) (now : Int64)
  | closeBranch (closing : Closing) (streamId branchId : String) (reason : Option String)
      (now : Int64)
  | write (transforms : List TransformEntry) (w : FileWrite) (clock : ℕ → Int64)

/-- The outcomes of the appends, and the tables afterwards. -/
def FileOp.exec (d : Deps) (f : StoreFile) :
    FileOp → Except Error (List (AppendOutcome × Append) × StoreFile)
  | createBranch b now =>
    (createBranchImpl d.isAlphanumeric f.branches b now).map fun branches => ([], ⟨f.db, branches⟩)
  | closeBranch closing streamId branchId reason now =>
    (closeBranchImpl closing f.branches streamId branchId reason now).map fun branches =>
      ([], ⟨f.db, branches⟩)
  | write transforms w clock =>
    ((w.call f.branches).execute d transforms clock f.db).map fun r => (r.1, ⟨r.2, f.branches⟩)

/-- An operation that fails leaves the tables as they were. -/
def fileStep (d : Deps) (f : StoreFile) (op : FileOp) : Option StoreFile :=
  match op.exec d f with
  | .ok r => some r.2
  | .error _ => some f

/-- Only the condition of `append_if` can read the branches. -/
def FileWrite.IgnoresBranches : FileWrite → Prop
  | appendIf _ condition => ∀ db branches branches',
      condition ⟨db, branches⟩ = condition ⟨db, branches'⟩
  | _ => True

variable {d : Deps} {f f' : StoreFile} {op : FileOp} {ops : List FileOp} {row : BranchRow}
  {streamId branchId : String}

/-! ### Closed rows -/

/-- What an operation does to a branch that is closed: nothing. -/
theorem findBranch_step (hrow : findBranch f.branches streamId branchId = some row)
    (hclosed : row.lifecycle ≠ .ephemeral) (h : fileStep d f op = some f') :
    findBranch f'.branches streamId branchId = some row := by
  rw [fileStep] at h
  split at h
  · rename_i r hexec
    obtain rfl := Option.some_inj.mp h
    cases op with
    | createBranch b now =>
      rw [FileOp.exec] at hexec
      rcases hcreate : createBranchImpl d.isAlphanumeric f.branches b now with e | branches
      · rw [hcreate] at hexec
        exact absurd hexec (by simp [Except.map])
      · rw [hcreate] at hexec
        obtain rfl := Except.ok.inj hexec
        obtain ⟨-, -, rfl⟩ := createBranchImpl_eq_ok hcreate
        exact findBranch_append_of_some hrow _
    | closeBranch closing streamId' branchId' reason now =>
      rw [FileOp.exec, closeBranchImpl_spec] at hexec
      split at hexec
      · exact absurd hexec (by simp [Except.map])
      · rename_i row' hrow'
        split at hexec
        · rename_i hopen
          obtain rfl := Except.ok.inj hexec
          show findBranch (updateLifecycle _ _ _ _ _ _) streamId branchId = some row
          rw [findBranch_update, hrow, Option.map_some, if_neg]
          -- the branch that is written is open, so it is another one
          rintro ⟨rfl, rfl⟩
          rw [hrow] at hrow'
          obtain rfl := Option.some_inj.mp hrow'
          exact hclosed hopen
        · split at hexec
          · obtain rfl := Except.ok.inj hexec
            exact hrow
          · exact absurd hexec (by simp [Except.map])
    | write transforms w clock =>
      rw [FileOp.exec] at hexec
      rcases hcall : (w.call f.branches).execute d transforms clock f.db with e | ⟨outs, db⟩
      · rw [hcall] at hexec
        exact absurd hexec (by simp [Except.map])
      · rw [hcall] at hexec
        obtain rfl := Except.ok.inj hexec
        exact hrow
  · obtain rfl := Option.some_inj.mp h
    exact hrow

theorem findBranch_run (hrow : findBranch f.branches streamId branchId = some row)
    (hclosed : row.lifecycle ≠ .ephemeral) (h : run (fileStep d) f ops = some f') :
    findBranch f'.branches streamId branchId = some row :=
  run_invariant_all (I := fun f : StoreFile => findBranch f.branches streamId branchId = some row)
    (fun _ _ _ hrow hstep => findBranch_step hrow hclosed hstep) hrow h

/-- A branch id is taken once. -/
theorem createBranchImpl_taken {isAlphanumeric : Char → Bool} {branches : List BranchRow}
    {b : CreateBranch} {now : Int64} (hrow : findBranch branches b.streamId b.branchId = some row) :
    ∃ e, createBranchImpl isAlphanumeric branches b now = .error e := by
  rcases hcreate : createBranchImpl isAlphanumeric branches b now with e | branches'
  · exact ⟨e, rfl⟩
  · obtain ⟨-, hnew, -⟩ := createBranchImpl_eq_ok hcreate
    exact absurd (hnew.symm.trans hrow) (by simp)

theorem FileWrite.call_congr {w : FileWrite} (h : w.IgnoresBranches)
    (branches branches' : List BranchRow) : w.call branches = w.call branches' := by
  cases w with
  | append a => rfl
  | appendBatch appends => rfl
  | appendIf a condition => exact congrArg _ (funext fun db => h db branches branches')

/-- **Closed branches stay closed**: after an open branch has been closed, in every
run its row stays as it is then; it cannot be created again, closing it the same
way changes nothing and closing it the other way is refused.  Appends do not
consult it: their result and the events they leave are those they would give with
any other branches table. -/
theorem closed_branch_frozen (d : Deps) (f f₁ f₂ : StoreFile) (closing : Closing)
    (streamId branchId : String) (reason : Option String) (now : Int64) (row : BranchRow)
    (outcomes : List (AppendOutcome × Append)) (ops : List FileOp)
    (hrow : findBranch f.branches streamId branchId = some row)
    (hopen : row.lifecycle = .ephemeral)
    (hclose : (FileOp.closeBranch closing streamId branchId reason now).exec d f
      = .ok (outcomes, f₁))
    (hrun : run (fileStep d) f₁ ops = some f₂) :
    findBranch f₂.branches streamId branchId = some { row with
      lifecycle := closing.lifecycle, closedAt := some now, closedReason := reason } ∧
    (∀ b now', b.streamId = streamId → b.branchId = branchId →
      ∃ e, (FileOp.createBranch b now').exec d f₂ = .error e) ∧
    (∀ closing' reason' now',
      (FileOp.closeBranch closing' streamId branchId reason' now').exec d f₂ =
        if closing' = closing then .ok ([], f₂) else .error (closing'.refusal branchId)) ∧
    ∀ transforms w clock branches, w.IgnoresBranches →
      (FileOp.write transforms w clock).exec d ⟨f₂.db, branches⟩ =
        ((FileOp.write transforms w clock).exec d f₂).map fun r => (r.1, ⟨r.2.db, branches⟩) := by
  have hclosed : closing.lifecycle ≠ .ephemeral := by cases closing <;> decide
  -- the call found the branch open, so its UPDATE ran
  have hf₁ : f₁ = ⟨f.db, updateLifecycle f.branches streamId branchId closing.lifecycle now reason⟩ := by
    rw [FileOp.exec, closeBranchImpl_spec, hrow] at hclose
    change (if row.lifecycle = .ephemeral then _ else _ : Except Error _).map _ = _ at hclose
    rw [if_pos hopen] at hclose
    exact (Prod.mk.inj (Except.ok.inj hclose)).2.symm
  have hrow₁ : findBranch f₁.branches streamId branchId = some { row with
      lifecycle := closing.lifecycle, closedAt := some now, closedReason := reason } := by
    rw [hf₁]
    show findBranch (updateLifecycle _ _ _ _ _ _) streamId branchId = _
    rw [findBranch_update, hrow, Option.map_some, if_pos ⟨rfl, rfl⟩]
  have hrow₂ := findBranch_run hrow₁ hclosed hrun
  refine ⟨hrow₂, ?_, ?_, ?_⟩
  · rintro b now' rfl rfl
    obtain ⟨e, he⟩ := @createBranchImpl_taken _ d.isAlphanumeric _ b now' hrow₂
    exact ⟨e, by rw [FileOp.exec, he]; rfl⟩
  · intro closing' reason' now'
    rw [FileOp.exec, closeBranchImpl_spec, hrow₂]
    cases closing <;> cases closing' <;> rfl
  · intro transforms w clock branches hw
    rw [FileOp.exec, FileOp.exec, FileWrite.call_congr hw branches f₂.branches]
    cases (w.call f₂.branches).execute d transforms clock f₂.db <;> rfl

/-- The stream `s` with the open branch `b`. -/
def openBranchFile : StoreFile :=
  ⟨exec plainDeps (Db.bootstrap 0) (.declareStream "s" "t" none 0),
    [⟨"b", "s", "main", 0, none, 0, .ephemeral, none, none, none⟩]⟩

/-- `closed_branch_frozen` on a run that promotes `b` and then appends to it. -/
theorem closed_branch_frozen_promoted :
    ∃ f : StoreFile, f.db.events.length = 1 ∧ (findBranch f.branches "s" "b").map BranchRow.lifecycle
      = some .promoted := by
  let a : Append := { streamId := "s", branch := "b", eventType := "a", payload := .null }
  have hfrozen := closed_branch_frozen plainDeps openBranchFile _ _ .promote "s" "b" none 1 _ _
    [.write [] (.append a) fun _ => 0] rfl rfl rfl rfl
  refine ⟨_, ?_, congrArg (Option.map BranchRow.lifecycle) hfrozen.1⟩
  decide

/-- An append to a promoted branch returns its id and adds its event. -/
theorem append_after_promotion : ¬ ∀ (f f₁ f₂ : StoreFile) (closing : Closing) (now : Int64)
    (row : BranchRow) (outcomes : List (AppendOutcome × Append)) (pre post : List FileOp)
    (a : Append) (clock : ℕ → Int64),
    run (fileStep plainDeps) ⟨exec plainDeps (Db.bootstrap 0) (.declareStream "s" "t" none 0), []⟩ pre
      = some f →
    findBranch f.branches a.streamId a.branch = some row → row.lifecycle = .ephemeral →
    (FileOp.closeBranch closing a.streamId a.branch none now).exec plainDeps f = .ok (outcomes, f₁) →
    run (fileStep plainDeps) f₁ post = some f₂ →
      ∃ e, (FileOp.write [] (.append a) clock).exec plainDeps f₂ = .error e := by
  intro h
  let a : Append := { streamId := "s", branch := "b", eventType := "a", payload := .null }
  obtain ⟨e, he⟩ := h openBranchFile _ _ .promote 1 _ _
    [.createBranch { streamId := "s", branchId := "b", parentId := "main", parentVersion := 0 } 0]
    [] a (fun _ => 0) rfl rfl rfl rfl rfl
  have hfails : true = false := congrArg Except.isOk he
  exact absurd hfails (by decide)

end Fossic
