/-
Promotions and dead ends issued through several stores on one file.

`promote_branch` and `mark_branch_dead_end` are a SELECT and an UPDATE, each
committed on its own; the mutex around them belongs to one store.  The machine
`raceStep` takes the two statements of any number of stores in any order.

* `Terminal` — the law of the lifecycle: a closed row does not change any more, and
  no two calls that close a branch in opposite ways both succeed;
* `terminal_iff` — a run obeys it exactly when every UPDATE finds the branch still
  open, or just as it would leave it;
* `promoted_then_dead_end` — two stores that both read `ephemeral` both succeed.
-/
import Fossic.Branches
import Fossic.Transition
import Mathlib.Logic.Function.Basic

namespace Fossic

open Transition Function

/-- A call of `promote_branch` or `mark_branch_dead_end`. -/
structure CloseCall where
  closing : Closing
  streamId : String
  branchId : String
  reason : Option String

/-- What the SELECT settles: the call's result, or that it goes on to its UPDATE. -/
def CloseCall.select (call : CloseCall) (branches : List BranchRow) : Option (Except Error Unit) :=
  match selectLifecycle branches call.streamId call.branchId with
  | .ok lifecycle => call.closing.settled call.branchId lifecycle
  | .error e => some (.error e)

def CloseCall.update (call : CloseCall) (branches : List BranchRow) (now : Int64) :
    List BranchRow :=
  updateLifecycle branches call.streamId call.branchId call.closing.lifecycle now call.reason

/-- The file with the calls of the stores that use it: `pending w` is the call of
store `w` between its two statements. -/
structure Race where
  branches : List BranchRow
  pending : ℕ → Option CloseCall
  log : List (CloseCall × Except Error Unit)

def Race.init (branches : List BranchRow) : Race := ⟨branches, fun _ => none, []⟩

inductive RaceAction
  | select (w : ℕ) (call : CloseCall)
  | update (w : ℕ) (now : Int64)

def raceStep (s : Race) : RaceAction → Option Race
  | .select w call =>
    -- the mutex of the store: one call at a time
    match s.pending w, call.select s.branches with
    | none, some result => some { s with log := s.log ++ [(call, result)] }
    | none, none => some { s with pending := update s.pending w (some call) }
    | some _, _ => none
  | .update w now => (s.pending w).map fun call =>
    { branches := call.update s.branches now
      pending := update s.pending w none
      log := s.log ++ [(call, .ok ())] }

/-- A call that runs its two statements without another one in between is the
function of the source. -/
theorem closeBranchImpl_eq_statements (call : CloseCall) (branches : List BranchRow) (now : Int64) :
    closeBranchImpl call.closing branches call.streamId call.branchId call.reason now =
      match call.select branches with
      | some result => result.map fun _ => branches
      | none => .ok (call.update branches now) := by
  rw [closeBranchImpl, CloseCall.select]
  cases selectLifecycle branches call.streamId call.branchId <;> rfl

/-! ### The law of the lifecycle -/

/-- The columns that closing a branch writes. -/
def BranchRow.closure (row : BranchRow) : Lifecycle × Option Int64 × Option String :=
  (row.lifecycle, row.closedAt, row.closedReason)

/-- The closed branches of `s` are closed in the same way in `s'`. -/
def Frozen (s s' : Race) : Prop :=
  ∀ streamId id row, findBranch s.branches streamId id = some row → row.lifecycle ≠ .ephemeral →
    ∃ row', findBranch s'.branches streamId id = some row' ∧ row'.closure = row.closure

structure Terminal (s₀ : Race) (actions : List RaceAction) : Prop where
  frozen : ∀ as bs cs s s', actions = as ++ (bs ++ cs) → run raceStep s₀ as = some s →
    run raceStep s bs = some s' → Frozen s s'
  oneKind : ∀ s, run raceStep s₀ actions = some s → ∀ call call', (call, .ok ()) ∈ s.log →
    (call', .ok ()) ∈ s.log → call.streamId = call'.streamId → call.branchId = call'.branchId →
      call.closing = call'.closing

/-- An UPDATE finds its branch open, as the SELECT did, or as it would leave it. -/
def InTime (s : Race) : RaceAction → Prop
  | .select _ _ => True
  | .update w now => ∀ call row, s.pending w = some call →
      findBranch s.branches call.streamId call.branchId = some row →
        row.lifecycle = .ephemeral ∨ row.closure = (call.closing.lifecycle, some now, call.reason)

/-! ### One statement -/

variable {s s' s₀ : Race} {a : RaceAction} {actions : List RaceAction}

theorem frozen_refl (s : Race) : Frozen s s := fun _ _ row hrow _ => ⟨row, hrow, rfl⟩

theorem Frozen.trans {s'' : Race} (h : Frozen s s') (h' : Frozen s' s'') : Frozen s s'' := by
  intro streamId id row hrow hclosed
  obtain ⟨row', hrow', hsame⟩ := h streamId id row hrow hclosed
  have hlifecycle : row'.lifecycle = row.lifecycle := (Prod.mk.inj hsame).1
  obtain ⟨row'', hrow'', hsame'⟩ := h' streamId id row' hrow' (hlifecycle ▸ hclosed)
  exact ⟨row'', hrow'', hsame'.trans hsame⟩

/-- Only an UPDATE writes, and it writes its own branch. -/
theorem raceStep_cases (h : raceStep s a = some s') :
    (∃ w call result, a = .select w call ∧ call.select s.branches = some result ∧
      s' = { s with log := s.log ++ [(call, result)] }) ∨
    (∃ w call, a = .select w call ∧ call.select s.branches = none ∧
      s' = { s with pending := update s.pending w (some call) }) ∨
    (∃ w now call, a = .update w now ∧ s.pending w = some call ∧
      s' = ⟨call.update s.branches now, update s.pending w none, s.log ++ [(call, .ok ())]⟩) := by
  cases a with
  | select w call =>
    rw [raceStep] at h
    split at h
    · rename_i result _ hselect
      exact .inl ⟨w, call, result, rfl, hselect, (Option.some_inj.mp h).symm⟩
    · rename_i _ hselect
      exact .inr (.inl ⟨w, call, rfl, hselect, (Option.some_inj.mp h).symm⟩)
    · exact absurd h (by simp)
  | update w now =>
    obtain ⟨call, hcall, rfl⟩ := Option.map_eq_some_iff.mp h
    exact .inr (.inr ⟨w, now, call, rfl, hcall, rfl⟩)

/-- The row of a branch after the UPDATE of a call. -/
theorem findBranch_call {call : CloseCall} {branches : List BranchRow} {now : Int64}
    {row : BranchRow} {streamId id : String} (hrow : findBranch branches streamId id = some row) :
    findBranch (call.update branches now) streamId id =
      some (if streamId = call.streamId ∧ id = call.branchId then
        { row with lifecycle := call.closing.lifecycle, closedAt := some now,
                   closedReason := call.reason } else row) := by
  rw [CloseCall.update, findBranch_update, hrow]
  rfl

theorem frozen_step (hintime : InTime s a) (h : raceStep s a = some s') : Frozen s s' := by
  obtain ⟨w, call, result, rfl, -, rfl⟩ | ⟨w, call, rfl, -, rfl⟩ | ⟨w, now, call, rfl, hcall, rfl⟩ :=
    raceStep_cases h
  · exact frozen_refl s
  · exact frozen_refl s
  · intro streamId id row hrow hclosed
    refine ⟨_, findBranch_call hrow, ?_⟩
    split
    · rename_i hkey
      obtain ⟨rfl, rfl⟩ := hkey
      exact ((hintime call row hcall hrow).resolve_left hclosed).symm
    · rfl

/-- A call whose SELECT settles it with success has found its branch closed its own
way. -/
theorem select_eq_ok {call : CloseCall} {branches : List BranchRow}
    (h : call.select branches = some (.ok ())) :
    ∃ row, findBranch branches call.streamId call.branchId = some row ∧
      row.lifecycle = call.closing.lifecycle := by
  rw [CloseCall.select, selectLifecycle] at h
  rcases hrow : findBranch branches call.streamId call.branchId with _ | row
  · rw [hrow] at h
    exact absurd h (by simp)
  · rw [hrow] at h
    refine ⟨row, rfl, ?_⟩
    change call.closing.settled call.branchId row.lifecycle = some (.ok ()) at h
    rw [Closing.settled] at h
    split at h
    · exact absurd h (by simp)
    · split at h
      · assumption
      · exact absurd h (by simp)

/-- One that goes on to its UPDATE has found its branch. -/
theorem select_eq_none {call : CloseCall} {branches : List BranchRow}
    (h : call.select branches = none) :
    ∃ row, findBranch branches call.streamId call.branchId = some row := by
  rw [CloseCall.select, selectLifecycle] at h
  rcases hrow : findBranch branches call.streamId call.branchId with _ | row
  · rw [hrow] at h
    exact absurd h (by simp)
  · exact ⟨row, rfl⟩

/-! ### Runs -/

/-- The branch of every call that succeeded is closed its way, and that of every
pending call is there. -/
structure RaceInv (s : Race) : Prop where
  closed : ∀ call, (call, .ok ()) ∈ s.log →
    ∃ row, findBranch s.branches call.streamId call.branchId = some row ∧
      row.lifecycle = call.closing.lifecycle
  found : ∀ w call, s.pending w = some call →
    ∃ row, findBranch s.branches call.streamId call.branchId = some row

theorem Closing.lifecycle_ne (closing : Closing) : closing.lifecycle ≠ .ephemeral := by
  cases closing <;> decide

theorem raceInv_step (hs : RaceInv s) (hintime : InTime s a) (h : raceStep s a = some s') :
    RaceInv s' := by
  have hfrozen := frozen_step hintime h
  obtain ⟨w, call, result, rfl, hselect, rfl⟩ | ⟨w, call, rfl, hselect, rfl⟩ |
    ⟨w, now, call, rfl, hcall, rfl⟩ := raceStep_cases h
  · -- a SELECT that settles its call, with the branch closed that way already
    refine ⟨fun c hc => ?_, hs.found⟩
    rcases List.mem_append.mp hc with hc | hc
    · exact hs.closed c hc
    · obtain ⟨rfl, rfl⟩ := Prod.mk.inj (List.mem_singleton.mp hc)
      exact select_eq_ok hselect
  · -- a SELECT that finds its branch open
    refine ⟨hs.closed, fun v c hc => ?_⟩
    change update s.pending w (some call) v = some c at hc
    by_cases hv : v = w
    · subst hv
      obtain rfl := Option.some_inj.mp ((update_self v (some call) s.pending).symm.trans hc)
      exact select_eq_none hselect
    · exact hs.found v c (by rwa [update_of_ne hv] at hc)
  · constructor
    · intro c hc
      rcases List.mem_append.mp hc with hc | hc
      · -- a call that succeeded before: its closed row stays as it is
        obtain ⟨row, hrow, hlifecycle⟩ := hs.closed c hc
        obtain ⟨row', hrow', hsame⟩ :=
          hfrozen c.streamId c.branchId row hrow (hlifecycle ▸ c.closing.lifecycle_ne)
        exact ⟨row', hrow', (Prod.mk.inj hsame).1.trans hlifecycle⟩
      · -- the call of this UPDATE
        obtain ⟨rfl, -⟩ := Prod.mk.inj (List.mem_singleton.mp hc)
        obtain ⟨row, hrow⟩ := hs.found w c hcall
        refine ⟨_, findBranch_call hrow, ?_⟩
        rw [if_pos ⟨rfl, rfl⟩]
    · intro v c hc
      change update s.pending w none v = some c at hc
      have hpending : s.pending v = some c := by
        by_cases hv : v = w
        · subst hv
          exact absurd ((update_self v none s.pending).symm.trans hc) (by simp)
        · rwa [update_of_ne hv] at hc
      obtain ⟨row, hrow⟩ := hs.found v c hpending
      exact ⟨_, findBranch_call hrow⟩

theorem frozen_run (halong : Along raceStep InTime s actions)
    (hrun : run raceStep s actions = some s') : Frozen s s' :=
  run_invariant (fun _ _ _ ht hintime hstep => ht.trans (frozen_step hintime hstep))
    (frozen_refl s) halong hrun

theorem raceInv_init (branches : List BranchRow) : RaceInv (Race.init branches) :=
  ⟨by simp [Race.init], by simp [Race.init]⟩

theorem terminal_of_inTime {branches : List BranchRow}
    (halong : Along raceStep InTime (Race.init branches) actions) :
    Terminal (Race.init branches) actions where
  frozen := by
    rintro as bs cs s s' rfl hs hs'
    exact frozen_run (halong.right hs).left hs'
  oneKind := by
    intro s hrun call call' hcall hcall' hstream hbranch
    have hinv : RaceInv s :=
      run_invariant (fun _ _ _ => raceInv_step) (raceInv_init branches) halong hrun
    obtain ⟨row, hrow, hlifecycle⟩ := hinv.closed call hcall
    obtain ⟨row', hrow', hlifecycle'⟩ := hinv.closed call' hcall'
    rw [hstream, hbranch, hrow'] at hrow
    obtain rfl := Option.some_inj.mp hrow
    have hkind := hlifecycle.symm.trans hlifecycle'
    revert hkind
    cases call.closing <;> cases call'.closing <;> decide

/-- **The lifecycle is terminal exactly in the runs whose UPDATEs are in time**, for
any number of stores on the file and any order of their statements. -/
theorem terminal_iff (branches : List BranchRow) (actions : List RaceAction) :
    Terminal (Race.init branches) actions ↔
      Along raceStep InTime (Race.init branches) actions := by
  refine ⟨fun h => along_iff.mpr fun as a cs s hactions hs => ?_, terminal_of_inTime⟩
  cases a with
  | select w call => trivial
  | update w now =>
    intro call row hcall hrow
    by_cases hopen : row.lifecycle = .ephemeral
    · exact .inl hopen
    · have hstep : run raceStep s [.update w now] = some
          ⟨call.update s.branches now, update s.pending w none, s.log ++ [(call, .ok ())]⟩ := by
        rw [run, raceStep, hcall]
        rfl
      obtain ⟨row', hrow', hsame⟩ := h.frozen as [.update w now] cs s _ hactions hs hstep
        call.streamId call.branchId row hrow hopen
      have hupdated := @findBranch_call call _ now _ _ _ hrow
      rw [if_pos ⟨rfl, rfl⟩] at hupdated
      obtain rfl := Option.some_inj.mp (hrow'.symm.trans hupdated)
      exact .inr hsame.symm

/-- Two stores read `ephemeral`; then one promotes the branch and the other marks it
as a dead end.  Both calls return `Ok`. -/
theorem promoted_then_dead_end : ¬ ∀ (branches : List BranchRow) (actions : List RaceAction),
    Terminal (Race.init branches) actions := by
  intro h
  let call (closing : Closing) : CloseCall := ⟨closing, "s", "b", none⟩
  have hkind := (h [⟨"b", "s", "main", 0, none, 0, .ephemeral, none, none, none⟩]
    [.select 0 (call .promote), .select 1 (call .markDeadEnd), .update 0 1, .update 1 2]).oneKind
      _ rfl (call .promote) (call .markDeadEnd) List.mem_cons_self
      (List.mem_cons_of_mem _ List.mem_cons_self) rfl rfl
  exact absurd hkind (by decide)

end Fossic
