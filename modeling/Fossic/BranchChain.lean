/-
What chain resolution returns, and when it ends.

`resolve_branch_chain` walks along the parent pointers.  `create_branch` stores
them as it is given them, so a branch may be its own parent, or may point to a
branch that is created later and points back; resolution of such a branch does
not end.

* `resolvesRight_iff` — resolution ends, with the ancestry path or with
  `BranchNotFound`, exactly when no loop lies ahead of the branch;
* `self_parent_never_resolves` — `create_branch` accepts a branch that is its own
  parent;
* `resolves_of_known_parents` — when every branch is created under `main` or under
  a branch that exists, every resolution ends.
-/
import Fossic.Branches
import Fossic.PointerWalk
import Fossic.Transition

namespace Fossic

open PointerWalk Relation Transition

/-! ### The ancestry path -/

/-- Where the loop goes next from a branch: to its stored parent, unless it is
`main`. -/
def parentOf (branches : List BranchRow) (streamId branchId : String) : Option String :=
  if branchId = "main" then none else (findBranch branches streamId branchId).map (·.parentId)

/-- `seg` is the parent of `next`, up to the version where `next` forked. -/
def Forks (branches : List BranchRow) (streamId : String) (seg next : BranchSegment) : Prop :=
  ∃ row, findBranch branches streamId next.branchId = some row ∧ row.parentId = seg.branchId ∧
    seg.toVersion = some (i64AsU64 row.parentVersion)

structure AncestryPath (branches : List BranchRow) (streamId branchId : String)
    (chain : List BranchSegment) : Prop where
  root : chain.head?.map (·.branchId) = some "main"
  leaf : chain.getLast? = some ⟨branchId, none⟩
  distinct : (chain.map (·.branchId)).Nodup
  forks : chain.IsChain (Forks branches streamId)

/-- Resolution ends; it gives the ancestry path, or says which branch is missing. -/
def ResolvesRight (branches : List BranchRow) (streamId branchId : String) : Prop :=
  ∃ fuel, (∃ chain, resolveBranchChain branches streamId branchId fuel = some (.ok chain) ∧
      AncestryPath branches streamId branchId chain) ∨
    ∃ missing, resolveBranchChain branches streamId branchId fuel
        = some (.error (.branchNotFound streamId missing)) ∧
      findBranch branches streamId missing = none

variable {branches : List BranchRow} {streamId branchId current : String} {fuel : ℕ}
  {forkVersion : Option UInt64} {chainRev result : List BranchSegment}

/-! ### The loop -/

theorem parentOf_main : parentOf branches streamId "main" = none := if_pos rfl

theorem parentOf_missing (h : findBranch branches streamId current = none) :
    parentOf branches streamId current = none := by
  rw [parentOf, h]
  split <;> rfl

theorem parentOf_found {row : BranchRow} (hmain : current ≠ "main")
    (h : findBranch branches streamId current = some row) :
    parentOf branches streamId current = some row.parentId := by
  rw [parentOf, if_neg hmain, h]
  rfl

/-- The loop ends together with the walk along the parents. -/
theorem resolveLoop_eq_none_iff :
    resolveLoop branches streamId fuel current forkVersion chainRev = none ↔
      walk (parentOf branches streamId) fuel current = none := by
  induction fuel generalizing current forkVersion chainRev with
  | zero => simp [resolveLoop, walk]
  | succ fuel ih =>
    rw [resolveLoop]
    split
    · rename_i hmain
      rw [hmain, walk_of_none parentOf_main]
      simp
    · rename_i hmain
      split
      · rename_i hfind
        rw [walk_of_none (parentOf_missing hfind)]
        simp
      · rename_i row hfind
        rw [walk_of_some (parentOf_found hmain hfind), Option.map_eq_none_iff]
        exact ih

/-- On success its branches are those of the walk. -/
theorem resolveLoop_walk
    (h : resolveLoop branches streamId fuel current forkVersion chainRev = some (.ok result)) :
    ∃ path, walk (parentOf branches streamId) fuel current = some path ∧
      result.map (·.branchId) = chainRev.map (·.branchId) ++ path := by
  induction fuel generalizing current forkVersion chainRev with
  | zero => exact absurd h (by simp [resolveLoop])
  | succ fuel ih =>
    rw [resolveLoop] at h
    split at h
    · rename_i hmain
      obtain rfl := Except.ok.inj (Option.some_inj.mp h)
      rw [hmain]
      exact ⟨["main"], walk_of_none parentOf_main, List.map_append⟩
    · rename_i hmain
      split at h
      · exact absurd h (by simp)
      · rename_i row hfind
        obtain ⟨path, hpath, hids⟩ := ih h
        refine ⟨current :: path, ?_, ?_⟩
        · rw [walk_of_some (parentOf_found hmain hfind), hpath]
          rfl
        · rw [hids, List.map_append, List.append_assoc]
          rfl

/-- The segments so far, with the one the loop is at in front, form the lower end
of the path. -/
theorem resolveLoop_forks
    (h : resolveLoop branches streamId fuel current forkVersion chainRev = some (.ok result))
    (hforks : (BranchSegment.mk current forkVersion :: chainRev.reverse).IsChain
      (Forks branches streamId)) :
    ∃ version rest, result.reverse = ⟨"main", version⟩ :: rest ∧
      BranchSegment.mk current forkVersion :: chainRev.reverse <:+ result.reverse ∧
      result.reverse.IsChain (Forks branches streamId) := by
  induction fuel generalizing current forkVersion chainRev with
  | zero => exact absurd h (by simp [resolveLoop])
  | succ fuel ih =>
    rw [resolveLoop] at h
    split at h
    · rename_i hmain
      obtain rfl := Except.ok.inj (Option.some_inj.mp h)
      obtain rfl := hmain
      rw [List.reverse_append]
      exact ⟨forkVersion, _, rfl, List.suffix_refl _, hforks⟩
    · split at h
      · exact absurd h (by simp)
      · rename_i row hfind
        -- the parent goes in front, with the version that its child forked at
        have hstep : (BranchSegment.mk row.parentId (some (i64AsU64 row.parentVersion)) ::
            (chainRev ++ [BranchSegment.mk current forkVersion]).reverse).IsChain
              (Forks branches streamId) := by
          have hfork : Forks branches streamId ⟨row.parentId, some (i64AsU64 row.parentVersion)⟩
              ⟨current, forkVersion⟩ := ⟨row, hfind, rfl, rfl⟩
          rw [List.reverse_append]
          exact .cons_cons hfork hforks
        obtain ⟨version, rest, hresult, hsuffix, hchain⟩ := ih h hstep
        refine ⟨version, rest, hresult, ?_, hchain⟩
        rw [List.reverse_append] at hsuffix
        exact (List.suffix_cons _ _).trans hsuffix

theorem resolveLoop_error {e : Error}
    (h : resolveLoop branches streamId fuel current forkVersion chainRev = some (.error e)) :
    ∃ missing, e = .branchNotFound streamId missing ∧ findBranch branches streamId missing = none := by
  induction fuel generalizing current forkVersion chainRev with
  | zero => exact absurd h (by simp [resolveLoop])
  | succ fuel ih =>
    rw [resolveLoop] at h
    split at h
    · exact absurd h (by simp)
    · split at h
      · rename_i hfind
        exact ⟨current, (Except.error.inj (Option.some_inj.mp h)).symm, hfind⟩
      · exact ih h

/-! ### Resolution -/

theorem ancestryPath_main : AncestryPath branches streamId "main" [⟨"main", none⟩] where
  root := rfl
  leaf := rfl
  distinct := List.nodup_singleton _
  forks := .singleton _

/-- What the loop returns for a branch is its ancestry path. -/
theorem ancestryPath_of_resolveLoop
    (h : resolveLoop branches streamId fuel branchId none [] = some (.ok result)) :
    AncestryPath branches streamId branchId result.reverse := by
  obtain ⟨path, hpath, hids⟩ := resolveLoop_walk h
  obtain ⟨version, rest, hresult, hsuffix, hchain⟩ := resolveLoop_forks h (.singleton _)
  refine ⟨by rw [hresult]; rfl, ?_, ?_, hchain⟩
  · obtain ⟨front, hfront⟩ := hsuffix
    rw [← hfront]
    exact List.getLast?_concat
  · rw [List.map_reverse, List.nodup_reverse, hids]
    exact walk_nodup hpath

/-- The pointers of a stream are finitely many. -/
theorem parentOf_mem (h : (parentOf branches streamId branchId).isSome) :
    branchId ∈ branches.map (·.id) := by
  rw [parentOf] at h
  split at h
  · exact absurd h (by simp)
  · rw [Option.isSome_map] at h
    obtain ⟨row, hrow⟩ := Option.isSome_iff_exists.mp h
    exact List.mem_map.mpr ⟨row, mem_of_findBranch hrow, (findBranch_is hrow).2⟩

/-- **When resolution ends**: for every branches table, stream and branch,
resolution returns the ancestry path or `BranchNotFound` exactly when the stored
parents do not lead from the branch into a loop. -/
theorem resolvesRight_iff (branches : List BranchRow) (streamId branchId : String) :
    ResolvesRight branches streamId branchId ↔
      ¬ Loops (parentOf branches streamId) branchId := by
  rw [← exists_walk_iff (fun _ => parentOf_mem)]
  by_cases hmain : branchId = "main"
  · -- `main` is resolved without the table
    have hnext : parentOf branches streamId branchId = none := if_pos hmain
    refine ⟨fun _ => ⟨1, [branchId], walk_of_none hnext⟩, fun _ => ⟨0, .inl ⟨_, if_pos hmain, ?_⟩⟩⟩
    rw [hmain]
    exact ancestryPath_main
  · have hresolve : ∀ fuel, resolveBranchChain branches streamId branchId fuel =
        (resolveLoop branches streamId fuel branchId none []).map fun result =>
          result.map List.reverse := fun fuel => if_neg hmain
    constructor
    · rintro ⟨fuel, h⟩
      have hsome : resolveLoop branches streamId fuel branchId none [] ≠ none := by
        intro hnone
        rcases h with ⟨chain, h, -⟩ | ⟨missing, h, -⟩ <;>
          exact absurd h (by rw [hresolve, hnone]; simp)
      obtain ⟨path, hpath⟩ := Option.ne_none_iff_exists'.mp (mt resolveLoop_eq_none_iff.mpr hsome)
      exact ⟨fuel, path, hpath⟩
    · rintro ⟨fuel, path, hpath⟩
      have hsome : resolveLoop branches streamId fuel branchId none [] ≠ none := by
        intro hnone
        exact absurd (resolveLoop_eq_none_iff.mp hnone) (by rw [hpath]; simp)
      obtain ⟨r, hr⟩ := Option.ne_none_iff_exists'.mp hsome
      refine ⟨fuel, ?_⟩
      cases r with
      | ok result =>
        exact .inl ⟨result.reverse, by rw [hresolve, hr]; rfl, ancestryPath_of_resolveLoop hr⟩
      | error e =>
        obtain ⟨missing, rfl, hmissing⟩ := resolveLoop_error hr
        exact .inr ⟨missing, by rw [hresolve, hr]; rfl, hmissing⟩

/-- `create_branch` accepts a branch that is its own parent, and the resolution of
that branch does not end. -/
theorem self_parent_never_resolves : ¬ ∀ (b : CreateBranch) (now : Int64) (branches),
    createBranchImpl plainDeps.isAlphanumeric [] b now = .ok branches →
      ResolvesRight branches b.streamId b.branchId := by
  intro h
  have hright := h { streamId := "s", branchId := "a", parentId := "a", parentVersion := 0 } 0
    [⟨"a", "s", "a", 0, none, 0, .ephemeral, none, none, none⟩] rfl
  have hself : parentOf [⟨"a", "s", "a", 0, none, 0, .ephemeral, none, none, none⟩] "s" "a"
      = some "a" := by decide
  exact (resolvesRight_iff _ _ _).mp hright ⟨"a", .refl, .single hself⟩

/-! ### Runs of `create_branch` -/

/-- A call of `create_branch`; one that fails leaves the table as it was. -/
def createStep (isAlphanumeric : Char → Bool) (branches : List BranchRow)
    (call : CreateBranch × Int64) : Option (List BranchRow) :=
  some ((createBranchImpl isAlphanumeric branches call.1 call.2).toOption.getD branches)

/-- The parent is `main` or a branch of the stream that exists. -/
def KnownParent (branches : List BranchRow) (call : CreateBranch × Int64) : Prop :=
  call.1.parentId = "main" ∨ (findBranch branches call.1.streamId call.1.parentId).isSome

/-- Every stored parent is `main` or stored, and no loop lies ahead of any branch. -/
structure Rooted (branches : List BranchRow) : Prop where
  known : ∀ streamId id row, findBranch branches streamId id = some row →
    row.parentId = "main" ∨ (findBranch branches streamId row.parentId).isSome
  loopless : ∀ streamId id, ¬ Loops (parentOf branches streamId) id

theorem known_append {new : BranchRow} {id : String}
    (h : id = "main" ∨ (findBranch branches streamId id).isSome) :
    id = "main" ∨ (findBranch (branches ++ [new]) streamId id).isSome := by
  refine h.imp_right fun h => ?_
  obtain ⟨row, hrow⟩ := Option.isSome_iff_exists.mp h
  rw [findBranch_append_of_some hrow]
  rfl

/-- The walk from a known branch is the one there was. -/
theorem walk_append {new : BranchRow} {id : String} {path : List String} (h : Rooted branches)
    (hid : id = "main" ∨ (findBranch branches streamId id).isSome)
    (hwalk : walk (parentOf branches streamId) fuel id = some path) :
    walk (parentOf (branches ++ [new]) streamId) fuel id = some path := by
  induction fuel generalizing id path with
  | zero => exact absurd hwalk (by simp [walk])
  | succ fuel ih =>
    by_cases hmain : id = "main"
    · subst hmain
      rw [walk_of_none parentOf_main] at hwalk ⊢
      exact hwalk
    · obtain ⟨row, hrow⟩ := Option.isSome_iff_exists.mp (hid.resolve_left hmain)
      rw [walk_of_some (parentOf_found hmain hrow)] at hwalk
      obtain ⟨rest, hrest, rfl⟩ := Option.map_eq_some_iff.mp hwalk
      rw [walk_of_some (parentOf_found hmain (findBranch_append_of_some hrow new)),
        ih (h.known streamId id row hrow) hrest]
      rfl

/-- A new branch is nobody's parent, so it closes no loop. -/
theorem rooted_append {new : BranchRow} (h : Rooted branches)
    (hparent : new.parentId = "main" ∨ (findBranch branches new.streamId new.parentId).isSome) :
    Rooted (branches ++ [new]) := by
  -- a walk from a branch known before meets only such branches, so it is not prolonged
  have hwalks : ∀ streamId id, id = "main" ∨ (findBranch branches streamId id).isSome →
      ∃ fuel path, walk (parentOf (branches ++ [new]) streamId) fuel id = some path := by
    intro streamId id hid
    obtain ⟨fuel, path, hpath⟩ := (exists_walk_iff fun _ => parentOf_mem).mpr (h.loopless streamId id)
    exact ⟨fuel, path, walk_append h hid hpath⟩
  constructor
  · intro streamId id row hrow
    rw [findBranch_append] at hrow
    rcases Option.or_eq_some_iff.mp hrow with hrow | ⟨-, hrow⟩
    · exact known_append (h.known streamId id row hrow)
    · split at hrow
      · rename_i his
        obtain rfl := Option.some_inj.mp hrow
        exact known_append (his.1 ▸ hparent)
      · exact absurd hrow (by simp)
  · intro streamId id
    rw [← exists_walk_iff fun _ => parentOf_mem]
    by_cases hid : id = "main" ∨ (findBranch branches streamId id).isSome
    · exact hwalks streamId id hid
    · obtain ⟨hmain, hold⟩ := not_or.mp hid
      have hold : findBranch branches streamId id = none := Option.not_isSome_iff_eq_none.mp hold
      by_cases hnew : new.Is streamId id
      · -- the new branch itself: one step to its parent, and on along the old walk
        have hfind : findBranch (branches ++ [new]) streamId id = some new := by
          rw [findBranch_append, hold, if_pos hnew]
          rfl
        obtain ⟨fuel, path, hpath⟩ := hwalks streamId new.parentId (hnew.1 ▸ hparent)
        refine ⟨fuel + 1, id :: path, ?_⟩
        rw [walk_of_some (parentOf_found hmain hfind), hpath]
        rfl
      · have hfind : findBranch (branches ++ [new]) streamId id = none := by
          rw [findBranch_append, hold, if_neg hnew]
          rfl
        exact ⟨1, [id], walk_of_none (parentOf_missing hfind)⟩

/-- **Branches under known parents resolve**: when every call names `main` or an
existing branch as the parent, resolution ends and is right for every stream and
branch, in every state of the run. -/
theorem resolves_of_known_parents {isAlphanumeric : Char → Bool} {branches₀ : List BranchRow}
    {calls : List (CreateBranch × Int64)} (h₀ : Rooted branches₀)
    (halong : Along (createStep isAlphanumeric) KnownParent branches₀ calls)
    (hrun : run (createStep isAlphanumeric) branches₀ calls = some branches)
    (streamId branchId : String) : ResolvesRight branches streamId branchId := by
  have hrooted : Rooted branches := by
    refine run_invariant (fun branches call branches' h hparent hstep => ?_) h₀ halong hrun
    obtain rfl := Option.some_inj.mp hstep
    rcases hcreate : createBranchImpl isAlphanumeric branches call.1 call.2 with e | branches'
    · exact h
    · obtain ⟨-, -, rfl⟩ := createBranchImpl_eq_ok hcreate
      exact rooted_append h hparent
  exact (resolvesRight_iff _ _ _).mpr (hrooted.loopless streamId branchId)

/-- A branch under `main`, and one under that branch. -/
theorem resolves_of_known_parents_nested : ∃ branches,
    run (createStep fun _ => true) []
      [(⟨"s", "a", "main", 0, none, none⟩, 0), (⟨"s", "b", "a", 0, none, none⟩, 0)] =
        some branches ∧ ∀ streamId id, ResolvesRight branches streamId id := by
  let calls : List (CreateBranch × Int64) :=
    [(⟨"s", "a", "main", 0, none, none⟩, 0), (⟨"s", "b", "a", 0, none, none⟩, 0)]
  obtain ⟨one, hone, hknown⟩ : ∃ one,
      createStep (fun _ => true) [] (⟨"s", "a", "main", 0, none, none⟩, 0) = some one ∧
        (findBranch one "s" "a").isSome = true := ⟨_, rfl, rfl⟩
  obtain ⟨two, htwo⟩ : ∃ two,
      createStep (fun _ => true) one (⟨"s", "b", "a", 0, none, none⟩, 0) = some two := ⟨_, rfl⟩
  have halong : Along (createStep fun _ => true) KnownParent [] calls :=
    along_cons (.inl rfl) hone (along_cons (.inr hknown) htwo trivial)
  have hrun : run (createStep fun _ => true) [] calls = some two :=
    run_cons.mpr ⟨one, hone, run_cons.mpr ⟨two, htwo, rfl⟩⟩
  have hempty : Rooted [] := by
    refine ⟨fun _ _ _ hrow => absurd hrow (by simp [findBranch]), fun streamId id => ?_⟩
    have hnone : parentOf [] streamId id = none := by simp [parentOf, findBranch]
    exact not_loops_of_walk (@walk_of_none _ _ id 0 hnone)
  exact ⟨two, hrun, resolves_of_known_parents hempty halong hrun⟩

end Fossic
