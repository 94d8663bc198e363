/-
The branches of a stream: their table, its three writers, the listing, and the
resolution of a branch to the chain of its ancestors.

A branch is open (`ephemeral`) until it is promoted or marked as a dead end; each
of the two is a SELECT of the lifecycle and, when the branch is open, an UPDATE.

* `closeBranchImpl_spec` — what a call that closes a branch does, by the
  lifecycle it finds;
* `findBranch_update`, `findBranch_append` — what the two kinds of write change.

The chain of a branch is resolved by a loop along the parent pointers that
`create_branch` has stored as it was given them, so the loop has a fuel argument;
it returns `none` when the fuel runs out.
-/
import Fossic.Tables
import Mathlib.Data.List.Infix

namespace Fossic

open KeySort

/-! ### The table -/

inductive Lifecycle
  | ephemeral
  | promoted
  | deadEnd
  deriving DecidableEq

structure BranchRow where
  id : String
  streamId : String
  parentId : String
  parentVersion : ℤ
  description : Option String
  createdAt : Int64
  lifecycle : Lifecycle
  closedAt : Option Int64
  closedReason : Option String
  alternatives : Option Json

/-- `WHERE stream_id = ? AND id = ?`. -/
def BranchRow.Is (row : BranchRow) (streamId id : String) : Prop :=
  row.streamId = streamId ∧ row.id = id

instance (row : BranchRow) (streamId id : String) : Decidable (row.Is streamId id) :=
  inferInstanceAs (Decidable (_ ∧ _))

/-- The row that `query_row` gets. -/
def findBranch (branches : List BranchRow) (streamId id : String) : Option BranchRow :=
  branches.find? fun row => row.Is streamId id

/-! ### Creation -/

structure CreateBranch where
  streamId : String
  branchId : String
  /-- `"main"` for root branches. -/
  parentId : String
  /-- The version on the parent branch where this branch diverges. -/
  parentVersion : UInt64
  description : Option String := none
  alternatives : Option Json := none

def Json.isArray : Json → Bool
  | .array _ => true
  | _ => false

def MAX_BRANCH_ID_LEN : ℕ := 128

def validateBranchId (isAlphanumeric : Char → Bool) (id : String) : Except Error Unit :=
  if id = "" then .error (.invalidBranchId id "cannot be empty")
  else if MAX_BRANCH_ID_LEN < (utf8 id).length then
    .error (.invalidBranchId id ("max 128 chars, got " ++ toString (utf8 id).length))
  else
    match id.toList.find? fun c => !isAlphanumeric c && !(['-', '_', '/'].contains c) with
    | some c => .error (.invalidBranchId id ("invalid character '" ++ String.singleton c ++ "'"))
    | none =>
      if id.toList.head? = some '/' ∨ id.toList.getLast? = some '/' ∨ ['/', '/'] <:+: id.toList then
        .error (.invalidBranchId id "no leading/trailing/consecutive slashes")
      else .ok ()

def createBranchImpl (isAlphanumeric : Char → Bool) (branches : List BranchRow) (b : CreateBranch)
    (now : Int64) : Except Error (List BranchRow) :=
  if b.branchId = "main" then .error (.invalidBranchId "main" "'main' is reserved")
  else do
    validateBranchId isAlphanumeric b.branchId
    if b.alternatives.all Json.isArray then
      -- `PRIMARY KEY (stream_id, id)`
      if (findBranch branches b.streamId b.branchId).isSome then
        .error (.sqlite "UNIQUE constraint failed: branches.stream_id, branches.id")
      else
        .ok (branches ++ [⟨b.branchId, b.streamId, b.parentId, u64AsI64 b.parentVersion,
          b.description, now, .ephemeral, none, none, b.alternatives⟩])
    else .error .invalidAlternatives

/-! ### Closing -/

/-- `SELECT lifecycle FROM branches`. -/
def selectLifecycle (branches : List BranchRow) (streamId branchId : String) :
    Except Error Lifecycle :=
  match findBranch branches streamId branchId with
  | some row => .ok row.lifecycle
  | none => .error (.branchNotFound streamId branchId)

/-- `UPDATE branches SET lifecycle = ?, closed_at = ?, closed_reason = ?`. -/
def updateLifecycle (branches : List BranchRow) (streamId branchId : String) (lifecycle : Lifecycle)
    (now : Int64) (reason : Option String) : List BranchRow :=
  branches.map fun row =>
    if row.Is streamId branchId then
      { row with lifecycle := lifecycle, closedAt := some now, closedReason := reason }
    else row

/-- The two ways to close a branch. -/
inductive Closing
  | promote
  | markDeadEnd
  deriving DecidableEq

def Closing.lifecycle : Closing → Lifecycle
  | promote => .promoted
  | markDeadEnd => .deadEnd

/-- The error of a call that finds the branch closed the other way. -/
def Closing.refusal (branchId : String) : Closing → Error
  | promote => .branchLifecycleError
    ("branch '" ++ branchId ++ "' is already marked dead_end and cannot be promoted")
  | markDeadEnd => .branchLifecycleError
    ("branch '" ++ branchId ++ "' is already promoted and cannot be marked dead_end")

/-- What the call returns without an UPDATE, from the lifecycle it has read. -/
def Closing.settled (closing : Closing) (branchId : String) (lifecycle : Lifecycle) :
    Option (Except Error Unit) :=
  if lifecycle = .ephemeral then none
  else if lifecycle = closing.lifecycle then some (.ok ())
  else some (.error (closing.refusal branchId))

/-- The two functions share their text, up to the lifecycles and the message. -/
def closeBranchImpl (closing : Closing) (branches : List BranchRow) (streamId branchId : String)
    (reason : Option String) (now : Int64) : Except Error (List BranchRow) := do
  let lifecycle ← selectLifecycle branches streamId branchId
  match closing.settled branchId lifecycle with
  | some result => result.map fun _ => branches
  | none => .ok (updateLifecycle branches streamId branchId closing.lifecycle now reason)

def promoteBranchImpl := closeBranchImpl .promote

def markBranchDeadEndImpl := closeBranchImpl .markDeadEnd

/-! ### Listing -/

structure BranchInfo where
  id : String
  streamId : String
  parentId : String
  parentVersion : UInt64
  description : Option String
  createdAt : Int64
  lifecycle : Lifecycle
  closedAt : Option Int64
  closedReason : Option String
  alternatives : Option Json

def branchInfo (row : BranchRow) : BranchInfo where
  id := row.id
  streamId := row.streamId
  parentId := row.parentId
  parentVersion := i64AsU64 row.parentVersion
  description := row.description
  createdAt := row.createdAt
  lifecycle := row.lifecycle
  closedAt := row.closedAt
  closedReason := row.closedReason
  alternatives := row.alternatives

/-- `ORDER BY created_at ASC`. -/
def listBranchesImpl (branches : List BranchRow) (streamId : String) : List BranchInfo :=
  (sortBy (fun row => row.createdAt.toInt) (branches.filter fun row => row.streamId = streamId)).map
    branchInfo

/-! ### Chain resolution -/

/-- A stretch of an ancestor chain: the events of the branch up to `toVersion`. -/
structure BranchSegment where
  branchId : String
  toVersion : Option UInt64

/-- The loop, with the branch it is at, the version its child forked at and the
segments so far, from the leaf. -/
def resolveLoop (branches : List BranchRow) (streamId : String) :
    ℕ → String → Option UInt64 → List BranchSegment → Option (Except Error (List BranchSegment))
  | 0, _, _, _ => none
  | fuel + 1, current, forkVersion, chainRev =>
    if current = "main" then some (.ok (chainRev ++ [⟨"main", forkVersion⟩]))
    else
      match findBranch branches streamId current with
      | none => some (.error (.branchNotFound streamId current))
      | some row =>
        resolveLoop branches streamId fuel row.parentId (some (i64AsU64 row.parentVersion))
          (chainRev ++ [⟨current, forkVersion⟩])

def resolveBranchChain (branches : List BranchRow) (streamId branchId : String) (fuel : ℕ) :
    Option (Except Error (List BranchSegment)) :=
  if branchId = "main" then some (.ok [⟨"main", none⟩])
  else (resolveLoop branches streamId fuel branchId none []).map fun result =>
    result.map List.reverse

/-! ### What the writers change -/

variable {branches branches' : List BranchRow} {streamId branchId s id : String} {row : BranchRow}

theorem findBranch_is (h : findBranch branches s id = some row) : row.Is s id := by
  simpa using List.find?_some h

theorem mem_of_findBranch (h : findBranch branches s id = some row) : row ∈ branches :=
  List.mem_of_find?_eq_some h

/-- An UPDATE changes its own branch and no other. -/
theorem findBranch_update {lifecycle : Lifecycle} {now : Int64} {reason : Option String} :
    findBranch (updateLifecycle branches streamId branchId lifecycle now reason) s id =
      (findBranch branches s id).map fun row =>
        if s = streamId ∧ id = branchId then
          { row with lifecycle := lifecycle, closedAt := some now, closedReason := reason }
        else row := by
  have hkey : ∀ row : BranchRow, (if row.Is streamId branchId then
      { row with lifecycle := lifecycle, closedAt := some now, closedReason := reason }
      else row).Is s id ↔ row.Is s id := by
    intro row
    split <;> rfl
  induction branches with
  | nil => rfl
  | cons r branches ih =>
    rw [findBranch, updateLifecycle, List.map_cons, List.find?_cons, findBranch, List.find?_cons,
      decide_eq_decide.mpr (hkey r)]
    by_cases hr : r.Is s id
    · have hsame : r.Is streamId branchId ↔ s = streamId ∧ id = branchId := by
        rw [BranchRow.Is, hr.1, hr.2]
      rw [decide_eq_true hr]
      show some (if r.Is streamId branchId then _ else r) = some (if s = streamId ∧ _ then _ else r)
      rw [if_congr hsame rfl rfl]
    · rw [decide_eq_false hr]
      exact ih

/-- What a call that closes a branch does: nothing when the branch is closed the
same way, an error when it is closed the other way or missing, else its UPDATE. -/
theorem closeBranchImpl_spec {closing : Closing} {reason : Option String} {now : Int64} :
    closeBranchImpl closing branches streamId branchId reason now =
      match findBranch branches streamId branchId with
      | none => .error (.branchNotFound streamId branchId)
      | some row =>
        if row.lifecycle = .ephemeral then
          .ok (updateLifecycle branches streamId branchId closing.lifecycle now reason)
        else if row.lifecycle = closing.lifecycle then .ok branches
        else .error (closing.refusal branchId) := by
  rw [closeBranchImpl, selectLifecycle]
  rcases findBranch branches streamId branchId with _ | row
  · rfl
  · show (match closing.settled branchId row.lifecycle with | some _ => _ | none => _) =
      if row.lifecycle = .ephemeral then _ else _
    -- the six cases of the transition table
    generalize row.lifecycle = lifecycle
    cases closing <;> cases lifecycle <;> rfl

/-- A branch that was created is new and not `main`, and it is open. -/
theorem createBranchImpl_eq_ok {isAlphanumeric : Char → Bool} {b : CreateBranch} {now : Int64}
    (h : createBranchImpl isAlphanumeric branches b now = .ok branches') :
    b.branchId ≠ "main" ∧ findBranch branches b.streamId b.branchId = none ∧
      branches' = branches ++ [⟨b.branchId, b.streamId, b.parentId, u64AsI64 b.parentVersion,
        b.description, now, .ephemeral, none, none, b.alternatives⟩] := by
  rw [createBranchImpl] at h
  split at h
  · exact absurd h (by simp)
  · rename_i hmain
    obtain ⟨-, -, h⟩ := bind_eq_ok.mp h
    split at h
    · split at h
      · exact absurd h (by simp)
      · rename_i hnew
        exact ⟨hmain, Option.not_isSome_iff_eq_none.mp hnew, (Except.ok.inj h).symm⟩
    · exact absurd h (by simp)

theorem findBranch_append : findBranch (branches ++ [row]) s id =
    (findBranch branches s id).or (if row.Is s id then some row else none) := by
  rw [findBranch, List.find?_append]
  refine congrArg _ ?_
  by_cases h : row.Is s id
  · rw [if_pos h]
    exact List.find?_cons_of_pos (decide_eq_true h)
  · rw [if_neg h]
    exact List.find?_cons_of_neg (by simpa using h)

/-- The branches there were are still found. -/
theorem findBranch_append_of_some (h : findBranch branches s id = some row) (new : BranchRow) :
    findBranch (branches ++ [new]) s id = some row := by
  rw [findBranch_append, h]
  rfl

end Fossic
