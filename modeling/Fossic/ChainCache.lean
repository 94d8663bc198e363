/-
The cache of resolved chains.

`resolve_chain` looks a branch up in a map of the store; when it is not there, the
loop along the parents reads the `branches` table, one SELECT for each pointer, and
the chain is put into the map at the end.  `create_branch` drops the chains of its
stream, but a resolution that is under way puts its chain back afterwards, and a
branch created by another process drops nothing.

* `Resolves.mono` — a chain that resolution has returned stays the answer while
  rows are added and branches are closed;
* `current_step` — so what is cached, under way or returned is right in every state;
* `chain_cache_never_stale` — and every chain that was returned is the one the table
  gives, at once and at any later time.
-/
import Fossic.Branches
import Fossic.KeyedList
import Fossic.Transition
import Mathlib.Logic.Function.Basic

namespace Fossic

open KeyedList Transition Function

/-! ### The machine -/

/-- A call of `resolve_chain` after its look-up. -/
inductive Resolving
  /-- In the loop of `resolve_branch_chain`. -/
  | walking (streamId branchId current : String) (forkVersion : Option UInt64)
      (chainRev : List BranchSegment)
  /-- Before `cache.insert`. -/
  | resolved (streamId branchId : String) (chain : List BranchSegment)

/-- What `resolve_branch_chain` does before its loop. -/
def Resolving.start (streamId branchId : String) : Resolving :=
  if branchId = "main" then .resolved streamId branchId [⟨"main", none⟩]
  else .walking streamId branchId branchId none []

/-- The `branches` table and the store on it.  `calls t` is the `resolve_chain` call
of thread `t`, `creating` the stream of the `create_branch` call that holds the
connection and has yet to drop the cached chains. -/
structure ChainStore where
  branches : List BranchRow
  cache : List ((String × String) × List BranchSegment)
  creating : Option String
  calls : ℕ → Option Resolving
  /-- The values returned with `Ok`. -/
  returned : List ((String × String) × List BranchSegment)

/-- A store that was just opened. -/
def ChainStore.init (branches : List BranchRow) : ChainStore := ⟨branches, [], none, fun _ => none, []⟩

inductive ChainAction
  | lookUp (t : ℕ) (streamId branchId : String)
  /-- One turn of the loop. -/
  | select (t : ℕ)
  | insert (t : ℕ)
  /-- The database fails under the call. -/
  | fail (t : ℕ)
  | create (b : CreateBranch) (now : Int64)
  | invalidate
  | createElsewhere (b : CreateBranch) (now : Int64)
  /-- The UPDATE of `promote_branch` or `mark_branch_dead_end`, in any process. -/
  | close (closing : Closing) (streamId branchId : String) (reason : Option String) (now : Int64)

/-- One turn of the loop of `resolve_branch_chain`; `none` is its error. -/
def turn (branches : List BranchRow) (streamId branchId current : String)
    (forkVersion : Option UInt64) (chainRev : List BranchSegment) : Option Resolving :=
  if current = "main" then
    let segments : List BranchSegment := chainRev ++ [⟨"main", forkVersion⟩]
    some (.resolved streamId branchId segments.reverse)
  else (findBranch branches streamId current).map fun row =>
    .walking streamId branchId row.parentId (some (i64AsU64 row.parentVersion))
      (chainRev ++ [⟨current, forkVersion⟩])

/-- `cache.retain(|(stream, _), _| stream != &b.stream_id)`. -/
def dropStream (cache : List ((String × String) × List BranchSegment)) (streamId : String) :
    List ((String × String) × List BranchSegment) :=
  cache.filter fun entry => entry.1.1 ≠ streamId

def chainStep (isAlphanumeric : Char → Bool) (s : ChainStore) : ChainAction → Option ChainStore
  | .lookUp t streamId branchId =>
    match s.calls t, find s.cache (streamId, branchId) with
    | some _, _ => none
    | none, some chain => some { s with returned := s.returned ++ [((streamId, branchId), chain)] }
    | none, none =>
      some { s with calls := update s.calls t (some (.start streamId branchId)) }
  | .select t =>
    match s.calls t with
    | some (.walking streamId branchId current forkVersion chainRev) =>
      let call := turn s.branches streamId branchId current forkVersion chainRev
      some { s with calls := update s.calls t call }
    | _ => none
  | .insert t =>
    match s.calls t with
    | some (.resolved streamId branchId chain) => some { s with
        cache := upsert s.cache (streamId, branchId) chain
        calls := update s.calls t none
        returned := s.returned ++ [((streamId, branchId), chain)] }
    | _ => none
  | .fail t => some { s with calls := update s.calls t none }
  | .create b now =>
    match s.creating, createBranchImpl isAlphanumeric s.branches b now with
    | some _, _ => none
    | none, .error _ => some s
    | none, .ok branches => some { s with branches := branches, creating := some b.streamId }
  | .invalidate => s.creating.map fun streamId =>
    { s with cache := dropStream s.cache streamId, creating := none }
  | .createElsewhere b now =>
    let created := (createBranchImpl isAlphanumeric s.branches b now).toOption
    some { s with branches := created.getD s.branches }
  | .close closing streamId branchId reason now =>
    let closed := updateLifecycle s.branches streamId branchId closing.lifecycle now reason
    some { s with branches := closed }

/-! ### Chains last -/

/-- Every row is still there, with the same parent. -/
def KeepsParents (branches branches' : List BranchRow) : Prop :=
  ∀ streamId id row, findBranch branches streamId id = some row →
    ∃ row', findBranch branches' streamId id = some row' ∧ row'.parentId = row.parentId ∧
      row'.parentVersion = row.parentVersion

def Resolves (branches : List BranchRow) (key : String × String) (chain : List BranchSegment) :
    Prop :=
  ∃ fuel, resolveBranchChain branches key.1 key.2 fuel = some (.ok chain)

variable {branches branches' : List BranchRow} {streamId branchId current : String}
  {key : String × String} {forkVersion : Option UInt64} {chain chainRev result : List BranchSegment}
  {isAlphanumeric : Char → Bool} {s s' : ChainStore} {fuel : ℕ}

theorem keepsParents_refl (branches : List BranchRow) : KeepsParents branches branches :=
  fun _ _ row hrow => ⟨row, hrow, rfl, rfl⟩

theorem keepsParents_append (branches : List BranchRow) (new : BranchRow) :
    KeepsParents branches (branches ++ [new]) :=
  fun _ _ row hrow => ⟨row, findBranch_append_of_some hrow new, rfl, rfl⟩

theorem keepsParents_create {b : CreateBranch} {now : Int64}
    (h : createBranchImpl isAlphanumeric branches b now = .ok branches') :
    KeepsParents branches branches' := by
  obtain ⟨-, -, rfl⟩ := createBranchImpl_eq_ok h
  exact keepsParents_append branches _

/-- Closing a branch leaves the parents alone. -/
theorem keepsParents_update {lifecycle : Lifecycle} {now : Int64} {reason : Option String} :
    KeepsParents branches (updateLifecycle branches streamId branchId lifecycle now reason) := by
  intro s id row hrow
  refine ⟨_, by rw [findBranch_update, hrow]; rfl, ?_⟩
  split
  · exact ⟨rfl, rfl⟩
  · exact ⟨rfl, rfl⟩

theorem resolveLoop_mono (h : KeepsParents branches branches')
    (hloop : resolveLoop branches streamId fuel current forkVersion chainRev = some (.ok result)) :
    resolveLoop branches' streamId fuel current forkVersion chainRev = some (.ok result) := by
  induction fuel generalizing current forkVersion chainRev with
  | zero => exact absurd hloop (by simp [resolveLoop])
  | succ fuel ih =>
    rw [resolveLoop] at hloop ⊢
    by_cases hmain : current = "main"
    · rw [if_pos hmain] at hloop ⊢
      exact hloop
    · rw [if_neg hmain] at hloop ⊢
      rcases hrow : findBranch branches streamId current with _ | row
      · rw [hrow] at hloop
        exact absurd hloop (by simp)
      · obtain ⟨row', hrow', hparent, hversion⟩ := h streamId current row hrow
        rw [hrow] at hloop
        rw [hrow']
        show resolveLoop branches' streamId fuel row'.parentId (some (i64AsU64 row'.parentVersion))
          _ = _
        rw [hparent, hversion]
        exact ih hloop

theorem Resolves.mono (h : KeepsParents branches branches') (hres : Resolves branches key chain) :
    Resolves branches' key chain := by
  obtain ⟨fuel, hfuel⟩ := hres
  refine ⟨fuel, ?_⟩
  rw [resolveBranchChain] at hfuel ⊢
  by_cases hmain : key.2 = "main"
  · rw [if_pos hmain] at hfuel ⊢
    exact hfuel
  · rw [if_neg hmain] at hfuel ⊢
    obtain ⟨r, hr, hreverse⟩ := Option.map_eq_some_iff.mp hfuel
    cases r with
    | error e => exact absurd hreverse (by simp [Except.map])
    | ok result =>
      rw [resolveLoop_mono h hr, Option.map_some, hreverse]

/-- The fuel decides whether there is a result, not which one. -/
theorem resolveLoop_unique {fuel' : ℕ} {r r' : Except Error (List BranchSegment)}
    (h : resolveLoop branches streamId fuel current forkVersion chainRev = some r)
    (h' : resolveLoop branches streamId fuel' current forkVersion chainRev = some r') : r = r' := by
  induction fuel generalizing current forkVersion chainRev fuel' with
  | zero => exact absurd h (by simp [resolveLoop])
  | succ fuel ih =>
    cases fuel' with
    | zero => exact absurd h' (by simp [resolveLoop])
    | succ fuel' =>
      rw [resolveLoop] at h h'
      by_cases hmain : current = "main"
      · rw [if_pos hmain] at h h'
        exact Option.some_inj.mp (h.symm.trans h')
      · rw [if_neg hmain] at h h'
        rcases hrow : findBranch branches streamId current with _ | row
        · rw [hrow] at h h'
          exact Option.some_inj.mp (h.symm.trans h')
        · rw [hrow] at h h'
          exact ih h h'

theorem Resolves.unique {r : Except Error (List BranchSegment)} (hres : Resolves branches key chain)
    (h : resolveBranchChain branches key.1 key.2 fuel = some r) : r = .ok chain := by
  obtain ⟨fuel', hfuel'⟩ := hres
  rw [resolveBranchChain] at h hfuel'
  by_cases hmain : key.2 = "main"
  · rw [if_pos hmain] at h hfuel'
    exact Option.some_inj.mp (h.symm.trans hfuel')
  · rw [if_neg hmain] at h hfuel'
    obtain ⟨result, hloop, rfl⟩ := Option.map_eq_some_iff.mp h
    obtain ⟨result', hloop', hreverse⟩ := Option.map_eq_some_iff.mp hfuel'
    rw [resolveLoop_unique hloop hloop', hreverse]

/-! ### The loop under way -/

/-- The loop has come from `branchId` to `current`. -/
inductive Walked (branches : List BranchRow) (streamId branchId : String) :
    String → Option UInt64 → List BranchSegment → Prop
  | start : Walked branches streamId branchId branchId none []
  | parent {current : String} {forkVersion : Option UInt64} {chainRev : List BranchSegment}
      {row : BranchRow} : Walked branches streamId branchId current forkVersion chainRev →
      current ≠ "main" → findBranch branches streamId current = some row →
      Walked branches streamId branchId row.parentId (some (i64AsU64 row.parentVersion))
        (chainRev ++ [⟨current, forkVersion⟩])

theorem Walked.mono (h : KeepsParents branches branches')
    (hw : Walked branches streamId branchId current forkVersion chainRev) :
    Walked branches' streamId branchId current forkVersion chainRev := by
  induction hw with
  | start => exact .start
  | parent _ hmain hrow ih =>
    obtain ⟨row', hrow', hparent, hversion⟩ := h _ _ _ hrow
    rw [← hparent, ← hversion]
    exact .parent ih hmain hrow'

/-- The loop from the start gets to where the call is. -/
theorem Walked.loop (hw : Walked branches streamId branchId current forkVersion chainRev) :
    ∃ n, ∀ fuel, resolveLoop branches streamId (fuel + n) branchId none [] =
      resolveLoop branches streamId fuel current forkVersion chainRev := by
  induction hw with
  | start => exact ⟨0, fun _ => rfl⟩
  | parent _ hmain hrow ih =>
    obtain ⟨n, hn⟩ := ih
    refine ⟨n + 1, fun fuel => ?_⟩
    rw [show fuel + (n + 1) = fuel + 1 + n by omega, hn, resolveLoop, if_neg hmain, hrow]

def Resolving.Sound (branches : List BranchRow) : Resolving → Prop
  | .walking streamId branchId current forkVersion chainRev =>
    branchId ≠ "main" ∧ Walked branches streamId branchId current forkVersion chainRev
  | .resolved streamId branchId chain => Resolves branches (streamId, branchId) chain

theorem Resolving.Sound.mono {call : Resolving} (h : KeepsParents branches branches')
    (hc : call.Sound branches) : call.Sound branches' := by
  cases call with
  | walking => exact ⟨hc.1, hc.2.mono h⟩
  | resolved => exact Resolves.mono h hc

theorem sound_start : (Resolving.start streamId branchId).Sound branches := by
  rw [Resolving.start]
  split
  · rename_i hmain
    exact ⟨0, if_pos hmain⟩
  · rename_i hmain
    exact ⟨hmain, .start⟩

theorem sound_turn {call : Resolving} (hmain : branchId ≠ "main")
    (hw : Walked branches streamId branchId current forkVersion chainRev)
    (h : turn branches streamId branchId current forkVersion chainRev = some call) :
    call.Sound branches := by
  rw [turn] at h
  split at h
  · rename_i hcurrent
    obtain rfl := Option.some_inj.mp h
    obtain ⟨n, hn⟩ := hw.loop
    refine ⟨1 + n, (if_neg hmain).trans ?_⟩
    rw [hn, resolveLoop, if_pos hcurrent]
    rfl
  · rename_i hcurrent
    obtain ⟨row, hrow, rfl⟩ := Option.map_eq_some_iff.mp h
    exact ⟨hmain, hw.parent hcurrent hrow⟩

/-! ### The invariant -/

/-- Every chain the store holds or has returned is the one that `branches` gives. -/
structure Current (branches : List BranchRow) (s : ChainStore) : Prop where
  cached : ∀ key chain, find s.cache key = some chain → Resolves branches key chain
  calls : ∀ t call, s.calls t = some call → call.Sound branches
  returned : ∀ key chain, (key, chain) ∈ s.returned → Resolves branches key chain

theorem current_init : Current branches (.init branches) where
  cached key chain h := absurd h (by simp [ChainStore.init, find])
  calls t call h := absurd h (by simp [ChainStore.init])
  returned key chain h := absurd h List.not_mem_nil

theorem Current.mono (h : KeepsParents branches branches') (hs : Current branches s) :
    Current branches' s where
  cached key chain hkey := (hs.cached key chain hkey).mono h
  calls t call hcall := (hs.calls t call hcall).mono h
  returned key chain hkey := (hs.returned key chain hkey).mono h

/-- One call moves on. -/
theorem Current.update_calls {t : ℕ} {call : Option Resolving} (hs : Current branches s)
    (hcall : ∀ c, call = some c → c.Sound branches) :
    Current branches { s with calls := update s.calls t call } where
  cached := hs.cached
  calls u c hc := by
    by_cases hut : u = t
    · subst hut
      exact hcall c ((update_self u call s.calls).symm.trans hc)
    · exact hs.calls u c ((update_of_ne hut call s.calls).symm.trans hc)
  returned := hs.returned

/-- A chain is returned. -/
theorem Current.return (hs : Current branches s) (hres : Resolves branches key chain) :
    Current branches { s with returned := s.returned ++ [(key, chain)] } where
  cached := hs.cached
  calls := hs.calls
  returned k c hc := by
    rcases List.mem_append.mp hc with hc | hc
    · exact hs.returned k c hc
    · obtain ⟨rfl, rfl⟩ := Prod.mk.inj (List.mem_singleton.mp hc)
      exact hres

/-- A chain enters the cache, over the one that may be there. -/
theorem Current.upsert_cache (hs : Current branches s) (hres : Resolves branches key chain) :
    Current branches { s with cache := upsert s.cache key chain } where
  cached k c hc := by
    rw [find_upsert] at hc
    split at hc
    · rename_i hk
      rw [← hk, ← Option.some_inj.mp hc]
      exact hres
    · exact hs.cached k c hc
  calls := hs.calls
  returned := hs.returned

theorem find_of_dropStream {cache : List ((String × String) × List BranchSegment)}
    (h : find (dropStream cache streamId) key = some chain) : find cache key = some chain := by
  rw [dropStream, find_filter (p := fun key : String × String => key.1 ≠ streamId)] at h
  split at h
  · exact h
  · exact absurd h (by simp)

/-- Chains leave the cache. -/
theorem Current.drop_stream (hs : Current branches s) :
    Current branches { s with cache := dropStream s.cache streamId, creating := none } where
  cached k c hc := hs.cached k c (find_of_dropStream hc)
  calls := hs.calls
  returned := hs.returned

/-! ### Steps and runs -/

/-- The call of thread `t` becomes `call`: it starts, it takes a turn of the loop, or
it fails. -/
def Moves (s : ChainStore) (t : ℕ) (call : Option Resolving) : Prop :=
  (∃ streamId branchId, call = some (.start streamId branchId)) ∨
  (∃ streamId branchId current forkVersion chainRev,
    s.calls t = some (.walking streamId branchId current forkVersion chainRev) ∧
    call = turn s.branches streamId branchId current forkVersion chainRev) ∨
  call = none

/-- What a step can do: write the table, return a cached chain, move a call on, end a
call, or drop the chains of a stream. -/
theorem chainStep_cases {a : ChainAction} (h : chainStep isAlphanumeric s a = some s') :
    (∃ branches creating, KeepsParents s.branches branches ∧
      s' = { s with branches := branches, creating := creating }) ∨
    (∃ key chain, find s.cache key = some chain ∧
      s' = { s with returned := s.returned ++ [(key, chain)] }) ∨
    (∃ t call, Moves s t call ∧ s' = { s with calls := update s.calls t call }) ∨
    (∃ t streamId branchId chain, s.calls t = some (.resolved streamId branchId chain) ∧
      s' = { s with
        cache := upsert s.cache (streamId, branchId) chain
        calls := update s.calls t none
        returned := s.returned ++ [((streamId, branchId), chain)] }) ∨
    (∃ streamId, s' = { s with cache := dropStream s.cache streamId, creating := none }) := by
  cases a with
  | lookUp t streamId branchId =>
    rw [chainStep] at h
    split at h
    · exact absurd h (by simp)
    · rename_i hhit
      exact .inr (.inl ⟨_, _, hhit, (Option.some_inj.mp h).symm⟩)
    · exact .inr (.inr (.inl ⟨t, _, .inl ⟨_, _, rfl⟩, (Option.some_inj.mp h).symm⟩))
  | select t =>
    rw [chainStep] at h
    split at h
    · rename_i hcall
      exact .inr (.inr (.inl ⟨t, _, .inr (.inl ⟨_, _, _, _, _, hcall, rfl⟩),
        (Option.some_inj.mp h).symm⟩))
    · exact absurd h (by simp)
  | insert t =>
    rw [chainStep] at h
    split at h
    · rename_i hcall
      exact .inr (.inr (.inr (.inl ⟨t, _, _, _, hcall, (Option.some_inj.mp h).symm⟩)))
    · exact absurd h (by simp)
  | fail t =>
    exact .inr (.inr (.inl ⟨t, none, .inr (.inr rfl), (Option.some_inj.mp h).symm⟩))
  | create b now =>
    rw [chainStep] at h
    split at h
    · exact absurd h (by simp)
    · exact .inl ⟨_, _, keepsParents_refl _, (Option.some_inj.mp h).symm⟩
    · rename_i hcreate
      exact .inl ⟨_, _, keepsParents_create hcreate, (Option.some_inj.mp h).symm⟩
  | invalidate =>
    obtain ⟨streamId, -, rfl⟩ := Option.map_eq_some_iff.mp h
    exact .inr (.inr (.inr (.inr ⟨streamId, rfl⟩)))
  | createElsewhere b now =>
    refine .inl ⟨_, _, ?_, (Option.some_inj.mp h).symm⟩
    rcases hcreate : createBranchImpl isAlphanumeric s.branches b now with e | created
    · exact keepsParents_refl _
    · exact keepsParents_create hcreate
  | close closing streamId branchId reason now =>
    exact .inl ⟨_, _, keepsParents_update, (Option.some_inj.mp h).symm⟩

theorem Moves.sound {t : ℕ} {call : Option Resolving} (hs : Current s.branches s)
    (hm : Moves s t call) (c : Resolving) (hc : call = some c) : c.Sound s.branches := by
  rcases hm with ⟨streamId, branchId, rfl⟩ | ⟨_, _, _, _, _, hcall, rfl⟩ | rfl
  · exact Option.some_inj.mp hc ▸ sound_start
  · obtain ⟨hmain, hw⟩ := hs.calls t _ hcall
    exact sound_turn hmain hw hc
  · exact absurd hc (by simp)

theorem current_step {a : ChainAction} (hs : Current s.branches s)
    (h : chainStep isAlphanumeric s a = some s') : Current s'.branches s' := by
  rcases chainStep_cases h with ⟨branches, _, hext, rfl⟩ | ⟨key, chain, hhit, rfl⟩ |
    ⟨t, call, hm, rfl⟩ | ⟨t, streamId, branchId, chain, hcall, rfl⟩ | ⟨streamId, rfl⟩
  · obtain ⟨hcached, hcalls, hreturned⟩ := hs.mono hext
    exact ⟨hcached, hcalls, hreturned⟩
  · exact hs.return (hs.cached key chain hhit)
  · exact hs.update_calls (hm.sound hs)
  · have hres : Resolves s.branches (streamId, branchId) chain := hs.calls t _ hcall
    have hended : Current s.branches { s with calls := update s.calls t none } :=
      hs.update_calls fun c hc => absurd hc (by simp)
    exact (hended.upsert_cache hres).return hres
  · exact hs.drop_stream

theorem returned_step {a : ChainAction} (h : chainStep isAlphanumeric s a = some s') :
    s.returned ⊆ s'.returned := by
  rcases chainStep_cases h with ⟨_, _, _, rfl⟩ | ⟨_, _, _, rfl⟩ | ⟨_, _, _, rfl⟩ |
    ⟨_, _, _, _, _, rfl⟩ | ⟨_, rfl⟩
  · exact List.Subset.refl _
  · exact List.subset_append_left _ _
  · exact List.Subset.refl _
  · exact List.subset_append_left _ _
  · exact List.Subset.refl _

/-- **The cache is never stale**: a chain that `resolve_chain` has returned, in any
interleaving of the store's threads with each other and with other processes, is
what `resolve_branch_chain` gets from the table then and at every later moment,
whenever it ends. -/
theorem chain_cache_never_stale {branches₀ : List BranchRow} {as bs : List ChainAction}
    (hrun : run (chainStep isAlphanumeric) (.init branches₀) as = some s)
    (hlater : run (chainStep isAlphanumeric) s bs = some s') {streamId branchId : String}
    (hreturned : ((streamId, branchId), chain) ∈ s.returned) :
    (∃ fuel, resolveBranchChain s'.branches streamId branchId fuel = some (.ok chain)) ∧
      ∀ fuel r, resolveBranchChain s'.branches streamId branchId fuel = some r → r = .ok chain := by
  have hall : run (chainStep isAlphanumeric) (.init branches₀) (as ++ bs) = some s' :=
    run_append.mpr ⟨s, hrun, hlater⟩
  have hcurrent : Current s'.branches s' :=
    run_invariant_all (I := fun s => Current s.branches s)
      (fun _ _ _ hs h => current_step hs h) current_init hall
  have hkept : s.returned ⊆ s'.returned :=
    run_invariant_all (I := fun t => s.returned ⊆ t.returned)
      (fun _ _ _ ht h => List.Subset.trans ht (returned_step h)) (List.Subset.refl _) hlater
  have hres : Resolves s'.branches (streamId, branchId) chain :=
    hcurrent.returned _ _ (hkept hreturned)
  exact ⟨hres, fun fuel r hr => hres.unique hr⟩

/-- Thread 0 resolves `a` while `b` is created by this store and `c` by another process. -/
def lateInsert : List ChainAction :=
  [.create ⟨"s", "a", "main", 4, none, none⟩ 0, .invalidate, .lookUp 0 "s" "a", .select 0,
    .select 0, .create ⟨"s", "b", "a", 7, none, none⟩ 0, .invalidate,
    .createElsewhere ⟨"s", "c", "a", 9, none, none⟩ 0, .insert 0]

/-- Its chain goes into the cache after the invalidation, and thread 1 gets it from
there. -/
theorem chain_cache_late_insert :
    ∃ s s', run (chainStep plainDeps.isAlphanumeric) (.init []) lateInsert = some s ∧
      run (chainStep plainDeps.isAlphanumeric) s [.lookUp 1 "s" "a"] = some s' ∧
      (∃ fuel, resolveBranchChain s'.branches "s" "a" fuel
          = some (.ok [⟨"main", some 4⟩, ⟨"a", none⟩])) ∧
        ∀ fuel r, resolveBranchChain s'.branches "s" "a" fuel = some r →
          r = .ok [⟨"main", some 4⟩, ⟨"a", none⟩] := by
  have hruns : ∃ s s', run (chainStep plainDeps.isAlphanumeric) (.init []) lateInsert = some s ∧
      run (chainStep plainDeps.isAlphanumeric) s [.lookUp 1 "s" "a"] = some s' ∧
      (("s", "a"), [⟨"main", some 4⟩, ⟨"a", none⟩]) ∈ s.returned := ⟨_, _, rfl, rfl, .head _⟩
  obtain ⟨s, s', hrun, hlater, hreturned⟩ := hruns
  exact ⟨s, s', hrun, hlater, chain_cache_never_stale hrun hlater hreturned⟩

end Fossic
