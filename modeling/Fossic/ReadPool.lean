/-
The pool of read connections.

`Store::open` fills a bounded channel with as many connections as it holds.  `read_conn` takes
one out, waiting for at most a timeout; its `ReadGuard` puts it back when it is dropped, be it
at the end of the read, on an error or while a panic unwinds.  Any number of threads read.

* `poolInv_step` — connections are neither lost nor shared;
* `read_pool` — what that means for readers: whom a connection belongs to, when `PoolExhausted`
  is returned, and that a guard never waits.
-/
import Fossic.KeyedList
import Fossic.Transition
import Mathlib.Data.List.Perm.Subperm
import Mathlib.Data.List.Nodup
import Mathlib.Data.List.Range

namespace Fossic

open Transition KeyedList

/-- `OpenOptions`, as far as `read_conn` looks at it. -/
structure PoolOptions where
  readPoolSize : ℕ
  readPoolTimeoutMs : ℕ

/-- `Error::PoolExhausted`. -/
structure PoolExhausted where
  poolSize : ℕ
  timeoutMs : ℕ
  deriving DecidableEq

/-- `read_pool_size.max(1)`: the number of connections and the capacity of the channel. -/
def PoolOptions.size (options : PoolOptions) : ℕ := max options.readPoolSize 1

/-- The channel; the guards, each with the call that it belongs to and its connection; the calls
that are in `recv_timeout`; and what has been returned to those that gave up. -/
structure ReadPool where
  pool : List ℕ
  guards : List (ℕ × ℕ)
  waiting : List ℕ
  refused : List (ℕ × PoolExhausted)

/-- The loop of `Store::open`. -/
def ReadPool.fill (options : PoolOptions) : ReadPool := ⟨List.range options.size, [], [], []⟩

inductive PoolAction
  | readConn (call : ℕ)
  | receive (call : ℕ)
  | timeout (call : ℕ)
  | dropGuard (call : ℕ)

/-- A call is one of `read_conn`, so it is made once; the channel hands out its first
connection; and a receive times out only on an empty channel.  A send into a full channel
would wait. -/
def poolStep (options : PoolOptions) (s : ReadPool) : PoolAction → Option ReadPool
  | .readConn call =>
    if call ∈ s.waiting ∨ call ∈ s.guards.map Prod.fst then none
    else some { s with waiting := s.waiting ++ [call] }
  | .receive call =>
    if call ∈ s.waiting then
      match s.pool with
      | [] => none
      | conn :: rest => some { s with
          pool := rest
          guards := s.guards ++ [(call, conn)]
          waiting := s.waiting.erase call }
    else none
  | .timeout call =>
    if call ∈ s.waiting ∧ s.pool = [] then some { s with
      waiting := s.waiting.erase call
      refused := s.refused ++ [(call, ⟨options.size, options.readPoolTimeoutMs⟩)] }
    else none
  | .dropGuard call =>
    match find s.guards call with
    | none => none
    | some conn =>
      if s.pool.length < options.size then some { s with
        pool := s.pool ++ [conn]
        guards := KeyedList.erase s.guards call }
      else none

variable {options : PoolOptions} {s s' : ReadPool} {a : PoolAction} {as : List PoolAction}

/-- Each connection is in the channel or in one guard, and each call has at most one guard and
does not wait while it has one. -/
structure PoolInv (options : PoolOptions) (s : ReadPool) : Prop where
  conserved : (s.pool ++ s.guards.map Prod.snd).Perm (List.range options.size)
  owners : (s.guards.map Prod.fst).Nodup
  queued : s.waiting.Nodup
  apart : ∀ call ∈ s.waiting, call ∉ s.guards.map Prod.fst

theorem poolInv_fill : PoolInv options (.fill options) where
  conserved := by
    rw [ReadPool.fill, List.map_nil, List.append_nil]
  owners := List.nodup_nil
  queued := List.nodup_nil
  apart _ h := absurd h List.not_mem_nil

/-- Taking an entry out of an association list. -/
theorem perm_erase {l : List (ℕ × ℕ)} {call conn : ℕ} (hnd : (l.map Prod.fst).Nodup)
    (h : (call, conn) ∈ l) : l.Perm ((call, conn) :: KeyedList.erase l call) := by
  induction l with
  | nil => exact absurd h List.not_mem_nil
  | cons p l ih =>
    obtain ⟨hp, hl⟩ := List.nodup_cons.mp hnd
    rcases List.mem_cons.mp h with rfl | hmem
    · -- no other entry has the key
      have hrest : KeyedList.erase l call = l := by
        refine List.filter_eq_self.mpr fun q hq => decide_eq_true ?_
        intro heq
        exact hp (List.mem_map.mpr ⟨q, hq, heq⟩)
      have hhead : KeyedList.erase ((call, conn) :: l) call = KeyedList.erase l call :=
        List.filter_cons_of_neg (by simp)
      rw [hhead, hrest]
    · have hne : p.1 ≠ call := by
        intro heq
        exact hp (List.mem_map.mpr ⟨_, hmem, heq.symm⟩)
      have hhead : KeyedList.erase (p :: l) call = p :: KeyedList.erase l call :=
        List.filter_cons_of_pos (decide_eq_true hne)
      rw [hhead]
      exact ((ih hl hmem).cons p).trans (List.Perm.swap _ _ _)

/-- **One step** neither loses nor shares a connection. -/
theorem poolInv_step (h : PoolInv options s) (hstep : poolStep options s a = some s') :
    PoolInv options s' := by
  cases a with
  | readConn call =>
    simp only [poolStep] at hstep
    split at hstep
    · exact absurd hstep (by simp)
    · rename_i hnew
      obtain ⟨hwait, hguard⟩ := not_or.mp hnew
      obtain rfl := Option.some_inj.mp hstep
      refine ⟨h.conserved, h.owners, ?_, fun c hc => ?_⟩
      · exact List.nodup_append.mpr ⟨h.queued, List.nodup_singleton call,
          fun c hc c' hc' heq => hwait (List.mem_singleton.mp hc' ▸ heq ▸ hc)⟩
      · rcases List.mem_append.mp hc with hc | hc
        · exact h.apart c hc
        · exact List.mem_singleton.mp hc ▸ hguard
  | receive call =>
    simp only [poolStep] at hstep
    split at hstep
    · rename_i hcall
      split at hstep
      · exact absurd hstep (by simp)
      · rename_i conn rest hpool
        obtain rfl := Option.some_inj.mp hstep
        have hconserved := h.conserved
        rw [hpool] at hconserved
        refine ⟨?_, ?_, h.queued.erase call, fun c hc => ?_⟩
        · show (rest ++ (s.guards ++ [(call, conn)]).map Prod.snd).Perm _
          rw [List.map_append, ← List.append_assoc]
          exact (List.perm_append_comm.trans (by simp)).trans hconserved
        · show ((s.guards ++ [(call, conn)]).map Prod.fst).Nodup
          rw [List.map_append]
          refine List.nodup_append.mpr ⟨h.owners, List.nodup_singleton call, ?_⟩
          rintro c hc c' hc' rfl
          obtain rfl : c = call := List.mem_singleton.mp hc'
          exact h.apart c hcall hc
        · obtain ⟨hne, hc⟩ := (h.queued.mem_erase_iff).mp hc
          show c ∉ (s.guards ++ [(call, conn)]).map Prod.fst
          rw [List.map_append, List.mem_append, not_or]
          exact ⟨h.apart c hc, fun heq => hne (List.mem_singleton.mp heq)⟩
    · exact absurd hstep (by simp)
  | timeout call =>
    simp only [poolStep] at hstep
    split at hstep
    · obtain rfl := Option.some_inj.mp hstep
      exact ⟨h.conserved, h.owners, h.queued.erase call,
        fun c hc => h.apart c (List.mem_of_mem_erase hc)⟩
    · exact absurd hstep (by simp)
  | dropGuard call =>
    simp only [poolStep] at hstep
    split at hstep
    · exact absurd hstep (by simp)
    · rename_i conn hfind
      split at hstep
      · obtain rfl := Option.some_inj.mp hstep
        have hperm := perm_erase h.owners (mem_of_find hfind)
        have hsub : (KeyedList.erase s.guards call).Sublist s.guards := List.filter_sublist
        refine ⟨?_, h.owners.sublist (hsub.map _), h.queued, fun c hc hmem => ?_⟩
        · show (s.pool ++ [conn] ++ (KeyedList.erase s.guards call).map Prod.snd).Perm _
          rw [List.append_assoc]
          exact ((hperm.map Prod.snd).symm.append_left s.pool).trans h.conserved
        · exact h.apart c hc ((hsub.map _).subset hmem)
      · exact absurd hstep (by simp)

theorem poolInv_run (hrun : run (poolStep options) (.fill options) as = some s) :
    PoolInv options s :=
  run_invariant_all (fun _ _ _ h hstep => poolInv_step h hstep) poolInv_fill hrun

/-- The connections that are out and those that are in are all there are. -/
theorem PoolInv.count (h : PoolInv options s) : s.pool.length + s.guards.length = options.size := by
  have hlength := h.conserved.length_eq
  rwa [List.length_append, List.length_map, List.length_range] at hlength

/-- **The read pool**, in any run of any number of calls: no two guards have the same
connection; a call is told `PoolExhausted` only while all connections are out, as many as the
error says; a guard that is dropped puts its connection back without waiting; and once all
guards are dropped, all connections are there, at least one. -/
theorem read_pool (hrun : run (poolStep options) (.fill options) as = some s) :
    (s.guards.map Prod.snd).Nodup ∧
    (∀ call s', poolStep options s (.timeout call) = some s' →
      s.guards.length = options.size ∧ call ∉ s.guards.map Prod.fst ∧
        s'.refused = s.refused ++ [(call, ⟨s.guards.length, options.readPoolTimeoutMs⟩)]) ∧
    (∀ call conn, (call, conn) ∈ s.guards → ∃ s', poolStep options s (.dropGuard call) = some s' ∧
      conn ∈ s'.pool) ∧
    (s.guards = [] → s.pool.Perm (List.range options.size) ∧ s.pool ≠ []) := by
  have hinv := poolInv_run hrun
  have hcount := hinv.count
  refine ⟨?_, fun call s' hstep => ?_, fun call conn hmem => ?_, fun hnone => ?_⟩
  · have hnodup := hinv.conserved.nodup_iff.mpr List.nodup_range
    exact hnodup.of_append_right
  · simp only [poolStep] at hstep
    split at hstep
    · rename_i hcall
      obtain rfl := Option.some_inj.mp hstep
      rw [hcall.2, List.length_nil, Nat.zero_add] at hcount
      exact ⟨hcount, hinv.apart call hcall.1, by rw [hcount]⟩
    · exact absurd hstep (by simp)
  · have hfind := find_of_mem hinv.owners hmem
    have hpos : 0 < s.guards.length := List.length_pos_of_mem hmem
    refine ⟨{ s with
      pool := s.pool ++ [conn]
      guards := KeyedList.erase s.guards call }, ?_, List.mem_append_right _ List.mem_cons_self⟩
    simp only [poolStep, hfind]
    rw [if_pos (by omega)]
  · have hpool := hinv.conserved
    rw [hnone, List.map_nil, List.append_nil] at hpool
    refine ⟨hpool, fun hempty => ?_⟩
    rw [hempty, hnone] at hcount
    have hsize : 0 < options.size := lt_of_lt_of_le Nat.one_pos (le_max_right _ _)
    simp at hcount
    omega

/-- One connection, and a second call that is refused. -/
theorem read_pool_two : ∃ s, s.guards.length = 1 ∧
    ∃ s', poolStep ⟨0, 5000⟩ s (.timeout 1) = some s' ∧ s'.refused = [(1, ⟨1, 5000⟩)] := by
  have hrefused := (@read_pool ⟨0, 5000⟩ _ [.readConn 0, .readConn 1, .receive 0] rfl).2.1 1 _ rfl
  exact ⟨_, hrefused.1, _, rfl, hrefused.2.2⟩

end Fossic
