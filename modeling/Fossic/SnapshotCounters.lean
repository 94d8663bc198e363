/-
The counters of the snapshot policies.

`maybe_auto_snapshot` adds the events that a full read has applied to the counter of its stream
and branch, in `u32`, and resets the counter when the policy fires.  `tally` counts the same
events without a bound.

* `counter_read` — what one read does to the counters;
* `noOverflow_iff_from` — the additions of a run stay in `u32` exactly when the tallies do;
* `noOverflow_of_limits` — so they do where each policy fires at a limit, and a limit and the
  events of a read fit in `u32` together;
* `counters_overflow` — a policy that never fires.
-/
import Fossic.Upcasters

namespace Fossic

open KeyedList Transition

/-! ### One read -/

/-- A full read whose fold has succeeded. -/
structure FoldedRead where
  reducer : BoxedReducer
  policy : SnapshotPolicy
  start : Bytes
  events : List StoredEvent
  state : Bytes
  monitors : StateMonitors

def foldedRead (s : StoreInner) (streamId branch : String) (t : ReadClock) : Option FoldedRead :=
  match findArcWithPolicy s.reducers streamId with
  | none => none
  | some (reducer, policy) =>
    match computeStateBytes reducer streamId branch none s.db with
    | .error _ => none
    | .ok (bytes, events) =>
      match readLoop reducer streamId branch t.apply events 0 bytes s.stateMonitors with
      | (.error _, _) => none
      | (.ok state, monitors) => some ⟨reducer, policy, bytes, events, state, monitors⟩

variable {d : Deps} {s : StoreInner} {streamId branch : String} {t : ReadClock}
  {snapshotUs : Int64}

theorem foldedRead_eq_some {f : FoldedRead} (h : foldedRead s streamId branch t = some f) :
    findArcWithPolicy s.reducers streamId = some (f.reducer, f.policy) ∧
      computeStateBytes f.reducer streamId branch none s.db = .ok (f.start, f.events) ∧
      readLoop f.reducer streamId branch t.apply f.events 0 f.start s.stateMonitors
        = (.ok f.state, f.monitors) := by
  rw [foldedRead] at h
  split at h
  · exact absurd h (by simp)
  · rename_i reducer policy hfind
    split at h
    · exact absurd h (by simp)
    · rename_i bytes events hcompute
      split at h
      · exact absurd h (by simp)
      · rename_i state monitors hloop
        obtain rfl := Option.some_inj.mp h
        exact ⟨hfind, hcompute, hloop⟩

/-- A read that fails before it comes to the policy. -/
theorem readUpToSnapshot_of_none (h : foldedRead s streamId branch t = none) :
    ∃ e monitors, readUpToSnapshot d s streamId branch t
      = (.error e, { s with stateMonitors := monitors }) := by
  rcases hfind : findArcWithPolicy s.reducers streamId with _ | ⟨reducer, policy⟩
  · refine ⟨.reducerNotFound streamId, s.stateMonitors, ?_⟩
    rw [readUpToSnapshot, hfind]
  rcases hcompute : computeStateBytes reducer streamId branch none s.db with e | ⟨bytes, events⟩
  · refine ⟨e, s.stateMonitors, ?_⟩
    rw [readUpToSnapshot, hfind]
    dsimp only
    rw [hcompute]
  rcases hloop : readLoop reducer streamId branch t.apply events 0 bytes s.stateMonitors with
    ⟨e | state, monitors⟩
  · refine ⟨e, monitors, ?_⟩
    rw [readUpToSnapshot, hfind]
    dsimp only
    rw [hcompute]
    dsimp only
    rw [hloop]
  · rw [foldedRead, hfind] at h
    dsimp only at h
    rw [hcompute] at h
    dsimp only at h
    rw [hloop] at h
    exact absurd h (by simp)

/-- The store when the policy is asked. -/
def FoldedRead.asked (f : FoldedRead) (d : Deps) (s : StoreInner) (streamId branch : String)
    (t : ReadClock) : StoreInner :=
  maybeEmitStateLarge d { s with stateMonitors := f.monitors } streamId branch t.largeUs t.emitUs

theorem readUpToSnapshot_of_some {f : FoldedRead} (h : foldedRead s streamId branch t = some f) :
    readUpToSnapshot d s streamId branch t =
      (.ok (f.state, (autoSnapshotDue (f.asked d s streamId branch t) streamId branch
          (UInt32.ofNat f.events.length) f.policy t.policyUs).1),
        (autoSnapshotDue (f.asked d s streamId branch t) streamId branch
          (UInt32.ofNat f.events.length) f.policy t.policyUs).2) := by
  obtain ⟨hfind, hcompute, hloop⟩ := foldedRead_eq_some h
  rw [readUpToSnapshot, hfind]
  dsimp only
  rw [hcompute]
  dsimp only
  rw [hloop]
  rfl

/-! ### Counting -/

/-- The mean of the recorded costs. -/
def avgApplyCost (monitors : StateMonitors) (key : String × String) : UInt64 :=
  ((find monitors key).map StateMonitor.avgApplyCostUs).getD 0

/-- The policy has a counter. -/
def SnapshotPolicy.counts : SnapshotPolicy → Bool
  | .everyNEvents _ | .stateAdaptive _ _ => true
  | .manual | .everyNSeconds _ => false

/-- A read that adds to a counter. -/
structure CountedRead where
  key : String × String
  events : ℕ
  policy : SnapshotPolicy
  avgCost : UInt64

def countedRead (s : StoreInner) (streamId branch : String) (t : ReadClock) :
    Option CountedRead :=
  (foldedRead s streamId branch t).bind fun f =>
    if f.policy.counts then
      some ⟨(streamId, branch), f.events.length, f.policy,
        avgApplyCost f.monitors (streamId, branch)⟩
    else none

/-- Whether the policy fires when `total` events were applied since it last did. -/
def CountedRead.fires (r : CountedRead) (total : ℕ) : Bool :=
  match r.policy with
  | .everyNEvents n => n.toNat ≤ total
  | .stateAdaptive targetReplayCostUs minEventsBetween =>
    minEventsBetween.toNat ≤ total && targetReplayCostUs.toNat < total * r.avgCost.toNat
  | .manual | .everyNSeconds _ => false

/-- The events applied since the policy last fired, after the read. -/
def CountedRead.after (r : CountedRead) (total : ℕ) : ℕ :=
  if r.fires (total + r.events) then 0 else total + r.events

/-- The events that the reads of a stream and branch have applied since its policy last
fired. -/
def tally (reads : List CountedRead) (key : String × String) : ℕ :=
  reads.foldl (fun total r => if r.key = key then r.after total else total) 0

def counter (s : StoreInner) (key : String × String) : UInt32 :=
  (find s.snapshotCounters key).getD 0

/-! ### What a read does to the counters -/

/-- The product is compared as if it had no bound. -/
theorem lt_saturatingMul_iff {target a : UInt32} {b : UInt64} :
    target.toUInt64 < saturatingMul a.toUInt64 b ↔ target.toNat < a.toNat * b.toNat := by
  rw [saturatingMul, UInt64.lt_iff_toNat_lt, UInt32.toNat_toUInt64]
  split
  · rename_i hfits
    rw [UInt64.toNat_mul, Nat.mod_eq_of_lt hfits, UInt32.toNat_toUInt64]
  · rename_i hlarge
    rw [UInt32.toNat_toUInt64] at hlarge
    have htarget := target.toNat_lt
    have hmax : USIZE_MAX.toNat = 2 ^ 64 - 1 := rfl
    rw [hmax]
    omega

theorem avgApplyCost_asked {f : FoldedRead} {key : String × String} :
    avgApplyCost (f.asked d s streamId branch t).stateMonitors key
      = avgApplyCost f.monitors key := by
  rw [FoldedRead.asked]
  rcases maybeEmitStateLarge_cases d { s with stateMonitors := f.monitors } streamId branch
    t.largeUs t.emitUs with h | ⟨m, payload, hfind, h⟩
  · rw [h]
  · rw [h]
    -- only the time of the last emission is another
    show avgApplyCost (upsert f.monitors (streamId, branch) _) key = _
    rw [avgApplyCost, avgApplyCost, find_upsert]
    split
    · rename_i hkey
      subst hkey
      rw [show find f.monitors (streamId, branch) = some m from hfind]
      rfl
    · rfl

theorem counters_asked {f : FoldedRead} :
    (f.asked d s streamId branch t).snapshotCounters = s.snapshotCounters := by
  rw [FoldedRead.asked]
  rcases maybeEmitStateLarge_cases d { s with stateMonitors := f.monitors } streamId branch
    t.largeUs t.emitUs with h | ⟨m, payload, -, h⟩
  · rw [h]
  · rw [h]

/-- **The policy**: the counter goes up by the events, or to 0 when the policy fires. -/
theorem autoSnapshotDue_counts {e : UInt32} {policy : SnapshotPolicy} {now : Int64}
    {r : CountedRead} (hcounts : policy.counts = true) (hpolicy : r.policy = policy)
    (hcost : r.avgCost = avgApplyCost s.stateMonitors (streamId, branch)) :
    (autoSnapshotDue s streamId branch e policy now).1
        = r.fires (counter s (streamId, branch) + e).toNat ∧
      (autoSnapshotDue s streamId branch e policy now).2.snapshotCounters
        = upsert s.snapshotCounters (streamId, branch)
          (if r.fires (counter s (streamId, branch) + e).toNat then 0
            else counter s (streamId, branch) + e) := by
  rw [autoSnapshotDue.eq_def, counter]
  dsimp only
  generalize (find s.snapshotCounters (streamId, branch)).getD 0 + e = accumulated
  cases policy with
  | everyNEvents n =>
    have hfires : r.fires accumulated.toNat = decide (n ≤ accumulated) := by
      rw [CountedRead.fires, hpolicy]
      rfl
    dsimp only
    rw [hfires]
    split
    · rename_i hn
      rw [decide_eq_true hn]
      exact ⟨rfl, rfl⟩
    · rename_i hn
      rw [decide_eq_false hn]
      exact ⟨rfl, rfl⟩
  | stateAdaptive target least =>
    have hfires : r.fires accumulated.toNat = (decide (least ≤ accumulated) &&
        decide (target.toUInt64 < saturatingMul accumulated.toUInt64 r.avgCost)) := by
      rw [CountedRead.fires, hpolicy, decide_eq_decide.mpr lt_saturatingMul_iff]
      rfl
    dsimp only
    rw [hfires, hcost]
    split
    · rename_i hleast
      rw [decide_eq_false (UInt32.not_le.mpr hleast), Bool.false_and]
      exact ⟨rfl, rfl⟩
    · rename_i hleast
      rw [decide_eq_true (UInt32.not_lt.mp hleast), Bool.true_and, avgApplyCost]
      split
      · rename_i hcostly
        rw [decide_eq_true hcostly]
        exact ⟨rfl, rfl⟩
      · rename_i hcheap
        rw [decide_eq_false hcheap]
        exact ⟨rfl, rfl⟩
  | manual => exact absurd hcounts (by simp [SnapshotPolicy.counts])
  | everyNSeconds n => exact absurd hcounts (by simp [SnapshotPolicy.counts])

/-- The other policies leave the counters alone. -/
theorem autoSnapshotDue_of_not_counts {e : UInt32} {policy : SnapshotPolicy} {now : Int64}
    (hcounts : policy.counts = false) :
    (autoSnapshotDue s streamId branch e policy now).1 = false ∧
      (autoSnapshotDue s streamId branch e policy now).2.snapshotCounters
        = s.snapshotCounters := by
  rw [autoSnapshotDue.eq_def]
  cases policy with
  | everyNEvents n => exact absurd hcounts (by simp [SnapshotPolicy.counts])
  | stateAdaptive target least => exact absurd hcounts (by simp [SnapshotPolicy.counts])
  | manual => exact ⟨rfl, rfl⟩
  | everyNSeconds n =>
    dsimp only
    split
    · exact ⟨rfl, rfl⟩
    · exact ⟨rfl, rfl⟩

/-- The in-band snapshot of a read changes the tables alone. -/
theorem counters_readStateBytes :
    (readStateBytes d s streamId branch t snapshotUs).2.snapshotCounters
      = (readUpToSnapshot d s streamId branch t).2.snapshotCounters := by
  rw [readStateBytes]
  rcases readUpToSnapshot d s streamId branch t with ⟨e | ⟨state, _ | _⟩, s'⟩
  · rfl
  · rfl
  · dsimp only
    rcases takeSnapshot s'.reducers s'.db streamId branch snapshotUs with e | ⟨info, db⟩
    · cases e <;> rfl
    · rfl

/-- The counters after a read that is counted. -/
theorem counters_of_counted {f : FoldedRead} (hf : foldedRead s streamId branch t = some f)
    (hcounts : f.policy.counts = true) {r : CountedRead}
    (hr : r = ⟨(streamId, branch), f.events.length, f.policy,
      avgApplyCost f.monitors (streamId, branch)⟩) :
    (readStateBytes d s streamId branch t snapshotUs).2.snapshotCounters =
      upsert s.snapshotCounters (streamId, branch)
        (if r.fires (counter s (streamId, branch) + UInt32.ofNat f.events.length).toNat then 0
          else counter s (streamId, branch) + UInt32.ofNat f.events.length) := by
  have hpolicy : r.policy = f.policy := by rw [hr]
  have hcost : r.avgCost =
      avgApplyCost (f.asked d s streamId branch t).stateMonitors (streamId, branch) := by
    rw [hr, avgApplyCost_asked]
  obtain ⟨-, hcounters⟩ := @autoSnapshotDue_counts (f.asked d s streamId branch t) streamId branch
    (UInt32.ofNat f.events.length) f.policy t.policyUs r hcounts hpolicy hcost
  rw [counter, counters_asked] at hcounters
  rw [counters_readStateBytes, readUpToSnapshot_of_some hf]
  exact hcounters

/-- **One read**, when the addition stays in `u32`. -/
theorem counter_read {r : CountedRead} (h : countedRead s streamId branch t = some r)
    (hfits : (counter s r.key).toNat + r.events < UInt32.size) (key : String × String) :
    (counter (readStateBytes d s streamId branch t snapshotUs).2 key).toNat
      = if r.key = key then r.after (counter s key).toNat else (counter s key).toNat := by
  obtain ⟨f, hf, hr⟩ := Option.bind_eq_some_iff.mp h
  split at hr
  · rename_i hcounts
    obtain rfl := Option.some_inj.mp hr
    have hadd : (counter s (streamId, branch) + UInt32.ofNat f.events.length).toNat
        = (counter s (streamId, branch)).toNat + f.events.length := by
      have hevents : f.events.length < UInt32.size := by
        dsimp only at hfits
        omega
      rw [UInt32.toNat_add, UInt32.toNat_ofNat_of_lt' hevents, Nat.mod_eq_of_lt hfits]
    rw [counter, counters_of_counted hf hcounts rfl, find_upsert]
    split
    · rename_i hkey
      subst hkey
      rw [Option.getD_some, CountedRead.after, ← hadd, apply_ite UInt32.toNat]
      rfl
    · rfl
  · exact absurd hr (by simp)

/-- A read that adds nothing. -/
theorem counter_read_of_none (h : countedRead s streamId branch t = none)
    (key : String × String) :
    counter (readStateBytes d s streamId branch t snapshotUs).2 key = counter s key := by
  rw [counter, counters_readStateBytes, counter]
  cases hf : foldedRead s streamId branch t with
  | none =>
    obtain ⟨e, monitors, hread⟩ := @readUpToSnapshot_of_none d s streamId branch t hf
    rw [hread]
  | some f =>
    rw [countedRead, hf] at h
    have hcounts : f.policy.counts = false := by
      rw [Option.bind_some] at h
      split at h
      · exact absurd h (by simp)
      · rename_i hcounts
        exact Bool.not_eq_true _ ▸ hcounts
    rw [readUpToSnapshot_of_some hf]
    dsimp only
    rw [(autoSnapshotDue_of_not_counts hcounts).2, counters_asked]

/-- A read leaves the counters of other streams and branches alone. -/
theorem counter_read_of_ne {key : String × String} (hkey : (streamId, branch) ≠ key) :
    counter (readStateBytes d s streamId branch t snapshotUs).2 key = counter s key := by
  cases hcounted : countedRead s streamId branch t with
  | none => exact counter_read_of_none hcounted key
  | some r =>
    obtain ⟨f, hf, hr⟩ := Option.bind_eq_some_iff.mp hcounted
    split at hr
    · rename_i hcounts
      rw [counter, counters_of_counted hf hcounts rfl, find_upsert, if_neg hkey, counter]
    · exact absurd hr (by simp)

/-! ### Runs -/

/-- A call on an open store.  The calls other than full reads, of this process or of another,
change at most the tables and the registered reducers. -/
inductive CounterAction
  | read (streamId branch : String) (t : ReadClock) (snapshotUs : Int64)
  | other (db : Db) (reducers : List ReducerEntry)

def CounterAction.next (d : Deps) (s : StoreInner) : CounterAction → StoreInner
  | .read streamId branch t snapshotUs => (readStateBytes d s streamId branch t snapshotUs).2
  | .other db reducers => { s with db := db, reducers := reducers }

def counterStep (d : Deps) (s : StoreInner) (a : CounterAction) : Option StoreInner :=
  some (a.next d s)

def CounterAction.counted (s : StoreInner) : CounterAction → Option CountedRead
  | .read streamId branch t _ => countedRead s streamId branch t
  | .other _ _ => none

/-- The reads of a run that add to a counter. -/
def countedReads (d : Deps) : StoreInner → List CounterAction → List CountedRead
  | _, [] => []
  | s, a :: as => (a.counted s).toList ++ countedReads d (a.next d s) as

/-- No addition of the run exceeds `u32::MAX`. -/
def NoOverflow (d : Deps) (s : StoreInner) (as : List CounterAction) : Prop :=
  Along (counterStep d) (fun s a => ∀ r, a.counted s = some r →
    (counter s r.key).toNat + r.events < UInt32.size) s as

/-- Since the policy of a stream and branch last fired, its reads have applied at most
`u32::MAX` events. -/
def TalliesFit (reads : List CountedRead) : Prop :=
  ∀ bs r cs, reads = bs ++ r :: cs → tally bs r.key + r.events < UInt32.size

variable {as : List CounterAction} {before : List CountedRead}

theorem tally_concat {r : CountedRead} {key : String × String} :
    tally (before ++ [r]) key
      = if r.key = key then r.after (tally before key) else tally before key := by
  rw [tally, List.foldl_append]
  rfl

theorem noOverflow_cons {a : CounterAction} : NoOverflow d s (a :: as) ↔
    (∀ r, a.counted s = some r → (counter s r.key).toNat + r.events < UInt32.size) ∧
      NoOverflow d (a.next d s) as := by
  constructor
  · intro h
    exact ⟨h.1, h.2 _ rfl⟩
  · rintro ⟨hfits, hrest⟩
    exact along_cons hfits rfl hrest

/-- **One call**: the counters follow the tallies. -/
theorem tally_next {a : CounterAction} (hs : ∀ key, (counter s key).toNat = tally before key)
    (hfits : ∀ r, a.counted s = some r → (counter s r.key).toNat + r.events < UInt32.size)
    (key : String × String) :
    (counter (a.next d s) key).toNat = tally (before ++ (a.counted s).toList) key := by
  cases a with
  | read streamId branch t snapshotUs =>
    cases hcounted : countedRead s streamId branch t with
    | none =>
      rw [CounterAction.counted, hcounted, Option.toList_none, List.append_nil, ← hs key]
      exact congrArg _ (counter_read_of_none hcounted key)
    | some r =>
      rw [CounterAction.counted, hcounted, Option.toList_some, tally_concat, ← hs key]
      exact counter_read hcounted (hfits r hcounted) key
  | other db reducers =>
    rw [CounterAction.counted, Option.toList_none, List.append_nil]
    exact hs key

/-- From a state in which the counters are the tallies of the reads before. -/
theorem noOverflow_iff_from (hs : ∀ key, (counter s key).toNat = tally before key) :
    NoOverflow d s as ↔ ∀ bs r cs, countedReads d s as = bs ++ r :: cs →
      tally (before ++ bs) r.key + r.events < UInt32.size := by
  induction as generalizing s before with
  | nil => exact ⟨fun _ bs r cs h => absurd h (by simp [countedReads]), fun _ => trivial⟩
  | cons a as ih =>
    rw [noOverflow_cons, countedReads]
    constructor
    · rintro ⟨hfits, hrest⟩ bs r cs hsplit
      have hlater := (ih (tally_next hs hfits)).mp hrest
      cases hcounted : a.counted s with
      | none =>
        rw [hcounted] at hlater hsplit
        rw [Option.toList_none, List.append_nil] at hlater
        exact hlater bs r cs hsplit
      | some r' =>
        rw [hcounted] at hlater hsplit
        cases bs with
        | nil =>
          obtain ⟨rfl, -⟩ := List.cons.inj hsplit
          rw [List.append_nil, ← hs r'.key]
          exact hfits r' hcounted
        | cons b bs =>
          obtain ⟨rfl, htail⟩ := List.cons.inj hsplit
          have hlast := hlater bs r cs htail
          rwa [List.append_assoc] at hlast
    · intro h
      have hfits : ∀ r, a.counted s = some r →
          (counter s r.key).toNat + r.events < UInt32.size := by
        intro r hcounted
        have hfirst := h [] r (countedReads d (a.next d s) as) (by rw [hcounted]; rfl)
        rwa [List.append_nil, ← hs r.key] at hfirst
      refine ⟨hfits, (ih (tally_next hs hfits)).mpr fun bs r cs hsplit => ?_⟩
      rw [List.append_assoc]
      refine h ((a.counted s).toList ++ bs) r cs ?_
      rw [hsplit, List.append_assoc]

/-! ### Limits -/

/-- The number of events from which the policy fires, whatever the number. -/
def CountedRead.limit (r : CountedRead) : Option ℕ :=
  match r.policy with
  | .everyNEvents n => some n.toNat
  | .stateAdaptive targetReplayCostUs minEventsBetween =>
    if r.avgCost = 0 then none
    else some (max minEventsBetween.toNat (targetReplayCostUs.toNat + 1))
  | .manual | .everyNSeconds _ => none

theorem fires_of_limit {r : CountedRead} {limit total : ℕ} (hlimit : r.limit = some limit)
    (hle : limit ≤ total) : r.fires total = true := by
  rw [CountedRead.limit] at hlimit
  rw [CountedRead.fires]
  cases hpolicy : r.policy with
  | everyNEvents n =>
    rw [hpolicy] at hlimit
    obtain rfl := Option.some_inj.mp hlimit
    exact decide_eq_true hle
  | stateAdaptive target least =>
    rw [hpolicy] at hlimit
    dsimp only at hlimit
    split at hlimit
    · exact absurd hlimit (by simp)
    · rename_i hcost
      obtain rfl := Option.some_inj.mp hlimit
      have hpos : 0 < r.avgCost.toNat := by
        rw [Nat.pos_iff_ne_zero]
        intro hzero
        exact hcost (UInt64.toNat_inj.mp hzero)
      have hleast : least.toNat ≤ total := (le_max_left _ _).trans hle
      have htarget : target.toNat < total := (le_max_right _ _).trans hle
      have hcostly : target.toNat < total * r.avgCost.toNat :=
        htarget.trans_le (Nat.le_mul_of_pos_right total hpos)
      dsimp only
      rw [decide_eq_true hleast, decide_eq_true hcostly]
      rfl
  | manual =>
    rw [hpolicy] at hlimit
    exact absurd hlimit (by simp)
  | everyNSeconds n =>
    rw [hpolicy] at hlimit
    exact absurd hlimit (by simp)

/-- A tally stays below the limit of the last read that added to it. -/
theorem tally_lt_limit (reads : List CountedRead) (key : String × String) :
    tally reads key = 0 ∨ ∃ r ∈ reads, r.key = key ∧ ∀ limit, r.limit = some limit →
      tally reads key < limit := by
  induction reads using List.reverseRecOn with
  | nil => exact .inl rfl
  | append_singleton reads r ih =>
    rw [tally_concat]
    split
    · rename_i hkey
      rw [CountedRead.after]
      split
      · exact .inl rfl
      · rename_i hfires
        refine .inr ⟨r, by simp, hkey, fun limit hlimit => ?_⟩
        by_contra hle
        exact hfires (fires_of_limit hlimit (not_lt.mp hle))
    · rcases ih with hzero | ⟨r', hr', hkey, hlt⟩
      · exact .inl hzero
      · exact .inr ⟨r', List.mem_append_left _ hr', hkey, hlt⟩

/-- The tallies fit when every policy has a limit, and a limit and the events of a read fit
in `u32` together. -/
theorem talliesFit_of_limits {reads : List CountedRead}
    (h : ∀ r ∈ reads, ∀ r' ∈ reads, r.key = r'.key →
      ∃ limit, r.limit = some limit ∧ limit + r'.events ≤ UInt32.size)
    (hevents : ∀ r ∈ reads, r.events < UInt32.size) : TalliesFit reads := by
  rintro bs r cs rfl
  have hr : r ∈ bs ++ r :: cs := by simp
  rcases tally_lt_limit bs r.key with hzero | ⟨r', hr', hkey, hlt⟩
  · have := hevents r hr
    omega
  · obtain ⟨limit, hlimit, hfits⟩ := h r' (List.mem_append_left _ hr') r hr hkey
    have := hlt limit hlimit
    omega

/-- **Limits**: no addition of such a run exceeds `u32::MAX`. -/
theorem noOverflow_of_limits {db : Db} {thresholdBytes : UInt64} {now : Int64}
    (h : ∀ r ∈ countedReads d (.opened db thresholdBytes now) as,
      ∀ r' ∈ countedReads d (.opened db thresholdBytes now) as, r.key = r'.key →
        ∃ limit, r.limit = some limit ∧ limit + r'.events ≤ UInt32.size)
    (hevents : ∀ r ∈ countedReads d (.opened db thresholdBytes now) as,
      r.events < UInt32.size) : NoOverflow d (.opened db thresholdBytes now) as :=
  (@noOverflow_iff_from d _ as [] fun _ => rfl).mpr (talliesFit_of_limits h hevents)

/-- **The counters**: in every run of calls on one open store the additions to the counters
stay within `u32` exactly when, between two firings of the policy of a stream and branch, the
reads of it apply at most `u32::MAX` events in all. -/
theorem counters_fit_iff (d : Deps) (db : Db) (thresholdBytes : UInt64) (now : Int64)
    (as : List CounterAction) :
    NoOverflow d (.opened db thresholdBytes now) as ↔
      TalliesFit (countedReads d (.opened db thresholdBytes now) as) :=
  @noOverflow_iff_from d _ as [] fun _ => rfl

/-! ### A policy that never fires -/

/-- Applying an event takes no time on this clock. -/
def stoppedClock : ReadClock := ⟨fun _ => (0, 0), 0, 0, 0⟩

def adaptiveEntry : ReducerEntry :=
  ⟨"**", specificityScore "**", probeReducer [], .stateAdaptive 0 0⟩

/-- A store with one event, an adaptive policy, and recorded costs of 0. -/
structure CostsNothing (s : StoreInner) : Prop where
  db : s.db = storedNull
  reducers : s.reducers = [adaptiveEntry]
  quiet : s.reducerStateLargeThresholdBytes = USIZE_MAX
  costs : ∀ m, find s.stateMonitors ("s", "main") = some m → ∀ c ∈ m.applyCostsUs, c = 0

theorem sum_of_zero {costs : List UInt64} (h : ∀ c ∈ costs, c = 0) : costs.sum = 0 := by
  induction costs with
  | nil => rfl
  | cons c costs ih =>
    obtain ⟨hc, hcosts⟩ := List.forall_mem_cons.mp h
    rw [List.sum_cons, hc, ih hcosts]
    rfl

theorem avgApplyCost_of_zero {monitors : StateMonitors} {key : String × String}
    (h : ∀ m, find monitors key = some m → ∀ c ∈ m.applyCostsUs, c = 0) :
    avgApplyCost monitors key = 0 := by
  rw [avgApplyCost]
  cases hfind : find monitors key with
  | none => rfl
  | some m =>
    show meanOf m.applyCostsUs = 0
    rw [meanOf, sum_of_zero (h m hfind)]
    split
    · rfl
    · exact UInt64.zero_div

/-- An estimate of 0 passes no target. -/
theorem autoSnapshotDue_free {e target least : UInt32} {now : Int64}
    (hcost : avgApplyCost s.stateMonitors (streamId, branch) = 0) :
    ∃ counters, autoSnapshotDue s streamId branch e (.stateAdaptive target least) now
      = (false, { s with snapshotCounters := counters }) := by
  rw [avgApplyCost] at hcost
  rw [autoSnapshotDue]
  dsimp only
  split
  · exact ⟨_, rfl⟩
  · rw [hcost, if_neg]
    · exact ⟨_, rfl⟩
    · rw [lt_saturatingMul_iff]
      exact Nat.not_lt_zero _

/-- A read of it applies one event, at no cost. -/
theorem CostsNothing.folded (h : CostsNothing s) :
    ∃ f, foldedRead s "s" "main" stoppedClock = some f ∧ f.policy = .stateAdaptive 0 0 ∧
      f.events.length = 1 ∧
      ∀ m, find f.monitors ("s", "main") = some m → ∀ c ∈ m.applyCostsUs, c = 0 := by
  have hcompute : ∃ event, computeStateBytes (probeReducer []) "s" "main" none s.db
      = .ok ([], [event]) := by
    rw [h.db]
    exact ⟨_, rfl⟩
  obtain ⟨event, hcompute⟩ := hcompute
  refine ⟨⟨probeReducer [], .stateAdaptive 0 0, [], [event], [if event.payload = [] then 1 else 0],
    updateStateMonitor s.stateMonitors ("s", "main") 1 (applyCostUs (0, 0))⟩, ?_, rfl, rfl, ?_⟩
  · rw [foldedRead, h.reducers, adaptiveEntry, findArcWithPolicy_dstar]
    dsimp only
    rw [hcompute]
    rfl
  · intro m hm c hc
    rw [updateStateMonitor, find_upsert, if_pos rfl] at hm
    obtain rfl := Option.some_inj.mp hm
    rcases List.mem_append.mp hc with hc | hc
    · have hold : c ∈ ((find s.stateMonitors ("s", "main")).getD {}).applyCostsUs := by
        split at hc
        · exact List.mem_of_mem_tail hc
        · exact hc
      cases hfind : find s.stateMonitors ("s", "main") with
      | none =>
        rw [hfind] at hold
        exact absurd hold List.not_mem_nil
      | some m =>
        rw [hfind] at hold
        exact h.costs m hfind c hold
    · rw [List.mem_singleton.mp hc]
      rfl

theorem CostsNothing.counted (h : CostsNothing s) :
    countedRead s "s" "main" stoppedClock = some ⟨("s", "main"), 1, .stateAdaptive 0 0, 0⟩ := by
  obtain ⟨f, hf, hpolicy, hlength, hcosts⟩ := h.folded
  rw [countedRead, hf, Option.bind_some, hpolicy, hlength, avgApplyCost_of_zero hcosts]
  rfl

theorem CostsNothing.next (h : CostsNothing s) :
    CostsNothing (readStateBytes d s "s" "main" stoppedClock 0).2 := by
  obtain ⟨f, hf, hpolicy, -, hcosts⟩ := h.folded
  have hasked : f.asked d s "s" "main" stoppedClock = { s with stateMonitors := f.monitors } := by
    rw [FoldedRead.asked, maybeEmitStateLarge]
    exact if_pos h.quiet
  obtain ⟨counters, hdue⟩ := @autoSnapshotDue_free (f.asked d s "s" "main" stoppedClock) "s" "main"
    (UInt32.ofNat f.events.length) 0 0 stoppedClock.policyUs (by
      rw [hasked]
      exact avgApplyCost_of_zero hcosts)
  rw [readStateBytes, readUpToSnapshot_of_some hf, hpolicy, hdue, hasked]
  exact ⟨h.db, h.reducers, h.quiet, hcosts⟩

/-- One read of the stream. -/
def freeRead : CounterAction := .read "s" "main" stoppedClock 0

theorem countedReads_free (h : CostsNothing s) (n : ℕ) :
    countedReads d s (List.replicate n freeRead)
      = List.replicate n ⟨("s", "main"), 1, .stateAdaptive 0 0, 0⟩ := by
  induction n generalizing s with
  | zero => rfl
  | succ n ih =>
    rw [List.replicate_succ, List.replicate_succ, countedReads, freeRead, CounterAction.counted,
      h.counted]
    exact congrArg _ (ih h.next)

theorem tally_free (n : ℕ) :
    tally (List.replicate n ⟨("s", "main"), 1, .stateAdaptive 0 0, 0⟩) ("s", "main") = n := by
  induction n with
  | zero => rfl
  | succ n ih =>
    rw [List.replicate_succ', tally_concat, if_pos rfl, ih]
    exact if_neg (by simp [CountedRead.fires])

/-- `2^32` reads of one event at no cost. -/
theorem counters_overflow : ¬∀ (d : Deps) (db : Db) (thresholdBytes : UInt64) (now : Int64)
    (as : List CounterAction),
    (∀ r ∈ countedReads d (.opened db thresholdBytes now) as, r.events < UInt32.size) →
    NoOverflow d (.opened db thresholdBytes now) as := by
  intro h
  have hstart : CostsNothing (CounterAction.next plainDeps (.opened storedNull USIZE_MAX 0)
      (.other storedNull [adaptiveEntry])) := by
    refine ⟨rfl, rfl, rfl, fun m hm => ?_⟩
    exact absurd hm (by simp [CounterAction.next, StoreInner.opened, find])
  obtain ⟨n, hn⟩ : ∃ n, n + 1 = UInt32.size := ⟨_, Nat.succ_pred_eq_of_pos (by decide)⟩
  have hreads : countedReads plainDeps (.opened storedNull USIZE_MAX 0)
      (.other storedNull [adaptiveEntry] :: List.replicate (n + 1) freeRead)
      = List.replicate (n + 1) ⟨("s", "main"), 1, .stateAdaptive 0 0, 0⟩ :=
    countedReads_free hstart (n + 1)
  have hfits := h plainDeps storedNull USIZE_MAX 0
    (.other storedNull [adaptiveEntry] :: List.replicate (n + 1) freeRead) (fun r hr => by
      rw [hreads] at hr
      rw [List.eq_of_mem_replicate hr]
      exact (by decide : 1 < UInt32.size))
  have hlast := (@noOverflow_iff_from plainDeps _ _ [] fun _ => rfl).mp hfits
    (List.replicate n ⟨("s", "main"), 1, .stateAdaptive 0 0, 0⟩) _ [] (by
      rw [hreads]
      exact List.replicate_succ')
  rw [List.nil_append, tally_free, hn] at hlast
  exact absurd hlast (lt_irrefl _)

end Fossic
