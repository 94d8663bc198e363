/-
How deep the dispatch channel gets, and what its high-water mark says about it.

Before an appender sends, it reads the length of the channel, counts itself in, and raises
the mark to that (`fetch_max`).  The three are steps of their own, so others send, and the
dispatcher receives, in between; and the WAL watcher sends without looking at the mark.

* `pressureInv_step` — what every step keeps, for any group of appenders that have measured;
* `dispatch_pressure` — how far the mark and the depth can be apart.
-/
import Fossic.Transition
import Mathlib.Data.Finset.Lattice.Fold
import Mathlib.Data.Fintype.Card
import Mathlib.Algebra.Order.Group.Nat
import Mathlib.Order.Lattice.Nat

namespace Fossic

open Transition Finset

/-- Who has sent an event. -/
inductive Sender (k : ℕ)
  | appender (i : Fin k)
  | watcher
  deriving DecidableEq

/-- Where a call of `append`, `append_if` or `append_batch` is with the event that it sends. -/
inductive SendPoint
  | idle
  /-- it has read the length, and counted itself in -/
  | measured (depth : ℕ)
  /-- it has raised the mark -/
  | noted
  deriving DecidableEq

/-- The dispatch channel with `k` appenders, and the largest depth that it has had. -/
structure Pressure (k : ℕ) where
  queue : List (Sender k)
  highWaterMark : ℕ
  points : Fin k → SendPoint
  peak : ℕ

namespace Pressure

variable {k : ℕ}

/-- `Store::open`. -/
def init (k : ℕ) : Pressure k := ⟨[], 0, fun _ => .idle, 0⟩

/-- `dispatch_channel_pressure`. -/
def depth (s : Pressure k) : ℕ := s.queue.length

/-- How many of the events in the channel are the watcher's. -/
def watched (s : Pressure k) : ℕ := s.queue.countP (· = .watcher)

def send (s : Pressure k) (sender : Sender k) : Pressure k :=
  { s with queue := s.queue ++ [sender], peak := max s.peak (s.queue.length + 1) }

end Pressure

inductive PressureAction (k : ℕ)
  | measure (i : Fin k)
  | note (i : Fin k)
  | send (i : Fin k)
  | scan
  | receive

variable {k : ℕ}

def pressureStep (s : Pressure k) : PressureAction k → Option (Pressure k)
  | .measure i =>
    match s.points i with
    | .idle => some { s with points := Function.update s.points i (.measured (s.depth + 1)) }
    | _ => none
  | .note i =>
    match s.points i with
    | .measured depth =>
      some { s with
        highWaterMark := max s.highWaterMark depth
        points := Function.update s.points i .noted }
    | _ => none
  | .send i =>
    match s.points i with
    | .noted =>
      some { s.send (.appender i) with points := Function.update s.points i .idle }
    | _ => none
  | .scan => some (s.send .watcher)
  | .receive =>
    match s.queue with
    | [] => none
    | _ :: rest => some { s with queue := rest }

/-! ### The invariant -/

/-- The depth that an appender has measured. -/
def SendPoint.depth : SendPoint → ℕ
  | .measured depth => depth
  | _ => 0

/-- Those that have raised the mark and not sent yet. -/
def notedOf (points : Fin k → SendPoint) : Finset (Fin k) := univ.filter fun i => points i = .noted

/-- Every appender of the group has measured, and not raised the mark yet. -/
def Measured (points : Fin k → SendPoint) (S : Finset (Fin k)) : Prop :=
  ∀ i ∈ S, ∃ depth, points i = .measured depth

/-- Whatever group of appenders has measured: were they to raise the mark and to send now, the
depth would not be further above it than the others can account for. -/
structure PressureInv (s : Pressure k) : Prop where
  bounded : ∀ S, Measured s.points S → s.depth + (notedOf s.points).card + S.card ≤
    max s.highWaterMark (S.sup fun i => (s.points i).depth) + (k - 1) + s.watched
  peaked : s.depth ≤ s.peak
  raised : s.highWaterMark ≤ s.peak + 1
  counted : ∀ i depth, s.points i = .measured depth → depth ≤ s.peak + 1

variable {s s' : Pressure k} {a : PressureAction k} {as bs : List (PressureAction k)}
  {points : Fin k → SendPoint} {S : Finset (Fin k)} {i j : Fin k} {p : SendPoint}

/-! ### One appender moves -/

theorem mem_notedOf : i ∈ notedOf points ↔ points i = .noted := by
  rw [notedOf, mem_filter]
  exact ⟨fun h => h.2, fun h => ⟨mem_univ i, h⟩⟩

theorem notedOf_update_noted :
    notedOf (Function.update points i .noted) = insert i (notedOf points) := by
  ext j
  rw [mem_insert, mem_notedOf, mem_notedOf]
  by_cases hj : j = i
  · subst hj
    simp
  · simp [hj]

theorem notedOf_update_of_ne (hp : p ≠ .noted) :
    notedOf (Function.update points i p) = (notedOf points).erase i := by
  ext j
  rw [mem_erase, mem_notedOf, mem_notedOf]
  by_cases hj : j = i
  · subst hj
    simp [hp]
  · simp [hj]

/-- A group without `i` had measured before a step of `i`, and the same. -/
theorem measured_update (hi : i ∉ S) :
    (Measured (Function.update points i p) S ↔ Measured points S) ∧
      (S.sup fun j => (Function.update points i p j).depth) = S.sup fun j => (points j).depth := by
  have hother : ∀ j ∈ S, Function.update points i p j = points j := by
    intro j hj
    refine Function.update_of_ne ?_ p points
    rintro rfl
    exact hi hj
  refine ⟨?_, sup_congr rfl fun j hj => by rw [hother j hj]⟩
  constructor
  · intro h j hj
    rw [← hother j hj]
    exact h j hj
  · intro h j hj
    rw [hother j hj]
    exact h j hj

theorem not_mem_of_measured (h : Measured (Function.update points i p) S)
    (hp : ∀ depth, p ≠ .measured depth) : i ∉ S := by
  intro hi
  obtain ⟨depth, hdepth⟩ := h i hi
  rw [Function.update_self] at hdepth
  exact hp depth hdepth

/-- The noted ones and a group of others are at most all. -/
theorem card_noted_add (h : Measured points S) : (notedOf points).card + S.card ≤ k := by
  have hdisjoint : Disjoint (notedOf points) S := by
    refine disjoint_left.mpr fun i hi hiS => ?_
    obtain ⟨depth, hdepth⟩ := h i hiS
    rw [mem_notedOf.mp hi] at hdepth
    exact absurd hdepth (by simp)
  rw [← card_union_of_disjoint hdisjoint]
  exact (card_le_univ _).trans_eq (Fintype.card_fin k)

/-- What an appender has measured after a step of one that has not measured in it. -/
theorem measured_of_update {depth : ℕ} (hp : ∀ depth, p ≠ .measured depth)
    (h : Function.update points i p j = .measured depth) : points j = .measured depth := by
  by_cases hj : j = i
  · subst hj
    rw [Function.update_self] at h
    exact absurd h (hp depth)
  · rwa [Function.update_of_ne hj] at h

/-! ### The steps -/

theorem pressureInv_init : PressureInv (Pressure.init k) where
  bounded S hS := by
    have hempty : S = ∅ := eq_empty_of_forall_notMem fun i hi => by
      obtain ⟨depth, hdepth⟩ := hS i hi
      exact absurd hdepth (by simp [Pressure.init])
    subst hempty
    simp [Pressure.init, Pressure.depth, notedOf, Pressure.watched]
  peaked := le_rfl
  raised := Nat.zero_le _
  counted i depth h := absurd h (by simp [Pressure.init])

/-- Measuring. -/
theorem pressureInv_measure (h : PressureInv s) (hi : s.points i = .idle) :
    PressureInv { s with points := Function.update s.points i (.measured (s.depth + 1)) } where
  bounded S hS := by
    have hk : 0 < k := i.pos
    have hnoted : notedOf (Function.update s.points i (.measured (s.depth + 1))) =
        notedOf s.points := by
      rw [notedOf_update_of_ne (by simp)]
      refine erase_eq_of_notMem fun hmem => ?_
      rw [mem_notedOf, hi] at hmem
      exact absurd hmem (by simp)
    show s.depth + (notedOf (Function.update s.points i _)).card + S.card ≤
      max s.highWaterMark (S.sup fun j => (Function.update s.points i _ j).depth) + (k - 1) +
        s.watched
    by_cases hiS : i ∈ S
    · -- the one that has just measured accounts for all that is in the channel
      have hcard : (notedOf (Function.update s.points i (.measured (s.depth + 1)))).card +
          S.card ≤ k := card_noted_add hS
      have hsup : s.depth + 1 ≤
          S.sup fun j => (Function.update s.points i (.measured (s.depth + 1)) j).depth := by
        refine le_trans (le_of_eq ?_) (le_sup hiS)
        rw [Function.update_self]
        rfl
      omega
    · rw [hnoted, (measured_update hiS).2]
      exact h.bounded S ((measured_update hiS).1.mp hS)
  peaked := h.peaked
  raised := h.raised
  counted j depth hj := by
    have hj : Function.update s.points i (.measured (s.depth + 1)) j = .measured depth := hj
    by_cases hji : j = i
    · subst hji
      rw [Function.update_self] at hj
      obtain rfl := SendPoint.measured.inj hj
      exact Nat.succ_le_succ h.peaked
    · rw [Function.update_of_ne hji] at hj
      exact h.counted j depth hj

/-- Raising the mark. -/
theorem pressureInv_note (h : PressureInv s) {depth : ℕ} (hi : s.points i = .measured depth) :
    PressureInv { s with
      highWaterMark := max s.highWaterMark depth
      points := Function.update s.points i .noted } where
  bounded S hS := by
    have hiS : i ∉ S := not_mem_of_measured hS (by simp)
    have hfresh : i ∉ notedOf s.points := fun hmem => by
      rw [mem_notedOf, hi] at hmem
      exact absurd hmem (by simp)
    -- before, it was one of the group
    have hgroup : Measured s.points (insert i S) := by
      intro j hj
      rcases mem_insert.mp hj with rfl | hj
      · exact ⟨depth, hi⟩
      · exact (measured_update hiS).1.mp hS j hj
    have hold := h.bounded (insert i S) hgroup
    have hdepth : (s.points i).depth = depth := by
      rw [hi]
      rfl
    rw [card_insert_of_notMem hiS, sup_insert, hdepth] at hold
    show s.depth + (notedOf (Function.update s.points i .noted)).card + S.card ≤
      max (max s.highWaterMark depth) (S.sup fun j => (Function.update s.points i _ j).depth) +
        (k - 1) + s.watched
    rw [notedOf_update_noted, card_insert_of_notMem hfresh, (measured_update hiS).2]
    omega
  peaked := h.peaked
  raised := max_le h.raised (h.counted i depth hi)
  counted j d hj := h.counted j d (measured_of_update (by simp) hj)

theorem watched_send {sender : Sender k} : (s.send sender).watched =
    s.watched + if sender = .watcher then 1 else 0 := by
  show (s.queue ++ [sender]).countP _ = _
  rw [List.countP_append, List.countP_singleton]
  simp [Pressure.watched]

theorem depth_send {sender : Sender k} : (s.send sender).depth = s.depth + 1 :=
  List.length_append

/-- Sending, once the mark is raised. -/
theorem pressureInv_send (h : PressureInv s) (hi : s.points i = .noted) :
    PressureInv { s.send (.appender i) with points := Function.update s.points i .idle } where
  bounded S hS := by
    have hiS : i ∉ S := not_mem_of_measured hS (by simp)
    have hold := h.bounded S ((measured_update hiS).1.mp hS)
    have hmem : i ∈ notedOf s.points := mem_notedOf.mpr hi
    have hpos := card_pos.mpr ⟨i, hmem⟩
    have hwatched := @watched_send k s (.appender i)
    have hdepth := @depth_send k s (.appender i)
    rw [if_neg (by simp)] at hwatched
    show (s.send (.appender i)).depth + (notedOf (Function.update s.points i .idle)).card +
      S.card ≤ max s.highWaterMark (S.sup fun j => (Function.update s.points i _ j).depth) +
        (k - 1) + (s.send (.appender i)).watched
    rw [notedOf_update_of_ne (by simp), card_erase_of_mem hmem, (measured_update hiS).2]
    omega
  peaked := by
    show (s.send (.appender i)).depth ≤ max s.peak (s.depth + 1)
    rw [depth_send]
    exact le_max_right _ _
  raised := h.raised.trans (Nat.succ_le_succ (le_max_left _ _))
  counted j d hj := (h.counted j d (measured_of_update (by simp) hj)).trans
    (Nat.succ_le_succ (le_max_left _ _))

/-- A step of the WAL watcher. -/
theorem pressureInv_scan (h : PressureInv s) : PressureInv (s.send .watcher) where
  bounded S hS := by
    have hold := h.bounded S hS
    have hwatched := @watched_send k s .watcher
    have hdepth := @depth_send k s .watcher
    rw [if_pos rfl] at hwatched
    show (s.send .watcher).depth + (notedOf s.points).card + S.card ≤
      max s.highWaterMark (S.sup fun j => (s.points j).depth) + (k - 1) + (s.send .watcher).watched
    omega
  peaked := by
    rw [depth_send]
    exact le_max_right _ _
  raised := h.raised.trans (Nat.succ_le_succ (le_max_left _ _))
  counted j d hj := (h.counted j d hj).trans (Nat.succ_le_succ (le_max_left _ _))

/-- A step of the dispatcher. -/
theorem pressureInv_receive (h : PressureInv s) {sender : Sender k} {rest : List (Sender k)}
    (hqueue : s.queue = sender :: rest) : PressureInv { s with queue := rest } where
  bounded S hS := by
    have hold := h.bounded S hS
    have hdepth : s.depth = rest.length + 1 := by
      rw [Pressure.depth, hqueue]
      rfl
    have hwatched : s.watched ≤ rest.countP (· = .watcher) + 1 := by
      rw [Pressure.watched, hqueue, List.countP_cons]
      split <;> omega
    show rest.length + (notedOf s.points).card + S.card ≤
      max s.highWaterMark (S.sup fun j => (s.points j).depth) + (k - 1) + rest.countP (· = .watcher)
    omega
  peaked := by
    have hpeak := h.peaked
    rw [Pressure.depth, hqueue, List.length_cons] at hpeak
    show rest.length ≤ s.peak
    omega
  raised := h.raised
  counted := h.counted

/-- **One step** keeps the invariant. -/
theorem pressureInv_step (h : PressureInv s) (hstep : pressureStep s a = some s') :
    PressureInv s' := by
  cases a with
  | measure i =>
    simp only [pressureStep] at hstep
    split at hstep
    · rename_i hi
      exact Option.some_inj.mp hstep ▸ pressureInv_measure h hi
    · exact absurd hstep (by simp)
  | note i =>
    simp only [pressureStep] at hstep
    split at hstep
    · rename_i depth hi
      exact Option.some_inj.mp hstep ▸ pressureInv_note h hi
    · exact absurd hstep (by simp)
  | send i =>
    simp only [pressureStep] at hstep
    split at hstep
    · rename_i hi
      exact Option.some_inj.mp hstep ▸ pressureInv_send h hi
    · exact absurd hstep (by simp)
  | scan => exact Option.some_inj.mp hstep ▸ pressureInv_scan h
  | receive =>
    simp only [pressureStep] at hstep
    split at hstep
    · exact absurd hstep (by simp)
    · rename_i sender rest hqueue
      exact Option.some_inj.mp hstep ▸ pressureInv_receive h hqueue

/-! ### Runs -/

theorem pressureInv_run (hrun : run pressureStep (.init k) as = some s) : PressureInv s :=
  run_invariant_all (fun _ _ _ h hstep => pressureInv_step h hstep) pressureInv_init hrun

/-- The mark is never lowered, and neither is the peak. -/
theorem pressure_mono (hstep : pressureStep s a = some s') :
    s.highWaterMark ≤ s'.highWaterMark ∧ s.peak ≤ s'.peak := by
  cases a with
  | measure i =>
    simp only [pressureStep] at hstep
    split at hstep
    · exact Option.some_inj.mp hstep ▸ ⟨le_rfl, le_rfl⟩
    · exact absurd hstep (by simp)
  | note i =>
    simp only [pressureStep] at hstep
    split at hstep
    · exact Option.some_inj.mp hstep ▸ ⟨le_max_left _ _, le_rfl⟩
    · exact absurd hstep (by simp)
  | send i =>
    simp only [pressureStep] at hstep
    split at hstep
    · exact Option.some_inj.mp hstep ▸ ⟨le_rfl, le_max_left _ _⟩
    · exact absurd hstep (by simp)
  | scan => exact Option.some_inj.mp hstep ▸ ⟨le_rfl, le_max_left _ _⟩
  | receive =>
    simp only [pressureStep] at hstep
    split at hstep
    · exact absurd hstep (by simp)
    · exact Option.some_inj.mp hstep ▸ ⟨le_rfl, le_rfl⟩

theorem pressure_mono_run (hrun : run pressureStep s as = some s') :
    s.highWaterMark ≤ s'.highWaterMark ∧ s.peak ≤ s'.peak := by
  refine run_invariant_all (I := fun t => s.highWaterMark ≤ t.highWaterMark ∧ s.peak ≤ t.peak)
    (fun t a t' h hstep => ?_) ⟨le_rfl, le_rfl⟩ hrun
  have hmono := pressure_mono hstep
  exact ⟨h.1.trans hmono.1, h.2.trans hmono.2⟩

/-- **What the high-water mark says.**  Whatever `k` appenders, the watcher and the dispatcher
do in whatever order: the mark is at most one above the largest depth that there has been; and
at no time up to now has the depth been above the mark by more than the `k - 1` others and the
events of the watcher that were in the channel then. -/
theorem dispatch_pressure (hrun : run pressureStep (.init k) as = some s)
    (hrest : run pressureStep s bs = some s') :
    s'.highWaterMark ≤ s'.peak + 1 ∧ s.depth ≤ s'.peak ∧
      s.depth ≤ s'.highWaterMark + (k - 1) + s.watched := by
  have hinv := pressureInv_run hrun
  have hmono := pressure_mono_run hrest
  have hwhole : run pressureStep (.init k) (as ++ bs) = some s' := by
    rw [run_append]
    exact ⟨s, hrun, hrest⟩
  have hbound := hinv.bounded ∅ fun i hi => absurd hi (notMem_empty i)
  rw [sup_empty, card_empty] at hbound
  have hbot : max s.highWaterMark ⊥ = s.highWaterMark := max_eq_left (Nat.zero_le _)
  rw [hbot] at hbound
  refine ⟨(pressureInv_run hwhole).raised, hinv.peaked.trans hmono.2, ?_⟩
  omega

/-- Two appenders that measure an empty channel: the mark stays one below the depth. -/
theorem dispatch_pressure_two : ∃ s : Pressure 2, s.depth = 2 ∧ s.highWaterMark = 1 ∧
    s.depth ≤ s.highWaterMark + (2 - 1) + s.watched := by
  let as : List (PressureAction 2) :=
    [.measure 0, .measure 1, .note 0, .note 1, .send 0, .send 1]
  have hbound := @dispatch_pressure 2 _ _ as [] rfl rfl
  refine ⟨_, ?_, ?_, hbound.2.2⟩
  · rfl
  · rfl

end Fossic
