/-
Kinship in a forest of parent pointers.

`up parent n x` goes from `x` up `n` times.  Where no node is its own ancestor,

* `up_unique` — a node is above another one at one distance only;
* `kin_unique` — the shortest way between two nodes of a tree goes up a number of
  times and then down a number of times, and it is the only one that does not turn
  back: `Kin parent s x i j` says that from `s` to `x` these numbers are `i` and `j`;
* `kin_parent`, `kin_child` — how they change from a node to its neighbours.
-/
import Fossic.PointerWalk

namespace Kinship

open Relation PointerWalk

variable {β : Type*} {parent : β → Option β} {s x y z w : β} {m n i j i' j' : ℕ}

/-! ### Going up -/

/-- No node is its own ancestor. -/
def Acyclic (parent : β → Option β) : Prop := ∀ x, ¬TransGen (Step parent) x x

theorem acyclic_of_rank (rank : β → ℕ) (h : ∀ x y, parent x = some y → rank y < rank x) :
    Acyclic parent := by
  have hlt : ∀ x y, TransGen (Step parent) x y → rank y < rank x := by
    intro x y hxy
    induction hxy with
    | single hstep => exact h _ _ hstep
    | tail _ hstep ih => exact Nat.lt_trans (h _ _ hstep) ih
  exact fun x hx => absurd (hlt x x hx) (Nat.lt_irrefl _)

def up (parent : β → Option β) : ℕ → β → Option β
  | 0, x => some x
  | n + 1, x => (parent x).bind (up parent n)

theorem up_succ (h : parent x = some y) : up parent (n + 1) x = up parent n y := by
  rw [up, h]
  rfl

theorem up_add : up parent (m + n) x = (up parent m x).bind (up parent n) := by
  induction m generalizing x with
  | zero =>
    rw [Nat.zero_add]
    rfl
  | succ m ih =>
    rw [Nat.succ_add, up, up]
    cases parent x with
    | none => rfl
    | some y => exact ih

theorem up_add_of_eq (h : up parent m x = some y) : up parent (m + n) x = up parent n y := by
  rw [up_add, h]
  rfl

/-- The last step up. -/
theorem up_step (h : up parent n x = some y) : up parent (n + 1) x = parent y := by
  rw [up_add_of_eq h, up]
  cases parent y <;> rfl

/-- What is above is above the parent. -/
theorem exists_parent (h : up parent (n + 1) x = some y) :
    ∃ z, parent x = some z ∧ up parent n z = some y := Option.bind_eq_some_iff.mp h

theorem transGen_of_up (h : up parent (n + 1) x = some y) : TransGen (Step parent) x y := by
  induction n generalizing x with
  | zero =>
    obtain ⟨z, hz, hup⟩ := exists_parent h
    obtain rfl := Option.some_inj.mp hup
    exact .single hz
  | succ n ih =>
    obtain ⟨z, hz, hup⟩ := exists_parent h
    exact .head hz (ih hup)

theorem up_unique (hacyclic : Acyclic parent) (hm : up parent m x = some y)
    (hn : up parent n x = some y) : m = n := by
  -- the farther way would lead from `y` back to `y`
  have hback : ∀ k, up parent (k + 1) y ≠ some y := fun k hk => hacyclic y (transGen_of_up hk)
  rcases Nat.lt_trichotomy m n with h | h | h
  · obtain ⟨k, rfl⟩ := Nat.exists_eq_add_of_lt h
    rw [Nat.add_assoc, up_add_of_eq hm] at hn
    exact absurd hn (hback k)
  · exact h
  · obtain ⟨k, rfl⟩ := Nat.exists_eq_add_of_lt h
    rw [Nat.add_assoc, up_add_of_eq hn] at hm
    exact absurd hm (hback k)

/-! ### Up and down -/

/-- From `s` up `i` times and then down `j` times is `x`, and the first step down does
not undo the last step up. -/
def Kin (parent : β → Option β) (s x : β) (i j : ℕ) : Prop :=
  ∃ w, up parent i s = some w ∧ up parent j x = some w ∧
    ∀ i' j', i = i' + 1 → j = j' + 1 → up parent i' s ≠ up parent j' x

theorem kin_self : Kin parent s s 0 0 :=
  ⟨s, rfl, rfl, fun _ _ h => absurd h (Nat.succ_ne_zero _).symm⟩

theorem kin_of_up (h : up parent i s = some x) : Kin parent s x i 0 :=
  ⟨x, h, rfl, fun _ _ _ h => absurd h (Nat.succ_ne_zero _).symm⟩

theorem kin_of_down (h : up parent j x = some s) : Kin parent s x 0 j :=
  ⟨s, rfl, h, fun _ _ h => absurd h (Nat.succ_ne_zero _).symm⟩

/-- A way that goes up farther shares its last step up with its first step down. -/
theorem kin_le (hacyclic : Acyclic parent) (h : Kin parent s x i j) (h' : Kin parent s x i' j') :
    i' ≤ i := by
  by_contra hlt
  obtain ⟨k, rfl⟩ := Nat.exists_eq_add_of_lt (Nat.lt_of_not_le hlt)
  obtain ⟨w, hi, hj, -⟩ := h
  obtain ⟨w', hi', hj', hturn⟩ := h'
  have hsame : j' = j + k + 1 := by
    refine up_unique hacyclic hj' ?_
    rw [Nat.add_assoc, up_add_of_eq hj, ← up_add_of_eq hi, ← Nat.add_assoc]
    exact hi'
  refine hturn (i + k) (j + k) rfl hsame ?_
  rw [up_add_of_eq hi, up_add_of_eq hj]

theorem kin_unique (hacyclic : Acyclic parent) (h : Kin parent s x i j)
    (h' : Kin parent s x i' j') : i = i' ∧ j = j' := by
  obtain rfl : i = i' := Nat.le_antisymm (kin_le hacyclic h' h) (kin_le hacyclic h h')
  obtain ⟨w, hi, hj, -⟩ := h
  obtain ⟨w', hi', hj', -⟩ := h'
  obtain rfl := Option.some_inj.mp (hi.symm.trans hi')
  exact ⟨rfl, up_unique hacyclic hj hj'⟩

/-- Above `s` the parent is one farther up. -/
theorem kin_parent_of_up (h : Kin parent s x i 0) (hxy : parent x = some y) :
    Kin parent s y (i + 1) 0 := by
  obtain ⟨w, hi, hw, -⟩ := h
  obtain rfl := Option.some_inj.mp hw
  exact kin_of_up ((up_step hi).trans hxy)

/-- Elsewhere it is one less far down. -/
theorem kin_parent (h : Kin parent s x i (j + 1)) (hxy : parent x = some y) :
    Kin parent s y i j := by
  obtain ⟨w, hi, hj, hturn⟩ := h
  refine ⟨w, hi, (up_succ hxy).symm.trans hj, fun i' j' hi' hj' => ?_⟩
  rw [← up_succ hxy, ← hj']
  exact hturn i' j hi' rfl

/-- A child is one farther down, unless the way up came through it. -/
theorem kin_child (h : Kin parent s x i j) (hxy : parent y = some x)
    (hturn : ∀ i', i = i' + 1 → j = 0 → up parent i' s ≠ some y) : Kin parent s y i (j + 1) := by
  obtain ⟨w, hi, hj, hturn'⟩ := h
  refine ⟨w, hi, (up_succ hxy).trans hj, fun i' j' hi' hj' => ?_⟩
  obtain rfl := Nat.succ_inj.mp hj'
  cases j with
  | zero => exact hturn i' hi' rfl
  | succ j =>
    rw [up_succ hxy]
    exact hturn' i' j hi' rfl

end Kinship
