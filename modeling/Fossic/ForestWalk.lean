/-
The three ways to walk a forest of parent pointers: down to the children, up to the
parents, and both.  Where no node is its own ancestor each of them is graded, by the
number of steps up from or to the start, and by the length of the way up and down.
-/
import Fossic.Kinship
import Fossic.LevelWalk

namespace ForestWalk

open Kinship LevelWalk

variable {β : Type*} {parent : β → Option β} {s x y z : β} {m n i j : ℕ}

/-- The pairs of a node and one of its children, of its parent, and of either. -/
def Down (parent : β → Option β) (x y : β) : Prop := parent y = some x
def Up (parent : β → Option β) (x y : β) : Prop := parent x = some y
def Either (parent : β → Option β) (x y : β) : Prop := Down parent x y ∨ Up parent x y

def DownGrade (parent : β → Option β) (s x : β) (n : ℕ) : Prop := up parent n x = some s
def UpGrade (parent : β → Option β) (s x : β) (n : ℕ) : Prop := up parent n s = some x
def EitherGrade (parent : β → Option β) (s x : β) (n : ℕ) : Prop :=
  ∃ i j, i + j = n ∧ Kin parent s x i j

theorem downGrade_step (hx : DownGrade parent s x n) (hxy : Down parent x y) :
    DownGrade parent s y (n + 1) := (up_succ hxy).trans hx

theorem upGrade_step (hx : UpGrade parent s x n) (hxy : Up parent x y) :
    UpGrade parent s y (n + 1) := (up_step hx).trans hxy

theorem downGrade_unique (hacyclic : Acyclic parent) (hm : DownGrade parent s x m)
    (hn : DownGrade parent s x n) : m = n := up_unique hacyclic hm hn

theorem upGrade_unique (hacyclic : Acyclic parent) (hm : UpGrade parent s x m)
    (hn : UpGrade parent s x n) : m = n := up_unique hacyclic hm hn

theorem eitherGrade_unique (hacyclic : Acyclic parent) (hm : EitherGrade parent s x m)
    (hn : EitherGrade parent s x n) : m = n := by
  obtain ⟨i, j, rfl, hkin⟩ := hm
  obtain ⟨i', j', rfl, hkin'⟩ := hn
  obtain ⟨rfl, rfl⟩ := kin_unique hacyclic hkin hkin'
  rfl

theorem graded_down (hacyclic : Acyclic parent) :
    Graded (Down parent) s (DownGrade parent s) :=
  graded_of_ascending rfl (downGrade_unique hacyclic) downGrade_step

theorem graded_up (hacyclic : Acyclic parent) : Graded (Up parent) s (UpGrade parent s) :=
  graded_of_ascending rfl (upGrade_unique hacyclic) upGrade_step

/-- A step from a node that is reached `i` up and `j` down leads farther away, or back
by undoing the last step. -/
theorem either_step (hx : Kin parent s x i j) (hxy : Either parent x y) :
    (∃ i' j', i' + j' = i + j + 1 ∧ Kin parent s y i' j') ∨
      (∃ j', j = j' + 1 ∧ parent x = some y ∧ Kin parent s y i j') ∨
      ∃ i', i = i' + 1 ∧ j = 0 ∧ up parent i' s = some y := by
  rcases hxy with hdown | hup
  · by_cases hturn : ∃ i', i = i' + 1 ∧ j = 0 ∧ up parent i' s = some y
    · exact .inr (.inr hturn)
    · refine .inl ⟨i, j + 1, rfl, kin_child hx hdown fun i' hi hj hy => ?_⟩
      exact hturn ⟨i', hi, hj, hy⟩
  · cases j with
    | zero => exact .inl ⟨i + 1, 0, rfl, kin_parent_of_up hx hup⟩
    | succ j => exact .inr (.inl ⟨j, rfl, hup, kin_parent hx hup⟩)

theorem either_symm (h : Either parent x y) : Either parent y x := h.symm

/-- The step back is determined by the node. -/
theorem either_back (hacyclic : Acyclic parent) (hx : Kin parent s x i j)
    (hxy : Either parent x y) (hy : EitherGrade parent s y n) (hn : i + j = n + 1) :
    (∃ j', j = j' + 1 ∧ parent x = some y) ∨
      ∃ i', i = i' + 1 ∧ j = 0 ∧ up parent i' s = some y := by
  rcases either_step hx hxy with ⟨i', j', hsum, hkin⟩ | ⟨j', hj, hparent, -⟩ | hdown
  · have := eitherGrade_unique hacyclic ⟨i', j', rfl, hkin⟩ hy
    omega
  · exact .inl ⟨j', hj, hparent⟩
  · exact .inr hdown

theorem graded_either (hacyclic : Acyclic parent) :
    Graded (Either parent) s (EitherGrade parent s) where
  start := ⟨0, 0, rfl, kin_self⟩
  unique := eitherGrade_unique hacyclic
  step := by
    rintro x y n ⟨i, j, rfl, hkin⟩ hxy
    rcases either_step hkin hxy with ⟨i', j', hsum, hkin'⟩ | ⟨j', rfl, -, hkin'⟩ | ⟨i', rfl, rfl, hup⟩
    · exact .inl ⟨i', j', hsum, hkin'⟩
    · exact .inr ⟨i + j', rfl, i, j', rfl, hkin'⟩
    · exact .inr ⟨i', rfl, i', 0, rfl, kin_of_up hup⟩
  back := by
    rintro x y z n hy hyx ⟨i, j, hn, hkin⟩ hxz hz
    have hback := either_back hacyclic hkin (either_symm hyx) hy hn
    have hback' := either_back hacyclic hkin hxz hz hn
    rcases hback with ⟨j', rfl, hy⟩ | ⟨i', rfl, rfl, hy⟩
    · rcases hback' with ⟨_, _, hz⟩ | ⟨_, _, hj, _⟩
      · exact Option.some_inj.mp (hz.symm.trans hy)
      · exact absurd hj (Nat.succ_ne_zero _)
    · rcases hback' with ⟨_, hj, _⟩ | ⟨i'', hi, _, hz⟩
      · exact absurd hj (Nat.succ_ne_zero _).symm
      · obtain rfl := Nat.succ_inj.mp hi
        exact Option.some_inj.mp (hz.symm.trans hy)

end ForestWalk
