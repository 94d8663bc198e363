/-
A max-heap under a comparison, seen through the elements that it returns.

`popAt` takes out one element that no other exceeds.  Which of several such elements
comes first is left to the implementation, hence the index.

* `popAt_spec` — what is popped was there, the rest stays, and nothing left exceeds
  what is popped;
* `exists_popAt` — under a total preorder a heap that is not empty can be popped.
-/
import Mathlib.Data.List.Perm.Basic

namespace MaxHeap

variable {α : Type} {cmp : α → α → Ordering} {heap heap' : List α} {i : ℕ} {a : α}

/-- No element of the heap exceeds `a`. -/
def isTop (cmp : α → α → Ordering) (heap : List α) (a : α) : Bool :=
  heap.all fun b => (cmp b a).isLE

def popAt (cmp : α → α → Ordering) (heap : List α) (i : ℕ) : Option (α × List α) :=
  match heap[i]? with
  | some a => if isTop cmp heap a then some (a, heap.eraseIdx i) else none
  | none => none

theorem popAt_eq_some : popAt cmp heap i = some (a, heap') ↔
    heap[i]? = some a ∧ isTop cmp heap a = true ∧ heap.eraseIdx i = heap' := by
  rw [popAt]
  constructor
  · intro h
    split at h
    · rename_i b hb
      split at h
      · rename_i htop
        obtain ⟨rfl, rfl⟩ := Prod.mk.inj (Option.some_inj.mp h)
        exact ⟨hb, htop, rfl⟩
      · exact absurd h (by simp)
    · exact absurd h (by simp)
  · rintro ⟨ha, htop, rfl⟩
    simp [ha, htop]

theorem popAt_spec (h : popAt cmp heap i = some (a, heap')) :
    heap.Perm (a :: heap') ∧ ∀ b ∈ heap', (cmp b a).isLE = true := by
  obtain ⟨ha, htop, rfl⟩ := popAt_eq_some.mp h
  obtain ⟨hi, rfl⟩ := List.getElem?_eq_some_iff.mp ha
  refine ⟨(List.getElem_cons_eraseIdx_perm hi).symm, fun b hb => ?_⟩
  exact List.all_eq_true.mp htop b (List.mem_of_mem_eraseIdx hb)

/-- Of a list that is not empty, some element is exceeded by none. -/
theorem exists_isTop [Std.TransCmp cmp] (h : heap ≠ []) : ∃ a ∈ heap, isTop cmp heap a = true := by
  induction heap with
  | nil => exact absurd rfl h
  | cons b heap ih =>
    have hself : (cmp b b).isLE = true := Std.ReflCmp.isLE_rfl
    by_cases hheap : heap = []
    · subst hheap
      exact ⟨b, List.mem_singleton_self b, by simpa [isTop] using hself⟩
    · obtain ⟨a, ha, htop⟩ := ih hheap
      have hall := List.all_eq_true.mp htop
      -- the new element is below the old top or above everything
      by_cases hle : (cmp b a).isLE = true
      · refine ⟨a, List.mem_cons_of_mem _ ha, List.all_eq_true.mpr ?_⟩
        rw [List.forall_mem_cons]
        exact ⟨hle, hall⟩
      · have hab : (cmp a b).isLE = true := by
          rw [@Std.OrientedCmp.eq_swap _ cmp _ a b, Ordering.isLE_swap]
          cases hcmp : cmp b a <;> simp_all
        refine ⟨b, List.mem_cons_self, List.all_eq_true.mpr ?_⟩
        rw [List.forall_mem_cons]
        exact ⟨hself, fun c hc => Std.TransCmp.isLE_trans (hall c hc) hab⟩

theorem exists_popAt [Std.TransCmp cmp] (h : heap ≠ []) :
    ∃ i a heap', popAt cmp heap i = some (a, heap') := by
  obtain ⟨a, ha, htop⟩ := @exists_isTop _ cmp _ _ h
  obtain ⟨i, hi⟩ := List.mem_iff_getElem?.mp ha
  exact ⟨i, a, _, popAt_eq_some.mpr ⟨hi, htop, rfl⟩⟩

end MaxHeap
