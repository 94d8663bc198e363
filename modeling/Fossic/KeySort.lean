/-
Sorting a list by a key.

`sortBy f l` is the stable sort of `l` by the key `f`, structurally recursive so
that it computes.  The facts used downstream:

* `sortBy_perm`, `sortBy_sorted` — it permutes and it sorts;
* `sortBy_eq_of_perm` — with distinct keys the order of the input is forgotten;
* `sortBy_filter`, `sortBy_filter_key` — it commutes with filtering, and it is stable;
* `sortBy_append_of_lt` — with distinct keys, how it meets appending.
-/
import Mathlib.Data.List.Sort

namespace KeySort

variable {α β κ : Type*} [LinearOrder κ] {f : α → κ} {l l' : List α}

/-- Stable sort by the key `f`. -/
def sortBy (f : α → κ) (l : List α) : List α :=
  l.insertionSort fun a b => f a ≤ f b

theorem sortBy_perm (f : α → κ) (l : List α) : (sortBy f l).Perm l :=
  List.perm_insertionSort _ l

@[simp] theorem mem_sortBy {a : α} : a ∈ sortBy f l ↔ a ∈ l :=
  (sortBy_perm f l).mem_iff

@[simp] theorem length_sortBy : (sortBy f l).length = l.length :=
  (sortBy_perm f l).length_eq

theorem sortBy_sorted (f : α → κ) (l : List α) :
    (sortBy f l).Pairwise fun a b => f a ≤ f b := by
  have : Std.Total fun a b : α => f a ≤ f b := ⟨fun a b => le_total (f a) (f b)⟩
  have : IsTrans α fun a b : α => f a ≤ f b := ⟨fun _ _ _ => le_trans⟩
  exact List.pairwise_insertionSort _ l

/-- Distinct keys come out in strictly increasing order. -/
theorem sortBy_strict (h : (l.map f).Nodup) :
    (sortBy f l).Pairwise fun a b => f a < f b := by
  have hne : (sortBy f l).Pairwise fun a b => f a ≠ f b := by
    rw [← List.pairwise_map]
    exact ((sortBy_perm f l).map f).nodup_iff.mpr h
  exact ((sortBy_sorted f l).and hne).imp fun h => lt_of_le_of_ne h.1 h.2

/-- Two arrangements of the same elements in strict key order coincide. -/
theorem eq_of_strict_of_perm (hl : l.Pairwise fun a b => f a < f b)
    (hl' : l'.Pairwise fun a b => f a < f b) (h : l.Perm l') : l = l' :=
  h.eq_of_pairwise (fun _ _ _ _ hab hba => absurd (hab.trans hba) (lt_irrefl _)) hl hl'

/-- Sorting by distinct keys forgets the order of the input. -/
theorem sortBy_eq_of_perm (hnd : (l.map f).Nodup) (h : l.Perm l') :
    sortBy f l = sortBy f l' := by
  have hnd' : (l'.map f).Nodup := (h.map f).nodup_iff.mp hnd
  exact eq_of_strict_of_perm (sortBy_strict hnd) (sortBy_strict hnd')
    ((sortBy_perm f l).trans (h.trans (sortBy_perm f l').symm))

/-- An item with the largest key goes to the end. -/
theorem sortBy_append_of_lt {a : α} (hnd : (l.map f).Nodup) (h : ∀ x ∈ l, f x < f a) :
    sortBy f (l ++ [a]) = sortBy f l ++ [a] := by
  have hmap : ((l ++ [a]).map f).Nodup := by
    rw [List.map_append, List.nodup_append]
    refine ⟨hnd, List.nodup_singleton _, fun x hx y hy => ?_⟩
    obtain ⟨c, hc, rfl⟩ := List.mem_map.mp hx
    rw [List.mem_singleton.mp hy]
    exact (h c hc).ne
  refine eq_of_strict_of_perm (sortBy_strict hmap) ?_
    ((sortBy_perm f _).trans ((sortBy_perm f l).symm.append_right [a]))
  refine List.pairwise_append.mpr ⟨sortBy_strict hnd, List.pairwise_singleton _ _, ?_⟩
  intro x hx y hy
  rw [List.mem_singleton.mp hy]
  exact h x (mem_sortBy.mp hx)

/-- What is left of a sorted list into which an item was inserted. -/
theorem filter_orderedInsert {p : α → Bool} {a : α} (hs : l.Pairwise fun a b => f a ≤ f b) :
    (l.orderedInsert (fun a b => f a ≤ f b) a).filter p =
      if p a then (l.filter p).orderedInsert (fun a b => f a ≤ f b) a else l.filter p := by
  induction l with
  | nil => exact List.filter_cons
  | cons b l ih =>
    obtain ⟨hb, hl⟩ := List.pairwise_cons.mp hs
    rw [List.orderedInsert_cons]
    split
    · rename_i hab
      rw [List.filter_cons]
      split
      · -- the item comes first also among those that are kept
        rcases hkept : (b :: l).filter p with _ | ⟨c, kept⟩
        · rfl
        · have hc : c ∈ b :: l := List.mem_of_mem_filter (hkept ▸ List.mem_cons_self)
          have hac : f a ≤ f c := by
            rcases List.mem_cons.mp hc with rfl | hc
            · exact hab
            · exact hab.trans (hb c hc)
          exact (List.orderedInsert_cons_of_le (fun a b => f a ≤ f b) kept hac).symm
      · rfl
    · rename_i hab
      rw [List.filter_cons, List.filter_cons, ih hl]
      by_cases hkeep : p b = true
      · rw [if_pos hkeep, if_pos hkeep]
        split
        · exact (List.orderedInsert_of_not_le (fun a b => f a ≤ f b) _ hab).symm
        · rfl
      · rw [if_neg hkeep, if_neg hkeep]

/-- Sorting commutes with filtering. -/
theorem sortBy_filter {p : α → Bool} : sortBy f (l.filter p) = (sortBy f l).filter p := by
  induction l with
  | nil => rfl
  | cons a l ih =>
    have hcons : ∀ l : List α, sortBy f (a :: l) =
        (sortBy f l).orderedInsert (fun a b => f a ≤ f b) a := fun _ => rfl
    rw [hcons, filter_orderedInsert (sortBy_sorted f l), ← ih, List.filter_cons]
    split
    · rw [hcons]
    · rfl

/-- Stability: the items of a key stay in order. -/
theorem sortBy_filter_key (k : κ) :
    (sortBy f l).filter (fun a => f a = k) = l.filter fun a => f a = k := by
  rw [← sortBy_filter]
  refine List.Pairwise.insertionSort_eq (List.pairwise_of_forall_mem_list fun a ha b hb => ?_)
  rw [of_decide_eq_true (List.mem_filter.mp ha).2, of_decide_eq_true (List.mem_filter.mp hb).2]

/-- A list in key order in which no two neighbours share a key has distinct
keys. -/
theorem strict_of_sorted_of_neighbours (hs : l.Pairwise fun a b => f a ≤ f b)
    (hn : l.IsChain fun a b => f a ≠ f b) : l.Pairwise fun a b => f a < f b := by
  have htrans : Trans (fun a b : α => f a < f b) (fun a b : α => f a < f b)
      (fun a b : α => f a < f b) := ⟨lt_trans⟩
  refine List.isChain_iff_pairwise.mp ?_
  induction l with
  | nil => exact .nil
  | cons x l ih =>
    rcases l with _ | ⟨y, l⟩
    · exact .singleton _
    · obtain ⟨hx, hs⟩ := List.pairwise_cons.mp hs
      rw [List.isChain_cons_cons] at hn ⊢
      exact ⟨lt_of_le_of_ne (hx y List.mem_cons_self) hn.1, ih hs hn.2⟩

end KeySort
