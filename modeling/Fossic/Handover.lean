/-
Items that are decided on first and handed over later.

A thread decides on an item in one step and hands it over in another one; other threads do the
same in between.  When no item is decided on twice, each is handed over once at most
(`HandedOver.take`, `HandedOver.hand`), and so no more items are handed over than decided on
(`HandedOver.length_le`).
-/
import Mathlib.Data.List.Nodup
import Mathlib.Data.List.Perm.Subperm
import Mathlib.Logic.Function.Basic

namespace Handover

open Function

variable {β : Type*}

/-- What has been decided on has been handed over, or is held by one thread. -/
structure HandedOver (decided handed : List β) (held : ℕ → Option β) : Prop where
  mem : ∀ b, b ∈ decided ↔ b ∈ handed ∨ ∃ i, held i = some b
  pending : ∀ i b, held i = some b → b ∉ handed
  apart : ∀ i j b, held i = some b → held j = some b → i = j
  once : handed.Nodup

variable {decided handed : List β} {held : ℕ → Option β} {i j : ℕ} {b c : β} {o : Option β}

theorem handedOver_nil : HandedOver ([] : List β) [] fun _ => none where
  mem b := by simp
  pending i b h := absurd h (by simp)
  apart i j b h := absurd h (by simp)
  once := List.nodup_nil

theorem update_eq_some_iff :
    update held i o j = some c ↔ j = i ∧ o = some c ∨ j ≠ i ∧ held j = some c := by
  by_cases hij : j = i
  · subst hij
    simp [update_self]
  · simp [hij]

theorem HandedOver.subset (h : HandedOver decided handed held) : handed ⊆ decided := fun b hb =>
  (h.mem b).mpr (.inl hb)

/-- A thread without an item decides on a new one. -/
theorem HandedOver.take (h : HandedOver decided handed held) (hidle : held i = none)
    (hfresh : b ∉ decided) : HandedOver (decided ++ [b]) handed (update held i (some b)) where
  mem c := by
    rw [List.mem_append, h.mem, List.mem_singleton]
    constructor
    · rintro ((hhanded | ⟨j, hj⟩) | rfl)
      · exact .inl hhanded
      · refine .inr ⟨j, update_eq_some_iff.mpr (.inr ⟨?_, hj⟩)⟩
        rintro rfl
        exact absurd (hidle.symm.trans hj) (by simp)
      · exact .inr ⟨i, update_eq_some_iff.mpr (.inl ⟨rfl, rfl⟩)⟩
    · rintro (hhanded | ⟨j, hj⟩)
      · exact .inl (.inl hhanded)
      · rcases update_eq_some_iff.mp hj with ⟨-, hnew⟩ | ⟨-, hold⟩
        · exact .inr (Option.some_inj.mp hnew).symm
        · exact .inl (.inr ⟨j, hold⟩)
  pending j c hj := by
    rcases update_eq_some_iff.mp hj with ⟨-, hnew⟩ | ⟨-, hold⟩
    · obtain rfl := Option.some_inj.mp hnew
      exact fun hhanded => hfresh (h.subset hhanded)
    · exact h.pending j c hold
  apart j k c hj hk := by
    rcases update_eq_some_iff.mp hj with ⟨rfl, hnew⟩ | ⟨-, hold⟩ <;>
      rcases update_eq_some_iff.mp hk with ⟨rfl, hnew'⟩ | ⟨-, hold'⟩
    · rfl
    · obtain rfl := Option.some_inj.mp hnew
      exact absurd ((h.mem _).mpr (.inr ⟨k, hold'⟩)) hfresh
    · obtain rfl := Option.some_inj.mp hnew'
      exact absurd ((h.mem _).mpr (.inr ⟨j, hold⟩)) hfresh
    · exact h.apart j k c hold hold'
  once := h.once

/-- A thread hands its item over. -/
theorem HandedOver.hand (h : HandedOver decided handed held) (hheld : held i = some b) :
    HandedOver decided (handed ++ [b]) (update held i none) := by
  have hold : ∀ {j c}, update held i none j = some c → j ≠ i ∧ held j = some c := by
    intro j c hj
    rcases update_eq_some_iff.mp hj with ⟨-, hnone⟩ | hother
    · exact absurd hnone (by simp)
    · exact hother
  refine ⟨fun c => ?_, fun j c hj hhanded => ?_,
    fun j k c hj hk => h.apart j k c (hold hj).2 (hold hk).2, ?_⟩
  · rw [h.mem, List.mem_append, List.mem_singleton]
    constructor
    · rintro (hhanded | ⟨j, hj⟩)
      · exact .inl (.inl hhanded)
      · by_cases hij : j = i
        · subst hij
          exact .inl (.inr (Option.some_inj.mp (hj.symm.trans hheld)))
        · exact .inr ⟨j, update_eq_some_iff.mpr (.inr ⟨hij, hj⟩)⟩
    · rintro ((hhanded | rfl) | ⟨j, hj⟩)
      · exact .inl hhanded
      · exact .inr ⟨i, hheld⟩
      · exact .inr ⟨j, (hold hj).2⟩
  · rcases List.mem_append.mp hhanded with hhanded | hsingle
    · exact h.pending j c (hold hj).2 hhanded
    · obtain rfl := List.mem_singleton.mp hsingle
      exact (hold hj).1 (h.apart j i c (hold hj).2 hheld)
  · refine List.Nodup.append h.once (List.nodup_singleton _) ?_
    exact List.disjoint_singleton.mpr (h.pending i b hheld)

theorem HandedOver.length_le (h : HandedOver decided handed held) (p : β → Bool) :
    (handed.filter p).length ≤ (decided.filter p).length := by
  refine (List.Nodup.subperm (h.once.filter p) fun b hb => ?_).length_le
  obtain ⟨hmem, hp⟩ := List.mem_filter.mp hb
  exact List.mem_filter.mpr ⟨h.subset hmem, hp⟩

end Handover
