/-
Lists of times that keep a distance.

Whoever wants successive times to be `g` apart has to remember the last one only
(`spaced_concat`), and then no window has more of them than its length allows
(`Spaced.count_le`).
-/
import Mathlib.Data.List.Induction
import Mathlib.Algebra.Order.Ring.Int
import Mathlib.Tactic.Ring

namespace Spacing

/-- Each time is at least `g` after the ones before it. -/
def Spaced (g : ℤ) (l : List ℤ) : Prop := l.Pairwise fun t t' => t + g ≤ t'

variable {g t lo hi : ℤ} {l l' : List ℤ}

theorem Spaced.sublist (h : Spaced g l) (hsub : l'.Sublist l) : Spaced g l' :=
  List.Pairwise.sublist hsub h

theorem Spaced.nodup (h : Spaced g l) (hg : 0 < g) : l.Nodup :=
  h.imp fun hle => by omega

/-- The last time stands for all of them. -/
theorem spaced_concat (hg : 0 ≤ g) :
    Spaced g (l ++ [t]) ↔ Spaced g l ∧ ∀ last ∈ l.getLast?, last + g ≤ t := by
  rw [Spaced, List.pairwise_append]
  constructor
  · rintro ⟨hl, -, hle⟩
    exact ⟨hl, fun last hlast =>
      hle last (List.mem_of_getLast? hlast) t (List.mem_singleton_self t)⟩
  · rintro ⟨hl, hlast⟩
    refine ⟨hl, List.pairwise_singleton _ _, fun a ha b hb => ?_⟩
    obtain rfl := List.mem_singleton.mp hb
    cases l using List.reverseRecOn with
    | nil => exact absurd ha List.not_mem_nil
    | append_singleton l last =>
      have hle := hlast last List.getLast?_concat
      rcases List.mem_append.mp ha with ha | ha
      · have := (List.pairwise_append.mp hl).2.2 a ha last (List.mem_singleton_self last)
        omega
      · obtain rfl := List.mem_singleton.mp ha
        exact hle

/-- **A window bounds the count**: within `hi - lo` there is room for one time, and one more for
each `g`. -/
theorem Spaced.length_le (h : Spaced g l) (hne : l ≠ []) (hin : ∀ t ∈ l, lo ≤ t ∧ t ≤ hi) :
    (l.length - 1 : ℤ) * g ≤ hi - lo := by
  induction l generalizing lo with
  | nil => exact absurd rfl hne
  | cons t l ih =>
    obtain ⟨hlo, hhi⟩ := hin t List.mem_cons_self
    obtain ⟨hle, hl⟩ := List.pairwise_cons.mp h
    cases l with
    | nil =>
      show ((1 : ℕ) - 1 : ℤ) * g ≤ hi - lo
      simp only [Nat.cast_one, sub_self, zero_mul]
      omega
    | cons t' l =>
      -- the others are in the window that starts `g` later
      have hrest := @ih (t + g) hl (List.cons_ne_nil _ _) fun u hu =>
        ⟨hle u hu, (hin u (List.mem_cons_of_mem _ hu)).2⟩
      have hsum : ((t :: t' :: l).length - 1 : ℤ) * g = ((t' :: l).length - 1 : ℤ) * g + g := by
        simp only [List.length_cons, Nat.cast_add, Nat.cast_one]
        ring
      omega

/-- No window has more than one time, and one more for each full `g`. -/
theorem Spaced.count_le (h : Spaced g l) (hg : 0 < g) (hle : lo ≤ hi) :
    ((l.filter fun t => lo ≤ t ∧ t ≤ hi).length : ℤ) ≤ (hi - lo) / g + 1 := by
  have hspaced : Spaced g (l.filter fun t => lo ≤ t ∧ t ≤ hi) := h.sublist List.filter_sublist
  by_cases hne : (l.filter fun t => lo ≤ t ∧ t ≤ hi) = []
  · rw [hne]
    have hzero : 0 ≤ (hi - lo) / g := Int.ediv_nonneg (by omega) (by omega)
    show ((0 : ℕ) : ℤ) ≤ _
    omega
  · have hbound := hspaced.length_le hne fun t ht => by
      obtain ⟨-, hin⟩ := List.mem_filter.mp ht
      exact of_decide_eq_true hin
    have hdiv := Int.le_ediv_of_mul_le hg hbound
    omega

end Spacing
