/-
Delivery behind a high-water mark.

A consumer keeps the largest number accepted so far and accepts a number only
when it is above that mark.  `accept c l` are the numbers accepted from the list
`l` by a consumer that starts at `c`, and `mark c l` is where its mark ends up.

* `InOrder C base l` — above `base`, each number in `l` comes after all smaller
  numbers that meet `C`; `InOrderAfter C base seen l` is the same for arrivals that
  follow `seen`;
* `mem_accept_of_inOrder` — then nothing above `base` is lost.
-/
import Mathlib.Order.Lattice
import Mathlib.Data.List.Induction

namespace HighWater

variable {α : Type*} [LinearOrder α] {c base v w : α} {l l' : List α} {C C' : α → Prop}

def accept (c : α) : List α → List α
  | [] => []
  | v :: l => if c < v then v :: accept v l else accept c l

def mark (c : α) (l : List α) : α := l.foldl max c

theorem mark_append : mark c (l ++ [v]) = max (mark c l) v := by
  rw [mark, List.foldl_append]
  rfl

theorem accept_append :
    accept c (l ++ [v]) = if mark c l < v then accept c l ++ [v] else accept c l := by
  induction l generalizing c with
  | nil => rfl
  | cons w l ih =>
    rw [List.cons_append, accept, accept, mark, List.foldl_cons]
    by_cases hw : c < w
    · rw [if_pos hw, if_pos hw, ih, max_eq_right hw.le, mark]
      split <;> rfl
    · rw [if_neg hw, if_neg hw, ih, max_eq_left (not_lt.mp hw), mark]

theorem accept_sublist : (accept c l).Sublist l := by
  induction l generalizing c with
  | nil => exact .slnil
  | cons w l ih =>
    rw [accept]
    split
    · exact ih.cons_cons w
    · exact ih.cons w

/-- The mark is where it started or something that arrived. -/
theorem mark_cases : mark c l = c ∨ mark c l ∈ l := by
  induction l generalizing c with
  | nil => exact .inl rfl
  | cons w l ih =>
    rw [mark, List.foldl_cons]
    rcases ih (c := max c w) with h | h
    · rcases le_total c w with hcw | hcw
      · rw [max_eq_right hcw] at h ⊢
        exact .inr (List.mem_cons.mpr (.inl h))
      · rw [max_eq_left hcw] at h ⊢
        exact .inl h
    · exact .inr (List.mem_cons_of_mem _ h)

/-! ### Arrivals in order -/

/-- All numbers between `base` and `v` that meet `C` have been seen. -/
def Preceded (C : α → Prop) (base : α) (seen : List α) (v : α) : Prop :=
  base < v → ∀ u, base < u → u < v → C u → u ∈ seen

/-- Each number in `l` comes when all smaller ones have been seen or have come. -/
def InOrderAfter (C : α → Prop) (base : α) (seen l : List α) : Prop :=
  ∀ l₁ v l₂, l = l₁ ++ v :: l₂ → Preceded C base (seen ++ l₁) v

/-- Each arrival above `base` comes after all numbers between them that meet `C`. -/
def InOrder (C : α → Prop) (base : α) (l : List α) : Prop := InOrderAfter C base [] l

theorem Preceded.mono {seen seen' : List α} (h : Preceded C base seen v) (hseen : seen ⊆ seen') :
    Preceded C base seen' v :=
  fun hv u hu huv hC => hseen (h hv u hu huv hC)

section InOrderAfter

variable {seen seen' : List α}

theorem inOrderAfter_nil : InOrderAfter C base seen [] := by
  intro l₁ v l₂ h
  exact absurd h (by simp)

theorem InOrderAfter.mono_seen (h : InOrderAfter C base seen l) (hseen : seen ⊆ seen') :
    InOrderAfter C base seen' l := by
  intro l₁ v l₂ heq
  refine (h l₁ v l₂ heq).mono fun u hu => ?_
  rcases List.mem_append.mp hu with hu | hu
  · exact List.mem_append_left _ (hseen hu)
  · exact List.mem_append_right _ hu

theorem InOrderAfter.head (h : InOrderAfter C base seen (v :: l)) : Preceded C base seen v := by
  have hhead := h [] v l rfl
  rwa [List.append_nil] at hhead

theorem InOrderAfter.tail (h : InOrderAfter C base seen (v :: l)) :
    InOrderAfter C base (seen ++ [v]) l := by
  rintro l₁ w l₂ rfl
  have htail := h (v :: l₁) w l₂ rfl
  rwa [List.append_cons] at htail

/-- Numbers that come to meet `C` above everything that is to arrive leave the order
intact. -/
theorem InOrderAfter.mono (h : InOrderAfter C base seen l)
    (hC : ∀ u, C' u → C u ∨ ∀ v ∈ l, v < u) : InOrderAfter C' base seen l := by
  rintro l₁ v l₂ rfl hv u hu huv hCu
  rcases hC u hCu with hCu | habove
  · exact h l₁ v l₂ rfl hv u hu huv hCu
  · exact absurd huv (not_lt.mpr (habove v (by simp)).le)

theorem InOrderAfter.append (h : InOrderAfter C base seen l)
    (hv : Preceded C base (seen ++ l) v) : InOrderAfter C base seen (l ++ [v]) := by
  intro l₁ w l₂ heq
  rcases List.eq_nil_or_concat l₂ with rfl | ⟨l₃, x, rfl⟩
  · obtain ⟨rfl, hvw⟩ := List.append_inj' heq rfl
    obtain rfl : v = w := by simpa using hvw
    exact hv
  · refine h l₁ w l₃ ?_
    rw [List.concat_eq_append, ← List.cons_append, ← List.append_assoc] at heq
    exact (List.append_inj' heq rfl).1

/-- A sorted list that has every number above `m`, when those up to `m` have been
seen. -/
theorem inOrderAfter_of_sorted {m : α} (hsorted : l.Pairwise (· ≤ ·))
    (hseen : ∀ u, base < u → u ≤ m → C u → u ∈ seen) (hall : ∀ u, m < u → C u → u ∈ l) :
    InOrderAfter C base seen l := by
  rintro l₁ v l₂ rfl hv u hu huv hCu
  rcases le_or_gt u m with hum | hum
  · exact List.mem_append_left _ (hseen u hu hum hCu)
  · refine List.mem_append_right _ ?_
    rcases List.mem_append.mp (hall u hum hCu) with hmem | hmem
    · exact hmem
    · -- what follows `v` is not below it
      have hle : v ≤ u := by
        rcases List.mem_cons.mp hmem with rfl | hmem
        · exact le_rfl
        · exact (List.pairwise_cons.mp (List.pairwise_append.mp hsorted).2.1).1 u hmem
      exact absurd huv (not_lt.mpr hle)

end InOrderAfter

theorem inOrder_of_le (h : ∀ v ∈ l, v ≤ base) : InOrder C base l := by
  rintro l₁ v l₂ rfl hv
  exact absurd (h v (by simp)) (not_le.mpr hv)

theorem InOrder.left (h : InOrder C base (l ++ l')) : InOrder C base l := by
  rintro l₁ v l₂ rfl
  exact h l₁ v (l₂ ++ l') (by simp)

/-- Arrivals that are not above `base` can be forgotten. -/
theorem InOrder.right (hle : ∀ v ∈ l, v ≤ base) (h : InOrder C base (l ++ l')) :
    InOrder C base l' := by
  rintro l₁ v l₂ rfl hv u hu huv hC
  have hmem : u ∈ l ++ l₁ := h (l ++ l₁) v l₂ (by simp) hv u hu huv hC
  rcases List.mem_append.mp hmem with hmem | hmem
  · exact absurd hu (not_lt.mpr (hle u hmem))
  · exact hmem

/-- An arrival in order is preceded by what it must be preceded by. -/
theorem InOrder.mem_of_lt (h : InOrder C base l) (hv : v ∈ l) (hbv : base < v) {u : α}
    (hu : base < u) (huv : u < v) (hC : C u) : u ∈ l := by
  obtain ⟨l₁, l₂, rfl⟩ := List.append_of_mem hv
  exact List.mem_append_left _ (h l₁ v l₂ rfl hbv u hu huv hC)

/-- **Nothing is lost when arrivals are in order**: an arrival above `base` is
accepted, now or when it arrived before. -/
theorem mem_accept_of_inOrder (hc : c ≤ base) (hC : ∀ v ∈ l, base < v → C v)
    (h : InOrder C base l) (hv : v ∈ l) (hbv : base < v) : v ∈ accept c l := by
  induction l using List.reverseRecOn with
  | nil => exact absurd hv List.not_mem_nil
  | append_singleton l w ih =>
    have hold : v ∈ l → v ∈ accept c (l ++ [w]) := by
      intro hvl
      have hmem := ih (fun u hu => hC u (List.mem_append_left _ hu)) h.left hvl
      rw [accept_append]
      split
      · exact List.mem_append_left _ hmem
      · exact hmem
    rcases List.mem_append.mp hv with hvl | hvw
    · exact hold hvl
    · obtain rfl := List.mem_singleton.mp hvw
      by_cases hlt : mark c l < v
      · rw [accept_append, if_pos hlt]
        exact List.mem_append_right _ List.mem_cons_self
      · -- the mark has passed `v`, so `v` arrived before what raised it
        have hmark : mark c l ∈ l := by
          rcases mark_cases (c := c) (l := l) with hm | hm
          · exact absurd (hc.trans_lt hbv) (hm ▸ hlt)
          · exact hm
        rcases (not_lt.mp hlt).lt_or_eq with hvm | hvm
        · refine hold (h.left.mem_of_lt hmark (hbv.trans hvm) hbv hvm ?_)
          exact hC v (List.mem_append_right _ List.mem_cons_self) hbv
        · exact hold (hvm ▸ hmark)

end HighWater
