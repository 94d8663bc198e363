/-
Scanning a list for the best element that meets a condition.

`scan p score l` keeps the first element with the largest score among those that
meet `p`.  When no two of them tie, the result is the one with the largest score
(`bests_eq_scan`), so it does not depend on the order of the list (`scan_perm`); in any case it
is the first of the best (`scan_split`).
-/
import Mathlib.Data.List.Induction
import Mathlib.Data.List.Pairwise
import Mathlib.Order.Lattice

namespace BestScan

variable {α β : Type} [LinearOrder β]

/-- One element: it replaces the best one so far when it meets `p` and scores
higher. -/
def better (p : α → Bool) (score : α → β) (best : Option α) (a : α) : Option α :=
  if p a && best.all fun b => score b < score a then some a else best

def scan (p : α → Bool) (score : α → β) (l : List α) : Option α := l.foldl (better p score) none

/-- The elements that meet `p` with the largest score of all that do. -/
def bests (p : α → Bool) (score : α → β) (l : List α) : List α :=
  l.filter fun a => p a && l.all fun b => !p b || score b ≤ score a

/-- No two elements that meet `p` have the same score. -/
def Untied (p : α → Bool) (score : α → β) (l : List α) : Prop :=
  l.Pairwise fun a b => ¬(p a = true ∧ p b = true ∧ score a = score b)

variable {p : α → Bool} {score : α → β} {l l' : List α} {a : α} {best : Option α}

theorem foldl_better_mem (h : l.foldl (better p score) best = some a) :
    best = some a ∨ (a ∈ l ∧ p a = true) := by
  induction l generalizing best with
  | nil => exact .inl h
  | cons b l ih =>
    rw [List.foldl_cons] at h
    rcases ih h with hbest | ⟨hmem, hp⟩
    · rw [better] at hbest
      split at hbest
      · rename_i hif
        obtain rfl := Option.some_inj.mp hbest
        exact .inr ⟨List.mem_cons_self, (Bool.and_eq_true_iff.mp hif).1⟩
      · exact .inl hbest
    · exact .inr ⟨List.mem_cons_of_mem _ hmem, hp⟩

/-- The scan ends at least as high as where it starts and as everything it meets. -/
theorem foldl_better_le : (∀ b, best = some b → ∃ a, l.foldl (better p score) best = some a ∧
      score b ≤ score a) ∧
    ∀ b ∈ l, p b = true → ∃ a, l.foldl (better p score) best = some a ∧ score b ≤ score a := by
  induction l generalizing best with
  | nil => exact ⟨fun b hb => ⟨b, hb, le_rfl⟩, fun b hb => absurd hb List.not_mem_nil⟩
  | cons c l ih =>
    obtain ⟨hseed, hmem⟩ := @ih (better p score best c)
    rw [List.foldl_cons]
    have hkept : ∀ b, best = some b → ∃ b', better p score best c = some b' ∧
        score b ≤ score b' := by
      rintro b rfl
      rw [better]
      split
      · rename_i hif
        exact ⟨c, rfl, (of_decide_eq_true (Bool.and_eq_true_iff.mp hif).2).le⟩
      · exact ⟨b, rfl, le_rfl⟩
    have htaken : p c = true → ∃ b', better p score best c = some b' ∧ score c ≤ score b' := by
      intro hc
      rw [better, hc, Bool.true_and]
      split
      · exact ⟨c, rfl, le_rfl⟩
      · rename_i hif
        rcases best with _ | b
        · exact absurd rfl hif
        · exact ⟨b, rfl, not_lt.mp fun hlt => hif (decide_eq_true hlt)⟩
    refine ⟨fun b hb => ?_, fun b hb hpb => ?_⟩
    · obtain ⟨b', hb', hle⟩ := hkept b hb
      obtain ⟨a, ha, hle'⟩ := hseed b' hb'
      exact ⟨a, ha, hle.trans hle'⟩
    · rcases List.mem_cons.mp hb with rfl | hb
      · obtain ⟨b', hb', hle⟩ := htaken hpb
        obtain ⟨a, ha, hle'⟩ := hseed b' hb'
        exact ⟨a, ha, hle.trans hle'⟩
      · exact hmem b hb hpb

theorem scan_mem (h : scan p score l = some a) : a ∈ l ∧ p a = true := by
  rcases foldl_better_mem h with hnone | hmem
  · exact absurd hnone (by simp)
  · exact hmem

theorem score_le_scan (h : scan p score l = some a) :
    ∀ b ∈ l, p b = true → score b ≤ score a := by
  intro b hb hpb
  obtain ⟨a', ha', hle⟩ := (@foldl_better_le α β _ p score l none).2 b hb hpb
  obtain rfl := Option.some_inj.mp (h.symm.trans ha')
  exact hle

/-- The scan is empty-handed exactly when nothing meets `p`. -/
theorem scan_eq_none : scan p score l = none ↔ ∀ a ∈ l, p a = false := by
  constructor
  · intro h a ha
    by_contra hp
    obtain ⟨b, hb, -⟩ := (@foldl_better_le α β _ p score l none).2 a ha (by simpa using hp)
    exact absurd (h.symm.trans hb) (by simp)
  · intro h
    rcases hscan : scan p score l with _ | a
    · rfl
    · obtain ⟨ha, hp⟩ := scan_mem hscan
      exact absurd hp (by simp [h a ha])

/-- **Among ties the scan keeps the first**: what comes before scores less, what comes after
no more. -/
theorem scan_split (h : scan p score l = some a) : ∃ front back, l = front ++ a :: back ∧
    p a = true ∧ (∀ b ∈ front, p b = true → score b < score a) ∧
      ∀ b ∈ back, p b = true → score b ≤ score a := by
  induction l using List.reverseRecOn with
  | nil => exact absurd h (by simp [scan])
  | append_singleton l c ih =>
    have hlast : better p score (scan p score l) c = some a := by
      rw [scan, List.foldl_append] at h
      exact h
    rw [better] at hlast
    split at hlast
    · rename_i hif
      obtain rfl := Option.some_inj.mp hlast
      obtain ⟨hp, hbetter⟩ := Bool.and_eq_true_iff.mp hif
      refine ⟨l, [], rfl, hp, fun b hb hpb => ?_, fun b hb => absurd hb List.not_mem_nil⟩
      obtain ⟨best, hbest⟩ : ∃ best, scan p score l = some best := by
        refine Option.ne_none_iff_exists'.mp fun hnone => ?_
        exact absurd hpb (by simp [scan_eq_none.mp hnone b hb])
      rw [hbest] at hbetter
      exact (score_le_scan hbest b hb hpb).trans_lt (of_decide_eq_true hbetter)
    · rename_i hif
      obtain ⟨front, back, rfl, hp, hfront, hback⟩ := ih hlast
      refine ⟨front, back ++ [c], by simp, hp, hfront, fun b hb hpb => ?_⟩
      rcases List.mem_append.mp hb with hb | hb
      · exact hback b hb hpb
      · obtain rfl := List.mem_singleton.mp hb
        rw [hlast, hpb, Bool.true_and] at hif
        exact not_lt.mp fun hlt => hif (decide_eq_true hlt)

omit [LinearOrder β] in
/-- Elements that do not tie, one score belonging to one of them. -/
theorem Untied.eq_of_score (huntied : Untied p score l) {a b : α} (ha : a ∈ l) (hb : b ∈ l)
    (hpa : p a = true) (hpb : p b = true) (hscore : score a = score b) : a = b := by
  by_contra hne
  have : Std.Symm fun a b => ¬(p a = true ∧ p b = true ∧ score a = score b) :=
    ⟨fun _ _ h h' => h ⟨h'.2.1, h'.1, h'.2.2.symm⟩⟩
  exact List.Pairwise.forall huntied ha hb hne ⟨hpa, hpb, hscore⟩

/-- **What the scan finds**: without ties, the element that scores highest. -/
theorem scan_eq_some_iff (huntied : Untied p score l) : scan p score l = some a ↔
    a ∈ l ∧ p a = true ∧ ∀ b ∈ l, p b = true → score b ≤ score a := by
  constructor
  · intro h
    obtain ⟨ha, hpa⟩ := scan_mem h
    exact ⟨ha, hpa, score_le_scan h⟩
  · rintro ⟨ha, hpa, hbest⟩
    obtain ⟨b, hb, hle⟩ := (@foldl_better_le α β _ p score l none).2 a ha hpa
    obtain ⟨hmem, hpb⟩ := scan_mem hb
    obtain rfl := huntied.eq_of_score ha hmem hpa hpb (le_antisymm hle (hbest b hmem hpb))
    exact hb

theorem mem_bests : a ∈ bests p score l ↔
    a ∈ l ∧ p a = true ∧ ∀ b ∈ l, p b = true → score b ≤ score a := by
  simp only [bests, List.mem_filter, Bool.and_eq_true, List.all_eq_true, Bool.or_eq_true,
    Bool.not_eq_true', decide_eq_true_eq, ← Bool.not_eq_true, ← imp_iff_not_or]

/-- Without ties there is at most one best element, and the scan finds it. -/
theorem bests_eq_scan (huntied : Untied p score l) :
    bests p score l = (scan p score l).toList := by
  have hmem : ∀ a, a ∈ bests p score l ↔ scan p score l = some a := fun a =>
    mem_bests.trans (scan_eq_some_iff huntied).symm
  rcases hbests : bests p score l with _ | ⟨a, _ | ⟨b, rest⟩⟩
  · rcases hscan : scan p score l with _ | a
    · rfl
    · exact absurd ((hmem a).mpr hscan) (hbests ▸ List.not_mem_nil)
  · rw [(hmem a).mp (hbests ▸ List.mem_cons_self)]
    rfl
  · -- two best elements would score the same
    have ha := (hmem a).mp (hbests ▸ List.mem_cons_self)
    have hb := (hmem b).mp (hbests ▸ List.mem_cons_of_mem _ List.mem_cons_self)
    obtain rfl := Option.some_inj.mp (ha.symm.trans hb)
    have hpair : Untied p score (a :: a :: rest) := by
      rw [← hbests]
      exact huntied.sublist List.filter_sublist
    exact absurd ⟨(scan_mem ha).2, (scan_mem ha).2, rfl⟩
      ((List.pairwise_cons.mp hpair).1 a List.mem_cons_self)

omit [LinearOrder β] in
theorem Untied.perm (h : Untied p score l) (hperm : l'.Perm l) : Untied p score l' := by
  refine hperm.symm.pairwise h fun h h' => h ⟨h'.2.1, h'.1, h'.2.2.symm⟩

/-- Without ties the order of the list does not matter. -/
theorem scan_perm (huntied : Untied p score l) (hperm : l'.Perm l) :
    scan p score l' = scan p score l := by
  refine Option.ext fun a => ?_
  rw [scan_eq_some_iff huntied, scan_eq_some_iff (huntied.perm hperm), hperm.mem_iff]
  simp only [hperm.mem_iff]

/-- Scanning an image. -/
theorem scan_map {γ : Type} {f : γ → α} (l : List γ) :
    scan p score (l.map f) = (scan (p ∘ f) (score ∘ f) l).map f := by
  have hstep : ∀ (best : Option γ) (c : γ), better p score (best.map f) (f c) =
      (better (p ∘ f) (score ∘ f) best c).map f := by
    intro best c
    rw [better, better, Option.all_map, apply_ite (Option.map f)]
    rfl
  have hfold : ∀ (l : List γ) (best : Option γ), (l.map f).foldl (better p score) (best.map f) =
      (l.foldl (better (p ∘ f) (score ∘ f)) best).map f := by
    intro l
    induction l with
    | nil => exact fun best => rfl
    | cons c l ih =>
      intro best
      rw [List.map_cons, List.foldl_cons, List.foldl_cons, hstep, ih]
  exact hfold l none

end BestScan
