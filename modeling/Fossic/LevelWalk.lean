/-
Walking a graph level by level.

A level is what the level before is expanded to, without what was passed already and
cut to the first `cap` items.

* `levels_rest`, `levels_ended` — a walk can be interrupted after any level, if what
  was passed is remembered, and one that has ended stays as it is with more rounds;
* `found_forget` — what of it may be forgotten;
* `Graded` — steps that lead one grade away from the start, or back to the one
  node a grade below that they can come from, as in a tree;
* `levels_congr` — on a graded graph all that has to be remembered is the level
  before the last (`Covers`);
* `next_resume`, `levels_resume` — what becomes of a walk that remembers the last
  level alone.
-/
import Mathlib.Data.List.Basic
import Mathlib.Data.List.Nodup

namespace LevelWalk

/-! ### Levels -/

section Levels

variable {α ι ε : Type*}

/-- The first `cap` items of a level. -/
def sample (cap : Option ℕ) (level : List α) : List α := cap.elim level level.take

theorem sample_sublist {cap : Option ℕ} {level : List α} : (sample cap level).Sublist level := by
  cases cap with
  | none => exact .refl _
  | some n => exact List.take_sublist _ _

theorem take_filter {p : α → Bool} : ∀ {n : ℕ} {l : List α}, (∀ a ∈ l.take n, p a) →
    (l.filter p).take n = l.take n
  | 0, _, _ => rfl
  | _ + 1, [], _ => rfl
  | n + 1, a :: l, h => by
    rw [List.take_succ_cons] at h ⊢
    rw [List.filter_cons_of_pos (h a List.mem_cons_self), List.take_succ_cons,
      take_filter fun b hb => h b (List.mem_cons_of_mem a hb)]

/-- Items that would not be taken anyway can be left out before. -/
theorem sample_filter {cap : Option ℕ} {p : α → Bool} {level : List α}
    (h : ∀ a ∈ sample cap level, p a) : sample cap (level.filter p) = sample cap level := by
  cases cap with
  | none => exact List.filter_eq_self.mpr h
  | some n => exact take_filter h

/-- How a graph is walked: the nodes of its items, the items that a frontier of nodes
is expanded to, and how many of them a level takes. -/
structure Walk (α ι ε : Type*) where
  key : α → ι
  expand : List ι → Except ε (List α)
  cap : Option ℕ

variable {w : Walk α ι ε} {seen seen' frontier : List ι} {items level : List α}
  {page rest ls : List (List α)} {n m k : ℕ}

def Walk.keys (w : Walk α ι ε) (level : List α) : List ι := level.map w.key

/-- What has been passed after some levels, and the last of them. -/
def Walk.passed (w : Walk α ι ε) (seen : List ι) : List (List α) → List ι
  | [] => seen
  | level :: page => w.passed (seen ++ w.keys level) page

def Walk.front (w : Walk α ι ε) (frontier : List ι) : List (List α) → List ι
  | [] => frontier
  | level :: page => w.front (w.keys level) page

theorem front_append : w.front frontier (page ++ rest) = w.front (w.front frontier page) rest := by
  induction page generalizing frontier with
  | nil => rfl
  | cons level page ih => exact ih

theorem passed_append : w.passed seen (page ++ rest) = w.passed (w.passed seen page) rest := by
  induction page generalizing seen with
  | nil => rfl
  | cons level page ih => exact ih

theorem passed_eq : w.passed seen page = seen ++ w.keys page.flatten := by
  induction page generalizing seen with
  | nil => exact (List.append_nil seen).symm
  | cons level page ih =>
    rw [Walk.passed, ih, List.flatten_cons, Walk.keys, Walk.keys, Walk.keys, List.map_append,
      List.append_assoc]

theorem front_subset_passed (h : ∀ x ∈ frontier, x ∈ seen) :
    ∀ x ∈ w.front frontier page, x ∈ w.passed seen page := by
  induction page generalizing seen frontier with
  | nil => exact h
  | cons level page ih => exact ih fun x hx => List.mem_append_right _ hx

theorem map_eq_ok {β : Type*} {x : Except ε α} {f : α → β} {b : β} :
    x.map f = .ok b ↔ ∃ a, x = .ok a ∧ f a = b := by
  cases x with
  | error e => exact ⟨fun h => absurd h (by simp [Except.map]), fun ⟨_, h, _⟩ => absurd h (by simp)⟩
  | ok a => exact ⟨fun h => ⟨a, rfl, Except.ok.inj h⟩, fun ⟨_, h, hf⟩ => by rw [h, ← hf]; rfl⟩

theorem map_injective {β : Type*} {x y : Except ε α} {f : α → β}
    (hf : ∀ a a', f a = f a' → a = a') (h : x.map f = y.map f) : x = y := by
  cases x with
  | error e =>
    cases y with
    | error e' => exact congrArg Except.error (Except.error.inj h)
    | ok b => exact absurd h (by simp [Except.map])
  | ok a =>
    cases y with
    | error e' => exact absurd h (by simp [Except.map])
    | ok b => exact congrArg Except.ok (hf a b (Except.ok.inj h))

variable [DecidableEq ι]

/-- The level after a frontier. -/
def Walk.next (w : Walk α ι ε) (seen frontier : List ι) : Except ε (List α) :=
  (w.expand frontier).map fun items => sample w.cap (items.filter fun a => w.key a ∉ seen)

/-- The next `n` levels, or all that there are. -/
def Walk.levels (w : Walk α ι ε) : ℕ → List ι → List ι → Except ε (List (List α))
  | 0, _, _ => .ok []
  | n + 1, seen, frontier =>
    match w.next seen frontier with
    | .error e => .error e
    | .ok level =>
      if level.isEmpty then .ok []
      else (w.levels n (seen ++ w.keys level) (w.keys level)).map fun rest => level :: rest

theorem levels_zero : w.levels 0 seen frontier = .ok [] := rfl

theorem levels_of_error {e : ε} (h : w.next seen frontier = .error e) :
    w.levels (n + 1) seen frontier = .error e := by
  rw [Walk.levels, h]

theorem levels_of_nil (h : w.next seen frontier = .ok []) :
    w.levels (n + 1) seen frontier = .ok [] := by
  rw [Walk.levels, h]
  rfl

theorem levels_of_level (h : w.next seen frontier = .ok level) (hne : level ≠ []) :
    w.levels (n + 1) seen frontier =
      (w.levels n (seen ++ w.keys level) (w.keys level)).map fun rest => level :: rest := by
  rw [Walk.levels, h]
  exact if_neg (mt List.isEmpty_iff.mp hne)

/-- The first level of a walk. -/
theorem levels_cons (h : w.levels n seen frontier = .ok (level :: ls)) :
    ∃ m, n = m + 1 ∧ w.next seen frontier = .ok level ∧ level ≠ [] ∧
      w.levels m (seen ++ w.keys level) (w.keys level) = .ok ls := by
  cases n with
  | zero => exact absurd h (by simp [Walk.levels])
  | succ n =>
    rcases hnext : w.next seen frontier with e | level'
    · exact absurd h (by simp [levels_of_error hnext])
    · by_cases hne : level' = []
      · subst hne
        exact absurd h (by simp [levels_of_nil hnext])
      · rw [levels_of_level hnext hne] at h
        obtain ⟨rest, hrest, hcons⟩ := map_eq_ok.mp h
        obtain ⟨rfl, rfl⟩ := List.cons.inj hcons
        exact ⟨n, rfl, rfl, hne, hrest⟩

/-- A walk that finds no level has no rounds or nothing left. -/
theorem levels_nil (h : w.levels (n + 1) seen frontier = .ok []) :
    w.next seen frontier = .ok [] := by
  rcases hnext : w.next seen frontier with e | level
  · exact absurd h (by simp [levels_of_error hnext])
  · by_cases hne : level = []
    · rw [hne]
    · rw [levels_of_level hnext hne] at h
      obtain ⟨rest, -, hcons⟩ := map_eq_ok.mp h
      exact absurd hcons (List.cons_ne_nil _ _)

theorem length_levels_le (h : w.levels n seen frontier = .ok ls) : ls.length ≤ n := by
  induction ls generalizing n seen frontier with
  | nil => exact Nat.zero_le n
  | cons level ls ih =>
    obtain ⟨m, rfl, -, -, hrest⟩ := levels_cons h
    exact Nat.succ_le_succ (ih hrest)

/-- **Interruption**: the walk goes on from what was passed and the last level. -/
theorem levels_rest (h : w.levels n seen frontier = .ok (page ++ rest)) :
    w.levels (n - page.length) (w.passed seen page) (w.front frontier page) = .ok rest := by
  induction page generalizing n seen frontier with
  | nil => exact h
  | cons level page ih =>
    obtain ⟨m, rfl, -, -, hrest⟩ := levels_cons h
    rw [List.length_cons, Nat.succ_sub_succ]
    exact ih hrest

/-- What is found from there can be put after what was found before. -/
theorem levels_glue (h : w.levels n seen frontier = .ok (page ++ rest))
    (hrest : w.levels m (w.passed seen page) (w.front frontier page) = .ok ls) :
    w.levels (page.length + m) seen frontier = .ok (page ++ ls) := by
  induction page generalizing n seen frontier with
  | nil =>
    rw [List.length_nil, Nat.zero_add]
    exact hrest
  | cons level page ih =>
    obtain ⟨n, rfl, hnext, hne, htail⟩ := levels_cons h
    rw [List.length_cons, Nat.add_right_comm, levels_of_level hnext hne, ih htail hrest]
    rfl

/-- More rounds find more levels. -/
theorem levels_grow (h : w.levels n seen frontier = .ok ls)
    (h' : w.levels m seen frontier = .ok page) (hle : n ≤ m) : ∃ more, page = ls ++ more := by
  induction ls generalizing n m seen frontier page with
  | nil => exact ⟨page, rfl⟩
  | cons level ls ih =>
    obtain ⟨n, rfl, hnext, hne, hrest⟩ := levels_cons h
    obtain ⟨m, rfl⟩ := Nat.exists_eq_add_of_le' (Nat.le_trans (Nat.succ_le_succ n.zero_le) hle)
    rw [levels_of_level hnext hne] at h'
    obtain ⟨page', hrest', rfl⟩ := map_eq_ok.mp h'
    obtain ⟨more, rfl⟩ := ih hrest hrest' (Nat.le_of_succ_le_succ hle)
    exact ⟨more, rfl⟩

theorem levels_ne_nil (h : w.levels n seen frontier = .ok ls) : ∀ level ∈ ls, level ≠ [] := by
  induction ls generalizing n seen frontier with
  | nil => exact fun level hlevel => absurd hlevel List.not_mem_nil
  | cons level ls ih =>
    obtain ⟨m, rfl, -, hne, hrest⟩ := levels_cons h
    intro level' hlevel
    rcases List.mem_cons.mp hlevel with rfl | hlevel
    · exact hne
    · exact ih hrest level' hlevel

/-- A walk that had rounds to spare has ended. -/
theorem levels_ended (h : w.levels n seen frontier = .ok ls) (hspare : ls.length < n)
    (hm : ls.length < m) : w.levels m seen frontier = .ok ls := by
  induction ls generalizing n m seen frontier with
  | nil =>
    obtain ⟨n, rfl⟩ := Nat.exists_eq_add_of_lt hspare
    obtain ⟨m, rfl⟩ := Nat.exists_eq_add_of_lt hm
    exact levels_of_nil (levels_nil h)
  | cons level ls ih =>
    obtain ⟨n, rfl, hnext, hne, hrest⟩ := levels_cons h
    cases m with
    | zero => exact absurd hm (Nat.not_lt_zero _)
    | succ m =>
      rw [levels_of_level hnext hne,
        ih hrest (Nat.lt_of_succ_lt_succ hspare) (Nat.lt_of_succ_lt_succ hm)]
      rfl

/-- Rounds that found nothing can be left out. -/
theorem levels_shrink (h : w.levels n seen frontier = .ok ls) (hle : m ≤ n) (hm : ls.length ≤ m) :
    w.levels m seen frontier = .ok ls := by
  induction ls generalizing n m seen frontier with
  | nil =>
    cases m with
    | zero => rfl
    | succ m =>
      obtain ⟨n, rfl⟩ := Nat.exists_eq_add_of_le' (Nat.le_trans (Nat.succ_le_succ m.zero_le) hle)
      exact levels_of_nil (levels_nil h)
  | cons level ls ih =>
    obtain ⟨n, rfl, hnext, hne, hrest⟩ := levels_cons h
    cases m with
    | zero => exact absurd hm (Nat.not_succ_le_zero _)
    | succ m =>
      rw [levels_of_level hnext hne,
        ih hrest (Nat.le_of_succ_le_succ hle) (Nat.le_of_succ_le_succ hm)]
      rfl

/-- A walk that ends when it was interrupted ends when it was not. -/
theorem levels_ended_of_rest (h : w.levels n seen frontier = .ok (page ++ rest))
    (hrest : w.levels m (w.passed seen page) (w.front frontier page) = .ok rest)
    (hspare : rest.length < m) (hk : (page ++ rest).length < k) :
    w.levels k seen frontier = .ok (page ++ rest) := by
  refine levels_ended (levels_glue h hrest) ?_ hk
  rw [List.length_append]
  omega

theorem next_eq_ok (h : w.next seen frontier = .ok level) : ∃ items,
    w.expand frontier = .ok items ∧ sample w.cap (items.filter fun a => w.key a ∉ seen) = level :=
  map_eq_ok.mp h

theorem next_of_expand (h : w.expand frontier = .ok items) :
    w.next seen frontier = .ok (sample w.cap (items.filter fun a => w.key a ∉ seen)) := by
  rw [Walk.next, h]
  rfl

theorem next_of_error {e : ε} (h : w.expand frontier = .error e) :
    w.next seen frontier = .error e := by
  rw [Walk.next, h]
  rfl

theorem next_fresh (h : w.next seen frontier = .ok level) : ∀ a ∈ level, w.key a ∉ seen := by
  intro a ha
  obtain ⟨items, -, rfl⟩ := next_eq_ok h
  exact of_decide_eq_true (List.mem_filter.mp (sample_sublist.subset ha)).2

/-- A walk returns nothing that it was told to have passed. -/
theorem levels_fresh (h : w.levels n seen frontier = .ok ls) :
    ∀ a ∈ ls.flatten, w.key a ∉ seen := by
  induction ls generalizing n seen frontier with
  | nil => exact fun a ha => absurd ha List.not_mem_nil
  | cons level ls ih =>
    obtain ⟨m, rfl, hnext, -, hrest⟩ := levels_cons h
    intro a ha
    rcases List.mem_append.mp (List.flatten_cons ▸ ha) with ha | ha
    · exact next_fresh hnext a ha
    · exact fun hseen => ih hrest a ha (List.mem_append_left _ hseen)

/-! ### Walks that fail -/

/-- The levels that are found before the walk ends or fails. -/
def Walk.found (w : Walk α ι ε) : ℕ → List ι → List ι → List (List α)
  | 0, _, _ => []
  | n + 1, seen, frontier =>
    match w.next seen frontier with
    | .error _ => []
    | .ok level =>
      if level.isEmpty then [] else level :: w.found n (seen ++ w.keys level) (w.keys level)

theorem found_of_error {e : ε} (h : w.next seen frontier = .error e) :
    w.found (n + 1) seen frontier = [] := by
  rw [Walk.found, h]

theorem found_of_nil (h : w.next seen frontier = .ok []) : w.found (n + 1) seen frontier = [] := by
  rw [Walk.found, h]
  rfl

theorem found_of_level (h : w.next seen frontier = .ok level) (hne : level ≠ []) :
    w.found (n + 1) seen frontier = level :: w.found n (seen ++ w.keys level) (w.keys level) := by
  rw [Walk.found, h]
  exact if_neg (mt List.isEmpty_iff.mp hne)

/-- The first level that is found. -/
theorem found_cons (h : w.found n seen frontier = level :: ls) :
    ∃ m, n = m + 1 ∧ w.next seen frontier = .ok level ∧ level ≠ [] ∧
      w.found m (seen ++ w.keys level) (w.keys level) = ls := by
  cases n with
  | zero => exact absurd h (by simp [Walk.found])
  | succ n =>
    rw [Walk.found] at h
    split at h
    · exact absurd h (by simp)
    · rename_i level' hnext
      split at h
      · exact absurd h (by simp)
      · rename_i hne
        obtain ⟨rfl, rfl⟩ := List.cons.inj h
        exact ⟨n, rfl, hnext, fun hnil => hne (List.isEmpty_iff.mpr hnil), rfl⟩

theorem length_found_le (h : w.found n seen frontier = ls) : ls.length ≤ n := by
  induction ls generalizing n seen frontier with
  | nil => exact Nat.zero_le n
  | cons level ls ih =>
    obtain ⟨m, rfl, -, -, hrest⟩ := found_cons h
    exact Nat.succ_le_succ (ih hrest)

/-- A walk that succeeds finds its levels. -/
theorem found_of_levels (h : w.levels n seen frontier = .ok ls) : w.found n seen frontier = ls := by
  induction ls generalizing n seen frontier with
  | nil =>
    cases n with
    | zero => rfl
    | succ n => exact found_of_nil (levels_nil h)
  | cons level ls ih =>
    obtain ⟨n, rfl, hnext, hne, hrest⟩ := levels_cons h
    rw [found_of_level hnext hne, ih hrest]

/-- A walk that does not change with one round more does not change with many. -/
theorem found_ended (h : w.levels (n + 1) seen frontier = w.levels n seen frontier) (hle : n ≤ m) :
    w.found m seen frontier = w.found n seen frontier := by
  induction n generalizing m seen frontier with
  | zero =>
    cases m with
    | zero => rfl
    | succ m => exact found_of_nil (levels_nil h)
  | succ n ih =>
    obtain ⟨m, rfl⟩ := Nat.exists_eq_add_of_le' (Nat.le_trans (Nat.succ_le_succ n.zero_le) hle)
    rcases hnext : w.next seen frontier with e | level
    · rw [found_of_error hnext, found_of_error hnext]
    · by_cases hne : level = []
      · subst hne
        rw [found_of_nil hnext, found_of_nil hnext]
      · rw [levels_of_level hnext hne, levels_of_level hnext hne] at h
        have hsame := map_injective (fun _ _ hcons => (List.cons.inj hcons).2) h
        rw [found_of_level hnext hne, found_of_level hnext hne,
          ih hsame (Nat.le_of_succ_le_succ hle)]

/-- What was found can be walked. -/
theorem levels_of_found (h : w.found n seen frontier = page ++ rest) :
    w.levels page.length seen frontier = .ok page := by
  induction page generalizing n seen frontier with
  | nil => rfl
  | cons level page ih =>
    obtain ⟨m, rfl, hnext, hne, hrest⟩ := found_cons h
    rw [List.length_cons, levels_of_level hnext hne, ih hrest]
    rfl

/-- What is left can be found from what was passed and the last level. -/
theorem found_rest (h : w.found n seen frontier = page ++ rest) :
    w.found (n - page.length) (w.passed seen page) (w.front frontier page) = rest := by
  induction page generalizing n seen frontier with
  | nil => exact h
  | cons level page ih =>
    obtain ⟨m, rfl, -, -, hrest⟩ := found_cons h
    rw [List.length_cons, Nat.succ_sub_succ]
    exact ih hrest

/-- Forgetting what was passed does no harm as long as nothing forgotten is found again. -/
theorem found_forget (hsub : ∀ x ∈ seen', x ∈ seen)
    (hfound : w.found n seen frontier = ls)
    (hfresh : ∀ more rest level, ls = more ++ rest → more.length < n →
      w.next (w.passed seen' more) (w.front frontier more) = .ok level →
        ∀ a ∈ level, w.key a ∉ seen) :
    w.found n seen' frontier = ls := by
  induction n generalizing seen seen' frontier ls with
  | zero => exact hfound
  | succ n ih =>
    -- one level: none of the items that are taken was passed before
    have hsame : w.next seen' frontier = w.next seen frontier := by
      rcases hexpand : w.expand frontier with e | items
      · rw [next_of_error hexpand, next_of_error hexpand]
      · have htaken : ∀ a ∈ sample w.cap (items.filter fun a => w.key a ∉ seen'), w.key a ∉ seen :=
          hfresh [] ls _ rfl (Nat.succ_pos n) (next_of_expand hexpand)
        have hboth : (items.filter fun a => w.key a ∉ seen) =
            (items.filter fun a => w.key a ∉ seen').filter fun a => w.key a ∉ seen := by
          rw [List.filter_filter]
          refine List.filter_congr fun a _ => ?_
          rw [← Bool.decide_and, decide_eq_decide]
          exact ⟨fun ha => ⟨ha, fun ha' => ha (hsub _ ha')⟩, fun ha => ha.1⟩
        rw [next_of_expand hexpand, next_of_expand hexpand, hboth,
          sample_filter fun a ha => decide_eq_true (htaken a ha)]
    rw [Walk.found] at hfound ⊢
    rw [hsame]
    split at hfound
    · exact hfound
    · rename_i level hnext
      split at hfound
      · rename_i hnil
        rw [if_pos hnil]
        exact hfound
      · rename_i hne
        rw [if_neg hne]
        subst hfound
        have hsub' : ∀ x ∈ seen' ++ w.keys level, x ∈ seen ++ w.keys level := by
          intro x hx
          rcases List.mem_append.mp hx with hx | hx
          · exact List.mem_append_left _ (hsub x hx)
          · exact List.mem_append_right _ hx
        refine congrArg (level :: ·) (ih hsub' rfl ?_)
        intro more rest level' hsplit hmore hnext' a ha hseen
        rcases List.mem_append.mp hseen with hseen | hlevel
        · exact hfresh (level :: more) rest level' (congrArg (level :: ·) hsplit)
            (Nat.succ_lt_succ hmore) hnext' a ha hseen
        · refine next_fresh hnext' a ha ?_
          rw [passed_eq]
          exact List.mem_append_left _ (List.mem_append_right _ hlevel)

/-! ### No node twice -/

theorem next_nodup
    (hexpand : ∀ frontier items, w.expand frontier = .ok items → (w.keys items).Nodup)
    (h : w.next seen frontier = .ok level) : (w.keys level).Nodup := by
  obtain ⟨items, hitems, rfl⟩ := next_eq_ok h
  exact (hexpand _ _ hitems).sublist ((sample_sublist.trans List.filter_sublist).map _)

/-- It returns no node twice. -/
theorem levels_nodup
    (hexpand : ∀ frontier items, w.expand frontier = .ok items → (w.keys items).Nodup)
    (h : w.levels n seen frontier = .ok ls) : (w.keys ls.flatten).Nodup := by
  induction ls generalizing n seen frontier with
  | nil => exact List.nodup_nil
  | cons level ls ih =>
    obtain ⟨m, rfl, hnext, -, hrest⟩ := levels_cons h
    rw [List.flatten_cons, Walk.keys, List.map_append]
    refine List.nodup_append.mpr ⟨next_nodup hexpand hnext, ih hrest, ?_⟩
    intro x hx y hy hxy
    obtain ⟨a, ha, rfl⟩ := List.mem_map.mp hy
    exact levels_fresh hrest a ha (List.mem_append_right _ (hxy ▸ hx))

end Levels

/-! ### Graded graphs -/

/-- Steps lead from a grade to the next, or back to where they can come from.  The
start has grade 0. -/
structure Graded {ι : Type*} (adj : ι → ι → Prop) (s : ι) (grade : ι → ℕ → Prop) : Prop where
  start : grade s 0
  unique : ∀ {x m n}, grade x m → grade x n → m = n
  step : ∀ {x y n}, grade x n → adj x y → grade y (n + 1) ∨ ∃ m, n = m + 1 ∧ grade y m
  back : ∀ {x y z n}, grade y n → adj y x → grade x (n + 1) → adj x z → grade z n → z = y

/-- Steps that always lead away are graded. -/
theorem graded_of_ascending {ι : Type*} {adj : ι → ι → Prop} {s : ι} {grade : ι → ℕ → Prop}
    (start : grade s 0) (unique : ∀ {x m n}, grade x m → grade x n → m = n)
    (ascending : ∀ {x y n}, grade x n → adj x y → grade y (n + 1)) : Graded adj s grade where
  start := start
  unique := unique
  step hx hxy := .inl (ascending hx hxy)
  back := by
    intro x y z n _ _ hx hxz hz
    have := unique (ascending hx hxz) hz
    omega

section Graded

variable {α ι ε : Type*} {w : Walk α ι ε} {adj : ι → ι → Prop} {s : ι} {grade : ι → ℕ → Prop}
  {seen seen' frontier : List ι} {items level : List α} {page rest ls : List (List α)} {n m k : ℕ}

/-- What has to be remembered at a frontier of grade `n`. -/
structure Covers (adj : ι → ι → Prop) (grade : ι → ℕ → Prop) (seen frontier : List ι) (n : ℕ) :
    Prop where
  level : ∀ x ∈ frontier, grade x n
  self : ∀ x ∈ frontier, x ∈ seen
  below : ∀ x ∈ seen, ∃ m ≤ n, grade x m
  back : ∀ x ∈ frontier, ∀ y, adj x y → ∀ m, n = m + 1 → grade y m → y ∈ seen

theorem covers_start (hg : Graded adj s grade) : Covers adj grade [s] [s] 0 where
  level _ hx := List.mem_singleton.mp hx ▸ hg.start
  self _ hx := hx
  below _ hx := ⟨0, Nat.le_refl 0, List.mem_singleton.mp hx ▸ hg.start⟩
  back _ _ _ _ _ h := absurd h (Nat.succ_ne_zero _).symm

/-- A frontier is expanded along the steps. -/
def Walk.Follows (w : Walk α ι ε) (adj : ι → ι → Prop) : Prop :=
  ∀ frontier items, w.expand frontier = .ok items → ∀ a ∈ items, ∃ x ∈ frontier, adj x (w.key a)

/-- What a frontier is expanded to and was not passed is one grade farther away. -/
theorem Covers.seen_iff (hg : Graded adj s grade) (h : Covers adj grade seen frontier n) {x y : ι}
    (hx : x ∈ frontier) (hxy : adj x y) : y ∉ seen ↔ grade y (n + 1) := by
  constructor
  · intro hy
    rcases hg.step (h.level x hx) hxy with hup | ⟨m, rfl, hdown⟩
    · exact hup
    · exact absurd (h.back x hx y hxy m rfl hdown) hy
  · intro hy hseen
    obtain ⟨m, hm, hy'⟩ := h.below y hseen
    have := hg.unique hy hy'
    omega

variable [DecidableEq ι]

/-- The next level does not depend on what else is remembered. -/
theorem next_congr (hadj : w.Follows adj) (hg : Graded adj s grade)
    (h : Covers adj grade seen frontier n)
    (h' : Covers adj grade seen' frontier n) : w.next seen frontier = w.next seen' frontier := by
  rcases hexpand : w.expand frontier with e | items
  · rw [next_of_error hexpand, next_of_error hexpand]
  · rw [next_of_expand hexpand, next_of_expand hexpand]
    refine congrArg (fun l => Except.ok (sample w.cap l)) (List.filter_congr fun a ha => ?_)
    obtain ⟨x, hx, hxa⟩ := hadj frontier items hexpand a ha
    rw [decide_eq_decide, h.seen_iff hg hx hxa, h'.seen_iff hg hx hxa]

/-- **One level**: the next frontier is covered by the frontier before it. -/
theorem covers_next (hadj : w.Follows adj) (hg : Graded adj s grade)
    (h : Covers adj grade seen frontier n)
    (hnext : w.next seen frontier = .ok level) (hself : ∀ x ∈ frontier, x ∈ seen')
    (hbelow : ∀ x ∈ seen', ∃ m ≤ n, grade x m) :
    Covers adj grade (seen' ++ w.keys level) (w.keys level) (n + 1) := by
  have hstep : ∀ x ∈ w.keys level, (∃ p ∈ frontier, adj p x) ∧ grade x (n + 1) := by
    intro x hx
    obtain ⟨a, ha, rfl⟩ := List.mem_map.mp hx
    have hnew := next_fresh hnext a ha
    obtain ⟨items, hexpand, rfl⟩ := next_eq_ok hnext
    obtain ⟨p, hp, hpa⟩ := hadj frontier items hexpand a
      (List.mem_of_mem_filter (sample_sublist.subset ha))
    exact ⟨⟨p, hp, hpa⟩, (h.seen_iff hg hp hpa).mp hnew⟩
  refine ⟨fun x hx => (hstep x hx).2, fun x hx => List.mem_append_right _ hx, ?_, ?_⟩
  · intro x hx
    rcases List.mem_append.mp hx with hx | hx
    · obtain ⟨m, hm, hgrade⟩ := hbelow x hx
      exact ⟨m, Nat.le_succ_of_le hm, hgrade⟩
    · exact ⟨n + 1, Nat.le_refl _, (hstep x hx).2⟩
  · intro x hx y hxy m hm hy
    obtain rfl := Nat.succ_inj.mp hm
    obtain ⟨⟨p, hp, hpx⟩, hgrade⟩ := hstep x hx
    -- the only way back is the one it came by
    rw [hg.back (h.level p hp) hpx hgrade hxy hy]
    exact List.mem_append_left _ (hself p hp)

/-- **What has to be remembered**: two walks that cover the same frontier find the same
levels. -/
theorem levels_congr (hadj : w.Follows adj) (hg : Graded adj s grade)
    (h : Covers adj grade seen frontier n)
    (h' : Covers adj grade seen' frontier n) :
    w.levels k seen frontier = w.levels k seen' frontier := by
  induction k generalizing seen seen' frontier n with
  | zero => rfl
  | succ k ih =>
    have hsame := next_congr hadj hg h h'
    rw [Walk.levels, Walk.levels, ← hsame]
    split
    · rfl
    · rename_i level hnext
      split
      · rfl
      · rw [ih (covers_next hadj hg h hnext h.self h.below)
          (covers_next hadj hg h hnext h'.self h'.below)]

/-- A walk covers each of its frontiers. -/
theorem covers_front (hadj : w.Follows adj) (hg : Graded adj s grade)
    (h : Covers adj grade seen frontier n)
    (hlevels : w.levels k seen frontier = .ok (page ++ rest)) :
    Covers adj grade (w.passed seen page) (w.front frontier page) (n + page.length) := by
  induction page generalizing seen frontier n k with
  | nil => exact h
  | cons level page ih =>
    obtain ⟨k, rfl, hnext, -, hrest⟩ := levels_cons hlevels
    rw [List.length_cons, ← Nat.add_assoc, Nat.add_right_comm]
    exact ih (covers_next hadj hg h hnext h.self h.below) hrest

/-! ### Remembering the last level alone -/

/-- A walk that resumes from its last level takes the first items that the level is
expanded to, passed or not. -/
theorem next_resume (hadj : w.Follows adj) (hg : Graded adj s grade)
    (h : Covers adj grade seen frontier n)
    (hexpand : w.expand frontier = .ok items) :
    w.next frontier frontier = .ok (sample w.cap items) := by
  rw [next_of_expand hexpand, List.filter_eq_self.mpr]
  intro a ha
  obtain ⟨x, hx, hxa⟩ := hadj frontier items hexpand a ha
  refine decide_eq_true fun hfrontier => ?_
  have hgrade := h.level _ hfrontier
  rcases hg.step (h.level x hx) hxa with hup | ⟨m, rfl, hdown⟩
  · have := hg.unique hgrade hup
    omega
  · have := hg.unique hgrade hdown
    omega

/-- Where these were not passed, the walk goes on as if it had remembered all. -/
theorem levels_resume (hadj : w.Follows adj) (hg : Graded adj s grade)
    (h : Covers adj grade seen frontier n)
    (hturn : ∀ items, w.expand frontier = .ok items → ∀ a ∈ sample w.cap items, w.key a ∉ seen) :
    w.levels k frontier frontier = w.levels k seen frontier := by
  -- the first level is the same, since it does not turn back; the later ones never look back
  have hsame : w.next frontier frontier = w.next seen frontier := by
    rcases hexpand : w.expand frontier with e | items
    · rw [next_of_error hexpand, next_of_error hexpand]
    · rw [next_resume hadj hg h hexpand, next_of_expand hexpand, sample_filter]
      exact fun a ha => decide_eq_true (hturn items hexpand a ha)
  cases k with
  | zero => rfl
  | succ k =>
    rw [Walk.levels, Walk.levels, hsame]
    split
    · rfl
    · rename_i level hnext
      split
      · rfl
      · have hbelow : ∀ x ∈ frontier, ∃ m ≤ n, grade x m :=
          fun x hx => ⟨n, Nat.le_refl n, h.level x hx⟩
        rw [levels_congr hadj hg (covers_next hadj hg h hnext (fun _ hx => hx) hbelow)
          (covers_next hadj hg h hnext h.self h.below)]

end Graded

end LevelWalk
