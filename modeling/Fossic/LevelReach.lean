/-
What a walk by levels finds when it takes every item.

* `Reach` — the nodes at the end of a way along stored nodes that leads away from the
  start with every step;
* `mem_levels` — the walk finds exactly the items that are reached;
* `exists_levels_iff` — where an expansion fails on frontiers that are too wide, the
  walk succeeds exactly if none of them is.
-/
import Fossic.LevelWalk

namespace LevelWalk

variable {α ι ε : Type*} {w : Walk α ι ε} {adj : ι → ι → Prop} {s : ι} {grade : ι → ℕ → Prop}
  {seen frontier : List ι} {items level : List α} {ls : List (List α)} {n m k : ℕ}

/-- The stored nodes at the end of a way of `n` steps along stored nodes, each one grade
farther from the start. -/
def Reach (adj : ι → ι → Prop) (grade : ι → ℕ → Prop) (stored : ι → Prop) (s : ι) :
    ℕ → ι → Prop
  | 0, x => x = s
  | n + 1, x => stored x ∧ grade x (n + 1) ∧ ∃ y, Reach adj grade stored s n y ∧ adj y x

variable {stored : ι → Prop} {all : List α} {gen : ℕ → List ι}

/-- Where nothing is reached, nothing is reached farther away. -/
theorem reach_none (h : ∀ x, ¬Reach adj grade stored s n x) :
    ∀ x, ¬Reach adj grade stored s (n + k) x := by
  induction k with
  | zero => exact h
  | succ k ih =>
    rintro x ⟨-, -, y, hy, -⟩
    exact ih y hy

/-- A frontier is expanded to all the stored neighbours. -/
def Walk.Exact (w : Walk α ι ε) (adj : ι → ι → Prop) (all : List α) : Prop :=
  ∀ frontier items, w.expand frontier = .ok items →
    ∀ a, a ∈ items ↔ a ∈ all ∧ ∃ x ∈ frontier, adj x (w.key a)

theorem Walk.Exact.follows (h : w.Exact adj all) : w.Follows adj :=
  fun frontier items hexpand a ha => ((h frontier items hexpand a).mp ha).2

variable [DecidableEq ι]

theorem mem_next (hexact : w.Exact adj all) (hcap : w.cap = none) (hg : Graded adj s grade)
    (h : Covers adj grade seen frontier n) (hnext : w.next seen frontier = .ok level) (a : α) :
    a ∈ level ↔ a ∈ all ∧ grade (w.key a) (n + 1) ∧ ∃ x ∈ frontier, adj x (w.key a) := by
  obtain ⟨items, hexpand, rfl⟩ := next_eq_ok hnext
  rw [hcap]
  show a ∈ items.filter _ ↔ _
  rw [List.mem_filter, hexact frontier items hexpand, decide_eq_true_iff, and_assoc]
  refine and_congr_right fun _ => ?_
  constructor
  · rintro ⟨⟨x, hx, hxa⟩, hnew⟩
    exact ⟨(h.seen_iff hg hx hxa).mp hnew, x, hx, hxa⟩
  · rintro ⟨hgrade, x, hx, hxa⟩
    exact ⟨⟨x, hx, hxa⟩, (h.seen_iff hg hx hxa).mpr hgrade⟩

/-- The next frontier is what is reached with one more step. -/
theorem reach_next (hexact : w.Exact adj all) (hcap : w.cap = none) (hg : Graded adj s grade)
    (h : Covers adj grade seen frontier n)
    (hfrontier : ∀ x, x ∈ frontier ↔ Reach adj grade (· ∈ w.keys all) s n x)
    (hnext : w.next seen frontier = .ok level) (x : ι) :
    x ∈ w.keys level ↔ Reach adj grade (· ∈ w.keys all) s (n + 1) x := by
  have hmem := mem_next hexact hcap hg h hnext
  constructor
  · intro hx
    obtain ⟨a, ha, rfl⟩ := List.mem_map.mp hx
    obtain ⟨hall, hgrade, y, hy, hya⟩ := (hmem a).mp ha
    exact ⟨List.mem_map_of_mem hall, hgrade, y, (hfrontier y).mp hy, hya⟩
  · rintro ⟨hstored, hgrade, y, hy, hyx⟩
    obtain ⟨a, hall, rfl⟩ := List.mem_map.mp hstored
    exact List.mem_map_of_mem ((hmem a).mpr ⟨hall, hgrade, y, (hfrontier y).mpr hy, hyx⟩)

/-- **What is found**: the items that are reached. -/
theorem mem_levels (hexact : w.Exact adj all) (hcap : w.cap = none)
    (hall : (w.keys all).Nodup) (hg : Graded adj s grade) (h : Covers adj grade seen frontier n)
    (hfrontier : ∀ x, x ∈ frontier ↔ Reach adj grade (· ∈ w.keys all) s n x)
    (hlevels : w.levels k seen frontier = .ok ls) (a : α) :
    a ∈ ls.flatten ↔ a ∈ all ∧
      ∃ m, n < m ∧ m ≤ n + k ∧ Reach adj grade (· ∈ w.keys all) s m (w.key a) := by
  induction ls generalizing seen frontier n k with
  | nil =>
    refine ⟨fun ha => absurd ha List.not_mem_nil, ?_⟩
    rintro ⟨-, m, hlt, hle, hreach⟩
    -- the walk has ended, so nothing is one step farther
    cases k with
    | zero => omega
    | succ k =>
      have hnone : ∀ x, ¬Reach adj grade (· ∈ w.keys all) s (n + 1) x := fun x hx =>
        absurd ((reach_next hexact hcap hg h hfrontier (levels_nil hlevels) x).mpr hx)
          List.not_mem_nil
      obtain ⟨j, rfl⟩ := Nat.exists_eq_add_of_lt hlt
      rw [Nat.add_right_comm] at hreach
      exact absurd hreach (reach_none hnone _)
  | cons level ls ih =>
    obtain ⟨k, rfl, hnext, -, hrest⟩ := levels_cons hlevels
    have hreach := reach_next hexact hcap hg h hfrontier hnext
    rw [List.flatten_cons, List.mem_append,
      ih (covers_next hexact.follows hg h hnext h.self h.below) hreach hrest]
    constructor
    · rintro (ha | ⟨ha, m, hlt, hle, hm⟩)
      · exact ⟨((mem_next hexact hcap hg h hnext a).mp ha).1, n + 1, by omega, by omega,
          (hreach _).mp (List.mem_map_of_mem ha)⟩
      · exact ⟨ha, m, by omega, by omega, hm⟩
    · rintro ⟨ha, m, hlt, hle, hm⟩
      rcases Nat.eq_or_lt_of_le (Nat.succ_le_of_lt hlt) with rfl | hlt
      · obtain ⟨b, hb, hkey⟩ := List.mem_map.mp ((hreach _).mpr hm)
        have hb_all := ((mem_next hexact hcap hg h hnext b).mp hb).1
        rw [List.inj_on_of_nodup_map hall hb_all ha hkey] at hb
        exact .inl hb
      · exact .inr ⟨ha, m, hlt, by omega, hm⟩

/-- **When it is found**: no frontier on the way is wider than an expansion can be. -/
theorem exists_levels_iff {width : ℕ} (hexact : w.Exact adj all) (hcap : w.cap = none)
    (hexpand : ∀ frontier items, w.expand frontier = .ok items → (w.keys items).Nodup)
    (hg : Graded adj s grade)
    (hwidth : ∀ frontier, (∃ items, w.expand frontier = .ok items) ↔ frontier.length ≤ width)
    (hgen : ∀ m, m < n + k → (gen m).Nodup ∧
      ∀ x, x ∈ gen m ↔ Reach adj grade (· ∈ w.keys all) s m x)
    (h : Covers adj grade seen frontier n) (hnodup : frontier.Nodup)
    (hfrontier : ∀ x, x ∈ frontier ↔ Reach adj grade (· ∈ w.keys all) s n x) :
    (∃ ls, w.levels k seen frontier = .ok ls) ↔
      ∀ m, n ≤ m → m < n + k → (gen m).length ≤ width := by
  induction k generalizing seen frontier n with
  | zero => exact ⟨fun _ m _ _ => by omega, fun _ => ⟨[], rfl⟩⟩
  | succ k ih =>
    -- both hold the ids at distance n, once each
    have hlength : frontier.length = (gen n).length := by
      obtain ⟨hgen_nodup, hgen_mem⟩ := hgen n (by omega)
      refine ((List.perm_ext_iff_of_nodup hnodup hgen_nodup).mpr fun x => ?_).length_eq
      rw [hfrontier, hgen_mem]
    rcases hnext : w.next seen frontier with e | level
    · -- an expansion fails only because its frontier is too wide
      rw [levels_of_error hnext]
      refine ⟨fun ⟨ls, hls⟩ => absurd hls (by simp), fun hall_le => ?_⟩
      obtain ⟨items, hitems⟩ := (hwidth frontier).mpr (hlength ▸ hall_le n (by omega) (by omega))
      rw [next_of_expand hitems] at hnext
      exact absurd hnext (by simp)
    · have hreach := reach_next hexact hcap hg h hfrontier hnext
      obtain ⟨items, hitems, -⟩ := next_eq_ok hnext
      have hle : (gen n).length ≤ width := hlength ▸ (hwidth frontier).mp ⟨items, hitems⟩
      by_cases hne : level = []
      · subst hne
        refine ⟨fun _ m hm hlt => ?_, fun _ => ⟨[], levels_of_nil hnext⟩⟩
        rcases Nat.eq_or_lt_of_le hm with rfl | hm
        · exact hle
        · -- nothing is reached farther away
          obtain ⟨j, rfl⟩ := Nat.exists_eq_add_of_lt hm
          have hempty : gen (n + j + 1) = [] := by
            refine List.eq_nil_iff_forall_not_mem.mpr fun x hx => ?_
            have hx := ((hgen _ hlt).2 x).mp hx
            rw [Nat.add_right_comm] at hx
            exact reach_none (fun y hy => absurd ((hreach y).mpr hy) List.not_mem_nil) x hx
          rw [hempty]
          exact Nat.zero_le _
      · have hrest := ih (fun m hm => hgen m (by omega))
          (covers_next hexact.follows hg h hnext h.self h.below) (next_nodup hexpand hnext) hreach
        rw [levels_of_level hnext hne]
        constructor
        · rintro ⟨ls, hls⟩ m hm hlt
          obtain ⟨rest, hok, -⟩ := map_eq_ok.mp hls
          rcases Nat.eq_or_lt_of_le hm with rfl | hm
          · exact hle
          · exact hrest.mp ⟨rest, hok⟩ m hm (by omega)
        · intro hall_le
          obtain ⟨rest, hok⟩ := hrest.mpr fun m hm hlt => hall_le m (by omega) (by omega)
          exact ⟨level :: rest, by rw [hok]; rfl⟩

end LevelWalk
