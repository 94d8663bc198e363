/-
The `LIKE` operator of SQLite.

In a pattern `%` stands for any characters and `_` for any one; any other character stands for
itself, in either case of an ASCII letter.

* `like_percent` — a pattern whose only `%` is its last character takes the texts that begin
  as it does, character by character;
* `forall₂_standsFor_iff` — without `_` these are the same letters, up to their case.
-/
import Mathlib.Data.List.Forall2

namespace SqliteLike

/-- `text LIKE pattern`. -/
def like : List Char → List Char → Bool
  | [], s => s.isEmpty
  | c :: p, s =>
    if c = '%' then (List.range (s.length + 1)).any fun i => like p (s.drop i)
    else
      match s with
      | [] => false
      | x :: s => (c = '_' || c.toLower = x.toLower) && like p s

example : like "a_C%".toList "AbcdE".toList = true := by decide

/-- A character of a pattern, other than `%`, stands for the character of a text. -/
def StandsFor (c x : Char) : Prop := c = '_' ∨ c.toLower = x.toLower

variable {p s : List Char}

theorem like_percent_all : like ['%'] s = true := by
  rw [like.eq_def]
  simp only [if_pos, List.any_eq_true]
  refine ⟨s.length, List.mem_range.mpr (Nat.lt_succ_self _), ?_⟩
  rw [List.drop_length]
  rfl

theorem like_cons {c : Char} (hc : c ≠ '%') : like (c :: p) s = true ↔
    ∃ x s', s = x :: s' ∧ StandsFor c x ∧ like p s' = true := by
  rw [like.eq_def]
  simp only [if_neg hc]
  cases s with
  | nil => exact ⟨fun h => absurd h (by simp), fun ⟨x, s', h, _⟩ => absurd h (by simp)⟩
  | cons x s =>
    rw [Bool.and_eq_true, Bool.or_eq_true, decide_eq_true_iff, decide_eq_true_iff]
    constructor
    · rintro ⟨hfor, hrest⟩
      exact ⟨x, s, rfl, hfor, hrest⟩
    · rintro ⟨y, s', hs, hfor, hrest⟩
      obtain ⟨rfl, rfl⟩ := List.cons.inj hs
      exact ⟨hfor, hrest⟩

theorem like_append {q : List Char} (h : '%' ∉ p) : like (p ++ q) s = true ↔
    ∃ a b, s = a ++ b ∧ List.Forall₂ StandsFor p a ∧ like q b = true := by
  induction p generalizing s with
  | nil =>
    constructor
    · intro hq
      exact ⟨[], s, rfl, .nil, hq⟩
    · rintro ⟨a, b, rfl, ha, hq⟩
      obtain rfl := List.forall₂_nil_left_iff.mp ha
      exact hq
  | cons c p ih =>
    obtain ⟨hc, hp⟩ := not_or.mp (List.mem_cons.not.mp h)
    rw [List.cons_append, like_cons (Ne.symm hc)]
    constructor
    · rintro ⟨x, s', rfl, hfor, hrest⟩
      obtain ⟨a, b, rfl, ha, hq⟩ := (ih hp).mp hrest
      exact ⟨x :: a, b, rfl, .cons hfor ha, hq⟩
    · rintro ⟨a, b, rfl, ha, hq⟩
      obtain ⟨x, a', hfor, ha', rfl⟩ := List.forall₂_cons_left_iff.mp ha
      exact ⟨x, a' ++ b, rfl, hfor, (ih hp).mpr ⟨a', b, rfl, ha', hq⟩⟩

/-- **A prefix.** -/
theorem like_percent (h : '%' ∉ p) : like (p ++ ['%']) s = true ↔
    ∃ a b, s = a ++ b ∧ List.Forall₂ StandsFor p a := by
  rw [like_append h]
  constructor
  · rintro ⟨a, b, hs, ha, -⟩
    exact ⟨a, b, hs, ha⟩
  · rintro ⟨a, b, hs, ha⟩
    exact ⟨a, b, hs, ha, like_percent_all⟩

/-- Letters stand for themselves in either case. -/
theorem forall₂_standsFor_iff (h : '_' ∉ p) :
    List.Forall₂ StandsFor p s ↔ p.map Char.toLower = s.map Char.toLower := by
  induction p generalizing s with
  | nil =>
    rw [List.forall₂_nil_left_iff, List.map_nil, ← @List.map_eq_nil_iff _ _ Char.toLower]
    exact eq_comm
  | cons c p ih =>
    obtain ⟨hc, hp⟩ := not_or.mp (List.mem_cons.not.mp h)
    cases s with
    | nil =>
      rw [List.forall₂_nil_right_iff, List.map_nil, List.map_eq_nil_iff]
    | cons x s =>
      rw [List.forall₂_cons, ih hp, StandsFor, or_iff_right (Ne.symm hc), List.map_cons,
        List.map_cons, List.cons.injEq]

end SqliteLike
