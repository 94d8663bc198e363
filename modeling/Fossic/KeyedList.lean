/-
Finite maps as lists of key-value pairs, read by `find`.

* `upsert` — replace the value of a key, or add the pair at the end;
* `mapVal` — rewrite every value, knowing its key;
* `erase` — remove a key;
* `find_filter` — keep the pairs whose key passes a test.

One lemma per operation says what `find` finds afterwards; `find_eq_some_iff`
turns lookups into membership when the keys are distinct.
-/
import Mathlib.Data.List.Basic

namespace KeyedList

variable {κ α : Type} [DecidableEq κ] {l : List (κ × α)} {k k' : κ} {a : α}

/-- The value of the first pair with the key. -/
def find (l : List (κ × α)) (k : κ) : Option α := l.lookup k

def upsert (l : List (κ × α)) (k : κ) (a : α) : List (κ × α) :=
  match l with
  | [] => [(k, a)]
  | p :: l => if p.1 = k then (k, a) :: l else p :: upsert l k a

def mapVal (f : κ → α → α) (l : List (κ × α)) : List (κ × α) := l.map fun p => (p.1, f p.1 p.2)

def erase (l : List (κ × α)) (k : κ) : List (κ × α) := l.filter fun p => p.1 ≠ k

theorem find_cons {p : κ × α} : find (p :: l) k = if p.1 = k then some p.2 else find l k := by
  obtain ⟨k', a⟩ := p
  rw [find, List.lookup_cons]
  by_cases h : k' = k
  · subst h; simp
  · have hne : (k == k') = false := beq_eq_false_iff_ne.mpr (Ne.symm h)
    simp [find, hne, h]

theorem find_upsert : find (upsert l k a) k' = if k = k' then some a else find l k' := by
  induction l with
  | nil => rw [upsert, find_cons]
  | cons p l ih =>
    rw [upsert]
    by_cases hp : p.1 = k
    · rw [if_pos hp, find_cons, find_cons]
      by_cases hk : k = k'
      · rw [if_pos hk, if_pos hk]
      · rw [if_neg hk, if_neg hk, if_neg (hp ▸ hk)]
    · rw [if_neg hp, find_cons, find_cons, ih]
      by_cases hk : k = k'
      · rw [if_pos hk, if_pos hk, if_neg (hk ▸ hp)]
      · rw [if_neg hk, if_neg hk]

theorem mem_upsert {p : κ × α} (h : p ∈ upsert l k a) : p = (k, a) ∨ p ∈ l := by
  induction l with
  | nil => exact .inl (List.mem_singleton.mp h)
  | cons q l ih =>
    rw [upsert] at h
    split at h
    · rcases List.mem_cons.mp h with h | h
      · exact .inl h
      · exact .inr (List.mem_cons_of_mem _ h)
    · rcases List.mem_cons.mp h with rfl | h
      · exact .inr List.mem_cons_self
      · exact (ih h).imp_right (List.mem_cons_of_mem _)

theorem nodup_upsert (hnd : (l.map Prod.fst).Nodup) : ((upsert l k a).map Prod.fst).Nodup := by
  induction l with
  | nil => simp [upsert]
  | cons p l ih =>
    obtain ⟨hp, hl⟩ := List.nodup_cons.mp hnd
    rw [upsert]
    split
    · rename_i hk
      exact List.nodup_cons.mpr ⟨hk ▸ hp, hl⟩
    · rename_i hk
      refine List.nodup_cons.mpr ⟨fun hmem => ?_, ih hl⟩
      obtain ⟨q, hq, hqp⟩ := List.mem_map.mp hmem
      rcases mem_upsert hq with rfl | hq
      · exact hk hqp.symm
      · exact hp (List.mem_map.mpr ⟨q, hq, hqp⟩)

@[simp] theorem find_mapVal {f : κ → α → α} : find (mapVal f l) k = (find l k).map (f k) := by
  induction l with
  | nil => rfl
  | cons p l ih =>
    rw [mapVal, List.map_cons, find_cons, find_cons]
    by_cases hp : p.1 = k
    · rw [if_pos hp, if_pos hp, Option.map_some, hp]
    · rw [if_neg hp, if_neg hp]
      exact ih

omit [DecidableEq κ] in
@[simp] theorem keys_mapVal {f : κ → α → α} : (mapVal f l).map Prod.fst = l.map Prod.fst := by
  rw [mapVal, List.map_map]
  rfl

/-- Filtering by the key keeps a key with its value or drops it. -/
theorem find_filter {p : κ → Bool} :
    find (l.filter fun q => p q.1) k = if p k then find l k else none := by
  induction l with
  | nil => simp [find]
  | cons q l ih =>
    rw [List.filter_cons, find_cons]
    by_cases hq : p q.1
    · rw [if_pos hq, find_cons, ih]
      by_cases hk : q.1 = k
      · rw [if_pos hk, if_pos hk, if_pos (hk ▸ hq)]
      · rw [if_neg hk, if_neg hk]
    · rw [if_neg hq, ih]
      by_cases hk : q.1 = k
      · rw [if_neg (hk ▸ hq), if_neg (hk ▸ hq)]
      · rw [if_neg hk]

theorem find_erase : find (erase l k) k' = if k = k' then none else find l k' := by
  rw [erase, find_filter (p := fun a => a ≠ k)]
  by_cases hk : k = k'
  · rw [if_pos hk, if_neg (by simp [hk])]
  · rw [if_neg hk, if_pos (by simp [Ne.symm hk])]

theorem mem_of_find (h : find l k = some a) : (k, a) ∈ l := by
  induction l with
  | nil => exact absurd h (by simp [find])
  | cons p l ih =>
    rw [find_cons] at h
    split at h
    · rename_i hp
      rw [← Option.some_inj.mp h, ← hp]
      exact List.mem_cons_self
    · exact List.mem_cons_of_mem _ (ih h)

theorem find_of_mem (hnd : (l.map Prod.fst).Nodup) (h : (k, a) ∈ l) : find l k = some a := by
  induction l with
  | nil => exact absurd h List.not_mem_nil
  | cons p l ih =>
    obtain ⟨hp, hl⟩ := List.nodup_cons.mp hnd
    rw [find_cons]
    rcases List.mem_cons.mp h with rfl | h
    · rw [if_pos rfl]
    · rw [if_neg, ih hl h]
      rintro rfl
      exact hp (List.mem_map.mpr ⟨_, h, rfl⟩)

/-- With distinct keys, what is found is what is in the list. -/
theorem find_eq_some_iff (hnd : (l.map Prod.fst).Nodup) : find l k = some a ↔ (k, a) ∈ l :=
  ⟨mem_of_find, find_of_mem hnd⟩

theorem find_eq_none (h : k ∉ l.map Prod.fst) : find l k = none := by
  rw [← Option.not_isSome_iff_eq_none, Option.isSome_iff_exists]
  rintro ⟨a, ha⟩
  exact h (List.mem_map.mpr ⟨_, mem_of_find ha, rfl⟩)

/-- With distinct keys, at most one pair has a given key. -/
theorem filter_key (hnd : (l.map Prod.fst).Nodup) :
    (l.filter fun p => p.1 = k) = ((find l k).map fun a => (k, a)).toList := by
  induction l with
  | nil => simp [find]
  | cons p l ih =>
    obtain ⟨hp, hl⟩ := List.nodup_cons.mp hnd
    rw [find_cons, List.filter_cons]
    by_cases hk : p.1 = k
    · rw [ih hl, find_eq_none (hk ▸ hp)]
      subst hk
      simp
    · simp [hk, ih hl]

theorem find_append : find (l ++ [(k, a)]) k' =
    (find l k').or (if k = k' then some a else none) := by
  induction l with
  | nil => rw [List.nil_append, find_cons, find, List.lookup_nil, Option.none_or]
  | cons p l ih =>
    rw [List.cons_append, find_cons, find_cons, ih]
    split <;> rfl

end KeyedList
