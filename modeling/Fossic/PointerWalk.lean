/-
Following pointers: `next b` is where `b` points to, if anywhere.

`walk next fuel b` lists the nodes from `b` to the first one that points nowhere;
it is `none` when the fuel runs out before.

* `walk_nodup` — a finished walk passes no node twice;
* `exists_walk_iff` — over finitely many pointers the walk from `b` ends exactly
  when it does not lead into a loop, and then one unit of fuel for each
  pointer, and one more, are enough.
-/
import Mathlib.Logic.Relation
import Mathlib.Data.List.Perm.Subperm

namespace PointerWalk

open Relation

variable {β : Type*} {next : β → Option β} {b c : β} {l l' : List β} {n m : ℕ}

def Step (next : β → Option β) (b c : β) : Prop := next b = some c

/-- A node that can be reached points, after some steps, back to itself. -/
def Loops (next : β → Option β) (b : β) : Prop :=
  ∃ c, ReflTransGen (Step next) b c ∧ TransGen (Step next) c c

def walk (next : β → Option β) : ℕ → β → Option (List β)
  | 0, _ => none
  | fuel + 1, b =>
    match next b with
    | none => some [b]
    | some c => (walk next fuel c).map (b :: ·)

theorem walk_of_none (h : next b = none) : walk next (n + 1) b = some [b] := by
  rw [walk, h]

theorem walk_of_some (h : next b = some c) :
    walk next (n + 1) b = (walk next n c).map (b :: ·) := by
  rw [walk, h]

/-- The rest of a finished walk is the walk from the next node. -/
theorem walk_step (h : walk next n b = some l) (hbc : next b = some c) :
    ∃ m l', walk next m c = some l' ∧ l = b :: l' := by
  cases n with
  | zero => exact absurd h (by simp [walk])
  | succ n =>
    rw [walk_of_some hbc] at h
    obtain ⟨l', hl', rfl⟩ := Option.map_eq_some_iff.mp h
    exact ⟨n, l', hl', rfl⟩

/-- How far a finished walk goes does not depend on the fuel. -/
theorem walk_unique (h : walk next n b = some l) (h' : walk next m b = some l') : l = l' := by
  induction n generalizing b l m l' with
  | zero => exact absurd h (by simp [walk])
  | succ n ih =>
    cases m with
    | zero => exact absurd h' (by simp [walk])
    | succ m =>
      rcases hb : next b with _ | c
      · rw [walk_of_none hb] at h h'
        exact Option.some_inj.mp (h.symm.trans h')
      · rw [walk_of_some hb] at h h'
        obtain ⟨t, ht, rfl⟩ := Option.map_eq_some_iff.mp h
        obtain ⟨t', ht', rfl⟩ := Option.map_eq_some_iff.mp h'
        rw [ih ht ht']

theorem walk_head (h : walk next n b = some l) : l.head? = some b := by
  cases n with
  | zero => exact absurd h (by simp [walk])
  | succ n =>
    rcases hb : next b with _ | c
    · rw [walk_of_none hb] at h
      obtain rfl := Option.some_inj.mp h
      rfl
    · rw [walk_of_some hb] at h
      obtain ⟨t, -, rfl⟩ := Option.map_eq_some_iff.mp h
      rfl

/-- Walks get shorter along a path. -/
theorem walk_shorter (h : walk next n b = some l) (hbc : TransGen (Step next) b c) :
    ∃ m l', walk next m c = some l' ∧ l'.length < l.length := by
  induction hbc with
  | single hstep =>
    obtain ⟨m, l', hl', rfl⟩ := walk_step h hstep
    exact ⟨m, l', hl', Nat.lt_succ_self _⟩
  | tail _ hstep ih =>
    obtain ⟨m, l', hl', hlt⟩ := ih
    obtain ⟨k, l'', hl'', rfl⟩ := walk_step hl' hstep
    refine ⟨k, l'', hl'', ?_⟩
    rw [List.length_cons] at hlt
    omega

theorem not_transGen_self (h : walk next n b = some l) : ¬ TransGen (Step next) b b := by
  intro hloop
  obtain ⟨m, l', hl', hlt⟩ := walk_shorter h hloop
  rw [walk_unique h hl'] at hlt
  exact Nat.lt_irrefl _ hlt

/-- A walk that ends does not lead into a loop. -/
theorem not_loops_of_walk (h : walk next n b = some l) : ¬ Loops next b := by
  rintro ⟨c, hbc, hloop⟩
  rcases reflTransGen_iff_eq_or_transGen.mp hbc with rfl | hbc
  · exact not_transGen_self h hloop
  · obtain ⟨m, l', hl', -⟩ := walk_shorter h hbc
    exact not_transGen_self hl' hloop

/-- The nodes of a walk after the first are reached from it. -/
theorem transGen_of_mem_walk (h : walk next n b = some (b :: l)) (hc : c ∈ l) :
    TransGen (Step next) b c := by
  induction n generalizing b l with
  | zero => exact absurd h (by simp [walk])
  | succ n ih =>
    rcases hb : next b with _ | a
    · rw [walk_of_none hb] at h
      obtain rfl : [] = l := by simpa using h
      exact absurd hc List.not_mem_nil
    · rw [walk_of_some hb] at h
      obtain ⟨t, ht, htl⟩ := Option.map_eq_some_iff.mp h
      obtain rfl : t = l := by simpa using htl
      have hhead := walk_head ht
      match t, hhead with
      | a :: t, rfl =>
        rcases List.mem_cons.mp hc with rfl | hc
        · exact .single hb
        · exact .head hb (ih ht hc)

/-- A walk that ends passes no node twice. -/
theorem walk_nodup (h : walk next n b = some l) : l.Nodup := by
  induction n generalizing b l with
  | zero => exact absurd h (by simp [walk])
  | succ n ih =>
    have hmem := fun l (hl : walk next (n + 1) b = some (b :: l)) c =>
      transGen_of_mem_walk (c := c) hl
    have hself := not_transGen_self h
    rcases hb : next b with _ | c
    · rw [walk_of_none hb] at h
      obtain rfl := Option.some_inj.mp h
      exact List.nodup_cons.mpr ⟨List.not_mem_nil, List.nodup_nil⟩
    · have hwalk := h
      rw [walk_of_some hb] at h
      obtain ⟨t, ht, rfl⟩ := Option.map_eq_some_iff.mp h
      exact List.nodup_cons.mpr ⟨fun hbt => hself (hmem t hwalk b hbt), ih ht⟩

/-- Without a loop ahead, the nodes passed so far and the fuel left cover all
pointers, so the fuel is enough. -/
theorem walk_isSome [DecidableEq β] {dom seen : List β} (hdom : ∀ b, (next b).isSome → b ∈ dom)
    (hseen : seen.Nodup) (hsub : ∀ c ∈ seen, c ∈ dom ∧ TransGen (Step next) c b)
    (hloops : ¬ Loops next b) (hfuel : dom.length < n + seen.length) :
    ∃ l, walk next n b = some l := by
  induction n generalizing b seen with
  | zero =>
    -- the ids seen so far are distinct and have pointers, so they outnumber the domain
    have hle : seen.length ≤ dom.length :=
      (List.subperm_of_subset hseen fun c hc => (hsub c hc).1).length_le
    omega
  | succ n ih =>
    rcases hb : next b with _ | c
    · exact ⟨[b], walk_of_none hb⟩
    · have hnew : b ∉ seen := fun hbs => hloops ⟨b, .refl, (hsub b hbs).2⟩
      obtain ⟨l, hl⟩ : ∃ l, walk next n c = some l := by
        refine ih (List.nodup_cons.mpr ⟨hnew, hseen⟩) (List.forall_mem_cons.mpr ⟨?_, ?_⟩) ?_ ?_
        · exact ⟨hdom b (by rw [hb]; rfl), .single hb⟩
        · exact fun a ha => ⟨(hsub a ha).1, (hsub a ha).2.tail hb⟩
        · rintro ⟨a, hca, ha⟩
          exact hloops ⟨a, .head hb hca, ha⟩
        · rw [List.length_cons]
          omega
      exact ⟨b :: l, by rw [walk_of_some hb, hl]; rfl⟩

/-- **When a walk ends**: exactly when it does not lead into a loop. -/
theorem exists_walk_iff [DecidableEq β] {dom : List β} (hdom : ∀ b, (next b).isSome → b ∈ dom) :
    (∃ n l, walk next n b = some l) ↔ ¬ Loops next b := by
  constructor
  · rintro ⟨n, l, h⟩
    exact not_loops_of_walk h
  · intro h
    have hfuel : dom.length < dom.length + 1 + ([] : List β).length := Nat.lt_succ_self _
    exact ⟨dom.length + 1, walk_isSome hdom List.nodup_nil (by simp) h hfuel⟩

end PointerWalk
