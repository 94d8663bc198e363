/-
Runs of a machine given by an executable step function.

`step s a = some s'` says that action `a` can be taken in `s` and leads to `s'`;
`run` takes a list of actions.  `Along step P` says that every action of a run
meets `P` in the state it is taken in, which is how conditions on runs are
stated.  The rules that downstream proofs use:

* `run_invariant` — an invariant that each step meeting `P` keeps holds at the
  end of every run along `P`;
* `run_history` — so does one that relates the state to the actions so far;
* `run_related` — a preorder that each step respects relates the two ends.
-/
import Mathlib.Order.Defs.Unbundled
import Mathlib.Data.List.Basic

namespace Transition

variable {σ α : Type*} {step : σ → α → Option σ} {P : σ → α → Prop} {I : σ → Prop}

/-- The state after a list of actions, if all of them can be taken. -/
def run (step : σ → α → Option σ) : σ → List α → Option σ
  | s, [] => some s
  | s, a :: as => (step s a).bind fun s' => run step s' as

/-- Each action of the run meets `P` in the state it is taken in. -/
def Along (step : σ → α → Option σ) (P : σ → α → Prop) : σ → List α → Prop
  | _, [] => True
  | s, a :: as => P s a ∧ ∀ s', step s a = some s' → Along step P s' as

@[simp] theorem run_nil {s : σ} : run step s [] = some s := rfl

theorem run_cons {s s' : σ} {a : α} {as : List α} :
    run step s (a :: as) = some s' ↔ ∃ t, step s a = some t ∧ run step t as = some s' := by
  rw [run, Option.bind_eq_some_iff]

theorem run_append {s s' : σ} {as bs : List α} :
    run step s (as ++ bs) = some s' ↔ ∃ t, run step s as = some t ∧ run step t bs = some s' := by
  induction as generalizing s with
  | nil => simp
  | cons a as ih =>
    rw [List.cons_append, run_cons]
    constructor
    · rintro ⟨t, ht, hrun⟩
      obtain ⟨u, hu, hrun'⟩ := ih.mp hrun
      exact ⟨u, run_cons.mpr ⟨t, ht, hu⟩, hrun'⟩
    · rintro ⟨u, hu, hrun'⟩
      obtain ⟨t, ht, hrun⟩ := run_cons.mp hu
      exact ⟨t, ht, ih.mpr ⟨u, hrun, hrun'⟩⟩

/-- The first action can be taken and leads to `t`. -/
theorem along_cons {s t : σ} {a : α} {as : List α} (hP : P s a) (hstep : step s a = some t)
    (h : Along step P t as) : Along step P s (a :: as) := by
  refine ⟨hP, fun u hu => ?_⟩
  obtain rfl := Option.some_inj.mp (hstep.symm.trans hu)
  exact h

theorem along_true {s : σ} {as : List α} : Along step (fun _ _ => True) s as := by
  induction as generalizing s with
  | nil => trivial
  | cons a as ih => exact ⟨trivial, fun _ _ => ih⟩

theorem along_of_forall {Q : α → Prop} {s : σ} {as : List α} (h : ∀ a ∈ as, Q a) :
    Along step (fun _ a => Q a) s as := by
  induction as generalizing s with
  | nil => trivial
  | cons a as ih =>
    obtain ⟨ha, has⟩ := List.forall_mem_cons.mp h
    exact ⟨ha, fun _ _ => ih has⟩

theorem Along.imp {Q : σ → α → Prop} (hPQ : ∀ s a, P s a → Q s a) {s : σ} {as : List α}
    (h : Along step P s as) : Along step Q s as := by
  induction as generalizing s with
  | nil => trivial
  | cons a as ih => exact ⟨hPQ s a h.1, fun t ht => ih (h.2 t ht)⟩

theorem Along.and {Q : σ → α → Prop} {s : σ} {as : List α} (h : Along step P s as)
    (h' : Along step Q s as) : Along step (fun s a => P s a ∧ Q s a) s as := by
  induction as generalizing s with
  | nil => trivial
  | cons a as ih => exact ⟨⟨h.1, h'.1⟩, fun t ht => ih (h.2 t ht) (h'.2 t ht)⟩

theorem Along.left {s : σ} {as bs : List α} (h : Along step P s (as ++ bs)) :
    Along step P s as := by
  induction as generalizing s with
  | nil => trivial
  | cons a as ih => exact ⟨h.1, fun t ht => ih (h.2 t ht)⟩

theorem Along.append {s t : σ} {as bs : List α} (h : Along step P s as)
    (hrun : run step s as = some t) (h' : Along step P t bs) : Along step P s (as ++ bs) := by
  induction as generalizing s with
  | nil => exact Option.some_inj.mp hrun ▸ h'
  | cons a as ih =>
    obtain ⟨u, hu, hrun⟩ := run_cons.mp hrun
    exact along_cons h.1 hu (ih (h.2 u hu) hrun)

theorem Along.right {s t : σ} {as bs : List α} (h : Along step P s (as ++ bs))
    (hrun : run step s as = some t) : Along step P t bs := by
  induction as generalizing s with
  | nil => exact Option.some_inj.mp hrun ▸ h
  | cons a as ih =>
    obtain ⟨u, hu, hrun⟩ := run_cons.mp hrun
    exact ih (h.2 u hu) hrun

/-- `Along`, read off the prefixes of a run. -/
theorem along_iff {s : σ} {as : List α} : Along step P s as ↔
    ∀ bs a cs t, as = bs ++ a :: cs → run step s bs = some t → P t a := by
  constructor
  · rintro h bs a cs t rfl hrun
    exact (h.right hrun).1
  · intro h
    induction as generalizing s with
    | nil => trivial
    | cons a as ih =>
      refine ⟨h [] a as s rfl rfl, fun t ht => ih fun bs b cs u has hrun => ?_⟩
      exact h (a :: bs) b cs u (by rw [has]; rfl) (run_cons.mpr ⟨t, ht, hrun⟩)

/-- Two conditions that agree on the steps that can be taken agree along a run. -/
theorem along_congr {Q : σ → α → Prop} (hPQ : ∀ s a s', step s a = some s' → (P s a ↔ Q s a))
    {s t : σ} {as : List α} (hrun : run step s as = some t) :
    Along step P s as ↔ Along step Q s as := by
  induction as generalizing s with
  | nil => exact Iff.rfl
  | cons a as ih =>
    obtain ⟨u, hu, hrun⟩ := run_cons.mp hrun
    refine and_congr (hPQ s a u hu) ⟨fun h v hv => ?_, fun h v hv => ?_⟩
    · obtain rfl := Option.some_inj.mp (hu.symm.trans hv)
      exact (ih hrun).mp (h u hu)
    · obtain rfl := Option.some_inj.mp (hu.symm.trans hv)
      exact (ih hrun).mpr (h u hu)

/-- **Invariant rule**: what every step along `P` keeps, every run along `P`
keeps. -/
theorem run_invariant (hstep : ∀ s a s', I s → P s a → step s a = some s' → I s') {s s' : σ}
    {as : List α} (hs : I s) (halong : Along step P s as) (hrun : run step s as = some s') :
    I s' := by
  induction as generalizing s with
  | nil => exact Option.some_inj.mp hrun ▸ hs
  | cons a as ih =>
    obtain ⟨t, ht, hrun⟩ := run_cons.mp hrun
    exact ih (hstep s a t hs halong.1 ht) (halong.2 t ht) hrun

/-- An invariant of every step is an invariant of every run. -/
theorem run_invariant_all (hstep : ∀ s a s', I s → step s a = some s' → I s') {s s' : σ}
    {as : List α} (hs : I s) (hrun : run step s as = some s') : I s' :=
  run_invariant (fun s a s' h _ => hstep s a s' h) hs along_true hrun

/-- **History rule**: what relates the state to the actions that led to it, if every step along
`P` carries it on. -/
theorem run_history {J : List α → σ → Prop} {s s' : σ} {as : List α} (hs : J [] s)
    (hstep : ∀ bs t a t', J bs t → P t a → step t a = some t' → J (bs ++ [a]) t')
    (halong : Along step P s as) (hrun : run step s as = some s') : J as s' := by
  suffices h : ∀ bs t, J bs t → Along step P t as → run step t as = some s' → J (bs ++ as) s' from
    h [] s hs halong hrun
  clear hs halong hrun
  induction as with
  | nil =>
    intro bs t ht _ hrun
    rw [List.append_nil]
    exact Option.some_inj.mp hrun ▸ ht
  | cons a as ih =>
    intro bs t ht halong hrun
    obtain ⟨u, hu, hrun⟩ := run_cons.mp hrun
    rw [List.append_cons]
    exact ih (bs ++ [a]) u (hstep bs t a u ht halong.1 hu) (halong.2 u hu) hrun

/-- **Monotonicity rule**: a preorder that every step respects relates the ends
of every run. -/
theorem run_related {R : σ → σ → Prop} [Std.Refl R] [IsTrans σ R]
    (hstep : ∀ s a s', step s a = some s' → R s s') {s s' : σ} {as : List α}
    (hrun : run step s as = some s') : R s s' := by
  induction as generalizing s with
  | nil => exact Option.some_inj.mp hrun ▸ Std.Refl.refl s
  | cons a as ih =>
    obtain ⟨t, ht, hrun⟩ := run_cons.mp hrun
    exact IsTrans.trans _ _ _ (hstep s a t ht) (ih hrun)

end Transition
