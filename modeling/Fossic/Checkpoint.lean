/-
Replaying a log from a checkpoint.

`replay step start l` folds the items of `l` into the state `start`, and stops at
the first error.  A checkpoint at key `k` stores what the items with keys up to
`k` fold to (`Covers`).  On a log in key order:

* `Covers.resume` — replaying what comes after a checkpoint gives the whole
  replay;
* `Covers.resume_upTo` — also when the log is cut off at or above the
  checkpoint;
* `Covers.append` — a checkpoint stays good when the log is extended above it;
* `covers_last` — a finished replay is a checkpoint at any key that bounds the
  log.
-/
import Mathlib.Order.Lattice
import Mathlib.Data.List.Basic

namespace Checkpoint

variable {α σ ε κ : Type*} [LinearOrder κ] {step : σ → α → Except ε σ} {start : Except ε σ}
  {key : α → κ} {k b : κ} {l m : List α} {s : σ}

def replay (step : σ → α → Except ε σ) (start : Except ε σ) (l : List α) : Except ε σ :=
  start.bind fun s => l.foldlM step s

/-- The items with keys up to `k`. -/
def upTo (key : α → κ) (k : κ) (l : List α) : List α := l.filter fun a => key a ≤ k

/-- The items with keys above `k`. -/
def after (key : α → κ) (k : κ) (l : List α) : List α := l.filter fun a => k < key a

/-- The state `s` is what the items with keys up to `k` fold to. -/
def Covers (step : σ → α → Except ε σ) (start : Except ε σ) (key : α → κ) (l : List α) (k : κ)
    (s : σ) : Prop :=
  replay step start (upTo key k l) = .ok s

@[simp] theorem replay_nil : replay step start [] = start := by
  cases start <;> rfl

theorem replay_append : replay step start (l ++ m) = replay step (replay step start l) m := by
  cases start with
  | error e => rfl
  | ok s =>
    show (l ++ m).foldlM step s = _
    rw [List.foldlM_append]
    rfl

theorem upTo_eq_self (h : ∀ a ∈ l, key a ≤ k) : upTo key k l = l :=
  List.filter_eq_self.mpr fun a ha => decide_eq_true (h a ha)

theorem upTo_eq_nil (h : ∀ a ∈ l, k < key a) : upTo key k l = [] := by
  refine List.filter_eq_nil_iff.mpr fun a ha => ?_
  simpa using h a ha

theorem upTo_append (h : ∀ a ∈ m, k < key a) : upTo key k (l ++ m) = upTo key k l := by
  rw [upTo, List.filter_append]
  show upTo key k l ++ upTo key k m = _
  rw [upTo_eq_nil h, List.append_nil]

theorem upTo_upTo (h : k ≤ b) : upTo key k (upTo key b l) = upTo key k l := by
  rw [upTo, upTo, List.filter_filter]
  refine List.filter_congr fun a _ => ?_
  rw [← Bool.decide_and]
  exact decide_eq_decide.mpr ⟨fun hab => hab.1, fun ha => ⟨ha, ha.trans h⟩⟩

/-- A log in key order falls into what is up to `k` and what comes after. -/
theorem upTo_append_after (h : l.Pairwise fun a b => key a ≤ key b) :
    upTo key k l ++ after key k l = l := by
  induction l with
  | nil => rfl
  | cons a l ih =>
    obtain ⟨ha, hl⟩ := List.pairwise_cons.mp h
    by_cases hk : key a ≤ k
    · have hup : upTo key k (a :: l) = a :: upTo key k l :=
        List.filter_cons_of_pos (decide_eq_true hk)
      have hafter : after key k (a :: l) = after key k l :=
        List.filter_cons_of_neg (by simpa using hk)
      rw [hup, hafter, List.cons_append, ih hl]
    · -- the first item is above `k`, and so is all that follows
      have habove : ∀ c ∈ a :: l, k < key c := by
        intro c hc
        rcases List.mem_cons.mp hc with rfl | hc
        · exact not_le.mp hk
        · exact (not_le.mp hk).trans_le (ha c hc)
      have hafter : after key k (a :: l) = a :: l :=
        List.filter_eq_self.mpr fun c hc => decide_eq_true (habove c hc)
      rw [upTo_eq_nil habove, hafter, List.nil_append]

/-- The last item after a checkpoint is the last item of the log. -/
theorem le_of_last_after (h : l.Pairwise fun a b => key a ≤ key b) {c : α}
    (hc : (after key k l).getLast? = some c) : ∀ a ∈ l, key a ≤ key c := by
  obtain ⟨front, hfront⟩ := List.getLast?_eq_some_iff.mp hc
  have hsplit := upTo_append_after (k := k) h
  rw [hfront, ← List.append_assoc] at hsplit
  intro a ha
  rw [← hsplit] at h ha
  rcases List.mem_append.mp ha with ha | ha
  · exact (List.pairwise_append.mp h).2.2 a ha c (List.mem_singleton_self c)
  · rw [List.mem_singleton.mp ha]

/-- **Resuming from a checkpoint.** -/
theorem Covers.resume (h : Covers step start key l k s)
    (hsorted : l.Pairwise fun a b => key a ≤ key b) :
    (after key k l).foldlM step s = replay step start l := by
  have hsplit := upTo_append_after (k := k) hsorted
  rw [← congrArg (replay step start) hsplit, replay_append, h]
  rfl

theorem Covers.upTo (h : Covers step start key l k s) (hkb : k ≤ b) :
    Covers step start key (upTo key b l) k s := by
  rw [Covers, upTo_upTo hkb]
  exact h

theorem Covers.resume_upTo (h : Covers step start key l k s) (hkb : k ≤ b)
    (hsorted : l.Pairwise fun a b => key a ≤ key b) :
    (after key k (Checkpoint.upTo key b l)).foldlM step s =
      replay step start (Checkpoint.upTo key b l) :=
  (h.upTo hkb).resume (hsorted.sublist List.filter_sublist)

theorem Covers.append (h : Covers step start key l k s) (hm : ∀ a ∈ m, k < key a) :
    Covers step start key (l ++ m) k s := by
  rw [Covers, upTo_append hm]
  exact h

theorem covers_last (h : replay step start l = .ok s) (hk : ∀ a ∈ l, key a ≤ k) :
    Covers step start key l k s := by
  rw [Covers, upTo_eq_self hk]
  exact h

end Checkpoint
