/-
What the paged reads have in common.

A paged read returns the front of what remains at its cursor, and a cursor for the
rest when it stops early.  `At` relates a cursor to the rows that remain there.

* `Cuts.progress` — a call whose budget lets an event through leaves fewer of them;
* `Truncating.length_le` — so only so many calls in a row are truncated;
* `followCursors_spec` — and whoever follows the cursors gets everything, in order.
-/
import Fossic.ReadOutcome

namespace Fossic

open Paging

/-- A bounded read, up to its budget and its cursor. -/
abbrev PagedCall := Budget → Option CursorInner → Option (Except Error ReadOutcome)

variable {registry : UpcasterRegistry} {fuel n k : ℕ} {P : Budget → Prop} {call : PagedCall}
  {At : Option CursorInner → List EventRow → Prop} {resume cursor : Option CursorInner}
  {rows : List EventRow} {budget : Budget} {budgets : ℕ → Budget} {data : List StoredEvent}
  {reason : TruncationReason} {pages : List (List StoredEvent)}

/-! ### One call -/

/-- With a budget that meets `P`, a truncated page is a front of what remains at the cursor,
not an empty one, and the next cursor stands for the rest. -/
def Cuts (registry : UpcasterRegistry) (fuel : ℕ) (P : Budget → Prop) (call : PagedCall)
    (At : Option CursorInner → List EventRow → Prop) : Prop :=
  ∀ resume rows budget data cursor reason, At resume rows → P budget →
    call budget resume = some (.ok (.truncated data cursor reason)) →
    ∃ page rest, rows = page ++ rest ∧ page ≠ [] ∧ At cursor rest ∧
      upcastAll registry fuel (page.map rowToEvent) = some (.ok data)

/-- Moreover the last page is what remains, and no call fails if the upcasters do not. -/
structure Pages (registry : UpcasterRegistry) (fuel : ℕ) (P : Budget → Prop) (call : PagedCall)
    (At : Option CursorInner → List EventRow → Prop) : Prop where
  cuts : Cuts registry fuel P call At
  complete : ∀ resume rows budget data, At resume rows →
    call budget resume = some (.ok (.complete data)) →
    upcastAll registry fuel (rows.map rowToEvent) = some (.ok data)
  succeeds : ∀ resume rows budget data, At resume rows →
    upcastAll registry fuel (rows.map rowToEvent) = some (.ok data) →
    ∃ outcome, call budget resume = some (.ok outcome)

/-- **Progress**: the page has an event, and fewer remain. -/
theorem Cuts.progress (h : Cuts registry fuel P call At) (hat : At resume rows) (hP : P budget)
    (hcall : call budget resume = some (.ok (.truncated data cursor reason))) :
    data ≠ [] ∧ ∃ rest, At cursor rest ∧ rest.length < rows.length := by
  obtain ⟨page, rest, rfl, hpage, hrest, hupcast⟩ := h _ _ _ _ _ _ hat hP hcall
  have hpos : 0 < page.length := List.length_pos_iff.mpr hpage
  refine ⟨?_, rest, hrest, ?_⟩
  · rw [upcastAll_ne_nil_iff hupcast, List.map_eq_nil_iff.ne]
    exact hpage
  · rw [List.length_append]
    omega

/-! ### Following the cursors -/

/-- Calls that follow the cursors from `resume` on and are all truncated, each with a
budget that meets `P`. -/
inductive Truncating (P : Budget → Prop) (call : PagedCall) :
    Option CursorInner → List (List StoredEvent) → Prop
  | nil (resume : Option CursorInner) : Truncating P call resume []
  | cons {resume cursor : Option CursorInner} {page : List StoredEvent}
      {pages : List (List StoredEvent)} {reason : TruncationReason} (budget : Budget)
      (hbudget : P budget)
      (hcall : call budget resume = some (.ok (.truncated page cursor reason)))
      (rest : Truncating P call cursor pages) : Truncating P call resume (page :: pages)

/-- **Only so many calls are truncated**: one for each event that remains. -/
theorem Truncating.length_le (h : Cuts registry fuel P call At) (hat : At resume rows)
    (hpages : Truncating P call resume pages) : pages.length ≤ rows.length := by
  induction hpages generalizing rows with
  | nil => exact Nat.zero_le _
  | cons budget hbudget hcall _ ih =>
    obtain ⟨-, rest, hrest, hlt⟩ := h.progress hat hbudget hcall
    exact (Nat.succ_le_succ (ih hrest)).trans hlt

/-- The cursor that `n` calls lead to that follow the cursors from the first call on and are
all truncated; the `k`-th of them has the budget `budgets k`. -/
inductive FollowedTo (call : PagedCall) (budgets : ℕ → Budget) : ℕ → Option CursorInner → Prop
  | first : FollowedTo call budgets 0 none
  | next {k : ℕ} {resume cursor : Option CursorInner} {page : List StoredEvent}
      {reason : TruncationReason} (h : FollowedTo call budgets k resume)
      (hcall : call (budgets k) resume = some (.ok (.truncated page cursor reason))) :
      FollowedTo call budgets (k + 1) cursor

/-- At most `n` calls that follow the cursors until one is complete; the `k`-th call has
the budget `budgets k`. -/
def followCursors (call : PagedCall) (budgets : ℕ → Budget) :
    ℕ → ℕ → Option CursorInner → Option (Except Error (List (List StoredEvent)))
  | 0, _, _ => none
  | n + 1, k, resume =>
    match call (budgets k) resume with
    | none => none
    | some (.error e) => some (.error e)
    | some (.ok (.complete data)) => some (.ok [data])
    | some (.ok (.truncated data cursor _)) =>
      (followCursors call budgets n (k + 1) cursor).map fun result =>
        result.map fun pages => data :: pages

theorem followCursors_complete (h : call (budgets k) resume = some (.ok (.complete data))) :
    followCursors call budgets (n + 1) k resume = some (.ok [data]) := by
  rw [followCursors, h]

theorem followCursors_truncated
    (h : call (budgets k) resume = some (.ok (.truncated data cursor reason)))
    (hmore : followCursors call budgets n (k + 1) cursor = some (.ok pages)) :
    followCursors call budgets (n + 1) k resume = some (.ok (data :: pages)) := by
  rw [followCursors, h]
  dsimp only
  rw [hmore]
  rfl

/-- A reader gets to the end with this call, or with the ones that follow its cursor. -/
theorem followCursors_eq_ok (h : followCursors call budgets n k resume = some (.ok pages)) :
    ∃ m, n = m + 1 ∧
      ((∃ data, call (budgets k) resume = some (.ok (.complete data)) ∧ pages = [data]) ∨
        ∃ data cursor reason pages', call (budgets k) resume
            = some (.ok (.truncated data cursor reason)) ∧
          followCursors call budgets m (k + 1) cursor = some (.ok pages') ∧
          pages = data :: pages') := by
  cases n with
  | zero => exact absurd h (by simp [followCursors])
  | succ m =>
    refine ⟨m, rfl, ?_⟩
    rw [followCursors] at h
    split at h
    · exact absurd h (by simp)
    · exact absurd h (by simp)
    · rename_i data hcall
      exact .inl ⟨data, hcall, (Except.ok.inj (Option.some_inj.mp h)).symm⟩
    · rename_i data cursor reason hcall
      obtain ⟨result, hresult, hpages⟩ := Option.map_eq_some_iff.mp h
      cases result with
      | error e => exact absurd hpages (by simp [Except.map])
      | ok pages' =>
        exact .inr ⟨data, cursor, reason, pages', hcall, hresult, (Except.ok.inj hpages).symm⟩

theorem followCursors_ne_nil (h : followCursors call budgets n k resume = some (.ok pages)) :
    pages ≠ [] := by
  obtain ⟨-, -, ⟨_, -, rfl⟩ | ⟨_, _, _, _, -, -, rfl⟩⟩ := followCursors_eq_ok h
  · exact List.cons_ne_nil _ _
  · exact List.cons_ne_nil _ _

/-- **Everything is read**, with at most one call more than there are events. -/
theorem followCursors_spec (h : Pages registry fuel P call At) (hbudgets : ∀ k, P (budgets k))
    (hat : At resume rows) (hupcast : upcastAll registry fuel (rows.map rowToEvent) = some (.ok data))
    (hn : rows.length < n) :
    ∃ pages, followCursors call budgets n k resume = some (.ok pages) ∧ pages.flatten = data := by
  induction n generalizing k resume rows data with
  | zero => exact absurd hn (Nat.not_lt_zero _)
  | succ n ih =>
    obtain ⟨outcome, hcall⟩ := h.succeeds _ _ (budgets k) _ hat hupcast
    cases outcome with
    | complete data' =>
      have hdata := h.complete _ _ _ _ hat hcall
      obtain rfl := Except.ok.inj (Option.some_inj.mp (hdata.symm.trans hupcast))
      exact ⟨[data'], followCursors_complete hcall, List.append_nil _⟩
    | truncated page cursor reason =>
      obtain ⟨front, rest, rfl, hne, hrest, hpage⟩ :=
        h.cuts _ _ _ _ _ _ hat (hbudgets k) hcall
      have hpos : 0 < front.length := List.length_pos_iff.mpr hne
      rw [List.map_append] at hupcast
      obtain ⟨page', data', hpage', hdata', rfl⟩ := upcastAll_append_iff.mp hupcast
      obtain rfl := Except.ok.inj (Option.some_inj.mp (hpage.symm.trans hpage'))
      rw [List.length_append] at hn
      obtain ⟨pages, hpages, hflatten⟩ := @ih (k + 1) _ _ _ hrest hdata' (by omega)
      refine ⟨page :: pages, followCursors_truncated hcall hpages, ?_⟩
      rw [List.flatten_cons, hflatten]

end Fossic
