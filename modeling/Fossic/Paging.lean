/-
Reading a sorted log in pages.

A page is filled from the front of a list until a budget of items or of sizes is
used up; it takes at least one item unless the budget allows no item at all.  The
rest starts with the item that did not fit, and its key is where the next page
resumes.

* `fill_append` — a page and its rest are the list;
* `fill_isGreatest` — a page is the longest front that the budget admits;
* `fill_ne_nil_iff` — when a page of a nonempty list takes an item;
* `atOrAbove_resume` — resuming at that key gives the rest, also when the log has
  grown in the meantime.
-/
import Mathlib.Algebra.GroupWithZero.Nat
import Mathlib.Order.Bounds.Defs
import Mathlib.Order.Lattice
import Mathlib.Data.List.Basic

namespace Paging

/-! ### Filling a page -/

structure Budget where
  maxResults : Option ℕ
  maxBytes : Option ℕ

/-- The first choice where it has a limit, else the second. -/
def Budget.or (b b' : Budget) : Budget :=
  ⟨b.maxResults.or b'.maxResults, b.maxBytes.or b'.maxBytes⟩

/-- There is no room for another item. -/
def Budget.exceedCount (b : Budget) (count : ℕ) : Bool := b.maxResults.any fun n => n ≤ count

/-- With another item the page would have `bytes`; the first item always fits. -/
def Budget.exceedBytes (b : Budget) (count bytes : ℕ) : Bool :=
  b.maxBytes.any fun n => 0 < count && n < bytes

section Fill

variable {α : Type*} {size : α → ℕ} {b : Budget} {l : List α} {count bytes : ℕ}

/-- A page that already has `count` items of `bytes` in all, and what is left. -/
def fill (size : α → ℕ) (b : Budget) : ℕ → ℕ → List α → List α × List α
  | _, _, [] => ([], [])
  | count, bytes, a :: l =>
    if b.exceedCount count || b.exceedBytes count (bytes + size a) then ([], a :: l)
    else
      let r := fill size b (count + 1) (bytes + size a) l
      (a :: r.1, r.2)

theorem fill_append : (fill size b count bytes l).1 ++ (fill size b count bytes l).2 = l := by
  induction l generalizing count bytes with
  | nil => rfl
  | cons a l ih =>
    rw [fill]
    split
    · rfl
    · exact congrArg (a :: ·) ih

theorem fill_ne_nil (hcount : b.maxResults ≠ some 0) (hl : l ≠ []) :
    (fill size b 0 0 l).1 ≠ [] := by
  cases l with
  | nil => exact absurd rfl hl
  | cons a l =>
    have hroom : (b.exceedCount 0 || b.exceedBytes 0 (0 + size a)) = false := by
      rw [Bool.or_eq_false_iff]
      constructor
      · rw [Budget.exceedCount]
        rcases hmax : b.maxResults with _ | n
        · rfl
        · have hn : n ≠ 0 := fun hn => hcount (by rw [hmax, hn])
          simpa using hn
      · rw [Budget.exceedBytes]
        cases b.maxBytes <;> rfl
    rw [fill, hroom]
    exact List.cons_ne_nil _ _

/-- A budget of no items leaves everything out. -/
theorem fill_eq_nil (hcount : b.maxResults = some 0) : (fill size b 0 0 l).1 = [] := by
  cases l with
  | nil => rfl
  | cons a l =>
    have hfull : b.exceedCount 0 = true := by
      rw [Budget.exceedCount, hcount]
      rfl
    rw [fill, hfull, Bool.true_or]
    rfl

theorem fill_ne_nil_iff (hl : l ≠ []) : (fill size b 0 0 l).1 ≠ [] ↔ b.maxResults ≠ some 0 :=
  ⟨fun hne hcount => hne (fill_eq_nil hcount), fun hcount => fill_ne_nil hcount hl⟩

/-- There is no room for `a` after `front`. -/
def Budget.stopsAt (size : α → ℕ) (b : Budget) (count bytes : ℕ) (front : List α) (a : α) : Bool :=
  b.exceedCount (count + front.length) ||
    b.exceedBytes (count + front.length) (bytes + (front.map size).sum + size a)

theorem stopsAt_cons {front : List α} {a a' : α} :
    b.stopsAt size count bytes (a' :: front) a =
      b.stopsAt size (count + 1) (bytes + size a') front a := by
  rw [Budget.stopsAt, Budget.stopsAt, List.length_cons, List.map_cons, List.sum_cons,
    ← Nat.add_assoc, Nat.add_right_comm count, ← Nat.add_assoc bytes]

/-- A page ends before an item without room. -/
theorem fill_stop {page rest : List α} {a : α} (h : fill size b count bytes l = (page, a :: rest)) :
    b.stopsAt size count bytes page a = true := by
  induction l generalizing count bytes page with
  | nil => exact absurd (congrArg Prod.snd h) (by simp [fill])
  | cons a' l ih =>
    rw [fill] at h
    split at h
    · rename_i hstop
      obtain ⟨rfl, htail⟩ := Prod.mk.inj h
      obtain ⟨rfl, -⟩ := List.cons.inj htail
      exact hstop
    · obtain ⟨rfl, hrest⟩ := Prod.mk.inj h
      rw [stopsAt_cons]
      exact ih (Prod.ext rfl hrest)

/-- For the items before there was room. -/
theorem fill_go {page rest front back : List α} {a : α}
    (h : fill size b count bytes l = (page, rest)) (hpage : page = front ++ a :: back) :
    b.stopsAt size count bytes front a = false := by
  induction l generalizing count bytes page front with
  | nil =>
    rw [hpage] at h
    exact absurd (congrArg Prod.fst h) (by simp [fill])
  | cons a' l ih =>
    rw [fill] at h
    split at h
    · obtain ⟨rfl, -⟩ := Prod.mk.inj h
      exact absurd hpage (by simp)
    · rename_i hgo
      obtain ⟨rfl, hrest⟩ := Prod.mk.inj h
      cases front with
      | nil =>
        obtain ⟨rfl, -⟩ := List.cons.inj hpage
        exact Bool.eq_false_iff.mpr hgo
      | cons a'' front =>
        obtain ⟨rfl, hfront⟩ := List.cons.inj hpage
        rw [stopsAt_cons]
        exact ih (Prod.ext rfl hrest) hfront

/-- The budget has room for the items: for so many, and from the second on for so many bytes. -/
def Budget.Admits (size : α → ℕ) (b : Budget) (l : List α) : Prop :=
  (∀ n ∈ b.maxResults, l.length ≤ n) ∧ (l.length ≤ 1 ∨ ∀ n ∈ b.maxBytes, (l.map size).sum ≤ n)

theorem stopsAt_eq_true {front : List α} {a : α} : b.stopsAt size 0 0 front a = true ↔
    (∃ n ∈ b.maxResults, n ≤ front.length) ∨
      front ≠ [] ∧ ∃ n ∈ b.maxBytes, n < (front.map size).sum + size a := by
  rw [Budget.stopsAt, Nat.zero_add, Nat.zero_add, Bool.or_eq_true, Budget.exceedCount,
    Budget.exceedBytes, ← List.length_pos_iff]
  simp only [Option.any_eq_true, decide_eq_true_eq, Bool.and_eq_true]
  refine or_congr_right ⟨?_, ?_⟩
  · rintro ⟨n, hn, hpos, hlt⟩
    exact ⟨hpos, n, hn, hlt⟩
  · rintro ⟨hpos, n, hn, hlt⟩
    exact ⟨n, hn, hpos, hlt⟩

/-- One item more is admitted exactly when there is room for it. -/
theorem admits_append_singleton {front : List α} {a : α} :
    b.Admits size (front ++ [a]) ↔ b.stopsAt size 0 0 front a = false := by
  rw [← Bool.not_eq_true, stopsAt_eq_true, Budget.Admits, List.length_append, List.map_append,
    List.sum_append, not_or, not_and_or, not_not, ← List.length_eq_zero_iff]
  simp only [not_exists, not_and, List.length_singleton, List.map_singleton, List.sum_singleton]
  refine and_congr ⟨fun h n hn => ?_, fun h n hn => ?_⟩ (or_congr ?_ ⟨fun h n hn => ?_, fun h n hn => ?_⟩)
  · have := h n hn
    omega
  · have := h n hn
    omega
  · omega
  · have := h n hn
    omega
  · have := h n hn
    omega

/-- What is admitted is admitted in part. -/
theorem Budget.Admits.front {front back : List α} (h : b.Admits size (front ++ back)) :
    b.Admits size front := by
  rw [Budget.Admits, List.length_append, List.map_append, List.sum_append] at h
  obtain ⟨hcount, hbytes⟩ := h
  refine ⟨fun n hn => ?_, ?_⟩
  · have := hcount n hn
    omega
  · rcases hbytes with hone | hbytes
    · exact .inl (by omega)
    · refine .inr fun n hn => ?_
      have := hbytes n hn
      omega

theorem admits_page {page rest : List α} (h : fill size b 0 0 l = (page, rest)) :
    b.Admits size page := by
  rcases List.eq_nil_or_concat' page with rfl | ⟨front, a, hpage⟩
  · exact ⟨fun n _ => Nat.zero_le n, .inl (Nat.zero_le 1)⟩
  · rw [hpage]
    exact admits_append_singleton.mpr (fill_go h hpage)

/-- **The longest page**: a longer front of the list is not admitted. -/
theorem fill_isGreatest {page rest : List α} (h : fill size b 0 0 l = (page, rest)) :
    IsGreatest {k | k ≤ l.length ∧ b.Admits size (l.take k)} page.length := by
  have happend : page ++ rest = l := by
    have := @fill_append _ size b l 0 0
    rwa [h] at this
  subst happend
  refine ⟨⟨by rw [List.length_append]; omega, ?_⟩, ?_⟩
  · rw [List.take_left]
    exact admits_page h
  · rintro k ⟨hk, hadmits⟩
    by_contra hlonger
    rw [List.length_append] at hk
    cases rest with
    | nil =>
      rw [List.length_nil] at hk
      omega
    | cons a rest =>
      -- the next item would have been taken
      obtain ⟨m, hm⟩ : ∃ m, k = page.length + (m + 1) := ⟨k - page.length - 1, by omega⟩
      rw [hm, List.take_length_add_append, List.take_succ_cons, List.append_cons] at hadmits
      have hroom := admits_append_singleton.mp hadmits.front
      rw [fill_stop h] at hroom
      exact absurd hroom (by simp)

/-- A list is one page exactly when all of it is admitted. -/
theorem fill_nil_iff {page rest : List α} (h : fill size b 0 0 l = (page, rest)) :
    rest = [] ↔ b.Admits size l := by
  have happend : page ++ rest = l := by
    have := @fill_append _ size b l 0 0
    rwa [h] at this
  constructor
  · rintro rfl
    rw [← happend, List.append_nil]
    exact admits_page h
  · intro hadmits
    have hle := (fill_isGreatest h).2 ⟨Nat.le_refl l.length, by rwa [List.take_length]⟩
    rw [← happend, List.length_append] at hle
    exact List.length_eq_zero_iff.mp (by omega)

end Fill

/-! ### Resuming -/

section Resume

variable {α κ : Type*} [LinearOrder κ] {key : α → κ} {k : κ} {l new page rest : List α} {a : α}

/-- The items with keys from `k` on. -/
def atOrAbove (key : α → κ) (k : κ) (l : List α) : List α := l.filter fun a => k ≤ key a

theorem atOrAbove_eq_self (h : ∀ a ∈ l, k ≤ key a) : atOrAbove key k l = l :=
  List.filter_eq_self.mpr fun a ha => decide_eq_true (h a ha)

theorem atOrAbove_eq_nil (h : ∀ a ∈ l, key a < k) : atOrAbove key k l = [] := by
  refine List.filter_eq_nil_iff.mpr fun a ha hk => ?_
  exact absurd (of_decide_eq_true hk) (not_le.mpr (h a ha))

theorem atOrAbove_append : atOrAbove key k (l ++ new) = atOrAbove key k l ++ atOrAbove key k new :=
  List.filter_append l new

theorem atOrAbove_of_le {k' : κ} (h : k ≤ k') :
    atOrAbove key k' (atOrAbove key k l) = atOrAbove key k' l := by
  rw [atOrAbove, atOrAbove, List.filter_filter]
  refine List.filter_congr fun a _ => ?_
  by_cases hk : k' ≤ key a
  · rw [decide_eq_true hk, decide_eq_true (h.trans hk), Bool.true_and]
  · rw [decide_eq_false hk, Bool.false_and]

/-- From an item on, in a list in strict key order. -/
theorem atOrAbove_of_sorted (hs : (page ++ a :: rest).Pairwise fun a b => key a < key b) :
    atOrAbove key (key a) (page ++ a :: rest) = a :: rest := by
  obtain ⟨-, htail, hcross⟩ := List.pairwise_append.mp hs
  rw [atOrAbove_append, atOrAbove_eq_nil fun b hb => hcross b hb a List.mem_cons_self,
    List.nil_append]
  refine atOrAbove_eq_self fun b hb => ?_
  rcases List.mem_cons.mp hb with rfl | hb
  · exact le_rfl
  · exact ((List.pairwise_cons.mp htail).1 b hb).le

/-- **Resuming**: what a log has from `k` on is the page that was read and what the
grown log has from the item on that did not fit. -/
theorem atOrAbove_resume (hs : (l ++ new).Pairwise fun a b => key a < key b)
    (h : atOrAbove key k l = page ++ a :: rest) :
    atOrAbove key k (l ++ new) = page ++ atOrAbove key (key a) (l ++ new) := by
  have ha : a ∈ atOrAbove key k l := by
    rw [h]
    exact List.mem_append_right _ List.mem_cons_self
  have hle : k ≤ key a := of_decide_eq_true (List.mem_filter.mp ha).2
  have hgrown : atOrAbove key k (l ++ new) = page ++ a :: (rest ++ atOrAbove key k new) := by
    rw [atOrAbove_append, h, List.append_assoc]
    rfl
  have hsorted : (page ++ a :: (rest ++ atOrAbove key k new)).Pairwise fun a b => key a < key b :=
    hgrown ▸ hs.sublist List.filter_sublist
  rw [← atOrAbove_of_le hle, hgrown, atOrAbove_of_sorted hsorted]

end Resume

end Paging
