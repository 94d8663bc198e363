/-
The `GLOB` operator of SQLite.

A pattern is read into tokens: `*` stands for any characters, `?` for any one, and `[...]`
for one of a set, or with `[^...]` for one that is not in it.

* `matchTokens_append` — a pattern of two parts matches texts of two parts;
* `glob_append` — so do patterns of characters and `*` alone, around a character.
-/
import Mathlib.Data.List.Basic

namespace SqliteGlob

inductive Token
  | any
  | one
  | set (invert : Bool) (ranges : List (Char × Char))
  | char (c : Char)
  /-- A set that is not closed, which nothing matches. -/
  | unclosed

/-- What is being read: the pattern itself, the start of a set, the rest of a set after the
character that a `-` would make the start of a range, or the end of a range. -/
inductive Reading
  | pattern
  | opened (invert : Bool)
  | set (invert : Bool) (ranges : List (Char × Char)) (prior : Option Char)
  | range (invert : Bool) (ranges : List (Char × Char)) (first : Char)

def read : Reading → List Char → List Token
  | .pattern, [] => []
  | .pattern, c :: p =>
    if c = '*' then .any :: read .pattern p
    else if c = '?' then .one :: read .pattern p
    else if c = '[' then read (.opened false) p
    else .char c :: read .pattern p
  | .opened invert, c :: p =>
    if c = '^' && !invert then read (.opened true) p
    -- a `]` in the first place belongs to the set
    else if c = ']' then read (.set invert [(c, c)] none) p
    else read (.set invert [(c, c)] (some c)) p
  | .set invert ranges prior, c :: p =>
    if c = ']' then .set invert ranges :: read .pattern p
    else
      match prior with
      | some first =>
        if c = '-' then read (.range invert ranges first) p
        else read (.set invert ((c, c) :: ranges) (some c)) p
      | none => read (.set invert ((c, c) :: ranges) (some c)) p
  | .range invert ranges first, c :: p =>
    -- a `-` in the last place is itself
    if c = ']' then .set invert (('-', '-') :: ranges) :: read .pattern p
    else read (.set invert ((first, c) :: ranges) none) p
  | .opened _, [] | .set _ _ _, [] | .range _ _ _, [] => [.unclosed]

def matchTokens : List Token → List Char → Bool
  | [], s => s.isEmpty
  | .any :: ts, s => (List.range (s.length + 1)).any fun i => matchTokens ts (s.drop i)
  | .one :: ts, _ :: s => matchTokens ts s
  | .set invert ranges :: ts, x :: s =>
    (ranges.any fun r => r.1 ≤ x && x ≤ r.2) != invert && matchTokens ts s
  | .char c :: ts, x :: s => c = x && matchTokens ts s
  | _ :: _, _ => false

/-- `text GLOB pattern`. -/
def glob (pattern text : List Char) : Bool := matchTokens (read .pattern pattern) text

example : glob "a*[b-d]?".toList "a/x/cz".toList = true := by decide

variable {ts ts' : List Token} {s a b p p' : List Char} {c : Char}

theorem matchTokens_any : matchTokens (.any :: ts) s = true ↔
    ∃ a b, s = a ++ b ∧ matchTokens ts b = true := by
  rw [matchTokens, List.any_eq_true]
  constructor
  · rintro ⟨i, -, h⟩
    exact ⟨s.take i, s.drop i, (List.take_append_drop i s).symm, h⟩
  · rintro ⟨a, b, rfl, h⟩
    refine ⟨a.length, List.mem_range.mpr ?_, ?_⟩
    · rw [List.length_append]
      omega
    · rwa [List.drop_left]

/-- A token other than `*` takes the first character. -/
theorem matchTokens_cons {t : Token} (ht : t ≠ .any) : matchTokens (t :: ts) s = true ↔
    ∃ x b, s = x :: b ∧ matchTokens [t] [x] = true ∧ matchTokens ts b = true := by
  cases s with
  | nil =>
    refine ⟨fun h => ?_, fun ⟨x, b, h, _⟩ => absurd h (by simp)⟩
    cases t <;> simp_all [matchTokens]
  | cons x s =>
    constructor
    · intro h
      refine ⟨x, s, rfl, ?_⟩
      cases t <;> simp_all [matchTokens]
    · rintro ⟨x, b, h, hx, hb⟩
      obtain ⟨rfl, rfl⟩ := List.cons.inj h
      cases t <;> simp_all [matchTokens]

/-- **Two parts.** -/
theorem matchTokens_append : matchTokens (ts ++ ts') s = true ↔
    ∃ a b, s = a ++ b ∧ matchTokens ts a = true ∧ matchTokens ts' b = true := by
  induction ts generalizing s with
  | nil =>
    constructor
    · exact fun h => ⟨[], s, rfl, rfl, h⟩
    · rintro ⟨a, b, rfl, ha, hb⟩
      obtain rfl := List.isEmpty_iff.mp ha
      exact hb
  | cons t ts ih =>
    by_cases ht : t = .any
    · subst ht
      rw [List.cons_append, matchTokens_any]
      constructor
      · rintro ⟨a, b, rfl, h⟩
        obtain ⟨b, b', rfl, hb, hb'⟩ := ih.mp h
        exact ⟨a ++ b, b', (List.append_assoc _ _ _).symm, matchTokens_any.mpr ⟨a, b, rfl, hb⟩, hb'⟩
      · rintro ⟨a, b, rfl, ha, hb⟩
        obtain ⟨a, a', rfl, ha'⟩ := matchTokens_any.mp ha
        exact ⟨a, a' ++ b, List.append_assoc _ _ _, ih.mpr ⟨a', b, rfl, ha', hb⟩⟩
    · rw [List.cons_append, matchTokens_cons ht]
      constructor
      · rintro ⟨x, b, rfl, hx, h⟩
        obtain ⟨b, b', rfl, hb, hb'⟩ := ih.mp h
        exact ⟨x :: b, b', rfl, (matchTokens_cons ht).mpr ⟨x, b, rfl, hx, hb⟩, hb'⟩
      · rintro ⟨a, b, rfl, ha, hb⟩
        obtain ⟨x, a, rfl, hx, ha⟩ := (matchTokens_cons ht).mp ha
        exact ⟨x, a ++ b, rfl, hx, ih.mpr ⟨a, b, rfl, ha, hb⟩⟩

/-! ### Patterns of characters and `*` -/

/-- The pattern has no sets and no `?`. -/
def Plain (p : List Char) : Prop := '?' ∉ p ∧ '[' ∉ p

theorem Plain.tail (h : Plain (c :: p)) : Plain p :=
  ⟨fun hmem => h.1 (List.mem_cons_of_mem c hmem), fun hmem => h.2 (List.mem_cons_of_mem c hmem)⟩

/-- Every character is a token of its own. -/
theorem read_cons (hone : c ≠ '?') (hset : c ≠ '[') :
    read .pattern (c :: p) = (if c = '*' then .any else .char c) :: read .pattern p := by
  by_cases hc : c = '*'
  · simp [read, hc]
  · simp [read, hc, hone, hset]

theorem Plain.read_cons (h : Plain (c :: p)) :
    read .pattern (c :: p) = (if c = '*' then .any else .char c) :: read .pattern p :=
  SqliteGlob.read_cons (fun hc => h.1 (hc ▸ List.mem_cons_self))
    fun hc => h.2 (hc ▸ List.mem_cons_self)

theorem read_append (h : Plain p) :
    read .pattern (p ++ p') = read .pattern p ++ read .pattern p' := by
  induction p with
  | nil => rfl
  | cons c p ih =>
    have hone : c ≠ '?' := fun hc => h.1 (hc ▸ List.mem_cons_self)
    have hset : c ≠ '[' := fun hc => h.2 (hc ▸ List.mem_cons_self)
    rw [List.cons_append, read_cons hone hset, read_cons hone hset, ih h.tail, List.cons_append]

/-- A pattern without a wildcard matches itself. -/
theorem glob_literal (h : Plain p) (hstar : '*' ∉ p) : glob p s = true ↔ s = p := by
  induction p generalizing s with
  | nil => exact List.isEmpty_iff
  | cons c p ih =>
    have hc : c ≠ '*' := fun hc => hstar (hc ▸ List.mem_cons_self)
    have hrest : ∀ {s}, matchTokens (read .pattern p) s = true ↔ s = p := fun {s} =>
      ih h.tail fun hmem => hstar (List.mem_cons_of_mem c hmem)
    rw [glob, h.read_cons, if_neg hc]
    cases s with
    | nil => exact ⟨fun hnil => absurd hnil (by simp [matchTokens]), fun hnil => absurd hnil (by simp)⟩
    | cons x s => rw [matchTokens, Bool.and_eq_true, decide_eq_true_iff, hrest, List.cons.injEq, eq_comm]

/-- `*` alone matches every text. -/
theorem glob_star : glob ['*'] s = true := by
  have hread : read .pattern ['*'] = [.any] := rfl
  rw [glob, hread, matchTokens_any]
  exact ⟨s, [], (List.append_nil s).symm, rfl⟩

theorem glob_two_stars : glob ['*', '*'] s = true := by
  have hread : read .pattern ['*', '*'] = [.any, .any] := rfl
  rw [glob, hread, matchTokens_any]
  exact ⟨[], s, rfl, matchTokens_any.mpr ⟨s, [], (List.append_nil s).symm, rfl⟩⟩

/-- **Around a character**: the text has the character there. -/
theorem glob_append (h : Plain p) (hc : c ≠ '*' ∧ c ≠ '?' ∧ c ≠ '[') :
    glob (p ++ c :: p') s = true ↔
      ∃ a b, s = a ++ c :: b ∧ glob p a = true ∧ glob p' b = true := by
  have hchar : Token.char c ≠ .any := by simp
  rw [glob, read_append h, read_cons hc.2.1 hc.2.2, if_neg hc.1, matchTokens_append]
  constructor
  · rintro ⟨a, b, rfl, ha, hb⟩
    obtain ⟨x, b, rfl, hx, hrest⟩ := (matchTokens_cons hchar).mp hb
    obtain rfl : c = x := by simpa [matchTokens] using hx
    exact ⟨a, b, rfl, ha, hrest⟩
  · rintro ⟨a, b, rfl, ha, hb⟩
    exact ⟨a, c :: b, rfl, ha, (matchTokens_cons hchar).mpr ⟨c, b, rfl, by simp [matchTokens], hb⟩⟩

end SqliteGlob
