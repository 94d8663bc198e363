/-
Stream patterns in SQL.

A query selects the rows whose stream SQLite's `GLOB` lets through, and then drops those
whose stream `glob::matches` rejects.  The two take a pattern apart at different places: a
wildcard of `GLOB` stands for one or more segments of a stream, `*` of `glob::matches` for
one, and `**` for any number, also for none.

* `globMatches_iff_blocks` — the streams that a pattern matches, by cuts into blocks;
* `matchParts_iff`, `glob_intercalate_iff` — both as cuts of the stream into runs, one for
  each segment of the pattern;
* `spread_of_matched_of_run` — a stream of at most four segments that both match can be cut
  with a segment for each wildcard;
* `aggregate_streams_iff` — a query folds the matching streams exactly when the streams of
  the table can be cut so.
-/
import Fossic.Aggregate

namespace Fossic

open Paging KeySort

/-- `glob::validate_pattern` -/
def validatePattern (isWhitespace : Char → Bool) (pattern : String) : Except Error Unit :=
  if pattern = "" then .error (.invalidStreamId pattern "pattern must not be empty")
  else if startsWith pattern "/" || pattern.toList.getLast? = some '/' then
    .error (.invalidStreamId pattern "pattern must not have a leading or trailing '/'")
  else
    match pattern.toList.find? fun c => isWhitespace c || "\"'".toList.contains c with
    | some c =>
      if isWhitespace c then
        .error (.invalidStreamId pattern "pattern must not contain whitespace")
      else .error (.invalidStreamId pattern "pattern must not contain quote characters")
    | none => .ok ()

/-! ### Cuts of a stream -/

/-- The segments of a stream are cut into runs, one for each segment of a pattern, that
`take` allows. -/
inductive Splits (take : List Char → List (List Char) → Prop) :
    List (List Char) → List (List Char) → Prop
  | nil : Splits take [] []
  | cons {p : List Char} {ps r s : List (List Char)} (hrun : take p r) (hrest : Splits take ps s) :
      Splits take (p :: ps) (r ++ s)

/-- For `glob::matches`. -/
def TakesMatched (p : List Char) (r : List (List Char)) : Prop :=
  p = ['*', '*'] ∨ ∃ x, r = [x] ∧ Fits p x

/-- For `GLOB`. -/
def TakesRun (p : List Char) (r : List (List Char)) : Prop :=
  r ≠ [] ∧ (p = ['*'] ∨ p = ['*', '*'] ∨ r = [p])

/-- For `glob::matches`, with a segment at least for each `**`. -/
def TakesSpread (p : List Char) (r : List (List Char)) : Prop := r ≠ [] ∧ TakesMatched p r

variable {take take' : List Char → List (List Char) → Prop} {p : List Char}
  {ps r s : List (List Char)}

theorem Splits.imp (h : Splits take ps s) (himp : ∀ p ∈ ps, ∀ r, take p r → take' p r) :
    Splits take' ps s := by
  induction h with
  | nil => exact .nil
  | cons hrun _ ih =>
    obtain ⟨hp, hps⟩ := List.forall_mem_cons.mp himp
    exact .cons (hp _ hrun) (ih hps)

theorem splits_nil : Splits take [] s ↔ s = [] :=
  ⟨fun h => by cases h; rfl, fun h => by subst h; exact .nil⟩

theorem splits_cons : Splits take (p :: ps) s ↔
    ∃ r s', s = r ++ s' ∧ take p r ∧ Splits take ps s' := by
  constructor
  · rintro (_ | ⟨hrun, hrest⟩)
    exact ⟨_, _, rfl, hrun, hrest⟩
  · rintro ⟨r, s', rfl, hrun, hrest⟩
    exact .cons hrun hrest

/-- `glob::matches` looks for a cut. -/
theorem matchParts_iff : matchParts ps s = true ↔ Splits TakesMatched ps s := by
  induction ps generalizing s with
  | nil =>
    rw [matchParts, splits_nil]
    exact List.isEmpty_iff
  | cons p ps ih =>
    rw [matchParts.eq_def, splits_cons]
    by_cases hp : p = ['*', '*']
    · simp only [if_pos hp, List.any_eq_true, ih]
      constructor
      · rintro ⟨i, -, h⟩
        exact ⟨s.take i, s.drop i, (List.take_append_drop i s).symm, .inl hp, h⟩
      · rintro ⟨r, s', rfl, -, h⟩
        refine ⟨r.length, List.mem_range.mpr ?_, ?_⟩
        · rw [List.length_append]
          omega
        · rwa [List.drop_left]
    · simp only [if_neg hp]
      have htake : ∀ r, TakesMatched p r ↔ ∃ x, r = [x] ∧ Fits p x := fun r =>
        ⟨fun h => h.resolve_left hp, .inr⟩
      cases s with
      | nil =>
        refine ⟨fun h => absurd h (by simp), ?_⟩
        rintro ⟨r, s', hnil, hrun, -⟩
        obtain ⟨x, rfl, -⟩ := (htake r).mp hrun
        exact absurd hnil (by simp)
      | cons x s =>
        rw [Bool.and_eq_true, Bool.or_eq_true, decide_eq_true_iff, decide_eq_true_iff, ih]
        constructor
        · rintro ⟨hfits, hrest⟩
          exact ⟨[x], s, rfl, .inr ⟨x, rfl, hfits⟩, hrest⟩
        · rintro ⟨r, s', hcons, hrun, hrest⟩
          obtain ⟨y, rfl, hfits⟩ := (htake r).mp hrun
          obtain ⟨rfl, rfl⟩ := List.cons.inj hcons
          exact ⟨hfits, hrest⟩

/-! ### The language of a pattern -/

/-- The block of a stream's segments that a segment of a pattern takes. -/
def TakesBlock (p : List Char) (block : List (List Char)) : Prop :=
  if p = ['*', '*'] then True
  else if p = ['*'] then block.length = 1
  else block = [p]

theorem takesMatched_iff : TakesMatched p r ↔ TakesBlock p r := by
  rw [TakesMatched, TakesBlock]
  split
  · rename_i hstars
    exact ⟨fun _ => trivial, fun _ => .inl hstars⟩
  · rename_i hstars
    rw [or_iff_right hstars]
    split
    · rename_i hstar
      rw [List.length_eq_one_iff]
      constructor
      · rintro ⟨x, rfl, -⟩
        exact ⟨x, rfl⟩
      · rintro ⟨x, rfl⟩
        exact ⟨x, rfl, .inl hstar⟩
    · rename_i hstar
      constructor
      · rintro ⟨x, rfl, hfits⟩
        rw [hfits.resolve_left hstar]
      · rintro rfl
        exact ⟨p, rfl, .inr rfl⟩

theorem splits_iff_blocks : Splits take ps s ↔
    ∃ blocks, List.Forall₂ take ps blocks ∧ blocks.flatten = s := by
  constructor
  · intro h
    induction h with
    | nil => exact ⟨[], .nil, rfl⟩
    | @cons p ps r s hrun _ ih =>
      obtain ⟨blocks, htakes, hflat⟩ := ih
      refine ⟨r :: blocks, .cons hrun htakes, ?_⟩
      rw [List.flatten_cons, hflat]
  · rintro ⟨blocks, htakes, rfl⟩
    induction htakes with
    | nil => exact .nil
    | cons hrun _ ih => exact .cons hrun ih

/-- **The language of a pattern**: a stream matches exactly when its segments can be cut into
blocks that the segments of the pattern take, one each; where no segment is a wildcard, and so
for every pattern that `is_exact` takes for one stream, this is equality. -/
theorem globMatches_iff_blocks (pattern streamId : String) :
    (globMatches pattern streamId = true ↔
      ∃ blocks, List.Forall₂ TakesBlock (segments pattern) blocks ∧
        blocks.flatten = segments streamId) ∧
    ((∀ p ∈ segments pattern, p ≠ ['*'] ∧ p ≠ ['*', '*']) →
      (globMatches pattern streamId = true ↔ pattern = streamId)) ∧
    (isGlob pattern = false → ∀ p ∈ segments pattern, p ≠ ['*'] ∧ p ≠ ['*', '*']) := by
  refine ⟨?_, globMatches_literal, segments_of_not_isGlob⟩
  rw [globMatches, matchParts_iff, splits_iff_blocks]
  have hblocks : ∀ blocks, List.Forall₂ TakesMatched (segments pattern) blocks ↔
      List.Forall₂ TakesBlock (segments pattern) blocks := fun blocks =>
    ⟨fun h => h.imp fun _ _ => takesMatched_iff.mp, fun h => h.imp fun _ _ => takesMatched_iff.mpr⟩
  simp only [hblocks]

/-- `a/**/z` takes `a/z`, its second segment an empty block. -/
theorem globMatches_iff_blocks_empty_block :
    (globMatches "a/**/z" "a/z" = true ↔
      ∃ blocks, List.Forall₂ TakesBlock (segments "a/**/z") blocks ∧
        blocks.flatten = segments "a/z") ∧
    (globMatches "a/b" "a/b" = true ↔ "a/b" = "a/b") := by
  refine ⟨(globMatches_iff_blocks _ _).1, (globMatches_iff_blocks _ _).2.1 ?_⟩
  exact (globMatches_iff_blocks _ "a/b").2.2 (by decide)

/-! ### The text of a stream -/

/-- A text with a slash is cut there, between two segments. -/
theorem intercalate_eq_append {a b : List Char} (h : ∀ x ∈ s, '/' ∉ x) (hne : s ≠ []) :
    ['/'].intercalate s = a ++ '/' :: b ↔ ∃ r s', s = r ++ s' ∧ r ≠ [] ∧ s' ≠ [] ∧
      a = ['/'].intercalate r ∧ b = ['/'].intercalate s' := by
  constructor
  · intro htext
    refine ⟨a.splitOn '/', b.splitOn '/', ?_, List.splitOn_ne_nil _ _, List.splitOn_ne_nil _ _,
      (List.intercalate_splitOn _).symm, (List.intercalate_splitOn _).symm⟩
    rw [← List.splitOn_append_cons_self, ← htext, List.splitOn_intercalate _ h hne]
  · rintro ⟨r, s', rfl, hr, hs', rfl, rfl⟩
    induction r with
    | nil => exact absurd rfl hr
    | cons x r ih =>
      obtain ⟨-, hrest⟩ := List.forall_mem_cons.mp h
      cases r with
      | nil =>
        obtain ⟨y, s', rfl⟩ := List.exists_cons_of_ne_nil hs'
        rw [List.singleton_append, List.intercalate_cons_cons, List.intercalate_singleton]
        simp
      | cons y r =>
        have hmore := ih hrest (by simp) (by simp)
        rw [List.cons_append, List.cons_append, List.intercalate_cons_cons,
          List.intercalate_cons_cons, ← List.cons_append, hmore]
        simp only [List.append_assoc]

/-- The text of one segment. -/
theorem intercalate_eq_segment (h : ∀ x ∈ s, '/' ∉ x) (hne : s ≠ []) (hp : '/' ∉ p) :
    ['/'].intercalate s = p ↔ s = [p] := by
  constructor
  · intro htext
    rw [← List.splitOn_intercalate _ h hne, htext, List.splitOn_eq_singleton hp]
  · rintro rfl
    exact List.intercalate_singleton

/-- The segment of a pattern is a wildcard, or a literal without a special character. -/
def PlainSegment (p : List Char) : Prop :=
  p = ['*'] ∨ p = ['*', '*'] ∨ SqliteGlob.Plain p ∧ '*' ∉ p

theorem PlainSegment.plain (h : PlainSegment p) : SqliteGlob.Plain p := by
  rcases h with rfl | rfl | h
  · exact ⟨by decide, by decide⟩
  · exact ⟨by decide, by decide⟩
  · exact h.1

/-- One segment of a pattern takes a run. -/
theorem glob_segment_iff (hplain : PlainSegment p) (hp : '/' ∉ p) (h : ∀ x ∈ s, '/' ∉ x)
    (hne : s ≠ []) : SqliteGlob.glob p (['/'].intercalate s) = true ↔ TakesRun p s := by
  rw [TakesRun]
  rcases hplain with rfl | rfl | ⟨hplain, hstar⟩
  · exact ⟨fun _ => ⟨hne, .inl rfl⟩, fun _ => SqliteGlob.glob_star⟩
  · exact ⟨fun _ => ⟨hne, .inr (.inl rfl)⟩, fun _ => SqliteGlob.glob_two_stars⟩
  · rw [SqliteGlob.glob_literal hplain hstar, intercalate_eq_segment h hne hp]
    constructor
    · intro heq
      exact ⟨hne, .inr (.inr heq)⟩
    · rintro ⟨-, rfl | rfl | heq⟩
      · exact absurd hstar (by simp)
      · exact absurd hstar (by simp)
      · exact heq

/-- **`GLOB`** looks for a cut into nonempty runs. -/
theorem glob_intercalate_iff (hplain : ∀ p ∈ ps, PlainSegment p) (hps : ∀ p ∈ ps, '/' ∉ p)
    (hpsne : ps ≠ []) (h : ∀ x ∈ s, '/' ∉ x) (hne : s ≠ []) :
    SqliteGlob.glob (['/'].intercalate ps) (['/'].intercalate s) = true ↔
      Splits TakesRun ps s := by
  induction ps generalizing s with
  | nil => exact absurd rfl hpsne
  | cons p ps ih =>
    obtain ⟨hpplain, hplain⟩ := List.forall_mem_cons.mp hplain
    obtain ⟨hp, hps⟩ := List.forall_mem_cons.mp hps
    rw [splits_cons]
    cases ps with
    | nil =>
      rw [List.intercalate_singleton, glob_segment_iff hpplain hp h hne]
      constructor
      · intro hrun
        exact ⟨s, [], (List.append_nil s).symm, hrun, .nil⟩
      · rintro ⟨r, s', rfl, hrun, hrest⟩
        obtain rfl := splits_nil.mp hrest
        rwa [List.append_nil]
    | cons q ps =>
      have hslash : '/' ≠ '*' ∧ '/' ≠ '?' ∧ '/' ≠ '[' := by decide
      rw [List.intercalate_cons_cons, List.append_assoc, List.singleton_append,
        SqliteGlob.glob_append hpplain.plain hslash]
      constructor
      · rintro ⟨a, b, htext, ha, hb⟩
        obtain ⟨r, s', rfl, hr, hs', rfl, rfl⟩ := (intercalate_eq_append h hne).mp htext
        obtain ⟨hrslash, hs'slash⟩ := List.forall_mem_append.mp h
        exact ⟨r, s', rfl, (glob_segment_iff hpplain hp hrslash hr).mp ha,
          (ih hplain hps (by simp) hs'slash hs').mp hb⟩
      · rintro ⟨r, s', rfl, hrun, hrest⟩
        have hs' : s' ≠ [] := by
          obtain ⟨r', s'', rfl, hrun', -⟩ := splits_cons.mp hrest
          exact List.append_ne_nil_of_left_ne_nil hrun'.1 s''
        obtain ⟨hrslash, hs'slash⟩ := List.forall_mem_append.mp h
        exact ⟨_, _, (intercalate_eq_append h hne).mpr ⟨r, s', rfl, hrun.1, hs', rfl, rfl⟩,
          (glob_segment_iff hpplain hp hrslash hrun.1).mpr hrun,
          (ih hplain hps (by simp) hs'slash hs').mpr hrest⟩

/-! ### Streams that both match -/

theorem TakesRun.length_pos (h : TakesRun p r) : 0 < r.length := List.length_pos_iff.mpr h.1

/-- A segment alone. -/
theorem TakesRun.spread {x : List Char} (h : TakesRun p [x]) : TakesSpread p [x] := by
  refine ⟨by simp, ?_⟩
  rcases h.2 with hp | hp | hx
  · exact .inr ⟨x, rfl, .inl hp⟩
  · exact .inl hp
  · exact .inr ⟨x, rfl, .inr (List.cons.inj hx).1.symm⟩

/-- A run of more than one segment, where it is not of a `*`. -/
theorem TakesRun.spread_of_ne (h : TakesRun p r) (hp : p ≠ ['*']) : TakesSpread p r := by
  refine ⟨h.1, ?_⟩
  rcases h.2 with hstar | hstars | rfl
  · exact absurd hstar hp
  · exact .inl hstars
  · exact .inr ⟨p, rfl, .inr rfl⟩

theorem TakesSpread.run (h : TakesSpread p r) : TakesRun p r := by
  obtain ⟨hne, hstars | ⟨x, rfl, hstar | rfl⟩⟩ := h
  · exact ⟨hne, .inr (.inl hstars)⟩
  · exact ⟨hne, .inl hstar⟩
  · exact ⟨hne, .inr (.inr rfl)⟩

/-- There are at least as many segments as runs. -/
theorem Splits.length_le (h : Splits TakesRun ps s) : ps.length ≤ s.length := by
  induction h with
  | nil => exact Nat.le_refl 0
  | cons hrun _ ih =>
    have hpos := hrun.length_pos
    rw [List.length_append, List.length_cons]
    omega

/-- As many segments as runs: every run is a segment. -/
theorem Splits.spread_of_length (h : Splits TakesRun ps s) (hlength : s.length = ps.length) :
    Splits TakesSpread ps s := by
  induction h with
  | nil => exact .nil
  | @cons p ps r s hrun hrest ih =>
    have hpos := hrun.length_pos
    have hle := hrest.length_le
    rw [List.length_append, List.length_cons] at hlength
    obtain ⟨x, rfl⟩ := List.length_eq_one_iff.mp (show r.length = 1 by omega)
    exact .cons hrun.spread (ih (by omega))

/-- Without a `*`, what `GLOB` takes is taken by a `**` or is a literal. -/
theorem Splits.spread_of_no_star (h : Splits TakesRun ps s) (hstar : ['*'] ∉ ps) :
    Splits TakesSpread ps s :=
  h.imp fun _ hp _ hrun => hrun.spread_of_ne fun heq => hstar (heq ▸ hp)

/-- Without a `**`, every segment of the pattern takes one. -/
theorem Splits.spread_of_no_stars (h : Splits TakesMatched ps s) (hstars : ['*', '*'] ∉ ps) :
    s.length = ps.length ∧ Splits TakesSpread ps s := by
  induction h with
  | nil => exact ⟨rfl, .nil⟩
  | @cons p ps r s hrun _ ih =>
    obtain ⟨hp, hps⟩ := not_or.mp (List.mem_cons.not.mp hstars)
    obtain ⟨hlength, hspread⟩ := ih hps
    obtain ⟨x, rfl, hx⟩ := hrun.resolve_left (Ne.symm hp)
    refine ⟨?_, .cons ⟨by simp, hrun⟩ hspread⟩
    rw [List.length_append, List.length_singleton, List.length_cons, hlength, Nat.add_comm]

/-- One `**` takes all that is left over. -/
theorem Splits.spread_of_one_stars (h : Splits TakesMatched ps s)
    (hone : ps.count ['*', '*'] ≤ 1) (hle : ps.length ≤ s.length) : Splits TakesSpread ps s := by
  induction h with
  | nil => exact .nil
  | @cons p ps r s hrun hrest ih =>
    rw [List.length_append, List.length_cons] at hle
    rw [List.count_cons] at hone
    by_cases hp : p = ['*', '*']
    · rw [if_pos (beq_iff_eq.mpr hp)] at hone
      have hstars : ['*', '*'] ∉ ps := List.count_eq_zero.mp (by omega)
      obtain ⟨hlength, hspread⟩ := hrest.spread_of_no_stars hstars
      have hr : r ≠ [] := List.length_pos_iff.mp (by omega)
      exact .cons ⟨hr, hrun⟩ hspread
    · obtain ⟨x, rfl, hx⟩ := hrun.resolve_left hp
      rw [List.length_singleton] at hle
      exact .cons ⟨by simp, hrun⟩ (ih (by omega) (by omega))

/-- Wildcards alone: each takes one segment, and a `**` what is left over. -/
theorem splits_wildcards (hwild : ∀ p ∈ ps, p = ['*'] ∨ p = ['*', '*'])
    (hle : ps.length ≤ s.length) (hrest : ['*', '*'] ∈ ps ∨ s.length = ps.length) :
    Splits TakesSpread ps s := by
  induction ps generalizing s with
  | nil =>
    obtain hnil : s.length = 0 := hrest.resolve_left List.not_mem_nil
    rw [splits_nil]
    exact List.length_eq_zero_iff.mp hnil
  | cons p ps ih =>
    obtain ⟨hp, hwild⟩ := List.forall_mem_cons.mp hwild
    rw [List.length_cons] at hle
    by_cases hmore : ['*', '*'] ∈ ps ∨ s.length = ps.length + 1
    · obtain ⟨x, s, rfl⟩ := List.exists_cons_of_length_pos (show 0 < s.length by omega)
      rw [List.length_cons] at hle hmore
      have hfirst : TakesRun p [x] := ⟨by simp, hp.imp_right .inl⟩
      exact .cons hfirst.spread
        (ih hwild (by omega) (hmore.imp_right fun hlength => by omega))
    · obtain ⟨hps, hlonger⟩ := not_or.mp hmore
      -- the last `**` leaves one segment for each `*` after it
      have hstars : p = ['*', '*'] := by
        rcases hrest with hmem | hlength
        · exact ((List.mem_cons.mp hmem).resolve_right hps).symm
        · rw [List.length_cons] at hlength
          exact absurd hlength hlonger
      rw [← List.take_append_drop (s.length - ps.length) s]
      have htake : (s.take (s.length - ps.length)).length = s.length - ps.length :=
        List.length_take_of_le (by omega)
      have hdrop : (s.drop (s.length - ps.length)).length = ps.length := by
        rw [List.length_drop]
        omega
      refine .cons ⟨List.length_pos_iff.mp (by omega), .inl hstars⟩ ?_
      exact ih hwild (by omega) (.inr hdrop)

/-- The segments of a pattern by their kinds. -/
theorem length_kinds (ps : List (List Char)) : ps.length = ps.count ['*', '*'] +
    ps.count ['*'] + (ps.filter fun p => p ≠ ['*'] ∧ p ≠ ['*', '*']).length := by
  induction ps with
  | nil => rfl
  | cons p ps ih =>
    rw [List.length_cons, List.count_cons, List.count_cons, List.filter_cons, ih]
    by_cases hstar : p = ['*']
    · subst hstar
      simp
      omega
    · by_cases hstars : p = ['*', '*']
      · subst hstars
        simp
        omega
      · simp [hstar, hstars]
        omega

/-- **Short streams.**  A stream of at most four segments that both match can be cut with a
segment for each wildcard. -/
theorem spread_of_matched_of_run (hmatched : Splits TakesMatched ps s)
    (hrun : Splits TakesRun ps s) (hshort : s.length ≤ 4) : Splits TakesSpread ps s := by
  have hle := hrun.length_le
  by_cases hone : ps.count ['*', '*'] ≤ 1
  · exact hmatched.spread_of_one_stars hone hle
  by_cases hstar : ['*'] ∈ ps
  · have hcount := List.count_pos_iff.mpr hstar
    have hkinds := length_kinds ps
    rcases hliterals : ps.filter fun p => p ≠ ['*'] ∧ p ≠ ['*', '*'] with _ | ⟨p, literals⟩
    · refine splits_wildcards (fun p hp => ?_) hle (.inl (List.count_pos_iff.mp (by omega)))
      by_contra hp'
      obtain ⟨hne, hne'⟩ := not_or.mp hp'
      have hmem := List.filter_eq_nil_iff.mp hliterals p hp
      exact hmem (decide_eq_true ⟨hne, hne'⟩)
    · -- two `**`, a `*` and a literal fill a stream
      rw [hliterals, List.length_cons] at hkinds
      exact hrun.spread_of_length (by omega)
  · exact hrun.spread_of_no_star hstar

/-! ### Pattern and stream -/

/-- Every wildcard of the pattern can be given a segment of the stream. -/
def Spread (pattern streamId : String) : Prop :=
  Splits TakesSpread (segments pattern) (segments streamId)

/-- A pattern that matches has only wildcards and segments of the stream. -/
theorem Splits.mem_of_matched (h : Splits TakesMatched ps s) :
    ∀ p ∈ ps, p = ['*'] ∨ p = ['*', '*'] ∨ p ∈ s := by
  induction h with
  | nil => exact fun p hp => absurd hp List.not_mem_nil
  | cons hrun _ ih =>
    rw [List.forall_mem_cons]
    constructor
    · rcases hrun with hstars | ⟨x, rfl, hstar | rfl⟩
      · exact .inr (.inl hstars)
      · exact .inl hstar
      · exact .inr (.inr List.mem_cons_self)
    · intro p hp
      exact (ih p hp).imp_right fun hrest => hrest.imp_right (List.mem_append_right _)

variable {isAlphanumeric : Char → Bool} {pattern streamId : String}

/-- **The selected streams.**  `GLOB` lets a matching stream through exactly when every
wildcard can be given a segment. -/
theorem glob_iff_spread (hchars : ∀ c ∈ ['*', '?', '['], isAlphanumeric c = false)
    (hvalid : validateStreamId isAlphanumeric streamId = .ok ())
    (hmatch : globMatches pattern streamId = true) :
    SqliteGlob.glob pattern.toList streamId.toList = true ↔ Spread pattern streamId := by
  have hstream := validateStreamId_eq_ok.mp hvalid
  have hmatched := matchParts_iff.mp hmatch
  -- the characters of a stream are no special characters of a pattern
  have hspecial : ∀ x ∈ segments streamId, ∀ c ∈ ['*', '?', '['], c ∉ x := by
    intro x hx c hc hmem
    rcases hstream.chars c (mem_of_mem_segments hx hmem) with halpha | hother
    · rw [hchars c hc] at halpha
      exact absurd halpha (by simp)
    · have hdisjoint : ∀ c ∈ ['*', '?', '['], c ∉ ['-', '_', '/'] := by simp
      exact hdisjoint c hc hother
  have hplain : ∀ p ∈ segments pattern, PlainSegment p := by
    intro p hp
    refine (hmatched.mem_of_matched p hp).imp_right fun hrest => hrest.imp_right fun hmem => ?_
    have hnone := hspecial p hmem
    exact ⟨⟨hnone '?' (by simp), hnone '[' (by simp)⟩, hnone '*' (by simp)⟩
  have htext : ∀ id : String, id.toList = ['/'].intercalate (segments id) := fun id =>
    (List.intercalate_splitOn _).symm
  have hne : ∀ id : String, segments id ≠ [] := fun id => List.splitOn_ne_nil _ _
  have hslash : ∀ id : String, ∀ x ∈ segments id, '/' ∉ x := fun id x hx => slash_not_mem hx
  rw [htext pattern, htext streamId,
    glob_intercalate_iff hplain (hslash pattern) (hne pattern) (hslash streamId) (hne streamId)]
  constructor
  · intro hrun
    exact spread_of_matched_of_run hmatched hrun hstream.few
  · intro hspread
    exact hspread.imp fun p _ r hr => hr.run

/-! ### Queries -/

/-- The rows that a query asks for, by their time. -/
def matchingRows (env : QueryEnv) (db : Db) (q : AggregateQuery) (clauses : List TagClause) :
    List EventRow :=
  sortBy (fun r => r.timestampUs.toInt) (db.events.filter fun r =>
    globMatches q.streamPattern r.streamId && q.restricts env clauses r)

variable {env : QueryEnv} {registry : UpcasterRegistry} {fuel : ℕ} {db : Db} {q : AggregateQuery}
  {clauses : List TagClause} {rows : List EventRow} {events : List StoredEvent}

/-- Upcasting keeps the streams of events. -/
theorem upcastAll_filter (h : upcastAll registry fuel (rows.map rowToEvent) = some (.ok events)) :
    upcastAll registry fuel
        ((rows.filter fun r => globMatches pattern r.streamId).map rowToEvent) =
      some (.ok (events.filter fun event => globMatches pattern event.streamId)) := by
  rw [upcastAll_eq_ok_iff] at h ⊢
  rw [List.forall₂_map_left_iff] at h ⊢
  induction h with
  | nil => exact .nil
  | @cons row event rows events hevent _ ih =>
    obtain ⟨-, hrecord⟩ := applyUpcaster_eq_ok hevent
    have hstream : event.streamId = row.streamId := by
      rw [hrecord]
      rfl
    rw [List.filter_cons, List.filter_cons, hstream]
    split
    · exact .cons hevent ih
    · exact ih

/-- What a query folds: the events of the matching rows that were selected. -/
theorem collected_of_selected (hclauses : tagClauses env q.indexedTagsFilter = .ok clauses)
    (h : aggregate env registry fuel db q collecting = some (.ok events)) :
    upcastAll registry fuel ((sortBy (fun r => r.timestampUs.toInt) (db.events.filter fun r =>
        globMatches q.streamPattern r.streamId &&
          (SqliteGlob.glob q.streamPattern.toList r.streamId.toList &&
            q.restricts env clauses r))).map rowToEvent) = some (.ok events) := by
  rw [aggregate, selectRows, hclauses] at h
  obtain ⟨all, hall, rfl⟩ := collected_iff.mp h
  rw [← List.filter_filter, sortBy_filter]
  exact upcastAll_filter hall

/-- The longer of two filters keeps no more only if they agree. -/
theorem of_length_filter {α : Type} {p p' : α → Bool} {l : List α}
    (himp : ∀ a, p a = true → p' a = true)
    (hlength : (l.filter p).length = (l.filter p').length) : ∀ a ∈ l, p' a = true → p a = true := by
  intro a ha hp'
  have hsub : (l.filter p).Sublist (l.filter p') := List.monotone_filter_right l himp
  have hmem : a ∈ l.filter p := by
    rw [hsub.eq_of_length hlength]
    exact List.mem_filter.mpr ⟨ha, hp'⟩
  exact (List.mem_filter.mp hmem).2

/-- **Aggregation over streams.**  A query folds the events of the matching streams exactly
when every matching stream of the table has a segment for each wildcard. -/
theorem aggregate_streams_iff (hchars : ∀ c ∈ ['*', '?', '['], env.isAlphanumeric c = false)
    (htable : ∀ r ∈ db.events, validateStreamId env.isAlphanumeric r.streamId = .ok ())
    (hclauses : tagClauses env q.indexedTagsFilter = .ok clauses)
    (h : aggregate env registry fuel db q collecting = some (.ok events)) :
    (∀ pattern streamId, validateStreamId env.isAlphanumeric streamId = .ok () →
      ((globMatches pattern streamId = true →
          SqliteGlob.glob pattern.toList streamId.toList = true) ↔
        (globMatches pattern streamId = true → Spread pattern streamId))) ∧
    aggregateBounded env registry fuel ⟨none, none⟩ db q collecting ⟨none, none⟩ =
      some (.ok (.complete events)) ∧
    (upcastAll registry fuel ((matchingRows env db q clauses).map rowToEvent) =
        some (.ok events) ↔
      ∀ r ∈ db.events, q.restricts env clauses r = true →
        globMatches q.streamPattern r.streamId = true → Spread q.streamPattern r.streamId) := by
  have hselected := collected_of_selected hclauses h
  refine ⟨fun pattern streamId hvalid => ?_, ?_, fun hall r hr hrestricts hmatch => ?_,
    fun hspread => ?_⟩
  · exact forall_congr' fun hmatch => glob_iff_spread hchars hvalid hmatch
  · have hadmits : Budget.Admits payloadSize (Budget.or ⟨none, none⟩ ⟨none, none⟩) events :=
      ⟨fun n hn => absurd hn (by simp [Budget.or]), .inr fun n hn => absurd hn (by simp [Budget.or])⟩
    rw [aggregateBounded_eq h, pageOutcome_complete hadmits, collecting_output]
  · -- as many rows were selected as match, so that these are all selected
    have hlength := (length_upcastAll hselected).symm.trans (length_upcastAll hall)
    rw [List.length_map, List.length_map, matchingRows, length_sortBy, length_sortBy] at hlength
    have hkept := of_length_filter (fun r hr => ?_) hlength r hr
      (Bool.and_eq_true_iff.mpr ⟨hmatch, hrestricts⟩)
    · rw [hmatch, hrestricts, Bool.true_and, Bool.and_true] at hkept
      exact (glob_iff_spread hchars (htable r hr) hmatch).mp hkept
    · obtain ⟨hmatch, hrest⟩ := Bool.and_eq_true_iff.mp hr
      rw [hmatch, (Bool.and_eq_true_iff.mp hrest).2]
      rfl
  · rw [← hselected, matchingRows]
    have hagree : ∀ r ∈ db.events,
        (globMatches q.streamPattern r.streamId && q.restricts env clauses r) =
          (globMatches q.streamPattern r.streamId &&
            (SqliteGlob.glob q.streamPattern.toList r.streamId.toList &&
              q.restricts env clauses r)) := by
      intro r hr
      rcases hmatch : globMatches q.streamPattern r.streamId with _ | _
      · rfl
      · rcases hrestricts : q.restricts env clauses r with _ | _
        · simp
        · have hkept := (glob_iff_spread hchars (htable r hr) hmatch).mpr
            (hspread r hr hrestricts hmatch)
          rw [hkept]
          rfl
    rw [List.filter_congr hagree]

theorem plainEnv_special : ∀ c ∈ ['*', '?', '['], plainEnv.isAlphanumeric c = false := by
  simp only [List.forall_mem_cons]
  exact ⟨rfl, rfl, rfl, fun c hc => absurd hc List.not_mem_nil⟩

theorem storedOn_valid {indexedTags : Option Json}
    (h : validateStreamId plainEnv.isAlphanumeric streamId = .ok ()) :
    ∀ r ∈ (storedOn streamId indexedTags).events,
      validateStreamId plainEnv.isAlphanumeric r.streamId = .ok () := by
  intro r hr
  obtain rfl := List.mem_singleton.mp hr
  exact h

/-- `a/**` gives its wildcard the `b` of `a/b`. -/
theorem aggregate_streams_iff_segment :
    upcastAll [] 0 ((matchingRows plainEnv (storedOn "a/b" none)
      ⟨"a/**", "main", none, none, none, none⟩ []).map rowToEvent) =
        some (.ok ((storedOn "a/b" none).events.map rowToEvent)) := by
  have hpattern : segments "a/**" = [['a'], ['*', '*']] := by decide
  have hstream : segments "a/b" = [['a'], ['b']] := by decide
  have hspread : Spread "a/**" "a/b" := by
    rw [Spread, hpattern, hstream]
    exact .cons (r := [['a']]) ⟨by simp, .inr ⟨_, rfl, .inr rfl⟩⟩
      (.cons (r := [['b']]) ⟨by simp, .inl rfl⟩ .nil)
  have htable := @storedOn_valid "a/b" none rfl
  refine (aggregate_streams_iff plainEnv_special htable rfl (by rfl)).2.2.mpr fun r hr _ _ => ?_
  obtain rfl := List.mem_singleton.mp hr
  exact hspread

/-- The stream `a` matches `a/**`, but it has no segment for the wildcard. -/
theorem stars_without_segment : ¬∀ (env : QueryEnv) (isWhitespace : Char → Bool)
    (registry : UpcasterRegistry) (fuel : ℕ) (db : Db) (q : AggregateQuery)
    (clauses : List TagClause) (events : List StoredEvent),
    (∀ c ∈ ['*', '?', '['], env.isAlphanumeric c = false) →
    (∀ r ∈ db.events, validateStreamId env.isAlphanumeric r.streamId = .ok ()) →
    validatePattern isWhitespace q.streamPattern = .ok () →
    tagClauses env q.indexedTagsFilter = .ok clauses →
    aggregate env registry fuel db q collecting = some (.ok events) →
    upcastAll registry fuel ((matchingRows env db q clauses).map rowToEvent) =
      some (.ok events) := by
  intro h
  have htable := @storedOn_valid "a" none rfl
  have hall := h plainEnv Char.isWhitespace [] 0 (storedOn "a" none)
    ⟨"a/**", "main", none, none, none, none⟩ [] [] plainEnv_special htable (by rfl) rfl (by rfl)
  exact absurd (length_upcastAll hall) (by decide)

end Fossic
