/-
Stream patterns: `*` matches one path segment, `**` any number of them.

* `globMatches` — the matcher, on the `/`-separated segments of pattern and
  stream id;
* `globMatches_of_not_isGlob` — a pattern without `*` matches exactly one stream,
  itself;
* `exists_common_stream` — when two patterns without `**` match a common stream.
-/
import Fossic.Types
import Mathlib.Data.List.Basic

namespace Fossic

/-- `s.split('/')`. -/
def segments (s : String) : List (List Char) := s.toList.splitOn '/'

/-- `s.starts_with(pre)`. -/
def startsWith (s pre : String) : Bool := pre.toList.isPrefixOf s.toList

/-- `pattern.contains('*')`. -/
def isGlob (pattern : String) : Bool := pattern.toList.contains '*'

def matchParts : List (List Char) → List (List Char) → Bool
  | [], s => s.isEmpty
  | p :: ps, s =>
    if p = ['*', '*'] then (List.range (s.length + 1)).any fun i => matchParts ps (s.drop i)
    else
      match s with
      | [] => false
      | x :: xs => (p = ['*'] || p = x) && matchParts ps xs

/-- `glob::matches`. -/
def globMatches (pattern streamId : String) : Bool :=
  matchParts (segments pattern) (segments streamId)

/-- Number of leading literal (non-wildcard) path segments. -/
def specificityScore (pattern : String) : ℕ :=
  ((segments pattern).takeWhile fun s => s != ['*'] && s != ['*', '*']).length

/-- `**` matches every stream. -/
theorem globMatches_dstar (streamId : String) : globMatches "**" streamId = true := by
  have hsegments : segments "**" = [['*', '*']] := by decide
  rw [globMatches, hsegments]
  unfold matchParts
  rw [if_pos rfl, List.any_eq_true]
  refine ⟨(segments streamId).length, List.mem_range.mpr (Nat.lt_succ_self _), ?_⟩
  rw [List.drop_length, matchParts]
  rfl

/-! ### Patterns without wildcards -/

theorem segments_injective {s t : String} (h : segments s = segments t) : s = t := by
  have hlist := congrArg (List.intercalate ['/']) h
  rw [segments, segments, List.intercalate_splitOn, List.intercalate_splitOn] at hlist
  exact String.toList_inj.mp hlist

theorem mem_intercalate {α : Type} {sep p : List α} {c : α} (hc : c ∈ p) :
    ∀ {l : List (List α)}, p ∈ l → c ∈ sep.intercalate l
  | [x], hp => by
    obtain rfl := List.mem_singleton.mp hp
    simpa using hc
  | x :: y :: l, hp => by
    rw [List.intercalate_cons_cons, List.mem_append, List.mem_append]
    rcases List.mem_cons.mp hp with rfl | hp
    · exact .inl (.inl hc)
    · exact .inr (mem_intercalate hc hp)

/-- A segment of a string has only characters of the string. -/
theorem mem_of_mem_segments {s : String} {p : List Char} {c : Char} (hp : p ∈ segments s)
    (hc : c ∈ p) : c ∈ s.toList := by
  rw [← @List.intercalate_splitOn _ s.toList _ _ '/']
  exact mem_intercalate hc hp

theorem matchParts_literal : ∀ {ps s : List (List Char)},
    (∀ p ∈ ps, p ≠ ['*'] ∧ p ≠ ['*', '*']) → (matchParts ps s = true ↔ ps = s)
  | [], s, _ => by cases s <;> simp [matchParts]
  | p :: ps, s, h => by
    obtain ⟨⟨hstar, hstars⟩, hps⟩ := List.forall_mem_cons.mp h
    cases s with
    | nil => simp [matchParts, hstars]
    | cons x xs => simp [matchParts, hstars, hstar, matchParts_literal hps]

/-- A pattern none of whose segments is a wildcard. -/
theorem globMatches_literal {pattern streamId : String}
    (h : ∀ p ∈ segments pattern, p ≠ ['*'] ∧ p ≠ ['*', '*']) :
    globMatches pattern streamId = true ↔ pattern = streamId := by
  rw [globMatches, matchParts_literal h]
  exact ⟨segments_injective, fun e => e ▸ rfl⟩

theorem segments_of_not_isGlob {pattern : String} (h : isGlob pattern = false) :
    ∀ p ∈ segments pattern, p ≠ ['*'] ∧ p ≠ ['*', '*'] := by
  have hstar : '*' ∉ pattern.toList := by simpa [isGlob] using h
  intro p hp
  constructor
  · rintro rfl
    exact hstar (mem_of_mem_segments hp (by simp))
  · rintro rfl
    exact hstar (mem_of_mem_segments hp (by simp))

theorem globMatches_of_not_isGlob {pattern streamId : String} (h : isGlob pattern = false) :
    globMatches pattern streamId = true ↔ pattern = streamId :=
  globMatches_literal (segments_of_not_isGlob h)

/-! ### Patterns without `**` -/

/-- The segment `p` of a pattern, other than `**`, lets the segment `x` through. -/
def Fits (p x : List Char) : Prop := p = ['*'] ∨ p = x

theorem matchParts_iff_forall₂ : ∀ {ps s : List (List Char)}, (∀ p ∈ ps, p ≠ ['*', '*']) →
    (matchParts ps s = true ↔ List.Forall₂ Fits ps s)
  | [], s, _ => by cases s <;> simp [matchParts]
  | p :: ps, s, h => by
    obtain ⟨hp, hps⟩ := List.forall_mem_cons.mp h
    cases s with
    | nil => simp [matchParts, hp]
    | cons x xs => simp [matchParts, hp, matchParts_iff_forall₂ hps, Fits]

theorem slash_not_mem : ∀ {cs p : List Char}, p ∈ cs.splitOn '/' → '/' ∉ p
  | [], p, hp => by
    obtain rfl : p = [] := by simpa using hp
    exact List.not_mem_nil
  | c :: cs, p, hp => by
    rw [List.splitOn_cons_eq_if_modifyHead] at hp
    split at hp
    · rcases List.mem_cons.mp hp with rfl | hp
      · exact List.not_mem_nil
      · exact slash_not_mem hp
    · rename_i hc
      rcases hsplit : cs.splitOn '/' with _ | ⟨q, rest⟩
      · exact absurd hsplit (List.splitOn_ne_nil _ _)
      · rw [hsplit, List.modifyHead_cons] at hp
        have hrest : ∀ r ∈ q :: rest, '/' ∉ r := fun r hr => slash_not_mem (hsplit ▸ hr)
        rcases List.mem_cons.mp hp with rfl | hp
        · rw [List.mem_cons, not_or]
          exact ⟨fun h => hc (beq_iff_eq.mpr h.symm), hrest q List.mem_cons_self⟩
        · exact hrest p (List.mem_cons_of_mem _ hp)

/-- The stream with the given segments. -/
def joinSegments (parts : List (List Char)) : String := String.ofList (['/'].intercalate parts)

theorem segments_joinSegments {parts : List (List Char)} (hne : parts ≠ [])
    (h : ∀ p ∈ parts, '/' ∉ p) : segments (joinSegments parts) = parts := by
  rw [segments, joinSegments, String.toList_ofList, List.splitOn_intercalate _ h hne]

/-- Two segments that let a common segment through. -/
def Compatible (p q : List Char) : Prop := p = ['*'] ∨ q = ['*'] ∨ p = q

/-- A segment that both let through: the literal one, if there is one. -/
def meet (p q : List Char) : List Char := if p = ['*'] then q else p

theorem fits_meet {p q : List Char} (h : Compatible p q) : Fits p (meet p q) ∧ Fits q (meet p q) := by
  rw [meet]
  split
  · rename_i hp
    exact ⟨.inl hp, .inr rfl⟩
  · rename_i hp
    rcases h with h | h | rfl
    · exact absurd h hp
    · exact ⟨.inr rfl, .inl h⟩
    · exact ⟨.inr rfl, .inr rfl⟩

theorem compatible_of_fits {p q x : List Char} (hp : Fits p x) (hq : Fits q x) :
    Compatible p q := by
  rcases hp with rfl | rfl
  · exact .inl rfl
  · exact .inr (hq.imp_right Eq.symm)

theorem compatible_of_common : ∀ {ps qs s : List (List Char)}, List.Forall₂ Fits ps s →
    List.Forall₂ Fits qs s → List.Forall₂ Compatible ps qs
  | _, _, _, .nil, .nil => .nil
  | _, _, _, .cons hp hps, .cons hq hqs =>
    .cons (compatible_of_fits hp hq) (compatible_of_common hps hqs)

theorem common_of_compatible {ps qs : List (List Char)} (h : List.Forall₂ Compatible ps qs) :
    List.Forall₂ Fits ps (List.zipWith meet ps qs) ∧
      List.Forall₂ Fits qs (List.zipWith meet ps qs) := by
  induction h with
  | nil => exact ⟨.nil, .nil⟩
  | cons hpq _ ih => exact ⟨.cons (fits_meet hpq).1 ih.1, .cons (fits_meet hpq).2 ih.2⟩

theorem slash_not_mem_meet : ∀ {ps qs : List (List Char)}, (∀ p ∈ ps, '/' ∉ p) →
    (∀ q ∈ qs, '/' ∉ q) → ∀ r ∈ List.zipWith meet ps qs, '/' ∉ r
  | [], _, _, _ => fun r hr => absurd hr (by simp)
  | _ :: _, [], _, _ => fun r hr => absurd hr (by simp)
  | p :: ps, q :: qs, hps, hqs => by
    obtain ⟨hp, hps⟩ := List.forall_mem_cons.mp hps
    obtain ⟨hq, hqs⟩ := List.forall_mem_cons.mp hqs
    rw [List.zipWith_cons_cons, List.forall_mem_cons]
    refine ⟨?_, slash_not_mem_meet hps hqs⟩
    rw [meet]
    split
    · exact hq
    · exact hp

/-- **Common streams**: patterns without `**` match a common stream exactly when they
have equally many segments, compatible one by one. -/
theorem exists_common_stream {a b : String} (ha : ∀ p ∈ segments a, p ≠ ['*', '*'])
    (hb : ∀ p ∈ segments b, p ≠ ['*', '*']) :
    (∃ streamId, globMatches a streamId = true ∧ globMatches b streamId = true) ↔
      List.Forall₂ Compatible (segments a) (segments b) := by
  simp only [globMatches, matchParts_iff_forall₂ ha, matchParts_iff_forall₂ hb]
  constructor
  · rintro ⟨streamId, hfa, hfb⟩
    exact compatible_of_common hfa hfb
  · intro h
    -- the stream takes the literal segments of both patterns
    obtain ⟨hfa, hfb⟩ := common_of_compatible h
    refine ⟨joinSegments (List.zipWith meet (segments a) (segments b)), ?_⟩
    rw [segments_joinSegments]
    · exact ⟨hfa, hfb⟩
    · intro hnil
      rw [hnil] at hfa
      exact List.splitOn_ne_nil _ _ (List.forall₂_nil_right_iff.mp hfa)
    · exact slash_not_mem_meet (fun p hp => slash_not_mem hp) fun p hp => slash_not_mem hp

end Fossic
