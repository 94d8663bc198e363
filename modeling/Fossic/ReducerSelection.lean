/-
Which reducer a stream gets.

Registrations are tried one after another; a pattern that ties with an overlapping
one is refused.  What is accepted is therefore `Admissible`: no two accepted patterns of
the same score match a common stream.  The lookup is then a scan without ties, so it
depends on the set of registered patterns only.

* `overlap_iff` — the overlap test is exact for patterns without `**`;
* `foldl_register` — the accepted registrations of any sequence are admissible;
* `reducer_selection` — which reducer a stream gets after any sequence of registrations.
-/
import Fossic.Reducers

namespace Fossic

open BestScan

/-! ### Sequences of registrations -/

/-- A call of `register`, `register_dyn` or one of their variants with a policy. -/
structure Registration where
  pattern : String
  reducer : BoxedReducer
  policy : SnapshotPolicy

def Registration.entry (r : Registration) : ReducerEntry :=
  ⟨r.pattern, specificityScore r.pattern, r.reducer, r.policy⟩

/-- One call: its result and the registry after it. -/
def register (entries : List ReducerEntry) (r : Registration) :
    Except Error Unit × List ReducerEntry :=
  match registerWithPolicy entries r.pattern r.reducer r.policy with
  | .ok entries' => (.ok (), entries')
  | .error e => (.error e, entries)

/-- The registry after the calls. -/
def registered (regs : List Registration) : List ReducerEntry :=
  regs.foldl (fun entries r => (register entries r).2) []

/-- The calls among `regs` that succeed, from the registry `entries` on. -/
def acceptedFrom (entries : List ReducerEntry) : List Registration → List Registration
  | [] => []
  | r :: regs =>
    match register entries r with
    | (.ok (), entries') => r :: acceptedFrom entries' regs
    | (.error _, entries') => acceptedFrom entries' regs

def accepted (regs : List Registration) : List Registration := acceptedFrom [] regs

/-- The registered entries that match the stream with the largest score of all that
do. -/
def mostSpecific (entries : List ReducerEntry) (streamId : String) : List ReducerEntry :=
  bests (fun e => globMatches e.pattern streamId) (·.specificity) entries

/-! ### Overlapping patterns -/

variable {entries entries' : List ReducerEntry} {streamId : String} {a b r : Registration}
  {regs regs' : List Registration}

/-- No segment is `**`. -/
def NoDstar (pattern : String) : Prop := ∀ p ∈ segments pattern, p ≠ ['*', '*']

theorem contains_dstar_iff {pattern : String} :
    (segments pattern).contains ['*', '*'] = false ↔ NoDstar pattern := by
  rw [← Bool.not_eq_true, List.contains_iff_mem]
  exact ⟨fun h p hp heq => h (heq ▸ hp), fun h hmem => h _ hmem rfl⟩

theorem forall₂_compatible_iff : ∀ {ps qs : List (List Char)}, List.Forall₂ Compatible ps qs ↔
    ps.length = qs.length ∧
      ((ps.zip qs).all fun p => p.1 == ['*'] || p.2 == ['*'] || p.1 == p.2) = true
  | [], [] => by simp
  | [], _ :: _ => by simp
  | _ :: _, [] => by simp
  | p :: ps, q :: qs => by
    rw [List.forall₂_cons, forall₂_compatible_iff]
    simp [Compatible, or_assoc]
    tauto

/-- Without `**` the overlap test is exact. -/
theorem overlap_iff {a b : String} (ha : NoDstar a) (hb : NoDstar b) :
    patternsMayOverlap a b = true ↔
      ∃ streamId, globMatches a streamId = true ∧ globMatches b streamId = true := by
  rw [exists_common_stream ha hb, forall₂_compatible_iff, patternsMayOverlap]
  simp only [contains_dstar_iff.mpr ha, contains_dstar_iff.mpr hb, Bool.not_false, Bool.true_and]
  by_cases hlength : (segments a).length = (segments b).length
  · simp [hlength]
  · simp [hlength]

/-- With `**` on either side it always answers yes. -/
theorem overlap_of_dstar {a b : String} (h : ¬(NoDstar a ∧ NoDstar b)) :
    patternsMayOverlap a b = true := by
  rw [← contains_dstar_iff, ← contains_dstar_iff, not_and_or, Bool.not_eq_false,
    Bool.not_eq_false] at h
  rw [patternsMayOverlap]
  rcases h with h | h <;> simp only [h, Bool.not_true, Bool.false_and, Bool.and_false,
    Bool.false_eq_true, if_false]

/-- The overlap test misses nothing. -/
theorem overlap_of_common {a b : String} (ha : globMatches a streamId = true)
    (hb : globMatches b streamId = true) : patternsMayOverlap a b = true := by
  by_cases hdstar : NoDstar a ∧ NoDstar b
  · exact (overlap_iff hdstar.1 hdstar.2).mpr ⟨streamId, ha, hb⟩
  · exact overlap_of_dstar hdstar

theorem overlap_comm {a b : String} (h : patternsMayOverlap a b = true) :
    patternsMayOverlap b a = true := by
  by_cases hdstar : NoDstar a ∧ NoDstar b
  · obtain ⟨streamId, ha, hb⟩ := (overlap_iff hdstar.1 hdstar.2).mp h
    exact overlap_of_common hb ha
  · exact overlap_of_dstar (hdstar ∘ And.symm)

/-! ### One registration -/

/-- The entry keeps the pattern from being registered. -/
def ReducerEntry.Excludes (e : ReducerEntry) (pattern : String) : Prop :=
  patternsMayOverlap pattern e.pattern = true ∧ specificityScore pattern = e.specificity

/-- **One call**: an invalid policy or an entry that excludes the pattern refuses it, and
then nothing changes; otherwise its entry is added. -/
theorem register_cases (entries : List ReducerEntry) (r : Registration) :
    (∃ e, register entries r = (.error e, entries) ∧
      (validateSnapshotPolicy r.policy = .error e ∨
        ∃ x ∈ entries, x.Excludes r.pattern ∧ e = .reducerPatternAmbiguous x.pattern r.pattern)) ∨
    register entries r = (.ok (), entries ++ [r.entry]) ∧
      validateSnapshotPolicy r.policy = .ok () ∧ ∀ x ∈ entries, ¬x.Excludes r.pattern := by
  rcases hpolicy : validateSnapshotPolicy r.policy with e | u
  · have hcall : registerWithPolicy entries r.pattern r.reducer r.policy = .error e := by
      rw [registerWithPolicy, hpolicy]
      rfl
    rw [register, hcall]
    exact .inl ⟨e, rfl, .inl rfl⟩
  · rcases hfind : entries.find? fun existing => patternsMayOverlap r.pattern existing.pattern &&
        specificityScore r.pattern == existing.specificity with _ | x
    · have hcall : registerWithPolicy entries r.pattern r.reducer r.policy
          = .ok (entries ++ [r.entry]) := by
        simp only [registerWithPolicy, hpolicy, hfind]
        rfl
      rw [register, hcall]
      refine .inr ⟨rfl, rfl, fun x hx hex => ?_⟩
      exact List.find?_eq_none.mp hfind x hx (by simp [hex.1, hex.2])
    · have hcall : registerWithPolicy entries r.pattern r.reducer r.policy
          = .error (.reducerPatternAmbiguous x.pattern r.pattern) := by
        simp only [registerWithPolicy, hpolicy, hfind]
        rfl
      have hx := List.find?_some hfind
      simp only [Bool.and_eq_true, beq_iff_eq] at hx
      rw [register, hcall]
      exact .inl ⟨_, rfl, .inr ⟨x, List.mem_of_find?_eq_some hfind, hx, rfl⟩⟩

/-- The earlier registration `a` would refuse `b`. -/
def Excluding (a b : Registration) : Prop := a.entry.Excludes b.pattern

theorem excluding_comm (h : Excluding a b) : Excluding b a := ⟨overlap_comm h.1, h.2.symm⟩

/-- What is registered meets these conditions: valid policies, and no two patterns that
exclude each other. -/
structure Admissible (regs : List Registration) : Prop where
  valid : ∀ r ∈ regs, validateSnapshotPolicy r.policy = .ok ()
  separate : regs.Pairwise fun a b => ¬Excluding a b

/-! ### All registrations -/

/-- A call after admissible ones, by whether it fits with them. -/
theorem register_after {acc : List Registration} :
    (Admissible (acc ++ [r]) → register (acc.map (·.entry)) r
      = (.ok (), (acc ++ [r]).map (·.entry))) ∧
    (Admissible acc → ¬Admissible (acc ++ [r]) →
      ∃ e, register (acc.map (·.entry)) r = (.error e, acc.map (·.entry))) := by
  have hcases := register_cases (acc.map (·.entry)) r
  constructor
  · rintro ⟨hvalid, hseparate⟩
    rcases hcases with ⟨e, -, hinvalid | ⟨x, hx, hex, -⟩⟩ | ⟨hcall, -⟩
    · rw [hvalid r (List.mem_append_right _ List.mem_cons_self)] at hinvalid
      exact absurd hinvalid (by simp)
    · obtain ⟨a, ha, rfl⟩ := List.mem_map.mp hx
      exact absurd hex ((List.pairwise_append.mp hseparate).2.2 a ha r List.mem_cons_self)
    · rw [hcall, List.map_append]
      rfl
  · intro hacc hnot
    rcases hcases with ⟨e, hcall, -⟩ | ⟨-, hvalid, hfree⟩
    · exact ⟨e, hcall⟩
    · refine absurd ⟨?_, ?_⟩ hnot
      · intro r' hr'
        rcases List.mem_append.mp hr' with hr' | hr'
        · exact hacc.valid r' hr'
        · exact List.mem_singleton.mp hr' ▸ hvalid
      · refine List.pairwise_append.mpr ⟨hacc.separate, List.pairwise_singleton _ _, ?_⟩
        intro a ha r' hr'
        obtain rfl := List.mem_singleton.mp hr'
        exact hfree a.entry (List.mem_map.mpr ⟨a, ha, rfl⟩)

/-- The registry is that of the calls that succeed, and these are admissible. -/
theorem foldl_register {acc : List Registration} (hacc : Admissible acc) :
    regs.foldl (fun entries r => (register entries r).2) (acc.map (·.entry))
      = (acc ++ acceptedFrom (acc.map (·.entry)) regs).map (·.entry) ∧
    Admissible (acc ++ acceptedFrom (acc.map (·.entry)) regs) := by
  induction regs generalizing acc with
  | nil => simpa [acceptedFrom] using hacc
  | cons r regs ih =>
    rw [List.foldl_cons, acceptedFrom]
    by_cases hadm : Admissible (acc ++ [r])
    · rw [register_after.1 hadm]
      have hrest := ih hadm
      simp only [List.append_assoc, List.singleton_append] at hrest
      exact hrest
    · obtain ⟨e, hcall⟩ := register_after.2 hacc hadm
      rw [hcall]
      exact ih hacc

theorem admissible_nil : Admissible [] := ⟨by simp, .nil⟩

theorem registered_eq : registered regs = (accepted regs).map (·.entry) :=
  (@foldl_register regs [] admissible_nil).1

theorem admissible_accepted : Admissible (accepted regs) :=
  (@foldl_register regs [] admissible_nil).2

/-- Admissible calls all succeed, in this order. -/
theorem acceptedFrom_of_admissible {acc : List Registration} (h : Admissible (acc ++ regs)) :
    acceptedFrom (acc.map (·.entry)) regs = regs := by
  induction regs generalizing acc with
  | nil => rfl
  | cons r regs ih =>
    rw [List.append_cons] at h
    have hadm : Admissible (acc ++ [r]) :=
      ⟨fun r' hr' => h.valid r' (List.mem_append_left _ hr'), (List.pairwise_append.mp h.separate).1⟩
    rw [acceptedFrom, register_after.1 hadm]
    show r :: acceptedFrom _ regs = _
    rw [ih h]

theorem accepted_of_admissible (h : Admissible regs) : accepted regs = regs :=
  @acceptedFrom_of_admissible regs [] h

theorem Admissible.perm (h : Admissible regs) (hperm : regs'.Perm regs) : Admissible regs' where
  valid r hr := h.valid r (hperm.mem_iff.mp hr)
  separate := hperm.symm.pairwise h.separate fun hab hba => hab (excluding_comm hba)

/-- Registered patterns that match a common stream do not tie. -/
theorem untied_registered :
    Untied (fun e : ReducerEntry => globMatches e.pattern streamId) (·.specificity)
      (registered regs) := by
  rw [registered_eq, Untied, List.pairwise_map]
  refine admissible_accepted.separate.imp fun {a b} hab htie => hab ?_
  exact ⟨overlap_of_common htie.2.1 htie.1, htie.2.2.symm⟩

/-- Two patterns without `**`, of which the second is refused. -/
theorem accepted_pair_iff (ha : NoDstar a.pattern) (hb : NoDstar b.pattern)
    (hpa : validateSnapshotPolicy a.policy = .ok ()) (hpb : validateSnapshotPolicy b.policy = .ok ()) :
    accepted [a, b] = [a] ↔ specificityScore a.pattern = specificityScore b.pattern ∧
      ∃ streamId, globMatches a.pattern streamId = true ∧ globMatches b.pattern streamId = true := by
  have hexcluding : Excluding a b ↔ specificityScore a.pattern = specificityScore b.pattern ∧
      ∃ streamId, globMatches a.pattern streamId = true ∧ globMatches b.pattern streamId = true := by
    rw [← overlap_iff ha hb]
    exact ⟨fun h => ⟨h.2.symm, overlap_comm h.1⟩, fun h => ⟨overlap_comm h.2, h.1.symm⟩⟩
  rw [← hexcluding]
  constructor
  · intro hpair
    by_contra hnot
    have hadm : Admissible [a, b] := ⟨by simp [hpa, hpb], by simpa using hnot⟩
    rw [accepted_of_admissible hadm] at hpair
    exact absurd hpair (by simp)
  · intro hex
    have hone : Admissible ([] ++ [a]) := ⟨by simp [hpa], List.pairwise_singleton _ _⟩
    have htwo : ¬Admissible ([a] ++ [b]) := fun h =>
      (List.pairwise_cons.mp h.separate).1 b List.mem_cons_self hex
    obtain ⟨e, hcall⟩ := (@register_after b [a]).2 hone htwo
    have hfirst : register [] a = (.ok (), [a].map (·.entry)) := (@register_after a []).1 hone
    rw [accepted, acceptedFrom, hfirst]
    show a :: acceptedFrom ([a].map (·.entry)) [b] = [a]
    rw [acceptedFrom, hcall]
    rfl

/-- **Which reducer a stream gets.**  After any sequence of registrations, at most one of
the accepted patterns that match a stream has the largest score, and it is the one that
the lookup finds; the same accepted registrations, in whatever order and among whatever
others, give the same lookup; a rejected one changes nothing; and two patterns without
`**` reject each other exactly when they score the same and match a common stream. -/
theorem reducer_selection :
    (∀ regs streamId, (mostSpecific (registered regs) streamId).length ≤ 1 ∧
      findArcWithPolicy (registered regs) streamId =
        (mostSpecific (registered regs) streamId).head?.map fun e => (e.reducer, e.policy)) ∧
    (∀ regs regs', (accepted regs').Perm (accepted regs) → ∀ streamId,
      findArcWithPolicy (registered regs') streamId =
        findArcWithPolicy (registered regs) streamId) ∧
    (∀ regs regs', regs'.Perm (accepted regs) → accepted regs' = regs') ∧
    (∀ regs r e, (register (registered regs) r).1 = .error e →
      registered (regs ++ [r]) = registered regs) ∧
    ∀ a b : Registration, NoDstar a.pattern → NoDstar b.pattern →
      validateSnapshotPolicy a.policy = .ok () → validateSnapshotPolicy b.policy = .ok () →
        (accepted [a, b] = [a] ↔ specificityScore a.pattern = specificityScore b.pattern ∧
          ∃ streamId, globMatches a.pattern streamId = true ∧
            globMatches b.pattern streamId = true) := by
  refine ⟨fun regs streamId => ?_, fun regs regs' hperm streamId => ?_, fun regs regs' hperm => ?_,
    fun regs r e herror => ?_, fun a b ha hb hpa hpb => accepted_pair_iff ha hb hpa hpb⟩
  · rw [mostSpecific, bests_eq_scan untied_registered, findArcWithPolicy_eq_scan]
    rcases scan _ _ (registered regs) with _ | e
    · exact ⟨Nat.zero_le _, rfl⟩
    · exact ⟨le_rfl, rfl⟩
  · have hentries : (registered regs').Perm (registered regs) := by
      rw [registered_eq, registered_eq]
      exact hperm.map _
    rw [findArcWithPolicy_eq_scan, findArcWithPolicy_eq_scan,
      scan_perm untied_registered hentries]
  · exact accepted_of_admissible (admissible_accepted.perm hperm)
  · rw [registered, List.foldl_append]
    show (register (registered regs) r).2 = _
    obtain ⟨e', hcall, -⟩ | ⟨hcall, -⟩ := register_cases (registered regs) r
    · rw [hcall]
    · rw [hcall] at herror
      exact absurd herror (by simp)

end Fossic
