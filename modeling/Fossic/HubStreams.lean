/-
The names of relayed streams on the hub.

`_hub_stream_id` keeps a stream that begins with the source prefix and puts the prefix before
any other.  So a stream of four segments has no name on the hub, and `a` and `prefix/a` have
the same.

* `hubStreamId_valid_iff` — the local streams whose names the hub accepts;
* `hubStreamId_eq_iff` — the local streams with one name;
* `hub_streams` — the rule as a whole.
-/
import Fossic.Relay

namespace Fossic

variable {isAlphanumeric : Char → Bool} {sourcePrefix s t : String}

/-- The prefix before a stream. -/
def prefixed (sourcePrefix streamId : String) : String := sourcePrefix ++ "/" ++ streamId

theorem toList_prefixed :
    (prefixed sourcePrefix s).toList = sourcePrefix.toList ++ '/' :: s.toList := by
  rw [prefixed, String.toList_append, String.toList_append, List.append_assoc]
  rfl

theorem startsWith_prefixed :
    startsWith (prefixed sourcePrefix s) (sourcePrefix ++ "/") = true := by
  rw [startsWith, List.isPrefixOf_iff_prefix, prefixed, @String.toList_append (_ ++ _)]
  exact List.prefix_append _ _

theorem prefixed_inj : prefixed sourcePrefix s = prefixed sourcePrefix t ↔ s = t := by
  rw [prefixed, prefixed, String.append_right_inj]

/-! ### The two cases of the rule -/

theorem hubStreamId_of_startsWith (h : startsWith s (sourcePrefix ++ "/") = true) :
    hubStreamId sourcePrefix s = s := by
  rw [hubStreamId, if_pos h]

theorem hubStreamId_of_not_startsWith (h : startsWith s (sourcePrefix ++ "/") = false) :
    hubStreamId sourcePrefix s = prefixed sourcePrefix s := by
  rw [hubStreamId, if_neg (by rw [h]; exact Bool.false_ne_true), prefixed]

theorem startsWith_hubStreamId :
    startsWith (hubStreamId sourcePrefix s) (sourcePrefix ++ "/") = true := by
  cases h : startsWith s (sourcePrefix ++ "/") with
  | true => rw [hubStreamId_of_startsWith h, h]
  | false => rw [hubStreamId_of_not_startsWith h, startsWith_prefixed]

/-! ### Names that the hub accepts -/

theorem segments_prefixed (hsegment : '/' ∉ sourcePrefix.toList) :
    segments (prefixed sourcePrefix s) = sourcePrefix.toList :: segments s := by
  rw [segments, toList_prefixed, List.splitOn_append_cons_self,
    List.splitOn_eq_singleton hsegment]
  rfl

/-- A prefixed stream is valid if the stream is, it has a segment to spare, and the bytes
suffice. -/
theorem validStreamId_prefixed (hsource : ValidStreamId isAlphanumeric sourcePrefix)
    (hsegment : '/' ∉ sourcePrefix.toList) (hs : ValidStreamId isAlphanumeric s)
    (hshort : (utf8 (prefixed sourcePrefix s)).length ≤ MAX_STREAM_ID_LEN) :
    ValidStreamId isAlphanumeric (prefixed sourcePrefix s) ↔
      (segments s).length < MAX_STREAM_SEGMENTS := by
  constructor
  · intro h
    have hfew := h.few
    rw [segments_prefixed hsegment, List.length_cons] at hfew
    omega
  · intro hlt
    refine ⟨?_, hshort, ?_, ?_, ?_⟩
    · intro hempty
      have hnil := congrArg String.toList hempty
      rw [toList_prefixed] at hnil
      exact absurd hnil (by simp)
    · intro c hc
      rw [toList_prefixed, List.mem_append, List.mem_cons] at hc
      rcases hc with hc | rfl | hc
      · exact hsource.chars c hc
      · exact .inr (by simp)
      · exact hs.chars c hc
    · rw [segments_prefixed hsegment, List.length_cons]
      omega
    · rw [segments_prefixed hsegment, List.mem_cons, not_or]
      refine ⟨fun hnil => hsource.nonempty ?_, hs.filled⟩
      exact String.toList_inj.mp hnil.symm

theorem hubStreamId_valid_iff (hsource : ValidStreamId isAlphanumeric sourcePrefix)
    (hsegment : '/' ∉ sourcePrefix.toList) (hs : ValidStreamId isAlphanumeric s)
    (hshort : (utf8 (hubStreamId sourcePrefix s)).length ≤ MAX_STREAM_ID_LEN) :
    ValidStreamId isAlphanumeric (hubStreamId sourcePrefix s) ↔
      startsWith s (sourcePrefix ++ "/") = true ∨ (segments s).length < MAX_STREAM_SEGMENTS := by
  cases h : startsWith s (sourcePrefix ++ "/") with
  | true =>
    rw [hubStreamId_of_startsWith h]
    exact ⟨fun _ => .inl rfl, fun _ => hs⟩
  | false =>
    rw [hubStreamId_of_not_startsWith h] at hshort ⊢
    rw [validStreamId_prefixed hsource hsegment hs hshort]
    exact (or_iff_right Bool.false_ne_true).symm

/-! ### Streams with one name -/

/-- `s` is `t` with the prefix, which `t` does not begin with. -/
def PrefixedForm (sourcePrefix s t : String) : Prop :=
  s = prefixed sourcePrefix t ∧ startsWith t (sourcePrefix ++ "/") = false

theorem hubStreamId_eq_iff : hubStreamId sourcePrefix s = hubStreamId sourcePrefix t ↔
    s = t ∨ PrefixedForm sourcePrefix s t ∨ PrefixedForm sourcePrefix t s := by
  cases hs : startsWith s (sourcePrefix ++ "/") with
  | true =>
    rw [hubStreamId_of_startsWith hs]
    cases ht : startsWith t (sourcePrefix ++ "/") with
    | true =>
      rw [hubStreamId_of_startsWith ht]
      refine ⟨.inl, fun h => ?_⟩
      rcases h with h | ⟨-, h⟩ | ⟨-, h⟩
      · exact h
      · exact absurd (ht.symm.trans h) (by simp)
      · exact absurd (hs.symm.trans h) (by simp)
    | false =>
      rw [hubStreamId_of_not_startsWith ht]
      refine ⟨fun h => .inr (.inl ⟨h, ht⟩), fun h => ?_⟩
      rcases h with rfl | ⟨h, -⟩ | ⟨-, h⟩
      · exact absurd (hs.symm.trans ht) (by simp)
      · exact h
      · exact absurd (hs.symm.trans h) (by simp)
  | false =>
    rw [hubStreamId_of_not_startsWith hs]
    cases ht : startsWith t (sourcePrefix ++ "/") with
    | true =>
      rw [hubStreamId_of_startsWith ht]
      refine ⟨fun h => .inr (.inr ⟨h.symm, hs⟩), fun h => ?_⟩
      rcases h with rfl | ⟨-, h⟩ | ⟨h, -⟩
      · exact absurd (hs.symm.trans ht) (by simp)
      · exact absurd (ht.symm.trans h) (by simp)
      · exact h.symm
    | false =>
      rw [hubStreamId_of_not_startsWith ht, prefixed_inj]
      refine ⟨.inl, fun h => ?_⟩
      rcases h with h | ⟨h, -⟩ | ⟨h, -⟩
      · exact h
      · exact absurd (hs.symm.trans (h ▸ startsWith_prefixed)) (by simp)
      · exact absurd (ht.symm.trans (h ▸ startsWith_prefixed)) (by simp)

/-- **The D.3 rule**: a local stream that begins with the prefix, or has a segment to spare,
has a name that the hub accepts; the rule can be applied twice, the name begins with the
prefix, and two streams have one name exactly when one is the prefixed form of the other. -/
theorem hub_streams (hsource : validateStreamId isAlphanumeric sourcePrefix = .ok ())
    (hsegment : '/' ∉ sourcePrefix.toList)
    (hs : validateStreamId isAlphanumeric s = .ok ())
    (hshort : (utf8 (hubStreamId sourcePrefix s)).length ≤ MAX_STREAM_ID_LEN) :
    (validateStreamId isAlphanumeric (hubStreamId sourcePrefix s) = .ok () ↔
      startsWith s (sourcePrefix ++ "/") = true ∨ (segments s).length < MAX_STREAM_SEGMENTS) ∧
    hubStreamId sourcePrefix (hubStreamId sourcePrefix s) = hubStreamId sourcePrefix s ∧
    startsWith (hubStreamId sourcePrefix s) (sourcePrefix ++ "/") = true ∧
    (s ≠ t → (hubStreamId sourcePrefix s = hubStreamId sourcePrefix t ↔
      PrefixedForm sourcePrefix s t ∨ PrefixedForm sourcePrefix t s)) := by
  rw [validateStreamId_eq_ok] at hsource hs
  rw [validateStreamId_eq_ok]
  refine ⟨hubStreamId_valid_iff hsource hsegment hs hshort,
    hubStreamId_of_startsWith startsWith_hubStreamId, startsWith_hubStreamId, fun hne => ?_⟩
  rw [hubStreamId_eq_iff, or_iff_right hne]

theorem hub_streams_plain :
    (validateStreamId Char.isAlphanum (hubStreamId "p" "a/b/c") = .ok () ↔
      startsWith "a/b/c" ("p" ++ "/") = true ∨ (segments "a/b/c").length < MAX_STREAM_SEGMENTS) ∧
    hubStreamId "p" (hubStreamId "p" "a/b/c") = hubStreamId "p" "a/b/c" ∧
    startsWith (hubStreamId "p" "a/b/c") ("p" ++ "/") = true ∧
    ("a/b/c" ≠ "p/a" → (hubStreamId "p" "a/b/c" = hubStreamId "p" "p/a" ↔
      PrefixedForm "p" "a/b/c" "p/a" ∨ PrefixedForm "p" "p/a" "a/b/c")) :=
  hub_streams (by rfl) (by decide) (by rfl) (by decide)

/-- The hub rejects the name of `a/b/c/d`, and `a` and `p/a` have one name. -/
theorem hub_streams_rejected_and_merged :
    ¬(∀ (isAlphanumeric : Char → Bool) (sourcePrefix s : String),
      validateStreamId isAlphanumeric sourcePrefix = .ok () → '/' ∉ sourcePrefix.toList →
      validateStreamId isAlphanumeric s = .ok () →
      (utf8 (hubStreamId sourcePrefix s)).length ≤ MAX_STREAM_ID_LEN →
      validateStreamId isAlphanumeric (hubStreamId sourcePrefix s) = .ok ()) ∧
    ¬(∀ (isAlphanumeric : Char → Bool) (sourcePrefix s t : String),
      validateStreamId isAlphanumeric sourcePrefix = .ok () → '/' ∉ sourcePrefix.toList →
      validateStreamId isAlphanumeric s = .ok () → validateStreamId isAlphanumeric t = .ok () →
      (utf8 (hubStreamId sourcePrefix s)).length ≤ MAX_STREAM_ID_LEN →
      (utf8 (hubStreamId sourcePrefix t)).length ≤ MAX_STREAM_ID_LEN →
      s ≠ t → hubStreamId sourcePrefix s ≠ hubStreamId sourcePrefix t) := by
  constructor
  · intro h
    have hvalid := h Char.isAlphanum "p" "a/b/c/d" rfl (by decide) rfl (by decide)
    have hfew := (validateStreamId_eq_ok.mp hvalid).few
    exact absurd hfew (by decide)
  · intro h
    exact h Char.isAlphanum "p" "a" "p/a" rfl (by decide) rfl rfl (by decide) (by decide)
      (by decide) (by decide)

end Fossic
