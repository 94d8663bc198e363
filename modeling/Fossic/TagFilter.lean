/-
The filter by tags.

Each pair of `indexed_tags_filter` becomes a comparison of a parameter with what
`json_extract` gives.  A row whose tags have the members of the filter passes, but SQLite
also takes some other values for equal.

* `rounded_eq_of_value` — numbers that are equal stay so when they are rounded to `f64`;
* `exists_tagClause` — a comparison holds for the value and for what looks like it;
* `tag_filter_iff` — when the filter is the conjunction of its pairs.
-/
import Fossic.Aggregate
import Mathlib.Tactic.Linarith

namespace Fossic

open KeySort KeyedList

/-! ### Numbers -/

/-- The number that a JSON number stands for. -/
def Number.value : Number → ℚ
  | posInt n => n.toNat
  | negInt i _ => i.toInt
  | float bits _ => floatValue bits

/-- The number as SQLite compares it, without integers above those of an `i64`. -/
def Number.rounded : Number → ℚ
  | posInt n => if n.toNat < 2 ^ 63 then n.toNat else u64AsF64 n.toNat
  | negInt i _ => i.toInt
  | float bits _ => floatValue bits

section Rounding

variable {n : ℕ}

/-- An integer of 64 bits is rounded to a multiple of `2 ^ 11`. -/
theorem u64AsF64_large (hlow : 2 ^ 63 ≤ n) (hhigh : n < 2 ^ 64) : u64AsF64 n =
    if 2 ^ 11 < 2 * (n % 2 ^ 11) ∨ 2 ^ 11 = 2 * (n % 2 ^ 11) ∧ n / 2 ^ 11 % 2 = 1 then
      (n / 2 ^ 11 + 1) * 2 ^ 11
    else n / 2 ^ 11 * 2 ^ 11 := by
  have hlog : n.log2 = 63 := (Nat.log2_eq_iff (by omega)).mpr ⟨hlow, hhigh⟩
  have hunit : n.log2 - 52 = 11 := by omega
  rw [u64AsF64, hunit]

theorem u64AsF64_of_dvd (hlow : 2 ^ 63 ≤ n) (hhigh : n < 2 ^ 64) (h : 2 ^ 11 ∣ n) :
    u64AsF64 n = n := by
  have hmod := Nat.mod_eq_zero_of_dvd h
  rw [u64AsF64_large hlow hhigh, if_neg (by omega)]
  exact Nat.div_mul_cancel h

theorem le_u64AsF64 (hlow : 2 ^ 63 ≤ n) (hhigh : n < 2 ^ 64) : 2 ^ 63 ≤ u64AsF64 n := by
  rw [u64AsF64_large hlow hhigh]
  split <;> omega

/-- A significand of 53 bits, scaled, leaves the lowest bits of a large integer clear. -/
theorem dvd_of_scaled {m e k : ℕ} (hm : m < 2 ^ 53) (hlow : 2 ^ 63 ≤ n)
    (h : m * 2 ^ e = n * 2 ^ k) : 2 ^ 11 ∣ n := by
  have he : k + 10 < e := by
    by_contra hle
    have hsmall : m * 2 ^ e < 2 ^ 53 * 2 ^ (k + 10) :=
      Nat.mul_lt_mul_of_lt_of_le hm (Nat.pow_le_pow_right (by omega) (by omega)) (by positivity)
    have hlarge : 2 ^ 53 * 2 ^ (k + 10) ≤ n * 2 ^ k := by
      rw [Nat.pow_add, Nat.mul_comm (2 ^ k), ← Nat.mul_assoc]
      exact Nat.mul_le_mul_right _ hlow
    omega
  obtain ⟨d, rfl⟩ : ∃ d, e = d + 11 + k := ⟨e - 11 - k, by omega⟩
  rw [Nat.pow_add, ← Nat.mul_assoc, Nat.pow_add, ← Nat.mul_assoc] at h
  exact ⟨m * 2 ^ d, by rw [← Nat.eq_of_mul_eq_mul_right (by positivity) h, Nat.mul_comm]⟩

/-- A float is a scaled significand. -/
theorem floatValue_eq (bits : UInt64) : ∃ m e k : ℕ, m < 2 ^ 53 ∧
    (floatValue bits = ((m * 2 ^ e : ℕ) : ℚ) / 2 ^ k ∨
      floatValue bits = -((m * 2 ^ e : ℕ) : ℚ) / 2 ^ k) := by
  have hfraction : bits.toNat % 2 ^ 52 < 2 ^ 52 := Nat.mod_lt _ (by omega)
  rw [floatValue]
  by_cases hexponent : bits.toNat / 2 ^ 52 % 2 ^ 11 = 0
  · refine ⟨bits.toNat % 2 ^ 52, 0, 1074, by omega, ?_⟩
    simp only [if_pos hexponent, pow_zero, mul_one]
    split
    · exact .inl rfl
    · exact .inr rfl
  · refine ⟨2 ^ 52 + bits.toNat % 2 ^ 52, bits.toNat / 2 ^ 52 % 2 ^ 11 - 1, 1074, by omega, ?_⟩
    simp only [if_neg hexponent]
    split
    · exact .inl rfl
    · exact .inr rfl

/-- A float that is an integer of 64 bits is a multiple of `2 ^ 11`. -/
theorem dvd_of_floatValue {bits : UInt64} (hlow : 2 ^ 63 ≤ n) (h : floatValue bits = n) :
    2 ^ 11 ∣ n := by
  obtain ⟨m, e, k, hm, hvalue⟩ := floatValue_eq bits
  have hscale : (0 : ℚ) < 2 ^ k := by positivity
  rcases hvalue with hvalue | hvalue
  · rw [h, eq_div_iff hscale.ne'] at hvalue
    exact dvd_of_scaled hm hlow (by exact_mod_cast hvalue.symm)
  · -- a negative float is none
    have hneg : floatValue bits ≤ 0 := by
      rw [hvalue]
      exact div_nonpos_of_nonpos_of_nonneg (neg_nonpos.mpr (Nat.cast_nonneg _)) hscale.le
    rw [h] at hneg
    have hzero : n = 0 := by exact_mod_cast le_antisymm hneg (Nat.cast_nonneg n)
    omega

end Rounding

theorem rounded_posInt (n : UInt64) : (Number.posInt n).rounded = (Number.posInt n).value ∨
    2 ^ 63 ≤ n.toNat ∧ (Number.posInt n).rounded = u64AsF64 n.toNat := by
  by_cases hn : n.toNat < 2 ^ 63
  · exact .inl (by rw [Number.rounded, if_pos hn, Number.value])
  · exact .inr ⟨Nat.le_of_not_lt hn, by rw [Number.rounded, if_neg hn]⟩

theorem rounded_of_value_float {n : UInt64} {bits : UInt64}
    (h : (Number.posInt n).value = floatValue bits) :
    (Number.posInt n).rounded = floatValue bits := by
  rcases rounded_posInt n with hrounded | ⟨hlow, hrounded⟩
  · rw [hrounded, h]
  · have hdvd := dvd_of_floatValue hlow h.symm
    rw [hrounded, u64AsF64_of_dvd hlow n.toNat_lt hdvd]
    exact h

theorem value_posInt_ne {n : UInt64} {i : Int64} {neg : i < 0} :
    (Number.posInt n).value ≠ (Number.negInt i neg).value := by
  intro h
  have hneg : i.toInt < 0 := Int64.lt_iff_toInt_lt.mp neg
  simp only [Number.value] at h
  have hcast : (n.toNat : ℤ) = i.toInt := by exact_mod_cast h
  omega

/-- **Equal numbers** are rounded alike. -/
theorem rounded_eq_of_value {n n' : Number} (h : n.value = n'.value) : n.rounded = n'.rounded := by
  cases n with
  | posInt n =>
    cases n' with
    | posInt n' =>
      simp only [Number.value] at h
      have hcast : n.toNat = n'.toNat := by exact_mod_cast h
      rw [UInt64.toNat_inj.mp hcast]
    | negInt i neg => exact absurd h value_posInt_ne
    | float bits finite => exact rounded_of_value_float h
  | negInt i neg =>
    cases n' with
    | posInt n' => exact absurd h.symm value_posInt_ne
    | negInt i' neg' => exact h
    | float bits finite => exact h
  | float bits finite =>
    cases n' with
    | posInt n' => exact (rounded_of_value_float h.symm).symm
    | negInt i' neg' => exact h
    | float bits' finite' => exact h

/-- Rounding keeps small numbers apart from the others. -/
theorem rounded_eq_iff_of_small {n : Number} {x : ℚ} (hx : x < 2 ^ 63) :
    n.rounded = x ↔ n.value = x := by
  cases n with
  | posInt n =>
    rcases rounded_posInt n with hrounded | ⟨hlow, hrounded⟩
    · rw [hrounded]
    · rw [hrounded, Number.value]
      have hlow' : (2 ^ 63 : ℚ) ≤ n.toNat := by exact_mod_cast hlow
      have hround : (2 ^ 63 : ℚ) ≤ u64AsF64 n.toNat := by
        exact_mod_cast le_u64AsF64 hlow n.toNat_lt
      exact ⟨fun h => absurd h (by linarith), fun h => absurd h (by linarith)⟩
  | negInt i neg => exact Iff.rfl
  | float bits finite => exact Iff.rfl

/-- A number stays a number in SQL. -/
theorem toSql_rounded (n : Number) : (∃ i : ℤ, n.toSql = .integer i ∧ n.rounded = i) ∨
    ∃ x, n.toSql = .real x ∧ n.rounded = x := by
  cases n with
  | posInt n =>
    by_cases hn : n.toNat < 2 ^ 63
    · exact .inl ⟨n.toNat, by rw [Number.toSql, if_pos hn], by rw [Number.rounded, if_pos hn]; rfl⟩
    · exact .inr ⟨_, by rw [Number.toSql, if_neg hn], by rw [Number.rounded, if_neg hn]⟩
  | negInt i neg => exact .inl ⟨_, rfl, rfl⟩
  | float bits finite => exact .inr ⟨_, rfl, rfl⟩

/-- SQLite compares numbers after rounding. -/
theorem toSql_eq_iff {n n' : Number} : n.toSql.eq n'.toSql = true ↔ n.rounded = n'.rounded := by
  rcases toSql_rounded n with ⟨i, hsql, hrounded⟩ | ⟨x, hsql, hrounded⟩ <;>
  rcases toSql_rounded n' with ⟨j, hsql', hrounded'⟩ | ⟨y, hsql', hrounded'⟩ <;>
  rw [hsql, hsql', hrounded, hrounded', SqlValue.eq, decide_eq_true_iff]
  exact Int.cast_inj.symm

theorem toSql_ne_null {n : Number} : n.toSql ≠ .null := by
  rcases toSql_rounded n with ⟨i, hsql, -⟩ | ⟨x, hsql, -⟩ <;> simp [hsql]

theorem null_ne_toSql {n : Number} : SqlValue.null.eq n.toSql = false := by
  simp [SqlValue.eq]

theorem toSql_ne_text {n : Number} {s : String} : n.toSql.eq (.text s) = false := by
  rcases toSql_rounded n with ⟨i, hsql, -⟩ | ⟨x, hsql, -⟩ <;> simp [hsql, SqlValue.eq]

theorem text_ne_toSql {n : Number} {s : String} : (SqlValue.text s).eq n.toSql = false := by
  rcases toSql_rounded n with ⟨i, hsql, -⟩ | ⟨x, hsql, -⟩ <;> simp [hsql, SqlValue.eq]

/-! ### Pairs of the filter -/

/-- The value is a string, a bool, a number or null. -/
def Json.isPrimitive : Json → Bool
  | array _ | object _ => false
  | _ => true

/-- Equal as JSON values, numbers by what they stand for. -/
inductive SameValue : Json → Json → Prop
  | null : SameValue .null .null
  | bool (b : Bool) : SameValue (.bool b) (.bool b)
  | number {n n' : Number} (h : n.value = n'.value) : SameValue (.number n) (.number n')
  | string (s : String) : SameValue (.string s) (.string s)

/-- The tags have the member, with an equal value. -/
def HasTag (tags : Option Json) (key : String) (value : Json) : Prop :=
  ∃ stored ∈ storedTag tags key, SameValue stored value

/-- What is stored is not the value of the filter, but SQLite does not tell them apart. -/
inductive Lookalike (env : QueryEnv) : Option Json → Json → Prop
  | absent : Lookalike env none .null
  | oneForTrue {n : Number} (h : n.value = 1) : Lookalike env (some (.number n)) (.bool true)
  | zeroForFalse {n : Number} (h : n.value = 0) : Lookalike env (some (.number n)) (.bool false)
  | trueForOne {n : Number} (h : n.value = 1) : Lookalike env (some (.bool true)) (.number n)
  | falseForZero {n : Number} (h : n.value = 0) : Lookalike env (some (.bool false)) (.number n)
  | rounded {n n' : Number} (hne : n.value ≠ n'.value) (h : n.rounded = n'.rounded) :
    Lookalike env (some (.number n)) (.number n')
  | array (items : List Json) :
    Lookalike env (some (.array items)) (.string (env.jsonText (.array items)))
  | object (members : List (String × Json)) :
    Lookalike env (some (.object members)) (.string (env.jsonText (.object members)))

variable {env : QueryEnv} {tags : Option Json} {key : String} {value stored : Json}
  {clause : TagClause} {members : List (String × Json)} {clauses : List TagClause}

theorem SameValue.not_lookalike (h : SameValue stored value) :
    ¬Lookalike env (some stored) value := by
  intro hlike
  cases h with
  | null => cases hlike
  | bool b => cases hlike
  | number hvalue =>
    cases hlike with
    | rounded hne => exact hne hvalue
  | string s => cases hlike

/-! ### Comparisons -/

/-- A bool as a number. -/
def boolNumber (b : Bool) : Number := .posInt (if b then 1 else 0)

theorem toSql_boolNumber (b : Bool) :
    (boolNumber b).toSql = .integer (if b then 1 else 0) := by
  cases b <;> rfl

theorem rounded_boolNumber (b : Bool) : (boolNumber b).rounded = if b then 1 else 0 := by
  cases b <;> simp [boolNumber, Number.rounded]

/-- A number that SQLite takes for a bool. -/
theorem rounded_eq_bool_iff {n : Number} {b : Bool} :
    n.rounded = (boolNumber b).rounded ↔ n.value = if b then 1 else 0 := by
  rw [rounded_boolNumber]
  refine rounded_eq_iff_of_small ?_
  cases b <;> norm_num

/-- The member is the value of the filter, or looks like it. -/
def Agrees (env : QueryEnv) (member : Option Json) (value : Json) : Prop :=
  (∃ stored ∈ member, SameValue stored value) ∨ Lookalike env member value

variable {member : Option Json} {b : Bool} {n : Number} {s : String}

theorem agrees_none : Agrees env none value ↔ value = .null := by
  constructor
  · rintro (⟨stored, hstored, -⟩ | hlike)
    · exact absurd hstored (by simp)
    · cases hlike
      rfl
  · rintro rfl
    exact .inr .absent

theorem agrees_some :
    Agrees env (some stored) value ↔ SameValue stored value ∨ Lookalike env (some stored) value := by
  constructor
  · rintro (⟨stored', hstored, hsame⟩ | hlike)
    · obtain rfl := Option.some_inj.mp hstored
      exact .inl hsame
    · exact .inr hlike
  · rintro (hsame | hlike)
    · exact .inl ⟨stored, rfl, hsame⟩
    · exact .inr hlike

/-- `IS NULL` -/
theorem extracted_null_iff : extracted env member = .null ↔ Agrees env member .null := by
  rcases member with _ | stored
  · rw [agrees_none]
    exact iff_of_true rfl rfl
  · rw [agrees_some]
    cases stored with
    | null => exact iff_of_true rfl (.inl .null)
    | number n => exact iff_of_false toSql_ne_null (by rintro (h | h) <;> cases h)
    | _ => exact iff_of_false (by simp [extracted]) (by rintro (h | h) <;> cases h)

/-- A comparison with a bool. -/
theorem extracted_bool_iff :
    (extracted env member).eq (.integer (if b then 1 else 0)) = true ↔
      Agrees env member (.bool b) := by
  rcases member with _ | stored
  · rw [agrees_none]
    exact iff_of_false (by simp [extracted, SqlValue.eq]) (by simp)
  · rw [agrees_some]
    cases stored with
    | bool b' =>
      have hsql : (extracted env (some (.bool b'))).eq (.integer (if b then 1 else 0)) = true ↔
          b' = b := by
        cases b <;> cases b' <;> simp [extracted, SqlValue.eq]
      rw [hsql]
      constructor
      · rintro rfl
        exact .inl (.bool b')
      · rintro (h | h)
        · cases h
          rfl
        · cases h
    | number n =>
      rw [extracted, ← toSql_boolNumber, toSql_eq_iff, rounded_eq_bool_iff]
      constructor
      · intro h
        cases b with
        | true => exact .inr (.oneForTrue h)
        | false => exact .inr (.zeroForFalse h)
      · rintro (h | h)
        · cases h
        · cases h with
          | oneForTrue h => exact h
          | zeroForFalse h => exact h
    | _ => exact iff_of_false (by simp [extracted, SqlValue.eq]) (by rintro (h | h) <;> cases h)

/-- A comparison with a number. -/
theorem extracted_number_iff :
    (extracted env member).eq n.toSql = true ↔ Agrees env member (.number n) := by
  rcases member with _ | stored
  · rw [agrees_none, extracted, null_ne_toSql]
    exact iff_of_false (by simp) (by simp)
  · rw [agrees_some]
    cases stored with
    | null =>
      rw [extracted, null_ne_toSql]
      exact iff_of_false (by simp) (by rintro (h | h) <;> cases h)
    | bool b =>
      rw [extracted, ← toSql_boolNumber, toSql_eq_iff, eq_comm, rounded_eq_bool_iff]
      constructor
      · intro h
        cases b with
        | true => exact .inr (.trueForOne h)
        | false => exact .inr (.falseForZero h)
      · rintro (h | h)
        · cases h
        · cases h with
          | trueForOne h => exact h
          | falseForZero h => exact h
    | number n' =>
      rw [extracted, toSql_eq_iff]
      constructor
      · intro h
        by_cases hvalue : n'.value = n.value
        · exact .inl (.number hvalue)
        · exact .inr (.rounded hvalue h)
      · rintro (h | h)
        · cases h with
          | number hvalue => exact rounded_eq_of_value hvalue
        · cases h with
          | rounded _ h => exact h
    | string s =>
      rw [extracted, text_ne_toSql]
      exact iff_of_false (by simp) (by rintro (h | h) <;> cases h)
    | array items =>
      rw [extracted, text_ne_toSql]
      exact iff_of_false (by simp) (by rintro (h | h) <;> cases h)
    | object members =>
      rw [extracted, text_ne_toSql]
      exact iff_of_false (by simp) (by rintro (h | h) <;> cases h)

/-- A comparison with a string. -/
theorem extracted_string_iff :
    (extracted env member).eq (.text s) = true ↔ Agrees env member (.string s) := by
  rcases member with _ | stored
  · rw [agrees_none]
    exact iff_of_false (by simp [extracted, SqlValue.eq]) (by simp)
  · rw [agrees_some]
    cases stored with
    | null => exact iff_of_false (by simp [extracted, SqlValue.eq]) (by rintro (h | h) <;> cases h)
    | bool b => exact iff_of_false (by simp [extracted, SqlValue.eq]) (by rintro (h | h) <;> cases h)
    | number n =>
      rw [extracted, toSql_ne_text]
      exact iff_of_false (by simp) (by rintro (h | h) <;> cases h)
    | string s' =>
      rw [extracted, SqlValue.eq, decide_eq_true_iff]
      constructor
      · rintro rfl
        exact .inl (.string s')
      · rintro (h | h)
        · cases h
          rfl
        · cases h
    | array items =>
      rw [extracted, SqlValue.eq, decide_eq_true_iff]
      constructor
      · rintro rfl
        exact .inr (.array items)
      · rintro (h | h)
        · cases h
        · cases h
          rfl
    | object members =>
      rw [extracted, SqlValue.eq, decide_eq_true_iff]
      constructor
      · rintro rfl
        exact .inr (.object members)
      · rintro (h | h)
        · cases h
        · cases h
          rfl

/-! ### The filter -/

/-- **The clause of a pair** holds for the value and for what looks like it. -/
theorem exists_tagClause (hsafe : isSafeTagKey env key = true) (hprim : value.isPrimitive = true) :
    ∃ clause, tagClause env key value = .ok clause ∧
      ∀ tags, clause.holds env tags = true ↔ Agrees env (storedTag tags key) value := by
  have hkey : ¬(!isSafeTagKey env key) = true := by simp [hsafe]
  rw [tagClause.eq_def, if_neg hkey]
  cases value with
  | null =>
    refine ⟨_, rfl, fun tags => ?_⟩
    rw [TagClause.holds, decide_eq_true_iff]
    exact extracted_null_iff
  | bool b =>
    refine ⟨_, rfl, fun tags => ?_⟩
    rw [TagClause.holds]
    exact extracted_bool_iff
  | number n =>
    refine ⟨_, rfl, fun tags => ?_⟩
    rw [TagClause.holds]
    exact extracted_number_iff
  | string s =>
    refine ⟨_, rfl, fun tags => ?_⟩
    rw [TagClause.holds]
    exact extracted_string_iff
  | array items => exact absurd hprim (by simp [Json.isPrimitive])
  | object members => exact absurd hprim (by simp [Json.isPrimitive])

/-- A row passes when every pair agrees. -/
theorem exists_tagClauses
    (hfilter : ∀ p ∈ members, isSafeTagKey env p.1 = true ∧ p.2.isPrimitive = true) :
    ∃ clauses, tagClauses env (some (.object members)) = .ok clauses ∧
      ∀ tags, (clauses.all fun clause => clause.holds env tags) = true ↔
        ∀ p ∈ members, Agrees env (storedTag tags p.1) p.2 := by
  rw [tagClauses]
  induction members with
  | nil => exact ⟨[], rfl, fun tags => iff_of_true rfl fun p hp => absurd hp List.not_mem_nil⟩
  | cons p members ih =>
    obtain ⟨hp, hmembers⟩ := List.forall_mem_cons.mp hfilter
    obtain ⟨clause, hclause, hholds⟩ := exists_tagClause hp.1 hp.2
    obtain ⟨clauses, hclauses, hall⟩ := ih hmembers
    refine ⟨clause :: clauses, ?_, fun tags => ?_⟩
    · rw [List.mapM_cons, hclause, hclauses]
      rfl
    · rw [List.all_cons, Bool.and_eq_true, hholds, hall, List.forall_mem_cons]

/-- Every pair agrees with the tags, and one of them only looks equal. -/
def Mistaken (env : QueryEnv) (members : List (String × Json)) (tags : Option Json) : Prop :=
  (∀ p ∈ members, HasTag tags p.1 p.2 ∨ Lookalike env (storedTag tags p.1) p.2) ∧
    ∃ p ∈ members, Lookalike env (storedTag tags p.1) p.2

/-- **The tag filter.**  The rows that pass are those of the query without the filter on whose
tags the clauses hold, and they hold exactly for tags with every pair, unless the tags are
mistaken for such. -/
theorem tag_filter_iff
    (hfilter : ∀ p ∈ members, isSafeTagKey env p.1 = true ∧ p.2.isPrimitive = true) :
    ∃ clauses, tagClauses env (some (.object members)) = .ok clauses ∧
      (∀ (db : Db) (q : AggregateQuery),
        selectRows env db { q with indexedTagsFilter := some (.object members) } =
          (selectRows env db { q with indexedTagsFilter := none }).map
            (List.filter fun r => clauses.all fun clause => clause.holds env r.indexedTags)) ∧
      ∀ tags, ((clauses.all fun clause => clause.holds env tags) = true ↔
          ∀ p ∈ members, HasTag tags p.1 p.2) ↔
        ¬Mistaken env members tags := by
  obtain ⟨clauses, hclauses, hall⟩ := exists_tagClauses hfilter
  refine ⟨clauses, hclauses, fun db q => ?_, fun tags => ?_⟩
  · rw [selectRows, selectRows, hclauses]
    refine congrArg Except.ok ?_
    show _ = List.filter _ (sortBy _ _)
    rw [← sortBy_filter, List.filter_filter]
    refine congrArg (sortBy _) (List.filter_congr fun r _ => ?_)
    simp only [AggregateQuery.restricts, List.all_nil, Bool.and_true]
    rw [← Bool.and_assoc, Bool.and_comm]
  · rw [hall]
    constructor
    · rintro hexact ⟨hagree, p, hp, hlike⟩
      obtain ⟨stored, hstored, hsame⟩ := hexact.mp hagree p hp
      rw [Option.mem_def.mp hstored] at hlike
      exact hsame.not_lookalike hlike
    · intro hnot
      constructor
      · intro hagree p hp
        refine (hagree p hp).resolve_right fun hlike => ?_
        exact hnot ⟨hagree, p, hp, hlike⟩
      · exact fun hhas p hp => .inl (hhas p hp)

theorem flag_filter_safe : ∀ p ∈ [("flag", Json.bool true)],
    isSafeTagKey plainEnv p.1 = true ∧ p.2.isPrimitive = true := by
  intro p hp
  obtain rfl := List.mem_singleton.mp hp
  exact ⟨by decide, rfl⟩

/-- Tags with the flag pass. -/
theorem tag_filter_iff_flag : ∃ clauses,
    tagClauses plainEnv (some (.object [("flag", .bool true)])) = .ok clauses ∧
      (clauses.all fun clause =>
        clause.holds plainEnv (some (.object [("flag", .bool true)]))) = true := by
  obtain ⟨clauses, hclauses, -, hpasses⟩ := tag_filter_iff flag_filter_safe
  refine ⟨clauses, hclauses, ((hpasses _).mpr ?_).mpr ?_⟩
  · rintro ⟨-, p, hp, hlike⟩
    obtain rfl := List.mem_singleton.mp hp
    have hsame : SameValue (.bool true) (.bool true) := .bool true
    exact hsame.not_lookalike hlike
  · intro p hp
    obtain rfl := List.mem_singleton.mp hp
    exact ⟨.bool true, rfl, .bool true⟩

/-- So do tags with the number 1 there. -/
theorem one_for_true : ¬∀ (env : QueryEnv) (members : List (String × Json))
    (clauses : List TagClause),
    (∀ p ∈ members, isSafeTagKey env p.1 = true ∧ p.2.isPrimitive = true) →
    tagClauses env (some (.object members)) = .ok clauses →
    ∀ tags : Option Json, (∀ value ∈ tags, value.isObject = true) →
      ((clauses.all fun clause => clause.holds env tags) = true ↔
        ∀ p ∈ members, HasTag tags p.1 p.2) := by
  intro h
  have hexact := h plainEnv _ [.equals "flag" (.integer 1)] flag_filter_safe (by rfl)
    (some (.object [("flag", .number (.posInt 1))]))
    (fun value hvalue => Option.some_inj.mp hvalue ▸ rfl)
  obtain ⟨stored, hstored, hsame⟩ := hexact.mp rfl ("flag", .bool true) List.mem_cons_self
  obtain rfl : Json.number (.posInt 1) = stored := Option.some_inj.mp hstored
  cases hsame

end Fossic
