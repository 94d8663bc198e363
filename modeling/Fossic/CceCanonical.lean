/-
CCE is canonical, injective and self-delimiting.

`Json.canon` forgets what CCE is meant to forget: it normalises every string and
key, sends `-0.0` to `0.0`, and sorts the members of every object.

* `encodeValue_canon` — a value and its canonical form have one encoding;
* `encodeValue_separated` — no encoding is a proper prefix of another;
* `canon_eq_of_encodeValue_eq` — equal encodings come from equal canonical
  forms;
* `cce_canonical` — the three together, and the same for the pre-image that an
  event id hashes.

The inductions run over the value, with one case per constructor; arrays and
objects reduce to lists of pairwise separated words (`PrefixCode.flatten_inj`).
-/
import Fossic.Cce
import Fossic.PrefixCode
import Mathlib.Data.List.Perm.Basic
import Mathlib.Data.String.Basic

namespace Fossic

open KeySort PrefixCode

/-! ### Induction on JSON values -/

@[elab_as_elim, induction_eliminator]
theorem Json.induction {P : Json → Prop} (null : P .null) (bool : ∀ b, P (.bool b))
    (number : ∀ n, P (.number n)) (string : ∀ s, P (.string s))
    (array : ∀ items, (∀ v ∈ items, P v) → P (.array items))
    (object : ∀ members, (∀ m ∈ members, P m.2) → P (.object members)) : ∀ v, P v := by
  intro v
  refine @Json.rec P (fun items => ∀ v ∈ items, P v) (fun members => ∀ m ∈ members, P m.2)
    (fun m => P m.2) null bool number string array object ?_ ?_ ?_ ?_ ?_ v
  · exact fun v hv => absurd hv List.not_mem_nil
  · exact fun x items hx hitems => List.forall_mem_cons.mpr ⟨hx, hitems⟩
  · exact fun m hm => absurd hm List.not_mem_nil
  · exact fun m members hm hmembers => List.forall_mem_cons.mpr ⟨hm, hmembers⟩
  · exact fun _ _ h => h

/-! ### Canonical forms -/

/-- `-0.0` becomes `0.0`. -/
def Number.canon : Number → Number
  | float bits finite => if bits = 0x8000000000000000 then float 0 (by decide) else float bits finite
  | n => n

mutual

/-- Strings and keys in NFC, no negative zero, members in key order. -/
def Json.canon (nfc : String → String) : Json → Json
  | .null => .null
  | .bool b => .bool b
  | .number n => .number n.canon
  | .string s => .string (nfc s)
  | .array items => .array (canonItems nfc items)
  | .object members => .object (sortBy Prod.fst (canonMembers nfc members))

def canonItems (nfc : String → String) : List Json → List Json
  | [] => []
  | v :: items => v.canon nfc :: canonItems nfc items

def canonMembers (nfc : String → String) : List (String × Json) → List (String × Json)
  | [] => []
  | (k, v) :: members => (nfc k, v.canon nfc) :: canonMembers nfc members

end

mutual

/-- Every array and every object has fewer than `2 ^ 32` entries. -/
def Json.Small : Json → Prop
  | .array items => items.length < 2 ^ 32 ∧ SmallItems items
  | .object members => members.length < 2 ^ 32 ∧ SmallMembers members
  | _ => True

def SmallItems : List Json → Prop
  | [] => True
  | v :: items => v.Small ∧ SmallItems items

def SmallMembers : List (String × Json) → Prop
  | [] => True
  | (_, v) :: members => v.Small ∧ SmallMembers members

end

variable {nfc : String → String}

theorem canonItems_eq (items : List Json) : canonItems nfc items = items.map (Json.canon nfc) := by
  induction items with
  | nil => rfl
  | cons v items ih => rw [canonItems, ih, List.map_cons]

theorem canonMembers_eq (members : List (String × Json)) :
    canonMembers nfc members = members.map fun m => (nfc m.1, m.2.canon nfc) := by
  induction members with
  | nil => rfl
  | cons m members ih => rw [canonMembers, ih, List.map_cons]

theorem smallItems_iff {items : List Json} : SmallItems items ↔ ∀ v ∈ items, v.Small := by
  induction items with
  | nil => simp [SmallItems]
  | cons v items ih => simp [SmallItems, ih]

theorem smallMembers_iff {members : List (String × Json)} :
    SmallMembers members ↔ ∀ m ∈ members, m.2.Small := by
  induction members with
  | nil => simp [SmallMembers]
  | cons m members ih => simp [SmallMembers, ih]

/-- The canonical form forgets the order of the members. -/
theorem canon_object_of_perm {ms ms' : List (String × Json)} (h : ms.Perm ms')
    (hnd : (ms.map fun m => nfc m.1).Nodup) :
    (Json.object ms).canon nfc = (Json.object ms').canon nfc := by
  rw [Json.canon, Json.canon, canonMembers_eq, canonMembers_eq]
  refine congrArg Json.object (sortBy_eq_of_perm ?_ (h.map _))
  rw [List.map_map]
  exact hnd

/-! ### Scalars -/

@[simp] theorem length_leBytes : ∀ width n : ℕ, (leBytes width n).length = width
  | 0, _ => rfl
  | width + 1, n => by rw [leBytes, List.length_cons, length_leBytes]

theorem leBytes_inj : ∀ {width n m : ℕ}, n < 256 ^ width → m < 256 ^ width →
    leBytes width n = leBytes width m → n = m
  | 0, n, m, hn, hm, _ => by omega
  | width + 1, n, m, hn, hm, h => by
    rw [leBytes, leBytes, List.cons.injEq] at h
    have hdigit : n % 256 = m % 256 := by simpa using congrArg UInt8.toNat h.1
    have hrest : n / 256 = m / 256 := by
      refine leBytes_inj ?_ ?_ h.2
      · rw [pow_succ] at hn; exact Nat.div_lt_of_lt_mul (by omega)
      · rw [pow_succ] at hm; exact Nat.div_lt_of_lt_mul (by omega)
    omega

@[simp] theorem length_u32LE (n : ℕ) : (u32LE n).length = 4 := length_leBytes 4 _

theorem u32LE_inj {n m : ℕ} (hn : n < 2 ^ 32) (hm : m < 2 ^ 32) (h : u32LE n = u32LE m) :
    n = m := by
  rw [u32LE, u32LE, Nat.mod_eq_of_lt hn, Nat.mod_eq_of_lt hm] at h
  exact leBytes_inj (by omega) (by omega) h

theorem encodeI64_inj {i j : Int64} (h : encodeI64 i = encodeI64 j) : i = j := by
  rw [encodeI64, encodeI64, List.cons.injEq] at h
  have hi := i.toUInt64.toNat_lt
  have hj := j.toUInt64.toNat_lt
  have hu : i.toUInt64 = j.toUInt64 :=
    UInt64.toNat.inj (leBytes_inj (by omega) (by omega) h.2)
  cases i
  cases j
  exact congrArg Int64.ofUInt64 hu

theorem canonicalizeF64_of_finite {bits : UInt64} (h : Finite64 bits) :
    canonicalizeF64 bits = if bits = 0x8000000000000000 then 0 else bits := by
  rw [canonicalizeF64, if_neg (not_lt.mpr (le_of_lt h))]
  by_cases h0 : bits = 0
  · subst h0; rfl
  · simp [h0]

theorem encodeF64_inj {b c : UInt64} (h : encodeF64 b = encodeF64 c) :
    canonicalizeF64 b = canonicalizeF64 c := by
  rw [encodeF64, encodeF64, List.cons.injEq] at h
  have hb := (canonicalizeF64 b).toNat_lt
  have hc := (canonicalizeF64 c).toNat_lt
  exact UInt64.toNat.inj (leBytes_inj (by omega) (by omega) h.2)

/-! ### Numbers -/

/-- The three ways a number is encoded. -/
theorem encodeNumber_cases {n : Number} {b : Bytes} (h : encodeNumber n = .ok b) :
    (∃ i, n.asI64 = some i ∧ b = encodeI64 i) ∨
      ∃ bits finite, n = .float bits finite ∧ b = encodeF64 bits := by
  cases n with
  | posInt u =>
    rw [encodeNumber] at h
    rcases hu : (Number.posInt u).asI64 with _ | i
    · simp [hu] at h
    · rw [hu] at h
      exact .inl ⟨i, rfl, (Except.ok.inj h).symm⟩
  | negInt i neg => exact .inl ⟨i, rfl, (Except.ok.inj h).symm⟩
  | float bits finite => exact .inr ⟨bits, finite, rfl, (Except.ok.inj h).symm⟩

theorem Number.asI64_inj {n m : Number} {i : Int64} (hn : n.asI64 = some i)
    (hm : m.asI64 = some i) : n = m := by
  -- a non-negative integer has its sign bit clear, a negative one has it set
  have hpos : ∀ {u : UInt64} {j : Int64}, (Number.posInt u).asI64 = some j →
      u.toNat < 2 ^ 63 ∧ u = j.toUInt64 := by
    intro u j h
    by_cases hu : u.toNat < 2 ^ 63
    · rw [Number.asI64, if_pos hu, Option.some_inj] at h
      exact ⟨hu, by rw [← h]; rfl⟩
    · rw [Number.asI64, if_neg hu] at h
      exact absurd h (by simp)
  have hneg : ∀ {u : UInt64} {j : Int64}, j < 0 → u.toNat < 2 ^ 63 → u = j.toUInt64 → False := by
    intro u j hj hu he
    rw [Int64.lt_iff_toInt_lt] at hj
    have hint : j.toInt = u64AsI64 j.toUInt64 := rfl
    rw [← he, u64AsI64_of_lt hu] at hint
    rw [hint] at hj
    exact absurd hj (by simp)
  cases n with
  | posInt u =>
    obtain ⟨hu, rfl⟩ := hpos hn
    cases m with
    | posInt w => rw [(hpos hm).2]
    | negInt j neg =>
      obtain rfl := Option.some_inj.mp hm
      exact (hneg neg hu rfl).elim
    | float bits finite => exact absurd hm (by simp [Number.asI64])
  | negInt j neg =>
    obtain rfl := Option.some_inj.mp hn
    cases m with
    | posInt w => exact (hneg neg (hpos hm).1 (hpos hm).2).elim
    | negInt k neg' => obtain rfl := Option.some_inj.mp hm; rfl
    | float bits finite => exact absurd hm (by simp [Number.asI64])
  | float bits finite => exact absurd hn (by simp [Number.asI64])

theorem Number.canon_of_asI64 {n : Number} {i : Int64} (h : n.asI64 = some i) : n.canon = n := by
  cases n with
  | posInt u => rfl
  | negInt j neg => rfl
  | float bits finite => exact absurd h (by simp [Number.asI64])

theorem length_encodeNumber {n : Number} {b : Bytes} (h : encodeNumber n = .ok b) :
    b.length = 9 := by
  obtain ⟨i, -, rfl⟩ | ⟨bits, _, -, rfl⟩ := encodeNumber_cases h
  · simp [encodeI64]
  · simp [encodeF64]

theorem Number.canon_eq_of_encode {n m : Number} {b : Bytes} (hn : encodeNumber n = .ok b)
    (hm : encodeNumber m = .ok b) : n.canon = m.canon := by
  obtain ⟨i, hi, hb⟩ | ⟨bits, fin, rfl, hb⟩ := encodeNumber_cases hn <;>
    obtain ⟨j, hj, hb'⟩ | ⟨bits', fin', rfl, hb'⟩ := encodeNumber_cases hm
  · obtain rfl := encodeI64_inj (hb.symm.trans hb')
    rw [Number.asI64_inj hi hj]
  · exact absurd (hb.symm.trans hb') (by simp [encodeI64, encodeF64, TAG_INT, TAG_FLOAT])
  · exact absurd (hb.symm.trans hb') (by simp [encodeI64, encodeF64, TAG_INT, TAG_FLOAT])
  · have hc := encodeF64_inj (hb.symm.trans hb')
    rw [canonicalizeF64_of_finite fin, canonicalizeF64_of_finite fin'] at hc
    by_cases h : bits = 0x8000000000000000 <;> by_cases h' : bits' = 0x8000000000000000 <;>
      simp_all [Number.canon]

theorem encodeNumber_canon {n : Number} {b : Bytes} (h : encodeNumber n = .ok b) :
    encodeNumber n.canon = .ok b := by
  obtain ⟨i, hi, -⟩ | ⟨bits, fin, rfl, rfl⟩ := encodeNumber_cases h
  · rw [Number.canon_of_asI64 hi, h]
  · rw [Number.canon]
    split
    · rename_i hz
      subst hz
      rfl
    · exact h

/-! ### Strings -/

theorem utf8_inj {s t : String} (h : utf8 s = utf8 t) : s = t := by
  have hb : s.toByteArray = t.toByteArray := ByteArray.ext (Array.toList_inj.mp h)
  cases s
  cases t
  simpa using hb

theorem encodeString_eq_ok {s : String} {b : Bytes} :
    encodeString nfc s = .ok b ↔ (utf8 (nfc s)).length ≤ MAX_STRING_BYTES ∧
      b = TAG_STRING :: (u32LE (utf8 (nfc s)).length ++ utf8 (nfc s)) := by
  rw [encodeString]
  split
  · rename_i h
    exact ⟨fun e => absurd e (by simp), fun e => absurd e.1 (not_le.mpr h)⟩
  · rename_i h
    exact ⟨fun e => ⟨not_lt.mp h, (Except.ok.inj e).symm⟩, fun e => congrArg _ e.2.symm⟩

theorem nfc_eq_of_encodeString {s t : String} {b : Bytes} (hs : encodeString nfc s = .ok b)
    (ht : encodeString nfc t = .ok b) : nfc s = nfc t := by
  obtain ⟨-, rfl⟩ := encodeString_eq_ok.mp hs
  have h := (encodeString_eq_ok.mp ht).2
  rw [List.cons.injEq] at h
  exact utf8_inj (List.append_inj h.2 (by simp)).2

theorem encodeString_congr {s t : String} (h : nfc s = nfc t) :
    encodeString nfc s = encodeString nfc t := by
  rw [encodeString, encodeString, h]

theorem encodeString_separated {s t : String} {b c : Bytes} (hs : encodeString nfc s = .ok b)
    (ht : encodeString nfc t = .ok c) : Separated b c := by
  obtain ⟨hls, rfl⟩ := encodeString_eq_ok.mp hs
  obtain ⟨hlt, rfl⟩ := encodeString_eq_ok.mp ht
  rw [MAX_STRING_BYTES] at hls hlt
  refine Separated.cons fun _ => Separated.append (separated_of_length (by simp)) fun hlen => ?_
  exact separated_of_length (u32LE_inj (by omega) (by omega) hlen)

/-! ### Arrays and objects as lists of encoded parts -/

theorem encodeItems_eq_ok : ∀ {items : List Json} {bs : List Bytes},
    encodeItems nfc items = .ok bs ↔
      List.Forall₂ (fun v b => encodeValue nfc v = .ok b) items bs
  | [], bs => by
    rw [encodeItems, List.forall₂_nil_left_iff]
    exact ⟨fun h => (Except.ok.inj h).symm, fun h => congrArg _ h.symm⟩
  | v :: items, bs => by
    simp only [encodeItems, bind_eq_ok, List.forall₂_cons_left_iff, Except.ok.injEq,
      encodeItems_eq_ok]
    constructor
    · rintro ⟨b, hb, bs', hbs, rfl⟩
      exact ⟨b, bs', hb, hbs, rfl⟩
    · rintro ⟨b, bs', hb, hbs, rfl⟩
      exact ⟨b, hb, bs', hbs, rfl⟩

/-- `p` is the encoded form of the member `m`. -/
def EncodesMember (nfc : String → String) (m : String × Json) (p : Bytes × Bytes) : Prop :=
  encodeString nfc m.1 = .ok p.1 ∧ encodeValue nfc m.2 = .ok p.2

theorem encodeMembers_eq_ok : ∀ {members : List (String × Json)} {ps : List (Bytes × Bytes)},
    encodeMembers nfc members = .ok ps ↔ List.Forall₂ (EncodesMember nfc) members ps
  | [], ps => by
    rw [encodeMembers, List.forall₂_nil_left_iff]
    exact ⟨fun h => (Except.ok.inj h).symm, fun h => congrArg _ h.symm⟩
  | (k, v) :: members, ps => by
    simp only [encodeMembers, bind_eq_ok, List.forall₂_cons_left_iff, Except.ok.injEq,
      encodeMembers_eq_ok]
    constructor
    · rintro ⟨kb, hk, vb, hv, ps', hps, rfl⟩
      exact ⟨(kb, vb), ps', ⟨hk, hv⟩, hps, rfl⟩
    · rintro ⟨⟨kb, vb⟩, ps', ⟨hk, hv⟩, hps, rfl⟩
      exact ⟨kb, hk, vb, hv, ps', hps, rfl⟩

/-- The encoded members in key order. -/
def sortPairs (pairs : List (Bytes × Bytes)) : List (Bytes × Bytes) :=
  sortBy (fun p => byteOrder p.1) pairs

theorem byteOrder_inj {b c : Bytes} (h : byteOrder b = byteOrder c) : b = c :=
  List.map_injective_iff.mpr (fun _ _ => UInt8.toNat.inj) h

theorem hasDuplicateKeys_eq_false : ∀ {ps : List (Bytes × Bytes)},
    hasDuplicateKeys ps = false ↔ ps.IsChain fun p q => byteOrder p.1 ≠ byteOrder q.1
  | [] => by simp [hasDuplicateKeys]
  | [p] => by simp [hasDuplicateKeys]
  | p :: q :: ps => by
    have ih := @hasDuplicateKeys_eq_false (q :: ps)
    simp only [hasDuplicateKeys, List.tail_cons, List.zip_cons_cons, List.any_cons,
      Bool.or_eq_false_iff, List.isChain_cons_cons] at ih ⊢
    rw [ih, beq_eq_false_iff_ne]
    exact and_congr_left fun _ => ⟨fun h e => h (byteOrder_inj e), fun h e => h (congrArg _ e)⟩

theorem encodePairs_eq_ok {ps : List (Bytes × Bytes)} {b : Bytes} :
    encodePairs ps = .ok b ↔ (ps.map fun p => byteOrder p.1).Nodup ∧
      b = TAG_MAP :: (u32LE ps.length ++ ((sortPairs ps).map fun p => p.1 ++ p.2).flatten) := by
  have hdup : hasDuplicateKeys (sortPairs ps) = false ↔ (ps.map fun p => byteOrder p.1).Nodup := by
    rw [hasDuplicateKeys_eq_false]
    constructor
    · intro h
      have hs := strict_of_sorted_of_neighbours (sortBy_sorted _ _) h
      rw [← ((sortBy_perm (fun p => byteOrder p.1) ps).map _).nodup_iff]
      exact List.pairwise_map.mpr (hs.imp ne_of_lt)
    · exact fun h => ((sortBy_strict h).imp ne_of_lt).isChain
  rw [encodePairs, ← hdup]
  show (if hasDuplicateKeys (sortPairs ps) = true then _ else _) = _ ↔ _
  rw [show (sortBy (fun p => byteOrder p.1) ps).length = ps.length from length_sortBy]
  cases hasDuplicateKeys (sortPairs ps)
  · show Except.ok _ = _ ↔ _
    exact ⟨fun e => ⟨rfl, (Except.ok.inj e).symm⟩, fun e => congrArg _ e.2.symm⟩
  · simp

theorem encodeValue_array {items : List Json} {b : Bytes} :
    encodeValue nfc (.array items) = .ok b ↔
      ∃ bs, List.Forall₂ (fun v b => encodeValue nfc v = .ok b) items bs ∧
        b = TAG_ARRAY :: (u32LE items.length ++ bs.flatten) := by
  simp only [encodeValue, bind_eq_ok, encodeItems_eq_ok, Except.ok.injEq, eq_comm (a := b)]

theorem encodeValue_object {members : List (String × Json)} {b : Bytes} :
    encodeValue nfc (.object members) = .ok b ↔
      ∃ ps, List.Forall₂ (EncodesMember nfc) members ps ∧ encodePairs ps = .ok b := by
  simp only [encodeValue, bind_eq_ok, encodeMembers_eq_ok]

/-! ### Self-delimitation -/

/-- The tag byte with which the encoding of a value starts. -/
def Json.tag : Json → UInt8
  | .null => TAG_NULL
  | .bool _ => TAG_BOOL
  | .number (.float _ _) => TAG_FLOAT
  | .number _ => TAG_INT
  | .string _ => TAG_STRING
  | .array _ => TAG_ARRAY
  | .object _ => TAG_MAP

theorem encodeValue_head {v : Json} {b : Bytes} (h : encodeValue nfc v = .ok b) :
    ∃ body, b = v.tag :: body := by
  cases v with
  | null => exact ⟨_, (Except.ok.inj h).symm⟩
  | bool x => exact ⟨_, (Except.ok.inj h).symm⟩
  | number n =>
    obtain ⟨i, hi, rfl⟩ | ⟨bits, fin, rfl, rfl⟩ := encodeNumber_cases h
    · cases n with
      | float bits fin => exact absurd hi (by simp [Number.asI64])
      | posInt u => exact ⟨_, rfl⟩
      | negInt j neg => exact ⟨_, rfl⟩
    · exact ⟨_, rfl⟩
  | string s => exact ⟨_, (encodeString_eq_ok.mp h).2⟩
  | array items =>
    obtain ⟨bs, -, rfl⟩ := encodeValue_array.mp h
    exact ⟨_, rfl⟩
  | object members =>
    obtain ⟨ps, -, hps⟩ := encodeValue_object.mp h
    exact ⟨_, (encodePairs_eq_ok.mp hps).2⟩

/-- Two values of one constructor. -/
inductive SameKind : Json → Json → Prop
  | null : SameKind .null .null
  | bool (x y : Bool) : SameKind (.bool x) (.bool y)
  | number (n m : Number) : SameKind (.number n) (.number m)
  | string (s t : String) : SameKind (.string s) (.string t)
  | array (items items' : List Json) : SameKind (.array items) (.array items')
  | object (members members' : List (String × Json)) : SameKind (.object members) (.object members')

theorem sameKind_of_tag_eq {v w : Json} (h : v.tag = w.tag) : SameKind v w := by
  rcases v with _ | _ | ⟨_ | _ | _⟩ | _ | _ | _ <;>
    rcases w with _ | _ | ⟨_ | _ | _⟩ | _ | _ | _ <;>
    first
      | constructor
      | exact absurd h (by simp [Json.tag, TAG_NULL, TAG_BOOL, TAG_INT, TAG_FLOAT, TAG_STRING,
          TAG_ARRAY, TAG_MAP])

/-- Values of different kinds are told apart by their tag. -/
theorem separated_or_sameKind {v w : Json} {b c : Bytes} (hv : encodeValue nfc v = .ok b)
    (hw : encodeValue nfc w = .ok c) : Separated b c ∨ SameKind v w := by
  by_cases h : v.tag = w.tag
  · exact .inr (sameKind_of_tag_eq h)
  · obtain ⟨_, rfl⟩ := encodeValue_head hv
    obtain ⟨_, rfl⟩ := encodeValue_head hw
    exact .inl (separated_of_head_ne h)

theorem sameKind_of_encodeValue_eq {v w : Json} {b : Bytes} (hv : encodeValue nfc v = .ok b)
    (hw : encodeValue nfc w = .ok b) : SameKind v w := by
  obtain ⟨_, rfl⟩ := encodeValue_head hv
  obtain ⟨_, hb⟩ := encodeValue_head hw
  exact sameKind_of_tag_eq (List.cons.inj hb).1

/-- **No encoding is a proper prefix of another.** -/
theorem encodeValue_separated : ∀ {v w : Json} {b c : Bytes}, v.Small → w.Small →
    encodeValue nfc v = .ok b → encodeValue nfc w = .ok c → Separated b c := by
  intro v
  induction v with
  | null =>
    intro w b c _ _ hv hw
    rcases separated_or_sameKind hv hw with h | h
    · exact h
    · cases h
      obtain rfl := Except.ok.inj (hv.symm.trans hw)
      exact Separated.refl _
  | bool x =>
    intro w b c _ _ hv hw
    rcases separated_or_sameKind hv hw with h | h
    · exact h
    · cases h
      obtain rfl := Except.ok.inj hv
      obtain rfl := Except.ok.inj hw
      exact separated_of_length rfl
  | number n =>
    intro w b c _ _ hv hw
    rcases separated_or_sameKind hv hw with h | h
    · exact h
    · cases h
      exact separated_of_length ((length_encodeNumber hv).trans (length_encodeNumber hw).symm)
  | string s =>
    intro w b c _ _ hv hw
    rcases separated_or_sameKind hv hw with h | h
    · exact h
    · cases h
      exact encodeString_separated hv hw
  | array items ih =>
    intro w b c hsv hsw hv hw
    rcases separated_or_sameKind hv hw with h | h
    · exact h
    · cases h
      obtain ⟨bs, hbs, rfl⟩ := encodeValue_array.mp hv
      obtain ⟨cs, hcs, rfl⟩ := encodeValue_array.mp hw
      rw [Json.Small, smallItems_iff] at hsv hsw
      -- the count fixes the number of words, the induction hypothesis separates them
      refine Separated.cons fun _ =>
        Separated.append (separated_of_length (by simp)) fun hlen => Separated.flatten ?_ ?_
      · rw [← hbs.length_eq, ← hcs.length_eq]
        exact u32LE_inj hsv.1 hsw.1 hlen
      · intro x hx y hy
        obtain ⟨v, hv, hvx⟩ := exists_of_mem_forall₂ hbs hx
        obtain ⟨w, hw, hwy⟩ := exists_of_mem_forall₂ hcs hy
        exact ih v hv (hsv.2 v hv) (hsw.2 w hw) hvx hwy
  | object members ih =>
    intro w b c hsv hsw hv hw
    rcases separated_or_sameKind hv hw with h | h
    · exact h
    · cases h
      obtain ⟨ps, hps, hb⟩ := encodeValue_object.mp hv
      obtain ⟨qs, hqs, hc⟩ := encodeValue_object.mp hw
      obtain ⟨-, rfl⟩ := encodePairs_eq_ok.mp hb
      obtain ⟨-, rfl⟩ := encodePairs_eq_ok.mp hc
      rw [Json.Small, smallMembers_iff] at hsv hsw
      refine Separated.cons fun _ =>
        Separated.append (separated_of_length (by simp)) fun hlen => Separated.flatten ?_ ?_
      · rw [hps.length_eq] at hsv
        rw [hqs.length_eq] at hsw
        simpa [sortPairs] using u32LE_inj hsv.1 hsw.1 hlen
      · intro x hx y hy
        obtain ⟨p, hp, rfl⟩ := List.mem_map.mp hx
        obtain ⟨q, hq, rfl⟩ := List.mem_map.mp hy
        obtain ⟨m, hm, hkm, hvm⟩ := exists_of_mem_forall₂ hps (mem_sortBy.mp hp)
        obtain ⟨m', hm', hkm', hvm'⟩ := exists_of_mem_forall₂ hqs (mem_sortBy.mp hq)
        exact Separated.append (encodeString_separated hkm hkm') fun _ =>
          ih m hm (hsv.2 m hm) (hsw.2 m' hm') hvm hvm'

/-! ### Injectivity up to the canonical form -/

theorem map_eq_of_forall₂ {α β γ : Type} {R : α → β → Prop} {f : α → γ} :
    ∀ {l l' : List α} {m : List β}, List.Forall₂ R l m → List.Forall₂ R l' m →
      (∀ a ∈ l, ∀ a' ∈ l', ∀ b, R a b → R a' b → f a = f a') → l.map f = l'.map f := by
  intro l l' m h
  induction h generalizing l' with
  | nil =>
    intro h' _
    rw [List.forall₂_nil_right_iff.mp h']
  | @cons a b l m hab _ ih =>
    intro h' hf
    obtain ⟨a', l', hab', hl', rfl⟩ := List.forall₂_cons_right_iff.mp h'
    rw [List.map_cons, List.map_cons,
      hf a List.mem_cons_self a' List.mem_cons_self b hab hab',
      ih hl' fun x hx y hy => hf x (List.mem_cons_of_mem _ hx) y (List.mem_cons_of_mem _ hy)]

/-- Members with distinct encoded keys have distinct normalised keys. -/
theorem nodup_nfc_keys {ms : List (String × Json)} {ps : List (Bytes × Bytes)}
    (h : List.Forall₂ (EncodesMember nfc) ms ps)
    (hnd : (ps.map fun p => byteOrder p.1).Nodup) : (ms.map fun m => nfc m.1).Nodup := by
  induction h with
  | nil => exact List.nodup_nil
  | @cons m p ms ps hmp hms ih =>
    rw [List.map_cons, List.nodup_cons] at hnd ⊢
    refine ⟨fun hmem => hnd.1 ?_, ih hnd.2⟩
    obtain ⟨m', hm', hkey⟩ := List.mem_map.mp hmem
    obtain ⟨p', hp', hmp'⟩ := exists_of_mem_forall₂ hms.flip hm'
    have hbytes : p'.1 = p.1 :=
      Except.ok.inj (hmp'.1.symm.trans ((encodeString_congr hkey).trans hmp.1))
    exact List.mem_map.mpr ⟨p', hp', by rw [hbytes]⟩

/-- **Equal encodings come from equal canonical forms.** -/
theorem canon_eq_of_encodeValue_eq : ∀ {v w : Json} {b : Bytes}, v.Small → w.Small →
    encodeValue nfc v = .ok b → encodeValue nfc w = .ok b → v.canon nfc = w.canon nfc := by
  intro v
  induction v with
  | null =>
    intro w b _ _ hv hw
    cases sameKind_of_encodeValue_eq hv hw
    rfl
  | bool x =>
    intro w b _ _ hv hw
    cases sameKind_of_encodeValue_eq hv hw with
    | bool _ y =>
      have h := Except.ok.inj (hv.trans hw.symm)
      cases x <;> cases y <;> simp_all [Json.canon]
  | number n =>
    intro w b _ _ hv hw
    cases sameKind_of_encodeValue_eq hv hw
    rw [Json.canon, Json.canon, Number.canon_eq_of_encode hv hw]
  | string s =>
    intro w b _ _ hv hw
    cases sameKind_of_encodeValue_eq hv hw
    rw [Json.canon, Json.canon, nfc_eq_of_encodeString hv hw]
  | array items ih =>
    intro w b hsv hsw hv hw
    cases sameKind_of_encodeValue_eq hv hw with
    | array _ items' =>
      obtain ⟨bs, hbs, rfl⟩ := encodeValue_array.mp hv
      obtain ⟨cs, hcs, hb⟩ := encodeValue_array.mp hw
      rw [Json.Small, smallItems_iff] at hsv hsw
      obtain ⟨hlen, hflat⟩ := List.append_inj (List.cons.inj hb).2 (by simp)
      have hcount := u32LE_inj hsv.1 hsw.1 hlen
      obtain rfl : bs = cs := by
        refine flatten_inj (r := []) (s := []) ?_ ?_ (by rw [hflat])
        · rw [← hbs.length_eq, ← hcs.length_eq, hcount]
        · intro x hx y hy
          obtain ⟨v, hv, hvx⟩ := exists_of_mem_forall₂ hbs hx
          obtain ⟨w, hw, hwy⟩ := exists_of_mem_forall₂ hcs hy
          exact encodeValue_separated (hsv.2 v hv) (hsw.2 w hw) hvx hwy
      rw [Json.canon, Json.canon, canonItems_eq, canonItems_eq]
      exact congrArg Json.array (map_eq_of_forall₂ hbs hcs fun v hv w hw b hvb hwb =>
        ih v hv (hsv.2 v hv) (hsw.2 w hw) hvb hwb)
  | object members ih =>
    intro w b hsv hsw hv hw
    cases sameKind_of_encodeValue_eq hv hw with
    | object _ members' =>
      obtain ⟨ps, hps, hb⟩ := encodeValue_object.mp hv
      obtain ⟨qs, hqs, hc⟩ := encodeValue_object.mp hw
      obtain ⟨hnd, rfl⟩ := encodePairs_eq_ok.mp hb
      obtain ⟨-, hb⟩ := encodePairs_eq_ok.mp hc
      rw [Json.Small, smallMembers_iff] at hsv hsw
      obtain ⟨hlen, hflat⟩ := List.append_inj (List.cons.inj hb).2 (by simp)
      have hcount : ps.length = qs.length := by
        rw [← hps.length_eq, ← hqs.length_eq] at hlen ⊢
        exact u32LE_inj hsv.1 hsw.1 hlen
      have hsep : ∀ p ∈ ps, ∀ q ∈ qs, Separated p.1 q.1 ∧ Separated p.2 q.2 := by
        intro p hp q hq
        obtain ⟨m, hm, hkm, hvm⟩ := exists_of_mem_forall₂ hps hp
        obtain ⟨m', hm', hkm', hvm'⟩ := exists_of_mem_forall₂ hqs hq
        exact ⟨encodeString_separated hkm hkm',
          encodeValue_separated (hsv.2 m hm) (hsw.2 m' hm') hvm hvm'⟩
      -- the sorted words agree, hence the sorted pairs, hence the pairs up to order
      have hwords : (sortPairs ps).map (fun p => p.1 ++ p.2)
          = (sortPairs qs).map fun p => p.1 ++ p.2 := by
        refine flatten_inj (r := []) (s := []) (by simpa [sortPairs] using hcount) ?_ (by rw [hflat])
        intro x hx y hy
        obtain ⟨p, hp, rfl⟩ := List.mem_map.mp hx
        obtain ⟨q, hq, rfl⟩ := List.mem_map.mp hy
        obtain ⟨h1, h2⟩ := hsep p (mem_sortBy.mp hp) q (mem_sortBy.mp hq)
        exact h1.append fun _ => h2
      have hsorted : sortPairs ps = sortPairs qs := by
        refine List.ext_getElem (by simpa using congrArg List.length hwords) fun i hi hi' => ?_
        have hword := congrArg (fun l => l[i]?) hwords
        simp only [List.getElem?_map, List.getElem?_eq_getElem hi, List.getElem?_eq_getElem hi',
          Option.map_some, Option.some_inj] at hword
        obtain ⟨h1, -⟩ := hsep _ (mem_sortBy.mp (List.getElem_mem hi)) _
          (mem_sortBy.mp (List.getElem_mem hi'))
        exact Prod.ext_iff.mpr (h1.rest hword)
      have hperm : ps.Perm qs := by
        refine (sortBy_perm (fun p => byteOrder p.1) ps).symm.trans ?_
        exact (show sortBy _ ps = sortBy _ qs from hsorted) ▸ sortBy_perm _ qs
      obtain ⟨ms, hms, hmqs⟩ : ∃ ms, members.Perm ms ∧ List.Forall₂ (EncodesMember nfc) ms qs := by
        have h : Relation.Comp (List.Forall₂ (EncodesMember nfc)) List.Perm members qs :=
          ⟨ps, hps, hperm⟩
        rwa [List.forall₂_comp_perm_eq_perm_comp_forall₂] at h
      rw [canon_object_of_perm hms (nodup_nfc_keys hps hnd), Json.canon, Json.canon,
        canonMembers_eq, canonMembers_eq]
      refine congrArg (fun l => Json.object (sortBy Prod.fst l)) (map_eq_of_forall₂ hmqs hqs ?_)
      intro m hm m' hm' p hmp hmp'
      have hmem := hms.mem_iff.mpr hm
      rw [nfc_eq_of_encodeString hmp.1 hmp'.1,
        ih m hmem (hsv.2 m hmem) (hsw.2 m' hm') hmp.2 hmp'.2]

/-! ### Encodings of canonical forms -/

theorem encodePairs_of_perm {ps qs : List (Bytes × Bytes)} {b : Bytes} (h : ps.Perm qs)
    (hb : encodePairs ps = .ok b) : encodePairs qs = .ok b := by
  obtain ⟨hnd, rfl⟩ := encodePairs_eq_ok.mp hb
  refine encodePairs_eq_ok.mpr ⟨(h.map _).nodup_iff.mp hnd, ?_⟩
  rw [h.length_eq, sortPairs, sortPairs, sortBy_eq_of_perm hnd h]

/-- A value and its canonical form have one encoding. -/
theorem encodeValue_canon (hnfc : ∀ s, nfc (nfc s) = nfc s) : ∀ {v : Json} {b : Bytes},
    encodeValue nfc v = .ok b → encodeValue nfc (v.canon nfc) = .ok b := by
  intro v
  induction v with
  | null => exact id
  | bool x => exact id
  | number n => exact encodeNumber_canon
  | string s =>
    intro b h
    rw [← h]
    exact encodeString_congr (hnfc s)
  | array items ih =>
    intro b h
    obtain ⟨bs, hbs, rfl⟩ := encodeValue_array.mp h
    rw [Json.canon, canonItems_eq]
    refine encodeValue_array.mpr ⟨bs, ?_, by rw [List.length_map]⟩
    rw [List.forall₂_map_left_iff]
    exact forall₂_imp_of_mem hbs fun v hv _ hvb => ih v hv hvb
  | object members ih =>
    intro b h
    obtain ⟨ps, hps, hb⟩ := encodeValue_object.mp h
    rw [Json.canon, canonMembers_eq]
    have hcanon : List.Forall₂ (EncodesMember nfc)
        (members.map fun m => (nfc m.1, m.2.canon nfc)) ps := by
      rw [List.forall₂_map_left_iff]
      exact forall₂_imp_of_mem hps fun m hm _ hmp =>
        ⟨(encodeString_congr (hnfc m.1)).trans hmp.1, ih m hm hmp.2⟩
    -- sorting the canonical members permutes their encodings
    obtain ⟨qs, hqs, hperm⟩ := List.perm_comp_forall₂ (sortBy_perm Prod.fst _) hcanon
    exact encodeValue_object.mpr ⟨qs, hqs, encodePairs_of_perm hperm.symm hb⟩

theorem encodeValue_eq_iff (hnfc : ∀ s, nfc (nfc s) = nfc s) {v w : Json} {b c : Bytes}
    (hsv : v.Small) (hsw : w.Small) (hv : encodeValue nfc v = .ok b)
    (hw : encodeValue nfc w = .ok c) : b = c ↔ v.canon nfc = w.canon nfc := by
  constructor
  · rintro rfl
    exact canon_eq_of_encodeValue_eq hsv hsw hv hw
  · intro h
    have hb := encodeValue_canon hnfc hv
    rw [h, encodeValue_canon hnfc hw] at hb
    exact (Except.ok.inj hb).symm

/-! ### The pre-image of an event id -/

theorem encodeU32AsI64_inj {v w : UInt32} (h : encodeU32AsI64 v = encodeU32AsI64 w) : v = w := by
  have hi := encodeI64_inj h
  have hv := v.toNat_lt
  have hw := w.toNat_lt
  have hn := congrArg Int64.toInt hi
  rw [Int64.toInt_ofNat_of_lt (by omega), Int64.toInt_ofNat_of_lt (by omega)] at hn
  exact UInt32.toNat.inj (by omega)

theorem encodeOptionalBytes_separated {c c' : Option EventId} :
    Separated (encodeOptionalBytes (c.map EventId.bytes))
      (encodeOptionalBytes (c'.map EventId.bytes)) := by
  cases c with
  | none =>
    cases c' with
    | none => exact Separated.refl _
    | some i => exact separated_of_head_ne (by decide)
  | some i =>
    cases c' with
    | none => exact separated_of_head_ne (by decide)
    | some j => exact separated_of_length (by simp [encodeOptionalBytes, encodeBytes, i.size, j.size])

theorem encodeOptionalBytes_inj {c c' : Option EventId}
    (h : encodeOptionalBytes (c.map EventId.bytes) = encodeOptionalBytes (c'.map EventId.bytes)) :
    c = c' := by
  cases c with
  | none =>
    cases c' with
    | none => rfl
    | some j => exact absurd (List.cons.inj h).1 (by decide)
  | some i =>
    cases c' with
    | none => exact absurd (List.cons.inj h).1 (by decide)
    | some j =>
      have hbytes := (List.append_inj (List.cons.inj h).2 (by simp)).2
      cases i
      cases j
      simpa using hbytes

/-- The four fields can be read back from the pre-image, up to what CCE
forgets. -/
theorem preImage_eq_iff (hnfc : ∀ s, nfc (nfc s) = nfc s) {ty ty' : String} {tv tv' : UInt32}
    {c c' : Option EventId} {v v' : Json} {b b' : Bytes} (hsv : v.Small) (hsv' : v'.Small)
    (h : preImage nfc ty tv c v = .ok b) (h' : preImage nfc ty' tv' c' v' = .ok b') :
    b = b' ↔ nfc ty = nfc ty' ∧ tv = tv' ∧ c = c' ∧ v.canon nfc = v'.canon nfc := by
  simp only [preImage, bind_eq_ok, Except.ok.injEq] at h h'
  obtain ⟨tb, htb, vb, hvb, rfl⟩ := h
  obtain ⟨tb', htb', vb', hvb', rfl⟩ := h'
  rw [List.append_cancel_left_eq]
  constructor
  · intro e
    obtain ⟨hty, e₁⟩ := (encodeString_separated htb htb').rest e
    subst hty
    have hsep : Separated (encodeU32AsI64 tv) (encodeU32AsI64 tv') :=
      separated_of_length (by simp [encodeU32AsI64, encodeI64])
    obtain ⟨hver, e₂⟩ := hsep.rest e₁
    obtain ⟨hcause, e₃⟩ := encodeOptionalBytes_separated.rest e₂
    exact ⟨nfc_eq_of_encodeString htb htb', encodeU32AsI64_inj hver, encodeOptionalBytes_inj hcause,
      (encodeValue_eq_iff hnfc hsv hsv' hvb hvb').mp e₃⟩
  · rintro ⟨hty, rfl, rfl, hv⟩
    obtain rfl : tb = tb' := Except.ok.inj (htb.symm.trans ((encodeString_congr hty).trans htb'))
    rw [(encodeValue_eq_iff hnfc hsv hsv' hvb hvb').mpr hv]

/-- **CCE is canonical, injective and self-delimiting**: two accepted values have
one encoding exactly when they have one canonical form, no accepted encoding is
a proper prefix of another, and the pre-images of two event ids agree exactly
when all four inputs agree up to their canonical forms. -/
theorem cce_canonical (nfc : String → String) (hnfc : ∀ s, nfc (nfc s) = nfc s) :
    (∀ (v w : Json) (b c : Bytes), v.Small → w.Small →
      encodeValue nfc v = .ok b → encodeValue nfc w = .ok c →
        (b = c ↔ v.canon nfc = w.canon nfc)) ∧
    IsAntichain (· <+: ·) {b | ∃ v : Json, v.Small ∧ encodeValue nfc v = .ok b} ∧
    (∀ (ty ty' : String) (tv tv' : UInt32) (c c' : Option EventId) (v v' : Json) (b b' : Bytes),
      v.Small → v'.Small → preImage nfc ty tv c v = .ok b → preImage nfc ty' tv' c' v' = .ok b' →
        (b = b' ↔ nfc ty = nfc ty' ∧ tv = tv' ∧ c = c' ∧ v.canon nfc = v'.canon nfc)) := by
  refine ⟨fun v w b c hsv hsw hv hw => encodeValue_eq_iff hnfc hsv hsw hv hw, ?_,
    fun ty ty' tv tv' c c' v v' b b' hsv hsv' h h' => preImage_eq_iff hnfc hsv hsv' h h'⟩
  refine isAntichain_of_separated ?_
  rintro b ⟨v, hsv, hv⟩ c ⟨w, hsw, hw⟩
  exact encodeValue_separated hsv hsw hv hw

/-- On ASCII strings, which are their own NFC forms: `{"b": true, "a": null}`
and `{"a": null, "b": true}` are one value, and the integer `1` and the string
`"1"` are two. -/
theorem cce_canonical_ascii :
    (∃ b, encodeValue id (.object [("b", .bool true), ("a", .null)]) = .ok b ∧
      encodeValue id (.object [("a", .null), ("b", .bool true)]) = .ok b) ∧
    (Json.number (.posInt 1)).canon id ≠ (Json.string "1").canon id := by
  obtain ⟨h, -, -⟩ := cce_canonical id fun _ => rfl
  refine ⟨⟨_, rfl, ?_⟩, fun e => ?_⟩
  · have hb := (h (.object [("b", .bool true), ("a", .null)])
      (.object [("a", .null), ("b", .bool true)]) _ _ (by simp [Json.Small, SmallMembers])
      (by simp [Json.Small, SmallMembers]) rfl rfl).mpr (canon_object_of_perm (.swap _ _ _) (by decide))
    exact congrArg Except.ok hb.symm
  · exact absurd ((h _ _ _ _ (by simp [Json.Small]) (by simp [Json.Small]) rfl rfl).mpr e) (by decide)

end Fossic
