/-
Event ids as text.

`EventId::to_hex` writes 64 lower-case digits.  `EventId::from_hex`, behind which every binding
takes its ids, looks at the bytes of a string, not at its characters.

* `hexPairs_cases` — what the loop over the pairs of digits comes to, byte by byte;
* `event_id_hex` — which strings are accepted, for which id, and what the others are told.
-/
import Fossic.RelayIdentity
import Fossic.CceCanonical

namespace Fossic

/-- The text of `Error::InvalidEventId`. -/
structure InvalidEventId where
  message : String
  deriving DecidableEq

/-- `b as char`. -/
def byteChar (b : UInt8) : Char := Char.ofNat b.toNat

def hexNibble (b : UInt8) : Except Char UInt8 :=
  if 48 ≤ b ∧ b ≤ 57 then .ok (b - 48)
  else if 97 ≤ b ∧ b ≤ 102 then .ok (b - 97 + 10)
  else if 65 ≤ b ∧ b ≤ 70 then .ok (b - 65 + 10)
  else .error (byteChar b)

/-- The loop over `chunks(2)`, for an even number of bytes. -/
def hexPairs : Bytes → Except Char Bytes
  | hi :: lo :: rest =>
    match hexNibble hi with
    | .error c => .error c
    | .ok h =>
      match hexNibble lo with
      | .error c => .error c
      | .ok l => (hexPairs rest).map fun bytes => (h <<< 4 ||| l) :: bytes
  | _ => .ok []

theorem hexPairs_length : ∀ {bs bytes : Bytes}, hexPairs bs = .ok bytes →
    bytes.length = bs.length / 2
  | [], bytes, h => by
    obtain rfl := Except.ok.inj h
    rfl
  | [b], bytes, h => by
    obtain rfl := Except.ok.inj h
    simp
  | hi :: lo :: rest, bytes, h => by
    rw [hexPairs] at h
    split at h
    · exact absurd h (by simp)
    · split at h
      · exact absurd h (by simp)
      · rcases hrest : hexPairs rest with c | tail
        · rw [hrest] at h
          exact absurd h (by simp [Except.map])
        · rw [hrest] at h
          obtain rfl := Except.ok.inj h
          have htail := hexPairs_length hrest
          simp only [List.length_cons]
          omega

/-- `EventId::from_hex`. -/
def EventId.fromHex (s : String) : Except InvalidEventId EventId :=
  if hlength : (utf8 s).length ≠ 64 then
    .error ⟨"expected 64 hex chars, got " ++ toString (utf8 s).length⟩
  else
    match hpairs : hexPairs (utf8 s) with
    | .ok bytes => .ok ⟨bytes, by rw [hexPairs_length hpairs, not_ne_iff.mp hlength]⟩
    | .error c => .error ⟨"invalid hex char '" ++ c.toString ++ "'"⟩

/-! ### One digit -/

/-- The byte is a digit of the given value. -/
def IsDigit (b : UInt8) (n : ℕ) : Prop := (byteChar b).toLower = hexDigit n

/-- Whether `b` is a digit at all. -/
def IsHex (b : UInt8) : Prop := ∃ n < 16, IsDigit b n

theorem hexNibble_table : ∀ b < 256, ∀ n < 16,
    hexNibble (UInt8.ofNat b) = .ok (UInt8.ofNat n) ↔
      (byteChar (UInt8.ofNat b)).toLower = hexDigit n := by
  decide +kernel

theorem hexNibble_range : ∀ b < 256, (hexNibble (UInt8.ofNat b)).toOption.all fun n => n < 16 := by
  decide +kernel

theorem hexNibble_iff {b : UInt8} {n : ℕ} (hn : n < 16) :
    hexNibble b = .ok (UInt8.ofNat n) ↔ IsDigit b n := by
  have hb := hexNibble_table b.toNat b.toNat_lt n hn
  rwa [UInt8.ofNat_toNat] at hb

theorem hexNibble_error {b : UInt8} {c : Char} (h : hexNibble b = .error c) : c = byteChar b := by
  rw [hexNibble] at h
  split at h
  · exact absurd h (by simp)
  · split at h
    · exact absurd h (by simp)
    · split at h
      · exact absurd h (by simp)
      · exact (Except.error.inj h).symm

/-- A byte is a digit, of one value, or refused. -/
theorem hexNibble_cases (b : UInt8) :
    (∃ n < 16, IsDigit b n ∧ hexNibble b = .ok (UInt8.ofNat n)) ∨
      ¬IsHex b ∧ hexNibble b = .error (byteChar b) := by
  rcases hb : hexNibble b with c | n
  · refine .inr ⟨?_, by rw [hexNibble_error hb]⟩
    rintro ⟨n, hn, hdigit⟩
    rw [(hexNibble_iff hn).mpr hdigit] at hb
    exact absurd hb (by simp)
  · have hrange := hexNibble_range b.toNat b.toNat_lt
    rw [UInt8.ofNat_toNat, hb] at hrange
    have hlt : n < 16 := of_decide_eq_true hrange
    have hn : n.toNat < 16 := hlt
    have hval : n = UInt8.ofNat n.toNat := UInt8.ofNat_toNat.symm
    exact .inl ⟨n.toNat, hn, (hexNibble_iff hn).mp (hval ▸ hb), congrArg _ hval⟩

/-! ### The loop -/

/-- The digits of some bytes. -/
def hexDigits (bytes : Bytes) : List Char :=
  bytes.flatMap fun b => [hexDigit (b.toNat / 16), hexDigit (b.toNat % 16)]

theorem nibbles_toNat : ∀ m < 16, ∀ n < 16,
    (UInt8.ofNat m <<< 4 ||| UInt8.ofNat n).toNat = 16 * m + n := by
  decide +kernel

variable {bs bytes : Bytes} {c : Char}

/-- **The loop**: it accepts what are, case aside, the digits of the bytes it returns, and
otherwise stops at the first byte that is no digit. -/
theorem hexPairs_cases : ∀ {bs : Bytes}, bs.length % 2 = 0 →
    (∃ bytes, hexPairs bs = .ok bytes ∧ bs.map (fun b => (byteChar b).toLower) = hexDigits bytes) ∨
    ∃ front b back, bs = front ++ b :: back ∧ (∀ x ∈ front, IsHex x) ∧ ¬IsHex b ∧
      hexPairs bs = .error (byteChar b)
  | [], _ => .inl ⟨[], rfl, rfl⟩
  | [_], h => absurd h (by simp)
  | hi :: lo :: rest, h => by
    rw [hexPairs]
    rcases hexNibble_cases hi with ⟨m, hm, hhi, heq⟩ | ⟨hhi, heq⟩
    · rcases hexNibble_cases lo with ⟨n, hn, hlo, heq'⟩ | ⟨hlo, heq'⟩
      · rw [heq, heq']
        dsimp only
        have hfront : ∀ x ∈ [hi, lo], IsHex x := by
          simp only [List.forall_mem_cons]
          exact ⟨⟨m, hm, hhi⟩, ⟨n, hn, hlo⟩, fun x hx => absurd hx List.not_mem_nil⟩
        have hrest : rest.length % 2 = 0 := by
          simp only [List.length_cons] at h
          omega
        rcases hexPairs_cases hrest with
          ⟨bytes, hrest, hdigits⟩ | ⟨front, b, back, rfl, hgood, hbad, hrest⟩
        · refine .inl ⟨_, by rw [hrest]; rfl, ?_⟩
          have hval := nibbles_toNat m hm n hn
          rw [List.map_cons, List.map_cons, hdigits, hhi, hlo, hexDigits, hexDigits,
            List.flatMap_cons, hval]
          have hquot : (16 * m + n) / 16 = m := by omega
          have hrem : (16 * m + n) % 16 = n := by omega
          rw [hquot, hrem]
          rfl
        · refine .inr ⟨hi :: lo :: front, b, back, rfl, fun x hx => ?_, hbad, by rw [hrest]; rfl⟩
          rcases List.mem_append.mp (show x ∈ [hi, lo] ++ front from hx) with hx | hx
          · exact hfront x hx
          · exact hgood x hx
      · rw [heq, heq']
        refine .inr ⟨[hi], lo, rest, rfl, fun x hx => ?_, hlo, rfl⟩
        obtain rfl := List.mem_singleton.mp hx
        exact ⟨m, hm, hhi⟩
    · rw [heq]
      exact .inr ⟨[], hi, lo :: rest, rfl, fun x hx => absurd hx List.not_mem_nil, hhi, rfl⟩

/-- All digits of some bytes are digits. -/
theorem isHex_of_hexDigits : ∀ {bs bytes : Bytes},
    bs.map (fun b => (byteChar b).toLower) = hexDigits bytes → ∀ x ∈ bs, IsHex x := by
  intro bs bytes h x hx
  have hmem : (byteChar x).toLower ∈ hexDigits bytes := h ▸ List.mem_map_of_mem hx
  obtain ⟨b, -, hb⟩ := List.mem_flatMap.mp hmem
  have hlt := b.toNat_lt
  rcases List.mem_cons.mp hb with hb | hb
  · exact ⟨b.toNat / 16, by omega, hb⟩
  · exact ⟨b.toNat % 16, by omega, List.mem_singleton.mp hb⟩

theorem hexPairs_eq_ok_iff (h : bs.length % 2 = 0) :
    hexPairs bs = .ok bytes ↔ bs.map (fun b => (byteChar b).toLower) = hexDigits bytes := by
  rcases hexPairs_cases h with ⟨data, hok, hdigits⟩ | ⟨front, b, back, rfl, -, hbad, herror⟩
  · rw [hok, hdigits]
    exact ⟨fun heq => congrArg _ (Except.ok.inj heq), fun heq => congrArg _ (hexBytes_injective heq)⟩
  · rw [herror]
    refine ⟨fun heq => absurd heq (by simp), fun heq => absurd ?_ hbad⟩
    exact isHex_of_hexDigits heq b (by simp)

theorem hexPairs_eq_error_iff (h : bs.length % 2 = 0) : hexPairs bs = .error c ↔
    ∃ front b back, bs = front ++ b :: back ∧ (∀ x ∈ front, IsHex x) ∧ ¬IsHex b ∧
      c = byteChar b := by
  constructor
  · intro herror
    rcases hexPairs_cases h with ⟨data, hok, -⟩ | ⟨front, b, back, hsplit, hgood, hbad, hc⟩
    · exact absurd (hok.symm.trans herror) (by simp)
    · exact ⟨front, b, back, hsplit, hgood, hbad, Except.error.inj (herror.symm.trans hc)⟩
  · rintro ⟨front, b, back, hsplit, hgood, hbad, rfl⟩
    rcases hexPairs_cases h with ⟨data, -, hdigits⟩ | ⟨front', b', back', hsplit', hgood', hbad', hc⟩
    · exact absurd (isHex_of_hexDigits hdigits b (by rw [hsplit]; simp)) hbad
    · rw [hc]
      -- the first byte that is no digit is one and the same
      rw [hsplit] at hsplit'
      rcases List.append_eq_append_iff.mp hsplit' with ⟨as, rfl, heq⟩ | ⟨as, rfl, heq⟩
      · cases as with
        | nil => rw [(List.cons.inj heq).1]
        | cons a as =>
          obtain ⟨rfl, -⟩ := List.cons.inj heq
          exact absurd (hgood' b (by simp)) hbad
      · cases as with
        | nil => rw [(List.cons.inj heq).1]
        | cons a as =>
          obtain ⟨rfl, -⟩ := List.cons.inj heq
          exact absurd (hgood b' (by simp)) hbad'

/-! ### Bytes and characters -/

theorem utf8_ofList (l : List Char) : utf8 (String.ofList l) = l.flatMap String.utf8EncodeChar := by
  show (String.ofList l).toByteArray.data.toList = _
  rw [String.toByteArray_ofList, List.utf8Encode, List.data_toByteArray]

theorem utf8_cons_ascii : ∀ b < 128, String.utf8EncodeChar (byteChar (UInt8.ofNat b)) =
    [UInt8.ofNat b] := by
  decide +kernel

/-- A string of ASCII characters has these as its bytes. -/
theorem utf8_ascii {bs : Bytes} (h : ∀ b ∈ bs, b.toNat < 128) :
    utf8 (String.ofList (bs.map byteChar)) = bs := by
  rw [utf8_ofList, List.flatMap_map]
  induction bs with
  | nil => rfl
  | cons b bs ih =>
    obtain ⟨hb, hbs⟩ := List.forall_mem_cons.mp h
    have hbyte := utf8_cons_ascii b.toNat hb
    rw [UInt8.ofNat_toNat] at hbyte
    rw [List.flatMap_cons, ih hbs, hbyte]
    rfl

theorem isHex_ascii_table : ∀ b < 256, 128 ≤ b → ∀ n < 16,
    (byteChar (UInt8.ofNat b)).toLower ≠ hexDigit n := by
  decide +kernel

theorem IsHex.ascii {b : UInt8} (h : IsHex b) : b.toNat < 128 := by
  obtain ⟨n, hn, hdigit⟩ := h
  by_contra hge
  have htable := isHex_ascii_table b.toNat b.toNat_lt (not_lt.mp hge) n hn
  rw [UInt8.ofNat_toNat] at htable
  exact htable hdigit

/-- A string of digits, byte by byte, is one character by character. -/
theorem toList_of_isHex {s : String} (h : ∀ b ∈ utf8 s, IsHex b) :
    s.toList = (utf8 s).map byteChar := by
  have hs : utf8 (String.ofList ((utf8 s).map byteChar)) = utf8 s :=
    utf8_ascii fun b hb => (h b hb).ascii
  rw [← utf8_inj hs, String.toList_ofList, utf8_inj hs]

theorem hexDigit_ascii : ∀ n < 16, (hexDigit n).toNat < 128 := by decide

/-- A character whose lower case is a digit is ASCII. -/
theorem char_ascii {n : ℕ} (hn : n < 16) (h : c.toLower = hexDigit n) : c.toNat < 128 := by
  by_cases hupper : c.val ≥ 'A'.val ∧ c.val ≤ 'Z'.val
  · have hle : c.val.toNat ≤ 'Z'.val.toNat := UInt32.le_iff_toNat_le.mp hupper.2
    have hz : 'Z'.val.toNat < 128 := by decide
    exact hle.trans_lt hz
  · have hsame : c.toLower = c := dif_neg hupper
    rw [← hsame, h]
    exact hexDigit_ascii n hn

/-- A string that is, case aside, the digits of some bytes consists of bytes that are digits. -/
theorem isHex_of_toLower {s : String} (h : s.toList.map Char.toLower = hexDigits bytes) :
    ∀ b ∈ utf8 s, IsHex b := by
  have hascii : ∀ c ∈ s.toList, c.toNat < 128 := by
    intro c hc
    have hmem : c.toLower ∈ hexDigits bytes := h ▸ List.mem_map_of_mem hc
    obtain ⟨b, -, hb⟩ := List.mem_flatMap.mp hmem
    have hlt := b.toNat_lt
    rcases List.mem_cons.mp hb with hb | hb
    · exact char_ascii (by omega) hb
    · exact char_ascii (by omega) (List.mem_singleton.mp hb)
  have hchars : (s.toList.map fun c => UInt8.ofNat c.toNat).map byteChar = s.toList := by
    rw [List.map_map]
    refine (List.map_congr_left fun c hc => ?_).trans (List.map_id _)
    have hc := hascii c hc
    have hsmall : (UInt8.ofNat c.toNat).toNat = c.toNat := by
      have hlt : c.toNat < 256 := by omega
      exact UInt8.toNat_ofNat_of_lt hlt
    show Char.ofNat (UInt8.ofNat c.toNat).toNat = c
    rw [hsmall, Char.ofNat_toNat]
  have hutf8 : utf8 s = s.toList.map fun c => UInt8.ofNat c.toNat := by
    have hs : s = String.ofList ((s.toList.map fun c => UInt8.ofNat c.toNat).map byteChar) := by
      rw [hchars, String.ofList_toList]
    conv_lhs => rw [hs]
    refine utf8_ascii fun b hb => ?_
    obtain ⟨c, hc, rfl⟩ := List.mem_map.mp hb
    have hlt := hascii c hc
    have hmod : (UInt8.ofNat c.toNat).toNat ≤ c.toNat := by
      rw [UInt8.toNat_ofNat']
      exact Nat.mod_le _ _
    omega
  have hdigits : (utf8 s).map (fun b => (byteChar b).toLower) = hexDigits bytes := by
    rw [hutf8, ← h]
    conv_rhs => rw [← hchars]
    simp only [List.map_map]
    rfl
  exact isHex_of_hexDigits hdigits

/-! ### Strings -/

theorem hexDigits_length : (hexDigits bytes).length = 2 * bytes.length := by
  induction bytes with
  | nil => rfl
  | cons b bytes ih =>
    rw [hexDigits, List.flatMap_cons, List.length_append, ← hexDigits, ih]
    simp only [List.length_cons, List.length_nil]
    omega

/-- A string is accepted for the id whose digits it is, case aside. -/
theorem fromHex_eq_ok_iff {s : String} {id : EventId} :
    EventId.fromHex s = .ok id ↔ s.map Char.toLower = id.toHex := by
  have htext : s.map Char.toLower = id.toHex ↔ s.toList.map Char.toLower = hexDigits id.bytes := by
    rw [← String.toList_inj, String.toList_map, EventId.toHex, String.toList_ofList]
    rfl
  rw [htext]
  constructor
  · intro h
    rw [EventId.fromHex] at h
    split at h
    · exact absurd h (by simp)
    · rename_i hlength
      split at h
      · rename_i bytes hpairs
        obtain rfl := Except.ok.inj h
        have heven : (utf8 s).length % 2 = 0 := by omega
        have hdigits := (hexPairs_eq_ok_iff heven).mp hpairs
        rw [toList_of_isHex (isHex_of_hexDigits hdigits), List.map_map]
        exact hdigits
      · exact absurd h (by simp)
  · intro h
    have hchars := toList_of_isHex (isHex_of_toLower h)
    have hdigits : (utf8 s).map (fun b => (byteChar b).toLower) = hexDigits id.bytes := by
      rw [hchars, List.map_map] at h
      exact h
    have hlength : (utf8 s).length = 64 := by
      have hlen := congrArg List.length hdigits
      rw [List.length_map, hexDigits_length, id.size] at hlen
      exact hlen
    have heven : (utf8 s).length % 2 = 0 := by omega
    have hpairs := (hexPairs_eq_ok_iff heven).mpr hdigits
    rw [EventId.fromHex, dif_neg (not_ne_iff.mpr hlength)]
    split
    · rename_i bytes hbytes
      have heq : bytes = id.bytes := Except.ok.inj (hbytes.symm.trans hpairs)
      subst heq
      rfl
    · rename_i c herror
      exact absurd (herror.symm.trans hpairs) (by simp)

theorem fromHex_eq_error_iff {s : String} {e : InvalidEventId} : EventId.fromHex s = .error e ↔
    ((utf8 s).length ≠ 64 ∧ e = ⟨"expected 64 hex chars, got " ++ toString (utf8 s).length⟩) ∨
    ((utf8 s).length = 64 ∧ ∃ front b back, utf8 s = front ++ b :: back ∧
      (∀ x ∈ front, IsHex x) ∧ ¬IsHex b ∧
        e = ⟨"invalid hex char '" ++ (byteChar b).toString ++ "'"⟩) := by
  by_cases hlength : (utf8 s).length = 64
  · have heven : (utf8 s).length % 2 = 0 := by omega
    rw [EventId.fromHex, dif_neg (not_ne_iff.mpr hlength)]
    simp only [hlength, ne_eq, not_true_eq_false, false_and, true_and, false_or]
    split
    · rename_i bytes hpairs
      refine ⟨fun h => absurd h (by simp), ?_⟩
      rintro ⟨front, b, back, hsplit, -, hbad, -⟩
      have hdigits := (hexPairs_eq_ok_iff heven).mp hpairs
      exact absurd (isHex_of_hexDigits hdigits b (by rw [hsplit]; simp)) hbad
    · rename_i c hpairs
      constructor
      · intro h
        obtain ⟨front, b, back, hsplit, hgood, hbad, rfl⟩ := (hexPairs_eq_error_iff heven).mp hpairs
        exact ⟨front, b, back, hsplit, hgood, hbad, (Except.error.inj h).symm⟩
      · rintro ⟨front, b, back, hsplit, hgood, hbad, rfl⟩
        have hfirst := (hexPairs_eq_error_iff heven).mpr ⟨front, b, back, hsplit, hgood, hbad, rfl⟩
        rw [Except.error.inj (hpairs.symm.trans hfirst)]
  · rw [EventId.fromHex, dif_pos hlength]
    simp only [hlength, ne_eq, not_false_eq_true, true_and, false_and, or_false]
    exact ⟨fun h => (Except.error.inj h).symm, fun h => congrArg _ h.symm⟩

theorem hexDigit_lower : ∀ n < 16, (hexDigit n).toLower = hexDigit n := by decide

/-- **Event ids as text.**  What `to_hex` writes is read back; a string is accepted exactly
when it is the text of an id in whatever case, and for that id; and one that is not has either
not 64 bytes, or a first byte that is no digit, and is told which. -/
theorem event_id_hex :
    (∀ id : EventId, EventId.fromHex id.toHex = .ok id) ∧
    (∀ s id, EventId.fromHex s = .ok id ↔ s.map Char.toLower = id.toHex) ∧
    ∀ s e, EventId.fromHex s = .error e ↔
      ((utf8 s).length ≠ 64 ∧ e = ⟨"expected 64 hex chars, got " ++ toString (utf8 s).length⟩) ∨
      ((utf8 s).length = 64 ∧ ∃ front b back, utf8 s = front ++ b :: back ∧
        (∀ x ∈ front, IsHex x) ∧ ¬IsHex b ∧
          e = ⟨"invalid hex char '" ++ (byteChar b).toString ++ "'"⟩) := by
  refine ⟨fun id => fromHex_eq_ok_iff.mpr ?_, fun s id => fromHex_eq_ok_iff,
    fun s e => fromHex_eq_error_iff⟩
  rw [← String.toList_inj, String.toList_map, EventId.toHex, String.toList_ofList]
  refine (List.map_congr_left fun c hc => ?_).trans (List.map_id _)
  obtain ⟨b, -, hb⟩ := List.mem_flatMap.mp hc
  have hlt := b.toNat_lt
  rcases List.mem_cons.mp hb with rfl | hb
  · exact hexDigit_lower _ (by omega)
  · rw [List.mem_singleton.mp hb]
    exact hexDigit_lower _ (by omega)

end Fossic
