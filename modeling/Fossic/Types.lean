/-
The data the store moves around: event ids, JSON payloads, append requests,
stored events, errors, and the third-party functions the store calls.

* `Json` follows `serde_json::Value`; a `Number` carries the range facts that
  `serde_json` guarantees (a negative integer is negative, a float is finite),
  so a value outside them cannot be built.
* `u64AsI64` / `i64AsU64` are the `as` casts between the `u64` versions of the API
  and SQLite's signed integers; `u64AsI64_i64AsU64` says where they round-trip.
* `Deps` collects the code outside the repository (blake3, Unicode
  normalisation, msgpack) as parameters of the model.
-/
import Mathlib.Data.List.Forall2
import Mathlib.Tactic.Linarith

namespace Fossic

abbrev Bytes := List UInt8

/-! ### Casts -/

/-- `v as i64` for a `u64`. -/
def u64AsI64 (v : UInt64) : ℤ := v.toBitVec.toInt

/-- `i as u64` for an `i64`. -/
def i64AsU64 (i : ℤ) : UInt64 := UInt64.ofInt i

theorem u64AsI64_eq (v : UInt64) :
    u64AsI64 v = if v.toNat < 2 ^ 63 then (v.toNat : ℤ) else v.toNat - 2 ^ 64 := by
  rw [u64AsI64, BitVec.toInt_eq_toNat_cond]
  simp only [UInt64.toNat_toBitVec]
  split <;> split <;> omega

theorem u64AsI64_of_lt {v : UInt64} (h : v.toNat < 2 ^ 63) : u64AsI64 v = v.toNat := by
  rw [u64AsI64_eq, if_pos h]

/-- Above `-1` the cast loses nothing: the signed order is the unsigned one. -/
theorem u64AsI64_eq_toNat {v : UInt64} (h : -1 < u64AsI64 v) : u64AsI64 v = v.toNat := by
  have hlt := v.toNat_lt
  rw [u64AsI64_eq] at h ⊢
  split at h
  · rw [if_pos ‹_›]
  · omega

theorem lt_of_u64AsI64_lt {v w : UInt64} (hv : -1 < u64AsI64 v) (h : u64AsI64 v < u64AsI64 w) :
    v < w := by
  have hw := u64AsI64_eq_toNat (hv.trans h)
  rw [u64AsI64_eq_toNat hv, hw] at h
  exact UInt64.lt_iff_toNat_lt.mpr (by exact_mod_cast h)

theorem toNat_i64AsU64 {i : ℤ} (h0 : 0 ≤ i) (h : i < 2 ^ 63) : ((i64AsU64 i).toNat : ℤ) = i := by
  change (((i % 18446744073709551616).toNat % 18446744073709551616 : ℕ) : ℤ) = i
  omega

/-- SQLite's non-negative `i64`s survive the round trip through `u64`. -/
theorem u64AsI64_i64AsU64 {i : ℤ} (h0 : 0 ≤ i) (h : i < 2 ^ 63) : u64AsI64 (i64AsU64 i) = i := by
  have hn := toNat_i64AsU64 h0 h
  rw [u64AsI64_of_lt (by omega), hn]

/-! ### Failing computations -/

/-- A successful sequence is a success followed by a success. -/
theorem bind_eq_ok {ε α β : Type} {x : Except ε α} {f : α → Except ε β} {b : β} :
    (x >>= f) = .ok b ↔ ∃ a, x = .ok a ∧ f a = .ok b := by
  cases x with
  | error e => simp [bind, Except.bind]
  | ok a => simp [bind, Except.bind]

/-! ### Lists matched element by element -/

theorem exists_of_mem_forall₂ {α β : Type} {R : α → β → Prop} : ∀ {l : List α} {m : List β},
    List.Forall₂ R l m → ∀ {b : β}, b ∈ m → ∃ a ∈ l, R a b := by
  intro l m h
  induction h with
  | nil => exact fun hb => absurd hb List.not_mem_nil
  | cons hab _ ih =>
    intro b hb
    rcases List.mem_cons.mp hb with rfl | hb
    · exact ⟨_, List.mem_cons_self, hab⟩
    · obtain ⟨a, ha, hr⟩ := ih hb
      exact ⟨a, List.mem_cons_of_mem _ ha, hr⟩

theorem forall₂_imp_of_mem {α β : Type} {R S : α → β → Prop} {l : List α} {m : List β}
    (h : List.Forall₂ R l m) (hRS : ∀ a ∈ l, ∀ b, R a b → S a b) : List.Forall₂ S l m := by
  induction h with
  | nil => exact .nil
  | cons hab _ ih =>
    obtain ⟨hhead, htail⟩ := List.forall_mem_cons.mp hRS
    exact .cons (hhead _ hab) (ih htail)

/-! ### JSON values -/

/-- The bits of a finite `f64`: without the sign, they are below those of
infinity. -/
def Finite64 (bits : UInt64) : Prop := bits.toNat % 2 ^ 63 < 0x7FF0000000000000

instance (bits : UInt64) : Decidable (Finite64 bits) := inferInstanceAs (Decidable (_ < _))

/-- `serde_json::Number`: `PosInt`, `NegInt` ("always less than zero") or
`Float` ("always finite"), a float being its 64-bit pattern. -/
inductive Number
  | posInt (n : UInt64)
  | negInt (i : Int64) (neg : i < 0)
  | float (bits : UInt64) (finite : Finite64 bits)
  deriving DecidableEq

/-- `serde_json::Value`.  The members of an object are listed in the order in
which the map iterates. -/
inductive Json
  | null
  | bool (b : Bool)
  | number (n : Number)
  | string (s : String)
  | array (items : List Json)
  | object (members : List (String × Json))

namespace Json

def isObject : Json → Bool
  | object _ => true
  | _ => false

/-- The kind of value that the `InvalidIndexedTags` error names. -/
def kindName : Json → String
  | array _ => "array"
  | bool _ => "bool"
  | number _ => "number"
  | string _ => "string"
  | null => "null"
  | object _ => "object"

/-- A JSON number from a signed 64-bit quantity such as a clock reading. -/
def ofInt64 (i : Int64) : Json :=
  if h : i < 0 then number (.negInt i h) else number (.posInt i.toUInt64)

mutual

/-- How deep the arrays and objects are nested. -/
def nesting : Json → ℕ
  | array items => nestingItems items + 1
  | object members => nestingMembers members + 1
  | null | bool _ | number _ | string _ => 0

def nestingItems : List Json → ℕ
  | [] => 0
  | v :: items => max (nesting v) (nestingItems items)

def nestingMembers : List (String × Json) → ℕ
  | [] => 0
  | (_, v) :: members => max (nesting v) (nestingMembers members)

end

/-- The depth at which `serde_json::from_str` reports `recursion limit exceeded`. -/
def RECURSION_LIMIT : ℕ := 128

/-- The text of the value can be parsed again. -/
def parsesBack (v : Json) : Bool := v.nesting < RECURSION_LIMIT

end Json

/-! ### Event ids -/

/-- 32-byte content-addressed event identity. -/
structure EventId where
  bytes : Bytes
  size : bytes.length = 32
  deriving DecidableEq

def hexDigit (n : ℕ) : Char :=
  if n < 10 then Char.ofNat ('0'.toNat + n) else Char.ofNat ('a'.toNat + (n - 10))

/-- `EventId::to_hex`. -/
def EventId.toHex (id : EventId) : String :=
  String.ofList (id.bytes.flatMap fun b => [hexDigit (b.toNat / 16), hexDigit (b.toNat % 16)])

/-! ### Requests and stored events -/

/-- One event write.  `timestampUs = none` means "now". -/
structure Append where
  streamId : String
  branch : String := "main"
  eventType : String
  typeVersion : UInt32 := 1
  payload : Json
  causationId : Option EventId := none
  correlationId : Option EventId := none
  externalId : Option String := none
  indexedTags : Option Json := none
  timestampUs : Option Int64 := none

/-- A row as readers and subscribers receive it. -/
structure StoredEvent where
  id : EventId
  streamId : String
  branch : String
  version : UInt64
  timestampUs : Int64
  causationId : Option EventId
  correlationId : Option EventId
  eventType : String
  typeVersion : UInt32
  payload : Bytes
  externalId : Option String
  indexedTags : Option Json

/-! ### Errors -/

inductive CceError
  | u64Overflow (u : UInt64)
  | duplicateKeys
  | stringTooLarge (len : ℕ)
  deriving DecidableEq

inductive Error
  | schemaMismatch (stored required : UInt32)
  | streamNotDeclared (streamId : String)
  | invalidStreamId (id reason : String)
  | invalidIndexedTags (got : String)
  | branchNotFound (streamId branchId : String)
  | branchLifecycleError (reason : String)
  | invalidBranchId (id reason : String)
  | invalidAlternatives
  | reducerPatternAmbiguous (a b : String)
  | reducerNotFound (streamId : String)
  | reducerError (message : String)
  | noEventsToSnapshot (streamId branch : String)
  | purgeConfirmationError (got : String)
  | eventNotFound (id : String)
  | upcasterChainGap (eventType : String) (fromVersion : UInt32)
  | cce (e : CceError)
  | sqlite (message : String)
  | msgpackEncode (message : String)
  | msgpackDecode (message : String)
  | reducerPanicked (streamId reducerName eventIdHex panicMessage : String)
  | snapshotPolicyInvalid (message : String)
  | internal (message : String)
  deriving DecidableEq

/-! ### Code outside the repository -/

/-- The code the store calls that is not in the repository: `blake3::hash`,
`str::nfc`, the Unicode table behind `char::is_alphanumeric`, and
`rmp_serde::to_vec` and `rmp_serde::from_slice` on JSON values. -/
structure Deps where
  hash : Bytes → EventId
  nfc : String → String
  isAlphanumeric : Char → Bool
  toVec : Json → Except String Bytes
  fromSlice : Bytes → Except String Json

/-- What msgpack promises on JSON values: decoding undoes encoding. -/
def Deps.MsgpackRoundTrips (d : Deps) : Prop :=
  ∀ v b, d.toVec v = .ok b → d.fromSlice b = .ok v

/-- A stand-in for `Deps` that computes, to run the model on small inputs: the
hash keeps the last 32 bytes, strings are taken to be ASCII, and msgpack covers
`null`, `false` and `true`. -/
def plainDeps : Deps where
  hash b := ⟨(b.reverse ++ List.replicate 32 0).take 32, by simp⟩
  nfc := id
  isAlphanumeric := Char.isAlphanum
  toVec v :=
    match v with
    | .null => .ok [0xc0]
    | .bool false => .ok [0xc2]
    | .bool true => .ok [0xc3]
    | _ => .error "unsupported value"
  fromSlice b :=
    match b with
    | [0xc0] => .ok .null
    | [0xc2] => .ok (.bool false)
    | [0xc3] => .ok (.bool true)
    | _ => .error "unsupported byte"

theorem plainDeps_msgpackRoundTrips : plainDeps.MsgpackRoundTrips := by
  intro v b h
  match v with
  | .null => obtain rfl := Except.ok.inj h; rfl
  | .bool false => obtain rfl := Except.ok.inj h; rfl
  | .bool true => obtain rfl := Except.ok.inj h; rfl

end Fossic
