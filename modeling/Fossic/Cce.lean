/-
CCE, the canonical content encoding, and event-id derivation.

`encodeValue` turns a JSON value into a byte string: one tag byte per value,
fixed-width little-endian numbers, length-prefixed NFC strings, counted arrays,
and objects whose members are sorted by their encoded key.  It fails on integers
above `i64::MAX`, on strings over 64 MiB and on keys that coincide after
normalisation.  `preImage` is the byte string that `deriveEventId` hashes.

The encoders of the source append to a buffer; here they return what they
append, which is the same thing because every caller drops the buffer on error.
-/
import Fossic.Types
import Fossic.KeySort
import Mathlib.Data.List.Lex

namespace Fossic

open KeySort

def TAG_NULL : UInt8 := 0x00
def TAG_BOOL : UInt8 := 0x01
def TAG_INT : UInt8 := 0x02
def TAG_FLOAT : UInt8 := 0x03
def TAG_STRING : UInt8 := 0x04
def TAG_BYTES : UInt8 := 0x05
def TAG_ARRAY : UInt8 := 0x06
def TAG_MAP : UInt8 := 0x07

def MAX_STRING_BYTES : ℕ := 64 * 1024 * 1024

/-- `"fossic-cce-v1\0"` as 14 literal bytes. -/
def CCE_PREFIX : Bytes :=
  [0x66, 0x6f, 0x73, 0x73, 0x69, 0x63, 0x2d, 0x63, 0x63, 0x65, 0x2d, 0x76, 0x31, 0x00]

/-! ### Scalars -/

/-- The `width` little-endian bytes of `n`. -/
def leBytes : ℕ → ℕ → Bytes
  | 0, _ => []
  | width + 1, n => UInt8.ofNat n :: leBytes width (n / 256)

/-- `(len as u32).to_le_bytes()`. -/
def u32LE (len : ℕ) : Bytes := leBytes 4 (len % 2 ^ 32)

def encodeI64 (v : Int64) : Bytes := TAG_INT :: leBytes 8 v.toUInt64.toNat

/-- Every NaN (the bits lie above those of infinity) becomes the quiet NaN and
`-0.0` becomes `0.0`. -/
def canonicalizeF64 (bits : UInt64) : UInt64 :=
  if 0x7FF0000000000000 < bits.toNat % 2 ^ 63 then 0x7FF8000000000000
  else if bits = 0 ∨ bits = 0x8000000000000000 then 0
  else bits

def encodeF64 (bits : UInt64) : Bytes := TAG_FLOAT :: leBytes 8 (canonicalizeF64 bits).toNat

/-- `Number::as_i64`. -/
def Number.asI64 : Number → Option Int64
  | posInt n => if n.toNat < 2 ^ 63 then some n.toInt64 else none
  | negInt i _ => some i
  | float _ _ => none

def encodeNumber (n : Number) : Except CceError Bytes :=
  match n.asI64 with
  | some i => .ok (encodeI64 i)
  | none =>
    match n with
    | .posInt u => .error (.u64Overflow u)
    | .negInt i _ => .ok (encodeI64 i)
    | .float bits _ => .ok (encodeF64 bits)

/-! ### Strings and byte strings -/

def utf8 (s : String) : Bytes := s.toUTF8.data.toList

/-- `TAG_STRING || u32_LE(len) || NFC(utf8_bytes)`. -/
def encodeString (nfc : String → String) (s : String) : Except CceError Bytes :=
  let bytes := utf8 (nfc s)
  if MAX_STRING_BYTES < bytes.length then .error (.stringTooLarge bytes.length)
  else .ok (TAG_STRING :: (u32LE bytes.length ++ bytes))

/-- `TAG_BYTES || u32_LE(len) || bytes`. -/
def encodeBytes (bytes : Bytes) : Bytes := TAG_BYTES :: (u32LE bytes.length ++ bytes)

def encodeOptionalBytes : Option Bytes → Bytes
  | none => [TAG_NULL]
  | some bytes => encodeBytes bytes

def encodeU32AsI64 (v : UInt32) : Bytes := encodeI64 (Int64.ofNat v.toNat)

/-! ### Values -/

/-- Byte-lexicographic sort key. -/
def byteOrder (b : Bytes) : List ℕ := b.map UInt8.toNat

/-- `pairs.windows(2)` finds two neighbours with one key. -/
def hasDuplicateKeys (pairs : List (Bytes × Bytes)) : Bool :=
  (pairs.zip pairs.tail).any fun w => w.1.1 == w.2.1

/-- Sort the encoded members by key, reject duplicates, and concatenate. -/
def encodePairs (pairs : List (Bytes × Bytes)) : Except CceError Bytes :=
  let sorted := sortBy (fun p => byteOrder p.1) pairs
  if hasDuplicateKeys sorted then .error .duplicateKeys
  else .ok (TAG_MAP :: (u32LE sorted.length ++ (sorted.map fun p => p.1 ++ p.2).flatten))

mutual

def encodeValue (nfc : String → String) : Json → Except CceError Bytes
  | .null => .ok [TAG_NULL]
  | .bool b => .ok [TAG_BOOL, if b then 0x01 else 0x00]
  | .number n => encodeNumber n
  | .string s => encodeString nfc s
  | .array items => do
    let encoded ← encodeItems nfc items
    .ok (TAG_ARRAY :: (u32LE items.length ++ encoded.flatten))
  | .object members => do
    let pairs ← encodeMembers nfc members
    encodePairs pairs

/-- The encodings of the array items, in order. -/
def encodeItems (nfc : String → String) : List Json → Except CceError (List Bytes)
  | [] => .ok []
  | v :: items => do
    let b ← encodeValue nfc v
    let bs ← encodeItems nfc items
    .ok (b :: bs)

/-- The encoded key and value of each member, in map order. -/
def encodeMembers (nfc : String → String) :
    List (String × Json) → Except CceError (List (Bytes × Bytes))
  | [] => .ok []
  | (k, v) :: members => do
    let kb ← encodeString nfc k
    let vb ← encodeValue nfc v
    let pairs ← encodeMembers nfc members
    .ok ((kb, vb) :: pairs)

end

/-! ### Event ids -/

/-- The bytes that `derive_event_id` hashes. -/
def preImage (nfc : String → String) (eventType : String) (typeVersion : UInt32)
    (causationId : Option EventId) (payload : Json) : Except CceError Bytes := do
  let ty ← encodeString nfc eventType
  let body ← encodeValue nfc payload
  .ok (CCE_PREFIX ++ (ty ++ (encodeU32AsI64 typeVersion
    ++ (encodeOptionalBytes (causationId.map EventId.bytes) ++ body))))

def deriveEventId (d : Deps) (eventType : String) (typeVersion : UInt32)
    (causationId : Option EventId) (payload : Json) : Except CceError EventId := do
  let buf ← preImage d.nfc eventType typeVersion causationId payload
  .ok (d.hash buf)

/-- Object members are encoded in key order, whatever the map order. -/
example :
    encodeValue id (.object [("b", .bool true), ("a", .null)])
      = encodeValue id (.object [("a", .null), ("b", .bool true)]) := by decide

end Fossic
