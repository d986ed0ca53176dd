import AlefsDb.Lib.Rust
import AlefsDb.Lib.SortDedup
import AlefsDb.Types.Value

/-!
# The value codec

`encode` and `decode`. A value is a version byte and a payload; a payload is a tag and, behind it, fixed-width integers, bytes
with their length, or the number of the nested payloads and then these. The members of a set are written in the order of their
payloads, each payload once.
-/

namespace AlefsDb

/-- `CodecError`. -/
inductive CodecError where
  | emptyInput
  | unsupportedVersion (version : UInt8)
  | unexpectedEof
  | unknownTag (tag : UInt8)
  | invalidUtf8
  | invalidBool (byte : UInt8)
  | trailingBytes
  | duplicateSetMember
  deriving DecidableEq, Repr

/-- A byte in two lowercase hexadecimal digits. -/
def hexByte (b : UInt8) : String :=
  String.ofList [Nat.digitChar (b.toNat / 16), Nat.digitChar (b.toNat % 16)]

/-- The text of a codec error. -/
def CodecError.text : CodecError → String
  | emptyInput => "empty input"
  | unsupportedVersion version => s!"unsupported codec version {version}"
  | unexpectedEof => "unexpected end of input"
  | unknownTag tag => s!"unknown value tag 0x{hexByte tag}"
  | invalidUtf8 => "invalid UTF-8 in string"
  | invalidBool byte => s!"invalid bool byte {byte}"
  | trailingBytes => "trailing bytes after value"
  | duplicateSetMember => "duplicate set member"

namespace Codec

/-- `CODEC_VERSION`. -/
def codecVersion : UInt8 := 1

def tagNull : UInt8 := 0x00
def tagBool : UInt8 := 0x01
def tagInt : UInt8 := 0x02
def tagFloat : UInt8 := 0x03
def tagString : UInt8 := 0x04
def tagBytes : UInt8 := 0x05
def tagHash : UInt8 := 0x10
def tagSet : UInt8 := 0x11
def tagList : UInt8 := 0x12
def tagTree : UInt8 := 0x13

/-! ## Encoding -/

/-- `write_u32`, of a length cast to `u32`. -/
def writeU32 (n : Nat) : Bytes := leBytes 4 n

/-- `write_str`. -/
def writeStr (s : String) : Bytes := writeU32 (utf8 s).length ++ utf8 s

/-- `encode_scalar`. -/
def encodeScalar : Scalar → Bytes
  | .null => [tagNull]
  | .bool b => [tagBool, if b then 1 else 0]
  | .int n => tagInt :: leBytes 8 n.toUInt64.toNat
  | .float bits => tagFloat :: leBytes 8 bits.toNat
  | .string s => tagString :: writeStr s
  | .bytes b => tagBytes :: (writeU32 b.length ++ b)

mutual

/-- `encode_value`. -/
def encodeValue : Value → Bytes
  | .scalar s => encodeScalar s
  | .hash map => tagHash :: (writeU32 map.length ++ encodeHash map)
  | .set members =>
    let encoded := sortDedup id (encodePayloads members)
    tagSet :: (writeU32 encoded.length ++ encoded.flatten)
  | .list items => tagList :: (writeU32 items.length ++ (encodePayloads items).flatten)
  | .tree map => tagTree :: (writeU32 map.length ++ encodeTree map)

/-- The payloads of the members of a set or the items of a list. -/
def encodePayloads : List Value → List Bytes
  | [] => []
  | v :: vs => encodeValue v :: encodePayloads vs

/-- The entries of a hash. -/
def encodeHash : List (String × Value) → Bytes
  | [] => []
  | (k, v) :: map => writeStr k ++ encodeValue v ++ encodeHash map

/-- The entries of a tree. -/
def encodeTree : List (Scalar × Value) → Bytes
  | [] => []
  | (k, v) :: map => encodeScalar k ++ encodeValue v ++ encodeTree map

end

/-- `encode_payload`. -/
def encodePayload (v : Value) : Bytes := encodeValue v

/-- `encode`. -/
def encode (v : Value) : Bytes := codecVersion :: encodeValue v

/-! ## Decoding -/

/-- `read_u8`. -/
def readU8 : Bytes → Rust CodecError (UInt8 × Bytes)
  | [] => Rust.err .unexpectedEof
  | b :: cur => .ok (b, cur)

/-- `read_slice`. -/
def readSlice (cur : Bytes) (len : Nat) : Rust CodecError (Bytes × Bytes) :=
  if cur.length < len then Rust.err .unexpectedEof else .ok (cur.take len, cur.drop len)

/-- `read_array`, and the integer that its little-endian bytes stand for. -/
def readLe (n : Nat) (cur : Bytes) : Rust CodecError (Nat × Bytes) := do
  let (a, cur) ← readSlice cur n
  return (fromLe a, cur)

/-- `read_u32`. -/
def readU32 (cur : Bytes) : Rust CodecError (Nat × Bytes) := readLe 4 cur

/-- `read_str`. -/
def readStr (cur : Bytes) : Rust CodecError (String × Bytes) := do
  let (len, cur) ← readU32 cur
  let (bytes, cur) ← readSlice cur len
  let s ← Rust.okOr (fromUtf8 bytes) .invalidUtf8
  return (s, cur)

section Loops

variable {κ : Type} [LinearOrder κ] (readKey : Bytes → Rust CodecError (κ × Bytes))
  (readValue : Bytes → Rust CodecError (Value × Bytes))

/-- The loop of a hash and of a tree: entries are inserted into the map as they are read. -/
def readMap : Nat → Bytes → List (κ × Value) → Rust CodecError (List (κ × Value) × Bytes)
  | 0, cur, map => .ok (map, cur)
  | n + 1, cur, map => do
    let (k, cur) ← readKey cur
    let (v, cur) ← readValue cur
    readMap n cur (OrdMap.insertEntry k v map)

/-- The loop of a set: each payload has to be above the one before. -/
def readSet : Nat → Bytes → Option Bytes → Rust CodecError (List Value × Bytes)
  | 0, cur, _ => .ok ([], cur)
  | n + 1, cur, lastPayload => do
    let (v, cur) ← readValue cur
    let payload := encodePayload v
    if lastPayload.any (fun prev => decide (payload ≤ prev)) then
      Rust.err .duplicateSetMember
    else
      let (members, cur) ← readSet n cur (some payload)
      return (v :: members, cur)

/-- The loop of a list. -/
def readList : Nat → Bytes → Rust CodecError (List Value × Bytes)
  | 0, cur => .ok ([], cur)
  | n + 1, cur => do
    let (v, cur) ← readValue cur
    let (items, cur) ← readList n cur
    return (v :: items, cur)

/-- `decode_scalar_value`. -/
def decodeScalarValue (cur : Bytes) : Rust CodecError (Scalar × Bytes) := do
  let (v, cur) ← readValue cur
  match v with
  | .scalar s => return (s, cur)
  | _ => Rust.err (.unknownTag 0xff)

end Loops

/-- `decode_value`. The recursion is on a bound of the length of the cursor: at `0` the cursor is empty. -/
def decodeValue : Nat → Bytes → Rust CodecError (Value × Bytes)
  | 0, _ => Rust.err .unexpectedEof
  | fuel + 1, cur => do
    let (tag, cur) ← readU8 cur
    if tag = tagNull then
      return (.scalar .null, cur)
    else if tag = tagBool then
      let (b, cur) ← readU8 cur
      if b = 0 then
        return (.scalar (.bool false), cur)
      else if b = 1 then
        return (.scalar (.bool true), cur)
      else
        Rust.err (.invalidBool b)
    else if tag = tagInt then
      let (n, cur) ← readLe 8 cur
      return (.scalar (.int (UInt64.ofNat n).toInt64), cur)
    else if tag = tagFloat then
      let (bits, cur) ← readLe 8 cur
      return (.scalar (.float (UInt64.ofNat bits)), cur)
    else if tag = tagString then
      let (s, cur) ← readStr cur
      return (.scalar (.string s), cur)
    else if tag = tagBytes then
      let (len, cur) ← readU32 cur
      let (data, cur) ← readSlice cur len
      return (.scalar (.bytes data), cur)
    else if tag = tagHash then
      let (n, cur) ← readU32 cur
      let (map, cur) ← readMap readStr (decodeValue fuel) n cur []
      return (.hash map, cur)
    else if tag = tagSet then
      let (n, cur) ← readU32 cur
      let (members, cur) ← readSet (decodeValue fuel) n cur none
      return (.set members, cur)
    else if tag = tagList then
      let (n, cur) ← readU32 cur
      let (items, cur) ← readList (decodeValue fuel) n cur
      return (.list items, cur)
    else if tag = tagTree then
      let (n, cur) ← readU32 cur
      let (map, cur) ← readMap (decodeScalarValue (decodeValue fuel)) (decodeValue fuel) n cur []
      return (.tree map, cur)
    else
      Rust.err (.unknownTag tag)

/-- `decode`. -/
def decode : Bytes → Rust CodecError Value
  | [] => Rust.err .emptyInput
  | version :: cur => do
    if version ≠ codecVersion then
      Rust.err (.unsupportedVersion version)
    else
      let (value, cur) ← decodeValue cur.length cur
      if cur ≠ [] then Rust.err .trailingBytes else return value

end Codec
end AlefsDb
