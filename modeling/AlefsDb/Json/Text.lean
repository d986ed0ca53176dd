import AlefsDb.Fuse.Scalars
import AlefsDb.Query.Parse

/-!
# Values as JSON text

The printer of values, which puts the typed ones into wrapper objects, and the parser of the text. The text of a float is that of the
standard library and a parameter here. The parser recurs into what is inside brackets; its fuel is the length of the text.
-/

namespace AlefsDb
namespace Json

/-! ## Bytes in hexadecimal -/

/-- `HEX`. -/
def hexDigit (n : Nat) : Char := "0123456789abcdef".toList.getD n '0'

/-- `encode_bytes`. -/
def encodeBytes (b : Bytes) : List Char := b.flatMap (fun x : UInt8 => [hexDigit (x >>> 4).toNat, hexDigit (x &&& 0xf).toNat])

/-- `from_hex`. -/
def fromHex (c : UInt8) : Rust String UInt8 :=
  if 48 ≤ c ∧ c ≤ 57 then .ok (c - 48)
  else if 97 ≤ c ∧ c ≤ 102 then .ok (c - 97 + 10)
  else if 65 ≤ c ∧ c ≤ 70 then .ok (c - 65 + 10)
  else Rust.err "bad hex"

/-- The loop of `decode_bytes`, two digits at a time. -/
def decodeDigits : Bytes → Rust String Bytes
  | hi :: lo :: rest => do
    let hi ← fromHex hi
    let lo ← fromHex lo
    let out ← decodeDigits rest
    return (hi <<< 4 ||| lo) :: out
  | _ => .ok []

/-- `decode_bytes`. -/
def decodeBytes (s : String) : Rust String Bytes :=
  if (utf8 s).length % 2 ≠ 0 then Rust.err "odd hex length" else decodeDigits (utf8 s)

/-! ## Printing -/

/-- `str::replace` of one character. -/
def replaceChar (c : Char) (with' : List Char) (text : List Char) : List Char :=
  text.flatMap (fun d => if d = c then with' else [d])

/-- `json_str`. -/
def jsonStr (text : List Char) : List Char :=
  '"' :: (replaceChar '"' ['\\', '"'] (replaceChar '\\' ['\\', '\\'] text) ++ ['"'])

/-- Parts separated by a comma and a space. -/
def joined (parts : List (List Char)) : List Char := [',', ' '].intercalate parts

/-- A key and what stands under it. -/
def jsonEntry (key text : List Char) : List Char := jsonStr key ++ ':' :: ' ' :: text

def jsonArray (parts : List (List Char)) : List Char := '[' :: (joined parts ++ [']'])

def jsonObject (parts : List (List Char)) : List Char := '\x7b' :: (joined parts ++ ['\x7d'])

/-- The object around a typed value, or around the entries of a directory. -/
def wrapper (key : String) (text : List Char) : List Char := jsonObject [jsonEntry key.toList text]

def boolText (b : Bool) : List Char := if b then "true".toList else "false".toList

/-- `f64::is_finite`. -/
def isFinite (bits : UInt64) : Bool := bits &&& 0x7ff0000000000000 ≠ 0x7ff0000000000000

section

variable (floatText : UInt64 → List Char)

/-- `scalar_key_str`. -/
def scalarKeyStr : Scalar → List Char
  | .null => "null".toList
  | .bool b => boolText b
  | .int n => i64Text n
  | .float bits => 'f' :: ':' :: floatText bits
  | .string s => s.toList
  | .bytes b => 'b' :: ':' :: encodeBytes b

/-- The scalars in `value_to_json`. -/
def scalarToJson : Scalar → List Char
  | .null => "null".toList
  | .bool b => boolText b
  | .int n => i64Text n
  | .float bits => if isFinite bits then floatText bits else jsonStr ("float:".toList ++ natText bits.toNat)
  | .string s => jsonStr s.toList
  -- this wrapper has no space behind its colon
  | .bytes b => '\x7b' :: (jsonStr "__bytes".toList ++ ':' :: (jsonStr (encodeBytes b) ++ ['\x7d']))

mutual

/-- `value_to_json`. -/
def valueToJson : Value → List Char
  | .scalar s => scalarToJson floatText s
  | .hash map => wrapper "__hash" (jsonObject (hashParts map))
  | .list items => jsonArray (listParts items)
  | .set items => wrapper "__set" (jsonArray (listParts items))
  | .tree map => wrapper "__tree" (jsonObject (treeParts map))

def listParts : List Value → List (List Char)
  | [] => []
  | v :: vs => valueToJson v :: listParts vs

def hashParts : List (String × Value) → List (List Char)
  | [] => []
  | (k, v) :: map => jsonEntry k.toList (valueToJson v) :: hashParts map

def treeParts : List (Scalar × Value) → List (List Char)
  | [] => []
  | (k, v) :: map => jsonEntry (scalarKeyStr floatText k) (valueToJson v) :: treeParts map

end

end

/-! ## Parsing -/

/-- `JsonVal`. A float is its bits. -/
inductive JsonVal where
  | null
  | bool (b : Bool)
  | number (n : Int64)
  | float (bits : UInt64)
  | string (s : String)
  | array (items : List JsonVal)
  | object (map : List (String × JsonVal))

/-- `skip_ws`. -/
def skipWs (chars : List Char) : List Char := chars.dropWhile Query.isAsciiWhitespace

/-- `parse_null`. -/
def parseNull (chars : List Char) : Rust String (JsonVal × List Char) :=
  if "null".toList.isPrefixOf chars then .ok (.null, chars.drop 4) else Rust.err "expected null"

/-- `parse_bool`. -/
def parseBool (chars : List Char) : Rust String (JsonVal × List Char) :=
  if "true".toList.isPrefixOf chars then .ok (.bool true, chars.drop 4)
  else if "false".toList.isPrefixOf chars then .ok (.bool false, chars.drop 5)
  else Rust.err "expected bool"

/-- The character that is meant behind a backslash. -/
def unescape (c : Char) : Char := if c = 'n' then '\n' else if c = 't' then '\t' else c

/-- The loop of `parse_string`, behind the first quote. -/
def scanString : List Char → Rust String (List Char × List Char)
  | [] => Rust.err "unterminated string"
  | '"' :: rest => .ok ([], rest)
  | ['\\'] => Rust.err "bad escape"
  | '\\' :: c :: rest => do
    let (out, rest) ← scanString rest
    return (unescape c :: out, rest)
  | c :: rest => do
    let (out, rest) ← scanString rest
    return (c :: out, rest)

/-- `parse_string`. -/
def parseString : List Char → Rust String (String × List Char)
  | '"' :: rest => do
    let (out, rest) ← scanString rest
    return (String.ofList out, rest)
  | _ => Rust.err "expected string"

/-- `parse_number`. -/
def parseNumber (chars : List Char) : Rust String (JsonVal × List Char) :=
  let sign := (chars.take 1).filter (· = '-')
  let digits := chars.drop sign.length
  let whole := sign ++ digits.takeWhile Char.isDigit
  match digits.dropWhile Char.isDigit with
  | '.' :: behind => do
    let bits ← Rust.okOr (parseF64 (whole ++ '.' :: behind.takeWhile Char.isDigit)) "bad float"
    return (.float bits, behind.dropWhile Char.isDigit)
  | behind => do
    let n ← Rust.okOr (parseI64 whole) "bad int"
    return (.number n, behind)

/-- The loop of `parse_array`. -/
def parseItems (value : List Char → Rust String (JsonVal × List Char)) : Nat → List Char → Rust String (List JsonVal × List Char)
  | 0, _ => .error .outOfFuel
  | fuel + 1, chars => do
    let (v, chars) ← value chars
    match skipWs chars with
    | ',' :: chars => do
      let (items, chars) ← parseItems value fuel chars
      return (v :: items, chars)
    | ']' :: chars => return ([v], chars)
    | _ => Rust.err "expected , or ]"

/-- The loop of `parse_object`. -/
def parseEntries (value : List Char → Rust String (JsonVal × List Char)) :
    Nat → List Char → Rust String (List (String × JsonVal) × List Char)
  | 0, _ => .error .outOfFuel
  | fuel + 1, chars => do
    let (key, chars) ← parseString (skipWs chars)
    match skipWs chars with
    | ':' :: chars => do
      let (v, chars) ← value chars
      match skipWs chars with
      | ',' :: chars => do
        let (map, chars) ← parseEntries value fuel chars
        return ((key, v) :: map, chars)
      | '\x7d' :: chars => return ([(key, v)], chars)
      | _ => Rust.err "expected , or \x7d"
    | _ => Rust.err "expected :"

/-- `parse_value`, with `parse_array` and `parse_object`. -/
def parseValue : Nat → List Char → Rust String (JsonVal × List Char)
  | 0, _ => .error .outOfFuel
  | fuel + 1, chars =>
    match skipWs chars with
    | [] => Rust.err "unexpected eof"
    | c :: rest =>
      if c = 'n' then
        parseNull (c :: rest)
      else if c = 't' ∨ c = 'f' then
        parseBool (c :: rest)
      else if c = '"' then do
        let (s, rest) ← parseString (c :: rest)
        return (.string s, rest)
      else if c = '[' then
        match skipWs rest with
        | ']' :: rest => return (.array [], rest)
        | rest => do
          let (items, rest) ← parseItems (parseValue fuel) fuel rest
          return (.array items, rest)
      else if c = '\x7b' then
        match skipWs rest with
        | '\x7d' :: rest => return (.object [], rest)
        | rest => do
          let (map, rest) ← parseEntries (parseValue fuel) fuel rest
          return (.object map, rest)
      else if c = '-' ∨ c.isDigit then
        parseNumber (c :: rest)
      else
        Rust.err s!"unexpected {c}"

/-- `parse_json_value`. -/
def parseJsonValue (text : List Char) : Rust String JsonVal := do
  let (v, rest) ← parseValue (text.length + 1) text
  if skipWs rest ≠ [] then Rust.err "trailing junk in json" else return v

end Json
end AlefsDb
