import AlefsDb.Fuse.Scalars
import AlefsDb.Json.Transfer
import AlefsDb.Query.Eval

/-!
# Requests and responses

The messages between a client and the daemon, the values in them as text, and the texts of the errors that a response can carry. The
texts that the standard library prints or derives (of floats, and of requests and tokens in error messages) are parameters.
-/

namespace AlefsDb

/-- `Request`. -/
inductive Request where
  | ping
  | stats
  | mkdir (path : String)
  | set (path typeName value : String)
  | get (path : String)
  | ls (path : String)
  | rm (path : String)
  | hset (path key typeName value : String)
  | lpush (path typeName value : String)
  | sadd (path typeName value : String)
  | tset (path key typeName value : String)
  | query (query : String)
  | compact
  | «export»
  | «import» (json : String)
  | batch (ops : List Request)

/-- `ListEntry`. -/
structure ListEntry where
  name : String
  kind : String
  deriving DecidableEq

/-- `QueryHitDto`. -/
structure QueryHitDto where
  path : String
  typeName : String
  deriving DecidableEq

/-- `Response`. -/
inductive Response where
  | ok (message : String)
  | value (typeName display : String)
  | list (entries : List ListEntry)
  | query (hits : List QueryHitDto)
  | «export» (json : String)
  | stats (uptimeSec requests mutations queries errors keysApprox : UInt64)
  | err (message : String)
  deriving DecidableEq

/-- `matches!(response, Response::Err { .. })`. -/
def Response.isErr : Response → Bool
  | err _ => true
  | _ => false

/-- What the standard library prints or derives: the text of a float, and the debug texts of a request and of a token. -/
structure StdText where
  float : UInt64 → List Char
  request : Request → String
  token : Option Tok → String

/-! ## Errors -/

/-- The text of an error of a store. -/
def StorageError.text : StorageError → String
  | io m => s!"storage i/o: {m}"
  | corrupt m => s!"storage corrupt: {m}"
  | internal m => s!"storage internal: {m}"

/-- The text of an error of a query. -/
def EvalError.text (std : StdText) : EvalError → String
  | parse e => s!"parse error: {e.message}" ++ (e.token.map std.token).getD ""
  | ns m => m

/-- The digits of an `i64`, read one after the other: the first that is none, or with which the number does not fit. -/
def intDigitsError (negative : Bool) : Nat → List Char → String
  | _, [] => ""
  | n, c :: digits =>
    if ¬c.isDigit then
      "invalid digit found in string"
    else
      let n := n * 10 + (c.toNat - '0'.toNat)
      if negative ∧ 2 ^ 63 < n then "number too small to fit in target type"
      else if ¬negative ∧ 2 ^ 63 ≤ n then "number too large to fit in target type"
      else intDigitsError negative n digits

/-- The error of `i64::from_str`. -/
def intError (text : List Char) : String :=
  let (negative, digits) := splitSign text
  if text = [] then "cannot parse integer from empty string"
  else if digits = [] then "invalid digit found in string"
  else intDigitsError negative 0 digits

/-! ## Values -/

/-- `parse_path`. -/
def parsePath (path : String) : Rust String DbPath := Rust.mapErr PathError.text (DbPath.parse path)

/-- `raw.parse::<bool>()`. -/
def parseBool (raw : String) : Rust String Bool :=
  if raw = "true" then .ok true
  else if raw = "false" then .ok false
  else Rust.err "provided string was not `true` or `false`"

/-- `parse_value`. -/
def parseValue (ty raw : String) : Rust String Value :=
  match ty with
  | "null" => .ok (.scalar .null)
  | "bool" => do
    let b ← parseBool raw
    return .scalar (.bool b)
  | "int" => do
    let n ← Rust.okOr (parseI64 raw.toList) (intError raw.toList)
    return .scalar (.int n)
  | "float" => do
    let bits ← Rust.okOr (Fuse.parseFloat raw.toList) (Json.floatError raw.toList)
    return .scalar (.float bits)
  | "string" => .ok (.scalar (.string raw))
  | "bytes" => .ok (.scalar (.bytes (utf8 raw)))
  | "hash" => .ok (.hash [])
  | "list" => .ok (.list [])
  | "set" => .ok (.set [])
  | "tree" => .ok (.tree [])
  | other => Rust.err s!"unknown type {other}"

/-- `n.to_string()` of a length. -/
def lengthText (n : Nat) : String := String.ofList (natText n)

/-- `format_value`. -/
def formatValue (std : StdText) : Value → String
  | .scalar .null => "null"
  | .scalar (.bool b) => if b then "true" else "false"
  | .scalar (.int n) => String.ofList (i64Text n)
  | .scalar (.float bits) => String.ofList (std.float bits)
  | .scalar (.string s) => s
  | .scalar (.bytes b) => "bytes[" ++ lengthText b.length ++ "]"
  | .hash map => "hash\x7b" ++ ",".intercalate (map.map Prod.fst) ++ "\x7d"
  | .set members => "set(" ++ lengthText members.length ++ ")"
  | .list items => "list[" ++ lengthText items.length ++ "]"
  | .tree map => "tree(\x7b" ++ lengthText map.length ++ "\x7d)"

/-- The key of a tree in a request: an integer where its text is one. -/
def parseTreeKey (key : String) : Scalar :=
  match parseI64 key.toList with
  | some n => .int n
  | none => .string key

end AlefsDb
