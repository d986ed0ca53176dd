import AlefsDb.Json.Text
import AlefsDb.Namespace.Db

/-!
# Export and import

`export_json` writes a database as one JSON text, each directory and each typed value in a wrapper object; `import_json` reads such
a text into a database. The keys of a tree are written as plain text and read back by what they look like.
-/

namespace AlefsDb
namespace Json

/-! ## Values -/

/-- The error of `f64::from_str`. -/
def floatError (text : List Char) : String :=
  if text = [] then "cannot parse float from empty string" else "invalid float literal"

/-- `parse_scalar_key`. -/
def parseScalarKey (s : String) : Rust NsError Scalar :=
  if s = "null" then .ok .null
  else if s = "true" then .ok (.bool true)
  else if s = "false" then .ok (.bool false)
  else
    match s.toList with
    | 'f' :: ':' :: rest => do
      let bits ← Rust.okOr (Fuse.parseFloat rest) (.invalid (floatError rest))
      return .float bits
    | 'b' :: ':' :: rest => do
      let b ← Rust.mapErr .invalid (decodeBytes (String.ofList rest))
      return .bytes b
    | chars =>
      match parseI64 chars with
      | some n => .ok (.int n)
      | none => .ok (.string s)

mutual

/-- `json_to_value`. An object with one of the special forms is a typed value, any other object is a hash. -/
def jsonToValue : JsonVal → Rust NsError Value
  | .null => .ok (.scalar .null)
  | .bool b => .ok (.scalar (.bool b))
  | .number n => .ok (.scalar (.int n))
  | .float bits => .ok (.scalar (.float bits))
  | .string s => .ok (.scalar (.string s))
  | .array items => do
    let list ← jsonToValues items
    return .list list
  | .object [("__bytes", .string h)] => do
    let b ← Rust.mapErr .invalid (decodeBytes h)
    return .scalar (.bytes b)
  | .object [("__set", .array items)] => do
    let set ← jsonToValues items
    return .set set
  | .object [("__hash", .object inner)] => do
    let hash ← jsonToHash inner []
    return .hash hash
  | .object [("__tree", .object inner)] => do
    let tree ← jsonToTree inner []
    return .tree tree
  | .object map => do
    let hash ← jsonToHash map []
    return .hash hash

def jsonToValues : List JsonVal → Rust NsError (List Value)
  | [] => .ok []
  | v :: vs => do
    let w ← jsonToValue v
    let ws ← jsonToValues vs
    return w :: ws

/-- The entries of an object, inserted into a map one after the other. -/
def jsonToHash : List (String × JsonVal) → List (String × Value) → Rust NsError (List (String × Value))
  | [], map => .ok map
  | (k, v) :: rest, map => do
    let w ← jsonToValue v
    jsonToHash rest (OrdMap.insertEntry k w map)

def jsonToTree : List (String × JsonVal) → List (Scalar × Value) → Rust NsError (List (Scalar × Value))
  | [], map => .ok map
  | (k, v) :: rest, map => do
    let key ← parseScalarKey k
    let w ← jsonToValue v
    jsonToTree rest (OrdMap.insertEntry key w map)

end

/-! ## Databases -/

section

variable (floatText : UInt64 → List Char)

/-- `export_node`. A path is less long than there are rows. -/
def exportNode (db : Database) : Nat → DbPath → Rust NsError (List Char)
  | 0, _ => .error .outOfFuel
  | fuel + 1, path => do
    let entry ← db.get path
    match entry.kind with
    | .directory => do
      let children ← db.list path
      let parts ← children.mapM (fun child => do
        let childPath ← Rust.mapErr .path (path.join child.1)
        let body ← exportNode db fuel childPath
        return jsonEntry child.1.toList body)
      return wrapper "__dir" (jsonObject parts)
    | .value => do
      let v ← Rust.unwrap entry.value
      return valueToJson floatText v

/-- `export_json`. -/
def exportJson (db : Database) : Rust NsError String := do
  let text ← exportNode floatText db db.store.map.size DbPath.root
  return String.ofList text

end

/-- The path of an imported entry: below the root the name goes through the parser. -/
def childPath (path : DbPath) (k : String) : Rust NsError DbPath :=
  Rust.mapErr .path (if path.isRoot then DbPath.parse ("/" ++ k) else path.join k)

/-- A result within a method on `&mut self`. -/
def lift {α : Type} (x : Rust NsError α) : DbM α := Database.read (fun _ => x)

/-- `mkdir` of a directory of the text other than the root, when it is not there. -/
def ensureDir (path : DbPath) (atRoot : Bool) : DbM Unit := do
  if atRoot ∨ path.isRoot then
    return ()
  else if ← Database.read (fun db => db.exists path) then
    return ()
  else
    Database.mkdir path

mutual

/-- `import_node`. -/
def importNode : JsonVal → DbPath → Bool → DbM Unit
  | .object [("__dir", .object children)], path, atRoot => do
    ensureDir path atRoot
    importChildren children path
  | .object [("__dir", _)], _, _ => lift (Rust.err (.invalid "__dir must be object"))
  | .object map, path, atRoot => do
    if atRoot then
      -- a bare object at the root is a directory
      importChildren map DbPath.root
    else
      let v ← lift (jsonToValue (.object map))
      Database.set path v
  | other, path, atRoot => do
    if atRoot then
      lift (Rust.err (.invalid "root import must be object"))
    else
      let v ← lift (jsonToValue other)
      Database.set path v

/-- The loop of `import_node` over the entries of a directory. -/
def importChildren : List (String × JsonVal) → DbPath → DbM Unit
  | [], _ => return ()
  | (k, v) :: rest, path => do
    let child ← lift (childPath path k)
    importNode v child false
    importChildren rest path

end

/-- `import_json`. -/
def importJson (json : String) : DbM Unit := do
  let v ← lift (Rust.mapErr .invalid (parseJsonValue (Fuse.trim json.toList)))
  importNode v DbPath.root true

end Json
end AlefsDb
