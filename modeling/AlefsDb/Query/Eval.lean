import AlefsDb.Namespace.Db
import AlefsDb.Query.Parse

/-!
# The query evaluator

`execute`: the candidates of an expression, from the type index where the expression demands a type and from a walk of the whole
tree elsewhere, and those of them that satisfy the expression.
-/

namespace AlefsDb

/-- `EvalError`. -/
inductive EvalError where
  | parse (e : ParseError)
  | ns (message : String)
  deriving DecidableEq, Repr

namespace Query

/-! ## Globs -/

/-- `glob_rec`. -/
def globRec : List Char → List Char → Bool
  | [], text => text.isEmpty
  | '*' :: pattern, text => text.tails.any (globRec pattern)
  | '?' :: pattern, text => match text with
    | [] => false
    | _ :: text => globRec pattern text
  | c :: pattern, text => match text with
    | [] => false
    | c' :: text => c' = c && globRec pattern text

/-- `glob_match`. -/
def globMatch (pattern text : String) : Bool := globRec pattern.toList text.toList

/-- `match_segments`. -/
def matchSegments : List String → List String → Bool
  | [], path => path.isEmpty
  | part :: pattern, path =>
    if part = "**" then
      pattern.isEmpty || path.tails.any (matchSegments pattern)
    else
      match path with
      | [] => false
      | segment :: path => globMatch part segment && matchSegments pattern path

/-- The parts of a text between slashes, but for the empty ones. -/
def slashParts (text : String) : List String := ((text.toList.splitOn '/').filter (· ≠ [])).map String.ofList

/-- `path_glob_match`. -/
def pathGlobMatch (pattern path : String) : Bool :=
  pattern = "/**" || pattern = "**" || matchSegments (slashParts pattern) (slashParts path)

/-! ## Expressions -/

/-- A comparison, in the order of the type that is compared. -/
def compare {α : Type} [DecidableEq α] [LT α] [LE α] [DecidableLT α] [DecidableLE α] (op : CmpOp) (a b : α) : Bool :=
  match op with
  | .eq => a = b
  | .ne => a ≠ b
  | .lt => a < b
  | .le => a ≤ b
  | .gt => b < a
  | .ge => b ≤ a

/-- `cmp_scalar`. -/
def cmpScalar (op : CmpOp) (a b : Scalar) : Bool := compare op a b

/-- `cmp_i64`. -/
def cmpI64 (op : CmpOp) (a b : Int64) : Bool := compare op a b

/-- `type_label`. -/
def typeLabel : Value → String
  | .scalar .null => "null"
  | .scalar (.bool _) => "bool"
  | .scalar (.int _) => "int"
  | .scalar (.float _) => "float"
  | .scalar (.string _) => "string"
  | .scalar (.bytes _) => "bytes"
  | .hash _ => "hash"
  | .set _ => "set"
  | .list _ => "list"
  | .tree _ => "tree"

/-- `matches!(value, Some(Value::Scalar(_)))`. -/
def isScalar : Option Value → Bool
  | some (.scalar _) => true
  | _ => false

/-- `type_matches`. -/
def typeMatches (t : String) (v : Value) : Bool := if t = "scalar" then isScalar (some v) else typeLabel v = t

/-- What `size` compares. -/
def size : EntryKind → Option Value → Option Nat
  | .directory, _ => none
  | .value, some (.hash map) => some map.length
  | .value, some (.set members) => some members.length
  | .value, some (.list items) => some items.length
  | .value, some (.tree map) => some map.length
  | .value, some (.scalar (.string s)) => some (utf8 s).length
  | .value, some (.scalar (.bytes b)) => some b.length
  | .value, _ => none

/-- `eval_pred`. -/
def evalPred (p : Predicate) (path : DbPath) (kind : EntryKind) (value : Option Value) : Bool :=
  match p with
  | .pathGlob g => pathGlobMatch g path.asStr
  | .nameGlob g => globMatch g (path.segments.getLast?.getD "")
  | .typeName t =>
    match kind, value with
    | .directory, _ => if t = "scalar" then isScalar value else "directory" = t
    | .value, some v => typeMatches t v
    | .value, none => if t = "scalar" then isScalar value else "value" = t
  | .valueCmp op s =>
    match value with
    | some (.scalar sv) => cmpScalar op sv s
    | _ => false
  | .hasKey k =>
    match value with
    | some (.hash map) => (OrdMap.lookup k map).isSome
    | some (.tree map) =>
      -- the key as a string, or as the integer that it is the text of
      (OrdMap.lookup (.string k) map).isSome || (parseI64 k.toList).any (fun n => (OrdMap.lookup (.int n) map).isSome)
    | _ => false
  | .contains needle =>
    match value with
    | some (.set members) => members.any (· = needle)
    | some (.list items) => items.any (· = needle)
    | some (.hash map) => map.any (·.2 = needle)
    | some (.tree map) => map.any (·.2 = needle)
    | _ => false
  | .atIndex index op s =>
    match value with
    | some (.list items) =>
      match items[index.toNat]? with
      | some (.scalar sv) => cmpScalar op sv s
      | _ => false
    | _ => false
  | .keyCmp op s =>
    match value with
    | some (.tree map) => map.any (fun e => cmpScalar op e.1 s)
    | _ => false
  | .sizeCmp op n => (size kind value).any (fun len => cmpI64 op (Int64.ofNat len) n)

/-- `eval_expr`. -/
def evalExpr (expr : Expr) (path : DbPath) (kind : EntryKind) (value : Option Value) : Bool :=
  match expr with
  | .and a b => evalExpr a path kind value && evalExpr b path kind value
  | .or a b => evalExpr a path kind value || evalExpr b path kind value
  | .not a => !evalExpr a path kind value
  | .pred p => evalPred p path kind value

/-! ## Candidates -/

/-- An entry that an expression is evaluated on. -/
abbrev Candidate := DbPath × EntryKind × Option Value

/-- `walk`, with a bound on the depth of the recursion: there are fewer directories above an entry than rows. -/
def walk (db : Database) : Nat → DbPath → List Candidate → Rust NsError (List Candidate)
  | 0, _, _ => .error .outOfFuel
  | fuel + 1, path, out => do
    let entry ← db.get path
    let out := out ++ [(path, entry.kind, entry.value)]
    if entry.kind = .directory then
      let children ← db.list path
      children.foldlM (fun out child => do
        let childPath ← Rust.mapErr .path (path.join child.1)
        walk db fuel childPath out) out
    else
      return out

/-- `all_entries`. -/
def allEntries (db : Database) : Rust NsError (List Candidate) := walk db db.store.map.size DbPath.root []

/-- `required_concrete_type`. -/
def requiredConcreteType : Expr → Option String
  | .pred (.typeName t) => if t ≠ "scalar" then some t else none
  | .and a b =>
    match requiredConcreteType a, requiredConcreteType b with
    | some t, none => some t
    | none, some t => some t
    | some t₁, some t₂ => if t₁ = t₂ then some t₁ else none
    | none, none => none
  | _ => none

/-- An entry of the type index, as a candidate. -/
def indexedCandidate (db : Database) (path : DbPath) : Rust NsError Candidate := do
  let entry ← db.get path
  return (path, entry.kind, entry.value)

/-- `candidates_for`. -/
def candidatesFor (db : Database) (expr : Expr) : Rust NsError (List Candidate) :=
  match requiredConcreteType expr with
  | some ty => do
    let paths ← db.pathsWithType ty
    paths.mapM (indexedCandidate db)
  | none => allEntries db

/-- The hit of a candidate. -/
def hit (c : Candidate) : QueryHit :=
  { path := c.1,
    typeName := match c.2 with
      | (.directory, _) => "directory"
      | (.value, some v) => typeLabel v
      | (.value, none) => "value" }

/-- `execute`. -/
def execute (db : Database) (query : String) : Rust EvalError (List QueryHit) := do
  let expr ← Rust.mapErr .parse (parseQuery query)
  let candidates ← Rust.mapErr (fun e => .ns e.text) (candidatesFor db expr)
  return (candidates.filter (fun c => evalExpr expr c.1 c.2.1 c.2.2)).map hit

end Query
end AlefsDb
