import AlefsDb.Namespace.Commands
import AlefsDb.Types.Canon

/-!
# Path trees

What a database is for: a finite map from the segments of a path to a directory or a value, with the root a directory. Values are
in canonical form. `created` counts the paths that were given an entry.
-/

namespace AlefsDb

/-- What is at a path. -/
inductive Content where
  | directory
  | value (v : Value)

/-- The kind that a listing shows. -/
def Content.kind : Content → EntryKind
  | directory => .directory
  | value _ => .value

structure PathTree where
  entries : OrdMap (List String) Content
  created : Nat

/-- The value that an operation writes. -/
def TxnOp.value : TxnOp → Option Value
  | mkdir _ => none
  | set _ v => some v
  | delete _ => none
  | hashSet _ _ v => some v
  | listPush _ v => some v
  | setAdd _ v => some v
  | treeSet _ _ v => some v

namespace PathTree

/-- The root alone. -/
def initial : PathTree := { entries := OrdMap.empty.insert [] .directory, created := 0 }

def find (t : PathTree) (p : List String) : Option Content := t.entries.get p

/-! ## Reading -/

def get (t : PathTree) (path : DbPath) : Rust NsError Entry :=
  match t.find path.segments with
  | none => Rust.err (.notFound path.asStr)
  | some .directory => .ok { path := path, kind := .directory, value := none }
  | some (.value v) => .ok { path := path, kind := .value, value := some v }

def «exists» (t : PathTree) (path : DbPath) : Bool := (t.find path.segments).isSome

/-- The name of a path directly below another. -/
def nameBelow (p q : List String) : Option String := if q.dropLast = p then q.getLast? else none

/-- The names directly below a path, each with its kind. -/
def below (t : PathTree) (p : List String) : List (String × EntryKind) :=
  t.entries.entries.filterMap (fun e => (nameBelow p e.1).map (fun name => (name, e.2.kind)))

/-- The listing of a directory, sorted by name. -/
def list (t : PathTree) (path : DbPath) : Rust NsError (List (String × EntryKind)) :=
  match t.find path.segments with
  | none => Rust.err (.notFound path.asStr)
  | some .directory => .ok ((t.below path.segments).insertionSort (fun a b => a.1 ≤ b.1))
  | some (.value _) => Rust.err (.notDirectory path.asStr)

/-! ## Writing -/

/-- A path that had no entry is given one. -/
def create (t : PathTree) (p : List String) (c : Content) : PathTree :=
  { entries := t.entries.insert p c, created := t.created + 1 }

def replace (t : PathTree) (p : List String) (v : Value) : PathTree := { t with entries := t.entries.insert p (.value v) }

def remove (t : PathTree) (p : List String) : PathTree := { t with entries := t.entries.erase p }

/-- The parent of what is written is a directory. -/
def inDirectory (t : PathTree) (parent : DbPath) : Rust NsError Unit :=
  match t.find parent.segments with
  | some .directory => .ok ()
  | some (.value _) => Rust.err (.notDirectory parent.asStr)
  | none => Rust.err (.parentMissing parent.asStr)

def mkdir (t : PathTree) (path : DbPath) : Rust NsError PathTree :=
  match path.parent with
  | none => .ok t
  | some parent =>
    if t.exists path then
      Rust.err (.alreadyExists path.asStr)
    else do
      t.inDirectory parent
      return t.create path.segments .directory

def set (t : PathTree) (path : DbPath) (v : Value) : Rust NsError PathTree :=
  match path.parent with
  | none => Rust.err (.invalid "cannot set value at root")
  | some parent => do
    t.inDirectory parent
    match t.find path.segments with
    | some .directory => Rust.err (.isDirectory path.asStr)
    | some (.value _) => return t.replace path.segments v.canon
    | none => return t.create path.segments (.value v.canon)

def delete (t : PathTree) (path : DbPath) : Rust NsError PathTree :=
  match path.parent, t.find path.segments with
  | none, _ => Rust.err (.invalid "cannot delete root")
  | some _, none => Rust.err (.notFound path.asStr)
  | some _, some .directory =>
    if t.below path.segments ≠ [] then
      Rust.err (.invalid s!"directory not empty: {path.asStr}")
    else
      .ok (t.remove path.segments)
  | some _, some (.value _) => .ok (t.remove path.segments)

/-- The content of the structure of the given kind at a path, and nothing where there is no entry. -/
def contentOr {α : Type} (t : PathTree) (path : DbPath) (kind : String) (content : Value → Option α) (nothing : α) :
    Rust NsError α :=
  match t.find path.segments with
  | some .directory => Rust.err (.isDirectory path.asStr)
  | some (.value v) => Rust.okOr (content v) (.typeMismatch s!"{path.asStr} is not a {kind}")
  | none => .ok nothing

/-- An operation. -/
def apply (t : PathTree) : TxnOp → Rust NsError PathTree
  | .mkdir path => t.mkdir path
  | .set path v => t.set path v
  | .delete path => t.delete path
  | .hashSet path key v => do
    let map ← t.contentOr path "hash" Value.asHash []
    t.set path (.hash (OrdMap.insertEntry key v map))
  | .listPush path v => do
    let items ← t.contentOr path "list" Value.asList []
    t.set path (.list (items ++ [v]))
  | .setAdd path v => do
    let members ← t.contentOr path "set" Value.asSet []
    t.set path (.set (members ++ [v]))
  | .treeSet path key v => do
    let map ← t.contentOr path "tree" Value.asTree []
    t.set path (.tree (OrdMap.insertEntry key v map))

/-- A command: of a transaction all operations or none. -/
def run (t : PathTree) : Command → Rust NsError PathTree
  | .call op => t.apply op
  | .applyTxn ops => ops.foldlM apply t
  | .reopen => .ok t

/-- The tree after a command, whether it fails or not. -/
def after (t : PathTree) (c : Command) : PathTree :=
  match t.run c with
  | .ok t' => t'
  | .error _ => t

/-! ## What is assumed of a run -/

/-- The lengths in the values are below `2 ^ 32`, and the ids have not run out: they are given from 2 on, and there is one more. -/
structure Fits (t : PathTree) : Prop where
  small : ∀ p v, t.find p = some (.value v) → v.Small
  ids : t.created + 2 < 2 ^ 64

/-- The operations, one after the other, write values whose maps are ordered and lead to trees that fit. -/
def FitsAll (t : PathTree) : List TxnOp → Prop
  | [] => True
  | op :: ops => (∀ v ∈ op.value, v.Ordered) ∧ ∀ t', t.apply op = .ok t' → t'.Fits ∧ FitsAll t' ops

end PathTree
end AlefsDb
