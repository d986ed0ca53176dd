import AlefsDb.Lib.Triple
import AlefsDb.Namespace.Keys
import AlefsDb.Storage.Batch
import AlefsDb.Types.Codec
import AlefsDb.Types.Path

/-!
# The database

`Database` over a store whose commits succeed. A method on `&self` is a function of the database; a method on `&mut self` is a
computation that keeps what it has committed when it returns an error.
-/

namespace AlefsDb

/-- `NsError`. -/
inductive NsError where
  | path (e : PathError)
  | codec (message : String)
  | storage (message : String)
  | notFound (path : String)
  | alreadyExists (path : String)
  | notDirectory (path : String)
  | isDirectory (path : String)
  | parentMissing (path : String)
  | typeMismatch (message : String)
  | invalid (message : String)
  deriving DecidableEq, Repr

/-- The text of an error of the namespace. -/
def NsError.text : NsError → String
  | path e => e.text
  | codec message => s!"codec: {message}"
  | storage message => s!"storage: {message}"
  | notFound p => s!"not found: {p}"
  | alreadyExists p => s!"already exists: {p}"
  | notDirectory p => s!"not a directory: {p}"
  | isDirectory p => s!"is a directory: {p}"
  | parentMissing p => s!"parent missing: {p}"
  | typeMismatch message => s!"type mismatch: {message}"
  | invalid message => s!"invalid: {message}"

/-- `EntryKind`. -/
inductive EntryKind where
  | directory
  | value
  deriving DecidableEq, Repr

/-- `Entry`. -/
structure Entry where
  path : DbPath
  kind : EntryKind
  value : Option Value

/-- `Database`. -/
@[ext] structure Database where
  store : MemoryStorage
  deriving DecidableEq

/-- A method on `&mut self`. -/
abbrev DbM := EStateM (Failure NsError) Database

namespace Database

/-- `self.store.commit(batch)`. -/
def commit (batch : WriteBatch) : DbM Unit := fun db => .ok () { db with store := db.store.commit batch }

/-- A call of a method on `&self`. -/
def read {α : Type} (method : Database → Rust NsError α) : DbM α := fun db =>
  match method db with
  | .ok a => .ok a db
  | .error e => .error e db

/-- `decode` with its error as one of the namespace. -/
def decodeNode (encoded : Bytes) : Rust NsError Value := Rust.mapErr (fun e => .codec e.text) (Codec.decode encoded)

/-- `node_type_name`. -/
def nodeTypeName : NodeRecord → Rust NsError String
  | .dir => .ok "directory"
  | .value encoded => do
    let v ← decodeNode encoded
    return v.typename

/-! ## Reading -/

/-- `next_id`. -/
def nextId (db : Database) : Rust NsError UInt64 := do
  let raw ← Rust.okOr (db.store.get metaNextId) (.invalid "missing next_id")
  Rust.okOr (decodeId raw) (.invalid "bad next_id")

/-- `id + 1`, which panics where the sum does not fit. -/
def succId (id : UInt64) : Rust NsError UInt64 :=
  if id.toNat + 1 < 2 ^ 64 then .ok (id + 1) else Rust.panic

/-- `alloc_id`: the id, and the batch with the next one. -/
def allocId (db : Database) (batch : WriteBatch) : Rust NsError (UInt64 × WriteBatch) := do
  let id ← db.nextId
  let next ← succId id
  return (id, batch.put metaNextId (encodeId next))

/-- The loop of `resolve` over the segments of a path. -/
def resolveFrom (db : Database) (path : DbPath) : UInt64 → List String → Rust NsError UInt64
  | id, [] => .ok id
  | id, seg :: rest =>
    match db.store.get (childKey id seg) with
    | none => Rust.err (.notFound path.asStr)
    | some raw => do
      let id ← Rust.okOr (decodeId raw) (.invalid "bad child id")
      db.resolveFrom path id rest

/-- `resolve`. -/
def resolve (db : Database) (path : DbPath) : Rust NsError (UInt64 × NodeRecord) :=
  if path.isRoot then do
    let bytes ← Rust.okOr (db.store.get (nodeKey rootId)) (.notFound "/")
    let record ← Rust.mapErr .invalid (parseNode bytes)
    return (rootId, record)
  else do
    let id ← db.resolveFrom path rootId path.segments
    let bytes ← Rust.okOr (db.store.get (nodeKey id)) (.notFound path.asStr)
    let record ← Rust.mapErr .invalid (parseNode bytes)
    return (id, record)

/-- `exists`. -/
def «exists» (db : Database) (path : DbPath) : Rust NsError Bool :=
  match db.resolve path with
  | .ok _ => .ok true
  | .error (.err (.notFound _)) => .ok false
  | .error e => .error e

/-- `get`. -/
def get (db : Database) (path : DbPath) : Rust NsError Entry := do
  let (_, record) ← db.resolve path
  match record with
  | .dir => return { path := path, kind := .directory, value := none }
  | .value encoded =>
    let value ← decodeNode encoded
    return { path := path, kind := .value, value := some value }

/-- One child row in `list`. -/
def listRow (db : Database) (pre : Bytes) (row : Bytes × Bytes) : Rust NsError (String × EntryKind) := do
  let name ← Rust.okOr (fromUtf8 (row.1.drop pre.length)) (.invalid "child name not utf8")
  let childId ← Rust.okOr (decodeId row.2) (.invalid "bad child id")
  let bytes ← Rust.okOr (db.store.get (nodeKey childId)) (.invalid "missing child node")
  let record ← Rust.mapErr .invalid (parseNode bytes)
  match record with
  | .dir => return (name, .directory)
  | .value _ => return (name, .value)

/-- `list`: the children of a directory, sorted by name. -/
def list (db : Database) (path : DbPath) : Rust NsError (List (String × EntryKind)) := do
  let (id, record) ← db.resolve path
  if record ≠ .dir then
    Rust.err (.notDirectory path.asStr)
  else
    let out ← (db.store.scanPrefix (childPrefix id)).mapM (db.listRow (childPrefix id))
    return out.insertionSort (fun a b => a.1 ≤ b.1)

/-- One row of the type index in `paths_with_type`. -/
def indexedPath (row : Bytes × Bytes) : Rust NsError DbPath := do
  let s ← Rust.okOr (fromUtf8 row.2) (.invalid "idx path utf8")
  Rust.mapErr .path (DbPath.parse s)

/-- `paths_with_type`, sorted by text. -/
def pathsWithType (db : Database) (typeName : String) : Rust NsError (List DbPath) := do
  let out ← (db.store.scanPrefix (typeIndexPrefix typeName)).mapM indexedPath
  return out.insertionSort (fun a b => a.asStr ≤ b.asStr)

/-- `walk_rec`, with a bound on the depth of the recursion: there are fewer directories above an entry than rows. -/
def walkRec (db : Database) : Nat → DbPath → List (DbPath × Value) → Rust NsError (List (DbPath × Value))
  | 0, _, _ => .error .outOfFuel
  | fuel + 1, path, out => do
    let entry ← db.get path
    match entry.kind with
    | .directory =>
      let children ← db.list path
      children.foldlM (fun out child => do
        let childPath ← Rust.mapErr .path (path.join child.1)
        db.walkRec fuel childPath out) out
    | .value =>
      match entry.value with
      | some v => return out ++ [(path, v)]
      | none => return out

/-- `walk_values`. -/
def walkValues (db : Database) : Rust NsError (List (DbPath × Value)) := db.walkRec db.store.map.size DbPath.root []

/-- `resolve` of a parent directory: the error when it is not there, and when it is not a directory. -/
def resolveParent (db : Database) (parent : DbPath) : Rust NsError UInt64 := do
  let (id, record) ← match db.resolve parent with
    | .error (.err (.notFound _)) => Rust.err (.parentMissing parent.asStr)
    | other => other
  if record ≠ .dir then Rust.err (.notDirectory parent.asStr) else return id

/-! ## Writing -/

/-- The batch that `mkdir` commits. -/
def mkdirBatch (db : Database) (path : DbPath) : Rust NsError WriteBatch := do
  if ← db.exists path then
    Rust.err (.alreadyExists path.asStr)
  else
    let parent ← Rust.okOr path.parent (.invalid "no parent")
    let name ← Rust.okOr path.segments.getLast? (.invalid "no name")
    let parentId ← db.resolveParent parent
    let (id, batch) ← db.allocId WriteBatch.new
    let batch := batch.put (nodeKey id) encodeDirNode
    let batch := batch.put (childKey parentId name) (encodeId id)
    return batch.put (typeIndexKey "directory" id) (utf8 path.asStr)

/-- `mkdir`. -/
def mkdir (path : DbPath) : DbM Unit := do
  if path.isRoot then
    return ()
  else
    let batch ← read (fun db => db.mkdirBatch path)
    commit batch

/-- The batch that `set` commits. -/
def setBatch (db : Database) (path : DbPath) (value : Value) : Rust NsError WriteBatch := do
  if path.isRoot then
    Rust.err (.invalid "cannot set value at root")
  else
    let parent ← Rust.okOr path.parent (.invalid "no parent")
    let name ← Rust.okOr path.segments.getLast? (.invalid "no name")
    let parentId ← db.resolveParent parent
    let enc := Codec.encode value
    match db.store.get (childKey parentId name) with
    | some raw =>
      let id ← Rust.okOr (decodeId raw) (.invalid "bad child id")
      let existing ← Rust.okOr (db.store.get (nodeKey id)) (.invalid "missing node")
      let record ← Rust.mapErr .invalid (parseNode existing)
      match record with
      | .dir => Rust.err (.isDirectory path.asStr)
      | .value oldEnc =>
        let old ← decodeNode oldEnc
        let oldTy := old.typename
        let newTy := value.typename
        let batch := if oldTy ≠ newTy then WriteBatch.new.delete (typeIndexKey oldTy id) else WriteBatch.new
        let batch := batch.put (nodeKey id) (encodeValueNode enc)
        return batch.put (typeIndexKey newTy id) (utf8 path.asStr)
    | none =>
      let (id, batch) ← db.allocId WriteBatch.new
      let batch := batch.put (nodeKey id) (encodeValueNode enc)
      let batch := batch.put (childKey parentId name) (encodeId id)
      return batch.put (typeIndexKey value.typename id) (utf8 path.asStr)

/-- `set`. -/
def set (path : DbPath) (value : Value) : DbM Unit := do
  let batch ← read (fun db => db.setBatch path value)
  commit batch

/-- The batch that `delete` commits. -/
def deleteBatch (db : Database) (path : DbPath) : Rust NsError WriteBatch := do
  if path.isRoot then
    Rust.err (.invalid "cannot delete root")
  else
    let (id, record) ← db.resolve path
    if record = .dir ∧ db.store.scanPrefix (childPrefix id) ≠ [] then
      Rust.err (.invalid s!"directory not empty: {path.asStr}")
    else
      let parent ← Rust.unwrap path.parent
      let name ← Rust.unwrap path.segments.getLast?
      let (parentId, _) ← db.resolve parent
      let ty ← nodeTypeName record
      let batch := WriteBatch.new.delete (typeIndexKey ty id)
      let batch := batch.delete (childKey parentId name)
      return batch.delete (nodeKey id)

/-- `delete`. -/
def delete (path : DbPath) : DbM Unit := do
  let batch ← read (fun db => db.deleteBatch path)
  commit batch

/-- The start of `hash_set`, `list_push`, `set_add` and `tree_set`: the content of the structure of the given kind at a path, and
nothing where there is no entry. -/
def contentOr {α : Type} (db : Database) (path : DbPath) (kind : String) (content : Value → Option α) (nothing : α) :
    Rust NsError α :=
  match db.get path with
  | .ok e =>
    match e.value with
    | some v => Rust.okOr (content v) (.typeMismatch s!"{path.asStr} is not a {kind}")
    | none => Rust.err (.isDirectory path.asStr)
  | .error (.err (.notFound _)) => .ok nothing
  | .error e => .error e

/-- `hash_set`. -/
def hashSet (path : DbPath) (key : String) (value : Value) : DbM Unit := do
  let map ← read (fun db => db.contentOr path "hash" Value.asHash [])
  set path (.hash (OrdMap.insertEntry key value map))

/-- `list_push`. -/
def listPush (path : DbPath) (value : Value) : DbM Unit := do
  let items ← read (fun db => db.contentOr path "list" Value.asList [])
  set path (.list (items ++ [value]))

/-- The members of a set with one more, when none of them has its payload. -/
def addMember (members : List Value) (value : Value) : List Value :=
  if members.any (fun m => Codec.encodePayload m == Codec.encodePayload value) then members else members ++ [value]

/-- `set_add`. -/
def setAdd (path : DbPath) (value : Value) : DbM Unit := do
  let members ← read (fun db => db.contentOr path "set" Value.asSet [])
  set path (.set (addMember members value))

/-- `tree_set`. -/
def treeSet (path : DbPath) (key : Scalar) (value : Value) : DbM Unit := do
  let map ← read (fun db => db.contentOr path "tree" Value.asTree [])
  set path (.tree (OrdMap.insertEntry key value map))

/-! ## The type index -/

/-- The children of a directory, pushed onto the stack one after the other. -/
def pushChildren (path : DbPath) : List (String × EntryKind) → List DbPath → Rust NsError (List DbPath)
  | [], stack => .ok stack
  | (name, _) :: rest, stack => do
    let child ← Rust.mapErr .path (path.join name)
    pushChildren path rest (child :: stack)

/-- The worklist loop of `rebuild_type_index`; the head of the list is the top of the stack. -/
def rebuildLoop (db : Database) : Nat → List DbPath → WriteBatch → Rust NsError WriteBatch
  | _, [], batch => .ok batch
  | 0, _ :: _, _ => .error .outOfFuel
  | fuel + 1, path :: stack, batch => do
    let (id, record) ← db.resolve path
    let ty ← nodeTypeName record
    let batch := batch.put (typeIndexKey ty id) (utf8 path.asStr)
    if record = .dir then
      let children ← db.list path
      let stack ← pushChildren path children stack
      db.rebuildLoop fuel stack batch
    else
      db.rebuildLoop fuel stack batch

/-- The batch that `rebuild_type_index` commits. There are fewer entries than rows, and each is taken off the stack once. -/
def rebuildBatch (db : Database) : Rust NsError WriteBatch :=
  let batch := (db.store.scanPrefix indexPrefix).foldl (fun batch row => batch.delete row.1) WriteBatch.new
  db.rebuildLoop db.store.map.size [DbPath.root] batch

/-- `rebuild_type_index`. -/
def rebuildTypeIndex : DbM Unit := do
  let batch ← read rebuildBatch
  commit batch

/-- `INDEX_VER`, as it is stored. -/
def indexVersion : Bytes := beBytes 8 1

/-- The first part of `Database::open`: the root and the next id are there. -/
def ensureRoot : DbM Unit := do
  let db ← MonadState.get
  if db.store.get (nodeKey rootId) = none then
    let batch := WriteBatch.new.put (nodeKey rootId) encodeDirNode
    let batch := batch.put metaNextId (encodeId (rootId + 1))
    commit (batch.put (typeIndexKey "directory" rootId) (utf8 "/"))
  else if db.store.get metaNextId = none then
    commit (WriteBatch.new.put metaNextId (encodeId (rootId + 1)))
  else
    return ()

/-- `Database::open`, on a store. -/
def openStore : DbM Unit := do
  ensureRoot
  let db ← MonadState.get
  if db.store.get metaTypeIndexVersion = some indexVersion then
    return ()
  else
    rebuildTypeIndex
    commit (WriteBatch.new.put metaTypeIndexVersion indexVersion)

end Database
end AlefsDb
