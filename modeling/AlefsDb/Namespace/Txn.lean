import AlefsDb.Namespace.Db

/-!
# Transactions

`Overlay`: pending writes over a store, with the operations of the namespace on it, and `apply_txn`, which runs a list of
operations on an overlay and commits its pending writes at once.
-/

namespace AlefsDb

/-- `TxnOp`. -/
inductive TxnOp where
  | mkdir (path : DbPath)
  | set (path : DbPath) (value : Value)
  | delete (path : DbPath)
  | hashSet (path : DbPath) (key : String) (value : Value)
  | listPush (path : DbPath) (value : Value)
  | setAdd (path : DbPath) (value : Value)
  | treeSet (path : DbPath) (key : Scalar) (value : Value)

/-- `Overlay`: a pending `none` means deleted. -/
structure Overlay where
  store : MemoryStorage
  pending : OrdMap Bytes (Option Bytes)

namespace Overlay

/-- `Overlay::new`. -/
def new (store : MemoryStorage) : Overlay := { store := store, pending := OrdMap.empty }

/-- `Overlay::get`. -/
def get (ov : Overlay) (key : Bytes) : Option Bytes :=
  match ov.pending.get key with
  | some v => v
  | none => ov.store.get key

/-- `Overlay::put`. -/
def put (ov : Overlay) (key value : Bytes) : Overlay := { ov with pending := ov.pending.insert key (some value) }

/-- `Overlay::delete`. -/
def delete (ov : Overlay) (key : Bytes) : Overlay := { ov with pending := ov.pending.insert key none }

/-- One pending write in `scan_prefix`. -/
def mergeRow (pre : Bytes) (map : Rows) (e : Bytes × Option Bytes) : Rows :=
  if pre.isPrefixOf e.1 then
    match e.2 with
    | some value => map.insert e.1 value
    | none => map.erase e.1
  else
    map

/-- `Overlay::scan_prefix`: the rows of the store, with the pending writes merged in. -/
def scanPrefix (ov : Overlay) (pre : Bytes) : List (Bytes × Bytes) :=
  let map := (ov.store.scanPrefix pre).foldl (fun map row => map.insert row.1 row.2) (OrdMap.empty : Rows)
  (ov.pending.entries.foldl (mergeRow pre) map).entries

/-- `into_batch`. -/
def intoBatch (ov : Overlay) : WriteBatch :=
  ov.pending.entries.foldl (fun batch e =>
    match e.2 with
    | some value => batch.put e.1 value
    | none => batch.delete e.1) WriteBatch.new

/-! ## The operations on an overlay -/

/-- `next_id_ov`. -/
def nextIdOv (ov : Overlay) : Rust NsError UInt64 := do
  let raw ← Rust.okOr (ov.get metaNextId) (.invalid "missing next_id")
  Rust.okOr (decodeId raw) (.invalid "bad next_id")

/-- The loop of `resolve_ov` over the segments of a path. -/
def resolveFromOv (ov : Overlay) (path : DbPath) : UInt64 → List String → Rust NsError UInt64
  | id, [] => .ok id
  | id, seg :: rest =>
    match ov.get (childKey id seg) with
    | none => Rust.err (.notFound path.asStr)
    | some raw => do
      let id ← Rust.okOr (decodeId raw) (.invalid "bad child id")
      ov.resolveFromOv path id rest

/-- `resolve_ov`. -/
def resolveOv (ov : Overlay) (path : DbPath) : Rust NsError (UInt64 × NodeRecord) :=
  if path.isRoot then do
    let bytes ← Rust.okOr (ov.get (nodeKey rootId)) (.notFound "/")
    let record ← Rust.mapErr .invalid (parseNode bytes)
    return (rootId, record)
  else do
    let id ← ov.resolveFromOv path rootId path.segments
    let bytes ← Rust.okOr (ov.get (nodeKey id)) (.notFound path.asStr)
    let record ← Rust.mapErr .invalid (parseNode bytes)
    return (id, record)

/-- `get_value_ov`. -/
def getValueOv (ov : Overlay) (path : DbPath) : Rust NsError Value := do
  let (_, record) ← ov.resolveOv path
  match record with
  | .dir => Rust.err (.isDirectory path.asStr)
  | .value encoded => Database.decodeNode encoded

/-- `resolve_ov` of a parent directory: the error when it is not there, and when it is not a directory. -/
def resolveParentOv (ov : Overlay) (parent : DbPath) : Rust NsError UInt64 := do
  let (id, record) ← match ov.resolveOv parent with
    | .error (.err (.notFound _)) => Rust.err (.parentMissing parent.asStr)
    | other => other
  if record ≠ .dir then Rust.err (.notDirectory parent.asStr) else return id

/-- `mkdir_ov`. -/
def mkdirOv (ov : Overlay) (path : DbPath) : Rust NsError Overlay :=
  if path.isRoot then
    .ok ov
  else
    match ov.resolveOv path with
    | .ok _ => Rust.err (.alreadyExists path.asStr)
    | .error .panic => Rust.panic
    | .error _ => do
      let parent ← Rust.okOr path.parent (.invalid "no parent")
      let name ← Rust.okOr path.segments.getLast? (.invalid "no name")
      let parentId ← ov.resolveParentOv parent
      let id ← ov.nextIdOv
      let next ← Database.succId id
      let ov := ov.put metaNextId (encodeId next)
      let ov := ov.put (nodeKey id) encodeDirNode
      let ov := ov.put (childKey parentId name) (encodeId id)
      return ov.put (typeIndexKey "directory" id) (utf8 path.asStr)

/-- `set_ov`. -/
def setOv (ov : Overlay) (path : DbPath) (value : Value) : Rust NsError Overlay := do
  if path.isRoot then
    Rust.err (.invalid "cannot set value at root")
  else
    let parent ← Rust.okOr path.parent (.invalid "no parent")
    let name ← Rust.okOr path.segments.getLast? (.invalid "no name")
    let parentId ← ov.resolveParentOv parent
    let enc := Codec.encode value
    match ov.get (childKey parentId name) with
    | some raw =>
      let id ← Rust.okOr (decodeId raw) (.invalid "bad child id")
      let existing ← Rust.okOr (ov.get (nodeKey id)) (.invalid "missing node")
      let record ← Rust.mapErr .invalid (parseNode existing)
      match record with
      | .dir => Rust.err (.isDirectory path.asStr)
      | .value oldEnc =>
        let old ← Database.decodeNode oldEnc
        let oldTy := old.typename
        let newTy := value.typename
        let ov := if oldTy ≠ newTy then ov.delete (typeIndexKey oldTy id) else ov
        let ov := ov.put (nodeKey id) (encodeValueNode enc)
        return ov.put (typeIndexKey newTy id) (utf8 path.asStr)
    | none =>
      let id ← ov.nextIdOv
      let next ← Database.succId id
      let ov := ov.put metaNextId (encodeId next)
      let ov := ov.put (nodeKey id) (encodeValueNode enc)
      let ov := ov.put (childKey parentId name) (encodeId id)
      return ov.put (typeIndexKey value.typename id) (utf8 path.asStr)

/-- `delete_ov`. -/
def deleteOv (ov : Overlay) (path : DbPath) : Rust NsError Overlay := do
  if path.isRoot then
    Rust.err (.invalid "cannot delete root")
  else
    let (id, record) ← ov.resolveOv path
    if record = .dir ∧ ov.scanPrefix (childPrefix id) ≠ [] then
      Rust.err (.invalid s!"directory not empty: {path.asStr}")
    else
      let parent ← Rust.unwrap path.parent
      let name ← Rust.unwrap path.segments.getLast?
      let (parentId, _) ← ov.resolveOv parent
      let ty ← match record with
        | .dir => (.ok "directory" : Rust NsError String)
        | .value enc => Value.typename <$> Database.decodeNode enc
      let ov := ov.delete (typeIndexKey ty id)
      let ov := ov.delete (childKey parentId name)
      return ov.delete (nodeKey id)

/-- The start of the four updates of a structure in `apply_one`: the content of the structure of the given kind at a path, and
nothing where there is no entry. -/
def contentOrOv {α : Type} (ov : Overlay) (path : DbPath) (kind : String) (content : Value → Option α) (nothing : α) :
    Rust NsError α :=
  match ov.getValueOv path with
  | .ok v => Rust.okOr (content v) (.typeMismatch s!"{path.asStr} is not a {kind}")
  | .error (.err (.notFound _)) => .ok nothing
  | .error e => .error e

/-- `apply_one`. -/
def applyOne (ov : Overlay) : TxnOp → Rust NsError Overlay
  | .mkdir path => ov.mkdirOv path
  | .set path value => ov.setOv path value
  | .delete path => ov.deleteOv path
  | .hashSet path key value => do
    let map ← ov.contentOrOv path "hash" Value.asHash []
    ov.setOv path (.hash (OrdMap.insertEntry key value map))
  | .listPush path value => do
    let items ← ov.contentOrOv path "list" Value.asList []
    ov.setOv path (.list (items ++ [value]))
  | .setAdd path value => do
    let members ← ov.contentOrOv path "set" Value.asSet []
    ov.setOv path (.set (Database.addMember members value))
  | .treeSet path key value => do
    let map ← ov.contentOrOv path "tree" Value.asTree []
    ov.setOv path (.tree (OrdMap.insertEntry key value map))

end Overlay

namespace Database

/-- `apply_txn`. -/
def applyTxn (ops : List TxnOp) : DbM Unit := do
  if ops.isEmpty then
    return ()
  else
    let ov ← read (fun db => ops.foldlM Overlay.applyOne (Overlay.new db.store))
    let batch := ov.intoBatch
    if batch.isEmpty then return () else commit batch

/-- The method of the database that does what an operation of a transaction says. -/
def call : TxnOp → DbM Unit
  | .mkdir path => mkdir path
  | .set path value => set path value
  | .delete path => delete path
  | .hashSet path key value => hashSet path key value
  | .listPush path value => listPush path value
  | .setAdd path value => setAdd path value
  | .treeSet path key value => treeSet path key value

end Database
end AlefsDb
