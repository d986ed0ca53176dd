import AlefsDb.Lib.Runs
import AlefsDb.Namespace.PathTree
import AlefsDb.Storage.Disk
import Mathlib.Logic.Function.Basic

/-!
# Databases opened on one directory

`open_db` opens the durable store of a directory and the database over it. It takes no lock: each opener has a map and a next id of
its own in memory, and all of them append to the same log. A call is atomic, and no file operation fails.
-/

namespace AlefsDb

/-- Why a method of a database over a durable store stops: it returns an error of the namespace, or a commit stops. -/
inductive HandleStop where
  | refused (e : Failure NsError)
  | storage (stop : Stop)

/-- A method of a database over a durable store. -/
abbrev HandleM := EStateM HandleStop Disk

/-- The database over a store, as its methods on `&self` see it. -/
def WalStorage.database (s : WalStorage) : Database := ⟨⟨s.map⟩⟩

/-- A method that computes a batch and commits it. -/
def commitBatch (batch : Database → Rust NsError WriteBatch) : HandleM Unit := fun d =>
  match batch d.storage.database with
  | .error e => .error (.refused e) d
  | .ok b =>
    match WalStorage.commit b d with
    | .ok () d' => .ok () d'
    | .error stop d' => .error (.storage stop) d'

/-- What the first part of `Database::open` commits; an empty batch where it commits nothing. -/
def Database.ensureRootBatch (db : Database) : WriteBatch :=
  if db.store.get (nodeKey rootId) = none then
    let batch := WriteBatch.new.put (nodeKey rootId) encodeDirNode
    let batch := batch.put metaNextId (encodeId (rootId + 1))
    batch.put (typeIndexKey "directory" rootId) (utf8 "/")
  else if db.store.get metaNextId = none then
    WriteBatch.new.put metaNextId (encodeId (rootId + 1))
  else
    WriteBatch.new

/-- `Database::open`, over a durable store. -/
def openDatabase : HandleM Unit := do
  commitBatch (fun db => .ok db.ensureRootBatch)
  let d ← MonadState.get
  if d.storage.database.store.get metaTypeIndexVersion = some Database.indexVersion then
    return ()
  else
    commitBatch Database.rebuildBatch
    commitBatch (fun _ => .ok (WriteBatch.new.put metaTypeIndexVersion Database.indexVersion))

/-- `open_db`: the store of the opener, when the open succeeds, and the files that it leaves. -/
def openDb (files : Files) : Option WalStorage × Files :=
  match WalStorage.openDir files with
  | .error _ => (none, files)
  | .ok (storage, files) =>
    match openDatabase ⟨storage, files, []⟩ with
    | .ok () d => (some d.storage, d.files)
    | .error _ d => (none, d.files)

/-! ## Calls -/

/-- A call on a path. -/
inductive PathCall where
  | mkdir (path : DbPath)
  | set (path : DbPath) (value : Value)
  | delete (path : DbPath)

namespace PathCall

def path : PathCall → DbPath
  | mkdir path => path
  | set path _ => path
  | delete path => path

def op : PathCall → TxnOp
  | mkdir path => .mkdir path
  | set path value => .set path value
  | delete path => .delete path

/-- What is at the path when the call has succeeded. -/
def content : PathCall → Option Content
  | mkdir _ => some .directory
  | set _ value => some (.value value.canon)
  | delete _ => none

/-- The batch that the call commits; `mkdir` of the root commits nothing. -/
def batch : PathCall → Database → Rust NsError WriteBatch
  | mkdir path, db => if path.isRoot then .ok WriteBatch.new else db.mkdirBatch path
  | set path value, db => db.setBatch path value
  | delete path, db => db.deleteBatch path

/-- The calls are those of `Database`. -/
theorem call_op (c : PathCall) (db : Database) :
    Database.call c.op db = (do
      let b ← Database.read c.batch
      Database.commit b : DbM Unit) db := by
  cases c with
  | mkdir path =>
    change Database.mkdir path db = _
    unfold Database.mkdir
    split
    · rename_i hroot
      have hread : Database.read (PathCall.batch (.mkdir path)) db = .ok WriteBatch.new db := by
        rw [Database.read, batch, if_pos hroot]
      refine ((bind_of_ok hread _).trans ?_).symm
      rfl
    · rename_i hroot
      have hbatch : PathCall.batch (.mkdir path) = fun db => db.mkdirBatch path := by
        funext db
        rw [batch, if_neg hroot]
      rw [hbatch]
  | set path value => rfl
  | delete path => rfl

end PathCall

/-! ## Openers -/

/-- A directory, the stores of the openers that have it open, and the calls that have succeeded, in order. -/
structure SharedDir (P : Type) where
  files : Files
  handle : P → Option WalStorage
  acked : List PathCall

/-- What an opener does. -/
inductive OpenerAct (P : Type) where
  | openDb (p : P)
  | call (p : P) (c : PathCall)

/-- The path that is called. -/
def OpenerAct.path {P : Type} : OpenerAct P → Option DbPath
  | openDb _ => none
  | call _ c => some c.path

namespace SharedDir

variable {P : Type} [DecidableEq P]

/-- An empty directory that nobody has open. -/
def init : SharedDir P :=
  { files := { wal := none, checkpoint := none, tmp := none }, handle := fun _ => none, acked := [] }

/-- One act of one opener. An open that fails and a call that fails leave the opener as it was. -/
def step (s : SharedDir P) : OpenerAct P → Option (SharedDir P)
  | .openDb p =>
    match openDb s.files with
    | (some h, files) => some { s with files := files, handle := Function.update s.handle p (some h) }
    | (none, files) => some { s with files := files }
  | .call p c =>
    match s.handle p with
    | none => none
    | some h =>
      match commitBatch c.batch ⟨h, s.files, []⟩ with
      | .ok () d => some {
          files := d.files
          handle := Function.update s.handle p (some d.storage)
          acked := s.acked ++ [c] }
      | .error _ d => some { s with files := d.files, handle := Function.update s.handle p (some d.storage) }

/-- A process opens the database. -/
theorem step_openDb {s : SharedDir P} {p : P} {h : WalStorage} {files : Files} (hopen : AlefsDb.openDb s.files = (some h, files)) :
    step s (.openDb p) = some { s with files := files, handle := Function.update s.handle p (some h) } := by
  simp only [step, hopen]

/-- A process calls a method, which commits its batch. -/
theorem step_call {s : SharedDir P} {p : P} {c : PathCall} {h h' : WalStorage} {files : Files} (hhandle : s.handle p = some h)
    (hcommit : commitBatch c.batch ⟨h, s.files, []⟩ = .ok () ⟨h', files, []⟩) :
    step s (.call p c) = some
      { files := files, handle := Function.update s.handle p (some h'), acked := s.acked ++ [c] } := by
  simp only [step, hhandle, hcommit]

/-- What ought to be at every path: the root, and what the last call that succeeded on the path has put there. -/
def expected (s : SharedDir P) : List String → Option Content :=
  s.acked.foldl (fun shown c => Function.update shown c.path.segments c.content) (fun p => if p = [] then some .directory else none)

/-- What `get` answers for what is at a path. -/
def answer (path : DbPath) : Option Content → Rust NsError Entry
  | none => Rust.err (.notFound path.asStr)
  | some .directory => .ok { path := path, kind := .directory, value := none }
  | some (.value v) => .ok { path := path, kind := .value, value := some v }

/-- An open of the directory succeeds and shows what the calls that succeeded have put there, and different paths have different
nodes. -/
def Shows (s : SharedDir P) : Prop :=
  ∃ h files, openDb s.files = (some h, files) ∧
    (∀ path, h.database.get path = answer path (s.expected path.segments)) ∧
    ∀ path path' i a b, h.database.resolve path = .ok (i, a) → h.database.resolve path' = .ok (i, b) → path = path'

end SharedDir
end AlefsDb
