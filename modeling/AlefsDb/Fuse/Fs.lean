import AlefsDb.Fuse.Projection
import AlefsDb.Fuse.Scalars
import AlefsDb.Namespace.Db
import Mathlib.Logic.Function.Basic

/-!
# The mounted file system

`AlefsFs`: the database, the inodes that the kernel has been given, and the bytes that were written to an inode and are not in the
database yet. A callback runs alone; what it replies is its result. The times and the permissions of a reply are left out.
-/

namespace AlefsDb
namespace Fuse

/-- The error numbers that the callbacks below reply. -/
inductive Errno where
  | enoent
  | einval
  | eio
  | eperm
  deriving DecidableEq, Repr

/-- `AlefsFs`. A hash map is the partial function that it stands for. -/
structure AlefsFs where
  db : Database
  inoToPath : UInt64 → Option String
  pathToIno : String → Option UInt64
  nextIno : UInt64
  dirty : UInt64 → Option Bytes

/-- A callback. -/
abbrev FsM := EStateM (Failure Errno) AlefsFs

/-- `FUSE_ROOT_ID`. -/
def rootIno : UInt64 := 1

namespace AlefsFs

/-- `AlefsFs::new`. -/
def new (db : Database) : AlefsFs where
  db := db
  inoToPath := Function.update (fun _ => none) rootIno (some "/")
  pathToIno := Function.update (fun _ => none) "/" (some rootIno)
  nextIno := rootIno + 1
  dirty := fun _ => none

/-- `path_for_ino`. -/
def pathForIno (fs : AlefsFs) (ino : UInt64) : Option String := fs.inoToPath ino

end AlefsFs

/-- The reply is the error. -/
def replyError {α : Type} (e : Errno) : FsM α := throw (.err e)

/-- The value, or the error as the reply. -/
def orReply {α : Type} (o : Option α) (e : Errno) : FsM α :=
  match o with
  | some a => return a
  | none => replyError e

/-- A method on the database: its result, unless it panics. -/
def withDb {α : Type} (method : DbM α) : FsM (Except NsError α) := fun fs =>
  match method fs.db with
  | .ok a db => .ok (.ok a) { fs with db := db }
  | .error (.err e) db => .ok (.error e) { fs with db := db }
  | .error .panic db => .error .panic { fs with db := db }
  | .error .outOfFuel db => .error .outOfFuel { fs with db := db }

/-- `db.get(path)`. -/
def getEntry (path : DbPath) : FsM (Except NsError Entry) := withDb (Database.read (fun db => db.get path))

/-- `ino_for_path`. -/
def inoForPath (path : String) : FsM UInt64 := do
  let fs ← get
  match fs.pathToIno path with
  | some ino => return ino
  | none =>
    let ino := fs.nextIno
    if ino.toNat + 1 < 2 ^ 64 then
      set { fs with
        nextIno := ino + 1
        pathToIno := Function.update fs.pathToIno path (some ino)
        inoToPath := Function.update fs.inoToPath ino (some path) }
      return ino
    else
      throw .panic

/-- The path of a name in a directory. -/
def childPath (parentPath name : String) : String :=
  if parentPath = "/" then "/" ++ name else parentPath ++ "/" ++ name

/-- The value at a path, if one is there. -/
def valueAt (path : DbPath) : FsM (Option Value) := do
  match ← getEntry path with
  | .ok entry => return entry.value
  | .error _ => return none

/-- `lookup`: the inode that it replies. -/
def lookup (hasher : Bytes → UInt64) (parent : UInt64) (name : Bytes) : FsM UInt64 := do
  let fs ← get
  let parentPath ← orReply (fs.pathForIno parent) .enoent
  let name ← orReply (fromUtf8 name) .einval
  let child := childPath parentPath name
  match DbPath.parse child with
  | .error _ => replyError .enoent
  | .ok path =>
    -- a member of a structure
    let parentDb := match DbPath.parse parentPath with
      | .ok p => p
      | .error _ => DbPath.root
    let val ← valueAt parentDb
    if (val.bind (fun v => projectChildValue hasher v name)).isSome then
      inoForPath child
    else
      match ← getEntry path with
      | .ok _ => inoForPath child
      | .error _ => replyError .enoent

/-! ## Writing -/

/-- `buf.resize(end, 0)`, where `buf` is shorter. -/
def resize (buf : Bytes) («end» : Nat) : Bytes := buf ++ List.replicate («end» - buf.length) 0

/-- `buf[start..end].copy_from_slice(data)`. -/
def copyFromSlice (buf : Bytes) (start : Nat) (data : Bytes) : Bytes :=
  buf.take start ++ data ++ buf.drop (start + data.length)

/-- `write`: the number of bytes that it replies. It panics where the end of the buffer does not fit a `Vec`. -/
def write (ino : UInt64) (offset : Int64) (data : Bytes) : FsM UInt32 := do
  let fs ← get
  let buf := (fs.dirty ino).getD []
  let start := offset.toUInt64.toNat
  if start + data.length < 2 ^ 63 then
    let buf := copyFromSlice (resize buf (start + data.length)) start data
    set { fs with dirty := Function.update fs.dirty ino (some buf) }
    return UInt32.ofNat data.length
  else
    set { fs with dirty := Function.update fs.dirty ino (some buf) }
    throw .panic

/-- `Value::string("")`. -/
def emptyString : Value := .scalar (.string "")

/-- The scalar that is written in place of another one. -/
def newScalar (existing : Option Value) (data : Bytes) : FsM Scalar := do
  let existing ← orReply (existing.bind Value.asScalar) .eperm
  orReply (parseScalarText existing data) .einval

/-- What `commit_dirty` sets at which path, for the path of an inode and the bytes written to it: the scalar at the path, or the
hash above it with the scalar as its member. -/
def commitTarget (path : DbPath) (data : Bytes) : FsM (DbPath × Value) := do
  match ← getEntry path with
  | .ok entry =>
    let newS ← newScalar entry.value data
    return (path, .scalar newS)
  | .error _ =>
    let parent ← orReply path.parent .enoent
    let name ← orReply path.segments.getLast? .enoent
    let val ← valueAt parent
    let m ← orReply (val.bind Value.asHash) .enoent
    let newS ← newScalar (some ((OrdMap.lookup name m).getD emptyString)) data
    return (parent, .hash (OrdMap.insertEntry name (.scalar newS) m))

/-- `db.set(path, value)`, with `EIO` as the reply where it fails. -/
def setOrReply (path : DbPath) (value : Value) : FsM Unit := do
  match ← withDb (Database.set path value) with
  | .ok _ => return ()
  | .error _ => replyError .eio

/-- `commit_dirty`. -/
def commitDirty (ino : UInt64) : FsM Unit := do
  let fs ← get
  match fs.dirty ino with
  | none => return ()
  | some data =>
    set { fs with dirty := Function.update fs.dirty ino none }
    let text ← orReply (fs.pathForIno ino) .enoent
    match DbPath.parse text with
    | .error _ => replyError .einval
    | .ok path =>
      let (target, value) ← commitTarget path data
      setOrReply target value

/-- `flush`. -/
def flush (ino : UInt64) : FsM Unit := commitDirty ino

/-- `fsync`. -/
def fsync (ino : UInt64) : FsM Unit := commitDirty ino

/-- The part of `create` for a name in a hash: whether it has inserted the name. -/
def createInHash (parentPath name : String) : FsM Bool := do
  match DbPath.parse parentPath with
  | .error _ => return false
  | .ok parentDb =>
    let val ← valueAt parentDb
    match val.bind Value.asHash with
    | none => return false
    | some m =>
      match ← withDb (Database.set parentDb (.hash (OrdMap.insertEntry name emptyString m))) with
      | .ok _ => return true
      | .error _ => return false

/-- `create`: the inode that it replies. -/
def create (parent : UInt64) (name : Bytes) : FsM UInt64 := do
  let fs ← get
  let parentPath ← orReply (fs.pathForIno parent) .enoent
  let name ← orReply (fromUtf8 name) .einval
  let child := childPath parentPath name
  if ← createInHash parentPath name then
    inoForPath child
  else
    match DbPath.parse child with
    | .error _ => replyError .einval
    | .ok path =>
      setOrReply path emptyString
      inoForPath child

end Fuse
end AlefsDb
