import AlefsDb.Fuse.Calls
import AlefsDb.Namespace.Commands

/-!
# Directories of the mount

`readdir`, `mkdir` and `unlink`, and all requests that a mount serves. The buffer of a reply to `readdir` is not code of this
repository: `full` says for it whether an entry still goes in after others.
-/

namespace AlefsDb
namespace Fuse

/-- An entry of a reply: what `reply.add` is given. -/
structure DirEntry where
  ino : UInt64
  offset : Int64
  kind : FileType
  name : String
  deriving DecidableEq

/-- A buffer for a reply: whether it has no room for an entry after the entries that are in it. -/
abbrev DirBuffer := List DirEntry → DirEntry → Bool

/-- The file type of a child in a listing. -/
def childType (path : DbPath) (name : String) : EntryKind → FsM FileType
  | .directory => return .directory
  | .value =>
    match path.join name with
    | .error _ => throw .panic
    | .ok child => do
      match ← valueAt child with
      | some (.scalar _) => return .regularFile
      | _ => return .directory

/-- The loop of `readdir` over the children. -/
def listedChildren (path : DbPath) : List (String × EntryKind) → FsM (List (String × FileType))
  | [] => return []
  | (name, kind) :: kids => do
    let ft ← childType path name kind
    let rest ← listedChildren path kids
    return (name, ft) :: rest

/-- The entries below the path of an inode. -/
def entriesBelow (hasher : Bytes → UInt64) (path : DbPath) (entry : Entry) : FsM (List (String × FileType)) :=
  match entry.kind with
  | .directory => do
    match ← withDb (Database.read (fun db => db.list path)) with
    | .ok kids => listedChildren path kids
    | .error _ => return []
  | .value => return (entry.value.map (projectListing hasher)).getD []

/-- The loop of `readdir` that fills the reply, from entries with their positions. -/
def addEntries (text : String) (full : DirBuffer) : List ((String × FileType) × Nat) → List DirEntry → FsM (List DirEntry)
  | [], reply => return reply
  | ((name, ft), i) :: rest, reply => do
    let childText := if name = "." ∨ name = ".." then text else childPath text name
    let childIno ← inoForPath childText
    let e := { ino := childIno, offset := Int64.ofNat (i + 1), kind := ft, name := name }
    if full reply e then return reply else addEntries text full rest (reply ++ [e])

/-- `readdir`: the entries that it replies. -/
def readdir (hasher : Bytes → UInt64) (ino : UInt64) (offset : Int64) (full : DirBuffer) : FsM (List DirEntry) := do
  let fs ← get
  let text ← orReply (fs.pathForIno ino) .enoent
  match DbPath.parse text with
  | .error _ => replyError .enoent
  | .ok path =>
    match ← getEntry path with
    | .error _ => replyError .enoent
    | .ok entry =>
      let below ← entriesBelow hasher path entry
      let entries := (".", .directory) :: ("..", .directory) :: below
      addEntries text full (entries.zipIdx.drop offset.toUInt64.toNat) []

/-- `mkdir`: the inode that it replies. -/
def mkdir (parent : UInt64) (name : Bytes) : FsM UInt64 := do
  let fs ← get
  let parentPath ← orReply (fs.pathForIno parent) .enoent
  let name ← orReply (fromUtf8 name) .einval
  let child := childPath parentPath name
  match DbPath.parse child with
  | .error _ => replyError .einval
  | .ok path =>
    match ← withDb (Database.mkdir path) with
    | .ok _ => inoForPath child
    | .error _ => replyError .eio

/-- The part of `unlink` for a member of a structure: whether it has removed the member. -/
def unlinkMember (hasher : Bytes → UInt64) (parentPath name : String) : FsM Bool := do
  match DbPath.parse parentPath with
  | .error _ => return false
  | .ok parentDb =>
    let val ← valueAt parentDb
    match val.bind (fun v => projectUnlink hasher v name) with
    | none => return false
    | some newVal =>
      match ← withDb (Database.set parentDb newVal) with
      | .ok _ => return true
      | .error _ => return false

/-- `unlink`, and `rmdir`, which calls it. -/
def unlink (hasher : Bytes → UInt64) (parent : UInt64) (name : Bytes) : FsM Unit := do
  let fs ← get
  let parentPath ← orReply (fs.pathForIno parent) .enoent
  let name ← orReply (fromUtf8 name) .einval
  if ← unlinkMember hasher parentPath name then
    return ()
  else
    match DbPath.parse (childPath parentPath name) with
    | .error _ => replyError .einval
    | .ok path =>
      match ← withDb (Database.delete path) with
      | .ok _ => return ()
      | .error _ => replyError .eio

/-! ## Requests -/

/-- What a mount serves: the callbacks that read and change entries, and the commands of remote clients. -/
inductive MountRequest where
  | lookup (parent : UInt64) (name : Bytes)
  | readdir (ino : UInt64) (offset : Int64) (full : DirBuffer)
  | mkdir (parent : UInt64) (name : Bytes)
  | create (parent : UInt64) (name : Bytes)
  | unlink (parent : UInt64) (name : Bytes)
  | file (ino : UInt64) (c : FileCall)
  | rpc (c : Command)

/-- The computation of a request. -/
def MountRequest.run (hasher : Bytes → UInt64) : MountRequest → FsM Unit
  | lookup parent name => do
    let _ ← Fuse.lookup hasher parent name
  | readdir ino offset full => do
    let _ ← Fuse.readdir hasher ino offset full
  | mkdir parent name => do
    let _ ← Fuse.mkdir parent name
  | create parent name => do
    let _ ← Fuse.create parent name
  | unlink parent name => Fuse.unlink hasher parent name
  | file ino c => c.run ino
  | rpc c => do
    let _ ← withDb c.run

/-- A request, whatever it replies. -/
def AlefsFs.serve (hasher : Bytes → UInt64) (fs : AlefsFs) (r : MountRequest) : Option AlefsFs := some (left (r.run hasher fs))

/-- The file system of a mount of a database that commands have led to, after requests. -/
def Mounted (hasher : Bytes → UInt64) (fs : AlefsFs) : Prop :=
  ∃ db requests, Database.Reached (fun _ => True) db ∧
    Run (AlefsFs.serve hasher) (fun _ _ => True) (AlefsFs.new db) requests fs

end Fuse
end AlefsDb
