import AlefsDb.Fuse.Dirs

/-!
# Files of the mount

The callbacks that tell what is at an inode: `getattr`, `read` and `getxattr`, and `lookup` with the attributes that it replies. The
times and the owner of a file are left out; the text of a float is a parameter. As these callbacks change nothing but the inodes,
they are functions of the file system.
-/

namespace AlefsDb
namespace Fuse

/-- The error numbers that `getattr`, `read` and `getxattr` reply. -/
inductive ReadErrno where
  | enoent
  | eisdir
  | enodata
  | erange
  deriving DecidableEq, Repr

/-- `FileAttr`, but for its times and its owner. -/
structure FileAttr where
  ino : UInt64
  size : UInt64
  blocks : UInt64
  kind : FileType
  perm : UInt16
  nlink : UInt32
  rdev : UInt32
  blksize : UInt32
  flags : UInt32
  deriving DecidableEq, Repr

/-- The attributes of a file of a kind and a size. -/
def fileAttr (ino size : UInt64) (kind : FileType) : FileAttr :=
  { ino := ino
    size := size
    blocks := 1
    kind := kind
    perm := if kind = .directory then 0o755 else 0o644
    nlink := 1
    rdev := 0
    blksize := 512
    flags := 0 }

/-- `type_xattr`. -/
def typeXattr (value : Option Value) (kind : EntryKind) : String :=
  match kind, value with
  | .directory, _ => "directory"
  | .value, some v => v.typename
  | .value, none => "unknown"

/-- The bytes of `data` that a `read` of some bytes at an offset replies. -/
def page (data : Bytes) (offset : Int64) (size : UInt32) : Bytes :=
  let start := offset.toUInt64.toNat
  if data.length ≤ start then [] else (data.take (min (start + size.toNat) data.length)).drop start

section

variable (floatText : UInt64 → List Char)

/-- `scalar_bytes`. -/
def scalarBytes : Scalar → Bytes
  | .null => utf8 "null"
  | .bool b => utf8 (if b then "true" else "false")
  | .int n => utf8 (String.ofList (i64Text n))
  | .float bits => utf8 (String.ofList (floatText bits))
  | .string s => utf8 s
  | .bytes b => b

/-- `attr_for`, with the inode that the caller fills in. -/
def attrFor (ino : UInt64) (kind : EntryKind) (value : Option Value) : FileAttr :=
  match kind, value with
  | .directory, _ => fileAttr ino 0 .directory
  | .value, some (.scalar s) => fileAttr ino (UInt64.ofNat (scalarBytes floatText s).length) .regularFile
  | .value, some _ => fileAttr ino 0 .directory
  | .value, none => fileAttr ino 0 .regularFile

/-- `format_member_hint`. -/
def formatMemberHint : Value → String
  | .scalar (.string s) => s
  | .scalar (.int n) => String.ofList (i64Text n)
  | .scalar (.bool b) => if b then "true" else "false"
  | .scalar .null => "null"
  | .scalar (.float bits) => String.ofList (floatText bits)
  | .scalar (.bytes b) => "bytes[" ++ String.ofList (natText b.length) ++ "]"
  | other => "<" ++ other.typename ++ ">"

end

/-- `if let Ok(entry) = db.get(path)`. -/
def entryAt (db : Database) (path : DbPath) : Rust ReadErrno (Option Entry) :=
  match db.get path with
  | .ok entry => .ok (some entry)
  | .error (.err _) => .ok none
  | .error .panic => Rust.panic
  | .error .outOfFuel => .error .outOfFuel

/-- The name under which a path is looked for in a structure above it. -/
def memberName (path : DbPath) : String := path.segments.getLast?.getD ""

/-- The value above a path, if there is one. -/
def structureAbove (db : Database) (path : DbPath) : Rust ReadErrno (Option Value) :=
  match path.parent with
  | none => .ok none
  | some parent => do
    let entry ← entryAt db parent
    return entry.bind Entry.value

/-- The member of a structure that a path stands for. -/
def memberAt (hasher : Bytes → UInt64) (db : Database) (path : DbPath) : Rust ReadErrno (Option Value) := do
  let val ← structureAbove db path
  return val.bind (fun v => projectChildValue hasher v (memberName path))

section

variable (floatText : UInt64 → List Char) (hasher : Bytes → UInt64) (fs : AlefsFs)

/-- `getattr`. -/
def getattr (ino : UInt64) : Rust ReadErrno FileAttr := do
  let text ← Rust.okOr (fs.pathForIno ino) .enoent
  match fs.dirty ino with
  | some data => return fileAttr ino (UInt64.ofNat data.length) .regularFile
  | none =>
    match DbPath.parse text with
    | .error _ => Rust.err .enoent
    | .ok path =>
      match ← entryAt fs.db path with
      | some entry => return attrFor floatText ino entry.kind entry.value
      | none =>
        let member ← memberAt hasher fs.db path
        let v ← Rust.okOr member .enoent
        return attrFor floatText ino .value (some v)

/-- `read`. -/
def read (ino : UInt64) (offset : Int64) (size : UInt32) : Rust ReadErrno Bytes :=
  match fs.dirty ino with
  | some data => .ok (page data offset size)
  | none => do
    let text ← Rust.okOr (fs.pathForIno ino) .enoent
    match DbPath.parse text with
    | .error _ => Rust.err .enoent
    | .ok path =>
      let entry ← entryAt fs.db path
      match entry.bind Entry.value with
      | some (.scalar s) => return page (scalarBytes floatText s) offset size
      | _ =>
        match ← memberAt hasher fs.db path with
        | some (.scalar s) => return page (scalarBytes floatText s) offset size
        | _ => Rust.err .eisdir

/-- What `getxattr` replies: the size of the value, or the value. -/
inductive XattrReply where
  | size (n : UInt32)
  | data (bytes : Bytes)
  deriving DecidableEq, Repr

/-- The value of an extended attribute. -/
def xattrValue (path : DbPath) (name : Bytes) : Rust ReadErrno String :=
  if name = utf8 "user.alefs.type" then do
    match ← entryAt fs.db path with
    | some entry => return typeXattr entry.value entry.kind
    | none =>
      let member ← memberAt hasher fs.db path
      let v ← Rust.okOr member .enoent
      return typeXattr (some v) .value
  else if name = utf8 "user.alefs.member" then do
    match ← structureAbove fs.db path with
    | some (.set members) =>
      let m ← Rust.okOr (members.find? (fun m => setMemberName hasher m = memberName path)) .enodata
      return formatMemberHint floatText m
    | _ => Rust.err .enodata
  else
    Rust.err .enodata

/-- `getxattr`. -/
def getxattr (ino : UInt64) (name : Bytes) (size : UInt32) : Rust ReadErrno XattrReply := do
  let text ← Rust.okOr (fs.pathForIno ino) .enoent
  match DbPath.parse text with
  | .error _ => Rust.err .enoent
  | .ok path =>
    let val ← xattrValue floatText hasher fs path name
    let bytes := utf8 val
    if size = 0 then return .size (UInt32.ofNat bytes.length)
    else if size < UInt32.ofNat bytes.length then Rust.err .erange
    else return .data bytes

end

/-- `lookup`: the attributes that it replies. -/
def lookupEntry (floatText : UInt64 → List Char) (hasher : Bytes → UInt64) (parent : UInt64) (name : Bytes) : FsM FileAttr := do
  let fs ← get
  let parentPath ← orReply (fs.pathForIno parent) .enoent
  let name ← orReply (fromUtf8 name) .einval
  let child := childPath parentPath name
  match DbPath.parse child with
  | .error _ => replyError .enoent
  | .ok path =>
    let parentDb := match DbPath.parse parentPath with
      | .ok p => p
      | .error _ => DbPath.root
    let val ← valueAt parentDb
    match val.bind (fun v => projectChildValue hasher v name) with
    | some v =>
      let ino ← inoForPath child
      return attrFor floatText ino .value (some v)
    | none =>
      match ← getEntry path with
      | .ok entry =>
        let ino ← inoForPath child
        return attrFor floatText ino entry.kind entry.value
      | .error _ => replyError .enoent

end Fuse
end AlefsDb
