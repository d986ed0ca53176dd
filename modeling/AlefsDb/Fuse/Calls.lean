import AlefsDb.Fuse.Fs
import AlefsDb.Lemmas.Methods

/-!
# Callbacks one after the other

The callbacks as data, and the file system that one leaves, whatever it replies.
-/

namespace AlefsDb
namespace Fuse

/-- A callback on an inode that writes. -/
inductive FileCall where
  | write (offset : Int64) (data : Bytes)
  | flush
  | fsync

/-- The callback on an inode. -/
def FileCall.run (ino : UInt64) : FileCall → FsM Unit
  | write offset data => do
    let _ ← Fuse.write ino offset data
  | flush => Fuse.flush ino
  | fsync => Fuse.fsync ino

namespace AlefsFs

/-- The file system that a callback leaves. -/
def left {α : Type} : EStateM.Result (Failure Errno) AlefsFs α → AlefsFs
  | .ok _ fs => fs
  | .error _ fs => fs

/-- The file system after callbacks on an inode. -/
def after (fs : AlefsFs) (ino : UInt64) (calls : List FileCall) : AlefsFs := calls.foldl (fun fs c => left (c.run ino fs)) fs

/-- A write into the file system, before it is committed. -/
def withDirty (fs : AlefsFs) (ino : UInt64) (data : Option Bytes) : AlefsFs :=
  { fs with dirty := Function.update fs.dirty ino data }

@[simp] theorem withDirty_db (fs : AlefsFs) (ino : UInt64) (data : Option Bytes) : (fs.withDirty ino data).db = fs.db := rfl

@[simp] theorem withDirty_pathForIno (fs : AlefsFs) (ino : UInt64) (data : Option Bytes) :
    (fs.withDirty ino data).pathForIno = fs.pathForIno :=
  rfl

@[simp] theorem withDirty_dirty_self (fs : AlefsFs) (ino : UInt64) (data : Option Bytes) :
    (fs.withDirty ino data).dirty ino = data := by
  unfold withDirty
  exact Function.update_self ino data fs.dirty

end AlefsFs

/-! ## What the parts of a callback do -/

section Parts

variable {fs : AlefsFs}

theorem get_eq (fs : AlefsFs) : (get : FsM AlefsFs) fs = .ok fs fs := rfl

theorem set_eq (fs fs' : AlefsFs) : (set fs' : FsM PUnit) fs = .ok () fs' := rfl

/-- A value that is there is taken, and no error is replied. -/
theorem orReply_of_some {α : Type} {o : Option α} {a : α} (h : o = some a) (e : Errno) : orReply o e fs = .ok a fs := by
  rw [h]
  rfl

/-- A method that succeeds leaves its database in the mount. -/
theorem withDb_of_ok {α : Type} {method : DbM α} {a : α} {db : Database} (h : method fs.db = .ok a db) :
    withDb method fs = .ok (.ok a) { fs with db := db } := by
  unfold withDb
  rw [h]

/-- A method that fails leaves its database in the mount, and its error to the callback. -/
theorem withDb_of_err {α : Type} {method : DbM α} {e : NsError} {db : Database} (h : method fs.db = .error (.err e) db) :
    withDb method fs = .ok (.error e) { fs with db := db } := by
  unfold withDb
  rw [h]

/-- An entry that is there is read, and the mount stays as it is. -/
theorem getEntry_of_ok {path : DbPath} {e : Entry} (h : fs.db.get path = .ok e) : getEntry path fs = .ok (.ok e) fs :=
  withDb_of_ok (Database.read_of_ok h)

/-- A read that fails gives its error to the callback, and the mount stays as it is. -/
theorem getEntry_of_err {path : DbPath} {e : NsError} (h : fs.db.get path = Rust.err e) :
    getEntry path fs = .ok (.error e) fs :=
  withDb_of_err (Database.read_of_error h)

/-- The value at a path is that of its entry. -/
theorem valueAt_of_ok {path : DbPath} {e : Entry} (h : fs.db.get path = .ok e) : valueAt path fs = .ok e.value fs :=
  bind_of_ok (getEntry_of_ok h) _

/-- A write within the range of a buffer puts the bytes at the offset, with zeros before them where the buffer is shorter. -/
theorem write_eq {ino : UInt64} {offset : Int64} {data : Bytes} (h : offset.toUInt64.toNat + data.length < 2 ^ 63) :
    write ino offset data fs = .ok (UInt32.ofNat data.length) (fs.withDirty ino (some
      (copyFromSlice (resize ((fs.dirty ino).getD []) (offset.toUInt64.toNat + data.length)) offset.toUInt64.toNat data))) := by
  unfold write
  refine (bind_of_ok (get_eq fs) _).trans ?_
  dsimp only
  rw [if_pos h]
  rfl

/-- Where no writes are pending, nothing is committed. -/
theorem commitDirty_of_none {ino : UInt64} (h : fs.dirty ino = none) : commitDirty ino fs = .ok () fs := by
  unfold commitDirty
  refine (bind_of_ok (get_eq fs) _).trans ?_
  dsimp only
  rw [h]
  rfl

variable {ino : UInt64} {data : Bytes} {text : String} {path : DbPath}

/-- Pending writes are committed at the path of the inode, and the buffer is dropped first. -/
theorem commitDirty_of_some (hdirty : fs.dirty ino = some data) (htext : fs.pathForIno ino = some text)
    (hpath : DbPath.parse text = .ok path) :
    commitDirty ino fs = (commitTarget path data >>= fun r => setOrReply r.1 r.2) (fs.withDirty ino none) := by
  unfold commitDirty
  refine (bind_of_ok (get_eq fs) _).trans ?_
  dsimp only
  rw [hdirty]
  refine (bind_of_ok (set_eq _ _) _).trans ((bind_of_ok (orReply_of_some htext _) _).trans ?_)
  rw [hpath]
  rfl

/-- A `set` that succeeds leaves its database in the mount. -/
theorem setOrReply_of_ok {value : Value} {db : Database} (h : Database.set path value fs.db = .ok () db) :
    setOrReply path value fs = .ok () { fs with db := db } :=
  bind_of_ok (withDb_of_ok h) _

/-- Text that the existing scalar's type can read is that scalar. -/
theorem newScalar_of_scalar {existing s : Scalar} (hs : parseScalarText existing data = some s) :
    newScalar (some (.scalar existing)) data fs = .ok s fs :=
  (bind_of_ok (orReply_of_some rfl _) _).trans (orReply_of_some hs _)

/-- Text is committed at the path itself where there is a scalar. -/
theorem commitTarget_of_scalar {entry : Entry} {existing s : Scalar} (hget : fs.db.get path = .ok entry)
    (hvalue : entry.value = some (.scalar existing)) (hs : parseScalarText existing data = some s) :
    commitTarget path data fs = .ok (path, .scalar s) fs := by
  unfold commitTarget
  refine (bind_of_ok (getEntry_of_ok hget) _).trans ?_
  dsimp only
  rw [hvalue]
  exact bind_of_ok (newScalar_of_scalar hs) _

end Parts

end Fuse
end AlefsDb
