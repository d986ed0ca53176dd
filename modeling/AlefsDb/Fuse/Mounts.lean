import AlefsDb.Fuse.Dirs

/-!
# What every request keeps

A request changes the database as commands do, and an inode that has been given keeps its path.
-/

namespace AlefsDb
namespace Fuse

/-- The database is one that commands lead to, the inodes that have been given are below the next one, and the two tables of inodes
agree. -/
structure Sound (fs : AlefsFs) : Prop where
  reached : Database.Reached (fun _ => True) fs.db
  below : ∀ ino text, fs.inoToPath ino = some text → ino.toNat < fs.nextIno.toNat
  tables : ∀ ino text, fs.inoToPath ino = some text ↔ fs.pathToIno text = some ino

/-- The next inode has no path yet. -/
theorem Sound.next_free {fs : AlefsFs} (h : Sound fs) : fs.inoToPath fs.nextIno = none := by
  cases hnext : fs.inoToPath fs.nextIno with
  | none => rfl
  | some text => exact absurd (h.below _ _ hnext) (Nat.lt_irrefl _)

/-- A path without an inode gets the next one. -/
theorem Sound.tables_update {fs : AlefsFs} (h : Sound fs) {path : String} (hpath : fs.pathToIno path = none) (ino : UInt64) (text : String) :
    Function.update fs.inoToPath fs.nextIno (some path) ino = some text ↔
      Function.update fs.pathToIno path (some fs.nextIno) text = some ino := by
  by_cases hino : ino = fs.nextIno
  · by_cases htext : text = path
    · simp [hino, htext]
    · have hother : fs.pathToIno text ≠ some ino := by
        intro he
        have hnext := (h.tables ino text).mpr he
        rw [hino, h.next_free] at hnext
        cases hnext
      simp [hino, htext, Ne.symm htext, hino ▸ hother]
  · by_cases htext : text = path
    · have hother : fs.inoToPath ino ≠ some path := by
        intro he
        have hold := (h.tables ino path).mp he
        rw [hpath] at hold
        cases hold
      simp [hino, htext, hother, Ne.symm hino]
    · simp [hino, htext, h.tables ino text]

/-- A file system after another one: sound, with the inodes of the other. -/
structure Follows (fs s : AlefsFs) : Prop where
  sound : Sound s
  inodes : ∀ ino text, fs.inoToPath ino = some text → s.inoToPath ino = some text

theorem Follows.refl {fs : AlefsFs} (h : Sound fs) : Follows fs fs := ⟨h, fun _ _ hino => hino⟩

/-- The computation keeps what follows a file system, whether it returns or stops. -/
def Follows.Kept (fs : AlefsFs) {α : Type} (x : FsM α) : Prop := Triple (Follows fs) x (fun _ => Follows fs) (fun _ => Follows fs)

namespace Follows

variable {fs : AlefsFs} {α β : Type}

/-- A callback that does nothing keeps a mount sound. -/
theorem kept_pure (a : α) : Kept fs (pure a : FsM α) := Triple.pure (fun _ hs => hs)

theorem kept_throw (e : Failure Errno) : Kept fs (throw e : FsM α) := Triple.throw (fun _ hs => hs)

/-- Callbacks that keep a mount sound do so one after the other. -/
theorem kept_bind {x : FsM α} {f : α → FsM β} (hx : Kept fs x) (hf : ∀ a, Kept fs (f a)) : Kept fs (x >>= f) := Triple.bind hx hf

/-- The state is read, and it follows. -/
theorem kept_get {f : AlefsFs → FsM β} (hf : ∀ s, Follows fs s → Kept fs (f s)) : Kept fs (get >>= f) :=
  fun s hs => hf s hs s hs

/-- A mount that follows another may be put in its place. -/
theorem kept_set {s : AlefsFs} (hs : Follows fs s) : Kept fs (set s : FsM PUnit) := fun _ _ => hs

theorem kept_ite {c : Prop} [Decidable c] {x y : FsM α} (hx : c → Kept fs x) (hy : ¬c → Kept fs y) : Kept fs (if c then x else y) :=
  Triple.ite hx hy

theorem kept_orReply (o : Option α) (e : Errno) : Kept fs (orReply o e) := by
  cases o with
  | some a => exact kept_pure a
  | none => exact kept_throw _

/-- Only the bytes that are not committed differ. -/
theorem of_dirty {s : AlefsFs} (hs : Follows fs s) (dirty : UInt64 → Option Bytes) : Follows fs { s with dirty := dirty } :=
  ⟨⟨hs.sound.reached, hs.sound.below, hs.sound.tables⟩, hs.inodes⟩

/-- A reachable database may be put in the place of that of a mount. -/
theorem of_db {s : AlefsFs} (hs : Follows fs s) {db : Database} (hdb : Database.Reached (fun _ => True) db) :
    Follows fs { s with db := db } :=
  ⟨⟨hdb, hs.sound.below, hs.sound.tables⟩, hs.inodes⟩

/-- A method that only reads keeps a mount sound. -/
theorem kept_read (method : Database → Rust NsError α) : Kept fs (withDb (Database.read method)) := by
  intro s hs
  unfold withDb Database.read
  cases method s.db with
  | ok a => exact hs
  | error e => cases e <;> exact hs

/-- A command on the database. -/
theorem kept_command (c : Command) : Kept fs (withDb c.run) := by
  intro s hs
  have hreached : Database.Reached (fun _ => True) (Database.left (c.run s.db)) := by
    obtain ⟨cmds, hrun⟩ := hs.sound.reached
    exact ⟨cmds ++ [c], hrun.snoc trivial rfl⟩
  unfold withDb
  cases hrun : c.run s.db with
  | ok a db =>
    rw [hrun] at hreached
    exact hs.of_db hreached
  | error e db =>
    rw [hrun] at hreached
    cases e <;> exact hs.of_db hreached

theorem kept_getEntry (path : DbPath) : Kept fs (getEntry path) := kept_read _

theorem kept_valueAt (path : DbPath) : Kept fs (valueAt path) := by
  refine kept_bind (kept_getEntry path) (fun r => ?_)
  cases r <;> exact kept_pure _

/-- A new inode is the next one. -/
theorem kept_inoForPath (path : String) : Kept fs (inoForPath path) := by
  refine kept_get (fun s hs => ?_)
  cases hpath : s.pathToIno path with
  | some ino => exact kept_pure ino
  | none =>
    refine kept_ite (fun hlt => kept_bind (kept_set ⟨⟨hs.sound.reached, ?_, ?_⟩, ?_⟩) (fun _ => kept_pure _)) (fun _ => kept_throw _)
    · intro ino text hino
      have hnext : (s.nextIno + 1).toNat = s.nextIno.toNat + 1 := by
        rw [UInt64.toNat_add]
        exact Nat.mod_eq_of_lt hlt
      by_cases hsame : ino = s.nextIno
      · rw [hsame, hnext]
        exact Nat.lt_succ_self _
      · rw [hnext]
        exact Nat.lt_succ_of_lt (hs.sound.below ino text ((Function.update_of_ne hsame _ _).symm.trans hino))
    · exact hs.sound.tables_update hpath
    · intro ino text hino
      have hold := hs.inodes ino text hino
      have hne : ino ≠ s.nextIno := fun he => (hs.sound.below ino text hold).ne (congrArg UInt64.toNat he)
      exact (Function.update_of_ne hne _ _).trans hold

/-- A `set` at a path keeps a mount sound. -/
theorem kept_setOrReply (path : DbPath) (value : Value) : Kept fs (setOrReply path value) := by
  refine kept_bind (kept_command (.call (.set path value))) (fun r => ?_)
  cases r with
  | ok a => exact kept_pure _
  | error e => exact kept_throw _

/-! ## The callbacks -/

/-- `lookup` keeps a mount sound. -/
theorem kept_lookup (hasher : Bytes → UInt64) (parent : UInt64) (name : Bytes) : Kept fs (lookup hasher parent name) := by
  refine kept_get (fun s _ => kept_bind (kept_orReply _ _) (fun parentPath => kept_bind (kept_orReply _ _) (fun n => ?_)))
  dsimp only
  cases DbPath.parse (childPath parentPath n) with
  | error e => exact kept_throw _
  | ok path =>
    refine kept_bind (kept_valueAt _) (fun val => kept_ite (fun _ => kept_inoForPath _) (fun _ => ?_))
    refine kept_bind (kept_getEntry path) (fun r => ?_)
    cases r with
    | ok e => exact kept_inoForPath _
    | error e => exact kept_throw _

theorem kept_listedChildren (path : DbPath) (kids : List (String × EntryKind)) : Kept fs (listedChildren path kids) := by
  induction kids with
  | nil => exact kept_pure _
  | cons kid kids ih =>
    refine kept_bind ?_ (fun ft => kept_bind ih (fun rest => kept_pure _))
    unfold childType
    cases kid.2 with
    | directory => exact kept_pure _
    | value =>
      dsimp only
      cases path.join kid.1 with
      | error e => exact kept_throw _
      | ok child =>
        refine kept_bind (kept_valueAt child) (fun v => ?_)
        split <;> exact kept_pure _

theorem kept_entriesBelow (hasher : Bytes → UInt64) (path : DbPath) (entry : Entry) : Kept fs (entriesBelow hasher path entry) := by
  unfold entriesBelow
  cases entry.kind with
  | directory =>
    refine kept_bind (kept_read _) (fun r => ?_)
    cases r with
    | ok kids => exact kept_listedChildren path kids
    | error e => exact kept_pure _
  | value => exact kept_pure _

/-- The inodes that a listing assigns keep a mount sound. -/
theorem kept_addEntries (text : String) (full : DirBuffer) (rest : List ((String × FileType) × Nat)) (reply : List DirEntry) :
    Kept fs (addEntries text full rest reply) := by
  induction rest generalizing reply with
  | nil => exact kept_pure _
  | cons e rest ih => exact kept_bind (kept_inoForPath _) (fun ino => kept_ite (fun _ => kept_pure _) (fun _ => ih _))

/-- `readdir` keeps a mount sound. -/
theorem kept_readdir (hasher : Bytes → UInt64) (ino : UInt64) (offset : Int64) (full : DirBuffer) :
    Kept fs (readdir hasher ino offset full) := by
  refine kept_get (fun s _ => kept_bind (kept_orReply _ _) (fun text => ?_))
  cases DbPath.parse text with
  | error e => exact kept_throw _
  | ok path =>
    refine kept_bind (kept_getEntry path) (fun r => ?_)
    cases r with
    | error e => exact kept_throw _
    | ok entry => exact kept_bind (kept_entriesBelow hasher path entry) (fun below => kept_addEntries _ _ _ _)

/-- `mkdir` keeps a mount sound. -/
theorem kept_mkdir (parent : UInt64) (name : Bytes) : Kept fs (mkdir parent name) := by
  refine kept_get (fun s _ => kept_bind (kept_orReply _ _) (fun parentPath => kept_bind (kept_orReply _ _) (fun n => ?_)))
  dsimp only
  cases DbPath.parse (childPath parentPath n) with
  | error e => exact kept_throw _
  | ok path =>
    refine kept_bind (kept_command (.call (.mkdir path))) (fun r => ?_)
    cases r with
    | ok a => exact kept_inoForPath _
    | error e => exact kept_throw _

/-- A structure is changed, or nothing. -/
theorem kept_setMember (path : DbPath) (value : Value) :
    Kept fs (do
      match ← withDb (Database.set path value) with
      | .ok _ => return true
      | .error _ => return false) := by
  refine kept_bind (kept_command (.call (.set path value))) (fun r => ?_)
  cases r <;> exact kept_pure _

theorem kept_createInHash (parentPath name : String) : Kept fs (createInHash parentPath name) := by
  unfold createInHash
  cases DbPath.parse parentPath with
  | error e => exact kept_pure _
  | ok parentDb =>
    refine kept_bind (kept_valueAt parentDb) (fun val => ?_)
    cases val.bind Value.asHash with
    | none => exact kept_pure _
    | some m => exact kept_setMember _ _

/-- `create` keeps a mount sound. -/
theorem kept_create (parent : UInt64) (name : Bytes) : Kept fs (create parent name) := by
  refine kept_get (fun s _ => kept_bind (kept_orReply _ _) (fun parentPath => kept_bind (kept_orReply _ _) (fun n => ?_)))
  refine kept_bind (kept_createInHash parentPath n) (fun b => kept_ite (fun _ => kept_inoForPath _) (fun _ => ?_))
  cases DbPath.parse (childPath parentPath n) with
  | error e => exact kept_throw _
  | ok path => exact kept_bind (kept_setOrReply path emptyString) (fun _ => kept_inoForPath _)

theorem kept_unlinkMember (hasher : Bytes → UInt64) (parentPath name : String) : Kept fs (unlinkMember hasher parentPath name) := by
  unfold unlinkMember
  cases DbPath.parse parentPath with
  | error e => exact kept_pure _
  | ok parentDb =>
    refine kept_bind (kept_valueAt parentDb) (fun val => ?_)
    cases val.bind (fun v => projectUnlink hasher v name) with
    | none => exact kept_pure _
    | some newVal => exact kept_setMember _ _

/-- `unlink` keeps a mount sound. -/
theorem kept_unlink (hasher : Bytes → UInt64) (parent : UInt64) (name : Bytes) : Kept fs (unlink hasher parent name) := by
  refine kept_get (fun s _ => kept_bind (kept_orReply _ _) (fun parentPath => kept_bind (kept_orReply _ _) (fun n => ?_)))
  refine kept_bind (kept_unlinkMember hasher parentPath n) (fun b => kept_ite (fun _ => kept_pure _) (fun _ => ?_))
  cases DbPath.parse (childPath parentPath n) with
  | error e => exact kept_throw _
  | ok path =>
    refine kept_bind (kept_command (.call (.delete path))) (fun r => ?_)
    cases r with
    | ok a => exact kept_pure _
    | error e => exact kept_throw _

theorem kept_newScalar (existing : Option Value) (data : Bytes) : Kept fs (newScalar existing data) :=
  kept_bind (kept_orReply _ _) (fun _ => kept_orReply _ _)

theorem kept_commitTarget (path : DbPath) (data : Bytes) : Kept fs (commitTarget path data) := by
  refine kept_bind (kept_getEntry path) (fun r => ?_)
  cases r with
  | ok entry => exact kept_bind (kept_newScalar _ _) (fun newS => kept_pure _)
  | error e =>
    refine kept_bind (kept_orReply _ _) (fun parent => kept_bind (kept_orReply _ _) (fun name => ?_))
    refine kept_bind (kept_valueAt parent) (fun val => kept_bind (kept_orReply _ _) (fun m => ?_))
    exact kept_bind (kept_newScalar _ _) (fun newS => kept_pure _)

/-- A commit of pending writes keeps a mount sound. -/
theorem kept_commitDirty (ino : UInt64) : Kept fs (commitDirty ino) := by
  refine kept_get (fun s hs => ?_)
  cases s.dirty ino with
  | none => exact kept_pure _
  | some data =>
    refine kept_bind (kept_set (hs.of_dirty _)) (fun _ => kept_bind (kept_orReply _ _) (fun text => ?_))
    cases DbPath.parse text with
    | error e => exact kept_throw _
    | ok path => exact kept_bind (kept_commitTarget path data) (fun r => kept_setOrReply _ _)

/-- `write` keeps a mount sound. -/
theorem kept_write (ino : UInt64) (offset : Int64) (data : Bytes) : Kept fs (write ino offset data) := by
  refine kept_get (fun s hs => ?_)
  exact kept_ite (fun _ => kept_bind (kept_set (hs.of_dirty _)) (fun _ => kept_pure _))
    (fun _ => kept_bind (kept_set (hs.of_dirty _)) (fun _ => kept_throw _))

/-- Every request. -/
theorem kept_run (hasher : Bytes → UInt64) (r : MountRequest) : Kept fs (r.run hasher) := by
  cases r with
  | lookup parent name => exact kept_bind (kept_lookup hasher parent name) (fun _ => kept_pure _)
  | readdir ino offset full => exact kept_bind (kept_readdir hasher ino offset full) (fun _ => kept_pure _)
  | mkdir parent name => exact kept_bind (kept_mkdir parent name) (fun _ => kept_pure _)
  | create parent name => exact kept_bind (kept_create parent name) (fun _ => kept_pure _)
  | unlink parent name => exact kept_unlink hasher parent name
  | file ino c =>
    cases c with
    | write offset data => exact kept_bind (kept_write ino offset data) (fun _ => kept_pure _)
    | flush => exact kept_commitDirty ino
    | fsync => exact kept_commitDirty ino
  | rpc c => exact kept_bind (kept_command c) (fun _ => kept_pure _)

/-- What a computation leaves follows. -/
theorem of_kept {x : FsM α} (hx : Kept fs x) {s : AlefsFs} (hs : Follows fs s) : Follows fs (AlefsFs.left (x s)) := by
  have h := hx s hs
  cases hrun : x s with
  | ok a s' => rwa [hrun] at h
  | error e s' => rwa [hrun] at h

end Follows

/-- A mounted file system is sound. -/
theorem Mounted.sound {hasher : Bytes → UInt64} {fs : AlefsFs} (h : Mounted hasher fs) : Sound fs := by
  obtain ⟨db, requests, hreached, hrun⟩ := h
  refine hrun.invariant ⟨hreached, ?_, ?_⟩ ?_
  · intro ino text hino
    by_cases hroot : ino = rootIno
    · subst hroot
      exact (show (1 : Nat) < 2 by decide)
    · have hnew : (AlefsFs.new db).inoToPath ino = none := by simp [AlefsFs.new, hroot]
      rw [hnew] at hino
      cases hino
  · intro ino text
    by_cases hino : ino = rootIno
    · simp [AlefsFs.new, hino, Function.update_apply, eq_comm]
    · simp [AlefsFs.new, hino, Function.update_apply, Ne.symm hino]
  · intro s r s' hs _ hstep
    cases hstep
    exact (Follows.of_kept (Follows.kept_run hasher r) (Follows.refl hs)).sound

end Fuse
end AlefsDb
