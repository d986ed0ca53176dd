import AlefsDb.Lemmas.Loads
import AlefsDb.Lemmas.Reached
import AlefsDb.Server.Handle

/-!
# What an opener does to the directory

A commit adds its batch to what the directory holds, whatever the committing store has in memory; only when it compacts does that
take the place of what the directory holds. An open of a directory that has been opened before changes nothing.
-/

namespace AlefsDb

open Wal

/-- The records of a batch and of the checkpoint that may follow fit their length fields, and a store that compacts has in memory
what the directory holds. -/
structure Commits (h : WalStorage) (map : Rows) (ops : List BatchOp) : Prop where
  record : RecordFits ops
  compaction : h.Compacts (encodeCommitRecord ops).length → h.map = map ∧ CheckpointFits (applyOps map ops)

namespace WalStorage

/-- A commit of which every file operation is done adds its batch to what the directory holds. -/
theorem commit_loads {h : WalStorage} {files : Files} {map : Rows} (hl : Loads files map []) {ops : List BatchOp}
    (hc : Commits h map ops) :
    ∃ h' files', commit ⟨ops⟩ ⟨h, files, []⟩ = .ok () ⟨h', files', []⟩ ∧ h'.map = applyOps h.map ops ∧
      Loads files' (applyOps map ops) [] := by
  by_cases hne : ops = []
  · subst hne
    exact ⟨h, files, rfl, rfl, hl⟩
  · have hdone : AllDone 2 (Disk.mk h files []).script := by simp
    have hcommit := commit_done hne hdone
    by_cases hcompacts : h.Compacts (encodeCommitRecord ops).length
    · obtain ⟨hmap, hfit⟩ := hc.compaction hcompacts
      rw [if_pos hcompacts] at hcommit
      obtain ⟨_, d', hd', hscript⟩ := fileOps_compact.done (committed ⟨h, files, []⟩ ops []) (by simp [committed])
      obtain ⟨hl', hmap'⟩ := (compact_loads hfit).of_ok ⟨hl.append hc.record, by rw [committed, hmap]⟩ hd'
      obtain ⟨h', files', script⟩ := d'
      cases (hscript : script = _)
      exact ⟨h', files', hcommit.trans hd', hmap'.trans (by rw [hmap]), hl'⟩
    · rw [if_neg hcompacts] at hcommit
      exact ⟨_, _, hcommit, rfl, hl.append hc.record⟩

end WalStorage

/-! ## Methods -/

/-- A method that has a batch commits it, and leaves files and memory that hold what it leads to. -/
theorem commitBatch_ok (batch : Database → Rust NsError WriteBatch) {h : WalStorage} {files : Files} {map : Rows} {b : WriteBatch}
    (hb : batch h.database = .ok b) (hl : Loads files map []) (hc : Commits h map b.ops) :
    ∃ h' files', commitBatch batch ⟨h, files, []⟩ = .ok () ⟨h', files', []⟩ ∧ h'.map = applyOps h.map b.ops ∧
      Loads files' (applyOps map b.ops) [] := by
  obtain ⟨h', files', hcommit, hmap, hl'⟩ := WalStorage.commit_loads hl hc
  refine ⟨h', files', ?_, hmap, hl'⟩
  simp only [commitBatch, hb, hcommit]

/-- A method that has no batch commits nothing. -/
theorem commitBatch_error {batch : Database → Rust NsError WriteBatch} {d : Disk} {e : Failure NsError}
    (hb : batch d.storage.database = .error e) : commitBatch batch d = .error (.refused e) d := by
  simp only [commitBatch, hb]

/-! ## Opening -/

section Open

variable {files : Files} {map : Rows} {G : Graph} {next : UInt64}

/-- An open of a database that is there commits nothing. -/
theorem openDatabase_there {d : Disk} (hroot : d.storage.map.get (nodeKey rootId) ≠ none) (hnext : d.storage.map.get metaNextId ≠ none)
    (hversion : d.storage.map.get metaTypeIndexVersion = some Database.indexVersion) : openDatabase d = .ok () d := by
  have hbatch : d.storage.database.ensureRootBatch = WriteBatch.new := by
    unfold Database.ensureRootBatch
    exact (if_neg hroot).trans (if_neg hnext)
  have hensure : commitBatch (fun db => .ok db.ensureRootBatch) d = .ok () d := by
    simp only [commitBatch, hbatch]
    rfl
  have hget : (MonadState.get : HandleM Disk) d = .ok d d := rfl
  unfold openDatabase
  refine (bind_of_ok hensure _).trans ((bind_of_ok hget _).trans ?_)
  exact congrFun (if_pos hversion) d

/-- An open of a database that is complete commits nothing. -/
theorem openDatabase_stored {d : Disk} (h : Stores d.storage.map G next) : openDatabase d = .ok () d :=
  openDatabase_there (by simp [h.get_node h.wf.root]) (by simp [h.get_nextId]) ((h.row .indexVersion).mpr rfl)

/-- An open that succeeds. -/
theorem openDb_ok {files' : Files} {storage : WalStorage} {d : Disk} (hdir : WalStorage.openDir files = .ok (storage, files'))
    (hopen : openDatabase ⟨storage, files', []⟩ = .ok () d) : openDb files = (some d.storage, d.files) := by
  simp only [openDb, hdir, hopen]

/-- An open of a directory that has been opened before loads what it holds. -/
theorem openDb_stored (hl : Loads files map []) (h : Stores map G next) :
    ∃ storage files', openDb files = (some storage, files') ∧ storage.map = map ∧ Loads files' map [] := by
  have hdir := openDir_of_loads hl
  exact ⟨_, _, openDb_ok hdir (openDatabase_stored h), rfl, hl.create⟩

end Open

/-! ### An empty directory -/

/-- The batches that the first open of a directory commits: the root, the type index, and its version. -/
def rootOps : List BatchOp :=
  [.put (nodeKey rootId) encodeDirNode, .put metaNextId (encodeId (rootId + 1)),
    .put (typeIndexKey "directory" rootId) (utf8 "/")]

def rebuildOps : List BatchOp :=
  [.delete (typeIndexKey "directory" rootId), .put (typeIndexKey "directory" rootId) (utf8 "/")]

def versionOps : List BatchOp := [.put metaTypeIndexVersion Database.indexVersion]

theorem rebuildBatch_rootOps :
    Database.rebuildBatch ⟨⟨applyOps OrdMap.empty rootOps⟩⟩ = .ok ⟨rebuildOps⟩ := by
  decide +kernel

/-- A new database is what the three commits of a first open lead to. -/
theorem opened_eq_applyAll : Database.opened.store.map = applyAll OrdMap.empty [rootOps, rebuildOps, versionOps] := by
  decide +kernel

/-- The first open of a directory leaves the rows of the database that is opened on an empty store. -/
theorem openDb_init :
    ∃ storage files', openDb { wal := none, checkpoint := none, tmp := none } = (some storage, files') ∧
      storage.map = Database.opened.store.map ∧ Loads files' Database.opened.store.map [] := by
  have hcommits : ∀ (h : WalStorage) (map : Rows) (ops : List BatchOp), h.map = map → RecordFits ops →
      CheckpointFits (applyOps map ops) → Commits h map ops := fun h map ops hmap hr hc => ⟨hr, fun _ => ⟨hmap, hc⟩⟩
  obtain ⟨h₁, files₁, hroot, hmap₁, hl₁⟩ := commitBatch_ok (fun db => .ok db.ensureRootBatch)
    (h := ⟨OrdMap.empty, 0, 8 * 1024 * 1024⟩) (b := ⟨rootOps⟩) rfl loads_empty.create
    (hcommits _ _ _ rfl (by decide +kernel) (by decide +kernel))
  have hdb₁ : h₁.database = ⟨⟨applyOps OrdMap.empty rootOps⟩⟩ := by rw [WalStorage.database, hmap₁]
  obtain ⟨h₂, files₂, hrebuild, hmap₂, hl₂⟩ := commitBatch_ok Database.rebuildBatch (h := h₁) (b := ⟨rebuildOps⟩)
    (hdb₁ ▸ rebuildBatch_rootOps) hl₁
    (hcommits _ _ _ hmap₁ (by decide +kernel) (by decide +kernel))
  obtain ⟨h₃, files₃, hversion, hmap₃, hl₃⟩ := commitBatch_ok
    (fun _ => .ok (WriteBatch.new.put metaTypeIndexVersion Database.indexVersion)) (h := h₂) (b := ⟨versionOps⟩) rfl hl₂
    (hcommits _ _ _ (hmap₂.trans (by rw [hmap₁])) (by decide +kernel) (by decide +kernel))
  have hold : ¬h₁.database.store.get metaTypeIndexVersion = some Database.indexVersion := by
    rw [hdb₁]
    decide +kernel
  have hget : (MonadState.get : HandleM Disk) ⟨h₁, files₁, []⟩ = .ok ⟨h₁, files₁, []⟩ ⟨h₁, files₁, []⟩ := rfl
  have hopen : openDatabase ⟨⟨OrdMap.empty, 0, 8 * 1024 * 1024⟩, { wal := some [], checkpoint := none, tmp := none }, []⟩ =
      .ok () ⟨h₃, files₃, []⟩ := by
    unfold openDatabase
    refine (bind_of_ok hroot _).trans ((bind_of_ok hget _).trans ?_)
    rw [if_neg hold]
    exact (bind_of_ok hrebuild _).trans hversion
  have hall : applyOps (applyOps (applyOps OrdMap.empty rootOps) rebuildOps) versionOps = Database.opened.store.map :=
    opened_eq_applyAll.symm
  exact ⟨h₃, files₃, openDb_ok (openDir_of_loads loads_empty) hopen, by rw [hmap₃, hmap₂, hmap₁, hall], hall ▸ hl₃⟩

/-! ## Calls -/

namespace PathCall

/-- What the call puts at its path. -/
def node : PathCall → Option Node
  | mkdir _ => some .dir
  | set _ v => some (.value v)
  | delete _ => none

variable {G : Graph} {next : UInt64}

/-- The batch of a call is that of its plan. -/
theorem batch_eq {db : Database} (h : Stores db.store.map G next) (c : PathCall) :
    c.batch db = (do
      let ch ← G.plan next c.op
      return ⟨ch.ops next⟩) := by
  cases c with
  | mkdir path =>
    by_cases hroot : path.segments = []
    · have hnone : path.parent = none := by rw [DbPath.parent, if_pos hroot]
      rw [batch, if_pos (by simp [DbPath.isRoot, hroot]), op, Graph.plan, Graph.planMkdir, hnone]
      rfl
    · rw [batch, if_neg (by simpa [DbPath.isRoot] using hroot)]
      exact Database.mkdirBatch_eq h hroot
  | set path v => exact Database.setBatch_eq h path v
  | delete path => exact Database.deleteBatch_eq h path

/-- The plan of a call makes an entry in a directory. -/
structure Creates (G : Graph) (next : UInt64) (c : PathCall) (q : DbPath) (name : String) (i : UInt64) (a : Node) : Prop where
  parent : c.path.parent = some q
  segments : c.path.segments = q.segments ++ [name]
  dir : G q.segments = some (i, .dir)
  absent : G c.path.segments = none
  succ : next.toNat + 1 < 2 ^ 64
  node : c.node = some a

/-- The plan of a call removes an entry with nothing below. -/
structure Removes (G : Graph) (c : PathCall) (q : DbPath) (name : String) (i j : UInt64) (a : Node) : Prop where
  delete : c = .delete c.path
  parent : c.path.parent = some q
  segments : c.path.segments = q.segments ++ [name]
  dir : G q.segments = some (i, .dir)
  there : G c.path.segments = some (j, a)
  typeName : ∃ ty, Database.nodeTypeName a.record = .ok ty
  leaf : a = .dir → ∀ t, G (c.path.segments ++ [t]) = none

/-- `mkdir` plans nothing for the root, and one new directory for another path. -/
theorem plan_mkdir_cases {path : DbPath} {ch : Change} (h : G.planMkdir next path = .ok ch) :
    (path.segments = [] ∧ ch = .nothing) ∨
    ∃ parent name i, Creates G next (.mkdir path) parent name i .dir ∧ ch = .create parent.segments name i .dir := by
  by_cases hroot : path.segments = []
  · have hnone : path.parent = none := by rw [DbPath.parent, if_pos hroot]
    rw [Graph.planMkdir, hnone] at h
    cases h
    exact Or.inl ⟨hroot, rfl⟩
  · obtain ⟨parent, name, hparent, hname, hsegments⟩ := DbPath.split hroot
    rw [Graph.planMkdir, hparent, hname] at h
    rcases Rust.ite_eq_ok h with ⟨-, h⟩ | ⟨hnew, h⟩
    · cases h
    · obtain ⟨i, hi, h⟩ := Rust.bind_eq_ok.mp h
      obtain ⟨_, hnext, h⟩ := Rust.bind_eq_ok.mp h
      cases h
      exact Or.inr ⟨parent, name, i,
        ⟨hparent, hsegments, Graph.parentId_eq_ok hi, Option.not_isSome_iff_eq_none.mp hnew, Graph.succId_eq_ok hnext, rfl⟩, rfl⟩

/-- `set` plans one new value, or a new value in the place of one. -/
theorem plan_set_cases {path : DbPath} {v : Value} {ch : Change} (h : G.planSet next path v = .ok ch) :
    (∃ parent name i, Creates G next (.set path v) parent name i (.value v) ∧ ch = .create parent.segments name i (.value v)) ∨
    ∃ j old ty, G path.segments = some (j, .value old) ∧ Database.nodeTypeName (Node.value old).record = .ok ty ∧
      ch = .replace path.segments j old v := by
  unfold Graph.planSet at h
  split at h
  · rename_i parent name hparent hname
    have hsegments := DbPath.segments_eq hparent hname
    obtain ⟨i, hi, h⟩ := Rust.bind_eq_ok.mp h
    split at h
    · cases h
    · rename_i j old hold
      obtain ⟨w, hw, h⟩ := Rust.bind_eq_ok.mp h
      cases h
      refine Or.inr ⟨j, old, w.typename, hold, ?_, rfl⟩
      rw [Node.record, Database.nodeTypeName, hw]
      rfl
    · rename_i hnew
      obtain ⟨_, hnext, h⟩ := Rust.bind_eq_ok.mp h
      cases h
      exact Or.inl ⟨parent, name, i,
        ⟨hparent, hsegments, Graph.parentId_eq_ok hi, hnew, Graph.succId_eq_ok hnext, rfl⟩, rfl⟩
  · cases h

/-- `delete` plans the removal of one entry. -/
theorem plan_delete_cases (hG : G.WellFormed next) {path : DbPath} {ch : Change} (h : G.planDelete path = .ok ch) :
    ∃ parent name i j a, Removes G (.delete path) parent name i j a ∧ ch = .remove parent.segments name i j a := by
  unfold Graph.planDelete at h
  split at h
  · rename_i parent name hparent hname
    have hsegments := DbPath.segments_eq hparent hname
    split at h
    · rename_i i b j hp hj
      split at h
      · cases h
      · rename_i hempty
        cases h
        obtain ⟨k, hk⟩ := hG.parent (hsegments ▸ hj)
        rw [hk] at hp
        cases hp
        exact ⟨parent, name, i, j, .dir, ⟨rfl, hparent, hsegments, hk, hj, ⟨_, rfl⟩,
          fun _ t => not_ne_iff.mp fun ht => hempty ⟨t, ht⟩⟩, rfl⟩
    · rename_i i b j v hp hj
      obtain ⟨w, hw, h⟩ := Rust.bind_eq_ok.mp h
      cases h
      obtain ⟨k, hk⟩ := hG.parent (hsegments ▸ hj)
      rw [hk] at hp
      cases hp
      have htype : Database.nodeTypeName (Node.value v).record = .ok w.typename := by
        rw [Node.record, Database.nodeTypeName, hw]
        rfl
      exact ⟨parent, name, i, j, .value v, ⟨rfl, hparent, hsegments, hk, hj, ⟨_, htype⟩, by simp⟩, rfl⟩
    · cases h
  · cases h

end PathCall
end AlefsDb
