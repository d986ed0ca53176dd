import AlefsDb.Lemmas.Recovery

/-!
# Recovery

Whatever file operation a process is killed in or fails at, the next open succeeds and shows what callers have been told: the
updates that succeeded, one after the other, those in doubt up to one of their commits. This holds as long as every update and
every compaction is made in step, the updates behind whole records, and both from a memory that is what an open would load
(`recovers_in_step`). It holds too of processes that update only after a compaction of their own, and neither update nor compact
after a commit of theirs has failed (`recovers_compacted`).
-/

namespace AlefsDb

open Wal Database

namespace DataDir

/-- The records and the checkpoints fit their length fields. -/
def Fits (s : DataDir) : DataAct → Prop
  | .update u _ => ∀ h, s.handle = some h → WritesFit u.writes h.database
  | .compact _ => ∀ h, s.handle = some h → CheckpointFits h.map
  | _ => True

/-- Updates are made behind whole records, and updates and compactions from a memory that is what an open would load. An open
commits only where the last row of the first open is missing. -/
def ActsInStep (s : DataDir) : DataAct → Prop
  | .openDb _ => s.Created ∨ LogTail s.files []
  | .update _ _ => LogTail s.files [] ∧ ∀ h, s.handle = some h → s.Loaded h.map
  | .compact _ => ∀ h, s.handle = some h → s.Loaded h.map
  | .setAutoCompactThreshold _ => True

/-- Updates are made after a compaction, and neither updates nor compactions after a commit that has failed. -/
def ActsCompacted (s : DataDir) : DataAct → Prop
  | .update _ _ => s.standing = .compacted
  | .compact _ => s.standing ≠ .stale
  | _ => True

/-! ## The first open -/

/-- What is in a directory before its first open has completed. -/
def Unopened (map : Rows) : Prop := map = OrdMap.empty ∨ map = applyOps OrdMap.empty rootOps

/-- Before the first open has completed, the version of the index is missing. -/
theorem unopened_version {map : Rows} (h : Unopened map) : map.get metaTypeIndexVersion ≠ some Database.indexVersion := by
  rcases h with rfl | rfl
  · decide +kernel
  · decide +kernel

/-- The commits of the first open. -/
def openWrites : List Database.Write :=
  [fun db => .ok db.ensureRootBatch, rebuildBatch, fun _ => .ok (WriteBatch.new.put metaTypeIndexVersion Database.indexVersion)]

/-- The rows of the root. -/
def rootRows : Rows := applyOps OrdMap.empty rootOps

/-- The first commit of an open leaves the root. -/
theorem ensureRootBatch_unopened {map : Rows} (h : Unopened map) :
    RecordFits (Database.ensureRootBatch ⟨⟨map⟩⟩).ops ∧ applyOps map (Database.ensureRootBatch ⟨⟨map⟩⟩).ops = rootRows := by
  rcases h with rfl | rfl
  · decide +kernel
  · decide +kernel

theorem rebuildRows : applyOps rootRows rebuildOps = rootRows := by
  decide +kernel

theorem versionRows : (⟨⟨applyOps rootRows versionOps⟩⟩ : Database) = opened := by
  decide +kernel

/-- The commits of the first open, up to any of them. -/
theorem writeAll_openWrites {map : Rows} (h : Unopened map) (k : Nat) :
    ∃ db, writeAll (openWrites.take k) ⟨⟨map⟩⟩ = .ok () db ∧ (Unopened db.store.map ∨ db = opened) ∧
      (openWrites.length ≤ k → db = opened) := by
  have hroot : write (fun db => .ok db.ensureRootBatch) ⟨⟨map⟩⟩ = .ok () ⟨⟨rootRows⟩⟩ := by
    rw [write_of_ok rfl, ← (ensureRootBatch_unopened h).2]
    rfl
  have hrebuild : write rebuildBatch ⟨⟨rootRows⟩⟩ = .ok () ⟨⟨rootRows⟩⟩ :=
    (write_of_ok rebuildBatch_rootOps).trans (congrArg (fun map => EStateM.Result.ok () (Database.mk ⟨map⟩)) rebuildRows)
  have hversion : write (fun _ => .ok (WriteBatch.new.put metaTypeIndexVersion indexVersion)) ⟨⟨rootRows⟩⟩ = .ok () opened :=
    (write_of_ok rfl).trans (congrArg (EStateM.Result.ok ()) versionRows)
  match k with
  | 0 => exact ⟨_, rfl, Or.inl h, fun hk => by cases hk⟩
  | 1 => exact ⟨_, bind_of_ok hroot _, Or.inl (Or.inr rfl), fun hk => by cases hk; contradiction⟩
  | 2 => exact ⟨_, (bind_of_ok hroot _).trans (bind_of_ok hrebuild _), Or.inl (Or.inr rfl), fun hk => absurd hk (by decide)⟩
  | k + 3 =>
    have htake : openWrites.take (k + 3) = openWrites := List.take_of_length_le (by simp [openWrites])
    rw [htake]
    exact ⟨_, (bind_of_ok hroot _).trans ((bind_of_ok hrebuild _).trans (bind_of_ok hversion _)), Or.inr rfl, fun _ => rfl⟩

/-- They fit their length fields. -/
theorem openWrites_fit {map : Rows} (h : Unopened map) : WritesFit openWrites ⟨⟨map⟩⟩ := by
  obtain ⟨hfit, hrows⟩ := ensureRootBatch_unopened h
  have hcommit : MemoryStorage.commit ⟨map⟩ (Database.ensureRootBatch ⟨⟨map⟩⟩) = ⟨rootRows⟩ := congrArg MemoryStorage.mk hrows
  rintro _ ⟨⟩
  refine ⟨hfit, by rw [hrows]; decide +kernel, ?_⟩
  rw [hcommit]
  intro b hb
  obtain rfl := Except.ok.inj (rebuildBatch_rootOps.symm.trans hb)
  have hcommit : MemoryStorage.commit ⟨rootRows⟩ ⟨rebuildOps⟩ = ⟨rootRows⟩ := congrArg MemoryStorage.mk rebuildRows
  refine ⟨by decide +kernel, by rw [rebuildRows]; decide +kernel, ?_⟩
  rw [hcommit]
  rintro _ ⟨⟩
  exact ⟨by decide +kernel, by decide +kernel, trivial⟩

/-- An open of a directory that has not been opened before makes the commits of the first open. -/
theorem openDatabase_unopened {d : Disk} (h : Unopened d.storage.map) : openDatabase d = commitAll openWrites d := by
  unfold openDatabase
  cases hroot : commitBatch (fun db => .ok db.ensureRootBatch) d with
  | error stop d₁ => exact (bind_of_error hroot _).trans (bind_of_error hroot _).symm
  | ok _ d₁ =>
    have hmap : d₁.storage.map = rootRows := (commitBatch_map rfl hroot).trans (ensureRootBatch_unopened h).2
    have hold : ¬d₁.storage.database.store.get metaTypeIndexVersion = some indexVersion := by
      change ¬d₁.storage.map.get metaTypeIndexVersion = some indexVersion
      rw [hmap]
      decide +kernel
    have hget : (MonadState.get : HandleM Disk) d₁ = .ok d₁ d₁ := rfl
    have hrest : commitAll [rebuildBatch, fun _ => .ok (WriteBatch.new.put metaTypeIndexVersion indexVersion)] = (do
        commitBatch rebuildBatch
        commitBatch (fun _ => .ok (WriteBatch.new.put metaTypeIndexVersion indexVersion))) := by
      simp [commitAll]
    have hall : commitAll openWrites d =
        commitAll [rebuildBatch, fun _ => .ok (WriteBatch.new.put metaTypeIndexVersion indexVersion)] d₁ := bind_of_ok hroot _
    refine (bind_of_ok hroot _).trans ((bind_of_ok hget _).trans ((congrFun (if_neg hold) d₁).trans ?_))
    rw [hall, hrest]

/-! ## What the acts lead to -/

/-- What an open finds in the files, and what it has to do with the updates. -/
def Recoverable (s : DataDir) : Prop :=
  ∃ map, Keeps s.files map ∧
    (Unopened map ∧ s.history = [] ∧ s.handle = none ∨ ∃ db, map = db.store.map ∧ Sound db ∧ Explains s.history db)

/-- A directory that is recoverable recovers. -/
theorem Recoverable.recovers {s : DataDir} (h : s.Recoverable) : s.Recovers := by
  obtain ⟨map, ⟨t, hl⟩, ⟨hunopened, hhistory, -⟩ | ⟨db, rfl, ⟨G, next, hstores⟩, hexplains⟩⟩ := h
  · have hdir := openDir_of_loads hl
    obtain ⟨db, hwrites, -, hdb⟩ := writeAll_openWrites hunopened openWrites.length
    rw [List.take_length] at hwrites
    obtain rfl := hdb le_rfl
    obtain ⟨h₀, hh₀⟩ : ∃ h₀, h₀ = WalStorage.mk map (s.files.wal.getD []).length (8 * 1024 * 1024) := ⟨_, rfl⟩
    rw [← hh₀] at hdir
    have hmap : h₀.map = map := by rw [hh₀]
    obtain ⟨h, files, hdb, hcommits⟩ := commitAll_eq openWrites (h := h₀) { s.files with wal := some (s.files.wal.getD []) }
    have hopened : writeAll openWrites h₀.database = .ok () opened := by rw [WalStorage.database, hmap, hwrites]
    rw [hopened] at hdb hcommits
    refine ⟨h, files, openDb_ok hdir ((openDatabase_unopened (hmap.symm ▸ hunopened)).trans hcommits), ?_⟩
    rw [hhistory, hdb]
    exact Explains.opened
  · exact ⟨_, _, openDb_ok (openDir_of_loads hl) (openDatabase_stored hstores), hexplains⟩

/-- An update that is made in step. -/
theorem update_cases {s : DataDir} {h : WalStorage} {u : Update} {db : Database} (hl : Loads s.files db.store.map [])
    (hm : h.map = db.store.map) (hsound : Sound db) (hexplains : Explains s.history db) (hfit : WritesFit u.writes db)
    (script : List Outcome) : ∃ db', Sound db' ∧ Explains (s.update h u script).history db' ∧
      Keeps (s.update h u script).files db'.store.map ∧
      ((s.update h u script).standing = .stale ∨ (s.update h u script).standing = s.standing ∧
        ∃ h', (s.update h u script).handle = some h' ∧ h'.map = db'.store.map ∧
          Loads (s.update h u script).files db'.store.map []) := by
  have hcommits := commitAll_recovers hfit ⟨h, s.files, script⟩ ⟨hl, hm⟩
  unfold update
  cases hr : commitAll u.writes ⟨h, s.files, script⟩ with
  | ok _ d =>
    rw [hr] at hcommits
    obtain ⟨db', hwrites, hd⟩ := hcommits
    have hsound' := hsound.writeAll u.writes (fun w hw => hw)
    rw [hwrites] at hsound'
    rw [← Update.run_eq] at hwrites
    exact ⟨db', hsound', hexplains.snoc hwrites, ⟨[], hd.1⟩, Or.inr ⟨rfl, _, rfl, hd.2, hd.1⟩⟩
  | error stop d =>
    rw [hr] at hcommits
    cases stop with
    | refused e =>
      obtain ⟨db', hwrites, hd⟩ := hcommits
      have hsound' := hsound.writeAll u.writes (fun w hw => hw)
      rw [hwrites] at hsound'
      rw [← Update.run_eq] at hwrites
      exact ⟨db', hsound', hexplains.snoc hwrites, ⟨[], hd.1⟩, Or.inr ⟨rfl, _, rfl, hd.2, hd.1⟩⟩
    | storage stop =>
      obtain ⟨k, db', hwrites, hkeeps⟩ := hcommits
      have hsound' := hsound.writeAll (u.writes.take k) (fun w hw => List.mem_of_mem_take hw)
      rw [hwrites] at hsound'
      cases stop with
      | err e =>
        have hleads : u.Leads (.failed e) db db' := ⟨k, hwrites⟩
        exact ⟨db', hsound', hexplains.snoc hleads, hkeeps, Or.inl rfl⟩
      | killed =>
        have hleads : u.Leads .nothing db db' := ⟨k, hwrites⟩
        exact ⟨db', hsound', hexplains.snoc hleads, hkeeps, Or.inl rfl⟩

/-- A compaction of what an open would load. -/
theorem compact_cases {s : DataDir} {h : WalStorage} {map : Rows} (hkeeps : Keeps s.files map) (hm : h.map = map)
    (hfit : CheckpointFits map) (script : List Outcome) :
    (s.compact h script).history = s.history ∧ Keeps (s.compact h script).files map ∧
      (∀ h', (s.compact h script).handle = some h' → h'.map = map) ∧
      ((s.compact h script).standing = .compacted → Loads (s.compact h script).files map []) := by
  have hcompact := WalStorage.compact_heals hfit ⟨h, s.files, script⟩ ⟨hkeeps, hm⟩
  unfold compact
  cases hr : WalStorage.compact ⟨h, s.files, script⟩ with
  | ok _ d =>
    rw [hr] at hcompact
    exact ⟨rfl, ⟨[], hcompact.1⟩, fun h' e => by cases e; exact hcompact.2, fun _ => hcompact.1⟩
  | error stop d =>
    rw [hr] at hcompact
    cases stop with
    | err e => exact ⟨rfl, hcompact.1, (fun h' e => by cases e; exact hcompact.2), fun hs => by cases hs⟩
    | killed => exact ⟨rfl, hcompact.1, (fun h' e => by cases e), fun hs => by cases hs⟩

/-- An open of a directory that has been opened before. -/
theorem openDb_created {s : DataDir} {db : Database} {t : Bytes} (hl : Loads s.files db.store.map t) (hsound : Sound db)
    (script : List Outcome) : s.openDb script = { s with
      files := { s.files with wal := some (s.files.wal.getD []) }
      handle := some { map := db.store.map, walBytes := (s.files.wal.getD []).length, autoCompactThreshold := 8 * 1024 * 1024 }
      standing := .loaded } := by
  obtain ⟨G, next, hstores⟩ := hsound
  have hopen := openDatabase_stored (d := ⟨{ map := db.store.map
                                             walBytes := (s.files.wal.getD []).length
                                             autoCompactThreshold := 8 * 1024 * 1024 },
    { s.files with wal := some (s.files.wal.getD []) }, script⟩) hstores
  simp only [openDb, openDir_of_loads hl, hopen]

/-- An open that succeeds. -/
theorem openDb_eq {s : DataDir} {h : WalStorage} {files : Files} (hopen : AlefsDb.openDb s.files = (some h, files)) :
    s.openDb [] = { s with files := files, handle := some h, standing := .loaded } := by
  unfold AlefsDb.openDb at hopen
  cases hdir : WalStorage.openDir s.files with
  | error e =>
    simp only [hdir] at hopen
    cases hopen
  | ok pair =>
    obtain ⟨storage, files'⟩ := pair
    simp only [hdir] at hopen
    cases hdatabase : openDatabase ⟨storage, files', []⟩ with
    | ok _ d =>
      simp only [hdatabase] at hopen
      cases hopen
      simp only [openDb, hdir, hdatabase]
    | error stop d =>
      simp only [hdatabase] at hopen
      cases hopen

/-- An open of a directory that has not been opened before, and whose log has whole records only. -/
theorem openDb_unopened {s : DataDir} {map : Rows} (hl : Loads s.files map []) (hunopened : Unopened map)
    (hhistory : s.history = []) (script : List Outcome) : (s.openDb script).Recoverable := by
  obtain ⟨d₀, hd₀⟩ : ∃ d₀ : Disk, d₀ = ⟨⟨map, (s.files.wal.getD []).length, 8 * 1024 * 1024⟩,
    { s.files with wal := some (s.files.wal.getD []) }, script⟩ := ⟨_, rfl⟩
  have hm : d₀.storage.map = map := by rw [hd₀]
  have hcommits := commitAll_recovers (openWrites_fit hunopened) d₀ ⟨by rw [hd₀]; exact hl.create, hm⟩
  have hsound : Sound opened := ⟨_, _, opened_stores⟩
  unfold openDb
  simp only [openDir_of_loads hl, ← hd₀, openDatabase_unopened (show Unopened d₀.storage.map from hm.symm ▸ hunopened)]
  cases hr : commitAll openWrites d₀ with
  | ok _ d =>
    rw [hr] at hcommits
    obtain ⟨db, hwrites, hd⟩ := hcommits
    obtain ⟨db', hwrites', -, hdb'⟩ := writeAll_openWrites hunopened openWrites.length
    rw [List.take_length, hwrites] at hwrites'
    cases hwrites'
    obtain rfl := hdb' le_rfl
    exact ⟨_, ⟨[], hd.1⟩, Or.inr ⟨opened, rfl, hsound, hhistory ▸ Explains.opened⟩⟩
  | error stop d =>
    rw [hr] at hcommits
    cases stop with
    | refused e =>
      obtain ⟨db, hwrites, -⟩ := hcommits
      obtain ⟨db', hwrites', -⟩ := writeAll_openWrites hunopened openWrites.length
      rw [List.take_length, hwrites] at hwrites'
      cases hwrites'
    | storage stop =>
      obtain ⟨k, db, hwrites, hkeeps⟩ := hcommits
      obtain ⟨db', hwrites', hdb', -⟩ := writeAll_openWrites hunopened k
      rw [hwrites] at hwrites'
      cases hwrites'
      refine ⟨_, hkeeps, ?_⟩
      rcases hdb' with hdb' | rfl
      · exact Or.inl ⟨hdb', hhistory, rfl⟩
      · exact Or.inr ⟨opened, rfl, hsound, hhistory ▸ Explains.opened⟩

/-! ## Runs in step -/

/-- An open loads what the files hold. -/
theorem Loaded.eq {s : DataDir} {map map' : Rows} {t : Bytes} (h : s.Loaded map) (hl : Loads s.files map' t) : map = map' := by
  obtain ⟨_, _, hopen, rfl⟩ := h
  rw [openDir_of_loads hl] at hopen
  cases hopen
  rfl

theorem recoverable_init : init.Recoverable :=
  ⟨OrdMap.empty, ⟨[], loads_empty⟩, Or.inl ⟨Or.inl rfl, rfl, rfl⟩⟩

/-- Every act in step keeps a directory recoverable. -/
theorem recoverable_step {s s' : DataDir} {a : DataAct} (hi : s.Recoverable) (hfit : s.Fits a) (hact : s.ActsInStep a)
    (hs : s.step a = some s') : s'.Recoverable := by
  obtain ⟨map, ⟨t, hl⟩, hcases⟩ := hi
  cases a with
  | openDb script =>
    cases hs
    rcases hcases with ⟨hunopened, hhistory, -⟩ | ⟨db, rfl, hsound, hexplains⟩
    · have htail : LogTail s.files [] := hact.resolve_left (by
        rintro ⟨map', hloaded, hversion⟩
        rw [hloaded.eq hl] at hversion
        exact unopened_version hunopened hversion)
      obtain rfl := hl.tail_unique htail
      exact openDb_unopened hl hunopened hhistory script
    · rw [openDb_created hl hsound]
      exact ⟨_, ⟨t, hl.create⟩, Or.inr ⟨db, rfl, hsound, hexplains⟩⟩
  | update u script =>
    obtain ⟨h, hhandle, rfl⟩ := Option.map_eq_some_iff.mp hs
    obtain ⟨htail, hloaded⟩ := hact
    rcases hcases with ⟨-, -, hnone⟩ | ⟨db, rfl, hsound, hexplains⟩
    · rw [hnone] at hhandle
      cases hhandle
    · obtain rfl := hl.tail_unique htail
      have hm := (hloaded h hhandle).eq hl
      have hfit := hfit h hhandle
      rw [WalStorage.database, hm] at hfit
      obtain ⟨db', hsound', hexplains', hkeeps', -⟩ := update_cases hl hm hsound hexplains hfit script
      exact ⟨_, hkeeps', Or.inr ⟨db', rfl, hsound', hexplains'⟩⟩
  | compact script =>
    obtain ⟨h, hhandle, rfl⟩ := Option.map_eq_some_iff.mp hs
    have hm := (hact h hhandle).eq hl
    obtain ⟨hhistory, hkeeps, -⟩ := compact_cases ⟨t, hl⟩ hm (hm ▸ hfit h hhandle) script
    rcases hcases with ⟨-, -, hnone⟩ | ⟨db, rfl, hsound, hexplains⟩
    · rw [hnone] at hhandle
      cases hhandle
    · exact ⟨_, hkeeps, Or.inr ⟨db, rfl, hsound, hhistory.symm ▸ hexplains⟩⟩
  | setAutoCompactThreshold bytes =>
    obtain ⟨h, hhandle, rfl⟩ := Option.map_eq_some_iff.mp hs
    rcases hcases with ⟨-, -, hnone⟩ | hcases
    · rw [hnone] at hhandle
      cases hhandle
    · exact ⟨map, ⟨t, hl⟩, Or.inr hcases⟩

/-- In every run in which updates and compactions are made in step, whatever operation a process is killed in or fails at, the next
open succeeds and shows what callers have been told. -/
theorem recovers_in_step {s : DataDir} {acts : List DataAct} (h : Run step (fun s a => s.Fits a ∧ s.ActsInStep a) init acts s) :
    s.Recovers :=
  (h.invariant recoverable_init (fun _ _ _ hi hg hs => recoverable_step hi hg.1 hg.2 hs)).recovers

/-- The commit of `mkdir` of `/a` in a new database. -/
def mkdirOps : List BatchOp :=
  [.put metaNextId (encodeId 3), .put (nodeKey 2) encodeDirNode, .put (childKey rootId "a") (encodeId 2),
    .put (typeIndexKey "directory" 2) (utf8 "/a")]

/-- The commit of `mkdir` and what follows it fit their length fields. -/
theorem mkdir_fits {h : WalStorage} (hm : h.map = opened.store.map) : WritesFit (Update.call (.mkdir pathA)).writes h.database := by
  have hwrite : (TxnOp.mkdir pathA).write opened = .ok ⟨mkdirOps⟩ := by decide +kernel
  rw [WalStorage.database, hm]
  intro b hb
  obtain rfl := Except.ok.inj (hwrite.symm.trans hb)
  exact ⟨by decide +kernel, by decide +kernel, trivial⟩

/-- A process is killed twenty bytes into the commit of `mkdir`, and the directory is opened again. -/
theorem recovers_after_kill : ∃ s, Run step (fun s a => s.Fits a ∧ s.ActsInStep a) init
    [.openDb [], .update (.call (.mkdir pathA)) [.killed 20], .openDb []] s ∧ s.Recovers := by
  obtain ⟨h, files, hopen, hm, hl⟩ := openDb_init
  obtain ⟨s₁, hs₁⟩ : ∃ s₁, s₁ = DataDir.mk files (some h) .loaded [] := ⟨_, rfl⟩
  have hhandle : s₁.handle = some h := by rw [hs₁]
  have hl₁ : Loads s₁.files opened.store.map [] := by rwa [hs₁]
  have h₁ : init.step (.openDb []) = some s₁ := by
    rw [hs₁]
    exact congrArg some (openDb_eq (s := init) hopen)
  have h₂ : s₁.step (.update (.call (.mkdir pathA)) [.killed 20]) = some (s₁.update h (.call (.mkdir pathA)) [.killed 20]) := by
    rw [step, hhandle]
    rfl
  have hfits := mkdir_fits hm
  have hopened : WritesFit (Update.call (.mkdir pathA)).writes opened := by rwa [WalStorage.database, hm] at hfits
  obtain ⟨db, hsound, -, ⟨t, hl₂⟩, -⟩ := update_cases hl₁ hm ⟨_, _, opened_stores⟩ (hs₁ ▸ Explains.opened) hopened [.killed 20]
  have hcreated : (s₁.update h (.call (.mkdir pathA)) [.killed 20]).Created := by
    obtain ⟨G, next, hstores⟩ := hsound
    exact ⟨_, ⟨_, _, openDir_of_loads hl₂, rfl⟩, (hstores.row .indexVersion).mpr rfl⟩
  have htail : LogTail init.files [] := loads_empty.logTail
  have hloaded : s₁.Loaded h.map := ⟨_, _, openDir_of_loads hl₁, hm.symm⟩
  have hgo : ∀ {h'}, s₁.handle = some h' → h' = h := fun e => (Option.some.inj (hhandle.symm.trans e)).symm
  have hrun : Run step (fun s a => s.Fits a ∧ s.ActsInStep a) init _ _ := Run.cons (by exact ⟨trivial, Or.inr htail⟩) h₁
    (Run.cons (by exact ⟨fun h' e => hgo e ▸ hfits, hl₁.logTail, fun h' e => hgo e ▸ hloaded⟩) h₂
      (Run.cons (a := .openDb []) (by exact ⟨trivial, Or.inl hcreated⟩) rfl Run.nil))
  exact ⟨_, hrun, recovers_in_step hrun⟩

/-! ## Runs with compactions -/

/-- What an open finds is what the updates can have led to, and so is the memory of the process, unless a commit of it has failed;
after a compaction there are whole records only. -/
def Mended (s : DataDir) : Prop :=
  ∃ db, Sound db ∧ Explains s.history db ∧ Keeps s.files db.store.map ∧ ∀ h, s.handle = some h → s.standing ≠ .stale →
    h.map = db.store.map ∧ (s.standing = .compacted → Loads s.files db.store.map [])

/-- A directory that is mended recovers. -/
theorem Mended.recovers {s : DataDir} (h : s.Mended) : s.Recovers := by
  obtain ⟨db, hsound, hexplains, hkeeps, -⟩ := h
  exact Recoverable.recovers ⟨_, hkeeps, Or.inr ⟨db, rfl, hsound, hexplains⟩⟩

/-- A directory that has been opened once holds a new database. -/
theorem loads_created : Loads created.files opened.store.map [] := by
  obtain ⟨storage, files, hopen, -, hl⟩ := openDb_init
  have hfiles : created.files = files := congrArg Prod.snd hopen
  rwa [hfiles]

theorem mended_created : created.Mended :=
  ⟨opened, ⟨_, _, opened_stores⟩, Explains.opened, ⟨[], loads_created⟩, fun h e => by cases e⟩

/-- Every act of a process that compacts first keeps a directory mended. -/
theorem mended_step {s s' : DataDir} {a : DataAct} (hi : s.Mended) (hfit : s.Fits a) (hact : s.ActsCompacted a)
    (hs : s.step a = some s') : s'.Mended := by
  obtain ⟨db, hsound, hexplains, ⟨t, hl⟩, hhandle⟩ := hi
  cases a with
  | openDb script =>
    cases hs
    rw [openDb_created hl hsound]
    refine ⟨db, hsound, hexplains, ⟨t, hl.create⟩, ?_⟩
    rintro _ ⟨⟩ -
    exact ⟨rfl, fun hcompacted => by cases hcompacted⟩
  | update u script =>
    obtain ⟨h, hsome, rfl⟩ := Option.map_eq_some_iff.mp hs
    have hcompacted : s.standing = .compacted := hact
    obtain ⟨hm, hwhole⟩ := hhandle h hsome (by rw [hcompacted]; decide)
    have hfit := hfit h hsome
    rw [WalStorage.database, hm] at hfit
    obtain ⟨db', hsound', hexplains', hkeeps', hstanding⟩ :=
      update_cases (hwhole hcompacted) hm hsound hexplains hfit script
    refine ⟨db', hsound', hexplains', hkeeps', ?_⟩
    intro h' hsome' hfresh
    rcases hstanding with hstale | ⟨-, h'', hsome'', hm'', hl''⟩
    · exact absurd hstale hfresh
    · obtain rfl := Option.some.inj (hsome'.symm.trans hsome'')
      exact ⟨hm'', fun _ => hl''⟩
  | compact script =>
    obtain ⟨h, hsome, rfl⟩ := Option.map_eq_some_iff.mp hs
    obtain ⟨hm, -⟩ := hhandle h hsome hact
    obtain ⟨hhistory, hkeeps, hmap, hcompacted⟩ := compact_cases ⟨t, hl⟩ hm (hm ▸ hfit h hsome) script
    exact ⟨db, hsound, hhistory.symm ▸ hexplains, hkeeps, fun h' hsome' _ => ⟨hmap h' hsome', hcompacted⟩⟩
  | setAutoCompactThreshold bytes =>
    obtain ⟨h, hsome, rfl⟩ := Option.map_eq_some_iff.mp hs
    refine ⟨db, hsound, hexplains, ⟨t, hl⟩, ?_⟩
    rintro _ ⟨⟩ hfresh
    exact hhandle h hsome hfresh

/-- In every run on a directory that has been opened once, in which each process compacts before it updates and is given up when a
commit fails, whatever operation a process is killed in or fails at, the next open succeeds and shows what callers have been
told. -/
theorem recovers_compacted {s : DataDir} {acts : List DataAct}
    (h : Run step (fun s a => s.Fits a ∧ s.ActsCompacted a) created acts s) : s.Recovers :=
  (h.invariant mended_created (fun _ _ _ hi hg hs => mended_step hi hg.1 hg.2 hs)).recovers

/-- A compaction of which every file operation is done. -/
theorem compact_done (s : DataDir) (h : WalStorage) :
    ∃ h' files, s.compact h [] = { s with files := files, handle := some h', standing := .compacted } := by
  obtain ⟨_, d, hcompact, -⟩ := WalStorage.fileOps_compact.done ⟨h, s.files, []⟩ (by simp)
  unfold compact
  rw [hcompact]
  exact ⟨_, _, rfl⟩

/-- A process opens the directory, compacts it and is killed twenty bytes into the commit of `mkdir`, and the directory is opened
again. -/
theorem recovers_after_compaction : ∃ s, Run step (fun s a => s.Fits a ∧ s.ActsCompacted a) created
    [.openDb [], .compact [], .update (.call (.mkdir pathA)) [.killed 20], .openDb []] s ∧ s.Recovers := by
  have h₁ := openDb_created loads_created ⟨_, _, opened_stores⟩ []
  obtain ⟨h, hh⟩ : ∃ h, h = WalStorage.mk opened.store.map (created.files.wal.getD []).length (8 * 1024 * 1024) := ⟨_, rfl⟩
  rw [← hh] at h₁
  obtain ⟨s₁, hs₁⟩ : ∃ s₁, s₁ = created.openDb [] := ⟨_, rfl⟩
  have hhandle₁ : s₁.handle = some h := by rw [hs₁, h₁]
  have hm : h.map = opened.store.map := by rw [hh]
  have hfit : CheckpointFits opened.store.map := by decide +kernel
  have hl₁ : Keeps s₁.files opened.store.map := ⟨[], by rw [hs₁, h₁]; exact loads_created.create⟩
  obtain ⟨h', files, h₂⟩ := compact_done s₁ h
  obtain ⟨-, -, hmap, -⟩ := compact_cases hl₁ hm hfit []
  obtain ⟨s₂, hs₂⟩ : ∃ s₂, s₂ = s₁.compact h [] := ⟨_, rfl⟩
  have hhandle₂ : s₂.handle = some h' := by rw [hs₂, h₂]
  have hm' : h'.map = opened.store.map := hmap h' (by rw [h₂])
  have hstep₁ : created.step (.openDb []) = some s₁ := by rw [step, hs₁]
  have hstep₂ : s₁.step (.compact []) = some s₂ := by
    rw [step, hhandle₁, hs₂]
    rfl
  have hstep₃ : s₂.step (.update (.call (.mkdir pathA)) [.killed 20]) = some (s₂.update h' (.call (.mkdir pathA)) [.killed 20]) := by
    rw [step, hhandle₂]
    rfl
  have hgo₁ : ∀ {h''}, s₁.handle = some h'' → h'' = h := fun e => (Option.some.inj (hhandle₁.symm.trans e)).symm
  have hgo₂ : ∀ {h''}, s₂.handle = some h'' → h'' = h' := fun e => (Option.some.inj (hhandle₂.symm.trans e)).symm
  have hloaded : s₁.standing ≠ .stale := by
    rw [hs₁, h₁]
    exact fun hstale => by cases hstale
  have hcompacted : s₂.standing = .compacted := by rw [hs₂, h₂]
  have hrun : Run step (fun s a => s.Fits a ∧ s.ActsCompacted a) created _ _ := Run.cons
    (by exact ⟨trivial, trivial⟩) hstep₁ (Run.cons (by exact ⟨fun h'' e => by rw [hgo₁ e, hm]; exact hfit, hloaded⟩) hstep₂
      (Run.cons (by exact ⟨fun h'' e => hgo₂ e ▸ mkdir_fits hm', hcompacted⟩) hstep₃
        (Run.cons (a := .openDb []) (by exact ⟨trivial, trivial⟩) rfl Run.nil)))
  exact ⟨_, hrun, recovers_compacted hrun⟩

end DataDir
end AlefsDb
