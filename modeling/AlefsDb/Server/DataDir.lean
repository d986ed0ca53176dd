import AlefsDb.Lib.Runs
import AlefsDb.Namespace.Updates
import AlefsDb.Server.Handle

/-!
# A directory and the process that works on it

A process opens the database of a directory and updates it, over and over. Each file operation of a commit or of a compaction can
fail, and the process can be killed in it; the next process opens the directory again. What callers have been told is kept beside
the directory.
-/

namespace AlefsDb
namespace Database

/-- The commits of a method over a durable store. -/
def commitAll : List Write → HandleM Unit
  | [] => return ()
  | w :: ws => do
    commitBatch w
    commitAll ws

end Database

/-- What the caller of an update has been told. -/
inductive Told where
  | ok
  | refused (e : Failure NsError)
  | failed (e : StorageError)
  | nothing

/-- What an update may have done, from what its caller has been told: where a commit has been stopped, some of its commits. -/
def Update.Leads (u : Update) : Told → Database → Database → Prop
  | .ok, db, db' => u.run db = .ok () db'
  | .refused e, db, db' => u.run db = .error e db'
  | _, db, db' => ∃ k, Database.writeAll (u.writes.take k) db = .ok () db'

/-- The databases that updates can have led to, from what their callers have been told. -/
inductive Explains : List (Update × Told) → Database → Prop where
  | opened : Explains [] Database.opened
  | snoc {history : List (Update × Told)} {u : Update} {told : Told} {db db' : Database} :
      Explains history db → u.Leads told db db' → Explains (history ++ [(u, told)]) db'

/-- What a process has in memory: perhaps not what the files hold, after a commit that failed; what an open has loaded; or that
after a compaction that completed, and the commits that have succeeded since. -/
inductive Standing where
  | stale
  | loaded
  | compacted
  deriving DecidableEq, Repr

/-- A directory, the store of the process that has it open, and the updates with what their callers have been told. -/
structure DataDir where
  files : Files
  handle : Option WalStorage
  standing : Standing
  history : List (Update × Told)

/-- What the process does, with the outcomes of its file operations. -/
inductive DataAct where
  | openDb (script : List Outcome)
  | update (u : Update) (script : List Outcome)
  | compact (script : List Outcome)
  | setAutoCompactThreshold (bytes : Nat)

namespace DataDir

/-- An empty directory. -/
def init : DataDir :=
  { files := { wal := none, checkpoint := none, tmp := none }, handle := none, standing := .stale, history := [] }

/-- A directory that has been opened once. -/
def created : DataDir := { init with files := (AlefsDb.openDb init.files).2 }

/-- An open, which ends the process that had the directory open before. -/
def openDb (s : DataDir) (script : List Outcome) : DataDir :=
  match WalStorage.openDir s.files with
  | .error _ => { s with handle := none, standing := .stale }
  | .ok (storage, files) =>
    match openDatabase ⟨storage, files, script⟩ with
    | .ok () d => { s with files := d.files, handle := some d.storage, standing := .loaded }
    | .error _ d => { s with files := d.files, handle := none, standing := .stale }

/-- An update by the process that has the store `h`. -/
def update (s : DataDir) (h : WalStorage) (u : Update) (script : List Outcome) : DataDir :=
  match Database.commitAll u.writes ⟨h, s.files, script⟩ with
  | .ok () d => { s with files := d.files, handle := some d.storage, history := s.history ++ [(u, .ok)] }
  | .error (.refused e) d => { s with files := d.files, handle := some d.storage, history := s.history ++ [(u, .refused e)] }
  | .error (.storage (.err e)) d =>
    { files := d.files, handle := some d.storage, standing := .stale, history := s.history ++ [(u, .failed e)] }
  | .error (.storage .killed) d =>
    { files := d.files, handle := none, standing := .stale, history := s.history ++ [(u, .nothing)] }

/-- A compaction by the process that has the store `h`. -/
def compact (s : DataDir) (h : WalStorage) (script : List Outcome) : DataDir :=
  match WalStorage.compact ⟨h, s.files, script⟩ with
  | .ok () d => { s with files := d.files, handle := some d.storage, standing := .compacted }
  | .error (.err _) d => { s with files := d.files, handle := some d.storage, standing := .loaded }
  | .error .killed d => { s with files := d.files, handle := none, standing := .stale }

def step (s : DataDir) : DataAct → Option DataDir
  | .openDb script => some (s.openDb script)
  | .update u script => s.handle.map (fun h => s.update h u script)
  | .compact script => s.handle.map (fun h => s.compact h script)
  | .setAutoCompactThreshold bytes => s.handle.map (fun h => { s with handle := some { h with autoCompactThreshold := bytes } })

/-- An open loads the map. -/
def Loaded (s : DataDir) (map : Rows) : Prop := ∃ h files, WalStorage.openDir s.files = .ok (h, files) ∧ h.map = map

/-- The last row that the first open of a directory commits is there. -/
def Created (s : DataDir) : Prop := ∃ map, s.Loaded map ∧ map.get metaTypeIndexVersion = some Database.indexVersion

/-- An open succeeds, and shows a database that the updates can have led to. -/
def Recovers (s : DataDir) : Prop :=
  ∃ h files, AlefsDb.openDb s.files = (some h, files) ∧ Explains s.history h.database

end DataDir
end AlefsDb
