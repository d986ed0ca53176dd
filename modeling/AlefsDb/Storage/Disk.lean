import AlefsDb.Lib.Triple
import AlefsDb.Storage.Wal

/-!
# The durable store

`WalStorage` over the three files of its directory. Every file operation of a commit or a compaction is one step that comes out
in one of three ways, which a script says in advance: it is done, it fails (and `?` returns the error), or the process is killed
in it. A write that fails or is killed has written some prefix of its bytes; any other operation that fails or is killed has had
no effect. Operations that are done persist. A script that has run out lets every further operation be done.
-/

namespace AlefsDb

open Wal

/-- The files of a data directory: `wal.log`, `checkpoint.bin` and `checkpoint.bin.tmp`. -/
structure Files where
  wal : Option Bytes
  checkpoint : Option Bytes
  tmp : Option Bytes
  deriving DecidableEq, Repr

/-- How a file operation comes out; a write has then written the first `written` bytes. -/
inductive Outcome where
  | done
  | fails (written : Nat) (message : String)
  | killed (written : Nat)
  deriving DecidableEq, Repr

/-- Why a computation on files stopped before its end. -/
inductive Stop where
  | err (e : StorageError)
  | killed
  deriving DecidableEq, Repr

/-- `WalStorage`, but for the directory and the open log file, which are the `Files` beside it. -/
structure WalStorage where
  map : Rows
  walBytes : Nat
  autoCompactThreshold : Nat
  deriving DecidableEq

namespace Outcome

/-- Why a computation stops at an operation that comes out so. -/
def stop : Outcome → Option Stop
  | done => none
  | fails _ message => some (.err (.io message))
  | killed _ => some .killed

/-- The bytes that a write has written when it is stopped. -/
def written : Outcome → Nat
  | done => 0
  | fails n _ => n
  | killed n => n

theorem stop_eq_none {o : Outcome} : o.stop = none ↔ o = done := by
  cases o <;> simp [stop]

end Outcome

/-- A process at work on its store: the store, the files and the outcomes of the file operations to come. -/
structure Disk where
  storage : WalStorage
  files : Files
  script : List Outcome

/-- A computation of a process on its store. -/
abbrev Fs := EStateM Stop Disk

namespace Fs

/-- One file operation: `whole` is its effect, `part n` what it leaves when it is stopped after `n` bytes. -/
def fileOp (whole : Files → Files) (part : Nat → Files → Files) : Fs Unit := fun d =>
  match d.script with
  | [] => .ok () { d with files := whole d.files }
  | o :: rest =>
    match o.stop with
    | none => .ok () { d with files := whole d.files, script := rest }
    | some e => .error e { d with files := part o.written d.files, script := rest }

/-- An operation with no effect on the content of the files: a sync, a flush, a seek, an open. -/
def noEffect : Fs Unit := fileOp id (fun _ f => f)

/-- `self.wal.write_all(bytes)`: the log is open for appending. -/
def appendWal (bytes : Bytes) : Fs Unit :=
  fileOp (fun f => { f with wal := some (f.wal.getD [] ++ bytes) })
    (fun n f => { f with wal := some (f.wal.getD [] ++ bytes.take n) })

/-- `File::create("checkpoint.bin.tmp")`. -/
def createTmp : Fs Unit := fileOp (fun f => { f with tmp := some [] }) (fun _ f => f)

/-- `f.write_all(bytes)` on the new temporary file. -/
def writeTmp (bytes : Bytes) : Fs Unit :=
  fileOp (fun f => { f with tmp := some bytes }) (fun n f => { f with tmp := some (bytes.take n) })

/-- `fs::rename("checkpoint.bin.tmp", "checkpoint.bin")`. -/
def renameTmp : Fs Unit := fileOp (fun f => { f with checkpoint := f.tmp, tmp := none }) (fun _ f => f)

/-- `self.wal.set_len(0)`. -/
def truncateWal : Fs Unit := fileOp (fun f => { f with wal := some [] }) (fun _ f => f)

/-- An assignment to fields of the store in memory. -/
def modifySelf (f : WalStorage → WalStorage) : Fs Unit := fun d => .ok () { d with storage := f d.storage }

end Fs

namespace WalStorage

open Fs

/-- `if ckpt_path.exists()`: the map and the log offset of the checkpoint, when there is one. -/
def loadBase (files : Files) : Rust StorageError (Rows × Nat) :=
  match files.checkpoint with
  | some buf => loadCheckpoint buf
  | none => .ok (OrdMap.empty, 0)

/-- `if wal_path.exists()`: the log replayed over the map, when there is one. -/
def replayOver (files : Files) (start : Nat) (map : Rows) : Rust StorageError Rows :=
  match files.wal with
  | some log => replayWal log start map
  | none => .ok map

/-- `WalStorage::open`: the checkpoint, the log replayed over it from the checkpoint's offset, and the log file created when it
is missing. -/
def openDir (files : Files) : Rust StorageError (WalStorage × Files) := do
  let (map, start) ← loadBase files
  let map ← replayOver files start map
  let log := files.wal.getD []
  return ({ map := map, walBytes := log.length - start, autoCompactThreshold := 8 * 1024 * 1024 },
    { files with wal := some log })

/-- `write_checkpoint`, to the temporary file. -/
def writeCheckpoint (map : Rows) (walOffset : Nat) : Fs Unit := do
  createTmp
  writeTmp (checkpointBytes map walOffset)
  noEffect -- f.sync_all

/-- `WalStorage::compact`. -/
def compact : Fs Unit := do
  let d ← get
  writeCheckpoint d.storage.map 0
  renameTmp
  noEffect -- self.wal.flush
  truncateWal
  noEffect -- self.wal.seek
  modifySelf (fun s => { s with walBytes := 0 })
  noEffect -- File::open of the checkpoint
  noEffect -- f.sync_all
  noEffect -- self.wal.sync_all

/-- A commit of `record` bytes brings the log to the threshold of an automatic compaction. -/
def Compacts (s : WalStorage) (record : Nat) : Prop :=
  0 < s.autoCompactThreshold ∧ s.autoCompactThreshold ≤ s.walBytes + record

instance (s : WalStorage) (record : Nat) : Decidable (s.Compacts record) := inferInstanceAs (Decidable (_ ∧ _))

/-- `WalStorage::commit`. -/
def commit (batch : WriteBatch) : Fs Unit := do
  if batch.isEmpty then
    return ()
  else
    let record := encodeCommitRecord batch.ops
    appendWal record
    noEffect -- self.wal.sync_data
    modifySelf (fun s => { s with walBytes := s.walBytes + record.length })
    modifySelf (fun s => { s with map := applyOps s.map batch.ops })
    let d ← get
    if d.storage.Compacts 0 then compact else return ()

/-- `WalStorage::get`. -/
def get (s : WalStorage) (key : Bytes) : Option Bytes := s.map.get key

/-- `WalStorage::scan_prefix`. -/
def scanPrefix (s : WalStorage) (pre : Bytes) : List (Bytes × Bytes) := s.map.scanPrefix pre

end WalStorage

/-! ## What the operations do -/

/-- The first `n` operations to come are done. -/
def AllDone (n : Nat) (script : List Outcome) : Prop := ∀ o ∈ script.take n, o = .done

instance (n : Nat) (script : List Outcome) : Decidable (AllDone n script) :=
  inferInstanceAs (Decidable (∀ o ∈ script.take n, o = .done))

@[simp] theorem allDone_nil (n : Nat) : AllDone n [] := by simp [AllDone]

@[simp] theorem allDone_zero (script : List Outcome) : AllDone 0 script := by simp [AllDone]

/-- All operations are done when the first is and the others are. -/
@[simp] theorem allDone_cons (n : Nat) (o : Outcome) (rest : List Outcome) :
    AllDone (n + 1) (o :: rest) ↔ o = .done ∧ AllDone n rest := by
  simp [AllDone]

/-- The first operations are done when the first of them are and those after these are. -/
theorem allDone_add (n m : Nat) (script : List Outcome) :
    AllDone (n + m) script ↔ AllDone n script ∧ AllDone m (script.drop n) := by
  induction n generalizing script with
  | zero => simp
  | succ n ih =>
    cases script with
    | nil => simp
    | cons o rest => rw [Nat.add_right_comm, allDone_cons, allDone_cons, List.drop_succ_cons, ih, and_assoc]

/-- No operation is killed: each is done or fails. -/
def NoKill (script : List Outcome) : Prop := ∀ n, Outcome.killed n ∉ script

theorem NoKill.drop {script : List Outcome} (h : NoKill script) (n : Nat) : NoKill (script.drop n) :=
  fun k hk => h k (List.mem_of_mem_drop hk)

namespace Fs

/-- A file operation that is done. -/
theorem fileOp_done {d : Disk} (whole : Files → Files) (part : Nat → Files → Files) (h : AllDone 1 d.script) :
    fileOp whole part d = .ok () { d with files := whole d.files, script := d.script.drop 1 } := by
  obtain ⟨s, f, script⟩ := d
  cases script with
  | nil => rfl
  | cons o rest =>
    have ho : o = .done := h o (by simp)
    subst ho
    rfl

/-- A file operation that is stopped. -/
theorem fileOp_stop {d : Disk} (whole : Files → Files) (part : Nat → Files → Files) {o : Outcome} {rest : List Outcome}
    {e : Stop} (h : d.script = o :: rest) (ho : o.stop = some e) :
    fileOp whole part d = .error e { d with files := part o.written d.files, script := rest } := by
  simp [fileOp, h, ho]

/-- The outcome of the next file operation: done, or stopped. -/
theorem next_outcome (script : List Outcome) :
    AllDone 1 script ∨ ∃ o rest e, script = o :: rest ∧ o.stop = some e := by
  cases script with
  | nil => exact Or.inl (by simp [AllDone])
  | cons o rest =>
    cases ho : o.stop with
    | none => exact Or.inl (by simp [AllDone, Outcome.stop_eq_none.mp ho])
    | some e => exact Or.inr ⟨o, rest, e, rfl, ho⟩

/-- A file operation returns with its whole effect, or stops with part of it. -/
theorem fileOp_triple {P : Disk → Prop} {whole : Files → Files} {part : Nat → Files → Files} {Q : Unit → Disk → Prop}
    {E : Stop → Disk → Prop}
    (hQ : ∀ d script, P d → Q () { d with files := whole d.files, script := script })
    (hE : ∀ d n e script, P d → E e { d with files := part n d.files, script := script }) :
    Triple P (fileOp whole part) Q E := by
  intro d hd
  rcases next_outcome d.script with hs | ⟨o, rest, e, hscript, ho⟩
  · rw [fileOp_done whole part hs]
    exact hQ d _ hd
  · rw [fileOp_stop whole part hscript ho]
    exact hE d _ _ _ hd

/-- A computation of `n` file operations: it returns when all of them are done and stops otherwise, with an error unless it is
killed. -/
structure FileOps {α : Type} (n : Nat) (x : Fs α) : Prop where
  done : ∀ d, AllDone n d.script → ∃ a d', x d = .ok a d' ∧ d'.script = d.script.drop n
  stopped : ∀ d, ¬AllDone n d.script → ∃ e d', x d = .error e d' ∧ (NoKill d.script → ∃ se, e = .err se)

theorem fileOps_fileOp (whole : Files → Files) (part : Nat → Files → Files) : FileOps 1 (fileOp whole part) := by
  constructor
  · intro d h
    exact ⟨_, _, fileOp_done whole part h, rfl⟩
  · intro d h
    obtain ⟨o, rest, e, hscript, ho⟩ := (next_outcome d.script).resolve_left h
    refine ⟨_, _, fileOp_stop whole part hscript ho, fun hk => ?_⟩
    cases o with
    | done => cases ho
    | fails n message => exact ⟨_, (Option.some.inj ho).symm⟩
    | killed n => exact absurd (by rw [hscript]; exact List.mem_cons_self) (hk n)

/-- A computation without file operations. -/
theorem fileOps_zero {α : Type} {x : Fs α} (h : ∀ d, ∃ a d', x d = .ok a d' ∧ d'.script = d.script) : FileOps 0 x :=
  ⟨fun d _ => by simpa using h d, fun d hn => absurd (allDone_zero d.script) hn⟩

/-- The file operations of computations add up. -/
theorem FileOps.bind {α β : Type} {n m : Nat} {x : Fs α} {f : α → Fs β} (hx : FileOps n x) (hf : ∀ a, FileOps m (f a)) :
    FileOps (n + m) (x >>= f) := by
  constructor
  · intro d h
    obtain ⟨hn, hm⟩ := (allDone_add n m d.script).mp h
    obtain ⟨a, d', hx, hd'⟩ := hx.done d hn
    obtain ⟨b, d'', hf, hd''⟩ := (hf a).done d' (hd' ▸ hm)
    exact ⟨b, d'', (bind_of_ok hx f).trans hf, by rw [hd'', hd', List.drop_drop]⟩
  · intro d h
    by_cases hn : AllDone n d.script
    · obtain ⟨a, d', hx, hd'⟩ := hx.done d hn
      have hm : ¬AllDone m d'.script := fun hm => h ((allDone_add n m d.script).mpr ⟨hn, hd' ▸ hm⟩)
      obtain ⟨e, d'', hf, he⟩ := (hf a).stopped d' hm
      exact ⟨e, d'', (bind_of_ok hx f).trans hf, fun hk => he (hd' ▸ hk.drop n)⟩
    · obtain ⟨e, d', hx, he⟩ := hx.stopped d hn
      exact ⟨e, d', bind_of_error hx f, he⟩

end Fs

namespace WalStorage

open Fs

/-- A compaction is ten file operations. -/
theorem fileOps_compact : FileOps 10 compact := by
  have hop : ∀ whole part, FileOps 1 (fileOp whole part) := fileOps_fileOp
  have hget : FileOps 0 (MonadState.get : Fs Disk) := fileOps_zero (fun d => ⟨d, d, rfl, rfl⟩)
  have hself : ∀ f, FileOps 0 (modifySelf f) := fun f => fileOps_zero (fun d => ⟨(), _, rfl, rfl⟩)
  exact hget.bind fun _ => ((hop _ _).bind fun _ => (hop _ _).bind fun _ => hop _ _).bind fun _ =>
    (hop _ _).bind fun _ => (hop _ _).bind fun _ => (hop _ _).bind fun _ => (hop _ _).bind fun _ =>
    (hself _).bind fun _ => (hop _ _).bind fun _ => (hop _ _).bind fun _ => hop _ _

/-- The process after the append, the sync and the update in memory of a commit. -/
def committed (d : Disk) (ops : List BatchOp) (script : List Outcome) : Disk :=
  { storage := { d.storage with walBytes := d.storage.walBytes + (encodeCommitRecord ops).length
                                map := applyOps d.storage.map ops }
    files := { d.files with wal := some (d.files.wal.getD [] ++ encodeCommitRecord ops) }
    script := script }

/-- What a commit of a nonempty batch does: it is stopped in the append, it is stopped in the sync that follows, or it updates
the map in memory and then compacts, where the log has reached the threshold. -/
theorem commit_cases {ops : List BatchOp} (hne : ops ≠ []) (d : Disk) :
    (∃ o rest e, d.script = o :: rest ∧ o.stop = some e ∧ commit ⟨ops⟩ d = .error e { d with
        files := { d.files with wal := some (d.files.wal.getD [] ++ (encodeCommitRecord ops).take o.written) }
        script := rest }) ∨
    (∃ o rest e, d.script = .done :: o :: rest ∧ o.stop = some e ∧ commit ⟨ops⟩ d = .error e { d with
        files := { d.files with wal := some (d.files.wal.getD [] ++ encodeCommitRecord ops) }
        script := rest }) ∨
    (AllDone 2 d.script ∧ commit ⟨ops⟩ d =
      if d.storage.Compacts (encodeCommitRecord ops).length then compact (committed d ops (d.script.drop 2))
      else .ok () (committed d ops (d.script.drop 2))) := by
  have hempty : (WriteBatch.mk ops).isEmpty = false := by simpa [WriteBatch.isEmpty] using hne
  simp only [commit, hempty, Bool.false_eq_true, if_false]
  rcases next_outcome d.script with happ | ⟨o, rest, e, hscript, ho⟩
  · have happend : appendWal (encodeCommitRecord ops) d = .ok () { d with
        files := { d.files with wal := some (d.files.wal.getD [] ++ encodeCommitRecord ops) }
        script := d.script.drop 1 } :=
      fileOp_done _ _ happ
    right
    rcases next_outcome (d.script.drop 1) with hsync | ⟨o, rest, e, hscript, ho⟩
    · refine Or.inr ⟨(allDone_add 1 1 d.script).mpr ⟨happ, hsync⟩, ?_⟩
      refine (bind_of_ok happend _).trans ?_
      refine (bind_of_ok (fileOp_done _ _ hsync) _).trans ?_
      have hdrop : d.script.drop 2 = (d.script.drop 1).drop 1 := by rw [List.drop_drop]
      rw [hdrop]
      change (if (committed d ops ((d.script.drop 1).drop 1)).storage.Compacts 0 then compact else pure ())
        (committed d ops ((d.script.drop 1).drop 1)) = _
      split <;> rename_i hc
      · exact (if_pos hc).symm
      · exact (if_neg hc).symm
    · refine Or.inl ⟨o, rest, e, ?_, ho, ?_⟩
      · cases hs : d.script with
        | nil => simp [hs] at hscript
        | cons o' rest' =>
          rw [hs, allDone_cons] at happ
          rw [hs] at hscript
          rw [happ.1, ← hscript]
          rfl
      · refine (bind_of_ok happend _).trans ?_
        exact bind_of_error (fileOp_stop _ _ hscript ho) _
  · refine Or.inl ⟨o, rest, e, hscript, ho, ?_⟩
    exact bind_of_error (fileOp_stop _ _ hscript ho) _

/-- A commit whose append and sync are done. -/
theorem commit_done {ops : List BatchOp} (hne : ops ≠ []) {d : Disk} (hdone : AllDone 2 d.script) :
    commit ⟨ops⟩ d = if d.storage.Compacts (encodeCommitRecord ops).length then compact (committed d ops (d.script.drop 2))
      else .ok () (committed d ops (d.script.drop 2)) := by
  rcases commit_cases hne d with ⟨o, rest, e, hs, ho, -⟩ | ⟨o, rest, e, hs, ho, -⟩ | ⟨-, h⟩
  · rw [hs, allDone_cons] at hdone
    rw [hdone.1] at ho
    cases ho
  · rw [hs, allDone_cons, allDone_cons] at hdone
    rw [hdone.2.1] at ho
    cases ho
  · exact h

/-- A commit that is stopped in its append. -/
theorem commit_append_stop {ops : List BatchOp} (hne : ops ≠ []) {d : Disk} {o : Outcome} {rest : List Outcome} {e : Stop}
    (hs : d.script = o :: rest) (ho : o.stop = some e) :
    commit ⟨ops⟩ d = .error e { d with
      files := { d.files with wal := some (d.files.wal.getD [] ++ (encodeCommitRecord ops).take o.written) }
      script := rest } := by
  have hnd : o ≠ .done := fun h => by
    rw [h] at ho
    cases ho
  rcases commit_cases hne d with ⟨o', rest', e', hs', ho', h⟩ | ⟨o', rest', e', hs', -, -⟩ | ⟨hdone, -⟩
  · obtain ⟨rfl, rfl⟩ := List.cons.inj (hs.symm.trans hs')
    obtain rfl := Option.some.inj (ho.symm.trans ho')
    exact h
  · exact absurd (List.cons.inj (hs.symm.trans hs')).1 hnd
  · rw [hs, allDone_cons] at hdone
    exact absurd hdone.1 hnd

end WalStorage

end AlefsDb
