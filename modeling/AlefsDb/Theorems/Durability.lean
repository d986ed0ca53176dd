import AlefsDb.Lib.Runs
import AlefsDb.Lemmas.Loads

/-!
# Durability over crashes

A directory is opened, batches are committed, and a process is killed in the middle of an append, over and over. As long as no
record is put behind part of another, an open loads exactly the batches whose records were written whole
(`durable_of_clean_appends`). An open ignores the part of a record that a crash left, but it does not cut it off: the next commit is
appended behind it, and the open after that fails (`torn_tail_breaks_open`).
-/

namespace AlefsDb

open Wal

/-- A directory, the process that has it open, and the batches whose records were written whole, in order. -/
structure CrashDir where
  files : Files
  handle : Option WalStorage
  accepted : List (List BatchOp)

/-- What happens to a directory. A crash comes in the append of a commit, when `written` bytes of its record are in the log. -/
inductive CrashAct where
  | openDir
  | commit (ops : List BatchOp)
  | crash (ops : List BatchOp) (written : Nat)

namespace CrashDir

/-- An empty directory that no process has open. -/
def init : CrashDir := { files := { wal := none, checkpoint := none, tmp := none }, handle := none, accepted := [] }

def step (s : CrashDir) : CrashAct → Option CrashDir
  | .openDir =>
    match WalStorage.openDir s.files with
    | .ok (h, files) => some { s with files := files, handle := some h }
    | .error _ => none
  | .commit ops =>
    match s.handle with
    | none => none
    | some h =>
      match WalStorage.commit ⟨ops⟩ ⟨h, s.files, []⟩ with
      | .ok () d => some { files := d.files, handle := some d.storage, accepted := s.accepted ++ [ops] }
      | .error _ _ => none
  | .crash ops written =>
    match s.handle with
    | none => none
    | some h =>
      match WalStorage.commit ⟨ops⟩ ⟨h, s.files, [.killed written]⟩ with
      | .ok () _ => none
      | .error _ d => some {
          files := d.files
          handle := none
          accepted := if (encodeCommitRecord ops).length ≤ written then s.accepted ++ [ops] else s.accepted }

/-- The map that the batches written whole lead to. -/
def expected (s : CrashDir) : Rows := applyAll OrdMap.empty s.accepted

/-- An open of the directory succeeds and loads what the batches written whole lead to; the process at work has that too. -/
def Durable (s : CrashDir) : Prop :=
  (∃ h files, WalStorage.openDir s.files = .ok (h, files) ∧ h.map = s.expected) ∧
  ∀ h, s.handle = some h → h.map = s.expected

/-- The batches are not empty, their records fit their length field, and no commit runs a compaction. -/
def Admissible (s : CrashDir) : CrashAct → Prop
  | .openDir => True
  | .commit ops => ops ≠ [] ∧ RecordFits ops ∧ ∀ h, s.handle = some h → ¬h.Compacts (encodeCommitRecord ops).length
  | .crash ops _ => ops ≠ [] ∧ RecordFits ops

/-- A whole record is appended to a log of whole records only. What a crash leaves may also stand behind part of a record, as
long as replay still ends there then. -/
def AppendsCleanly (s : CrashDir) : CrashAct → Prop
  | .openDir => True
  | .commit _ => LogTail s.files []
  | .crash ops written => LogTail s.files [] ∨
      written < (encodeCommitRecord ops).length ∧ ∃ t, LogTail s.files t ∧ Unread (t ++ (encodeCommitRecord ops).take written)

/-- The files hold what the batches written whole lead to, perhaps with bytes behind them at which replay ends. -/
def Recoverable (s : CrashDir) : Prop :=
  ∃ t, Loads s.files s.expected t ∧ ∀ h, s.handle = some h → h.map = s.expected

/-- A directory that is recoverable is durable. -/
theorem Recoverable.durable {s : CrashDir} (h : s.Recoverable) : s.Durable := by
  obtain ⟨t, hl, hh⟩ := h
  exact ⟨⟨_, _, openDir_of_loads hl, rfl⟩, hh⟩

/-- An open of a recoverable directory. -/
theorem step_openDir {s : CrashDir} {t : Bytes} (hl : Loads s.files s.expected t) :
    s.step .openDir = some { s with
      files := { s.files with wal := some (s.files.wal.getD []) }
      handle := some { map := s.expected, walBytes := (s.files.wal.getD []).length, autoCompactThreshold := 8 * 1024 * 1024 } } := by
  simp [step, openDir_of_loads hl]

/-- A commit without a compaction. -/
theorem step_commit {s : CrashDir} {h : WalStorage} {ops : List BatchOp} (hh : s.handle = some h) (hne : ops ≠ [])
    (hc : ¬h.Compacts (encodeCommitRecord ops).length) :
    s.step (.commit ops) = some {
      files := { s.files with wal := some (s.files.wal.getD [] ++ encodeCommitRecord ops) }
      handle := some { h with walBytes := h.walBytes + (encodeCommitRecord ops).length, map := applyOps h.map ops }
      accepted := s.accepted ++ [ops] } := by
  have hcommit := WalStorage.commit_done hne (d := ⟨h, s.files, []⟩) (allDone_nil 2)
  rw [if_neg hc] at hcommit
  simp [step, hh, hcommit, WalStorage.committed]

/-- A crash in the append of a commit. -/
theorem step_crash {s : CrashDir} {h : WalStorage} {ops : List BatchOp} (written : Nat) (hh : s.handle = some h)
    (hne : ops ≠ []) :
    s.step (.crash ops written) = some {
      files := { s.files with wal := some (s.files.wal.getD [] ++ (encodeCommitRecord ops).take written) }
      handle := none
      accepted := if (encodeCommitRecord ops).length ≤ written then s.accepted ++ [ops] else s.accepted } := by
  have hcommit := WalStorage.commit_append_stop hne (d := ⟨h, s.files, [.killed written]⟩) rfl rfl
  simp [step, hh, hcommit, Outcome.written]

theorem recoverable_init : init.Recoverable :=
  ⟨[], loads_empty, fun _ h => by cases h⟩

/-- A record written whole makes its batch the last of the accepted ones. -/
theorem expected_snoc {s : CrashDir} {files : Files} {handle : Option WalStorage} (ops : List BatchOp) :
    expected { files := files, handle := handle, accepted := s.accepted ++ [ops] } = applyOps s.expected ops :=
  applyAll_snoc _ _ _

/-- Every step that appends cleanly keeps a directory recoverable. -/
theorem recoverable_step {s s' : CrashDir} {a : CrashAct} (hi : s.Recoverable) (hadm : s.Admissible a)
    (hwhole : s.AppendsCleanly a) (hs : s.step a = some s') : s'.Recoverable := by
  obtain ⟨t, hl, hh⟩ := hi
  cases a with
  | openDir =>
    rw [step_openDir hl] at hs
    cases hs
    exact ⟨t, hl.create, fun h e => by cases e; rfl⟩
  | commit ops =>
    obtain ⟨hne, hfit, hc⟩ := hadm
    cases hhandle : s.handle with
    | none => simp [step, hhandle] at hs
    | some h =>
      rw [step_commit hhandle hne (hc h hhandle)] at hs
      cases hs
      obtain rfl := hl.tail_unique hwhole
      refine ⟨[], ?_, ?_⟩
      · rw [expected_snoc]
        exact hl.append hfit
      · rintro h' e
        cases e
        rw [expected_snoc, hh h hhandle]
  | crash ops written =>
    obtain ⟨hne, hfit⟩ := hadm
    cases hhandle : s.handle with
    | none => simp [step, hhandle] at hs
    | some h =>
      rw [step_crash written hhandle hne] at hs
      cases hs
      have hnone : ∀ h' : WalStorage, none = some h' → h'.map = s.expected := fun h' e => by cases e
      rcases hwhole with hwhole | ⟨hw, t', ht', hunread⟩
      · obtain rfl := hl.tail_unique hwhole
        by_cases hw : (encodeCommitRecord ops).length ≤ written
        · -- the record is in the log, though its commit never returned
          rw [if_pos hw, List.take_of_length_le hw]
          refine ⟨[], ?_, fun h' e => by cases e⟩
          rw [expected_snoc]
          exact hl.append hfit
        · rw [if_neg hw]
          exact ⟨_, hl.append_unread (unread_take hfit (Nat.lt_of_not_le hw)), hnone⟩
      · obtain rfl := hl.tail_unique ht'
        rw [if_neg (Nat.not_le_of_lt hw)]
        exact ⟨_, hl.append_unread hunread, hnone⟩

/-- In every run whose appends are all clean, every open succeeds and loads exactly the batches whose commit returned or whose
record was written whole, in order. -/
theorem durable_of_clean_appends {s : CrashDir} {acts : List CrashAct}
    (h : Run step (fun s a => s.Admissible a ∧ s.AppendsCleanly a) init acts s) : s.Durable :=
  (h.invariant recoverable_init (fun _ _ _ hi hg hs => recoverable_step hi hg.1 hg.2 hs)).durable

/-- One key is put under a name of one byte. -/
def putOne : List BatchOp := [.put [107] [118]]

theorem putOne_fits : putOne ≠ [] ∧ RecordFits putOne := ⟨by decide, by decide⟩

/-- A directory on which a process is killed five bytes into its second commit, and which is then opened again. -/
theorem durable_after_crash : ∃ s, Run step (fun s a => s.Admissible a ∧ s.AppendsCleanly a) init
    [.openDir, .commit putOne, .crash putOne 5, .openDir] s ∧ s.Durable := by
  obtain ⟨s₁, hs₁⟩ : ∃ s₁, s₁ = CrashDir.mk ⟨some [], none, none⟩ (some ⟨OrdMap.empty, 0, 8 * 1024 * 1024⟩) [] := ⟨_, rfl⟩
  obtain ⟨s₂, hs₂⟩ : ∃ s₂, s₂ = CrashDir.mk ⟨some (encodeCommitRecord putOne), none, none⟩
    (some ⟨applyOps OrdMap.empty putOne, (encodeCommitRecord putOne).length, 8 * 1024 * 1024⟩) [putOne] := ⟨_, rfl⟩
  have h₁ : init.step .openDir = some s₁ := by
    rw [hs₁]
    exact step_openDir loads_empty
  have hc₁ : ∀ h, s₁.handle = some h → ¬h.Compacts (encodeCommitRecord putOne).length := by
    rw [hs₁]
    rintro _ ⟨⟩
    decide
  have h₂ : s₁.step (.commit putOne) = some s₂ := by
    rw [step_commit (by rw [hs₁]) putOne_fits.1 (hc₁ _ (by rw [hs₁])), hs₁, hs₂]
    simp
  have hwhole₁ : LogTail s₁.files [] := ⟨unread_nil, [], by simp, by simp [hs₁]⟩
  have hwhole₂ : LogTail s₂.files [] :=
    ⟨unread_nil, [putOne], by simpa using putOne_fits.2, by simp [hs₂, logBytes]⟩
  have hrun₂ : Run step (fun s a => s.Admissible a ∧ s.AppendsCleanly a) init [.openDir, .commit putOne] s₂ :=
    Run.cons ⟨trivial, trivial⟩ h₁ (Run.cons ⟨⟨putOne_fits.1, putOne_fits.2, hc₁⟩, hwhole₁⟩ h₂ Run.nil)
  have h₃ := step_crash (s := s₂) 5 (by rw [hs₂]) putOne_fits.1
  have hrun₃ := hrun₂.snoc (by exact ⟨putOne_fits, Or.inl hwhole₂⟩) h₃
  obtain ⟨t, hl, -⟩ := hrun₃.invariant recoverable_init (fun _ _ _ hi hg hs => recoverable_step hi hg.1 hg.2 hs)
  have hrun₄ := hrun₃.snoc (by exact ⟨trivial, trivial⟩) (step_openDir hl)
  exact ⟨_, hrun₄, durable_of_clean_appends hrun₄⟩

/-- A process is killed one byte into its first commit, the directory is opened again, and a batch is committed. Its record
stands behind the byte that the crash left, and the next open fails. -/
theorem torn_tail_breaks_open : ∃ s, Run step Admissible init [.openDir, .crash putOne 1, .openDir, .commit putOne] s ∧
    (∃ e, WalStorage.openDir s.files = Rust.err e) ∧ ¬s.Durable := by
  obtain ⟨s₁, hs₁⟩ : ∃ s₁, s₁ = CrashDir.mk ⟨some [], none, none⟩ (some ⟨OrdMap.empty, 0, 8 * 1024 * 1024⟩) [] := ⟨_, rfl⟩
  obtain ⟨s₂, hs₂⟩ : ∃ s₂, s₂ = CrashDir.mk ⟨some ((encodeCommitRecord putOne).take 1), none, none⟩ none [] := ⟨_, rfl⟩
  obtain ⟨s₃, hs₃⟩ : ∃ s₃, s₃ = CrashDir.mk ⟨some ((encodeCommitRecord putOne).take 1), none, none⟩
    (some ⟨OrdMap.empty, 1, 8 * 1024 * 1024⟩) [] := ⟨_, rfl⟩
  have hlen : (encodeCommitRecord putOne).length = 29 := by decide
  have hloads : Loads s₁.files s₁.expected [] := by
    rw [hs₁]
    exact loads_empty.create
  have h₁ : init.step .openDir = some s₁ := by
    rw [hs₁]
    exact step_openDir loads_empty
  have h₂ : s₁.step (.crash putOne 1) = some s₂ := by
    rw [step_crash 1 (by rw [hs₁]) putOne_fits.1, if_neg (by omega), hs₁, hs₂]
    simp
  have h₃ : s₂.step .openDir = some s₃ := by
    have hl := hloads.append_unread (unread_take putOne_fits.2 (show 1 < _ by omega))
    rw [step_openDir (s := s₂) (t := (encodeCommitRecord putOne).take 1) (by rw [hs₁] at hl; rw [hs₂]; exact hl), hs₂, hs₃]
    simp [hlen, expected]
  have hc₃ : ∀ h, s₃.handle = some h → ¬h.Compacts (encodeCommitRecord putOne).length := by
    rw [hs₃]
    rintro _ ⟨⟩
    decide
  have h₄ := step_commit (s := s₃) (by rw [hs₃]) putOne_fits.1 (hc₃ _ (by rw [hs₃]))
  have hopen : WalStorage.openDir
      { s₃.files with wal := some (s₃.files.wal.getD [] ++ encodeCommitRecord putOne) } =
      Rust.err (.corrupt s!"bad WAL magic at offset {0 + 0}") := by
    have hlen : 9 ≤ ((encodeCommitRecord putOne).take 1 ++ encodeCommitRecord putOne).length := by decide
    have hbad := replayLoop_badMagic 0 OrdMap.empty hlen (by decide)
    simp [WalStorage.openDir, WalStorage.loadBase, WalStorage.replayOver, hs₃, replayWal, hbad]
  refine ⟨_, Run.cons trivial h₁ (Run.cons putOne_fits h₂ (Run.cons trivial h₃
    (Run.cons ⟨putOne_fits.1, putOne_fits.2, hc₃⟩ h₄ Run.nil))), ⟨_, hopen⟩, ?_⟩
  rintro ⟨⟨h, files, hok, -⟩, -⟩
  rw [hopen] at hok
  exact absurd hok (Rust.err_ne_ok _ _)

end CrashDir
end AlefsDb
