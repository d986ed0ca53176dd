import AlefsDb.Lib.Runs
import AlefsDb.Lemmas.Loads

/-!
# Compaction and the in-memory store

`WalStorage` and `MemoryStorage` receive the same batches. Whatever commits, compactions, reopens and kills in the middle of a
compaction a run consists of, the durable store answers as the one in memory does, before and after an open
(`refines_memory`). A compaction may be stopped in each of its file operations, by a kill or by an error, and the operations
before it persist.
-/

namespace AlefsDb

open Wal

/-- A directory, the process that has it open, and a `MemoryStorage` that receives the same batches. -/
structure MirroredDir where
  files : Files
  handle : Option WalStorage
  mem : MemoryStorage

/-- What happens to a directory. The script of a commit or a compaction says how its file operations come out. -/
inductive MirroredAct where
  | openDir
  | setAutoCompactThreshold (bytes : Nat)
  | commit (ops : List BatchOp) (script : List Outcome)
  | compact (script : List Outcome)

namespace MirroredDir

/-- An empty directory and an empty store in memory. -/
def init : MirroredDir :=
  { files := { wal := none, checkpoint := none, tmp := none }, handle := none, mem := MemoryStorage.new }

/-- A call of the process that has the directory open, beside the store in memory after it: a kill takes the process away, an
error leaves it. -/
def call (files : Files) (h : WalStorage) (x : Fs Unit) (script : List Outcome) (m : MemoryStorage) : MirroredDir :=
  match x ⟨h, files, script⟩ with
  | .ok () d => { files := d.files, handle := some d.storage, mem := m }
  | .error (.err _) d => { files := d.files, handle := some d.storage, mem := m }
  | .error .killed d => { files := d.files, handle := none, mem := m }

def step (s : MirroredDir) : MirroredAct → Option MirroredDir
  | .openDir =>
    match WalStorage.openDir s.files with
    | .ok (h, files) => some { s with files := files, handle := some h }
    | .error _ => none
  | .setAutoCompactThreshold bytes => s.handle.map (fun h => { s with handle := some { h with autoCompactThreshold := bytes } })
  | .commit ops script => s.handle.map (fun h => call s.files h (WalStorage.commit ⟨ops⟩) script (s.mem.commit ⟨ops⟩))
  | .compact script => s.handle.map (fun h => call s.files h WalStorage.compact script s.mem)

/-- Records and checkpoints fit their length fields, and the append and the sync of every commit are done. -/
def Admissible (s : MirroredDir) : MirroredAct → Prop
  | .openDir => True
  | .setAutoCompactThreshold _ => True
  | .commit ops script => RecordFits ops ∧ AllDone 2 script ∧
      ∀ h, s.handle = some h → h.Compacts (encodeCommitRecord ops).length → CheckpointFits (applyOps h.map ops)
  | .compact _ => ∀ h, s.handle = some h → CheckpointFits h.map

/-- A durable store answers every `get` and every `scan_prefix` as a store in memory does. -/
def AnswersAs (h : WalStorage) (m : MemoryStorage) : Prop :=
  (∀ key, h.get key = m.get key) ∧ ∀ pre, h.scanPrefix pre = m.scanPrefix pre

theorem answersAs_of_map_eq {h : WalStorage} {m : MemoryStorage} (hm : h.map = m.map) : AnswersAs h m :=
  ⟨fun key => congrArg (OrdMap.get · key) hm, fun pre => congrArg (OrdMap.scanPrefix · pre) hm⟩

/-- An open succeeds and the store it opens answers as the one in memory; so does the store that is open. -/
def Refines (s : MirroredDir) : Prop :=
  (∃ h files, WalStorage.openDir s.files = .ok (h, files) ∧ AnswersAs h s.mem) ∧
  ∀ h, s.handle = some h → AnswersAs h s.mem

/-- The files hold the map of the store in memory, with whole records only, and so does the open store. -/
def Mirrors (s : MirroredDir) : Prop := Loads s.files s.mem.map [] ∧ ∀ h, s.handle = some h → h.map = s.mem.map

/-- A store that mirrors one in memory refines it. -/
theorem Mirrors.refines {s : MirroredDir} (hm : s.Mirrors) : s.Refines :=
  ⟨⟨_, _, openDir_of_loads hm.1, answersAs_of_map_eq rfl⟩, fun h hh => answersAs_of_map_eq (hm.2 h hh)⟩

/-- A call that leaves the files and the map in step with the store in memory, however it ends, keeps the mirror. -/
theorem mirrors_call {files : Files} {h : WalStorage} {x : Fs Unit} {script : List Outcome} {m : MemoryStorage}
    {P : Disk → Prop} (hd : P ⟨h, files, script⟩)
    (hx : Triple P x (fun _ d => Loads d.files m.map [] ∧ d.storage.map = m.map)
      (fun _ d => Loads d.files m.map [] ∧ d.storage.map = m.map)) : Mirrors (call files h x script m) := by
  have hx := hx _ hd
  unfold call
  cases hr : x ⟨h, files, script⟩ with
  | ok a d =>
    rw [hr] at hx
    exact ⟨hx.1, fun h' e => by cases e; exact hx.2⟩
  | error e d =>
    rw [hr] at hx
    cases e with
    | err e => exact ⟨hx.1, fun h' e => by cases e; exact hx.2⟩
    | killed => exact ⟨hx.1, fun h' e => by cases e⟩

theorem mirrors_init : init.Mirrors := ⟨loads_empty, fun _ h => by cases h⟩

/-- An open of a directory that holds the map in memory. -/
theorem step_openDir {s : MirroredDir} (hl : Loads s.files s.mem.map []) :
    s.step .openDir = some { s with
      files := { s.files with wal := some (s.files.wal.getD []) }
      handle := some { map := s.mem.map, walBytes := (s.files.wal.getD []).length, autoCompactThreshold := 8 * 1024 * 1024 } } := by
  simp [step, openDir_of_loads hl]

/-- Every step keeps the two alike. -/
theorem mirrors_step {s s' : MirroredDir} {a : MirroredAct} (hi : s.Mirrors) (hadm : s.Admissible a)
    (hs : s.step a = some s') : s'.Mirrors := by
  obtain ⟨hl, hh⟩ := hi
  cases a with
  | openDir =>
    rw [step_openDir hl] at hs
    cases hs
    exact ⟨hl.create, fun h e => by cases e; rfl⟩
  | setAutoCompactThreshold bytes =>
    simp only [step, Option.map_eq_some_iff] at hs
    obtain ⟨h, hhandle, rfl⟩ := hs
    exact ⟨hl, fun h' e => by cases e; exact hh h hhandle⟩
  | compact script =>
    simp only [step, Option.map_eq_some_iff] at hs
    obtain ⟨h, hhandle, rfl⟩ := hs
    have hmap := hh h hhandle
    refine mirrors_call ⟨hl, hmap⟩ (WalStorage.compact_loads ?_)
    exact hmap ▸ hadm h hhandle
  | commit ops script =>
    obtain ⟨hfit, hdone, hckpt⟩ := hadm
    simp only [step, Option.map_eq_some_iff] at hs
    obtain ⟨h, hhandle, rfl⟩ := hs
    have hmap := hh h hhandle
    refine mirrors_call (P := fun d => d = ⟨h, s.files, script⟩) rfl ?_
    rintro _ rfl
    by_cases hne : ops = []
    · subst hne
      exact ⟨hl, hmap⟩
    · rw [WalStorage.commit_done hne hdone]
      have hl' : Loads (WalStorage.committed ⟨h, s.files, script⟩ ops (script.drop 2)).files (applyOps h.map ops) [] := by
        rw [hmap]
        exact hl.append hfit
      have hmap' : applyOps h.map ops = (s.mem.commit ⟨ops⟩).map := congrArg (applyOps · ops) hmap
      rw [← hmap']
      by_cases hc : h.Compacts (encodeCommitRecord ops).length
      · rw [if_pos hc]
        exact WalStorage.compact_loads (hckpt h hhandle hc) _ ⟨hl', rfl⟩
      · rw [if_neg hc]
        exact ⟨hl', rfl⟩

/-- In every run of commits, compactions, reopens and kills in the middle of compactions, every open succeeds and the durable
store answers as the store in memory that received the same batches. -/
theorem refines_memory {s : MirroredDir} {acts : List MirroredAct} (h : Run step Admissible init acts s) : s.Refines :=
  (h.invariant mirrors_init (fun _ _ _ hi hg hs => mirrors_step hi hg hs)).refines

/-- A commit ends in a compaction, and the process is killed in it when the checkpoint is in place but the log is not yet
truncated; then the directory is opened again. -/
theorem refines_after_killed_compaction : ∃ s, Run step Admissible init
    [.openDir, .setAutoCompactThreshold 1, .commit [.put [107] [118]] (List.replicate 7 .done ++ [.killed 0]), .openDir] s ∧
    s.Refines := by
  obtain ⟨ops, hops⟩ : ∃ ops, ops = [BatchOp.put [107] [118]] := ⟨_, rfl⟩
  obtain ⟨script, hscript⟩ : ∃ script, script = List.replicate 7 Outcome.done ++ [.killed 0] := ⟨_, rfl⟩
  obtain ⟨s₁, hs₁⟩ : ∃ s₁, s₁ = MirroredDir.mk ⟨some [], none, none⟩ (some ⟨OrdMap.empty, 0, 8 * 1024 * 1024⟩) ⟨OrdMap.empty⟩ :=
    ⟨_, rfl⟩
  obtain ⟨s₂, hs₂⟩ : ∃ s₂, s₂ = MirroredDir.mk ⟨some [], none, none⟩ (some ⟨OrdMap.empty, 0, 1⟩) ⟨OrdMap.empty⟩ := ⟨_, rfl⟩
  have h₁ : init.step .openDir = some s₁ := by
    rw [hs₁]
    exact step_openDir loads_empty
  have h₂ : s₁.step (.setAutoCompactThreshold 1) = some s₂ := by rw [hs₁, hs₂]; rfl
  have hg₃ : s₂.Admissible (.commit ops script) := by
    rw [hs₂, hops, hscript]
    refine ⟨by decide, by decide, ?_⟩
    rintro _ ⟨⟩ -
    decide
  have h₃ : s₂.step (.commit ops script) = some (call s₂.files ⟨OrdMap.empty, 0, 1⟩ (WalStorage.commit ⟨ops⟩) script
      (s₂.mem.commit ⟨ops⟩)) := by rw [hs₂]; rfl
  have hrun₃ : Run step Admissible init [.openDir, .setAutoCompactThreshold 1, .commit ops script] _ :=
    Run.cons trivial h₁ (Run.cons trivial h₂ (Run.cons hg₃ h₃ Run.nil))
  have hmirrors := hrun₃.invariant mirrors_init (fun _ _ _ hi hg hs => mirrors_step hi hg hs)
  have hrun₄ := hrun₃.snoc (by exact trivial) (step_openDir hmirrors.1)
  rw [hops, hscript] at hrun₄
  exact ⟨_, hrun₄, refines_memory hrun₄⟩

end MirroredDir
end AlefsDb
