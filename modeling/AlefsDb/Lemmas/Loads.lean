import AlefsDb.Storage.Disk
import AlefsDb.Lemmas.WalFormat

/-!
# What the files of a directory hold

`Loads files map t`: the checkpoint and the whole records of the log give `map`, and the log ends in bytes `t` at which a replay
ends, none or a part of a record that a crash has left. An open of such files succeeds with that map (`openDir_of_loads`). An append
of a whole record, when nothing is behind the whole records, and each stage of a compaction lead from such files to such files. A
compaction that is killed leaves a log that is already in the checkpoint: replaying it again changes nothing, because applying
operations twice is applying them once.
-/

namespace AlefsDb

open Wal

/-- The checkpoint and the whole records of the log give `map`; behind the records the log holds bytes `t` at which replay ends. -/
structure LoadsFrom (files : Files) (map : Rows) (t : Bytes) (base : Rows) (batches : List (List BatchOp)) : Prop where
  checkpoint : files.checkpoint = none ∧ base = OrdMap.empty ∨
    files.checkpoint = some (checkpointBytes base 0) ∧ CheckpointFits base
  wal : files.wal = none ∧ batches = [] ∧ t = [] ∨ files.wal = some (logBytes batches ++ t)
  fits : ∀ ops ∈ batches, RecordFits ops
  tail : Unread t
  map_eq : map = applyAll base batches

def Loads (files : Files) (map : Rows) (t : Bytes) : Prop := ∃ base batches, LoadsFrom files map t base batches

/-- An empty directory holds the empty map. -/
theorem loads_empty : Loads { wal := none, checkpoint := none, tmp := none } OrdMap.empty [] :=
  ⟨OrdMap.empty, [], Or.inl ⟨rfl, rfl⟩, Or.inl ⟨rfl, rfl, rfl⟩, by simp, unread_nil, rfl⟩

/-- The files an open leaves: the log file is created when it is missing. -/
theorem Loads.create {files : Files} {map : Rows} {t : Bytes} (h : Loads files map t) :
    Loads { files with wal := some (files.wal.getD []) } map t := by
  obtain ⟨base, batches, h⟩ := h
  refine ⟨base, batches, h.checkpoint, Or.inr ?_, h.fits, h.tail, h.map_eq⟩
  rcases h.wal with ⟨hw, rfl, rfl⟩ | hw
  · simp [hw]
  · simp [hw]

theorem LoadsFrom.loadBase {files : Files} {map base : Rows} {t : Bytes} {batches : List (List BatchOp)}
    (h : LoadsFrom files map t base batches) : WalStorage.loadBase files = .ok (base, 0) := by
  rcases h.checkpoint with ⟨hc, rfl⟩ | ⟨hc, hfit⟩
  · simp [WalStorage.loadBase, hc]
  · simp [WalStorage.loadBase, hc, loadCheckpoint_checkpointBytes hfit]

/-- An open succeeds and loads the map that the files hold. -/
theorem openDir_of_loads {files : Files} {map : Rows} {t : Bytes} (h : Loads files map t) :
    WalStorage.openDir files = .ok ({ map := map
                                      walBytes := (files.wal.getD []).length
                                      autoCompactThreshold := 8 * 1024 * 1024 },
      { files with wal := some (files.wal.getD []) }) := by
  obtain ⟨base, batches, h⟩ := h
  have hreplay : WalStorage.replayOver files 0 base = .ok map := by
    rcases h.wal with ⟨hw, rfl, rfl⟩ | hw
    · simp [WalStorage.replayOver, hw, h.map_eq]
    · simp only [WalStorage.replayOver, hw, h.map_eq]
      exact replayWal_log base h.fits h.tail
  simp [WalStorage.openDir, h.loadBase, hreplay]

/-- The log consists of whole records and bytes `t` behind them, at which replay ends. -/
def LogTail (files : Files) (t : Bytes) : Prop :=
  Unread t ∧ ∃ batches, (∀ ops ∈ batches, RecordFits ops) ∧ files.wal.getD [] = logBytes batches ++ t

/-- What stands behind the whole records of a log is determined by the log. -/
theorem Loads.tail_unique {files : Files} {map : Rows} {t t' : Bytes} (h : Loads files map t) (hw : LogTail files t') :
    t = t' := by
  obtain ⟨base, batches, h⟩ := h
  obtain ⟨ht', batches', hfit', hw⟩ := hw
  rcases h.wal with ⟨hwal, -, rfl⟩ | hwal
  · rw [hwal] at hw
    have hnil : ∀ ops ∈ ([] : List (List BatchOp)), RecordFits ops := by simp
    exact (logBytes_append_inj hnil hfit' unread_nil ht' (by simpa using hw)).2
  · rw [hwal] at hw
    exact (logBytes_append_inj h.fits hfit' h.tail ht' hw).2

/-- The map and what is behind the whole records do not depend on the temporary file. -/
theorem Loads.congr {files files' : Files} {map : Rows} {t : Bytes} (h : Loads files map t) (hw : files'.wal = files.wal)
    (hc : files'.checkpoint = files.checkpoint) : Loads files' map t := by
  obtain ⟨base, batches, h⟩ := h
  exact ⟨base, batches, by rw [hc]; exact h.checkpoint, by rw [hw]; exact h.wal, h.fits, h.tail, h.map_eq⟩

/-- A whole record at the end of whole records adds its batch. -/
theorem Loads.append {files : Files} {map : Rows} (h : Loads files map []) {ops : List BatchOp} (hfit : RecordFits ops) :
    Loads { files with wal := some (files.wal.getD [] ++ encodeCommitRecord ops) } (applyOps map ops) [] := by
  obtain ⟨base, batches, h⟩ := h
  refine ⟨base, batches ++ [ops], h.checkpoint, Or.inr ?_, ?_, unread_nil, ?_⟩
  · rcases h.wal with ⟨hw, rfl, -⟩ | hw
    · simp [hw, logBytes]
    · simp [hw, logBytes]
  · intro ops' h'
    rcases List.mem_append.mp h' with h' | h'
    · exact h.fits ops' h'
    · rw [List.mem_singleton.mp h']
      exact hfit
  · rw [h.map_eq, applyAll_snoc]

/-- Bytes at the end of a log are ignored where replay still ends behind its whole records. -/
theorem Loads.append_unread {files : Files} {map : Rows} {t : Bytes} (h : Loads files map t) {w : Bytes}
    (ht : Unread (t ++ w)) : Loads { files with wal := some (files.wal.getD [] ++ w) } map (t ++ w) := by
  obtain ⟨base, batches, h⟩ := h
  refine ⟨base, batches, h.checkpoint, Or.inr ?_, h.fits, ht, h.map_eq⟩
  rcases h.wal with ⟨hw, rfl, rfl⟩ | hw
  · simp [hw]
  · simp [hw]

/-- The checkpoint of a compaction, put in place: the log, which is still there, is already in it. -/
theorem Loads.checkpointed {files : Files} {map : Rows} {t : Bytes} (h : Loads files map t) (hfit : CheckpointFits map) :
    Loads { files with checkpoint := some (checkpointBytes map 0) } map t := by
  obtain ⟨base, batches, h⟩ := h
  refine ⟨map, batches, Or.inr ⟨rfl, hfit⟩, h.wal, h.fits, h.tail, ?_⟩
  rw [h.map_eq, applyAll_idem]

/-- The end of a compaction: the checkpoint alone. -/
theorem loads_compacted {map : Rows} (hfit : CheckpointFits map) (tmp : Option Bytes) :
    Loads { wal := some [], checkpoint := some (checkpointBytes map 0), tmp := tmp } map [] :=
  ⟨map, [], Or.inr ⟨rfl, hfit⟩, Or.inr rfl, by simp, unread_nil, rfl⟩

/-! ## The steps of a compaction -/

namespace WalStorage

open Fs

/-- Where a compaction of `map` that started with the log `wal` and the checkpoint `ckpt` can be: at the start, with the new
checkpoint in place, or with the log truncated too. -/
def CompactStage (map : Rows) (wal ckpt : Option Bytes) (f : Files) : Prop :=
  f.wal = wal ∧ f.checkpoint = ckpt ∨
  f.wal = wal ∧ f.checkpoint = some (checkpointBytes map 0) ∨
  f.wal = some [] ∧ f.checkpoint = some (checkpointBytes map 0)

/-- An operation that stops without effect, or has an effect that leads from `P` to `Q`. -/
theorem atomic_triple {P Q : Disk → Prop} {E : Stop → Disk → Prop} {whole : Files → Files}
    (hQ : ∀ d script, P d → Q { d with files := whole d.files, script := script })
    (hE : ∀ d e script, P d → E e { d with script := script }) :
    Triple P (fileOp whole (fun _ f => f)) (fun _ => Q) E :=
  fileOp_triple hQ (fun d _ e script hd => hE d e script hd)

/-- A computation that reads the state and goes on with it. -/
theorem get_triple {P : Disk → Prop} {E : Stop → Disk → Prop} :
    Triple P (MonadState.get : Fs Disk) (fun a d => a = d ∧ P d) E :=
  fun _ hd => ⟨rfl, hd⟩

/-- A change of the fields of the store. -/
theorem modifySelf_triple {P Q : Disk → Prop} {E : Stop → Disk → Prop} {f : WalStorage → WalStorage}
    (h : ∀ d, P d → Q { d with storage := f d.storage }) : Triple P (modifySelf f) (fun _ => Q) E :=
  h

/-- A compaction keeps the map in memory and, when it stops early, leaves the files at one of its stages. -/
theorem compact_triple (map : Rows) (wal ckpt : Option Bytes) :
    Triple (fun d => d.storage.map = map ∧ d.files.wal = wal ∧ d.files.checkpoint = ckpt) compact
      (fun _ d => d.storage.map = map ∧ d.files.wal = some [] ∧ d.files.checkpoint = some (checkpointBytes map 0))
      (fun _ d => d.storage.map = map ∧ CompactStage map wal ckpt d.files) := by
  obtain ⟨E, hE⟩ : ∃ E : Stop → Disk → Prop, E = fun _ d => d.storage.map = map ∧ CompactStage map wal ckpt d.files :=
    ⟨_, rfl⟩
  -- the assertions between the steps: before the rename (with and without the written temporary file), after it, at the end
  obtain ⟨A, hA⟩ : ∃ A : Disk → Prop,
    A = fun d => d.storage.map = map ∧ d.files.wal = wal ∧ d.files.checkpoint = ckpt := ⟨_, rfl⟩
  obtain ⟨B, hB⟩ : ∃ B : Disk → Prop, B = fun d => A d ∧ d.files.tmp = some (checkpointBytes map 0) := ⟨_, rfl⟩
  obtain ⟨C, hC⟩ : ∃ C : Disk → Prop, C = fun d => d.storage.map = map ∧ d.files.wal = wal ∧
    d.files.checkpoint = some (checkpointBytes map 0) := ⟨_, rfl⟩
  obtain ⟨D, hD⟩ : ∃ D : Disk → Prop, D = fun d => d.storage.map = map ∧ d.files.wal = some [] ∧
    d.files.checkpoint = some (checkpointBytes map 0) := ⟨_, rfl⟩
  have eA : ∀ d e, A d → E e d := by
    intro d e h
    rw [hA] at h
    exact hE ▸ ⟨h.1, Or.inl h.2⟩
  have eC : ∀ d e, C d → E e d := by
    intro d e h
    rw [hC] at h
    exact hE ▸ ⟨h.1, Or.inr (Or.inl h.2)⟩
  have eD : ∀ d e, D d → E e d := by
    intro d e h
    rw [hD] at h
    exact hE ▸ ⟨h.1, Or.inr (Or.inr h.2)⟩
  have hcreate : Triple A createTmp (fun _ => A) E :=
    atomic_triple (fun d script h => by rw [hA] at h ⊢; exact h) (fun d e script h => eA _ e (by rw [hA] at h ⊢; exact h))
  have hwrite : Triple A (writeTmp (checkpointBytes map 0)) (fun _ => B) E := by
    refine fileOp_triple (fun d script h => ?_) (fun d n e script h => eA _ e ?_)
    · rw [hA] at h
      rw [hB, hA]
      exact ⟨h, rfl⟩
    · rw [hA] at h ⊢
      exact h
  have hsync : Triple B noEffect (fun _ => B) E :=
    atomic_triple (fun d script h => by rw [hB, hA] at h ⊢; exact h)
      (fun d e script h => eA _ e (by rw [hB] at h; rw [hA] at h ⊢; exact h.1))
  have hrename : Triple B renameTmp (fun _ => C) E :=
    atomic_triple (fun d script h => by rw [hB, hA] at h; rw [hC]; exact ⟨h.1.1, h.1.2.1, h.2⟩)
      (fun d e script h => eA _ e (by rw [hB] at h; rw [hA] at h ⊢; exact h.1))
  have hflush : Triple C noEffect (fun _ => C) E :=
    atomic_triple (fun d script h => by rw [hC] at h ⊢; exact h) (fun d e script h => eC _ e (by rw [hC] at h ⊢; exact h))
  have htrunc : Triple C truncateWal (fun _ => D) E :=
    atomic_triple (fun d script h => by rw [hC] at h; rw [hD]; exact ⟨h.1, rfl, h.2.2⟩)
      (fun d e script h => eC _ e (by rw [hC] at h ⊢; exact h))
  have hend : Triple D noEffect (fun _ => D) E :=
    atomic_triple (fun d script h => by rw [hD] at h ⊢; exact h) (fun d e script h => eD _ e (by rw [hD] at h ⊢; exact h))
  have hself : Triple D (modifySelf (fun s => { s with walBytes := 0 })) (fun _ => D) E :=
    modifySelf_triple (fun d h => by rw [hD] at h ⊢; exact h)
  have hmain : Triple A compact (fun _ => D) E := by
    refine Triple.bind get_triple (fun a => ?_)
    intro d hd
    obtain ⟨rfl, hd⟩ := hd
    have hmap : a.storage.map = map := by rw [hA] at hd; exact hd.1
    rw [hmap]
    refine (Triple.bind (Triple.bind hcreate fun _ => Triple.bind hwrite fun _ => hsync) fun _ => ?_) a hd
    exact Triple.bind hrename fun _ => Triple.bind hflush fun _ => Triple.bind htrunc fun _ => Triple.bind hend fun _ =>
      Triple.bind hself fun _ => Triple.bind hend fun _ => Triple.bind hend fun _ => hend
  rw [hA, hD, hE] at hmain
  exact hmain

/-- A compaction leaves files that hold the map, at whichever of its stages it ends. -/
theorem compact_loads {map : Rows} (hfit : CheckpointFits map) :
    Triple (fun d => Loads d.files map [] ∧ d.storage.map = map) compact
      (fun _ d => Loads d.files map [] ∧ d.storage.map = map) (fun _ d => Loads d.files map [] ∧ d.storage.map = map) := by
  rintro d ⟨hl, hm⟩
  refine (compact_triple map d.files.wal d.files.checkpoint).conseq (fun d' hd' => hd') ?_ ?_ d ⟨hm, rfl, rfl⟩
  · rintro _ d' ⟨hm', hw, hc⟩
    exact ⟨(loads_compacted hfit d'.files.tmp).congr hw hc, hm'⟩
  · rintro _ d' ⟨hm', hw⟩
    rcases hw with ⟨hw, hc⟩ | ⟨hw, hc⟩ | ⟨hw, hc⟩
    · exact ⟨hl.congr hw hc, hm'⟩
    · exact ⟨(hl.checkpointed hfit).congr hw hc, hm'⟩
    · exact ⟨(loads_compacted hfit d'.files.tmp).congr hw hc, hm'⟩

/-- The log has this content. -/
def HasLog (w : Option Bytes) (d : Disk) : Prop := d.files.wal = w

/-- A file operation that leaves the log alone. -/
theorem fileOp_hasLog {w : Option Bytes} {whole : Files → Files} {part : Nat → Files → Files}
    (hwhole : ∀ f, (whole f).wal = f.wal) (hpart : ∀ n f, (part n f).wal = f.wal) :
    Triple (HasLog w) (fileOp whole part) (fun _ => HasLog w) (fun _ => HasLog w) :=
  fileOp_triple (fun d _ hd => (hwhole d.files).trans hd) (fun d n _ _ hd => (hpart n d.files).trans hd)

theorem noEffect_hasLog (w : Option Bytes) : Triple (HasLog w) noEffect (fun _ => HasLog w) (fun _ => HasLog w) :=
  fileOp_hasLog (fun _ => rfl) (fun _ _ => rfl)

theorem renameTmp_hasLog (w : Option Bytes) : Triple (HasLog w) renameTmp (fun _ => HasLog w) (fun _ => HasLog w) :=
  fileOp_hasLog (fun _ => rfl) (fun _ _ => rfl)

theorem writeCheckpoint_hasLog (w : Option Bytes) (map : Rows) (walOffset : Nat) :
    Triple (HasLog w) (writeCheckpoint map walOffset) (fun _ => HasLog w) (fun _ => HasLog w) := by
  have hcreate : Triple (HasLog w) createTmp (fun _ => HasLog w) (fun _ => HasLog w) :=
    fileOp_hasLog (fun _ => rfl) (fun _ _ => rfl)
  have hwrite : Triple (HasLog w) (writeTmp (checkpointBytes map walOffset)) (fun _ => HasLog w) (fun _ => HasLog w) :=
    fileOp_hasLog (fun _ => rfl) (fun _ _ => rfl)
  exact hcreate.bind fun _ => hwrite.bind fun _ => noEffect_hasLog w

/-- The steps of a compaction up to the one that truncates the log. -/
def toTruncation (map : Rows) : Fs Unit := do
  writeCheckpoint map 0
  renameTmp
  noEffect
  truncateWal

/-- The steps behind it. -/
def behindTruncation : Fs Unit := do
  noEffect
  modifySelf (fun s => { s with walBytes := 0 })
  noEffect
  noEffect
  noEffect

theorem compact_eq (d : Disk) : compact d = (toTruncation d.storage.map >>= fun _ => behindTruncation) d := by
  simp only [toTruncation, behindTruncation, bind_assoc]
  rfl

/-- Six operations lead to the truncated log. -/
theorem fileOps_toTruncation (map : Rows) : FileOps 6 (toTruncation map) := by
  have hop : ∀ whole part, FileOps 1 (fileOp whole part) := fileOps_fileOp
  exact ((hop _ _).bind fun _ => (hop _ _).bind fun _ => hop _ _).bind fun _ =>
    (hop _ _).bind fun _ => (hop _ _).bind fun _ => hop _ _

/-- Where one of them stops, the log is as it was. -/
theorem toTruncation_hasLog (w : Option Bytes) (map : Rows) :
    Triple (HasLog w) (toTruncation map) (fun _ => HasLog (some [])) (fun _ => HasLog w) := by
  have htruncate : Triple (HasLog w) truncateWal (fun _ => HasLog (some [])) (fun _ => HasLog w) :=
    fileOp_triple (fun _ _ _ => rfl) (fun _ _ _ _ hd => hd)
  exact (writeCheckpoint_hasLog w map 0).bind fun _ => (renameTmp_hasLog w).bind fun _ => (noEffect_hasLog w).bind fun _ =>
    htruncate

/-- The steps behind the truncation leave the log alone. -/
theorem behindTruncation_hasLog (w : Option Bytes) :
    Triple (HasLog w) behindTruncation (fun _ => HasLog w) (fun _ => HasLog w) :=
  (noEffect_hasLog w).bind fun _ => Triple.bind (modifySelf_triple fun _ hd => hd) fun _ =>
    (noEffect_hasLog w).bind fun _ => (noEffect_hasLog w).bind fun _ => noEffect_hasLog w

/-- A compaction that stops has truncated the log when its first six operations are done, and has left it alone otherwise. -/
theorem compact_stopped {d d' : Disk} {e : Stop} (h : compact d = .error e d') :
    (AllDone 6 d.script → d'.files.wal = some []) ∧ (¬AllDone 6 d.script → d'.files.wal = d.files.wal) := by
  have htruncates := toTruncation_hasLog d.files.wal d.storage.map
  rw [compact_eq] at h
  by_cases h6 : AllDone 6 d.script
  · obtain ⟨_, t, ht, -⟩ := (fileOps_toTruncation _).done d h6
    rw [bind_of_ok ht] at h
    exact ⟨fun _ => (behindTruncation_hasLog _).of_error (htruncates.of_ok rfl ht) h, fun hn => absurd h6 hn⟩
  · obtain ⟨e', t, ht, -⟩ := (fileOps_toTruncation _).stopped d h6
    rw [bind_of_error ht] at h
    cases h
    exact ⟨fun hd => absurd hd h6, fun _ => htruncates.of_error rfl ht⟩

end WalStorage
end AlefsDb
