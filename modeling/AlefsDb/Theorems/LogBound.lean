import AlefsDb.Theorems.Checkpoints
import AlefsDb.Theorems.Recovery

/-!
# The length of the log

A store counts the bytes of its log, and compacts when they reach its threshold. In every run of processes on a directory, whichever
file operations fail, the log is no longer than it is counted as long as no commit of the process has failed, and an update of which
no commit fails leaves the log as it was, or shorter than the threshold (`log_bounded`).
-/

namespace AlefsDb

open Wal

/-! ## Checkpoints at the beginning of the log -/

/-- A checkpoint that is written with the offset 0 is read with it, however much of its body is read. -/
theorem Wal.offset_of_checkpointBytes {map map' : Rows} {start : Nat}
    (h : loadCheckpoint (checkpointBytes map 0) = .ok (map', start)) : start = 0 := by
  rw [loadCheckpoint] at h
  obtain ⟨-, h⟩ := (Rust.ite_eq_ok h).resolve_left (fun h => Rust.err_ne_ok _ _ h.2)
  obtain ⟨mag, -, h⟩ := Rust.bind_eq_ok.mp h
  obtain ⟨-, h⟩ := (Rust.ite_eq_ok h).resolve_left (fun h => Rust.err_ne_ok _ _ h.2)
  obtain ⟨version, -, h⟩ := Rust.bind_eq_ok.mp h
  obtain ⟨-, h⟩ := (Rust.ite_eq_ok h).resolve_left (fun h => Rust.err_ne_ok _ _ h.2)
  obtain ⟨lenBytes, -, h⟩ := Rust.bind_eq_ok.mp h
  dsimp only at h
  obtain ⟨-, h⟩ := (Rust.ite_eq_ok h).resolve_left (fun h => Rust.err_ne_ok _ _ h.2)
  obtain ⟨body, hbody, h⟩ := Rust.bind_eq_ok.mp h
  obtain ⟨sum, -, h⟩ := Rust.bind_eq_ok.mp h
  obtain ⟨-, h⟩ := (Rust.ite_eq_ok h).resolve_left (fun h => Rust.err_ne_ok _ _ h.2)
  obtain ⟨⟨offset, c₁⟩, hoffset, h⟩ := Rust.bind_eq_ok.mp h
  obtain ⟨⟨n, c₂⟩, -, h⟩ := Rust.bind_eq_ok.mp h
  obtain ⟨⟨entries, c₃⟩, -, h⟩ := Rust.bind_eq_ok.mp h
  obtain ⟨-, h⟩ := (Rust.ite_eq_ok h).resolve_left (fun h => Rust.err_ne_ok _ _ h.2)
  cases h
  obtain ⟨hlength, hb⟩ := readArray_eq_ok hoffset
  -- the offset is what is written right behind the header
  have hprefix : offset <+: (checkpointBytes map 0).drop 9 := by
    obtain ⟨-, hslice⟩ := (Rust.ite_eq_ok hbody).resolve_right (fun h => by cases h.2)
    cases hslice
    exact (hb ▸ List.prefix_append offset c₁).trans (List.take_prefix _ _)
  have hdrop : leBytes 8 0 <+: (checkpointBytes map 0).drop 9 := by
    have hbytes : checkpointBytes map 0 = checkpointMagic ++ [checkpointVersion] ++ leBytes 4 (checkpointBody map 0).length ++
        (checkpointBody map 0 ++ leBytes 4 (crc32 (checkpointBody map 0)).toNat) := by
      simp only [checkpointBytes, frame, List.append_assoc]
    have hheader : (checkpointMagic ++ [checkpointVersion] ++ leBytes 4 (checkpointBody map 0).length).length = 9 := by
      simp [length_checkpointMagic, length_leBytes]
    have hbody : leBytes 8 0 <+: checkpointBody map 0 :=
      ⟨leBytes 4 map.size ++ map.entries.flatMap encodeEntry, by simp [checkpointBody]⟩
    rw [hbytes, List.drop_left' hheader]
    exact hbody.trans (List.prefix_append _ _)
  have hoff : offset = leBytes 8 0 :=
    (List.prefix_of_prefix_length_le hprefix hdrop (by rw [hlength, length_leBytes])).eq_of_length (by rw [hlength, length_leBytes])
  rw [hoff]
  exact fromLe_leBytes_of_lt (by decide)

namespace WalStorage

open Fs

/-- A checkpoint that is loaded starts at the beginning of the log. -/
def FromStart (files : Files) : Prop := ∀ map start, loadBase files = .ok (map, start) → start = 0

theorem FromStart.congr {files files' : Files} (h : FromStart files) (hc : files'.checkpoint = files.checkpoint) :
    FromStart files' := by
  intro map start hload
  rw [loadBase, hc] at hload
  exact h map start hload

/-- Behind a checkpoint of the code the log is replayed from its start. -/
theorem fromStart_checkpointed {files : Files} {map : Rows} (h : files.checkpoint = some (checkpointBytes map 0)) :
    FromStart files := by
  intro map' start hload
  rw [loadBase, h] at hload
  exact offset_of_checkpointBytes hload

/-! ## Counting -/

/-- The log is longer than it is counted by what failed commits have left in it at most. -/
structure Counted (threshold lost : Nat) (d : Disk) : Prop where
  threshold : d.storage.autoCompactThreshold = threshold
  log : (d.files.wal.getD []).length ≤ d.storage.walBytes + lost
  checkpoint : FromStart d.files

variable {threshold lost : Nat}

/-- A compaction empties the log and counts from there, and loses count at none of its stages. -/
theorem compact_counted : Triple (Counted threshold lost) compact
    (fun _ d => Counted threshold lost d ∧ d.storage.walBytes = 0) (fun _ d => Counted threshold lost d) := by
  obtain ⟨E, hE⟩ : ∃ E : Stop → Disk → Prop, E = fun _ d => Counted threshold lost d := ⟨_, rfl⟩
  have hsame : ∀ {d d' : Disk}, Counted threshold lost d → d'.storage = d.storage → d'.files.wal = d.files.wal →
      d'.files.checkpoint = d.files.checkpoint → Counted threshold lost d' := by
    intro d d' h hs hw hc
    exact ⟨hs ▸ h.threshold, hs ▸ hw ▸ h.log, h.checkpoint.congr hc⟩
  have hstop : ∀ {d : Disk} e script, Counted threshold lost d → E e { d with script := script } :=
    fun e script h => hE ▸ hsame h rfl rfl rfl
  have hsync : Triple (Counted threshold lost) noEffect (fun _ => Counted threshold lost) E :=
    atomic_triple (fun d script h => hsame h rfl rfl rfl) (fun d e script h => hstop e script h)
  have hmain : Triple (Counted threshold lost) compact (fun _ d => Counted threshold lost d ∧ d.storage.walBytes = 0) E := by
    refine Triple.bind get_triple (fun a => ?_)
    rintro d ⟨rfl, hd⟩
    obtain ⟨bytes, hbytes⟩ : ∃ bytes, bytes = checkpointBytes a.storage.map 0 := ⟨_, rfl⟩
    have hcreate : Triple (Counted threshold lost) createTmp (fun _ => Counted threshold lost) E :=
      atomic_triple (fun d script h => hsame h rfl rfl rfl) (fun d e script h => hstop e script h)
    have hwrite : Triple (Counted threshold lost) (writeTmp bytes)
        (fun _ d => Counted threshold lost d ∧ d.files.tmp = some bytes) E :=
      fileOp_triple (fun d script h => ⟨hsame h rfl rfl rfl, rfl⟩) (fun d n e script h => hE ▸ hsame h rfl rfl rfl)
    have hwritten : Triple (fun d => Counted threshold lost d ∧ d.files.tmp = some bytes) noEffect
        (fun _ d => Counted threshold lost d ∧ d.files.tmp = some bytes) E :=
      atomic_triple (fun d script h => ⟨hsame h.1 rfl rfl rfl, h.2⟩) (fun d e script h => hstop e script h.1)
    have hrename : Triple (fun d => Counted threshold lost d ∧ d.files.tmp = some bytes) renameTmp
        (fun _ => Counted threshold lost) E :=
      atomic_triple (fun d script h => ⟨h.1.threshold, h.1.log, fromStart_checkpointed (h.2.trans (congrArg some hbytes))⟩)
        (fun d e script h => hstop e script h.1)
    have htrunc : Triple (Counted threshold lost) truncateWal (fun _ d => Counted threshold lost d ∧ d.files.wal = some []) E :=
      atomic_triple (fun d script h => ⟨⟨h.threshold, Nat.zero_le _, h.checkpoint.congr rfl⟩, rfl⟩)
        (fun d e script h => hstop e script h)
    have hseek : Triple (fun d => Counted threshold lost d ∧ d.files.wal = some []) noEffect
        (fun _ d => Counted threshold lost d ∧ d.files.wal = some []) E :=
      atomic_triple (fun d script h => ⟨hsame h.1 rfl rfl rfl, h.2⟩) (fun d e script h => hstop e script h.1)
    have hself : Triple (fun d => Counted threshold lost d ∧ d.files.wal = some [])
        (modifySelf (fun s => { s with walBytes := 0 })) (fun _ d => Counted threshold lost d ∧ d.storage.walBytes = 0) E := by
      refine modifySelf_triple (fun d h => ⟨⟨h.1.threshold, ?_, h.1.checkpoint⟩, rfl⟩)
      rw [h.2]
      exact Nat.zero_le _
    have hend : Triple (fun d => Counted threshold lost d ∧ d.storage.walBytes = 0) noEffect
        (fun _ d => Counted threshold lost d ∧ d.storage.walBytes = 0) E :=
      atomic_triple (fun d script h => ⟨hsame h.1 rfl rfl rfl, h.2⟩) (fun d e script h => hstop e script h.1)
    subst hbytes
    refine (Triple.bind (Triple.bind hcreate fun _ => Triple.bind hwrite fun _ => hwritten) fun _ => ?_) a hd
    exact Triple.bind hrename fun _ => Triple.bind hsync fun _ => Triple.bind htrunc fun _ => Triple.bind hseek fun _ =>
      Triple.bind hself fun _ => Triple.bind hend fun _ => Triple.bind hend fun _ => hend
  rw [hE] at hmain
  exact hmain

/-- The log is counted, and since it was `log` it has not changed, or it has come below the threshold. -/
def Settled (threshold lost : Nat) (log : Option Bytes) (d : Disk) : Prop :=
  Counted threshold lost d ∧ (d.files.wal = log ∨ threshold = 0 ∨ d.storage.walBytes < threshold)

variable {log : Option Bytes}

/-- A commit compacts where the log has come to the threshold; one that is stopped may leave more in the log than it counts. -/
theorem commit_counted (batch : WriteBatch) : Triple (Settled threshold lost log) (commit batch)
    (fun _ => Settled threshold lost log) (fun _ d => FromStart d.files) := by
  rintro d ⟨hd, hlog⟩
  obtain ⟨ops⟩ := batch
  by_cases hne : ops = []
  · subst hne
    exact ⟨hd, hlog⟩
  rcases commit_cases hne d with ⟨o, rest, e, -, -, h⟩ | ⟨o, rest, e, -, -, h⟩ | ⟨-, h⟩
  · rw [h]
    exact hd.checkpoint.congr rfl
  · rw [h]
    exact hd.checkpoint.congr rfl
  · rw [h]
    have hcommitted : Counted threshold lost (committed d ops (d.script.drop 2)) := by
      refine ⟨hd.threshold, ?_, hd.checkpoint.congr rfl⟩
      have := hd.log
      simp only [committed, Option.getD_some, List.length_append]
      omega
    by_cases hcompacts : d.storage.Compacts (encodeCommitRecord ops).length
    · rw [if_pos hcompacts]
      refine (@compact_counted threshold lost).conseq (fun _ hd => hd) ?_ ?_ _ hcommitted
      · rintro _ d' ⟨hd', hzero⟩
        exact ⟨hd', Or.inr (by omega)⟩
      · exact fun _ d' hd' => hd'.checkpoint
    · rw [if_neg hcompacts]
      refine ⟨hcommitted, Or.inr ?_⟩
      have hbelow := hcompacts
      rw [Compacts, hd.threshold] at hbelow
      simp only [committed]
      omega

end WalStorage

/-! ## Methods -/

namespace Database

open WalStorage

variable {threshold lost : Nat} {log : Option Bytes}

/-- What is left of the counting by a method that stops: all of it, unless a commit has been stopped. -/
def StopCounted (threshold lost : Nat) (log : Option Bytes) : HandleStop → Disk → Prop
  | .refused _, d => Settled threshold lost log d
  | .storage _, d => FromStart d.files

/-- A commit of a method counts what it appends. -/
theorem commitBatch_counted (w : Write) : Triple (Settled threshold lost log) (commitBatch w)
    (fun _ => Settled threshold lost log) (StopCounted threshold lost log) := by
  intro d hd
  unfold commitBatch
  cases w d.storage.database with
  | error e => exact hd
  | ok batch =>
    have hcommit := commit_counted batch d hd
    dsimp only
    cases hr : WalStorage.commit batch d with
    | ok _ d' =>
      rw [hr] at hcommit
      exact hcommit
    | error stop d' =>
      rw [hr] at hcommit
      exact hcommit

/-- Commits count what they append. -/
theorem commitAll_counted (ws : List Write) : Triple (Settled threshold lost log) (commitAll ws)
    (fun _ => Settled threshold lost log) (StopCounted threshold lost log) := by
  induction ws with
  | nil => exact Triple.pure (fun _ hd => hd)
  | cons w ws ih => exact Triple.bind (commitBatch_counted w) (fun _ => ih)

end Database

/-- The commits of an open count what they append. -/
theorem openDatabase_counted {threshold lost : Nat} {log : Option Bytes} : Triple (WalStorage.Settled threshold lost log) openDatabase
    (fun _ => WalStorage.Settled threshold lost log) (Database.StopCounted threshold lost log) := by
  refine Triple.bind (Database.commitBatch_counted _) (fun _ => ?_)
  refine Triple.bind (R := fun _ => WalStorage.Settled threshold lost log) (fun d hd => hd) (fun a => ?_)
  refine Triple.ite (fun _ => ?_) (fun _ => ?_)
  · exact Triple.pure (fun _ hd => hd)
  · exact Triple.bind (Database.commitBatch_counted _) (fun _ => Database.commitBatch_counted _)

/-! ## Runs -/

namespace DataDir

open WalStorage

/-- No compaction after a commit that has failed. -/
def CompactsInCount (s : DataDir) (a : DataAct) : Prop := s.standing = .stale → ∀ script, a ≠ .compact script

/-- A checkpoint that is loaded starts at the beginning of the log; and the log is counted, unless a commit of the process has
failed. -/
structure InCount (s : DataDir) : Prop where
  checkpoint : FromStart s.files
  log : ∀ h, s.handle = some h → s.standing ≠ .stale → (s.files.wal.getD []).length ≤ h.walBytes

/-- Whatever a process has counted: the log is longer by some number, by none where no commit has failed. -/
theorem InCount.counted {s : DataDir} (hs : s.InCount) {h : WalStorage} (hh : s.handle = some h) (script : List Outcome) :
    ∃ lost, (s.standing ≠ .stale → lost = 0) ∧ Settled h.autoCompactThreshold lost s.files.wal ⟨h, s.files, script⟩ := by
  by_cases hstale : s.standing = .stale
  · exact ⟨(s.files.wal.getD []).length, fun hne => absurd hstale hne, ⟨rfl, Nat.le_add_left _ _, hs.checkpoint⟩, Or.inl rfl⟩
  · exact ⟨0, fun _ => rfl, ⟨rfl, hs.log h hh hstale, hs.checkpoint⟩, Or.inl rfl⟩

/-- An open counts the log that it finds. -/
theorem inCount_openDb {s : DataDir} (hs : s.InCount) (script : List Outcome) : (s.openDb script).InCount := by
  unfold DataDir.openDb
  cases hopen : WalStorage.openDir s.files with
  | error e => exact ⟨hs.checkpoint, fun _ hh => by cases hh⟩
  | ok r =>
    obtain ⟨storage, files⟩ := r
    obtain ⟨⟨map, start⟩, hload, hopen⟩ := Rust.bind_eq_ok.mp hopen
    obtain ⟨map', -, hopen⟩ := Rust.bind_eq_ok.mp hopen
    cases hopen
    have hd : Settled (8 * 1024 * 1024) 0 (some (s.files.wal.getD []))
        ⟨⟨map', (s.files.wal.getD []).length - start, 8 * 1024 * 1024⟩,
          { s.files with wal := some (s.files.wal.getD []) }, script⟩ := by
      refine ⟨⟨rfl, ?_, hs.checkpoint.congr rfl⟩, Or.inl rfl⟩
      rw [hs.checkpoint map start hload]
      exact Nat.le_refl _
    have hopened := openDatabase_counted _ hd
    dsimp only
    cases hr : openDatabase ⟨⟨map', (s.files.wal.getD []).length - start, 8 * 1024 * 1024⟩,
      { s.files with wal := some (s.files.wal.getD []) }, script⟩ with
    | ok _ d =>
      rw [hr] at hopened
      refine ⟨hopened.1.checkpoint, fun h hh _ => ?_⟩
      cases hh
      exact hopened.1.log
    | error stop d =>
      rw [hr] at hopened
      refine ⟨?_, fun _ hh => by cases hh⟩
      cases stop with
      | refused e => exact hopened.1.checkpoint
      | storage stop => exact hopened

/-- An update, and where it has left the log when none of its commits has failed. -/
theorem inCount_update {s : DataDir} (hs : s.InCount) {h : WalStorage} (hh : s.handle = some h) (u : Update) (script : List Outcome) :
    (s.update h u script).InCount ∧
      (s.standing ≠ .stale → (s.update h u script).standing ≠ .stale → 0 < h.autoCompactThreshold →
        (s.update h u script).files.wal = s.files.wal ∨
          ((s.update h u script).files.wal.getD []).length < h.autoCompactThreshold) := by
  obtain ⟨lost, hlost, hsettled⟩ := hs.counted hh script
  have hdone := Database.commitAll_counted u.writes _ hsettled
  have hkept : ∀ {d : Disk}, Settled h.autoCompactThreshold lost s.files.wal d →
      (s.standing ≠ .stale → (d.files.wal.getD []).length ≤ d.storage.walBytes) ∧
      (s.standing ≠ .stale → 0 < h.autoCompactThreshold →
        d.files.wal = s.files.wal ∨ (d.files.wal.getD []).length < h.autoCompactThreshold) := by
    rintro d ⟨hd, hlog⟩
    have hcount : s.standing ≠ .stale → (d.files.wal.getD []).length ≤ d.storage.walBytes := by
      intro hne
      have := hd.log
      rw [hlost hne] at this
      exact this
    refine ⟨hcount, fun hne hpos => ?_⟩
    rcases hlog with hsame | hzero | hbelow
    · exact Or.inl hsame
    · omega
    · exact Or.inr (Nat.lt_of_le_of_lt (hcount hne) hbelow)
  unfold DataDir.update
  cases hr : Database.commitAll u.writes ⟨h, s.files, script⟩ with
  | ok _ d =>
    rw [hr] at hdone
    refine ⟨⟨hdone.1.checkpoint, ?_⟩, fun hne _ => (hkept hdone).2 hne⟩
    intro h' hh' hne
    cases hh'
    exact (hkept hdone).1 hne
  | error stop d =>
    rw [hr] at hdone
    cases stop with
    | refused e =>
      refine ⟨⟨hdone.1.checkpoint, ?_⟩, fun hne _ => (hkept hdone).2 hne⟩
      intro h' hh' hne
      cases hh'
      exact (hkept hdone).1 hne
    | storage stop =>
      cases stop with
      | err e => exact ⟨⟨hdone, fun _ _ hne => absurd rfl hne⟩, fun _ hne => absurd rfl hne⟩
      | killed => exact ⟨⟨hdone, fun _ _ hne => absurd rfl hne⟩, fun _ hne => absurd rfl hne⟩

/-- A compaction starts the count again. -/
theorem inCount_compact {s : DataDir} (hs : s.InCount) {h : WalStorage} (hh : s.handle = some h) (hne : s.standing ≠ .stale)
    (script : List Outcome) : (s.compact h script).InCount := by
  have hdone := @compact_counted h.autoCompactThreshold 0 ⟨h, s.files, script⟩ ⟨rfl, hs.log h hh hne, hs.checkpoint⟩
  unfold DataDir.compact
  cases hr : WalStorage.compact ⟨h, s.files, script⟩ with
  | ok _ d =>
    rw [hr] at hdone
    refine ⟨hdone.1.checkpoint, fun h' hh' _ => ?_⟩
    cases hh'
    exact hdone.1.log
  | error stop d =>
    rw [hr] at hdone
    cases stop with
    | err e =>
      refine ⟨hdone.checkpoint, fun h' hh' _ => ?_⟩
      cases hh'
      exact hdone.log
    | killed => exact ⟨hdone.checkpoint, fun _ hh' => by cases hh'⟩

/-- Every step keeps the count. -/
theorem inCount_step {s s' : DataDir} {a : DataAct} (hs : s.InCount) (hact : s.CompactsInCount a) (h : step s a = some s') :
    s'.InCount := by
  cases a with
  | openDb script =>
    obtain rfl := Option.some.inj h
    exact inCount_openDb hs script
  | update u script =>
    obtain ⟨store, hh, rfl⟩ := Option.map_eq_some_iff.mp h
    exact (inCount_update hs hh u script).1
  | compact script =>
    obtain ⟨store, hh, rfl⟩ := Option.map_eq_some_iff.mp h
    exact inCount_compact hs hh (fun hstale => hact hstale script rfl) script
  | setAutoCompactThreshold bytes =>
    obtain ⟨store, hh, rfl⟩ := Option.map_eq_some_iff.mp h
    refine ⟨hs.checkpoint, fun h' hh' hne => ?_⟩
    cases hh'
    exact hs.log store hh hne

theorem inCount_init : init.InCount := by
  refine ⟨fun map start hload => ?_, fun _ hh => by cases hh⟩
  cases hload
  rfl

/-- In every run the count is kept. -/
theorem inCount_run {s : DataDir} {acts : List DataAct} (hrun : Run step CompactsInCount init acts s) : s.InCount :=
  hrun.invariant inCount_init (fun _ _ _ hs hact h => inCount_step hs hact h)

/-- The log stays below the threshold. In every run of processes on a directory, whichever file operations fail, in which no process
compacts after a commit of its own that has failed: a store of whose process no commit has failed counts no fewer bytes than the log
has, and an update by it of which no commit fails, at a threshold that is not 0, leaves the log as it was or shorter than the
threshold. -/
theorem log_bounded {s : DataDir} {acts : List DataAct} (hrun : Run step CompactsInCount init acts s) {h : WalStorage}
    (hh : s.handle = some h) (hne : s.standing ≠ .stale) :
    (s.files.wal.getD []).length ≤ h.walBytes ∧ ∀ (u : Update) (script : List Outcome),
      (s.update h u script).standing ≠ .stale → 0 < h.autoCompactThreshold →
      (s.update h u script).files.wal = s.files.wal ∨
        ((s.update h u script).files.wal.getD []).length < h.autoCompactThreshold := by
  have hs := inCount_run hrun
  exact ⟨hs.log h hh hne, fun u script => (inCount_update hs hh u script).2 hne⟩

/-- A process opens an empty directory and makes a directory in it. -/
theorem log_bounded_mkdir : ∃ s h, Run step CompactsInCount init [.openDb []] s ∧ s.handle = some h ∧
    (s.files.wal.getD []).length ≤ h.walBytes ∧ ((s.update h (.call (.mkdir Database.pathA)) []).files.wal = s.files.wal ∨
      ((s.update h (.call (.mkdir Database.pathA)) []).files.wal.getD []).length < h.autoCompactThreshold) := by
  obtain ⟨s, hs⟩ : ∃ s, s = init.openDb [] := ⟨_, rfl⟩
  have hupdated : s.handle.map (fun h => ((s.update h (.call (.mkdir Database.pathA)) []).standing, h.autoCompactThreshold)) =
      some (.loaded, 8 * 1024 * 1024) := by
    rw [hs]
    decide +kernel
  have hloaded : s.standing = .loaded := by
    rw [hs]
    decide +kernel
  obtain ⟨h, hh, hupdated⟩ := Option.map_eq_some_iff.mp hupdated
  obtain ⟨hstanding, hthreshold⟩ := Prod.mk.inj hupdated
  have hrun : Run step CompactsInCount init [.openDb []] s :=
    Run.cons (a := DataAct.openDb []) (fun _ _ hact => by cases hact) (congrArg some hs.symm) Run.nil
  obtain ⟨hcount, hafter⟩ := log_bounded hrun hh (by rw [hloaded]; decide)
  exact ⟨s, h, hrun, hh, hcount, hafter _ [] (by rw [hstanding]; decide) (by rw [hthreshold]; decide)⟩

end DataDir
end AlefsDb
