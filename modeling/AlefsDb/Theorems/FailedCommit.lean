import AlefsDb.Lemmas.Loads
import AlefsDb.Theorems.LogFormat

/-!
# A commit that reports failure

A failed commit ought to apply nothing, in memory and for the next open. What the next open finds is the log with the bytes of the
record that were written behind it; it loads the same map when these bytes, behind what a crash has left of another record, are
whole records that change nothing and bytes at which a replay ends. When the compaction that a commit triggers fails, the batch is
applied in memory already, and the log may be gone. These are the conditions under which a failed commit applies nothing
(`failure_applies_nothing`). They do not hold when the sync fails behind a whole record of a batch that changes something, nor when
the compaction after such a batch does (`failed_commit_applies`).
-/

namespace AlefsDb

open Wal

namespace WalStorage

/-- The map that an open of the files loads. -/
def loaded (files : Files) : Option Rows :=
  match openDir files with
  | .ok (h, _) => some h.map
  | .error _ => none

/-- An open loads the map that the files hold. -/
theorem loaded_of_loads {files : Files} {map : Rows} {t : Bytes} (h : Loads files map t) : loaded files = some map := by
  rw [loaded, openDir_of_loads h]

/-- When the commit returns an error, every `get` and every `scan_prefix` answer as before the call, and an open loads what it
would have loaded before. -/
def FailureAppliesNothing (d : Disk) (ops : List BatchOp) : Prop :=
  ∀ e d', commit ⟨ops⟩ d = .error (.err e) d' →
    (∀ key, d'.storage.get key = d.storage.get key) ∧
    (∀ pre, d'.storage.scanPrefix pre = d.storage.scanPrefix pre) ∧
    loaded d'.files = loaded d.files

/-- What the append of a record has put into the log when the commit goes no further than its sync. -/
def appended (record : Bytes) : List Outcome → Bytes
  | .fails n _ :: _ => record.take n
  | .killed n :: _ => record.take n
  | _ => record

/-- Bytes behind the whole records of a log that leave what a replay gives: whole records that change nothing, if any, and bytes
at which a replay ends. -/
def ReplaysUnchanged (map : Rows) (t : Bytes) : Prop :=
  ∃ batches rest, IsSplit t batches rest ∧ applyAll map batches = map

/-- Bytes at which a replay ends. -/
theorem replaysUnchanged_of_unread (map : Rows) {t : Bytes} (h : Unread t) : ReplaysUnchanged map t :=
  ⟨[], t, ⟨rfl, by simp, h⟩, applyAll_nil map⟩

/-- A whole record of a batch that changes nothing. -/
theorem replaysUnchanged_record {map : Rows} {ops : List BatchOp} (hfit : RecordFits ops) :
    ReplaysUnchanged map (encodeCommitRecord ops) ↔ applyOps map ops = map := by
  have hsplit : IsSplit (encodeCommitRecord ops) [ops] [] := by
    have hnil : IsSplit [] [] [] := ⟨rfl, by simp, unread_nil⟩
    have h := hnil.cons hfit
    rwa [List.append_nil] at h
  constructor
  · rintro ⟨batches, rest, h, hmap⟩
    rw [(hsplit.unique h).1, applyAll_cons, applyAll_nil] at hmap
    exact hmap
  · intro hmap
    exact ⟨[ops], [], hsplit, by rw [applyAll_cons, hmap, applyAll_nil]⟩

/-- A commit does not fail, or fails before a byte of the record is in the log; or its append or its sync fails, and the log with
what has been written is replayed to the same map; or the compaction it triggers fails, its batch changes nothing, and the log with
its record is replayed to the same map or has been truncated. -/
inductive FailsCleanly (d : Disk) (ops : List BatchOp) : Prop where
  | noFailure (h : AllDone (if d.storage.Compacts (encodeCommitRecord ops).length then 12 else 2) d.script)
  | nothingWritten (message : String) (rest : List Outcome) (h : d.script = .fails 0 message :: rest)
  | unchanged (h : ¬AllDone 2 d.script) (map : Rows) (t : Bytes) (hl : Loads d.files map t)
      (ht : ReplaysUnchanged map (t ++ appended (encodeCommitRecord ops) d.script))
  | noChange (hdone : AllDone 2 d.script) (h : applyOps d.storage.map ops = d.storage.map) (t : Bytes)
      (hl : Loads d.files d.storage.map t)
      (ht : ReplaysUnchanged d.storage.map (t ++ encodeCommitRecord ops) ∨ AllDone 8 d.script)
      (hckpt : d.storage.Compacts (encodeCommitRecord ops).length → CheckpointFits d.storage.map)

/-- A commit that leaves the map in memory and what an open loads has applied nothing. -/
theorem appliesNothing_of_eq {d d' : Disk} (hm : d'.storage.map = d.storage.map) (hl : loaded d'.files = loaded d.files) :
    (∀ key, d'.storage.get key = d.storage.get key) ∧ (∀ pre, d'.storage.scanPrefix pre = d.storage.scanPrefix pre) ∧
      loaded d'.files = loaded d.files :=
  ⟨fun key => congrArg (OrdMap.get · key) hm, fun pre => congrArg (OrdMap.scanPrefix · pre) hm, hl⟩

/-- A commit of which no file operation fails returns no error. -/
theorem commit_ne_error {d : Disk} {ops : List BatchOp} (hne : ops ≠ [])
    (h : AllDone (if d.storage.Compacts (encodeCommitRecord ops).length then 12 else 2) d.script) (e : Stop) (d' : Disk) :
    commit ⟨ops⟩ d ≠ .error e d' := by
  by_cases hc : d.storage.Compacts (encodeCommitRecord ops).length
  · rw [if_pos hc] at h
    obtain ⟨h2, h10⟩ := (allDone_add 2 10 d.script).mp h
    obtain ⟨a, d'', hx, -⟩ := fileOps_compact.done (committed d ops (d.script.drop 2)) h10
    rw [commit_done hne h2, if_pos hc, hx]
    exact fun he => nomatch he
  · rw [if_neg hc] at h
    rw [commit_done hne h, if_neg hc]
    exact fun he => nomatch he

/-- After a failed append or sync the store in memory is as before, and the log has got what was written of the record. -/
theorem commit_error_before_apply {d d' : Disk} {ops : List BatchOp} {e : Stop} (hne : ops ≠ []) (hnd : ¬AllDone 2 d.script)
    (h : commit ⟨ops⟩ d = .error e d') : d'.storage = d.storage ∧
      d'.files = { d.files with wal := some (d.files.wal.getD [] ++ appended (encodeCommitRecord ops) d.script) } := by
  rcases commit_cases hne d with ⟨o, rest, e', hs, ho, hc⟩ | ⟨o, rest, e', hs, ho, hc⟩ | ⟨hdone, -⟩
  · obtain ⟨-, rfl⟩ := EStateM.Result.error.inj (hc.symm.trans h)
    cases o with
    | done => cases ho
    | fails n message => exact ⟨rfl, by simp [hs, appended, Outcome.written]⟩
    | killed n => exact ⟨rfl, by simp [hs, appended, Outcome.written]⟩
  · obtain ⟨-, rfl⟩ := EStateM.Result.error.inj (hc.symm.trans h)
    exact ⟨rfl, by simp [hs, appended]⟩
  · exact absurd hdone hnd

/-- A commit whose append or sync fails returns an error. -/
theorem commit_fails {d : Disk} {ops : List BatchOp} (hne : ops ≠ []) (hk : NoKill d.script) (hnd : ¬AllDone 2 d.script) :
    ∃ e d', commit ⟨ops⟩ d = .error (.err e) d' := by
  have hstop : ∀ o ∈ d.script, ∀ e, o.stop = some e → ∃ se, e = .err se := by
    intro o ho e he
    cases o with
    | done => cases he
    | fails n message => exact ⟨_, (Option.some.inj he).symm⟩
    | killed n => exact absurd ho (hk n)
  rcases commit_cases hne d with ⟨o, rest, e, hs, ho, hc⟩ | ⟨o, rest, e, hs, ho, hc⟩ | ⟨hdone, -⟩
  · obtain ⟨se, rfl⟩ := hstop o (by simp [hs]) e ho
    exact ⟨se, _, hc⟩
  · obtain ⟨se, rfl⟩ := hstop o (by simp [hs]) e ho
    exact ⟨se, _, hc⟩
  · exact absurd hdone hnd

/-- An open loads what a replay of the log over the checkpoint gives. -/
theorem loaded_eq_some {files : Files} {map : Rows} : loaded files = some map ↔
    ∃ base start, loadBase files = .ok (base, start) ∧ replayOver files start base = .ok map := by
  rw [loaded, openDir]
  rcases hbase : loadBase files with e | ⟨base, start⟩
  · simp
  · rcases hreplay : replayOver files start base with e | map'
    · simp [hreplay]
    · simp [hreplay]

/-- What an open loads depends on the log and the checkpoint only. -/
theorem loaded_congr {files files' : Files} (hw : files'.wal = files.wal) (hc : files'.checkpoint = files.checkpoint) :
    loaded files' = loaded files := by
  have hbase : loadBase files' = loadBase files := by simp only [loadBase, hc]
  have hreplay : ∀ start base, replayOver files' start base = replayOver files start base := by
    intro start base
    simp only [replayOver, hw]
  refine Option.ext fun map => ?_
  simp only [loaded_eq_some, hbase, hreplay]

/-- With bytes behind the log, an open loads the same map exactly when a replay goes through them without a change. -/
theorem loaded_append {files : Files} {map : Rows} {t : Bytes} (hl : Loads files map t) (w : Bytes) :
    loaded { files with wal := some (files.wal.getD [] ++ w) } = some map ↔ ReplaysUnchanged map (t ++ w) := by
  obtain ⟨base, batches, h⟩ := hl
  have hlog : files.wal.getD [] ++ w = logBytes batches ++ (t ++ w) := by
    rcases h.wal with ⟨hw, rfl, rfl⟩ | hw
    · simp [hw]
    · simp [hw]
  have hopen : loaded { files with wal := some (logBytes batches ++ (t ++ w)) } = some map ↔
      replayWal (logBytes batches ++ (t ++ w)) 0 base = .ok map := by
    have hbase : loadBase { files with wal := some (logBytes batches ++ (t ++ w)) } = .ok (base, 0) := h.loadBase
    simp [loaded_eq_some, hbase, replayOver]
  rw [hlog, hopen]
  constructor
  · intro hok
    rcases isSplit_or_err (logBytes batches ++ (t ++ w)) base with ⟨batches', rest, hsplit⟩ | ⟨e, he⟩
    · rw [hsplit.replayWal base] at hok
      obtain ⟨after, rfl, hafter⟩ := hsplit.behind h.fits
      refine ⟨after, rest, hafter, ?_⟩
      rw [applyAll_append, ← h.map_eq] at hok
      exact Except.ok.inj hok
    · rw [he] at hok
      exact absurd hok (Rust.err_ne_ok _ _)
  · rintro ⟨after, rest, hafter, hmap⟩
    rw [(hafter.append h.fits).replayWal base, applyAll_append, ← h.map_eq, hmap]

/-- A commit that fails behind its append and its sync has failed in the compaction it triggers, and its batch is in memory. -/
theorem commit_error_in_compaction {d d' : Disk} {ops : List BatchOp} {e : Stop} (hne : ops ≠ []) (hdone : AllDone 2 d.script)
    (h : commit ⟨ops⟩ d = .error e d') :
    d.storage.Compacts (encodeCommitRecord ops).length ∧ compact (committed d ops (d.script.drop 2)) = .error e d' ∧
      d'.storage.map = applyOps d.storage.map ops := by
  rw [commit_done hne hdone] at h
  by_cases hc : d.storage.Compacts (encodeCommitRecord ops).length
  · rw [if_pos hc] at h
    exact ⟨hc, h, ((compact_triple _ _ _).of_error ⟨rfl, rfl, rfl⟩ h).1⟩
  · rw [if_neg hc] at h
    cases h

/-- Behind a compaction that fails, after a batch that changes nothing, an open loads the map exactly when the log is replayed to
it or has been truncated. -/
theorem loaded_after_compaction {d d' : Disk} {ops : List BatchOp} {e : Stop} {t : Bytes} (hdone : AllDone 2 d.script)
    (hl : Loads d.files d.storage.map t) (hno : applyOps d.storage.map ops = d.storage.map)
    (hckpt : CheckpointFits d.storage.map) (h : compact (committed d ops (d.script.drop 2)) = .error e d') :
    loaded d'.files = some d.storage.map ↔
      ReplaysUnchanged d.storage.map (t ++ encodeCommitRecord ops) ∨ AllDone 8 d.script := by
  have h8 : AllDone 8 d.script ↔ AllDone 6 (d.script.drop 2) :=
    (allDone_add 2 6 d.script).trans (and_iff_right hdone)
  obtain ⟨hcut, hkept⟩ := compact_stopped h
  obtain ⟨-, hstage⟩ := (compact_triple (applyOps d.storage.map ops) _ _).of_error ⟨rfl, rfl, rfl⟩ h
  rw [hno] at hstage
  -- a log that is still there holds the record: it has not been truncated
  have hne : d.files.wal.getD [] ++ encodeCommitRecord ops ≠ [] := by
    rw [← List.length_pos_iff, List.length_append, length_encodeCommitRecord]
    omega
  have hnot : d'.files.wal = some (d.files.wal.getD [] ++ encodeCommitRecord ops) → ¬AllDone 8 d.script := fun hw hall =>
    hne (Option.some.inj (hw.symm.trans (hcut (h8.mp hall))))
  rcases hstage with ⟨hw, hc⟩ | ⟨hw, hc⟩ | ⟨hw, hc⟩
  · rw [or_iff_left (hnot hw), ← loaded_append hl]
    exact iff_of_eq (congrArg (· = _) (loaded_congr hw hc))
  · rw [or_iff_left (hnot hw), ← loaded_append (hl.checkpointed hckpt)]
    exact iff_of_eq (congrArg (· = _) (loaded_congr hw hc))
  · have hall : AllDone 8 d.script := by
      by_contra hn
      have hw' := hkept (fun h6 => hn (h8.mpr h6))
      exact hne (Option.some.inj (hw'.symm.trans hw))
    exact iff_of_true (loaded_of_loads ((loads_compacted hckpt d'.files.tmp).congr hw hc)) (Or.inr hall)

/-- A failure that is clean applies nothing. -/
theorem FailsCleanly.appliesNothing {d : Disk} {ops : List BatchOp} (hne : ops ≠ []) (hlog : d.files.wal.isSome)
    (h : FailsCleanly d ops) : FailureAppliesNothing d ops := by
  intro e d' herr
  cases h with
  | noFailure h => exact absurd herr (commit_ne_error hne h _ _)
  | nothingWritten message rest h =>
    obtain ⟨hs, hf⟩ := commit_error_before_apply hne (by simp [h]) herr
    obtain ⟨log, hlog⟩ := Option.isSome_iff_exists.mp hlog
    have hf : d'.files = d.files := by
      rw [hf, h, appended, List.take_zero, List.append_nil, hlog, Option.getD_some, ← hlog]
    exact appliesNothing_of_eq (by rw [hs]) (by rw [hf])
  | unchanged hnd map t hl ht =>
    obtain ⟨hs, hf⟩ := commit_error_before_apply hne hnd herr
    refine appliesNothing_of_eq (by rw [hs]) ?_
    rw [hf, (loaded_append hl _).mpr ht, loaded_of_loads hl]
  | noChange hdone hno t hl ht hckpt =>
    obtain ⟨hc, hx, hm⟩ := commit_error_in_compaction hne hdone herr
    refine appliesNothing_of_eq (hm.trans hno) ?_
    rw [(loaded_after_compaction hdone hl hno (hckpt hc) hx).mpr ht, loaded_of_loads hl]

/-- Where the files hold the map in memory, a failure that is not clean applies something, in memory or for the next open. -/
theorem failsCleanly_of_appliesNothing {d : Disk} {ops : List BatchOp} {t : Bytes} (hne : ops ≠ []) (hk : NoKill d.script)
    (hl : Loads d.files d.storage.map t)
    (hckpt : d.storage.Compacts (encodeCommitRecord ops).length → CheckpointFits (applyOps d.storage.map ops))
    (h : FailureAppliesNothing d ops) : FailsCleanly d ops := by
  by_cases hdone : AllDone 2 d.script
  · by_cases hall : AllDone (if d.storage.Compacts (encodeCommitRecord ops).length then 12 else 2) d.script
    · exact .noFailure hall
    · -- the compaction fails: the map in memory has to be as before, and so has the map that an open loads
      have hc : d.storage.Compacts (encodeCommitRecord ops).length := by
        by_contra hc
        exact hall (by rw [if_neg hc]; exact hdone)
      have h10 : ¬AllDone 10 (d.script.drop 2) := fun h10 =>
        hall (by rw [if_pos hc]; exact (allDone_add 2 10 d.script).mpr ⟨hdone, h10⟩)
      obtain ⟨e, d', hx, he⟩ := fileOps_compact.stopped (committed d ops (d.script.drop 2)) h10
      obtain ⟨se, rfl⟩ := he (hk.drop 2)
      have herr : commit ⟨ops⟩ d = .error (.err se) d' := by rw [commit_done hne hdone, if_pos hc, hx]
      obtain ⟨hget, -, hloaded⟩ := h se d' herr
      have hm := (commit_error_in_compaction hne hdone herr).2.2
      have hno : applyOps d.storage.map ops = d.storage.map := hm.symm.trans (OrdMap.ext hget)
      have hfit : CheckpointFits d.storage.map := hno ▸ hckpt hc
      rw [loaded_of_loads hl] at hloaded
      exact .noChange hdone hno t hl ((loaded_after_compaction hdone hl hno hfit hx).mp hloaded) (fun _ => hfit)
  · -- the append or the sync fails: an open has to load the same map with what has been written
    obtain ⟨e, d', herr⟩ := commit_fails hne hk hdone
    have hloaded := (h e d' herr).2.2
    rw [(commit_error_before_apply hne hdone herr).2, loaded_of_loads hl] at hloaded
    exact .unchanged hdone _ t hl ((loaded_append hl _).mp hloaded)

/-- A commit that fails cleanly applies nothing; and where the files hold the map in memory, with or without a part of a record
behind the whole records of the log, only a commit that fails cleanly does. -/
theorem failure_applies_nothing {d : Disk} {ops : List BatchOp} (hne : ops ≠ []) (hlog : d.files.wal.isSome)
    (hk : NoKill d.script) :
    (FailsCleanly d ops → FailureAppliesNothing d ops) ∧
    ∀ t, Loads d.files d.storage.map t →
      (d.storage.Compacts (encodeCommitRecord ops).length → CheckpointFits (applyOps d.storage.map ops)) →
      (FailureAppliesNothing d ops ↔ FailsCleanly d ops) :=
  ⟨FailsCleanly.appliesNothing hne hlog, fun _ hl hckpt =>
    ⟨failsCleanly_of_appliesNothing hne hk hl hckpt, FailsCleanly.appliesNothing hne hlog⟩⟩

/-- A store that has been opened on an empty directory. -/
def fresh (autoCompactThreshold : Nat) (script : List Outcome) : Disk :=
  { storage := { map := OrdMap.empty, walBytes := 0, autoCompactThreshold := autoCompactThreshold }
    files := { wal := some [], checkpoint := none, tmp := none }
    script := script }

theorem fresh_loads (autoCompactThreshold : Nat) (script : List Outcome) :
    Loads (fresh autoCompactThreshold script).files OrdMap.empty [] :=
  loads_empty.create

/-- The append of a record is cut short by an error after five bytes. -/
theorem short_append_applies_nothing :
    FailureAppliesNothing (fresh 0 [.fails 5 "no space left"]) [.put [107] [118]] ∧
    (FailureAppliesNothing (fresh 0 [.fails 5 "no space left"]) [.put [107] [118]] ↔
      FailsCleanly (fresh 0 [.fails 5 "no space left"]) [.put [107] [118]]) := by
  have h := failure_applies_nothing (d := fresh 0 [.fails 5 "no space left"]) (by simp : [BatchOp.put [107] [118]] ≠ []) rfl
    (by simp [NoKill, fresh])
  have hpart : Unread ((encodeCommitRecord [.put [107] [118]]).take 5) := unread_take (by decide) (by decide)
  refine ⟨h.1 (.unchanged (by simp [fresh]) _ [] (fresh_loads 0 _) (replaysUnchanged_of_unread _ hpart)), ?_⟩
  exact h.2 [] (fresh_loads 0 _) (fun _ => by decide)

/-- The sync after the append fails: the next open loads the batch. Or the compaction that the commit triggers fails: the batch
is in memory too. Either way the commit has reported failure. -/
theorem failed_commit_applies : ∃ ops ≠ [],
    ¬FailureAppliesNothing (fresh 0 [.done, .fails 0 "sync failed"]) ops ∧
    ¬FailureAppliesNothing (fresh 1 [.done, .done, .fails 0 "no space left"]) ops := by
  obtain ⟨ops, hops⟩ : ∃ ops, ops = [BatchOp.put [107] [118]] := ⟨_, rfl⟩
  have hne : ops ≠ [] := by simp [hops]
  have hfit : RecordFits ops := by rw [hops]; decide
  have hchange : (applyOps OrdMap.empty ops).get [107] ≠ OrdMap.empty.get [107] := by rw [hops]; decide
  refine ⟨ops, hne, ?_, ?_⟩
  · intro h
    have hnd : ¬AllDone 2 (fresh 0 [.done, .fails 0 "sync failed"]).script := by simp [fresh]
    obtain ⟨e, d', herr⟩ := commit_fails hne (by simp [NoKill, fresh]) hnd
    have hloaded := (h e d' herr).2.2
    rw [(commit_error_before_apply hne hnd herr).2, loaded_of_loads (fresh_loads _ _)] at hloaded
    have hsame := (replaysUnchanged_record hfit).mp ((loaded_append (fresh_loads 0 _) _).mp hloaded)
    exact hchange (congrArg (OrdMap.get · [107]) hsame)
  · intro h
    have hc : (fresh 1 [.done, .done, .fails 0 "no space left"]).storage.Compacts (encodeCommitRecord ops).length :=
      ⟨by decide, by rw [hops]; decide⟩
    have hdone : AllDone 2 (fresh 1 [.done, .done, .fails 0 "no space left"]).script := by simp [fresh]
    obtain ⟨e, d', hx, he⟩ := fileOps_compact.stopped
      (committed (fresh 1 [.done, .done, .fails 0 "no space left"]) ops [.fails 0 "no space left"]) (by simp [committed])
    obtain ⟨se, rfl⟩ := he (by simp [NoKill, committed])
    have herr : commit ⟨ops⟩ (fresh 1 [.done, .done, .fails 0 "no space left"]) = .error (.err se) d' := by
      rw [commit_done hne hdone, if_pos hc]
      exact hx
    have hm := (commit_error_in_compaction hne hdone herr).2.2
    have hget := (h se d' herr).1 [107]
    rw [WalStorage.get, hm] at hget
    exact hchange hget

end WalStorage
end AlefsDb
