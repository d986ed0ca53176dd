import AlefsDb.Lemmas.Handles
import AlefsDb.Lemmas.ImportPlans
import AlefsDb.Server.DataDir

/-!
# Commits that can be the last

What is in the files when a commit or a compaction stops at any of its file operations: the map before it or the map after it,
perhaps with part of a record behind. A compaction that completes leaves whole records only, whatever the log ended in before it.
-/

namespace AlefsDb

open Wal

/-- What the log ends in. -/
theorem Loads.logTail {files : Files} {map : Rows} {t : Bytes} (h : Loads files map t) : LogTail files t := by
  obtain ⟨base, batches, h⟩ := h
  refine ⟨h.tail, batches, h.fits, ?_⟩
  rcases h.wal with ⟨hw, rfl, rfl⟩ | hw
  · rw [hw]
    rfl
  · rw [hw]
    rfl

/-- The files hold a map, perhaps with bytes behind the log at which replay ends. -/
def Keeps (files : Files) (map : Rows) : Prop := ∃ t, Loads files map t

namespace WalStorage

/-- A compaction takes off what is behind the whole records of the log; until it is done the files hold what they held. -/
theorem compact_heals {map : Rows} (hfit : CheckpointFits map) :
    Triple (fun d => Keeps d.files map ∧ d.storage.map = map) compact
      (fun _ d => Loads d.files map [] ∧ d.storage.map = map) (fun _ d => Keeps d.files map ∧ d.storage.map = map) := by
  rintro d ⟨⟨t, hl⟩, hm⟩
  refine (compact_triple map d.files.wal d.files.checkpoint).conseq (fun d' hd' => hd') ?_ ?_ d ⟨hm, rfl, rfl⟩
  · rintro _ d' ⟨hm', hw, hc⟩
    exact ⟨(loads_compacted hfit d'.files.tmp).congr hw hc, hm'⟩
  · rintro _ d' ⟨hm', hw⟩
    rcases hw with ⟨hw, hc⟩ | ⟨hw, hc⟩ | ⟨hw, hc⟩
    · exact ⟨⟨t, hl.congr hw hc⟩, hm'⟩
    · exact ⟨⟨t, (hl.checkpointed hfit).congr hw hc⟩, hm'⟩
    · exact ⟨⟨[], (loads_compacted hfit d'.files.tmp).congr hw hc⟩, hm'⟩

/-- A commit behind whole records: it returns with its batch in memory and in the files, or stops with the files as before or with
the batch in them. -/
theorem commit_recovers {map : Rows} {ops : List BatchOp} (hfit : RecordFits ops) (hckpt : CheckpointFits (applyOps map ops)) :
    Triple (fun d => Loads d.files map [] ∧ d.storage.map = map) (commit ⟨ops⟩)
      (fun _ d => Loads d.files (applyOps map ops) [] ∧ d.storage.map = applyOps map ops)
      (fun _ d => Keeps d.files map ∨ Keeps d.files (applyOps map ops)) := by
  rintro d ⟨hl, hm⟩
  by_cases hne : ops = []
  · subst hne
    exact ⟨hl, hm⟩
  rcases commit_cases hne d with ⟨o, rest, e, -, -, hc⟩ | ⟨o, rest, e, -, -, hc⟩ | ⟨-, hc⟩
  · -- stopped in the append
    rw [hc]
    by_cases hw : o.written < (encodeCommitRecord ops).length
    · exact Or.inl ⟨_, hl.append_unread (unread_take hfit hw)⟩
    · rw [List.take_of_length_le (Nat.le_of_not_lt hw)]
      exact Or.inr ⟨[], hl.append hfit⟩
  · -- stopped in the sync: the record is in the log
    rw [hc]
    exact Or.inr ⟨[], hl.append hfit⟩
  · have hl' : Loads (committed d ops (d.script.drop 2)).files (applyOps map ops) [] := hl.append hfit
    have hm' : (committed d ops (d.script.drop 2)).storage.map = applyOps map ops := congrArg (applyOps · ops) hm
    rw [hc]
    by_cases hcompacts : d.storage.Compacts (encodeCommitRecord ops).length
    · rw [if_pos hcompacts]
      exact (compact_loads hckpt).conseq (fun _ h => h) (fun _ _ h => h) (fun _ _ h => Or.inr ⟨[], h.1⟩) _ ⟨hl', hm'⟩
    · rw [if_neg hcompacts]
      exact ⟨hl', hm'⟩

/-- A commit that returns has its batch in memory. -/
theorem commit_map {ops : List BatchOp} {d d' : Disk} (h : commit ⟨ops⟩ d = .ok () d') :
    d'.storage.map = applyOps d.storage.map ops := by
  by_cases hne : ops = []
  · subst hne
    cases h
    rfl
  rcases commit_cases hne d with ⟨o, rest, e, -, -, hc⟩ | ⟨o, rest, e, -, -, hc⟩ | ⟨-, hc⟩
  · rw [hc] at h
    cases h
  · rw [hc] at h
    cases h
  · rw [hc] at h
    split at h
    · exact ((compact_triple (applyOps d.storage.map ops) _ _).of_ok ⟨rfl, rfl, rfl⟩ h).1
    · cases h
      rfl

/-- A commit of which every file operation is done has its batch in memory. -/
theorem commit_returns (ops : List BatchOp) (h : WalStorage) (files : Files) :
    ∃ h' files', commit ⟨ops⟩ ⟨h, files, []⟩ = .ok () ⟨h', files', []⟩ ∧ h'.map = applyOps h.map ops := by
  by_cases hne : ops = []
  · subst hne
    exact ⟨h, files, rfl, rfl⟩
  have hcommit := commit_done hne (d := ⟨h, files, []⟩) (allDone_nil 2)
  by_cases hcompacts : h.Compacts (encodeCommitRecord ops).length
  · obtain ⟨_, ⟨h', files', script⟩, hd, hscript⟩ := fileOps_compact.done (committed ⟨h, files, []⟩ ops []) (by simp [committed])
    have hmap := ((compact_triple (applyOps h.map ops) _ _).of_ok ⟨rfl, rfl, rfl⟩ hd).1
    cases (hscript : script = _)
    rw [if_pos hcompacts] at hcommit
    exact ⟨h', files', hcommit.trans hd, hmap⟩
  · rw [if_neg hcompacts] at hcommit
    exact ⟨_, _, hcommit, rfl⟩

end WalStorage

/-! ## Methods -/

namespace Database

/-- The files hold the database with whole records only, and the process at work has it in memory. -/
def InStep (db : Database) (d : Disk) : Prop := Loads d.files db.store.map [] ∧ d.storage.map = db.store.map

/-- A process in step has the database in memory. -/
theorem InStep.database {db : Database} {d : Disk} (h : InStep db d) : d.storage.database = db := by
  rw [WalStorage.database, h.2]

/-- The records of commits, and the checkpoints that may follow them, fit their length fields. -/
def WritesFit : List Database.Write → Database → Prop
  | [], _ => True
  | w :: ws, db => ∀ b, w db = .ok b → RecordFits b.ops ∧ CheckpointFits (applyOps db.store.map b.ops) ∧
      WritesFit ws { db with store := db.store.commit b }

/-- Why a method over a durable store stops: an error of the namespace leaves the store in step, and a commit that stops has left
the files with the commits before it, with or without its own. -/
def Stopped (ws : List Database.Write) (db : Database) : HandleStop → Disk → Prop
  | .refused e, d => ∃ db', writeAll ws db = .error e db' ∧ InStep db' d
  | .storage _, d => ∃ k db', writeAll (ws.take k) db = .ok () db' ∧ Keeps d.files db'.store.map

/-- A commit leaves the map with its batch applied. -/
theorem commitBatch_map {w : Database.Write} {d d' : Disk} {b : WriteBatch} (hb : w d.storage.database = .ok b)
    (h : commitBatch w d = .ok () d') : d'.storage.map = applyOps d.storage.map b.ops := by
  unfold commitBatch at h
  rw [hb] at h
  dsimp only at h
  split at h
  · rename_i hcommit
    cases h
    exact WalStorage.commit_map hcommit
  · cases h

/-- A commit in step leads on in step, or leaves files that hold what was there before or what it leads to. -/
theorem commitBatch_recovers {w : Database.Write} {db : Database}
    (hfit : ∀ b, w db = .ok b → RecordFits b.ops ∧ CheckpointFits (applyOps db.store.map b.ops)) :
    Triple (InStep db) (commitBatch w) (fun _ d => ∃ db', write w db = .ok () db' ∧ InStep db' d) (Stopped [w] db) := by
  intro d hd
  unfold commitBatch
  rw [hd.database]
  cases hw : w db with
  | error e => exact ⟨db, by rw [writeAll_single, write_of_error hw], hd⟩
  | ok b =>
    have hwrite := write_of_ok hw
    obtain ⟨hrecord, hckpt⟩ := hfit b hw
    have hcommit := WalStorage.commit_recovers hrecord hckpt d hd
    dsimp only
    cases hr : WalStorage.commit b d with
    | ok _ d' =>
      rw [hr] at hcommit
      exact ⟨_, hwrite, hcommit⟩
    | error stop d' =>
      rw [hr] at hcommit
      rcases hcommit with hkeeps | hkeeps
      · exact ⟨0, db, rfl, hkeeps⟩
      · exact ⟨1, _, by rw [List.take_succ_cons, List.take_zero, writeAll_single, hwrite], hkeeps⟩

/-- The commits of a method, in step: all of them, or those before the one that is refused, or those before the one that stops,
with or without it. -/
theorem commitAll_recovers {ws : List Database.Write} {db : Database} (hfit : WritesFit ws db) :
    Triple (InStep db) (commitAll ws) (fun _ d => ∃ db', writeAll ws db = .ok () db' ∧ InStep db' d) (Stopped ws db) := by
  induction ws generalizing db with
  | nil => exact fun d hd => ⟨db, rfl, hd⟩
  | cons w ws ih =>
    intro d hd
    have hfirst := commitBatch_recovers (fun b hb => ⟨(hfit b hb).1, (hfit b hb).2.1⟩) d hd
    cases hr : commitBatch w d with
    | ok _ d₁ =>
      rw [hr] at hfirst
      obtain ⟨db₁, hwrite, hd₁⟩ := hfirst
      have hfit₁ : WritesFit ws db₁ := by
        obtain ⟨b, hb, rfl⟩ := write_eq_ok hwrite
        exact (hfit b hb).2.2
      have hrest := ih hfit₁ d₁ hd₁
      have hcons : ∀ vs, writeAll (w :: vs) db = writeAll vs db₁ := fun vs => bind_of_ok hwrite _
      have hall : commitAll (w :: ws) d = commitAll ws d₁ := bind_of_ok hr _
      rw [hall]
      cases hr₁ : commitAll ws d₁ with
      | ok _ d₂ =>
        rw [hr₁] at hrest
        obtain ⟨db₂, hwrites, hd₂⟩ := hrest
        exact ⟨db₂, (hcons ws).trans hwrites, hd₂⟩
      | error stop d₂ =>
        rw [hr₁] at hrest
        cases stop with
        | refused e =>
          obtain ⟨db₂, hwrites, hd₂⟩ := hrest
          exact ⟨db₂, (hcons ws).trans hwrites, hd₂⟩
        | storage stop =>
          obtain ⟨k, db₂, hwrites, hkeeps⟩ := hrest
          exact ⟨k + 1, db₂, (hcons (ws.take k)).trans hwrites, hkeeps⟩
    | error stop d₁ =>
      rw [hr] at hfirst
      have hall : commitAll (w :: ws) d = .error stop d₁ := bind_of_error hr _
      rw [hall]
      cases stop with
      | refused e =>
        obtain ⟨db₁, hwrite, hd₁⟩ := hfirst
        rw [writeAll_single] at hwrite
        exact ⟨db₁, bind_of_error hwrite _, hd₁⟩
      | storage stop =>
        obtain ⟨k, db₁, hwrites, hkeeps⟩ := hfirst
        cases k with
        | zero => exact ⟨0, db₁, hwrites, hkeeps⟩
        | succ k =>
          rw [List.take_succ_cons, List.take_nil, writeAll_single] at hwrites
          exact ⟨1, db₁, by rw [List.take_succ_cons, List.take_zero, writeAll_single, hwrites], hkeeps⟩

/-- Commits of which every file operation is done stop where they stop in memory. -/
theorem commitAll_eq (ws : List Database.Write) {h : WalStorage} (files : Files) :
    ∃ h' files', h'.database = left (writeAll ws h.database) ∧ commitAll ws ⟨h, files, []⟩ =
      match failure (writeAll ws h.database) with
      | none => .ok () ⟨h', files', []⟩
      | some e => .error (.refused e) ⟨h', files', []⟩ := by
  induction ws generalizing h files with
  | nil => exact ⟨h, files, rfl, rfl⟩
  | cons w ws ih =>
    cases hw : w h.database with
    | error e =>
      have hall : writeAll (w :: ws) h.database = .error e h.database := bind_of_error (write_of_error hw) _
      have hcommit : commitBatch w ⟨h, files, []⟩ = .error (.refused e) ⟨h, files, []⟩ := commitBatch_error hw
      rw [hall]
      exact ⟨h, files, rfl, bind_of_error hcommit _⟩
    | ok b =>
      obtain ⟨h₁, files₁, hcommit, hmap⟩ := WalStorage.commit_returns b.ops h files
      have hfirst : commitBatch w ⟨h, files, []⟩ = .ok () ⟨h₁, files₁, []⟩ := by
        unfold commitBatch
        simp only [hw, hcommit]
      have hdb₁ : h₁.database = { h.database with store := h.database.store.commit b } := by
        rw [WalStorage.database, hmap]
        rfl
      have hall : writeAll (w :: ws) h.database = writeAll ws h₁.database := by
        rw [hdb₁]
        exact bind_of_ok (write_of_ok hw) _
      obtain ⟨h', files', hdb', hcommits⟩ := ih (h := h₁) files₁
      rw [hall]
      exact ⟨h', files', hdb', (bind_of_ok hfirst _).trans hcommits⟩

end Database

/-- The change of a step is on the path of the step. -/
theorem Json.ImportStep.plan_path {G : Graph} {next : UInt64} {step : Json.ImportStep} {c : Change}
    (h : step.plan G next = .ok c) {p : List String} (hp : c.path = some p) : ∀ s ∈ p, ValidSegment s := by
  cases step with
  | dir path atRoot =>
    simp only [Json.ImportStep.plan] at h
    split at h
    · cases h
      cases hp
    · rw [show p = path.segments from Graph.plan_path (show G.plan next (.mkdir path) = .ok c from h) hp]
      exact path.valid
  | set path v =>
    rw [show p = path.segments from Graph.plan_path (show G.plan next (.set path v) = .ok c from h) hp]
    exact path.valid
  | stop e => cases h

/-! ## Databases that commits lead to -/

namespace Database

/-- The rows are those of a graph. -/
def Sound (db : Database) : Prop := ∃ G next, Stores db.store.map G next

/-- What every change on a path of segments that `parse` and `join` let pass keeps. -/
def KeptByChanges (I : Graph → UInt64 → Prop) : Prop :=
  ∀ {G : Graph} {next : UInt64} {c : Change}, I G next → c.Fits G next → (∀ p, c.path = some p → ∀ s ∈ p, ValidSegment s) →
    I (c.graph G next) (c.nextId next)

/-- What changes keep is kept by a method. -/
theorem KeptByChanges.call {I : Graph → UInt64 → Prop} (h : KeptByChanges I) (op : TxnOp) : Kept I op := by
  intro G next c _ hI hplan hfits
  refine h hI hfits (fun p hp s hs => ?_)
  rw [Graph.plan_path hplan hp] at hs
  exact op.path.valid s hs

/-- A commit of an update leads from rows of a graph to such rows, and keeps what every change does. -/
theorem Holds.write {I : Graph → UInt64 → Prop} (hI : KeptByChanges I) {u : Update} {w : Database.Write} (hw : w ∈ u.writes)
    {db db' : Database} (h : Holds I db) (hwrite : Database.write w db = .ok () db') : Holds I db' := by
  obtain ⟨G, next, hstores, hG⟩ := h
  cases u with
  | call op =>
    obtain rfl := List.mem_singleton.mp hw
    rw [← TxnOp.call_eq] at hwrite
    rcases call_cases hstores op with ⟨e, hcall, -⟩ | ⟨c, hcall, hplan, hfits, hstores'⟩
    · rw [hcall] at hwrite
      cases hwrite
    · rw [hcall] at hwrite
      cases hwrite
      exact ⟨_, _, hstores', hI.call op hstores.wf hG hplan hfits⟩
  | applyTxn ops =>
    obtain rfl := List.mem_singleton.mp hw
    rw [← applyTxn_eq_write] at hwrite
    have htxn := applyTxn_eq hstores ops
    cases hall : Database.callAll ops db with
    | error e db₁ =>
      rw [hall] at htxn
      rw [htxn] at hwrite
      cases hwrite
    | ok _ db₁ =>
      rw [hall] at htxn
      rw [htxn] at hwrite
      cases hwrite
      exact Holds.callAll ⟨G, next, hstores, hG⟩ (fun op _ => hI.call op) hall
  | importJson json =>
    obtain ⟨step, -, rfl⟩ := List.mem_map.mp hw
    rw [← Json.ImportStep.run_eq, Json.run_eq hstores] at hwrite
    cases hplan : step.plan G next with
    | error e =>
      rw [hplan] at hwrite
      cases hwrite
    | ok c =>
      rw [hplan] at hwrite
      cases hwrite
      have hfits := Json.plan_fits hplan
      exact ⟨_, _, hstores.change hfits, hI hG hfits (fun p hp => Json.ImportStep.plan_path hplan hp)⟩

/-- So does what commits leave when they stop. -/
theorem Holds.writeAll {I : Graph → UInt64 → Prop} (hI : KeptByChanges I) {u : Update} (ws : List Database.Write)
    (hws : ∀ w ∈ ws, w ∈ u.writes) {db : Database} (h : Holds I db) : Holds I (left (Database.writeAll ws db)) := by
  induction ws generalizing db with
  | nil => exact h
  | cons w ws ih =>
    cases hwrite : Database.write w db with
    | error e db₁ =>
      have hall : Database.writeAll (w :: ws) db = .error e db₁ := bind_of_error hwrite _
      rw [hall, (write_eq_error hwrite).2]
      exact h
    | ok _ db₁ =>
      have hall : Database.writeAll (w :: ws) db = Database.writeAll ws db₁ := bind_of_ok hwrite _
      rw [hall]
      exact ih (fun v hv => hws v (List.mem_cons_of_mem _ hv)) (h.write hI (hws w List.mem_cons_self) hwrite)

theorem sound_iff {db : Database} : Sound db ↔ Holds (fun _ _ => True) db := by
  simp [Sound, Holds]

/-- Commits of an update keep a database sound. -/
theorem Sound.writeAll {u : Update} (ws : List Database.Write) (hws : ∀ w ∈ ws, w ∈ u.writes) {db : Database} (h : Sound db) :
    Sound (left (Database.writeAll ws db)) :=
  sound_iff.mpr ((sound_iff.mp h).writeAll (fun _ _ _ => trivial) ws hws)

/-- An update, whether it succeeds or not. -/
def updated (db : Database) (u : Update) : Option Database := some (left (u.run db))

/-- A database that updates lead to from a new one. -/
def Updated (db : Database) : Prop := ∃ us, Run updated (fun _ _ => True) opened us db

/-- What holds of a new database and is kept by changes holds of every database that updates lead to. -/
theorem Updated.holds {I : Graph → UInt64 → Prop} (hI : KeptByChanges I) (h0 : I Graph.initial 2) {db : Database} (h : Updated db) :
    Holds I db := by
  obtain ⟨us, hrun⟩ := h
  have hopened : Holds I opened := ⟨_, _, opened_stores, h0⟩
  refine hrun.invariant hopened (fun db u db' hholds _ hstep => ?_)
  cases hstep
  rw [Update.run_eq]
  exact hholds.writeAll hI u.writes (fun w hw => hw)

/-- Updates lead to sound databases. -/
theorem Updated.sound {db : Database} (h : Updated db) : Sound db :=
  sound_iff.mpr (h.holds (I := fun _ _ => True) (fun _ _ _ => trivial) trivial)

/-- The segments of the paths that exist are those that `parse` and `join` let pass. -/
theorem Updated.segments {db : Database} (h : Updated db) : ∃ G next, Stores db.store.map G next ∧ G.Segments ValidSegment := by
  refine h.holds (I := fun G _ => G.Segments ValidSegment) (fun hG hfits hpath => hG.change hfits hpath) ?_
  intro p x hp s hs
  rw [(Graph.initial_eq_some.mp hp).1] at hs
  cases hs

/-- An update leads on from a database that updates lead to. -/
theorem Updated.left {db : Database} (h : Updated db) (u : Update) : Updated (Database.left (u.run db)) := by
  obtain ⟨us, hrun⟩ := h
  exact ⟨us ++ [u], hrun.snoc trivial rfl⟩

theorem updated_opened : Updated opened := ⟨[], Run.nil⟩

/-- What commands lead to, updates do. -/
theorem Reached.updated {guard : Command → Prop} {db : Database} (h : Reached guard db) : Updated db := by
  obtain ⟨cmds, hrun⟩ := h
  refine hrun.invariant updated_opened (fun db c db' hupdated _ hstep => ?_)
  cases hstep
  cases c with
  | call op => exact hupdated.left (.call op)
  | applyTxn ops => exact hupdated.left (.applyTxn ops)
  | reopen =>
    obtain ⟨G, next, hstores⟩ := hupdated.sound
    rw [Command.run, openStore_eq hstores]
    exact hupdated

/-- A call or a transaction that stops has changed nothing. -/
theorem Sound.left_of_failure {db : Database} (h : Sound db) {u : Update} (hu : ∀ json, u ≠ .importJson json) {e : Failure NsError}
    (hfailure : failure (u.run db) = some e) : Database.left (u.run db) = db := by
  obtain ⟨G, next, hstores⟩ := h
  cases u with
  | call op =>
    change failure (Database.call op db) = some e at hfailure
    change Database.left (Database.call op db) = db
    rcases call_cases hstores op with ⟨e', hcall, -⟩ | ⟨c, hcall, -⟩
    · rw [hcall]
      rfl
    · rw [hcall] at hfailure
      cases hfailure
  | applyTxn ops =>
    change failure (Database.applyTxn ops db) = some e at hfailure
    change Database.left (Database.applyTxn ops db) = db
    rw [applyTxn_eq hstores] at hfailure ⊢
    cases hall : Database.callAll ops db with
    | ok _ db' =>
      rw [hall] at hfailure
      cases hfailure
    | error e' db' => rfl
  | importJson json => exact absurd rfl (hu json)

end Database
end AlefsDb
