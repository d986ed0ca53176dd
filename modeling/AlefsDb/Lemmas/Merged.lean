import AlefsDb.Lemmas.Methods

/-!
# The store that an overlay stands for

`Overlay.merged`: the rows of the store with the pending writes in them. An overlay answers reads and scans as this store does,
and each operation on an overlay leaves the pending writes that the batch of the method on the merged store calls for.
-/

namespace AlefsDb
namespace Overlay

/-- The store with the pending writes in it: what a commit of the overlay leads to. -/
def merged (ov : Overlay) : MemoryStorage := ov.store.commit ov.intoBatch

/-- A pending write as an operation of a batch. -/
def pendingOp (e : Bytes × Option Bytes) : BatchOp :=
  match e.2 with
  | some value => .put e.1 value
  | none => .delete e.1

@[simp] theorem key_pendingOp (e : Bytes × Option Bytes) : (pendingOp e).key = e.1 := by
  obtain ⟨k, v⟩ := e
  cases v <;> rfl

@[simp] theorem value_pendingOp (e : Bytes × Option Bytes) : (pendingOp e).value = e.2 := by
  obtain ⟨k, v⟩ := e
  cases v <;> rfl

/-- The batch of an overlay has an operation for each pending row. -/
theorem intoBatch_ops (ov : Overlay) : ov.intoBatch.ops = ov.pending.entries.map pendingOp := by
  unfold intoBatch
  suffices h : ∀ (l : List (Bytes × Option Bytes)) (batch : WriteBatch), (l.foldl (fun batch e =>
      match e.2 with
      | some value => batch.put e.1 value
      | none => batch.delete e.1) batch).ops = batch.ops ++ l.map pendingOp from h _ _
  intro l
  induction l with
  | nil => simp
  | cons e l ih =>
    intro batch
    obtain ⟨k, v⟩ := e
    rw [List.foldl_cons, ih, List.map_cons]
    cases v <;> simp [WriteBatch.put, WriteBatch.delete, pendingOp]

/-- In pending writes, each key of which is there once, the last write to a key is the one under the key. -/
theorem lastWrite_pendingOps {l : List (Bytes × Option Bytes)} (hl : OrdMap.Ascending l) (k : Bytes) :
    lastWrite k (l.map pendingOp) = OrdMap.lookup k l := by
  induction l with
  | nil => rfl
  | cons e l ih =>
    obtain ⟨k', v⟩ := e
    rw [List.map_cons, lastWrite, ih hl.of_cons, key_pendingOp, value_pendingOp, OrdMap.lookup_cons]
    split
    · rename_i hk
      subst hk
      cases hrest : OrdMap.lookup k l with
      | none => rfl
      | some w => exact absurd (List.rel_of_pairwise_cons hl (OrdMap.mem_of_lookup hrest)) (lt_irrefl k)
    · rw [Option.or_none]

/-- Reads. -/
theorem get_merged (ov : Overlay) (k : Bytes) : ov.merged.get k = ov.get k := by
  rw [merged, MemoryStorage.get_commit, intoBatch_ops, lastWrite_pendingOps ov.pending.ascending, get]
  change (ov.pending.get k).getD _ = _
  cases ov.pending.get k <;> rfl

/-- After ascending rows have been put in, a key finds its row among them, or what it found before. -/
theorem get_foldl_insert {l : Rows} {entries : List (Bytes × Bytes)} (h : OrdMap.Ascending entries) (k : Bytes) :
    (entries.foldl (fun map row => map.insert row.1 row.2) l).get k = (OrdMap.lookup k entries).or (l.get k) := by
  induction entries generalizing l with
  | nil => rfl
  | cons e entries ih =>
    obtain ⟨k', v⟩ := e
    rw [List.foldl_cons, ih h.of_cons, OrdMap.get_insert, OrdMap.lookup_cons]
    split
    · rename_i hk
      subst hk
      cases hrest : OrdMap.lookup k entries with
      | none => rfl
      | some w => exact absurd (List.rel_of_pairwise_cons h (OrdMap.mem_of_lookup hrest)) (lt_irrefl k)
    · rfl

/-- A pending row under the prefix takes the place of the stored one. -/
theorem get_mergeRow (pre : Bytes) (map : Rows) (e : Bytes × Option Bytes) (k : Bytes) :
    (mergeRow pre map e).get k = if pre <+: k ∧ k = e.1 then e.2 else map.get k := by
  unfold mergeRow
  by_cases hpre : pre.isPrefixOf e.1
  · rw [if_pos hpre]
    rw [List.isPrefixOf_iff_prefix] at hpre
    obtain ⟨k', v⟩ := e
    by_cases hk : k = k'
    · subst hk
      cases v <;> simp [hpre, OrdMap.get_erase]
    · cases v <;> simp [hk, OrdMap.get_insert, OrdMap.get_erase]
  · rw [if_neg hpre, if_neg]
    rintro ⟨hk, rfl⟩
    exact hpre (List.isPrefixOf_iff_prefix.mpr hk)

/-- A merged scan finds the pending row of a key under the prefix, or the stored one. -/
theorem get_foldl_mergeRow {pre : Bytes} {l : List (Bytes × Option Bytes)} (hl : OrdMap.Ascending l) (map : Rows) (k : Bytes) :
    (l.foldl (mergeRow pre) map).get k = if pre <+: k then (OrdMap.lookup k l).getD (map.get k) else map.get k := by
  induction l generalizing map with
  | nil => simp
  | cons e l ih =>
    obtain ⟨k', v⟩ := e
    rw [List.foldl_cons, ih hl.of_cons, get_mergeRow, OrdMap.lookup_cons]
    by_cases hpre : pre <+: k
    · by_cases hk : k = k'
      · subst hk
        cases hrest : OrdMap.lookup k l with
        | none => simp [hpre]
        | some w => exact absurd (List.rel_of_pairwise_cons hl (OrdMap.mem_of_lookup hrest)) (lt_irrefl k)
      · simp [hk]
    · simp [hpre]

/-- Scans. -/
theorem scanPrefix_merged (ov : Overlay) (pre : Bytes) : ov.merged.scanPrefix pre = ov.scanPrefix pre := by
  have hleft : OrdMap.Ascending (ov.merged.scanPrefix pre) := OrdMap.scanPrefix_ascending _ pre
  have hrows : OrdMap.Ascending (ov.store.scanPrefix pre) := OrdMap.scanPrefix_ascending _ pre
  refine hleft.eq_of_lookup (OrdMap.ascending _) (fun k => ?_)
  have hmerged : OrdMap.lookup k (ov.merged.scanPrefix pre) = if pre <+: k then ov.merged.get k else none :=
    OrdMap.lookup_scanPrefix _ pre k
  have hstore : OrdMap.lookup k (ov.store.scanPrefix pre) = if pre <+: k then ov.store.get k else none :=
    OrdMap.lookup_scanPrefix _ pre k
  change _ = OrdMap.get _ k
  rw [hmerged, get_foldl_mergeRow ov.pending.ascending, get_foldl_insert hrows]
  change _ = if pre <+: k then (ov.pending.get k).getD ((OrdMap.lookup k (ov.store.scanPrefix pre)).or none)
    else (OrdMap.lookup k (ov.store.scanPrefix pre)).or none
  rw [hstore, get_merged, get]
  split
  · cases ov.pending.get k <;> simp
  · rfl

/-! ## Writes -/

/-- An operation of a batch, as a pending write. -/
def write (ov : Overlay) : BatchOp → Overlay
  | .put key value => ov.put key value
  | .delete key => ov.delete key

/-- The operations of a batch, as pending writes. -/
def writeAll (ov : Overlay) (ops : List BatchOp) : Overlay := ops.foldl write ov

/-- A pending operation shows as one that has been applied. -/
theorem merged_write (ov : Overlay) (op : BatchOp) : (ov.write op).merged.map = op.apply ov.merged.map := by
  ext k : 1
  rw [BatchOp.get_apply]
  change (ov.write op).merged.get k = if k = op.key then op.value else ov.merged.get k
  rw [get_merged, get_merged]
  unfold get
  cases op with
  | put key value =>
    rw [write, put, OrdMap.get_insert]
    by_cases hk : k = key <;> simp [hk, BatchOp.key, BatchOp.value]
  | delete key =>
    rw [write, delete, OrdMap.get_insert]
    by_cases hk : k = key <;> simp [hk, BatchOp.key, BatchOp.value]

/-- Pending operations show as if they had been applied. -/
theorem merged_writeAll (ov : Overlay) (ops : List BatchOp) : (ov.writeAll ops).merged.map = applyOps ov.merged.map ops := by
  induction ops generalizing ov with
  | nil => rfl
  | cons op ops ih =>
    change ((ov.write op).writeAll ops).merged.map = _
    rw [ih, merged_write, applyOps_cons]

theorem store_write (ov : Overlay) (op : BatchOp) : (ov.write op).store = ov.store := by
  cases op <;> rfl

theorem store_writeAll (ov : Overlay) (ops : List BatchOp) : (ov.writeAll ops).store = ov.store := by
  induction ops generalizing ov with
  | nil => rfl
  | cons op ops ih =>
    change ((ov.write op).writeAll ops).store = _
    rw [ih, store_write]

/-! ## The operations -/

/-- The database on the merged store. -/
def mergedDb (ov : Overlay) : Database := { store := ov.merged }

/-- The pending operations of a change show as the database after the change. -/
theorem mergedDb_writeAll (ov : Overlay) (next : UInt64) (c : Change) :
    (ov.writeAll (c.ops next)).mergedDb = ov.mergedDb.after next c :=
  congrArg (fun map => (⟨⟨map⟩⟩ : Database)) (merged_writeAll ov (c.ops next))

/-- Reads, through the database. -/
theorem get_mergedDb (ov : Overlay) (k : Bytes) : ov.mergedDb.store.get k = ov.get k := get_merged ov k

/-- A path is resolved in an overlay as in the database that it shows. -/
theorem resolveFromOv_eq (ov : Overlay) (path : DbPath) (id : UInt64) (segments : List String) :
    ov.resolveFromOv path id segments = ov.mergedDb.resolveFrom path id segments := by
  induction segments generalizing id with
  | nil => rfl
  | cons seg rest ih =>
    have hrest : (fun id => ov.resolveFromOv path id rest) = fun id => ov.mergedDb.resolveFrom path id rest := funext ih
    rw [resolveFromOv, hrest, ← get_mergedDb]
    rfl

/-- A path is resolved in an overlay as in the database that it shows, from the root on. -/
theorem resolveOv_eq (ov : Overlay) (path : DbPath) : ov.resolveOv path = ov.mergedDb.resolve path := by
  unfold resolveOv Database.resolve
  rw [resolveFromOv_eq]
  simp only [get_mergedDb]

theorem resolveParentOv_eq (ov : Overlay) (parent : DbPath) : ov.resolveParentOv parent = ov.mergedDb.resolveParent parent := by
  unfold resolveParentOv
  rw [resolveOv_eq]
  rfl

theorem nextIdOv_eq (ov : Overlay) : ov.nextIdOv = ov.mergedDb.nextId := by
  unfold nextIdOv Database.nextId
  rw [get_mergedDb]

/-- `mkdir_ov` on the rows of a graph, of a path other than the root. -/
theorem mkdirOv_eq {ov : Overlay} {G : Graph} {next : UInt64} (h : Stores ov.mergedDb.store.map G next) {path : DbPath}
    (hroot : path.segments ≠ []) : ov.mkdirOv path = (do
      let batch ← ov.mergedDb.mkdirBatch path
      return ov.writeAll batch.ops) := by
  unfold mkdirOv Database.mkdirBatch
  rw [if_neg (by simpa [DbPath.isRoot] using hroot), resolveOv_eq, Database.exists_eq h, Database.resolve_eq h]
  cases G path.segments with
  | some x => rfl
  | none =>
    simp only [Rust.ok_bind, Option.isSome_none, Bool.false_eq_true, if_false, resolveParentOv_eq, nextIdOv_eq, Database.allocId,
      bind_assoc]
    exact bind_congr fun parent => bind_congr fun name => bind_congr fun i => bind_congr fun id => bind_congr fun n => rfl

/-- `set_ov`. -/
theorem setOv_eq (ov : Overlay) (path : DbPath) (v : Value) : ov.setOv path v = (do
    let batch ← ov.mergedDb.setBatch path v
    return ov.writeAll batch.ops) := by
  unfold setOv Database.setBatch
  split
  · rfl
  · simp only [resolveParentOv_eq, nextIdOv_eq, Database.allocId, get_mergedDb, bind_assoc]
    refine bind_congr fun parent => bind_congr fun name => bind_congr fun i => ?_
    cases ov.get (childKey i name) with
    | none =>
      simp only [bind_assoc]
      exact bind_congr fun id => bind_congr fun n => rfl
    | some raw =>
      simp only [bind_assoc]
      refine bind_congr fun id => bind_congr fun existing => bind_congr fun record => ?_
      cases record with
      | dir => rfl
      | value oldEnc =>
        simp only [bind_assoc]
        refine bind_congr fun old => ?_
        split <;> rfl

/-- `delete_ov`. -/
theorem deleteOv_eq (ov : Overlay) (path : DbPath) : ov.deleteOv path = (do
    let batch ← ov.mergedDb.deleteBatch path
    return ov.writeAll batch.ops) := by
  unfold deleteOv Database.deleteBatch
  split
  · rfl
  · simp only [resolveOv_eq, bind_assoc]
    refine bind_congr fun x => ?_
    obtain ⟨id, record⟩ := x
    have hscan : ov.mergedDb.store.scanPrefix (childPrefix id) = ov.scanPrefix (childPrefix id) := scanPrefix_merged ov _
    simp only [hscan]
    split
    · rfl
    · simp only [bind_assoc]
      refine bind_congr fun parent => bind_congr fun name => bind_congr fun y => ?_
      cases record with
      | dir => rfl
      | value enc => cases Database.decodeNode enc <;> rfl

/-- The start of the four updates of a structure. -/
theorem contentOrOv_eq (ov : Overlay) {α : Type} (path : DbPath) (kind : String) (content : Value → Option α) (nothing : α) :
    ov.contentOrOv path kind content nothing = ov.mergedDb.contentOr path kind content nothing := by
  unfold contentOrOv Database.contentOr getValueOv Database.get
  rw [resolveOv_eq]
  match ov.mergedDb.resolve path with
  | .error .panic | .error .outOfFuel => rfl
  | .error (.err e) => cases e <;> rfl
  | .ok (id, .dir) => rfl
  | .ok (id, .value enc) =>
    simp only [Rust.ok_bind]
    cases Database.decodeNode enc with
    | ok v => rfl
    | error e =>
      cases e with
      | panic | outOfFuel => rfl
      | err e => cases e <;> rfl

section Plans

variable {ov : Overlay} {G : Graph} {next : UInt64}

/-- `set` in an overlay writes what is planned on the graph that it shows. -/
theorem setOv_eq_plan (h : Stores ov.mergedDb.store.map G next) (path : DbPath) (v : Value) : ov.setOv path v = (do
    let c ← G.planSet next path v
    return ov.writeAll (c.ops next)) := by
  rw [setOv_eq, Database.setBatch_eq h, bind_assoc]
  rfl

/-- A method in an overlay that goes on from content writes what is planned on the graph that it shows. -/
theorem updateOv_eq_plan (h : Stores ov.mergedDb.store.map G next) {α : Type} (path : DbPath) (kind : String)
    (content : Value → Option α) (nothing : α) (update : α → Value) :
    (do
      let a ← ov.contentOrOv path kind content nothing
      ov.setOv path (update a)) = (do
        let c ← (do
          let a ← G.contentOr path kind content nothing
          G.planSet next path (update a))
        return ov.writeAll (c.ops next)) := by
  simp only [contentOrOv_eq, Database.contentOr_eq h, setOv_eq_plan h, bind_assoc]

/-- An operation on an overlay does what the plan on the merged rows says. -/
theorem applyOne_eq (h : Stores ov.mergedDb.store.map G next) (op : TxnOp) : ov.applyOne op = (do
    let c ← G.plan next op
    return ov.writeAll (c.ops next)) := by
  cases op with
  | mkdir path =>
    by_cases hroot : path.segments = []
    · have hnone : path.parent = none := by rw [DbPath.parent, if_pos hroot]
      rw [applyOne, mkdirOv, if_pos (by simp [DbPath.isRoot, hroot]), Graph.plan, Graph.planMkdir, hnone]
      rfl
    · rw [applyOne, mkdirOv_eq h hroot, Database.mkdirBatch_eq h hroot, bind_assoc]
      rfl
  | set path v => exact setOv_eq_plan h path v
  | delete path =>
    rw [applyOne, deleteOv_eq, Database.deleteBatch_eq h, bind_assoc]
    rfl
  | hashSet path key v => exact updateOv_eq_plan h path "hash" Value.asHash [] _
  | listPush path v => exact updateOv_eq_plan h path "list" Value.asList [] _
  | setAdd path v => exact updateOv_eq_plan h path "set" Value.asSet [] _
  | treeSet path key v => exact updateOv_eq_plan h path "tree" Value.asTree [] _

end Plans

end Overlay

/-! ## Transactions -/

namespace Database

/-- The methods that the operations of a transaction correspond to, called one after the other up to the first that fails. -/
def callAll : List TxnOp → DbM Unit
  | [] => return ()
  | op :: ops => do
    call op
    callAll ops

/-- On an overlay, the operations of a list go as the calls on the merged store. -/
theorem foldlM_applyOne {ov : Overlay} {G : Graph} {next : UInt64} (h : Stores ov.mergedDb.store.map G next)
    (ops : List TxnOp) :
    match callAll ops ov.mergedDb with
    | .ok _ db => ∃ ov', ops.foldlM Overlay.applyOne ov = .ok ov' ∧ ov'.mergedDb = db ∧ ov'.store = ov.store
    | .error e _ => ops.foldlM Overlay.applyOne ov = .error e := by
  induction ops generalizing ov G next with
  | nil => exact ⟨ov, rfl, rfl, rfl⟩
  | cons op ops ih =>
    rw [List.foldlM_cons, Overlay.applyOne_eq h]
    rcases call_cases h op with ⟨e, hcall, hplan⟩ | ⟨c, hcall, hplan, hfits, hstores⟩
    · have hall : callAll (op :: ops) ov.mergedDb = .error e ov.mergedDb := bind_of_error hcall _
      rw [hall, hplan]
      rfl
    · have hall : callAll (op :: ops) ov.mergedDb = callAll ops (ov.mergedDb.after next c) := bind_of_ok hcall _
      rw [← Overlay.mergedDb_writeAll] at hall hstores
      have ih := ih hstores
      rw [hall, hplan]
      cases hrest : callAll ops (ov.writeAll (c.ops next)).mergedDb with
      | error e db =>
        rw [hrest] at ih
        exact ih
      | ok a db =>
        rw [hrest] at ih
        obtain ⟨ov', hov', hdb, hstore⟩ := ih
        exact ⟨ov', hov', hdb, hstore.trans (Overlay.store_writeAll ov _)⟩

theorem mergedDb_new (db : Database) : (Overlay.new db.store).mergedDb = db := rfl

/-- `apply_txn` is the calls one after the other, or nothing. -/
theorem applyTxn_eq {db : Database} {G : Graph} {next : UInt64} (h : Stores db.store.map G next) (ops : List TxnOp) :
    applyTxn ops db = match callAll ops db with
      | .ok _ db' => .ok () db'
      | .error e _ => .error e db := by
  have hnew : Stores (Overlay.new db.store).mergedDb.store.map G next := h
  have hfold := foldlM_applyOne hnew ops
  rw [mergedDb_new] at hfold
  unfold applyTxn
  cases ops with
  | nil => rfl
  | cons op ops =>
    rw [if_neg (by simp)]
    cases hall : callAll (op :: ops) db with
    | error e db' =>
      rw [hall] at hfold
      exact bind_of_error (read_of_error hfold) _
    | ok a db' =>
      rw [hall] at hfold
      obtain ⟨ov, hov, hdb, hstore⟩ := hfold
      refine (bind_of_ok (read_of_ok hov) _).trans ?_
      have hcommit : db' = { store := db.store.commit ov.intoBatch } := by
        rw [← hdb, ← show ov.store = db.store from hstore]
        rfl
      rw [hcommit]
      dsimp only
      split
      · rename_i hempty
        rw [WriteBatch.isEmpty, List.isEmpty_iff] at hempty
        rw [MemoryStorage.commit, hempty]
        rfl
      · rfl

end Database
end AlefsDb
