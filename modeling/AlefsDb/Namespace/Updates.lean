import AlefsDb.Json.Steps
import AlefsDb.Namespace.Txn

/-!
# Updates and their commits

The methods that change a database are generic in its store: they read the database and commit batches. An update is a method that
changes a database, and `Update.writes` are its commits, each as the batch that it computes from the database before it. In memory
an update is its commits one after the other (`Update.run_eq`); over a durable store each of them can be the last.
-/

namespace AlefsDb
namespace Database

/-- One commit of a method: the batch, as it is computed from the database. -/
abbrev Write := Database → Rust NsError WriteBatch

/-- The batch is computed and committed. -/
def write (w : Write) : DbM Unit := do
  let b ← read w
  commit b

/-- Commits, one after the other. -/
def writeAll : List Write → DbM Unit
  | [] => return ()
  | w :: ws => do
    write w
    writeAll ws

/-- The batch that `apply_txn` commits. -/
def txnBatch (ops : List TxnOp) : Write := fun db =>
  if ops.isEmpty then
    .ok WriteBatch.new
  else do
    let ov ← ops.foldlM Overlay.applyOne (Overlay.new db.store)
    return ov.intoBatch

end Database

/-- The commit of the method that does what an operation says; `mkdir` of the root commits nothing. -/
def TxnOp.write : TxnOp → Database → Rust NsError WriteBatch
  | mkdir path, db => if path.isRoot then .ok WriteBatch.new else db.mkdirBatch path
  | set path value, db => db.setBatch path value
  | delete path, db => db.deleteBatch path
  | hashSet path key value, db => do
    let map ← db.contentOr path "hash" Value.asHash []
    db.setBatch path (.hash (OrdMap.insertEntry key value map))
  | listPush path value, db => do
    let items ← db.contentOr path "list" Value.asList []
    db.setBatch path (.list (items ++ [value]))
  | setAdd path value, db => do
    let members ← db.contentOr path "set" Value.asSet []
    db.setBatch path (.set (Database.addMember members value))
  | treeSet path key value, db => do
    let map ← db.contentOr path "tree" Value.asTree []
    db.setBatch path (.tree (OrdMap.insertEntry key value map))

/-- The commit of a step of an import; nothing is committed for a directory that is there. -/
def Json.ImportStep.write : Json.ImportStep → Database → Rust NsError WriteBatch
  | dir path atRoot, db =>
    if atRoot ∨ path.isRoot then
      .ok WriteBatch.new
    else do
      let there ← db.exists path
      if there then .ok WriteBatch.new else db.mkdirBatch path
  | set path v, db => db.setBatch path v
  | stop e, _ => .error e

/-- A method that changes a database. -/
inductive Update where
  | call (op : TxnOp)
  | applyTxn (ops : List TxnOp)
  | importJson (json : String)

namespace Update

/-- The method. -/
def run : Update → DbM Unit
  | call op => Database.call op
  | applyTxn ops => Database.applyTxn ops
  | importJson json => Json.importJson json

/-- Its commits. -/
def writes : Update → List Database.Write
  | call op => [op.write]
  | applyTxn ops => [Database.txnBatch ops]
  | importJson json => (Json.importSteps json).map Json.ImportStep.write

end Update

/-! ## An update is its commits -/

namespace Database

theorem commit_isEmpty {batch : WriteBatch} (h : batch.isEmpty = true) (db : Database) : commit batch db = .ok () db := by
  obtain ⟨ops⟩ := batch
  cases ops with
  | nil => rfl
  | cons op ops => cases h

/-- What a commit leads to. -/
theorem write_eq (w : Write) (db : Database) : write w db =
    match w db with
    | .ok b => .ok () { db with store := db.store.commit b }
    | .error e => .error e db := by
  unfold write
  cases hw : w db with
  | ok b =>
    have hread : read w db = .ok b db := by rw [read, hw]
    exact bind_of_ok hread _
  | error e =>
    have hread : read w db = .error e db := by rw [read, hw]
    exact bind_of_error hread _

theorem write_of_ok {w : Write} {db : Database} {b : WriteBatch} (h : w db = .ok b) :
    write w db = .ok () { db with store := db.store.commit b } := by
  rw [write_eq, h]

theorem write_of_error {w : Write} {db : Database} {e : Failure NsError} (h : w db = .error e) : write w db = .error e db := by
  rw [write_eq, h]

/-- A commit that returns has computed its batch. -/
theorem write_eq_ok {w : Write} {db db' : Database} (h : write w db = .ok () db') :
    ∃ b, w db = .ok b ∧ db' = { db with store := db.store.commit b } := by
  cases hw : w db with
  | ok b =>
    rw [write_of_ok hw] at h
    cases h
    exact ⟨b, rfl, rfl⟩
  | error e =>
    rw [write_of_error hw] at h
    cases h

/-- A commit that stops has left the database as it was. -/
theorem write_eq_error {w : Write} {db db' : Database} {e : Failure NsError} (h : write w db = .error e db') :
    w db = .error e ∧ db' = db := by
  cases hw : w db with
  | ok b =>
    rw [write_of_ok hw] at h
    cases h
  | error e' =>
    rw [write_of_error hw] at h
    cases h
    exact ⟨rfl, rfl⟩

/-- A commit of nothing. -/
theorem write_new {w : Write} {db : Database} (h : w db = .ok WriteBatch.new) : write w db = .ok () db := by
  rw [write_of_ok h]
  rfl

/-- A commit of a batch that is computed in two parts. -/
theorem write_bind {α : Type} (f : Database → Rust NsError α) (g : α → Write) :
    (do
      let a ← read f
      write (g a) : DbM Unit) = write (fun db => do
        let a ← f db
        g a db) := by
  funext db
  rw [write_eq]
  cases hf : f db with
  | ok a =>
    have hread : read f db = .ok a db := by rw [read, hf]
    rw [bind_of_ok hread, write_eq]
    rfl
  | error e =>
    have hread : read f db = .error e db := by rw [read, hf]
    rw [bind_of_error hread]
    rfl

theorem writeAll_single (w : Write) : writeAll [w] = write w := by
  simp [writeAll]

end Database

open Database

/-- A call is its commit. -/
theorem TxnOp.call_eq (op : TxnOp) : Database.call op = Database.write op.write := by
  cases op with
  | mkdir path =>
    funext db
    change Database.mkdir path db = _
    unfold Database.mkdir
    by_cases hroot : path.isRoot = true
    · rw [if_pos hroot, write_new (by rw [TxnOp.write, if_pos hroot])]
      rfl
    · have hwrite : TxnOp.write (.mkdir path) = fun db => db.mkdirBatch path := by
        funext db
        rw [TxnOp.write, if_neg hroot]
      rw [if_neg hroot, hwrite]
      rfl
  | set path value => rfl
  | delete path => rfl
  | hashSet path key value =>
    exact write_bind (fun db => db.contentOr path "hash" Value.asHash [])
      (fun map db => db.setBatch path (.hash (OrdMap.insertEntry key value map)))
  | listPush path value =>
    exact write_bind (fun db => db.contentOr path "list" Value.asList [])
      (fun items db => db.setBatch path (.list (items ++ [value])))
  | setAdd path value =>
    exact write_bind (fun db => db.contentOr path "set" Value.asSet [])
      (fun members db => db.setBatch path (.set (addMember members value)))
  | treeSet path key value =>
    exact write_bind (fun db => db.contentOr path "tree" Value.asTree [])
      (fun map db => db.setBatch path (.tree (OrdMap.insertEntry key value map)))

/-- A transaction is its commit. -/
theorem Database.applyTxn_eq_write (ops : List TxnOp) : applyTxn ops = write (txnBatch ops) := by
  funext db
  unfold applyTxn
  by_cases hops : ops.isEmpty = true
  · rw [if_pos hops, write_new (by rw [txnBatch, if_pos hops])]
    rfl
  · rw [if_neg hops, write_eq, txnBatch, if_neg hops]
    cases hfold : ops.foldlM Overlay.applyOne (Overlay.new db.store) with
    | error e =>
      have hread : read (fun db => ops.foldlM Overlay.applyOne (Overlay.new db.store)) db = .error e db := by rw [read, hfold]
      rw [bind_of_error hread]
      rfl
    | ok ov =>
      have hread : read (fun db => ops.foldlM Overlay.applyOne (Overlay.new db.store)) db = .ok ov db := by rw [read, hfold]
      rw [bind_of_ok hread]
      by_cases hempty : ov.intoBatch.isEmpty = true
      · exact (congrFun (if_pos hempty) db).trans (commit_isEmpty hempty db).symm
      · exact congrFun (if_neg hempty) db

namespace Json

/-- A step of an import is its commit. -/
theorem ImportStep.run_eq (step : ImportStep) : step.run = Database.write step.write := by
  cases step with
  | dir path atRoot =>
    funext db
    change ensureDir path atRoot db = _
    unfold ensureDir
    by_cases hroot : atRoot = true ∨ path.isRoot = true
    · rw [if_pos hroot, write_new (by rw [ImportStep.write, if_pos hroot])]
      rfl
    · rw [if_neg hroot, write_eq, ImportStep.write, if_neg hroot]
      cases hexists : db.exists path with
      | error e =>
        have hread : Database.read (fun db => db.exists path) db = .error e db := by rw [Database.read, hexists]
        rw [bind_of_error hread]
        rfl
      | ok there =>
        have hread : Database.read (fun db => db.exists path) db = .ok there db := by rw [Database.read, hexists]
        rw [bind_of_ok hread]
        cases there with
        | true => rfl
        | false =>
          have hmkdir : Database.mkdir path = Database.write (fun db => db.mkdirBatch path) := by
            unfold Database.mkdir
            rw [if_neg (fun h => hroot (Or.inr h))]
            rfl
          exact (congrFun hmkdir db).trans (write_eq _ db)
  | set path v => rfl
  | stop e =>
    funext db
    rw [write_eq]
    rfl

/-- The steps of an import are commits, one after the other. -/
theorem runSteps_eq (steps : List ImportStep) : runSteps steps = writeAll (steps.map ImportStep.write) := by
  induction steps with
  | nil => rfl
  | cons step steps ih => rw [runSteps, List.map_cons, writeAll, ImportStep.run_eq, ih]

end Json

/-- In memory an update is its commits, one after the other. -/
theorem Update.run_eq (u : Update) : u.run = writeAll u.writes := by
  cases u with
  | call op => exact (TxnOp.call_eq op).trans (writeAll_single _).symm
  | applyTxn ops => exact (applyTxn_eq_write ops).trans (writeAll_single _).symm
  | importJson json => exact (Json.importJson_eq json).trans (Json.runSteps_eq _)

end AlefsDb
