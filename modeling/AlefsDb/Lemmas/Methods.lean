import AlefsDb.Lemmas.CodecFormat
import AlefsDb.Lemmas.Rows
import AlefsDb.Namespace.Plan

/-!
# The methods that write

On rows that a graph calls for, every method does what its plan says: it stops with the error of the plan and leaves the store as
it is, or commits the batch of the plan's change.
-/

namespace AlefsDb

namespace Change

/-- The batch of a change. -/
def ops (next : UInt64) : Change → List BatchOp
  | nothing => []
  | create parent name parentId a => createOps next parentId name (pathText (parent ++ [name])) a
  | replace p id old v => replaceOps id old.typename v (pathText p)
  | remove _ name parentId id a => removeOps id parentId name a.typeName

end Change

/-- Committing a change that fits. -/
theorem Stores.change {rows : Rows} {G : Graph} {next : UInt64} (h : Stores rows G next) {c : Change} (hc : c.Fits G next) :
    Stores (applyOps rows (c.ops next)) (c.graph G next) (c.nextId next) := by
  cases c with
  | nothing => exact h
  | create parent name parentId a => exact h.create a hc.1 hc.2.1 hc.2.2
  | replace p id old v => exact h.replace v hc
  | remove parent name parentId id a => exact h.remove hc.1 hc.2.1 hc.2.2

/-- A directory has no child rows where the graph has nothing below it. -/
theorem Stores.scanPrefix_childPrefix {rows : Rows} {G : Graph} {next : UInt64} (h : Stores rows G next) {p : List String}
    {i : UInt64} (hp : G p = some (i, .dir)) : rows.scanPrefix (childPrefix i) ≠ [] ↔ ∃ t, G (p ++ [t]) ≠ none := by
  constructor
  · intro hne
    obtain ⟨⟨k, v⟩, hrow⟩ := List.exists_mem_of_ne_nil _ hne
    obtain ⟨t, id, a, hqt, -, -⟩ := (h.mem_scan_children hp).mp hrow
    exact ⟨t, by rw [hqt]; simp⟩
  · rintro ⟨t, ht⟩ hnil
    obtain ⟨⟨id, a⟩, ht⟩ := Option.ne_none_iff_exists'.mp ht
    have hrow := (h.mem_scan_children hp).mpr ⟨t, id, a, ht, rfl, rfl⟩
    rw [hnil] at hrow
    cases hrow

namespace Database

variable {db : Database} {G : Graph} {next : UInt64}

/-- A parent is resolved from the rows as in the graph. -/
theorem resolveParent_eq_parentId (h : Stores db.store.map G next) (parent : DbPath) :
    db.resolveParent parent = G.parentId parent :=
  resolveParent_eq h parent

theorem succId_eq_ok {id x : UInt64} (h : succId id = .ok x) : x = id + 1 := by
  unfold succId at h
  split at h
  · cases h
    rfl
  · cases h

theorem decodeNode_eq_ok {encoded : Bytes} {w : Value} (h : decodeNode encoded = .ok w) : Codec.decode encoded = .ok w := by
  unfold decodeNode Rust.mapErr at h
  split at h
  · rename_i hdecode
    cases h
    exact hdecode
  all_goals cases h

/-- A value that is read back from its row has its type. -/
theorem typename_of_decodeNode {v w : Value} (h : decodeNode (Codec.encode v) = .ok w) : w.typename = v.typename :=
  Codec.typename_of_decode (decodeNode_eq_ok h)

/-- `mkdir` of a path other than the root. -/
theorem mkdirBatch_eq (h : Stores db.store.map G next) {path : DbPath} (hroot : path.segments ≠ []) :
    db.mkdirBatch path = (do
      let c ← G.planMkdir next path
      return ⟨c.ops next⟩) := by
  obtain ⟨parent, name, hparent, hname, hsegments⟩ := DbPath.split hroot
  unfold mkdirBatch Graph.planMkdir
  rw [exists_eq h, Rust.ok_bind, hparent, hname]
  dsimp only
  split
  · rfl
  · rw [Rust.okOr_some, Rust.okOr_some, Rust.ok_bind, Rust.ok_bind, resolveParent_eq_parentId h]
    cases hi : G.parentId parent with
    | error e => rfl
    | ok i =>
      simp only [Rust.ok_bind, allocId, nextId_eq h]
      cases hnext : succId next with
      | error e => rfl
      | ok n =>
        rw [succId_eq_ok hnext, DbPath.asStr, hsegments]
        rfl

/-- `set` of a path other than the root. -/
theorem setBatch_eq (h : Stores db.store.map G next) (path : DbPath) (v : Value) :
    db.setBatch path v = (do
      let c ← G.planSet next path v
      return ⟨c.ops next⟩) := by
  unfold setBatch Graph.planSet
  by_cases hroot : path.segments = []
  · rw [if_pos (by simp [DbPath.isRoot, hroot]), hroot, DbPath.parent, if_pos hroot]
    rfl
  · obtain ⟨parent, name, hparent, hname, hsegments⟩ := DbPath.split hroot
    rw [if_neg (by simpa [DbPath.isRoot] using hroot), hparent, hname]
    simp only [Rust.okOr_some, Rust.ok_bind, resolveParent_eq_parentId h]
    cases hi : G.parentId parent with
    | error e => rfl
    | ok i =>
      have hdir := Graph.parentId_eq_ok hi
      simp only [Rust.ok_bind]
      rw [MemoryStorage.get, h.get_child hdir name, ← hsegments]
      cases hp : G path.segments with
      | none =>
        simp only [Option.map_none, allocId, nextId_eq h, Rust.ok_bind]
        cases hnext : succId next with
        | error e => rfl
        | ok n =>
          rw [succId_eq_ok hnext, DbPath.asStr, hsegments]
          rfl
      | some x =>
        obtain ⟨j, a⟩ := x
        simp only [Option.map_some, decodeId_encodeId, Rust.okOr_some, Rust.ok_bind, MemoryStorage.get, h.get_node hp,
          Node.parseNode_bytes, Rust.mapErr_ok]
        cases a with
        | dir => rfl
        | value old =>
          simp only [Node.record]
          cases hold : decodeNode (Codec.encode old) with
          | error e => rfl
          | ok w =>
            simp only [Rust.ok_bind, typename_of_decodeNode hold, Rust.pure_eq_ok, Except.ok.injEq, Change.ops, replaceOps]
            split <;> rfl

/-- `delete`. -/
theorem deleteBatch_eq (h : Stores db.store.map G next) (path : DbPath) :
    db.deleteBatch path = (do
      let c ← G.planDelete path
      return ⟨c.ops next⟩) := by
  unfold deleteBatch Graph.planDelete
  by_cases hroot : path.segments = []
  · rw [if_pos (by simp [DbPath.isRoot, hroot]), hroot, DbPath.parent, if_pos hroot]
    rfl
  · obtain ⟨parent, name, hparent, hname, hsegments⟩ := DbPath.split hroot
    rw [if_neg (by simpa [DbPath.isRoot] using hroot), hparent, hname, resolve_eq h path]
    cases hp : G path.segments with
    | none =>
      simp only [Rust.err_bind]
      cases G parent.segments <;> rfl
    | some x =>
      obtain ⟨j, a⟩ := x
      obtain ⟨i, hi⟩ := h.wf.parent (hsegments ▸ hp)
      simp only [Rust.ok_bind, Rust.unwrap_some, resolve_eq h parent, hi]
      cases a with
      | dir =>
        have hscan : db.store.scanPrefix (childPrefix j) ≠ [] ↔ ∃ t, G (path.segments ++ [t]) ≠ none :=
          h.scanPrefix_childPrefix hp
        simp only [Node.record]
        by_cases hchild : ∃ t, G (path.segments ++ [t]) ≠ none
        · rw [if_pos ⟨trivial, hscan.mpr hchild⟩, if_pos hchild]
          rfl
        · rw [if_neg (fun hc => hchild (hscan.mp hc.2)), if_neg hchild]
          rfl
      | value v =>
        simp only [Node.record, reduceCtorEq, false_and, if_false, nodeTypeName]
        cases hv : decodeNode (Codec.encode v) with
        | error e => rfl
        | ok w =>
          simp only [Rust.ok_bind, Rust.pure_eq_ok, typename_of_decodeNode hv]
          rfl

/-- The start of the four updates of a structure. -/
theorem contentOr_eq (h : Stores db.store.map G next) {α : Type} (path : DbPath) (kind : String) (content : Value → Option α)
    (nothing : α) : db.contentOr path kind content nothing = G.contentOr path kind content nothing := by
  unfold contentOr Graph.contentOr
  rw [get_eq h]
  match G path.segments with
  | none => rfl
  | some (i, .dir) => rfl
  | some (i, .value v) =>
    simp only [entryOf, decodeNode]
    cases Codec.decode (Codec.encode v) with
    | ok w => rfl
    | error e => cases e <;> rfl

/-! ## The calls -/

/-- The database with the batch of a change committed. -/
def after (db : Database) (next : UInt64) (c : Change) : Database := { db with store := db.store.commit ⟨c.ops next⟩ }

/-- What a call leads to, by its plan. -/
def outcome (db : Database) (next : UInt64) : Rust NsError Change → EStateM.Result (Failure NsError) Database Unit
  | .ok c => .ok () (db.after next c)
  | .error e => .error e db

theorem read_of_ok {α : Type} {method : Database → Rust NsError α} {a : α} (h : method db = .ok a) :
    read method db = .ok a db := by
  unfold read
  rw [h]

theorem read_of_error {α : Type} {method : Database → Rust NsError α} {e : Failure NsError} (h : method db = .error e) :
    read method db = .error e db := by
  unfold read
  rw [h]

/-- A method that computes a batch and commits it. -/
theorem read_commit {batch : Database → Rust NsError WriteBatch} {plan : Rust NsError Change}
    (h : batch db = (do
      let c ← plan
      return ⟨c.ops next⟩)) :
    (do
      let b ← read batch
      commit b : DbM Unit) db = db.outcome next plan := by
  cases plan with
  | ok c => exact bind_of_ok (read_of_ok h) _
  | error e => exact bind_of_error (read_of_error h) _

/-- `mkdir` does what is planned on the graph. -/
theorem mkdir_eq (h : Stores db.store.map G next) (path : DbPath) : mkdir path db = db.outcome next (G.planMkdir next path) := by
  by_cases hroot : path.segments = []
  · have hnone : path.parent = none := by rw [DbPath.parent, if_pos hroot]
    unfold mkdir Graph.planMkdir
    rw [if_pos (by simp [DbPath.isRoot, hroot]), hnone]
    rfl
  · unfold mkdir
    rw [if_neg (by simpa [DbPath.isRoot] using hroot)]
    exact read_commit (mkdirBatch_eq h hroot)

/-- `set` does what is planned on the graph. -/
theorem set_eq (h : Stores db.store.map G next) (path : DbPath) (v : Value) :
    set path v db = db.outcome next (G.planSet next path v) :=
  read_commit (setBatch_eq h path v)

/-- `delete` does what is planned on the graph. -/
theorem delete_eq (h : Stores db.store.map G next) (path : DbPath) : delete path db = db.outcome next (G.planDelete path) :=
  read_commit (deleteBatch_eq h path)

/-- An update of a structure. -/
theorem update_eq (h : Stores db.store.map G next) {α : Type} (path : DbPath) (kind : String) (content : Value → Option α)
    (nothing : α) (update : α → Value) :
    (do
      let a ← read (fun db => db.contentOr path kind content nothing)
      set path (update a) : DbM Unit) db = db.outcome next (do
        let a ← G.contentOr path kind content nothing
        G.planSet next path (update a)) := by
  cases ha : G.contentOr path kind content nothing with
  | ok a => exact (bind_of_ok (read_of_ok ((contentOr_eq h path kind content nothing).trans ha)) _).trans (set_eq h path _)
  | error e => exact bind_of_error (read_of_error ((contentOr_eq h path kind content nothing).trans ha)) _

/-- Every call does what its plan says. -/
theorem call_eq (h : Stores db.store.map G next) (op : TxnOp) : call op db = db.outcome next (G.plan next op) := by
  cases op with
  | mkdir path => exact mkdir_eq h path
  | set path v => exact set_eq h path v
  | delete path => exact delete_eq h path
  | hashSet path key v => exact update_eq h path "hash" Value.asHash [] _
  | listPush path v => exact update_eq h path "list" Value.asList [] _
  | setAdd path v => exact update_eq h path "set" Value.asSet [] _
  | treeSet path key v => exact update_eq h path "tree" Value.asTree [] _

/-- A call leaves the rows of a graph: with the change of its plan, or, when it stops, those that were there. -/
theorem call_cases (h : Stores db.store.map G next) (op : TxnOp) :
    (∃ e, call op db = .error e db ∧ G.plan next op = .error e) ∨
    (∃ c, call op db = .ok () (db.after next c) ∧ G.plan next op = .ok c ∧ c.Fits G next ∧
      Stores (db.after next c).store.map (c.graph G next) (c.nextId next)) := by
  rw [call_eq h]
  cases hplan : G.plan next op with
  | error e => exact Or.inl ⟨e, rfl, rfl⟩
  | ok c =>
    have hfits := Graph.plan_fits h.wf hplan
    exact Or.inr ⟨c, rfl, rfl, hfits, h.change hfits⟩

end Database
end AlefsDb
