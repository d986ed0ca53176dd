import AlefsDb.Lib.Rust

/-!
# Batches and the in-memory store

A batch is a list of puts and deletes, applied in order to an ordered map of byte strings. What a key holds afterwards is
decided by the last operation of the batch on it, so applying a batch twice in a row is applying it once.
-/

namespace AlefsDb

/-- `StorageError`. -/
inductive StorageError where
  | io (message : String)
  | corrupt (message : String)
  | internal (message : String)
  deriving DecidableEq, Repr

/-- `BatchOp`: a single mutation in a write batch. -/
inductive BatchOp where
  | put (key value : Bytes)
  | delete (key : Bytes)
  deriving DecidableEq, Repr

/-- `WriteBatch`: the operations in the order they were added. -/
structure WriteBatch where
  ops : List BatchOp
  deriving DecidableEq, Repr

namespace WriteBatch

def new : WriteBatch := ⟨[]⟩

def put (b : WriteBatch) (key value : Bytes) : WriteBatch := ⟨b.ops ++ [.put key value]⟩

def delete (b : WriteBatch) (key : Bytes) : WriteBatch := ⟨b.ops ++ [.delete key]⟩

def isEmpty (b : WriteBatch) : Bool := b.ops.isEmpty

end WriteBatch

/-- The rows of a store: `BTreeMap<Vec<u8>, Vec<u8>>`. -/
abbrev Rows := OrdMap Bytes Bytes

namespace BatchOp

/-- The key an operation is on. -/
def key : BatchOp → Bytes
  | put k _ => k
  | delete k => k

/-- What an operation leaves under its key. -/
def value : BatchOp → Option Bytes
  | put _ v => some v
  | delete _ => none

def apply (map : Rows) : BatchOp → Rows
  | put key value => map.insert key value
  | delete key => map.erase key

/-- An operation sets its own key and no other. -/
theorem get_apply (map : Rows) (op : BatchOp) (k : Bytes) :
    (op.apply map).get k = if k = op.key then op.value else map.get k := by
  cases op with
  | put key value => exact map.get_insert key k value
  | delete key => exact map.get_erase key k

end BatchOp

/-- `apply_ops`: the operations one after the other. -/
def applyOps (map : Rows) (ops : List BatchOp) : Rows := ops.foldl BatchOp.apply map

@[simp] theorem applyOps_nil (map : Rows) : applyOps map [] = map := rfl

@[simp] theorem applyOps_cons (map : Rows) (op : BatchOp) (ops : List BatchOp) :
    applyOps map (op :: ops) = applyOps (op.apply map) ops := rfl

/-- Operations are applied one after the other. -/
theorem applyOps_append (map : Rows) (ops ops' : List BatchOp) :
    applyOps map (ops ++ ops') = applyOps (applyOps map ops) ops' :=
  List.foldl_append

/-- What the last operation on a key leaves there, if any operation is on it. -/
def lastWrite (k : Bytes) : List BatchOp → Option (Option Bytes)
  | [] => none
  | op :: ops => (lastWrite k ops).or (if k = op.key then some op.value else none)

/-- A key holds what the last operation on it left, and what it held before when there is none. -/
theorem get_applyOps (map : Rows) (ops : List BatchOp) (k : Bytes) :
    (applyOps map ops).get k = (lastWrite k ops).getD (map.get k) := by
  induction ops generalizing map with
  | nil => rfl
  | cons op ops ih =>
    rw [applyOps_cons, ih, BatchOp.get_apply, lastWrite]
    cases lastWrite k ops with
    | some v => rfl
    | none => by_cases h : k = op.key <;> simp [h]

/-- The last write of a key is one of the operations. -/
theorem mem_of_lastWrite {k : Bytes} {ops : List BatchOp} {v : Option Bytes} (h : lastWrite k ops = some v) :
    ∃ op ∈ ops, op.key = k ∧ op.value = v := by
  induction ops with
  | nil => cases h
  | cons op ops ih =>
    rw [lastWrite] at h
    cases hrest : lastWrite k ops with
    | some w =>
      rw [hrest] at h
      cases h
      obtain ⟨op', hop', hkey, hvalue⟩ := ih hrest
      exact ⟨op', List.mem_cons_of_mem _ hop', hkey, hvalue⟩
    | none =>
      rw [hrest, Option.none_or] at h
      split at h
      · rename_i hk
        cases h
        exact ⟨op, List.mem_cons_self, hk.symm, rfl⟩
      · cases h

/-- A key that an operation writes has a last write. -/
theorem lastWrite_ne_none {op : BatchOp} {ops : List BatchOp} (h : op ∈ ops) : lastWrite op.key ops ≠ none := by
  induction ops with
  | nil => cases h
  | cons op' ops ih =>
    rw [lastWrite]
    rcases List.mem_cons.mp h with rfl | h
    · simp
    · simp [ih h]

/-- The last write of a key is in the later operations, or else in the earlier ones. -/
theorem lastWrite_append (k : Bytes) (ops ops' : List BatchOp) :
    lastWrite k (ops ++ ops') = (lastWrite k ops').or (lastWrite k ops) := by
  induction ops with
  | nil => simp [lastWrite]
  | cons op ops ih => rw [List.cons_append, lastWrite, lastWrite, ih, Option.or_assoc]

/-- Applying operations to a map that has them already changes nothing. -/
theorem applyOps_idem (map : Rows) (ops : List BatchOp) : applyOps (applyOps map ops) ops = applyOps map ops := by
  ext k
  simp only [get_applyOps]
  cases lastWrite k ops <;> rfl

/-- Several batches, in order. -/
def applyAll (map : Rows) (batches : List (List BatchOp)) : Rows := applyOps map batches.flatten

@[simp] theorem applyAll_nil (map : Rows) : applyAll map [] = map := rfl

theorem applyAll_cons (map : Rows) (ops : List BatchOp) (batches : List (List BatchOp)) :
    applyAll map (ops :: batches) = applyAll (applyOps map ops) batches := by
  rw [applyAll, List.flatten_cons, applyOps_append, applyAll]

/-- The last batch is applied last. -/
theorem applyAll_snoc (map : Rows) (batches : List (List BatchOp)) (ops : List BatchOp) :
    applyAll map (batches ++ [ops]) = applyOps (applyAll map batches) ops := by
  simp [applyAll, applyOps_append]

theorem applyAll_append (map : Rows) (batches batches' : List (List BatchOp)) :
    applyAll map (batches ++ batches') = applyAll (applyAll map batches) batches' := by
  rw [applyAll, List.flatten_append, applyOps_append, applyAll, applyAll]

/-- Batches that are applied twice are applied once. -/
theorem applyAll_idem (map : Rows) (batches : List (List BatchOp)) :
    applyAll (applyAll map batches) batches = applyAll map batches :=
  applyOps_idem map _

/-! ## The in-memory store -/

/-- `MemoryStorage`. -/
structure MemoryStorage where
  map : Rows
  deriving DecidableEq

namespace MemoryStorage

def new : MemoryStorage := ⟨OrdMap.empty⟩

def get (s : MemoryStorage) (key : Bytes) : Option Bytes := s.map.get key

def commit (s : MemoryStorage) (batch : WriteBatch) : MemoryStorage := ⟨applyOps s.map batch.ops⟩

def scanPrefix (s : MemoryStorage) (pre : Bytes) : List (Bytes × Bytes) := s.map.scanPrefix pre

/-- A commit shows the last write of each key in its batch. -/
theorem get_commit (s : MemoryStorage) (batch : WriteBatch) (k : Bytes) :
    (s.commit batch).get k = (lastWrite k batch.ops).getD (s.get k) :=
  get_applyOps s.map batch.ops k

end MemoryStorage
end AlefsDb
