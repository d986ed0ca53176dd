import AlefsDb.Storage.Disk
import AlefsDb.Theorems.IndexQuery

/-!
# Prefix scans find exactly the rows that are meant

A scan stops at the first key without the prefix, which is right because the keys with a prefix are an interval of the order.
Which rows have the prefix is a question about the layout of keys: ids are eight raw bytes, any of which may be a slash, so the
rows of children are told apart by position and length. Only in the type index is the separator needed to end the type name, and
the scan of a type is exact because no type name has a slash. So `paths_with_type` finds the nodes of the type and no others.
-/

namespace AlefsDb

/-! ## Type names -/

/-- The names under which nodes are in the type index. -/
def typeNames : List String :=
  ["null", "bool", "int", "float", "string", "bytes", "hash", "set", "list", "tree", "directory"]

/-- The type names are those of the nodes. -/
theorem mem_typeNames_iff {t : String} : t ∈ typeNames ↔ ∃ a : Node, a.typeName = t := by
  constructor
  · intro h
    simp only [typeNames, List.mem_cons, List.not_mem_nil, or_false] at h
    rcases h with rfl | rfl | rfl | rfl | rfl | rfl | rfl | rfl | rfl | rfl | rfl
    · exact ⟨.value (.scalar .null), rfl⟩
    · exact ⟨.value (.scalar (.bool true)), rfl⟩
    · exact ⟨.value (.scalar (.int 0)), rfl⟩
    · exact ⟨.value (.scalar (.float 0)), rfl⟩
    · exact ⟨.value (.scalar (.string "")), rfl⟩
    · exact ⟨.value (.scalar (.bytes [])), rfl⟩
    · exact ⟨.value (.hash []), rfl⟩
    · exact ⟨.value (.set []), rfl⟩
    · exact ⟨.value (.list []), rfl⟩
    · exact ⟨.value (.tree []), rfl⟩
    · exact ⟨.dir, rfl⟩
  · rintro ⟨a, rfl⟩
    cases a with
    | dir => simp [Node.typeName, typeNames]
    | value v =>
      cases v with
      | scalar s => cases s <;> simp [Node.typeName, Value.typename, typeNames]
      | hash | set | list | tree => simp [Node.typeName, Value.typename, typeNames]

/-- No type name has a slash. -/
theorem slash_notMem_typeName {t : String} (h : t ∈ typeNames) : 47 ∉ utf8 t := by
  revert t
  decide

/-- A row of the type index is under one of the type names. -/
def Key.Typed : Key → Prop
  | .typeIndex t _ => t ∈ typeNames
  | _ => True

instance (key : Key) : Decidable key.Typed := by
  cases key <;> unfold Key.Typed <;> infer_instance

/-- Among rows under type names, those with the prefix of a type are its rows. -/
theorem Key.Typed.typeIndexPrefix_iff {key : Key} (h : key.Typed) {t : String} (ht : t ∈ typeNames) :
    typeIndexPrefix t <+: key.bytes ↔ ∃ id, key = .typeIndex t id := by
  refine Key.typeIndexPrefix_iff (slash_notMem_typeName ht) ?_
  rintro t' id rfl
  exact slash_notMem_typeName h

/-! ## Rows by name -/

/-- A write of a row that is given by its name. -/
inductive RowWrite where
  | put (key : Key) (value : Bytes)
  | delete (key : Key)
  deriving DecidableEq

namespace RowWrite

def key : RowWrite → Key
  | put key _ => key
  | delete key => key

/-- What a write leaves in its row. -/
def value : RowWrite → Option Bytes
  | put _ value => some value
  | delete _ => none

/-- The operation of a batch that does the write. -/
def op : RowWrite → BatchOp
  | put key value => .put key.bytes value
  | delete key => .delete key.bytes

/-- What a write does to a table of rows by name. -/
def apply (table : Key → Option Bytes) (w : RowWrite) : Key → Option Bytes := Function.update table w.key w.value

end RowWrite

/-- The rows by name after writes on an empty store. -/
def tableOf (writes : List RowWrite) : Key → Option Bytes := writes.foldl RowWrite.apply (fun _ => none)

/-- The rows of the type index in a table are under the type names. -/
def TypedTable (table : Key → Option Bytes) : Prop := ∀ key, table key ≠ none → key.Typed

namespace TypedTable

variable {table : Key → Option Bytes}

theorem empty : TypedTable (fun _ => none) := fun _ hkey => absurd rfl hkey

theorem apply (h : TypedTable table) {w : RowWrite} (hw : w.key.Typed) : TypedTable (w.apply table) := by
  intro key hkey
  rw [RowWrite.apply, Function.update_apply] at hkey
  split at hkey
  · rename_i he
    exact he ▸ hw
  · exact h key hkey

/-- Writes under the type names leave rows under the type names. -/
theorem applyOps (h : TypedTable table) {writes : List RowWrite} (hwrites : ∀ w ∈ writes, w.key.Typed) :
    TypedTable (writes.foldl RowWrite.apply table) := by
  induction writes generalizing table with
  | nil => exact h
  | cons w writes ih =>
    have hw := h.apply (hwrites w List.mem_cons_self)
    exact ih hw (fun w' hw' => hwrites w' (List.mem_cons_of_mem _ hw'))

end TypedTable

namespace HoldsTable

variable {rows : Rows} {table : Key → Option Bytes}

theorem empty : HoldsTable OrdMap.empty (fun _ => none) := ⟨fun _ => rfl, nofun⟩

/-- A write changes the row of its name and no other, because different names have different keys. -/
theorem apply (h : HoldsTable rows table) (w : RowWrite) : HoldsTable (w.op.apply rows) (w.apply table) := by
  have hkey : w.op.key = w.key.bytes := by cases w <;> rfl
  have hvalue : w.op.value = w.value := by cases w <;> rfl
  refine ⟨?_, ?_⟩
  · intro key
    rw [BatchOp.get_apply, hkey, hvalue, RowWrite.apply, Function.update_apply, h.get]
    simp only [Key.bytes_inj]
  · intro k v hk
    rw [BatchOp.get_apply, hkey] at hk
    split at hk
    · rename_i he
      exact ⟨w.key, he⟩
    · exact h.named hk

/-- After writes, the rows are those of the table after the writes. -/
theorem applyOps (h : HoldsTable rows table) (writes : List RowWrite) :
    HoldsTable (applyOps rows (writes.map RowWrite.op)) (writes.foldl RowWrite.apply table) := by
  induction writes generalizing rows table with
  | nil => exact h
  | cons w writes ih => exact ih (h.apply w)

/-- The scan of a type finds the rows of the index under the type. -/
theorem mem_scan_type (h : HoldsTable rows table) (htyped : TypedTable table) {t : String} (ht : t ∈ typeNames) {k v : Bytes} :
    (k, v) ∈ rows.scanPrefix (typeIndexPrefix t) ↔ ∃ id, k = typeIndexKey t id ∧ table (.typeIndex t id) = some v := by
  rw [rows.mem_scanPrefix]
  constructor
  · rintro ⟨hget, hprefix⟩
    obtain ⟨key, rfl⟩ := h.named hget
    have hrow : table key = some v := (h.get key).symm.trans hget
    have hkey : key.Typed := htyped key (by simp [hrow])
    obtain ⟨id, rfl⟩ := (hkey.typeIndexPrefix_iff ht).mp hprefix
    exact ⟨id, rfl, hrow⟩
  · rintro ⟨id, rfl, hrow⟩
    exact ⟨(h.get (.typeIndex t id)).trans hrow, encodeId id, rfl⟩

end HoldsTable

/-! ## The rows of a graph -/

namespace Stores

variable {rows : Rows} {G : Graph} {next : UInt64}

/-- The type index of a graph is under the type names of its nodes. -/
theorem typedTable (h : Stores rows G next) : TypedTable (fun key => rows.get key.bytes) := by
  intro key hkey
  obtain ⟨v, hv⟩ := Option.ne_none_iff_exists'.mp hkey
  cases key with
  | typeIndex t id =>
    obtain ⟨p, a, -, rfl, -⟩ := (h.row _).mp hv
    exact mem_typeNames_iff.mpr ⟨a, rfl⟩
  | nextId | indexVersion | node | child => trivial

/-- The scan of a type finds the nodes of the type in the graph, with their paths. -/
theorem mem_scan_type (h : Stores rows G next) {t : String} (ht : t ∈ typeNames) {k v : Bytes} :
    (k, v) ∈ rows.scanPrefix (typeIndexPrefix t) ↔
      ∃ p id a, G p = some (id, a) ∧ a.typeName = t ∧ k = typeIndexKey t id ∧ v = utf8 (pathText p) := by
  rw [h.holdsTable.mem_scan_type h.typedTable ht]
  constructor
  · rintro ⟨id, rfl, hrow⟩
    obtain ⟨p, a, hp, rfl, rfl⟩ := (h.row _).mp hrow
    exact ⟨p, id, a, hp, rfl, rfl, rfl⟩
  · rintro ⟨p, id, a, hp, rfl, rfl, rfl⟩
    exact ⟨id, rfl, (h.row _).mpr ⟨p, a, hp, rfl, rfl⟩⟩

end Stores

namespace Query

open Database

variable {db : Database} {G : Graph} {next : UInt64}

/-- `paths_with_type` of a type name returns the paths of the nodes of the type and no others, each once. -/
theorem pathsWithType_exact (h : Stores db.store.map G next) (hsegments : ParsedSegments G) {t : String} (ht : t ∈ typeNames) :
    ∃ paths, db.pathsWithType t = .ok paths ∧ paths.Nodup ∧
      ∀ path : DbPath, path ∈ paths ↔ ∃ id a, G path.segments = some (id, a) ∧ a.typeName = t := by
  obtain ⟨paths, hpaths, hnodup, hfound, hcomplete⟩ := pathsWithType_eq h hsegments t
  refine ⟨paths, hpaths, hnodup, fun path => ⟨fun hpath => ?_, fun ⟨id, a, hp, hname⟩ => hcomplete path id a hp hname⟩⟩
  obtain ⟨id, a, hp, hprefix⟩ := hfound path hpath
  have htyped : (Key.typeIndex a.typeName id).Typed := mem_typeNames_iff.mpr ⟨a, rfl⟩
  obtain ⟨id', hkey⟩ := (htyped.typeIndexPrefix_iff ht).mp hprefix
  cases hkey
  exact ⟨id, a, hp, rfl⟩

/-- In every state of a run on parsed paths, `paths_with_type` of each type name finds the nodes of the type. -/
theorem reached_pathsWithType (hreached : Reached Command.Parsed db) :
    ∃ G next, Stores db.store.map G next ∧ ∀ t ∈ typeNames, ∃ paths, db.pathsWithType t = .ok paths ∧ paths.Nodup ∧
      ∀ path : DbPath, path ∈ paths ↔ ∃ id a, G path.segments = some (id, a) ∧ a.typeName = t := by
  obtain ⟨G, next, h, hsegments⟩ := reached_parsedSegments hreached
  exact ⟨G, next, h, fun t ht => pathsWithType_exact h hsegments ht⟩

end Query

/-! ## Scans of the durable store -/

namespace WalStorage

/-- Prefix scans find exactly the rows that are meant. On any map, the scan of a prefix gives the entries whose keys have it, with
their keys in strictly ascending order. Different rows have different keys. And after any writes of rows by name, the scan of a
parent gives the rows of its children, whose names are the bytes behind the prefix, and the scan of a type name gives the rows of
the index under the type, when the index is written under type names. -/
theorem prefix_scans_exact :
    (∀ (s : WalStorage) (pre : Bytes), s.scanPrefix pre = s.map.entries.filter (fun row => decide (pre <+: row.1)) ∧
      (∀ k v, (k, v) ∈ s.scanPrefix pre ↔ s.get k = some v ∧ pre <+: k) ∧
      OrdMap.Ascending (s.scanPrefix pre) ∧ ((s.scanPrefix pre).map Prod.fst).Nodup) ∧
    (∀ key key' : Key, key ≠ key' → key.bytes ≠ key'.bytes) ∧
    ∀ (s : WalStorage) (writes : List RowWrite), s.map = applyOps OrdMap.empty (writes.map RowWrite.op) →
      (∀ parent k v, (k, v) ∈ s.scanPrefix (childPrefix parent) ↔
        ∃ name, k = childKey parent name ∧ fromUtf8 (k.drop (childPrefix parent).length) = some name ∧
          tableOf writes (.child parent name) = some v) ∧
      ((∀ w ∈ writes, w.key.Typed) → ∀ t ∈ typeNames, ∀ k v, (k, v) ∈ s.scanPrefix (typeIndexPrefix t) ↔
        ∃ id, k = typeIndexKey t id ∧ tableOf writes (.typeIndex t id) = some v) := by
  refine ⟨?_, fun key key' hne he => hne (Key.bytes_injective he), ?_⟩
  · intro s pre
    refine ⟨s.map.scanPrefix_eq_filter_prefix pre, s.map.mem_scanPrefix pre, s.map.scanPrefix_ascending pre, ?_⟩
    exact s.map.nodup_keys.sublist ((s.map.scanPrefix_sublist pre).map _)
  · intro s writes hs
    have htable : HoldsTable s.map (tableOf writes) := hs ▸ HoldsTable.empty.applyOps writes
    refine ⟨?_, fun htyped t ht k v => htable.mem_scan_type (TypedTable.empty.applyOps htyped) ht⟩
    intro parent k v
    refine htable.mem_scan_children.trans ⟨?_, ?_⟩
    · rintro ⟨name, rfl, hrow⟩
      exact ⟨name, rfl, name_of_childKey parent name, hrow⟩
    · rintro ⟨name, hk, -, hrow⟩
      exact ⟨name, hk, hrow⟩

/-- Writes of rows with slashes in ids and names: the id 47 has one as its last byte, and the other id is eight of them. -/
def slashedWrites : List RowWrite :=
  [.put (.child 47 "/") [1], .put (.child 3399988123389603631 "a/b") [2], .put (.typeIndex "int" 47) [3],
    .put (.typeIndex "int" 3399988123389603631) [4], .delete (.typeIndex "int" 47), .put .nextId [5]]

def slashedStore : WalStorage := ⟨applyOps OrdMap.empty (slashedWrites.map RowWrite.op), 0, 0⟩

/-- A type and a name with a slash in them. -/
theorem prefix_scans_slashed :
    (∀ k v, (k, v) ∈ slashedStore.scanPrefix (typeIndexPrefix "int") ↔
      ∃ id, k = typeIndexKey "int" id ∧ tableOf slashedWrites (.typeIndex "int" id) = some v) ∧
    (childKey 47 "/", [1]) ∈ slashedStore.scanPrefix (childPrefix 47) ∧
    (typeIndexKey "int" 3399988123389603631, [4]) ∈ slashedStore.scanPrefix (typeIndexPrefix "int") := by
  obtain ⟨hchild, htype⟩ := prefix_scans_exact.2.2 slashedStore slashedWrites rfl
  have htype := htype (by decide) "int" (by decide)
  refine ⟨htype, ?_, ?_⟩
  · exact (hchild 47 _ _).mpr ⟨"/", rfl, name_of_childKey 47 "/", by decide⟩
  · exact (htype _ _).mpr ⟨3399988123389603631, rfl, by decide⟩

end WalStorage
end AlefsDb
