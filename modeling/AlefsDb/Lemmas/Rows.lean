import AlefsDb.Namespace.Graph

/-!
# Rows and the graph they stand for

`Stores rows G next`: the rows are exactly those that the graph `G` with the next id `next` calls for, the rows of the type index
among them. What each method reads is determined by the graph, and each batch that a method commits leads to the rows of the graph
with one node created, replaced or removed.
-/

namespace AlefsDb

/-! ## Keys by name -/

namespace Key

theorem bytes_inj (k k' : Key) : k.bytes = k'.bytes ↔ k = k' := ⟨bytes_injective, congrArg bytes⟩

@[simp] theorem bytes_eq_metaNextId {k : Key} : k.bytes = metaNextId ↔ k = .nextId := bytes_inj k .nextId

@[simp] theorem bytes_eq_nodeKey {k : Key} {id : UInt64} : k.bytes = nodeKey id ↔ k = .node id := bytes_inj k (.node id)

@[simp] theorem bytes_eq_childKey {k : Key} {parent : UInt64} {name : String} :
    k.bytes = childKey parent name ↔ k = .child parent name := bytes_inj k (.child parent name)

@[simp] theorem bytes_eq_typeIndexKey {k : Key} {typeName : String} {id : UInt64} :
    k.bytes = typeIndexKey typeName id ↔ k = .typeIndex typeName id := bytes_inj k (.typeIndex typeName id)

@[simp] theorem bytes_eq_metaTypeIndexVersion {k : Key} : k.bytes = metaTypeIndexVersion ↔ k = .indexVersion :=
  bytes_inj k .indexVersion

end Key

/-- The rows are those of a table, each under the bytes of its name. -/
structure HoldsTable (rows : Rows) (table : Key → Option Bytes) : Prop where
  get : ∀ key : Key, rows.get key.bytes = table key
  named : ∀ {k v}, rows.get k = some v → ∃ key : Key, k = key.bytes

/-- The scan of a parent finds the rows of its children. -/
theorem HoldsTable.mem_scan_children {rows : Rows} {table : Key → Option Bytes} (h : HoldsTable rows table) {parent : UInt64} {k v : Bytes} :
    (k, v) ∈ rows.scanPrefix (childPrefix parent) ↔ ∃ name, k = childKey parent name ∧ table (.child parent name) = some v := by
  rw [rows.mem_scanPrefix]
  constructor
  · rintro ⟨hget, hprefix⟩
    obtain ⟨key, rfl⟩ := h.named hget
    obtain ⟨name, rfl⟩ := Key.childPrefix_iff.mp hprefix
    exact ⟨name, rfl, (h.get _).symm.trans hget⟩
  · rintro ⟨name, rfl, hrow⟩
    exact ⟨(h.get (.child parent name)).trans hrow, Key.childPrefix_iff (k := .child parent name) |>.mpr ⟨name, rfl⟩⟩

/-- What the row of a name holds for a graph. -/
def Row (G : Graph) (next : UInt64) : Key → Bytes → Prop
  | .nextId, v => v = encodeId next
  | .indexVersion, v => v = Database.indexVersion
  | .node id, v => ∃ p a, G p = some (id, a) ∧ v = a.bytes
  | .child parent name, v => ∃ p id a, G p = some (parent, .dir) ∧ G (p ++ [name]) = some (id, a) ∧ v = encodeId id
  | .typeIndex typeName id, v => ∃ p a, G p = some (id, a) ∧ typeName = a.typeName ∧ v = utf8 (pathText p)

/-- The rows are exactly those that the graph calls for. -/
structure Stores (rows : Rows) (G : Graph) (next : UInt64) : Prop where
  wf : G.WellFormed next
  named : ∀ {k v}, rows.get k = some v → ∃ key : Key, k = key.bytes
  row : ∀ (key : Key) {v}, rows.get key.bytes = some v ↔ Row G next key v

/-- The keys of a batch are keys of rows. -/
def NamedKeys (ops : List BatchOp) : Prop := ∀ op ∈ ops, ∃ key : Key, op.key = key.bytes

/-- A batch on keys of rows leaves no other rows. -/
theorem named_applyOps {rows : Rows} {ops : List BatchOp} (h : ∀ {k v}, rows.get k = some v → ∃ key : Key, k = key.bytes)
    (hops : NamedKeys ops) {k v : Bytes} (hk : (applyOps rows ops).get k = some v) : ∃ key : Key, k = key.bytes := by
  induction ops generalizing rows with
  | nil => exact h hk
  | cons op ops ih =>
    refine ih ?_ (fun op' hop' => hops op' (List.mem_cons_of_mem _ hop')) hk
    intro k' v' hk'
    rw [BatchOp.get_apply] at hk'
    split at hk'
    · rename_i he
      obtain ⟨key, hkey⟩ := hops op List.mem_cons_self
      exact ⟨key, he.trans hkey⟩
    · exact h hk'

namespace Stores

variable {rows : Rows} {G : Graph} {next : UInt64}

/-! ## Reading -/

/-- The rows of a graph hold its next id. -/
theorem get_nextId (h : Stores rows G next) : rows.get metaNextId = some (encodeId next) :=
  (h.row .nextId).mpr rfl

/-- The rows of a graph hold its nodes. -/
theorem get_node (h : Stores rows G next) {p : List String} {i : UInt64} {a : Node} (hp : G p = some (i, a)) :
    rows.get (nodeKey i) = some a.bytes :=
  (h.row (.node i)).mpr ⟨p, a, hp, rfl⟩

/-- The child row of a name under a node. -/
theorem get_child (h : Stores rows G next) {p : List String} {i : UInt64} {a : Node} (hp : G p = some (i, a)) (s : String) :
    rows.get (childKey i s) = (G (p ++ [s])).map (fun x => encodeId x.1) := by
  cases hs : G (p ++ [s]) with
  | some x =>
    obtain ⟨j, hj⟩ := h.wf.parent hs
    obtain rfl : i = j := by
      rw [hp] at hj
      cases hj
      rfl
    exact (h.row (.child i s)).mpr ⟨p, x.1, x.2, hj, hs, rfl⟩
  | none =>
    cases hv : rows.get (childKey i s) with
    | none => rfl
    | some v =>
      obtain ⟨q, j, b, hq, hqs, -⟩ := (h.row (.child i s)).mp hv
      rw [h.wf.unique hq hp, hs] at hqs
      cases hqs

/-- The rows of a graph are a table of its keys. -/
theorem holdsTable (h : Stores rows G next) : HoldsTable rows (fun key => rows.get key.bytes) := ⟨fun _ => rfl, h.named⟩

/-- The scan of a directory finds the children that it has in the graph, with their ids. -/
theorem mem_scan_children (h : Stores rows G next) {p : List String} {id : UInt64} (hp : G p = some (id, .dir)) {k v : Bytes} :
    (k, v) ∈ rows.scanPrefix (childPrefix id) ↔
      ∃ name j a, G (p ++ [name]) = some (j, a) ∧ k = childKey id name ∧ v = encodeId j := by
  rw [h.holdsTable.mem_scan_children]
  constructor
  · rintro ⟨name, rfl, hrow⟩
    obtain ⟨q, j, a, hq, hname, rfl⟩ := (h.row _).mp hrow
    rw [h.wf.unique hq hp] at hname
    exact ⟨name, j, a, hname, rfl, rfl⟩
  · rintro ⟨name, j, a, hname, rfl, rfl⟩
    exact ⟨name, rfl, (h.row _).mpr ⟨p, j, a, hp, hname, rfl⟩⟩

end Stores

/-- There are at most as many nodes as rows. -/
theorem Stores.atMost {rows : Rows} {G : Graph} {next : UInt64} (h : Stores rows G next) : AtMost G.Live rows.size := by
  intro l hnodup hlive
  -- different paths have node rows of different keys
  let key : List String → Bytes := fun p => nodeKey ((G p).elim 0 Prod.fst)
  have hkeys : (l.map key).Nodup := by
    refine List.Nodup.map_on (fun p hp q hq hpq => ?_) hnodup
    obtain ⟨⟨i, a⟩, hi⟩ := hlive p hp
    obtain ⟨⟨j, b⟩, hj⟩ := hlive q hq
    have hij : Key.node i = Key.node j := Key.bytes_injective (by simp only [key, hi, hj] at hpq; exact hpq)
    cases hij
    exact h.wf.unique hi hj
  have hrows : l.map key ⊆ rows.entries.map Prod.fst := by
    intro k hk
    obtain ⟨p, hp, rfl⟩ := List.mem_map.mp hk
    obtain ⟨⟨i, a⟩, hi⟩ := hlive p hp
    have hget : rows.get (key p) = some a.bytes := by simpa [key, hi] using h.get_node hi
    exact List.mem_map.mpr ⟨_, (rows.mem_entries_iff _ _).mpr hget, rfl⟩
  have hlength := (List.subperm_of_subset hkeys hrows).length_le
  rwa [List.length_map, List.length_map] at hlength

/-! ## The batches that write -/

/-- The batch that creates a node under the next id. -/
def createOps (next parentId : UInt64) (name text : String) (a : Node) : List BatchOp :=
  [.put metaNextId (encodeId (next + 1)), .put (nodeKey next) a.bytes, .put (childKey parentId name) (encodeId next),
    .put (typeIndexKey a.typeName next) (utf8 text)]

/-- The batch that replaces a value. -/
def replaceOps (id : UInt64) (oldTy : String) (v : Value) (text : String) : List BatchOp :=
  (if oldTy ≠ v.typename then [.delete (typeIndexKey oldTy id)] else []) ++
    [.put (nodeKey id) (encodeValueNode (Codec.encode v)), .put (typeIndexKey v.typename id) (utf8 text)]

/-- The batch that removes a node. -/
def removeOps (id parentId : UInt64) (name ty : String) : List BatchOp :=
  [.delete (typeIndexKey ty id), .delete (childKey parentId name), .delete (nodeKey id)]

theorem namedKeys_createOps (next parentId : UInt64) (name text : String) (a : Node) :
    NamedKeys (createOps next parentId name text a) := by
  intro op hop
  simp only [createOps, List.mem_cons, List.not_mem_nil, or_false] at hop
  rcases hop with rfl | rfl | rfl | rfl
  · exact ⟨.nextId, rfl⟩
  · exact ⟨.node next, rfl⟩
  · exact ⟨.child parentId name, rfl⟩
  · exact ⟨.typeIndex a.typeName next, rfl⟩

theorem namedKeys_replaceOps (id : UInt64) (oldTy : String) (v : Value) (text : String) :
    NamedKeys (replaceOps id oldTy v text) := by
  intro op hop
  simp only [replaceOps, List.mem_append, List.mem_cons, List.not_mem_nil, or_false] at hop
  rcases hop with hop | rfl | rfl
  · split at hop
    · rw [List.mem_singleton.mp hop]
      exact ⟨.typeIndex oldTy id, rfl⟩
    · cases hop
  · exact ⟨.node id, rfl⟩
  · exact ⟨.typeIndex v.typename id, rfl⟩

theorem namedKeys_removeOps (id parentId : UInt64) (name ty : String) : NamedKeys (removeOps id parentId name ty) := by
  intro op hop
  simp only [removeOps, List.mem_cons, List.not_mem_nil, or_false] at hop
  rcases hop with rfl | rfl | rfl
  · exact ⟨.typeIndex ty id, rfl⟩
  · exact ⟨.child parentId name, rfl⟩
  · exact ⟨.node id, rfl⟩

namespace Stores

variable {rows : Rows} {G : Graph} {next : UInt64}

section

variable {p : List String} {s : String} {i : UInt64} {w : Bytes} {next' : UInt64}

/-- The next id is that of no node. -/
theorem next_fresh (hwf : G.WellFormed next) {q : List String} {b : Node} : G q ≠ some (next, b) :=
  fun hq => absurd (hwf.below hq) (Nat.lt_irrefl _)

/-- The row of a node after a creation. -/
theorem row_create_node (hwf : G.WellFormed next) (a : Node) (hnew : G (p ++ [s]) = none) (id : UInt64) :
    Row (G.create p s next a) next' (.node id) w ↔ if id = next then w = a.bytes else Row G next (.node id) w := by
  simp only [Row, Graph.create_eq_some hnew]
  split
  · rename_i hid
    subst hid
    constructor
    · rintro ⟨q, b, ⟨-, hb⟩ | hq, rfl⟩
      · cases hb
        rfl
      · exact absurd hq (next_fresh hwf)
    · rintro rfl
      exact ⟨p ++ [s], a, Or.inl ⟨rfl, rfl⟩, rfl⟩
  · rename_i hid
    constructor
    · rintro ⟨q, b, ⟨-, hb⟩ | hq, hw⟩
      · exact absurd (congrArg Prod.fst hb) hid
      · exact ⟨q, b, hq, hw⟩
    · rintro ⟨q, b, hq, hw⟩
      exact ⟨q, b, Or.inr hq, hw⟩

/-- The row of a child after a creation. -/
theorem row_create_child (hwf : G.WellFormed next) (a : Node) (hp : G p = some (i, .dir)) (hnew : G (p ++ [s]) = none)
    (parent : UInt64) (name : String) : Row (G.create p s next a) next' (.child parent name) w ↔
      if parent = i ∧ name = s then w = encodeId next else Row G next (.child parent name) w := by
  simp only [Row, Graph.create_eq_some hnew]
  split
  · rename_i hchild
    obtain ⟨rfl, rfl⟩ := hchild
    constructor
    · rintro ⟨q, j, b, hq, hqs, rfl⟩
      have hq : G q = some (parent, .dir) := by
        rcases hq with ⟨-, hq⟩ | hq
        · cases hq
          exact absurd hp (next_fresh hwf)
        · exact hq
      rw [hwf.unique hq hp] at hqs
      rcases hqs with ⟨-, hqs⟩ | hqs
      · cases hqs
        rfl
      · rw [hnew] at hqs
        cases hqs
    · rintro rfl
      exact ⟨p, next, a, Or.inr hp, Or.inl ⟨rfl, rfl⟩, rfl⟩
  · rename_i hchild
    constructor
    · rintro ⟨q, j, b, ⟨rfl, -⟩ | hq, ⟨hqs, -⟩ | hqs, hw⟩
      · exact absurd hqs (append_singleton_ne_self _ _)
      · rw [hwf.none_below hnew] at hqs
        cases hqs
      · -- the parent would be the directory of the new node
        obtain ⟨rfl, hname⟩ := List.append_inj' hqs rfl
        rw [hp] at hq
        cases hq
        exact absurd ⟨rfl, by simpa using hname⟩ hchild
      · exact ⟨q, j, b, hq, hqs, hw⟩
    · rintro ⟨q, j, b, hq, hqs, hw⟩
      exact ⟨q, j, b, Or.inr hq, Or.inr hqs, hw⟩

/-- The row of the index after a creation. -/
theorem row_create_typeIndex (hwf : G.WellFormed next) (a : Node) (hnew : G (p ++ [s]) = none) (t : String) (id : UInt64) :
    Row (G.create p s next a) next' (.typeIndex t id) w ↔
      if t = a.typeName ∧ id = next then w = utf8 (pathText (p ++ [s])) else Row G next (.typeIndex t id) w := by
  simp only [Row, Graph.create_eq_some hnew]
  split
  · rename_i hindex
    obtain ⟨rfl, rfl⟩ := hindex
    constructor
    · rintro ⟨q, b, ⟨rfl, -⟩ | hq, -, rfl⟩
      · rfl
      · exact absurd hq (next_fresh hwf)
    · rintro rfl
      exact ⟨p ++ [s], a, Or.inl ⟨rfl, rfl⟩, rfl, rfl⟩
  · rename_i hindex
    constructor
    · rintro ⟨q, b, ⟨-, hb⟩ | hq, ht, hw⟩
      · cases hb
        exact absurd ⟨ht, rfl⟩ hindex
      · exact ⟨q, b, hq, ht, hw⟩
    · rintro ⟨q, b, hq, ht, hw⟩
      exact ⟨q, b, Or.inr hq, ht, hw⟩

end

/-- A row that is written, or else as it was. -/
theorem written_iff {c : Prop} [Decidable c] {x w : Bytes} {o : Option Bytes} {P : Prop} (h : o = some w ↔ P) :
    (if c then some x else o) = some w ↔ if c then w = x else P := by
  split
  · rw [Option.some_inj, eq_comm]
  · exact h

/-- Committing a creation. -/
theorem create (h : Stores rows G next) {p : List String} {s : String} {i : UInt64} (a : Node) (hp : G p = some (i, .dir))
    (hnew : G (p ++ [s]) = none) (hnext : next.toNat + 1 < 2 ^ 64) :
    Stores (applyOps rows (createOps next i s (pathText (p ++ [s])) a)) (G.create p s next a) (next + 1) := by
  refine ⟨h.wf.create a hp hnew hnext, named_applyOps h.named (namedKeys_createOps _ _ _ _ _), ?_⟩
  intro key v
  have hold := h.row key (v := v)
  simp only [createOps, applyOps_cons, applyOps_nil, BatchOp.get_apply, BatchOp.key, BatchOp.value, Key.bytes_eq_typeIndexKey,
    Key.bytes_eq_childKey, Key.bytes_eq_nodeKey, Key.bytes_eq_metaNextId]
  cases key with
  | nextId => simp [Row, eq_comm]
  | indexVersion => simpa [Row] using hold
  | node id =>
    simp only [reduceCtorEq, if_false, Key.node.injEq]
    rw [row_create_node h.wf a hnew]
    exact written_iff hold
  | child parent name =>
    simp only [reduceCtorEq, if_false, Key.child.injEq]
    rw [row_create_child h.wf a hp hnew]
    exact written_iff hold
  | typeIndex t id =>
    simp only [reduceCtorEq, if_false, Key.typeIndex.injEq]
    rw [row_create_typeIndex h.wf a hnew]
    exact written_iff hold

section

variable {p : List String} {i : UInt64} {old : Value} {w : Bytes}

/-- The row of a node after a replacement. -/
theorem row_replace_node (hwf : G.WellFormed next) (v : Value) (hp : G p = some (i, .value old)) (id : UInt64) :
    Row (G.replace p i v) next (.node id) w ↔ if id = i then w = encodeValueNode (Codec.encode v) else Row G next (.node id) w := by
  simp only [Row, Graph.replace_eq_some]
  split
  · rename_i hi
    subst hi
    constructor
    · rintro ⟨q, b, ⟨-, hb⟩ | ⟨hne, hq⟩, rfl⟩
      · cases hb
        rfl
      · exact absurd (hwf.unique hq hp) hne
    · rintro rfl
      exact ⟨p, .value v, Or.inl ⟨rfl, rfl⟩, rfl⟩
  · rename_i hi
    constructor
    · rintro ⟨q, b, ⟨-, hb⟩ | ⟨-, hq⟩, hw⟩
      · exact absurd (congrArg Prod.fst hb) hi
      · exact ⟨q, b, hq, hw⟩
    · rintro ⟨q, b, hq, hw⟩
      refine ⟨q, b, Or.inr ⟨?_, hq⟩, hw⟩
      rintro rfl
      rw [hp] at hq
      cases hq
      exact hi rfl

/-- The rows of the children are not changed by a replacement. -/
theorem row_replace_child (v : Value) (hp : G p = some (i, .value old)) (parent : UInt64) (name : String) :
    Row (G.replace p i v) next (.child parent name) w ↔ Row G next (.child parent name) w := by
  simp only [Row, Graph.replace_eq_some]
  constructor
  · rintro ⟨q, j, b, ⟨-, hq⟩ | ⟨-, hq⟩, hqs, hw⟩
    · cases hq
    · rcases hqs with ⟨hqp, hb⟩ | ⟨-, hqs⟩
      · cases hb
        exact ⟨q, i, .value old, hq, hqp ▸ hp, hw⟩
      · exact ⟨q, j, b, hq, hqs, hw⟩
  · rintro ⟨q, j, b, hq, hqs, hw⟩
    have hne : q ≠ p := by
      rintro rfl
      rw [hp] at hq
      cases hq
    by_cases hqp : q ++ [name] = p
    · rw [hqp, hp] at hqs
      cases hqs
      exact ⟨q, i, .value v, Or.inr ⟨hne, hq⟩, Or.inl ⟨hqp, rfl⟩, hw⟩
    · exact ⟨q, j, b, Or.inr ⟨hne, hq⟩, Or.inr ⟨hqp, hqs⟩, hw⟩

/-- The id of a value is in the index under the type of the value. -/
theorem row_typeIndex (hwf : G.WellFormed next) (hp : G p = some (i, .value old)) (t : String) :
    Row G next (.typeIndex t i) w ↔ t = old.typename ∧ w = utf8 (pathText p) := by
  constructor
  · rintro ⟨q, b, hq, rfl, rfl⟩
    obtain rfl := hwf.unique hq hp
    rw [hp] at hq
    cases hq
    exact ⟨rfl, rfl⟩
  · rintro ⟨rfl, rfl⟩
    exact ⟨p, .value old, hp, rfl, rfl⟩

/-- The rows of other ids in the index are not changed by a replacement. -/
theorem row_replace_typeIndex (v : Value) (hp : G p = some (i, .value old)) (t : String) {id : UInt64} (hi : id ≠ i) :
    Row (G.replace p i v) next (.typeIndex t id) w ↔ Row G next (.typeIndex t id) w := by
  simp only [Row, Graph.replace_eq_some]
  constructor
  · rintro ⟨q, b, ⟨-, hb⟩ | ⟨-, hq⟩, hb', hw⟩
    · exact absurd (congrArg Prod.fst hb) hi
    · exact ⟨q, b, hq, hb', hw⟩
  · rintro ⟨q, b, hq, hb, hw⟩
    refine ⟨q, b, Or.inr ⟨?_, hq⟩, hb, hw⟩
    rintro rfl
    rw [hp] at hq
    cases hq
    exact hi rfl

end

/-- Committing a replacement. The type index loses the row of the old type when the type changes. -/
theorem replace (h : Stores rows G next) {p : List String} {i : UInt64} {old : Value} (v : Value)
    (hp : G p = some (i, .value old)) :
    Stores (applyOps rows (replaceOps i old.typename v (pathText p))) (G.replace p i v) next := by
  have hwf := h.wf.replace v hp
  have hp' : G.replace p i v p = some (i, .value v) := Graph.replace_eq_some.mpr (Or.inl ⟨rfl, rfl⟩)
  refine ⟨hwf, named_applyOps h.named (namedKeys_replaceOps _ _ _ _), ?_⟩
  intro key w
  have hold := h.row key (v := w)
  have hget : (applyOps rows (replaceOps i old.typename v (pathText p))).get key.bytes =
      if key = .typeIndex v.typename i then some (utf8 (pathText p))
      else if key = .node i then some (encodeValueNode (Codec.encode v))
      else if key = .typeIndex old.typename i then none
      else rows.get key.bytes := by
    unfold replaceOps
    split <;> rename_i hty
    · simp [BatchOp.get_apply, BatchOp.key, BatchOp.value]
    · rw [not_not] at hty
      simp [BatchOp.get_apply, BatchOp.key, BatchOp.value, hty]
      grind
  rw [hget]
  cases key with
  | nextId => simpa [Row] using hold
  | indexVersion => simpa [Row] using hold
  | node id =>
    simp only [reduceCtorEq, if_false, Key.node.injEq]
    rw [row_replace_node h.wf v hp]
    exact written_iff hold
  | child parent name =>
    simp only [reduceCtorEq, if_false]
    rw [row_replace_child v hp]
    exact hold
  | typeIndex t id =>
    simp only [reduceCtorEq, if_false, Key.typeIndex.injEq]
    by_cases hi : id = i
    · subst hi
      rw [row_typeIndex hwf hp']
      by_cases ht : t = v.typename
      · simp [ht, eq_comm]
      · -- a row of the id under another type: there is none, before or after
        rw [if_neg (fun hc => ht hc.1)]
        split
        · simp [ht]
        · rename_i hold'
          rw [hold, row_typeIndex h.wf hp]
          exact iff_of_false (fun hc => hold' ⟨hc.1, rfl⟩) (fun hc => ht hc.1)
    · rw [if_neg (fun hc => hi hc.2), if_neg (fun hc => hi hc.2), row_replace_typeIndex v hp t hi]
      exact hold

section

variable {p : List String} {s : String} {i j : UInt64} {a : Node} {w : Bytes}

/-- The row of a node after a removal. -/
theorem row_remove_node (hwf : G.WellFormed next) (hs : G (p ++ [s]) = some (j, a)) (id : UInt64) :
    Row (G.remove (p ++ [s])) next (.node id) w ↔ ¬id = j ∧ Row G next (.node id) w := by
  simp only [Row, Graph.remove_eq_some]
  constructor
  · rintro ⟨q, b, ⟨hne, hq⟩, hw⟩
    refine ⟨?_, q, b, hq, hw⟩
    rintro rfl
    exact hne (hwf.unique hq hs)
  · rintro ⟨hj, q, b, hq, hw⟩
    refine ⟨q, b, ⟨?_, hq⟩, hw⟩
    rintro rfl
    rw [hs] at hq
    cases hq
    exact hj rfl

/-- The row of a child after a removal. -/
theorem row_remove_child (hwf : G.WellFormed next) (hp : G p = some (i, .dir)) (hleaf : ∀ t, G (p ++ [s] ++ [t]) = none)
    (parent : UInt64) (name : String) : Row (G.remove (p ++ [s])) next (.child parent name) w ↔
      ¬(parent = i ∧ name = s) ∧ Row G next (.child parent name) w := by
  simp only [Row, Graph.remove_eq_some]
  constructor
  · rintro ⟨q, k, b, ⟨-, hq⟩, ⟨hne, hqs⟩, hw⟩
    refine ⟨?_, q, k, b, hq, hqs, hw⟩
    rintro ⟨rfl, rfl⟩
    exact hne (by rw [hwf.unique hq hp])
  · rintro ⟨hchild, q, k, b, hq, hqs, hw⟩
    refine ⟨q, k, b, ⟨?_, hq⟩, ⟨?_, hqs⟩, hw⟩
    · rintro rfl
      rw [hleaf name] at hqs
      cases hqs
    · intro he
      obtain ⟨rfl, hname⟩ := List.append_inj' he rfl
      rw [hp] at hq
      cases hq
      exact hchild ⟨rfl, by simpa using hname⟩

/-- The row of the index after a removal. -/
theorem row_remove_typeIndex (hwf : G.WellFormed next) (hs : G (p ++ [s]) = some (j, a)) (t : String) (id : UInt64) :
    Row (G.remove (p ++ [s])) next (.typeIndex t id) w ↔ ¬(t = a.typeName ∧ id = j) ∧ Row G next (.typeIndex t id) w := by
  simp only [Row, Graph.remove_eq_some]
  constructor
  · rintro ⟨q, b, ⟨hne, hq⟩, hb, hw⟩
    refine ⟨?_, q, b, hq, hb, hw⟩
    rintro ⟨-, rfl⟩
    exact hne (hwf.unique hq hs)
  · rintro ⟨hindex, q, b, hq, hb, hw⟩
    refine ⟨q, b, ⟨?_, hq⟩, hb, hw⟩
    rintro rfl
    rw [hs] at hq
    cases hq
    exact hindex ⟨hb, rfl⟩

end

/-- A row that is taken away, or else as it was. -/
theorem removed_iff {c : Prop} [Decidable c] {w : Bytes} {o : Option Bytes} {P : Prop} (h : o = some w ↔ P) :
    (if c then none else o) = some w ↔ ¬c ∧ P := by
  split
  · rename_i hc
    simp [hc]
  · rename_i hc
    simp [hc, h]

/-- Committing a removal. -/
theorem remove (h : Stores rows G next) {p : List String} {s : String} {i j : UInt64} {a : Node}
    (hp : G p = some (i, .dir)) (hs : G (p ++ [s]) = some (j, a)) (hleaf : ∀ t, G (p ++ [s] ++ [t]) = none) :
    Stores (applyOps rows (removeOps j i s a.typeName)) (G.remove (p ++ [s])) next := by
  refine ⟨h.wf.remove (by simp) hleaf, named_applyOps h.named (namedKeys_removeOps _ _ _ _), ?_⟩
  intro key w
  have hold := h.row key (v := w)
  simp only [removeOps, applyOps_cons, applyOps_nil, BatchOp.get_apply, BatchOp.key, BatchOp.value, Key.bytes_eq_typeIndexKey,
    Key.bytes_eq_childKey, Key.bytes_eq_nodeKey]
  cases key with
  | nextId => simpa [Row] using hold
  | indexVersion => simpa [Row] using hold
  | node id =>
    simp only [reduceCtorEq, if_false, Key.node.injEq]
    rw [row_remove_node h.wf hs]
    exact removed_iff hold
  | child parent name =>
    simp only [reduceCtorEq, if_false, Key.child.injEq]
    rw [row_remove_child h.wf hp hleaf]
    exact removed_iff hold
  | typeIndex t id =>
    simp only [reduceCtorEq, if_false, Key.typeIndex.injEq]
    rw [row_remove_typeIndex h.wf hs]
    exact removed_iff hold

end Stores

/-! ## The methods that read -/

namespace Database

variable {db : Database} {G : Graph} {next : UInt64}

/-- The next id is read from its row. -/
theorem nextId_eq (h : Stores db.store.map G next) : db.nextId = .ok next := by
  simp [nextId, MemoryStorage.get, h.get_nextId]

/-- From a node on, `resolve` goes down to what the graph has at the path. -/
theorem resolveFrom_eq (h : Stores db.store.map G next) (path : DbPath) {p : List String} {i : UInt64} {a : Node}
    (hp : G p = some (i, a)) (rest : List String) :
    db.resolveFrom path i rest = match G (p ++ rest) with
      | some x => .ok x.1
      | none => Rust.err (.notFound path.asStr) := by
  induction rest generalizing p i a with
  | nil => rw [List.append_nil, hp, resolveFrom]
  | cons seg rest ih =>
    rw [resolveFrom, MemoryStorage.get, h.get_child hp seg]
    have happend : p ++ seg :: rest = p ++ [seg] ++ rest := by simp
    cases hs : G (p ++ [seg]) with
    | none =>
      rw [happend, h.wf.none_below hs]
      rfl
    | some x =>
      simp only [Option.map_some, decodeId_encodeId, Rust.okOr_some, Rust.ok_bind]
      rw [ih (a := x.2) hs, happend]

/-- `resolve` finds what the graph has. -/
theorem resolve_eq (h : Stores db.store.map G next) (path : DbPath) :
    db.resolve path = match G path.segments with
      | some x => .ok (x.1, x.2.record)
      | none => Rust.err (.notFound path.asStr) := by
  unfold resolve
  split
  · rename_i hroot
    have hnil : path.segments = [] := List.isEmpty_iff.mp hroot
    rw [hnil, h.wf.root, MemoryStorage.get, h.get_node h.wf.root]
    simp
  · rw [resolveFrom_eq h path h.wf.root, List.nil_append]
    cases hp : G path.segments with
    | none => rfl
    | some x =>
      obtain ⟨i, a⟩ := x
      simp [MemoryStorage.get, h.get_node hp]

/-- A path is there in the rows where it is in the graph. -/
theorem exists_eq (h : Stores db.store.map G next) (path : DbPath) : db.exists path = .ok (G path.segments).isSome := by
  rw [«exists», resolve_eq h path]
  cases G path.segments <;> rfl

/-- `resolve_parent` finds a directory. -/
theorem resolveParent_eq (h : Stores db.store.map G next) (parent : DbPath) :
    db.resolveParent parent = match G parent.segments with
      | some (i, .dir) => .ok i
      | some (_, .value _) => Rust.err (.notDirectory parent.asStr)
      | none => Rust.err (.parentMissing parent.asStr) := by
  rw [resolveParent, resolve_eq h parent]
  match G parent.segments with
  | some (i, .dir) => rfl
  | some (i, .value v) => rfl
  | none => rfl

/-- What `get` returns for a node. -/
def entryOf (path : DbPath) : Node → Rust NsError Entry
  | .dir => .ok { path := path, kind := .directory, value := none }
  | .value v => do
    let value ← decodeNode (Codec.encode v)
    return { path := path, kind := .value, value := some value }

/-- `get` gives the entry of the graph. -/
theorem get_eq (h : Stores db.store.map G next) (path : DbPath) :
    db.get path = match G path.segments with
      | some x => entryOf path x.2
      | none => Rust.err (.notFound path.asStr) := by
  rw [get, resolve_eq h path]
  match G path.segments with
  | some (i, .dir) => rfl
  | some (i, .value v) => rfl
  | none => rfl

end Database
end AlefsDb
