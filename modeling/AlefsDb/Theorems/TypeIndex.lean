import AlefsDb.Lemmas.Listing
import AlefsDb.Lemmas.Reached

/-!
# The type index

In every state of a run the type index has exactly one row for each node, under its type name and id, with its path. So rebuilding
the index from scratch changes nothing: the walk of `rebuild_type_index` comes to every node once and writes the row that is there.
-/

namespace AlefsDb

namespace Database

variable {db : Database} {G : Graph} {next : UInt64}

/-- The children of a directory are pushed onto the stack. -/
theorem pushChildren_eq (path : DbPath) {children : List (String × EntryKind)} (h : ∀ e ∈ children, ValidSegment e.1)
    (stack : List DbPath) : ∃ below, pushChildren path children stack = .ok (below ++ stack) ∧
      (below.map DbPath.segments).Perm ((children.map Prod.fst).map (fun s => path.segments ++ [s])) := by
  induction children generalizing stack with
  | nil => exact ⟨[], rfl, .nil⟩
  | cons e rest ih =>
    obtain ⟨name, kind⟩ := e
    obtain ⟨child, hjoin, hchild⟩ := path.join_eq (h _ List.mem_cons_self)
    obtain ⟨below, hbelow, hperm⟩ := ih (fun e he => h e (List.mem_cons_of_mem _ he)) (child :: stack)
    refine ⟨below ++ [child], ?_, ?_⟩
    · rw [pushChildren, hjoin, Rust.mapErr_ok, Rust.ok_bind, hbelow, List.append_assoc]
      rfl
    · rw [List.map_append, List.map_cons, List.map_nil, hchild, List.map_cons, List.map_cons]
      exact List.perm_append_comm.trans (hperm.cons _)

/-- What the walk of `rebuild_type_index` adds to its batch: rows that are there, one for every path that is not done. -/
structure Reindexes (rows : Rows) (G : Graph) (done : List (List String)) (puts : List BatchOp) : Prop where
  there : ∀ op ∈ puts, rows.get op.key = op.value
  all : ∀ p i a, G p = some (i, a) → p ∈ done ∨ ∃ op ∈ puts, op.key = typeIndexKey a.typeName i

/-- The row of a path. -/
def IndexesPath (G : Graph) (path : DbPath) (op : BatchOp) : Prop :=
  ∃ i a, G path.segments = some (i, a) ∧ op = .put (typeIndexKey a.typeName i) (utf8 path.asStr)

/-- A walk that comes to every path writes the row of every path. -/
theorem Reindexes.of_visited {rows : Rows} (h : Stores rows G next) {visited : List DbPath} {puts : List BatchOp}
    (hvisit : Visiting G.Live (visited.map DbPath.segments).reverse []) (hputs : List.Forall₂ (IndexesPath G) visited puts) :
    Reindexes rows G [] puts := by
  refine ⟨?_, ?_⟩
  · intro op hop
    obtain ⟨path, -, i, a, hp, rfl⟩ := forall₂_exists_left hputs hop
    exact (h.row (.typeIndex a.typeName i)).mpr ⟨path.segments, a, hp, rfl, rfl⟩
  · intro p i a hp
    obtain ⟨path, hpath, rfl⟩ := List.mem_map.mp (List.mem_reverse.mp (hvisit.complete h.wf.prefixClosed ⟨_, hp⟩))
    obtain ⟨op, hop, j, b, hp', rfl⟩ := forall₂_exists_right hputs hpath
    rw [hp] at hp'
    cases hp'
    exact Or.inr ⟨_, hop, rfl⟩

/-- One round of the walk: the error of a value that cannot be decoded, or the row of the path, with the children of the path on the
stack. -/
theorem rebuildLoop_round (h : Stores db.store.map G next) (hsegments : G.Segments ValidSegment) {path : DbPath} {i : UInt64}
    {a : Node} (hp : G path.segments = some (i, a)) (fuel : Nat) (stack : List DbPath) (batch : WriteBatch) :
    (∃ e v, db.rebuildLoop (fuel + 1) (path :: stack) batch = .error e ∧ a = .value v ∧
      decodeNode (Codec.encode v) = .error e) ∨
    (∃ (names : List String) (below : List DbPath), names.Nodup ∧ (∀ s, s ∈ names ↔ G.Live (path.segments ++ [s])) ∧
      (below.map DbPath.segments).Perm (names.map (fun s => path.segments ++ [s])) ∧
      db.rebuildLoop (fuel + 1) (path :: stack) batch =
        db.rebuildLoop fuel (below ++ stack) (batch.put (typeIndexKey a.typeName i) (utf8 path.asStr))) := by
  have hresolve : db.resolve path = .ok (i, a.record) := by rw [resolve_eq h, hp]
  rw [rebuildLoop, hresolve]
  cases a with
  | dir =>
    obtain ⟨children, hlist, hlists⟩ := list_eq h hp
    have hvalid : ∀ e ∈ children, ValidSegment e.1 := by
      intro e he
      obtain ⟨x, hx⟩ := (hlists.mem_names e.1).mp (List.mem_map_of_mem he)
      exact hsegments _ _ hx e.1 (by simp)
    obtain ⟨below, hbelow, hperm⟩ := pushChildren_eq path hvalid stack
    refine Or.inr ⟨children.map Prod.fst, below, hlists.nodup_names, hlists.mem_names, hperm, ?_⟩
    simp [Node.record, nodeTypeName, hlist, hbelow, Node.typeName]
  | value v =>
    cases hv : decodeNode (Codec.encode v) with
    | error e =>
      refine Or.inl ⟨e, v, ?_, rfl, hv⟩
      simp [Node.record, nodeTypeName, hv]
    | ok w =>
      refine Or.inr ⟨[], [], List.nodup_nil, ?_, .nil, ?_⟩
      · intro s
        simp [Graph.Live, h.wf.none_below_value hp s]
      · simp [Node.record, nodeTypeName, hv, typename_of_decodeNode hv, Node.typeName]

/-- The walk is over. -/
theorem rebuildLoop_nil (fuel : Nat) (batch : WriteBatch) : db.rebuildLoop fuel [] batch = .ok ⟨batch.ops ++ []⟩ := by
  rw [List.append_nil, rebuildLoop]

/-- The walk stops with the error of a value that cannot be decoded, or comes to every path that is not done. -/
theorem rebuildLoop_cases (h : Stores db.store.map G next) (hsegments : G.Segments ValidSegment) {fuel : Nat}
    {done : List (List String)} {stack : List DbPath} (hvisit : Visiting G.Live done (stack.map DbPath.segments))
    (hfuel : db.store.map.size ≤ done.length + fuel) (batch : WriteBatch) :
    (∃ e p i v, db.rebuildLoop fuel stack batch = .error e ∧ G p = some (i, .value v) ∧ decodeNode (Codec.encode v) = .error e) ∨
    (∃ visited puts, db.rebuildLoop fuel stack batch = .ok ⟨batch.ops ++ puts⟩ ∧
      Visiting G.Live ((visited.map DbPath.segments).reverse ++ done) [] ∧ List.Forall₂ (IndexesPath G) visited puts) := by
  induction fuel generalizing done stack batch with
  | zero =>
    cases stack with
    | nil => exact Or.inr ⟨[], [], rebuildLoop_nil _ batch, hvisit, .nil⟩
    | cons path stack =>
      have := hvisit.length_done_lt h.atMost
      omega
  | succ fuel ih =>
    cases stack with
    | nil => exact Or.inr ⟨[], [], rebuildLoop_nil _ batch, hvisit, .nil⟩
    | cons path stack =>
      obtain ⟨⟨i, a⟩, hp⟩ := hvisit.alive path.segments (by simp)
      rcases rebuildLoop_round h hsegments hp fuel stack batch with
        ⟨e, v, herror, rfl, hv⟩ | ⟨names, below, hnodup, hnames, hbelow, hround⟩
      · exact Or.inl ⟨e, path.segments, i, v, herror, hp, hv⟩
      · have hvisit' : Visiting G.Live (path.segments :: done) ((below ++ stack).map DbPath.segments) := by
          rw [List.map_append]
          exact hvisit.visit hnodup hnames hbelow
        rw [hround]
        rcases ih hvisit' (by rw [List.length_cons]; omega) (batch.put (typeIndexKey a.typeName i) (utf8 path.asStr)) with
          herror | ⟨visited, puts, hputs, hvisited, hrows⟩
        · exact Or.inl herror
        · refine Or.inr ⟨path :: visited, .put (typeIndexKey a.typeName i) (utf8 path.asStr) :: puts, ?_, ?_, ?_⟩
          · rw [hputs, WriteBatch.put, List.append_assoc]
            rfl
          · rw [List.map_cons, List.reverse_cons, List.append_assoc]
            exact hvisited
          · exact .cons ⟨i, a, hp, rfl⟩ hrows

/-- Rows are deleted one after the other. -/
theorem foldl_delete (rows : List (Bytes × Bytes)) (batch : WriteBatch) :
    (rows.foldl (fun batch row => batch.delete row.1) batch).ops = batch.ops ++ rows.map (fun row => .delete row.1) := by
  induction rows generalizing batch with
  | nil => simp
  | cons row rows ih => rw [List.foldl_cons, ih, WriteBatch.delete, List.map_cons, List.append_assoc]; rfl

/-- Deleting the rows of the index and writing them anew leaves them as they were. -/
theorem applyOps_reindex {rows : Rows} (h : Stores rows G next) {puts : List BatchOp} (hputs : Reindexes rows G [] puts) :
    applyOps rows ((rows.scanPrefix indexPrefix).map (fun row => .delete row.1) ++ puts) = rows := by
  ext k : 1
  rw [get_applyOps, lastWrite_append]
  cases hput : lastWrite k puts with
  | some v =>
    obtain ⟨op, hop, rfl, rfl⟩ := mem_of_lastWrite hput
    exact (hputs.there op hop).symm
  | none =>
    rw [Option.none_or]
    cases hdelete : lastWrite k ((rows.scanPrefix indexPrefix).map (fun row => .delete row.1)) with
    | none => rfl
    | some v =>
      -- a row that is deleted is one of the index, so it is written
      obtain ⟨op, hop, hkey, -⟩ := mem_of_lastWrite hdelete
      obtain ⟨⟨k', w⟩, hrow, rfl⟩ := List.mem_map.mp hop
      obtain rfl : k' = k := hkey
      obtain ⟨hget, hprefix⟩ := (rows.mem_scanPrefix _ _ _).mp hrow
      obtain ⟨key, rfl⟩ := h.named hget
      obtain ⟨t, i, rfl⟩ := Key.indexPrefix_iff.mp hprefix
      obtain ⟨p, a, hp, rfl, -⟩ := (h.row _).mp hget
      rcases hputs.all p i a hp with hdone | ⟨op', hop', hkey'⟩
      · cases hdone
      · have hkey : Key.bytes (.typeIndex a.typeName i) = op'.key := hkey'.symm
        rw [hkey] at hput
        exact absurd hput (lastWrite_ne_none hop')

/-- The batch of `rebuild_type_index` is made, with the rows of the paths after deletes, or it fails at a value that cannot be
decoded. -/
theorem rebuildBatch_cases (h : Stores db.store.map G next) (hsegments : G.Segments ValidSegment) :
    (∃ e p i v, rebuildBatch db = .error e ∧ G p = some (i, .value v) ∧ decodeNode (Codec.encode v) = .error e) ∨
    ∃ visited puts, rebuildBatch db =
        .ok ⟨(db.store.scanPrefix indexPrefix).map (fun row => .delete row.1) ++ puts⟩ ∧
      Visiting G.Live (visited.map DbPath.segments).reverse [] ∧ List.Forall₂ (IndexesPath G) visited puts := by
  have hstart : Visiting G.Live [] ([DbPath.root].map DbPath.segments) := Visiting.start ⟨_, h.wf.root⟩
  have hops := foldl_delete (db.store.scanPrefix indexPrefix) WriteBatch.new
  rcases rebuildLoop_cases h hsegments hstart (Nat.le_add_left _ _)
    ((db.store.scanPrefix indexPrefix).foldl (fun batch row => batch.delete row.1) WriteBatch.new) with
    herror | ⟨visited, puts, hputs, hvisited, hrows⟩
  · exact Or.inl herror
  · rw [hops] at hputs
    rw [List.append_nil] at hvisited
    exact Or.inr ⟨visited, puts, hputs, hvisited, hrows⟩

/-- `rebuild_type_index` leaves the rows as they are: it writes them anew, or stops at a value that cannot be decoded. -/
theorem rebuildTypeIndex_cases (h : Stores db.store.map G next) (hsegments : G.Segments ValidSegment) :
    rebuildTypeIndex db = .ok () db ∨
    ∃ e p i v, rebuildTypeIndex db = .error e db ∧ G p = some (i, .value v) ∧ decodeNode (Codec.encode v) = .error e := by
  rcases rebuildBatch_cases h hsegments with ⟨e, p, i, v, herror, hp, hv⟩ | ⟨visited, puts, hputs, hvisited, hrows⟩
  · exact Or.inr ⟨e, p, i, v, bind_of_error (read_of_error herror) _, hp, hv⟩
  · refine Or.inl ((bind_of_ok (read_of_ok hputs) _).trans ?_)
    exact congrArg (fun rows => EStateM.Result.ok () (⟨⟨rows⟩⟩ : Database))
      (applyOps_reindex h (Reindexes.of_visited h hvisited hrows))

/-- The type index has exactly one row for each node, under its type name and id, with its path. -/
structure IndexExact (db : Database) : Prop where
  live : ∀ {path id record}, db.resolve path = .ok (id, record) → ∃ a : Node, record = a.record ∧
    ∀ typeName v, db.store.get (typeIndexKey typeName id) = some v ↔ typeName = a.typeName ∧ v = utf8 path.asStr
  only : ∀ {k v}, indexPrefix <+: k → db.store.get k = some v → ∃ path id a, db.resolve path = .ok (id, Node.record a) ∧
    k = typeIndexKey a.typeName id ∧ v = utf8 path.asStr

/-- The index of a graph is the one that is built anew. -/
theorem indexExact (h : Stores db.store.map G next) (hsegments : G.Segments ValidSegment) : IndexExact db := by
  refine ⟨?_, ?_⟩
  · intro path id record hresolve
    rw [resolve_eq h] at hresolve
    split at hresolve
    · rename_i x hp
      obtain ⟨i, a⟩ := x
      cases hresolve
      refine ⟨a, rfl, fun typeName v => ?_⟩
      rw [MemoryStorage.get, show typeIndexKey typeName i = Key.bytes (.typeIndex typeName i) from rfl, h.row]
      constructor
      · rintro ⟨q, b, hq, rfl, rfl⟩
        obtain rfl := h.wf.unique hq hp
        rw [hp] at hq
        cases hq
        exact ⟨rfl, rfl⟩
      · rintro ⟨rfl, rfl⟩
        exact ⟨path.segments, a, hp, rfl, rfl⟩
    · cases hresolve
  · intro k v hprefix hget
    obtain ⟨key, rfl⟩ := h.named hget
    obtain ⟨t, i, rfl⟩ := Key.indexPrefix_iff.mp hprefix
    obtain ⟨p, a, hp, rfl, rfl⟩ := (h.row _).mp hget
    refine ⟨⟨p, hsegments p _ hp⟩, i, a, ?_, rfl, rfl⟩
    rw [resolve_eq h, hp]

/-- The type index that is maintained is the one rebuilt from scratch: in every state of a run it has exactly one row for each node,
and `rebuild_type_index` leaves the rows as they are. It succeeds when all values that are stored can be decoded. -/
theorem index_rebuilt_exact (hreached : Reached (fun _ => True) db) :
    IndexExact db ∧ left (rebuildTypeIndex db) = db ∧
      ((∀ id encoded, db.store.get (nodeKey id) = some (encodeValueNode encoded) → ∃ v, Codec.decode encoded = .ok v) →
        rebuildTypeIndex db = .ok () db) := by
  obtain ⟨G, next, h, hsegments⟩ := hreached.segments (fun _ _ op _ => op.path.valid)
  refine ⟨indexExact h hsegments, ?_, ?_⟩
  · rcases rebuildTypeIndex_cases h hsegments with hok | ⟨e, p, i, v, herror, -⟩
    · rw [hok]
      rfl
    · rw [herror]
      rfl
  · intro hdecode
    rcases rebuildTypeIndex_cases h hsegments with hok | ⟨e, p, i, v, -, hp, hv⟩
    · exact hok
    · obtain ⟨w, hw⟩ := hdecode i _ (h.get_node hp)
      rw [decodeNode, hw] at hv
      cases hv

/-- Beside a directory that is created and deleted, a list is replaced by an integer. -/
def changes : List Command :=
  [.call (.mkdir pathA), .call (.listPush ⟨["b"], by decide⟩ (.scalar .null)),
    .call (.set ⟨["b"], by decide⟩ (.scalar (.int 7))), .call (.delete pathA)]

/-- After the changes the index has the integer, and it is the one rebuilt. -/
theorem index_rebuilt_after_changes : ∃ db, runAll step opened changes = some db ∧
    db.store.get (typeIndexKey "int" 3) = some (utf8 "/b") ∧ IndexExact db ∧ left (rebuildTypeIndex db) = db := by
  refine ⟨_, rfl, by decide +kernel, ?_⟩
  have hreached := index_rebuilt_exact ⟨changes, Run.of_runAll (fun _ _ _ => trivial) rfl⟩
  exact ⟨hreached.1, hreached.2.1⟩

end Database
end AlefsDb
