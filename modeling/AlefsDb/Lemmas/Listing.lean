import AlefsDb.Lemmas.Rows

/-!
# Listings

What `list` returns on the rows of a graph: the names directly below a directory, in ascending order, each with the kind of its node.
-/

namespace AlefsDb

/-- The entries of a listing of the node at a path. -/
structure Lists (G : Graph) (p : List String) (l : List (String × EntryKind)) : Prop where
  ascending : OrdMap.Ascending l
  mem : ∀ name kind, (name, kind) ∈ l ↔ ∃ i a, G (p ++ [name]) = some (i, a) ∧ kind = a.kind

/-- There is one listing. -/
theorem Lists.unique {G : Graph} {p : List String} {l l' : List (String × EntryKind)} (h : Lists G p l) (h' : Lists G p l') :
    l = l' := by
  refine h.ascending.eq_of_lookup h'.ascending (fun name => ?_)
  ext kind
  rw [OrdMap.lookup_eq_some_iff h.ascending, OrdMap.lookup_eq_some_iff h'.ascending, h.mem, h'.mem]

/-- A listing names each child once. -/
theorem Lists.nodup_names {G : Graph} {p : List String} {l : List (String × EntryKind)} (h : Lists G p l) :
    (l.map Prod.fst).Nodup :=
  List.pairwise_map.mpr (h.ascending.imp (fun hlt => hlt.ne))

/-- A listing names the children of the directory. -/
theorem Lists.mem_names {G : Graph} {p : List String} {l : List (String × EntryKind)} (h : Lists G p l) (s : String) :
    s ∈ l.map Prod.fst ↔ G.Live (p ++ [s]) := by
  rw [List.mem_map]
  constructor
  · rintro ⟨⟨name, kind⟩, he, rfl⟩
    obtain ⟨i, a, hname, -⟩ := (h.mem name kind).mp he
    exact ⟨_, hname⟩
  · rintro ⟨⟨i, a⟩, hs⟩
    exact ⟨(s, a.kind), (h.mem s a.kind).mpr ⟨i, a, hs, rfl⟩, rfl⟩

/-- A row of a child, and what `list` shows for it. -/
def ShowsRow (G : Graph) (p : List String) (id : UInt64) (row : Bytes × Bytes) (shown : String × EntryKind) : Prop :=
  row.1 = childKey id shown.1 ∧ ∃ i a, G (p ++ [shown.1]) = some (i, a) ∧ row.2 = encodeId i ∧ shown.2 = a.kind

namespace Database

variable {db : Database} {G : Graph} {next : UInt64}

/-- A child row is shown with its name and the kind of its node. -/
theorem listRow_of_mem (h : Stores db.store.map G next) {p : List String} {id : UInt64} (hp : G p = some (id, .dir))
    {row : Bytes × Bytes} (hrow : row ∈ db.store.scanPrefix (childPrefix id)) :
    ∃ shown, db.listRow (childPrefix id) row = .ok shown ∧ ShowsRow G p id row shown := by
  obtain ⟨k, v⟩ := row
  obtain ⟨name, i, a, hname, rfl, rfl⟩ := (h.mem_scan_children hp).mp hrow
  refine ⟨(name, a.kind), ?_, rfl, i, a, hname, rfl, rfl⟩
  simp only [listRow, name_of_childKey, Rust.okOr_some, Rust.ok_bind, decodeId_encodeId, MemoryStorage.get, h.get_node hname,
    Node.parseNode_bytes, Rust.mapErr_ok]
  cases a <;> rfl

/-- `list` returns the listing of a directory. -/
theorem list_eq (h : Stores db.store.map G next) {path : DbPath} {id : UInt64} (hp : G path.segments = some (id, .dir)) :
    ∃ l, db.list path = .ok l ∧ Lists G path.segments l := by
  obtain ⟨out, hout, hrows⟩ := Rust.mapM_of_forall (fun row hrow => listRow_of_mem h hp hrow)
  have hkeys : (db.store.scanPrefix (childPrefix id)).map Prod.fst = out.map (fun shown => childKey id shown.1) := by
    rw [← List.forall₂_eq_eq_eq, List.forall₂_map_left_iff, List.forall₂_map_right_iff]
    exact hrows.imp (fun row shown hshow => hshow.1)
  have hnodup : (out.map Prod.fst).Nodup := by
    have hchild : (out.map (fun shown => childKey id shown.1)).Nodup := by
      rw [← hkeys]
      exact db.store.map.nodup_keys.sublist ((db.store.map.scanPrefix_sublist _).map _)
    have hmap : out.map (fun shown => childKey id shown.1) = (out.map Prod.fst).map (childKey id) := by rw [List.map_map]; rfl
    rw [hmap] at hchild
    exact hchild.of_map
  have hperm : (out.insertionSort (fun a b => a.1 ≤ b.1)).Perm out := List.perm_insertionSort _ out
  refine ⟨out.insertionSort (fun a b => a.1 ≤ b.1), ?_, ?_, ?_⟩
  · simp [list, resolve_eq h, hp, Node.record, hout]
  · exact OrdMap.ascending_insertionSort hnodup
  · intro name kind
    rw [hperm.mem_iff]
    constructor
    · intro hmem
      obtain ⟨row, -, -, i, a, hname, -, hkind⟩ := forall₂_exists_left hrows hmem
      exact ⟨i, a, hname, hkind⟩
    · rintro ⟨i, a, hname, rfl⟩
      have hrow : (childKey id name, encodeId i) ∈ db.store.scanPrefix (childPrefix id) :=
        (h.mem_scan_children hp).mpr ⟨name, i, a, hname, rfl, rfl⟩
      obtain ⟨⟨name', kind⟩, hmem, hkey, i', a', hname', -, hkind⟩ := forall₂_exists_right hrows hrow
      obtain rfl : name = name' := by
        have hsame : Key.child id name = Key.child id name' := Key.bytes_injective hkey
        cases hsame
        rfl
      rw [hname] at hname'
      cases hname'
      rwa [show kind = a.kind from hkind] at hmem

/-- What is not a directory has no listing. -/
theorem list_value (h : Stores db.store.map G next) {path : DbPath} {id : UInt64} {v : Value}
    (hp : G path.segments = some (id, .value v)) : db.list path = Rust.err (.notDirectory path.asStr) := by
  simp [list, resolve_eq h, hp, Node.record]

/-- A path that is not there is not listed. -/
theorem list_none (h : Stores db.store.map G next) {path : DbPath} (hp : G path.segments = none) :
    db.list path = Rust.err (.notFound path.asStr) := by
  simp [list, resolve_eq h, hp]

end Database
end AlefsDb
