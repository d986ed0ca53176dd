import AlefsDb.Lemmas.Alike
import AlefsDb.Theorems.RowScans
import Mathlib.Combinatorics.Enumerative.DoubleCounting

/-!
# Reads of databases that show the same

On databases whose graphs are alike every method that reads returns the same, with as many rows behind it.
-/

namespace AlefsDb

open Rust

/-! ## Texts with a NUL -/

namespace DbPath

theorem parseSegments_nul {segments : List String} (hvalid : ∀ s ∈ segments, ValidSegment s)
    (hnul : ∃ s ∈ segments, '\x00' ∈ s.toList) : parseSegments (segments.map String.toList) = Rust.err .invalidUtf8 := by
  induction segments with
  | nil =>
    obtain ⟨s, hs, -⟩ := hnul
    cases hs
  | cons s segments ih =>
    obtain ⟨hempty, hdot, hdots, -⟩ := hvalid s List.mem_cons_self
    have h₁ : s.toList ≠ [] := fun he => hempty (String.toList_inj.mp he)
    have h₂ : s.toList ≠ ['.'] := fun he => hdot (String.toList_inj.mp he)
    have h₃ : s.toList ≠ ['.', '.'] := fun he => hdots (String.toList_inj.mp he)
    rw [List.map_cons, parseSegments, if_neg h₁, if_neg (not_or.mpr ⟨h₂, h₃⟩)]
    by_cases hs : '\x00' ∈ s.toList
    · rw [if_pos hs]
    · rw [if_neg hs]
      obtain ⟨t, ht, htnul⟩ := hnul
      rcases List.mem_cons.mp ht with rfl | ht
      · exact absurd htnul hs
      · rw [ih (fun u hu => hvalid u (List.mem_cons_of_mem _ hu)) ⟨t, ht, htnul⟩]
        rfl

/-- The text of a path with a NUL is refused. -/
theorem parse_nul {segments : List String} (hvalid : ∀ s ∈ segments, ValidSegment s) (hnul : ∃ s ∈ segments, '\x00' ∈ s.toList) :
    parse (pathText segments) = Rust.err .invalidUtf8 := by
  have hne : segments ≠ [] := by
    rintro rfl
    obtain ⟨s, hs, -⟩ := hnul
    cases hs
  have hparse := parse_pathText hvalid hne
  rw [parseSegments_nul hvalid hnul] at hparse
  cases hr : parse (pathText segments) with
  | ok q =>
    rw [hr] at hparse
    cases hparse
  | error e =>
    rw [hr] at hparse
    exact congrArg Except.error (Except.error.inj hparse)

end DbPath

/-! ## Rows -/

namespace Graph

variable {G G' : Graph}

/-- Keys of rows that stand for the same. -/
inductive AlikeKey (G G' : Graph) : Key → Key → Prop where
  | nextId : AlikeKey G G' .nextId .nextId
  | indexVersion : AlikeKey G G' .indexVersion .indexVersion
  | node {p : List String} {i j : UInt64} {a b : Node} : G p = some (i, a) → G' p = some (j, b) → AlikeKey G G' (.node i) (.node j)
  | child {p : List String} {i j : UInt64} {a b : Node} (name : String) :
      G p = some (i, a) → G' p = some (j, b) → AlikeKey G G' (.child i name) (.child j name)
  | typeIndex {p : List String} {i j : UInt64} {a b : Node} (t : String) :
      G p = some (i, a) → G' p = some (j, b) → AlikeKey G G' (.typeIndex t i) (.typeIndex t j)

/-- Two keys that stand for the same one are the same. -/
theorem AlikeKey.unique {next' : UInt64} (hG' : G'.WellFormed next') {k k' l : Key}
    (h : AlikeKey G G' k l) (h' : AlikeKey G G' k' l) : k = k' := by
  -- one path is behind an id
  have hid : ∀ {p q i i' j a a' b b'}, G p = some (i, a) → G' p = some (j, b) → G q = some (i', a') → G' q = some (j, b') → i = i' := by
    intro p q i i' j a a' b b' hp hp' hq hq'
    obtain rfl := hG'.unique hp' hq'
    rw [hp] at hq
    cases hq
    rfl
  cases h with
  | nextId =>
    cases h'
    rfl
  | indexVersion =>
    cases h'
    rfl
  | node hp hp' =>
    cases h' with
    | node hq hq' => rw [hid hp hp' hq hq']
  | child name hp hp' =>
    cases h' with
    | child name hq hq' => rw [hid hp hp' hq hq']
  | typeIndex t hp hp' =>
    cases h' with
    | typeIndex t hq hq' => rw [hid hp hp' hq hq']

/-- The same name of a type, and a node of the same path. -/
theorem Alike.node (h : G.Alike G') {p : List String} {i : UInt64} {a : Node} (hp : G p = some (i, a)) :
    ∃ j b, G' p = some (j, b) ∧ b.typeName = a.typeName ∧ b.kind = a.kind := by
  rcases h.cases_at p with ⟨hq, -⟩ | ⟨k, l, hq, hq'⟩ | ⟨k, l, v, w, hq, hq', hv⟩
  · rw [hp] at hq
    cases hq
  · rw [hp] at hq
    cases hq
    exact ⟨l, .dir, hq', rfl, rfl⟩
  · rw [hp] at hq
    cases hq
    exact ⟨l, .value w, hq', hv.typeName.symm, rfl⟩

theorem Alike.dir (h : G.Alike G') {p : List String} {i : UInt64} (hp : G p = some (i, .dir)) : ∃ j, G' p = some (j, .dir) := by
  rcases h.cases_at p with ⟨hq, -⟩ | ⟨k, l, hq, hq'⟩ | ⟨k, l, v, w, hq, hq', -⟩
  · rw [hp] at hq
    cases hq
  · exact ⟨l, hq'⟩
  · rw [hp] at hq
    cases hq

/-- A row of one has its counterpart in the other. -/
theorem Alike.row (h : G.Alike G') {next next' : UInt64} {key : Key} {v : Bytes} (hrow : Row G next key v) :
    ∃ key' v', Row G' next' key' v' ∧ AlikeKey G G' key key' := by
  cases key with
  | nextId => exact ⟨.nextId, _, rfl, .nextId⟩
  | indexVersion => exact ⟨.indexVersion, _, rfl, .indexVersion⟩
  | node i =>
    obtain ⟨p, a, hp, -⟩ := hrow
    obtain ⟨j, b, hp', -⟩ := h.node hp
    exact ⟨.node j, _, ⟨p, b, hp', rfl⟩, .node hp hp'⟩
  | child i name =>
    obtain ⟨p, id, a, hp, hname, -⟩ := hrow
    obtain ⟨j, hp'⟩ := h.dir hp
    obtain ⟨k, b, hname', -⟩ := h.node hname
    exact ⟨.child j name, _, ⟨p, k, b, hp', hname', rfl⟩, .child name hp hp'⟩
  | typeIndex t i =>
    obtain ⟨p, a, hp, ht, -⟩ := hrow
    obtain ⟨j, b, hp', htype, -⟩ := h.node hp
    exact ⟨.typeIndex t j, _, ⟨p, b, hp', ht.trans htype.symm, rfl⟩, .typeIndex t hp hp'⟩

end Graph

variable {G G' : Graph} {next next' : UInt64}

theorem Stores.size_le {rows rows' : Rows} (h : Stores rows G next) (h' : Stores rows' G' next') (hG : G.Alike G') :
    rows.size ≤ rows'.size := by
  have hcard := Finset.card_le_card_of_forall_subsingleton
    (fun k k' => ∃ key key' : Key, k = key.bytes ∧ k' = key'.bytes ∧ Graph.AlikeKey G G' key key')
    (s := (rows.entries.map Prod.fst).toFinset) (t := (rows'.entries.map Prod.fst).toFinset) ?_ ?_
  · rw [List.toFinset_card_of_nodup rows.nodup_keys, List.toFinset_card_of_nodup rows'.nodup_keys, List.length_map,
      List.length_map] at hcard
    exact hcard
  · intro k hk
    obtain ⟨⟨k, v⟩, hmem, rfl⟩ := List.mem_map.mp (List.mem_toFinset.mp hk)
    have hget := (rows.mem_entries_iff k v).mp hmem
    obtain ⟨key, rfl⟩ := h.named hget
    obtain ⟨key', v', hrow', hkeys⟩ := @Graph.Alike.row G G' hG next next' key _ ((h.row key).mp hget)
    refine ⟨key'.bytes, ?_, key, key', rfl, rfl, hkeys⟩
    exact List.mem_toFinset.mpr (List.mem_map.mpr ⟨_, (rows'.mem_entries_iff _ _).mpr ((h'.row key').mpr hrow'), rfl⟩)
  · rintro _ - _ ⟨-, key₁, key', rfl, rfl, h₁⟩ _ ⟨-, key₂, key'', rfl, hbytes, h₂⟩
    obtain rfl := Key.bytes_injective hbytes
    exact congrArg Key.bytes (h₁.unique h'.wf h₂)

/-- Trees that are alike have equally many rows. -/
theorem Stores.size_eq {rows rows' : Rows} (h : Stores rows G next) (h' : Stores rows' G' next') (hG : G.Alike G') :
    rows.size = rows'.size :=
  Nat.le_antisymm (h.size_le h' hG) (h'.size_le h hG.symm)

/-! ## Entries and listings -/

/-- A listing of one graph is one of the other. -/
theorem Lists.alike {p : List String} {l : List (String × EntryKind)} (h : Lists G p l) (hG : G.Alike G') : Lists G' p l := by
  have hkind : ∀ {G G' : Graph}, G.Alike G' → ∀ {name kind}, (∃ i a, G (p ++ [name]) = some (i, a) ∧ kind = a.kind) →
      ∃ i a, G' (p ++ [name]) = some (i, a) ∧ kind = a.kind := by
    rintro G G' hG name kind ⟨i, a, hname, rfl⟩
    obtain ⟨j, b, hname', -, hb⟩ := hG.node hname
    exact ⟨j, b, hname', hb.symm⟩
  exact ⟨h.ascending, fun name kind => (h.mem name kind).trans ⟨hkind hG, hkind hG.symm⟩⟩

namespace Database

variable {db db' : Database}

/-- `get` gives the same on graphs that are alike. -/
theorem get_alike (h : Stores db.store.map G next) (h' : Stores db'.store.map G' next') (hG : G.Alike G') (path : DbPath) :
    db.get path = db'.get path := by
  rw [get_eq h, get_eq h']
  rcases hG.cases_at path.segments with ⟨hp, hp'⟩ | ⟨i, j, hp, hp'⟩ | ⟨i, j, v, w, hp, hp', hv⟩
  · rw [hp, hp']
  · rw [hp, hp']
  · rw [hp, hp']
    dsimp only [entryOf]
    rw [hv.decoded]

/-- `list` gives the same on graphs that are alike. -/
theorem list_alike (h : Stores db.store.map G next) (h' : Stores db'.store.map G' next') (hG : G.Alike G') (path : DbPath) :
    db.list path = db'.list path := by
  rcases hG.cases_at path.segments with ⟨hp, hp'⟩ | ⟨i, j, hp, hp'⟩ | ⟨i, j, v, w, hp, hp', -⟩
  · rw [list_none h hp, list_none h' hp']
  · obtain ⟨l, hl, hlists⟩ := list_eq h hp
    obtain ⟨l', hl', hlists'⟩ := list_eq h' hp'
    rw [hl, hl', (hlists.alike hG).unique hlists']
  · rw [list_value h hp, list_value h' hp']

/-! ## The type index -/

/-- A row of the type index, and the path in it. -/
def TypeRow (G : Graph) (row : Bytes × Bytes) (path : DbPath) : Prop :=
  ∃ i a, G path.segments = some (i, a) ∧ row = (typeIndexKey a.typeName i, utf8 path.asStr)

/-- The paths of the nodes of a type, in the order of their texts. -/
structure ListsType (G : Graph) (t : String) (paths : List DbPath) : Prop where
  sorted : paths.Pairwise (fun a b => a.asStr ≤ b.asStr)
  nodup : paths.Nodup
  mem : ∀ path : DbPath, path ∈ paths ↔ ∃ i a, G path.segments = some (i, a) ∧ a.typeName = t

/-- The paths of a type are listed in one way. -/
theorem ListsType.unique {t : String} {paths paths' : List DbPath} (h : ListsType G t paths) (h' : ListsType G t paths') :
    paths = paths' := by
  have hperm : paths.Perm paths' :=
    (List.perm_ext_iff_of_nodup h.nodup h'.nodup).mpr fun path => (h.mem path).trans (h'.mem path).symm
  exact hperm.eq_of_pairwise (fun a b _ _ hab hba => DbPath.asStr_injective (le_antisymm hab hba)) h.sorted h'.sorted

/-- The paths of a type are the same in graphs that are alike. -/
theorem ListsType.alike {t : String} {paths : List DbPath} (h : ListsType G t paths) (hG : G.Alike G') : ListsType G' t paths := by
  have htype : ∀ {G G' : Graph}, G.Alike G' → ∀ {path : DbPath}, (∃ i a, G path.segments = some (i, a) ∧ a.typeName = t) →
      ∃ i a, G' path.segments = some (i, a) ∧ a.typeName = t := by
    rintro G G' hG path ⟨i, a, hp, rfl⟩
    obtain ⟨j, b, hp', hb, -⟩ := hG.node hp
    exact ⟨j, b, hp', hb⟩
  exact ⟨h.sorted, h.nodup, fun path => (h.mem path).trans ⟨htype hG, htype hG.symm⟩⟩

/-- A path of the type has NUL in its text. -/
def NulType (G : Graph) (t : String) : Prop := ∃ p i a, G p = some (i, a) ∧ a.typeName = t ∧ ∃ s ∈ p, '\x00' ∈ s.toList

/-- A path with a NUL character among those of a type is there in both graphs. -/
theorem NulType.alike {t : String} (h : NulType G t) (hG : G.Alike G') : NulType G' t := by
  obtain ⟨p, i, a, hp, rfl, hnul⟩ := h
  obtain ⟨j, b, hp', hb, -⟩ := hG.node hp
  exact ⟨p, j, b, hp', hb, hnul⟩

/-- Where a type has no slash in its name, `paths_with_type` returns the paths of its nodes, unless one of them has a NUL. -/
theorem pathsWithType_cases (h : Stores db.store.map G next) (hsegments : G.Segments ValidSegment) {t : String} (ht : 47 ∉ utf8 t) :
    (¬NulType G t ∧ ∃ paths, db.pathsWithType t = .ok paths ∧ ListsType G t paths) ∨
      NulType G t ∧ db.pathsWithType t = Rust.err (.path .invalidUtf8) := by
  have hscan : ∀ row ∈ db.store.scanPrefix (typeIndexPrefix t), ∃ path : DbPath, TypeRow G row path ∧
      typeIndexPrefix t <+: row.1 := by
    rintro ⟨k, v⟩ hmem
    obtain ⟨hget, hprefix⟩ := (db.store.map.mem_scanPrefix _ _ _).mp hmem
    obtain ⟨key, rfl⟩ := h.named hget
    obtain ⟨t', i, rfl⟩ := Key.indexPrefix_iff.mp (Key.indexPrefix_of_typeIndexPrefix hprefix)
    obtain ⟨p, a, hp, rfl, rfl⟩ := (h.row _).mp hget
    exact ⟨⟨p, hsegments p _ hp⟩, ⟨i, a, hp, rfl⟩, hprefix⟩
  have htype : ∀ {a : Node} {i : UInt64}, typeIndexPrefix t <+: typeIndexKey a.typeName i → a.typeName = t := by
    intro a i hprefix
    have hslash : ∀ t' id, Key.typeIndex a.typeName i = .typeIndex t' id → 47 ∉ utf8 t' := by
      intro t' id he
      cases he
      exact slash_notMem_typeName (mem_typeNames_iff.mpr ⟨a, rfl⟩)
    obtain ⟨id, hkey⟩ := (Key.typeIndexPrefix_iff (k := .typeIndex a.typeName i) ht hslash).mp hprefix
    cases hkey
    rfl
  have hrow : ∀ row ∈ db.store.scanPrefix (typeIndexPrefix t),
      (∃ path, indexedPath row = .ok path ∧ (TypeRow G row path ∧ path.NoNul)) ∨
        indexedPath row = .error (.err (.path .invalidUtf8)) := by
    intro row hmem
    obtain ⟨path, hpath, -⟩ := hscan row hmem
    obtain ⟨i, a, hp, rfl⟩ := hpath
    rw [indexedPath, fromUtf8_utf8, okOr_some, ok_bind]
    by_cases hnul : path.NoNul
    · exact Or.inl ⟨path, by rw [DbPath.parse_asStr hnul, mapErr_ok], ⟨i, a, hp, rfl⟩, hnul⟩
    · have hbad : DbPath.parse path.asStr = Rust.err .invalidUtf8 := DbPath.parse_nul path.valid (by simpa [DbPath.NoNul] using hnul)
      exact Or.inr (by rw [hbad]; rfl)
  rcases mapM_of_each hrow with ⟨out, hout, hrows⟩ | ⟨herror, row, hmem, hfails⟩
  · have hperm : (out.insertionSort (fun a b => a.asStr ≤ b.asStr)).Perm out := List.perm_insertionSort _ out
    -- a node of the type has its row, and its path is found
    have hfound : ∀ path : DbPath, ∀ i a, G path.segments = some (i, a) → a.typeName = t → path ∈ out ∧ path.NoNul := by
      rintro path i a hp rfl
      have hget : db.store.map.get (typeIndexKey a.typeName i) = some (utf8 path.asStr) :=
        (h.row (.typeIndex a.typeName i)).mpr ⟨path.segments, a, hp, rfl, rfl⟩
      have hmem : (typeIndexKey a.typeName i, utf8 path.asStr) ∈ db.store.scanPrefix (typeIndexPrefix a.typeName) :=
        (db.store.map.mem_scanPrefix _ _ _).mpr ⟨hget, encodeId i, rfl⟩
      obtain ⟨path', hpath', ⟨i', a', hp', he⟩, hnul⟩ := forall₂_exists_right hrows hmem
      obtain rfl : path = path' := DbPath.asStr_injective (utf8_injective (congrArg Prod.snd he))
      exact ⟨hpath', hnul⟩
    refine Or.inl ⟨?_, out.insertionSort (fun a b => a.asStr ≤ b.asStr), by simp [pathsWithType, hout], ?_, ?_, fun path => ?_⟩
    · rintro ⟨p, i, a, hp, ha, s, hs, hnul⟩
      exact (hfound ⟨p, hsegments p _ hp⟩ i a hp ha).2 s hs hnul
    · exact List.pairwise_insertionSort _ out
    · rw [hperm.nodup_iff]
      let key : DbPath → Bytes := fun path => (G path.segments).elim [] (fun x => typeIndexKey x.2.typeName x.1)
      have hkeys : (db.store.scanPrefix (typeIndexPrefix t)).map Prod.fst = out.map key := by
        rw [← List.forall₂_eq_eq_eq, List.forall₂_map_left_iff, List.forall₂_map_right_iff]
        refine hrows.imp (fun row path hindexed => ?_)
        obtain ⟨⟨i, a, hp, rfl⟩, -⟩ := hindexed
        simp only [key, hp, Option.elim_some]
      have hnodup : (out.map key).Nodup := by
        rw [← hkeys]
        exact db.store.map.nodup_keys.sublist ((db.store.map.scanPrefix_sublist _).map _)
      exact hnodup.of_map
    · rw [hperm.mem_iff]
      constructor
      · intro hpath
        obtain ⟨row, hmem, ⟨i, a, hp, rfl⟩, -⟩ := forall₂_exists_left hrows hpath
        exact ⟨i, a, hp, htype ((db.store.map.mem_scanPrefix _ _ _).mp hmem).2⟩
      · rintro ⟨i, a, hp, ha⟩
        exact (hfound path i a hp ha).1
  · obtain ⟨path, ⟨i, a, hp, rfl⟩, hprefix⟩ := hscan row hmem
    refine Or.inr ⟨⟨path.segments, i, a, hp, htype hprefix, ?_⟩, by simp [pathsWithType, herror, Rust.err]⟩
    by_contra hnul
    have hnul : path.NoNul := by simpa [DbPath.NoNul] using hnul
    rw [indexedPath, fromUtf8_utf8, okOr_some, ok_bind, DbPath.parse_asStr hnul] at hfails
    cases hfails

/-- `paths_with_type` gives the same on graphs that are alike. -/
theorem pathsWithType_alike (h : Stores db.store.map G next) (h' : Stores db'.store.map G' next') (hG : G.Alike G')
    (hsegments : G.Segments ValidSegment) (hsegments' : G'.Segments ValidSegment) {t : String} (ht : 47 ∉ utf8 t) :
    db.pathsWithType t = db'.pathsWithType t := by
  rcases pathsWithType_cases h hsegments ht with ⟨hnul, paths, hpaths, hlists⟩ | ⟨hnul, herror⟩
  · rcases pathsWithType_cases h' hsegments' ht with ⟨-, paths', hpaths', hlists'⟩ | ⟨hnul', -⟩
    · rw [hpaths, hpaths', (hlists.alike hG).unique hlists']
    · exact absurd (hnul'.alike hG.symm) hnul
  · rcases pathsWithType_cases h' hsegments' ht with ⟨hnul', -⟩ | ⟨-, herror'⟩
    · exact absurd (hnul.alike hG) hnul'
    · rw [herror, herror']

/-! ## Walks -/

/-- A walk depends only on what `get` and `list` give. -/
theorem walk_congr (hget : ∀ path, db.get path = db'.get path) (hlist : ∀ path, db.list path = db'.list path) (fuel : Nat)
    (path : DbPath) (out : List Query.Candidate) : Query.walk db fuel path out = Query.walk db' fuel path out := by
  induction fuel generalizing path out with
  | zero => rfl
  | succ fuel ih =>
    rw [Query.walk, Query.walk]
    simp only [hget, hlist, ih]

/-- An export depends only on what `get` and `list` give. -/
theorem exportNode_congr (hget : ∀ path, db.get path = db'.get path) (hlist : ∀ path, db.list path = db'.list path)
    (floatText : UInt64 → List Char) (fuel : Nat) (path : DbPath) :
    Json.exportNode floatText db fuel path = Json.exportNode floatText db' fuel path := by
  induction fuel generalizing path with
  | zero => rfl
  | succ fuel ih =>
    rw [Json.exportNode, Json.exportNode]
    simp only [hget, hlist, ih]

/-- Trees that are alike have the same export. -/
theorem exportJson_alike (h : Stores db.store.map G next) (h' : Stores db'.store.map G' next') (hG : G.Alike G')
    (floatText : UInt64 → List Char) : Json.exportJson floatText db = Json.exportJson floatText db' := by
  rw [Json.exportJson, Json.exportJson, h.size_eq h' hG, exportNode_congr (get_alike h h' hG) (list_alike h h' hG)]

/-- A query has the same answer on graphs that are alike. -/
theorem execute_alike (h : Stores db.store.map G next) (h' : Stores db'.store.map G' next') (hG : G.Alike G')
    (hsegments : G.Segments ValidSegment) (hsegments' : G'.Segments ValidSegment) {query : String}
    (hslash : ∀ expr t, Query.parseQuery query = .ok expr → Query.requiredConcreteType expr = some t → 47 ∉ utf8 t) :
    Query.execute db query = Query.execute db' query := by
  have hcandidate : Query.indexedCandidate db = Query.indexedCandidate db' := by
    funext path
    rw [Query.indexedCandidate, Query.indexedCandidate, get_alike h h' hG]
  rw [Query.execute, Query.execute]
  cases hparse : Query.parseQuery query with
  | error e =>
    obtain ⟨e', he'⟩ : ∃ e', mapErr EvalError.parse (Except.error e : Rust ParseError Expr) = .error e' := by
      cases e <;> exact ⟨_, rfl⟩
    rw [he', error_bind, error_bind]
  | ok expr =>
    have hcandidates : Query.candidatesFor db expr = Query.candidatesFor db' expr := by
      unfold Query.candidatesFor
      cases htype : Query.requiredConcreteType expr with
      | some t =>
        dsimp only
        rw [pathsWithType_alike h h' hG hsegments hsegments' (hslash expr t hparse htype), hcandidate]
      | none =>
        dsimp only
        rw [Query.allEntries, Query.allEntries, h.size_eq h' hG, walk_congr (get_alike h h' hG) (list_alike h h' hG)]
    rw [mapErr_ok, ok_bind, ok_bind, hcandidates]

end Database
end AlefsDb
