import AlefsDb.Json.Steps
import AlefsDb.Lemmas.JsonValues
import AlefsDb.Lemmas.Walk

/-!
# What is exported

The text that `export_node` writes for a path is parsed, and to import it is to import the entries at and below the path one after the
other, in the ascending order of their paths. The export fails only where a value that is stored cannot be decoded.
-/

namespace AlefsDb
namespace Json

open Database Query

/-- No value that is read holds a float. -/
def FloatFree (db : Database) : Prop := ∀ path kind w, db.get path = .ok { path := path, kind := kind, value := some w } → NoFloat w

variable (floatText : UInt64 → List Char)

/-- The step that imports the text of an entry. -/
def entryStep (c : Candidate) : ImportStep :=
  match c.2.2 with
  | none => .dir c.1 false
  | some w => setStep c.1 (jsonToValue (jsonOf floatText w))

/-- An export that fails at a value, or writes a text that is parsed and imported as the entries of the paths of a set. -/
def Exported (db : Database) (G : Graph) (S : List String → Prop) (path : DbPath) (result : Rust NsError (List Char)) : Prop :=
  (∃ e, result = .error e ∧ Undecodable G e) ∨
    ∃ text j entries, result = .ok text ∧ ParsesTo text j ∧ nodeSteps j path false = entries.map (entryStep floatText) ∧ Covers db S entries

/-- The same of the texts of the children of a directory. -/
def ExportedChildren (db : Database) (G : Graph) (S : List String → Prop) (path : DbPath) (result : Rust NsError (List (List Char))) :
    Prop :=
  (∃ e, result = .error e ∧ Undecodable G e) ∨
    ∃ texts map entries, result = .ok texts ∧ List.Forall₂ EntryParses texts map ∧
      childSteps map path = entries.map (entryStep floatText) ∧ Covers db S entries

/-- The loop of `export_node` over the children of a directory. -/
def exportChildren (path : DbPath) (visit : DbPath → Rust NsError (List Char)) (children : List (String × EntryKind)) :
    Rust NsError (List (List Char)) :=
  children.mapM (fun child => do
    let childPath ← Rust.mapErr .path (path.join child.1)
    let body ← visit childPath
    return jsonEntry child.1.toList body)

variable {floatText} {db : Database} {G : Graph} {next : UInt64}

/-- The import comes to the path that was exported. -/
theorem childPath_eq {path child : DbPath} {s : String} (hchild : child.segments = path.segments ++ [s]) (hnul : child.NoNul)
    (hjoin : path.join s = .ok child) : childPath path s = .ok child := by
  unfold childPath
  split
  · rename_i hroot
    have htext : "/" ++ s = child.asStr := by
      rw [DbPath.asStr, hchild, List.isEmpty_iff.mp hroot]
      rfl
    rw [htext, DbPath.parse_asStr hnul, Rust.mapErr_ok]
  · rw [hjoin, Rust.mapErr_ok]

/-- The children of a directory, one after the other. -/
theorem exported_children (hsegments : ParsedSegments G) (path : DbPath) {visit : DbPath → Rust NsError (List Char)}
    {children : List (String × EntryKind)} (hasc : OrdMap.Ascending children)
    (hlive : ∀ child ∈ children, G.Live (path.segments ++ [child.1]))
    (hvisit : ∀ child : DbPath, ∀ s, child.segments = path.segments ++ [s] → G.Live child.segments →
      Exported floatText db G (Below G.Live child.segments) child (visit child)) :
    ExportedChildren floatText db G (fun q => ∃ s ∈ children.map Prod.fst, Below G.Live (path.segments ++ [s]) q) path
      (exportChildren path visit children) := by
  induction children with
  | nil =>
    refine Or.inr ⟨[], [], [], rfl, .nil, rfl, ⟨List.Pairwise.nil, ?_⟩, fun c hc => absurd hc List.not_mem_nil⟩
    intro q
    simp
  | cons child children ih =>
    obtain ⟨x, hx⟩ := hlive child List.mem_cons_self
    obtain ⟨childPath, hjoin, hsegs⟩ := path.join_eq (hsegments.valid _ _ hx child.1 (by simp))
    have hnul : childPath.NoNul := fun s hs => (hsegments _ _ hx s (hsegs ▸ hs)).2
    have hround : exportChildren path visit (child :: children) = (do
        let body ← visit childPath
        let texts ← exportChildren path visit children
        return jsonEntry child.1.toList body :: texts) := by
      simp [exportChildren, hjoin]
    rcases hvisit childPath child.1 hsegs ⟨x, hsegs ▸ hx⟩ with ⟨e, herror, he⟩ | ⟨text, j, entries, hok, hparses, himport, hentries⟩
    · exact Or.inl ⟨e, by rw [hround, herror]; rfl, he⟩
    rcases ih (List.Pairwise.of_cons hasc) (fun c hc => hlive c (List.mem_cons_of_mem _ hc)) with
      ⟨e, herror, he⟩ | ⟨texts, map, rest, hrest, htexts, hmap, hcovers⟩
    · exact Or.inl ⟨e, by rw [hround, hok, herror]; rfl, he⟩
    · have hentry := entryParses_jsonEntry child.1.toList hparses
      rw [String.ofList_toList] at hentry
      refine Or.inr ⟨_, (child.1, j) :: map, entries ++ rest, by rw [hround, hok, hrest]; rfl, .cons hentry htexts, ?_, ?_, ?_⟩
      · rw [childSteps, childPath_eq hsegs hnul hjoin, List.map_append]
        dsimp only
        rw [himport, hmap]
      · rw [List.map_append]
        refine Enumerates.children (hsegs ▸ hentries.paths) hcovers.paths (fun t ht => ?_)
        obtain ⟨c, hc, rfl⟩ := List.mem_map.mp ht
        exact List.rel_of_pairwise_cons hasc hc
      · intro c hc
        rcases List.mem_append.mp hc with hc | hc
        · exact hentries.shown c hc
        · exact hcovers.shown c hc

/-- The text of a value is imported as the value. -/
theorem nodeSteps_value (v : Value) (path : DbPath) :
    nodeSteps (jsonOf floatText v) path false = [setStep path (jsonToValue (jsonOf floatText v))] := by
  cases v with
  | scalar s => cases s <;> rfl
  | hash | set | list | tree => rfl

/-- The entries below a directory, as its text and the text of its children have them. -/
theorem exportNode_dir (h : Stores db.store.map G next) {path : DbPath} {i : UInt64} (hp : G path.segments = some (i, .dir)) :
    ∃ children, Lists G path.segments children ∧ ∀ fuel, exportNode floatText db (fuel + 1) path = (do
      let texts ← exportChildren path (exportNode floatText db fuel) children
      return wrapper "__dir" (jsonObject texts)) := by
  have hget := get_eq h path
  rw [hp] at hget
  obtain ⟨children, hlist, hlists⟩ := list_eq h hp
  refine ⟨children, hlists, fun fuel => ?_⟩
  rw [exportNode, hget]
  simp [entryOf, hlist, exportChildren]

/-- The export of a directory, when the exports of its children are as they should be. -/
theorem exported_dir (h : Stores db.store.map G next) (hsegments : ParsedSegments G) {path : DbPath} {i : UInt64}
    (hp : G path.segments = some (i, .dir)) {fuel : Nat}
    (hvisit : ∀ child : DbPath, ∀ s, child.segments = path.segments ++ [s] → G.Live child.segments →
      Exported floatText db G (Below G.Live child.segments) child (exportNode floatText db fuel child)) :
    (∃ e, exportNode floatText db (fuel + 1) path = .error e ∧ Undecodable G e) ∨
      ∃ (names : List String) (texts : List (List Char)) (map : List (String × JsonVal)) (entries : List Candidate),
        (∀ s, G.Live (path.segments ++ [s]) → s ∈ names) ∧
        exportNode floatText db (fuel + 1) path = .ok (wrapper "__dir" (jsonObject texts)) ∧ List.Forall₂ EntryParses texts map ∧
        childSteps map path = entries.map (entryStep floatText) ∧
        Covers db (fun q => ∃ s ∈ names, Below G.Live (path.segments ++ [s]) q) entries := by
  obtain ⟨children, hlists, hround⟩ := @exportNode_dir floatText _ _ _ h _ _ hp
  have hlive : ∀ child ∈ children, G.Live (path.segments ++ [child.1]) :=
    fun child hc => (hlists.mem_names child.1).mp (List.mem_map_of_mem hc)
  rcases exported_children hsegments path hlists.ascending hlive hvisit with
    ⟨e, herror, he⟩ | ⟨texts, map, entries, hok, htexts, himport, hentries⟩
  · exact Or.inl ⟨e, by rw [hround, herror]; rfl, he⟩
  · exact Or.inr ⟨_, texts, map, entries, fun s hs => (hlists.mem_names s).mpr hs, by rw [hround, hok]; rfl, htexts, himport, hentries⟩

/-- The export from a path that exists. -/
theorem exported_node (h : Stores db.store.map G next) (hsegments : ParsedSegments G) (hfloat : FloatFree db) {fuel : Nat}
    {path : DbPath} (hlive : G.Live path.segments) (hfuel : db.store.map.size ≤ path.segments.length + fuel) :
    Exported floatText db G (Below G.Live path.segments) path (exportNode floatText db fuel path) := by
  induction fuel generalizing path with
  | zero =>
    have := h.atMost.length_lt h.wf.prefixClosed hlive
    omega
  | succ fuel ih =>
    obtain ⟨⟨i, a⟩, hp⟩ := hlive
    have hget := get_eq h path
    rw [hp] at hget
    cases a with
    | value v =>
      dsimp only [entryOf] at hget
      cases hv : decodeNode (Codec.encode v) with
      | error e =>
        refine Or.inl ⟨e, ?_, path.segments, i, v, hp, hv⟩
        rw [exportNode, hget, hv]
        rfl
      | ok w =>
        rw [hv] at hget
        refine Or.inr ⟨valueToJson floatText w, jsonOf floatText w, [(path, .value, some w)], ?_,
          parsesTo_value floatText (hfloat _ _ _ hget), nodeSteps_value w path, covers_value h hp hv⟩
        rw [exportNode, hget]
        rfl
    | dir =>
      have hvisit : ∀ child : DbPath, ∀ s, child.segments = path.segments ++ [s] → G.Live child.segments →
          Exported floatText db G (Below G.Live child.segments) child (exportNode floatText db fuel child) :=
        fun child s hs hchild => ih hchild (by rw [hs, List.length_append, List.length_singleton]; omega)
      rcases exported_dir h hsegments hp hvisit with herror | ⟨names, texts, map, entries, hnames, hok, htexts, himport, hentries⟩
      · exact Or.inl herror
      · refine Or.inr ⟨_, _, (path, .directory, none) :: entries, hok, parsesTo_wrapper (parsesTo_object htexts), ?_, ?_, ?_⟩
        · rw [nodeSteps, himport]
          rfl
        · exact Enumerates.node h.wf.prefixClosed ⟨_, hp⟩ hnames hentries.paths
        · intro c hc
          rcases List.mem_cons.mp hc with rfl | hc
          · exact hget
          · exact hentries.shown c hc

/-- An export fails at a value that cannot be decoded, or writes a text whose steps are those of the entries below the root. -/
theorem export_cases (h : Stores db.store.map G next) (hsegments : ParsedSegments G) (hfloat : FloatFree db) :
    (∃ e, exportJson floatText db = .error e ∧ Undecodable G e) ∨
      ∃ text entries, exportJson floatText db = .ok text ∧
        importSteps text = .dir DbPath.root true :: entries.map (entryStep floatText) ∧
        Covers db (fun q => q ≠ [] ∧ G.Live q) entries := by
  have hroot : G DbPath.root.segments = some (rootId, .dir) := h.wf.root
  have hsize := h.atMost.length_lt h.wf.prefixClosed ⟨_, hroot⟩
  obtain ⟨fuel, hfuel⟩ : ∃ fuel, db.store.map.size = fuel + 1 := ⟨db.store.map.size - 1, by omega⟩
  have hvisit : ∀ child : DbPath, ∀ s, child.segments = DbPath.root.segments ++ [s] → G.Live child.segments →
      Exported floatText db G (Below G.Live child.segments) child (exportNode floatText db fuel child) :=
    fun child s hs hchild => exported_node h hsegments hfloat hchild (by rw [hs, List.length_append, List.length_singleton]; omega)
  rw [exportJson, hfuel]
  rcases exported_dir h hsegments hroot hvisit with ⟨e, herror, he⟩ | ⟨names, texts, map, entries, hnames, hok, htexts, himport, hentries⟩
  · exact Or.inl ⟨e, by rw [herror]; rfl, he⟩
  · refine Or.inr ⟨_, entries, by rw [hok]; rfl, ?_, hentries.paths.congr (fun q => ?_), hentries.shown⟩
    · have hparse := parseJsonValue_of_parsesTo (@parsesTo_wrapper "__dir" _ _ (parsesTo_object htexts))
      rw [importSteps, String.toList_ofList, wrapper, trim_jsonObject, ← wrapper, hparse]
      change nodeSteps (.object [("__dir", .object map)]) DbPath.root true = _
      rw [nodeSteps, himport]
    · -- the root stands before the paths below it
      have hnode := Enumerates.node h.wf.prefixClosed ⟨_, hroot⟩ hnames hentries.paths
      have hnotin := (List.nodup_cons.mp hnode.nodup).1
      have hmem := hnode.mem q
      rw [List.mem_cons] at hmem
      rw [← hentries.paths.mem]
      constructor
      · intro hq
        refine ⟨?_, (hmem.mp (Or.inr hq)).2⟩
        rintro rfl
        exact hnotin hq
      · rintro ⟨hne, hlive⟩
        exact (hmem.mpr ⟨List.nil_prefix, hlive⟩).resolve_left hne

end Json
end AlefsDb
