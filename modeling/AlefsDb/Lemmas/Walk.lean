import AlefsDb.Lemmas.Listing
import AlefsDb.Lemmas.Reached
import AlefsDb.Query.Eval

/-!
# The walk of the query evaluator

What `walk` returns on the rows of a graph: the entries at and below a path, each once, in the ascending order of their paths. It
fails only where a value that is stored cannot be decoded.
-/

namespace AlefsDb
namespace Query

open Database

/-- An entry is what `get` returns. -/
def Shown (db : Database) (c : Candidate) : Prop := db.get c.1 = .ok { path := c.1, kind := c.2.1, value := c.2.2 }

/-- The entries of the paths of a set. -/
structure Covers (db : Database) (S : List String → Prop) (entries : List Candidate) : Prop where
  paths : Enumerates S (entries.map (fun c => c.1.segments))
  shown : ∀ c ∈ entries, Shown db c

/-- A value that is stored cannot be decoded. -/
def Undecodable (G : Graph) (e : Failure NsError) : Prop :=
  ∃ q i v, G q = some (i, .value v) ∧ decodeNode (Codec.encode v) = .error e

/-- A walk from what is found so far: it fails at a value, or goes on with the entries of the paths of a set. -/
def Walks (db : Database) (G : Graph) (S : List String → Prop) (visit : List Candidate → Rust NsError (List Candidate)) : Prop :=
  ∀ out, (∃ e, visit out = .error e ∧ Undecodable G e) ∨ ∃ entries, visit out = .ok (out ++ entries) ∧ Covers db S entries

/-- The loop of `walk` over the children of a directory. -/
def walkChildren (path : DbPath) (visit : DbPath → List Candidate → Rust NsError (List Candidate))
    (children : List (String × EntryKind)) (out : List Candidate) : Rust NsError (List Candidate) :=
  children.foldlM (fun out child => do
    let childPath ← Rust.mapErr .path (path.join child.1)
    visit childPath out) out

variable {db : Database} {G : Graph} {next : UInt64}

/-- The children of a directory, one after the other. -/
theorem walks_children (hsegments : G.Segments ValidSegment) (path : DbPath)
    {visit : DbPath → List Candidate → Rust NsError (List Candidate)} {children : List (String × EntryKind)}
    (hasc : OrdMap.Ascending children) (hlive : ∀ child ∈ children, G.Live (path.segments ++ [child.1]))
    (hvisit : ∀ child : DbPath, ∀ s, child.segments = path.segments ++ [s] → G.Live child.segments →
      Walks db G (Below G.Live child.segments) (visit child)) :
    Walks db G (fun q => ∃ s ∈ children.map Prod.fst, Below G.Live (path.segments ++ [s]) q)
      (walkChildren path visit children) := by
  induction children with
  | nil =>
    intro out
    refine Or.inr ⟨[], by rw [List.append_nil]; rfl, ⟨List.Pairwise.nil, ?_⟩, fun c hc => absurd hc List.not_mem_nil⟩
    intro q
    simp
  | cons child children ih =>
    intro out
    have hchild := hlive child List.mem_cons_self
    obtain ⟨x, hx⟩ := hchild
    obtain ⟨childPath, hjoin, hsegs⟩ := path.join_eq (hsegments _ _ hx child.1 (by simp))
    have hround : walkChildren path visit (child :: children) out = visit childPath out >>= walkChildren path visit children := by
      rw [walkChildren, List.foldlM_cons, hjoin, Rust.mapErr_ok, Rust.ok_bind]
      rfl
    rcases hvisit childPath child.1 hsegs ⟨x, hsegs ▸ hx⟩ out with ⟨e, herror, he⟩ | ⟨entries, hok, hentries⟩
    · exact Or.inl ⟨e, by rw [hround, herror]; rfl, he⟩
    rcases ih (List.Pairwise.of_cons hasc) (fun c hc => hlive c (List.mem_cons_of_mem _ hc)) (out ++ entries) with
      ⟨e, herror, he⟩ | ⟨rest, hrest, hcovers⟩
    · exact Or.inl ⟨e, by rw [hround, hok]; exact herror, he⟩
    · refine Or.inr ⟨entries ++ rest, ?_, ?_, ?_⟩
      · rw [hround, hok, Rust.ok_bind, hrest, List.append_assoc]
      · rw [List.map_append]
        refine Enumerates.children (hsegs ▸ hentries.paths) hcovers.paths (fun t ht => ?_)
        obtain ⟨c, hc, rfl⟩ := List.mem_map.mp ht
        exact List.rel_of_pairwise_cons hasc hc
      · intro c hc
        rcases List.mem_append.mp hc with hc | hc
        · exact hentries.shown c hc
        · exact hcovers.shown c hc

/-- A value is walked alone. -/
theorem covers_value (h : Stores db.store.map G next) {path : DbPath} {i : UInt64} {v w : Value}
    (hp : G path.segments = some (i, .value v)) (hw : decodeNode (Codec.encode v) = .ok w) :
    Covers db (Below G.Live path.segments) [(path, .value, some w)] := by
  have hnames : ∀ s, G.Live (path.segments ++ [s]) → s ∈ ([] : List String) := by
    intro s hs
    obtain ⟨x, hx⟩ := hs
    rw [h.wf.none_below_value hp s] at hx
    cases hx
  refine ⟨Enumerates.node h.wf.prefixClosed ⟨_, hp⟩ hnames ⟨List.Pairwise.nil, by simp⟩, ?_⟩
  · intro c hc
    obtain rfl := List.mem_singleton.mp hc
    rw [Shown, get_eq h, hp]
    dsimp only
    rw [entryOf, hw]
    rfl

/-- The walk from a path that exists. -/
theorem walk_walks (h : Stores db.store.map G next) (hsegments : G.Segments ValidSegment) {fuel : Nat} {path : DbPath}
    (hlive : G.Live path.segments) (hfuel : db.store.map.size ≤ path.segments.length + fuel) :
    Walks db G (Below G.Live path.segments) (walk db fuel path) := by
  induction fuel generalizing path with
  | zero =>
    have := h.atMost.length_lt h.wf.prefixClosed hlive
    omega
  | succ fuel ih =>
    intro out
    obtain ⟨⟨i, a⟩, hp⟩ := hlive
    have hget := get_eq h path
    rw [hp] at hget
    cases a with
    | value v =>
      dsimp only [entryOf] at hget
      cases hv : decodeNode (Codec.encode v) with
      | error e =>
        refine Or.inl ⟨e, ?_, path.segments, i, v, hp, hv⟩
        rw [walk, hget, hv]
        rfl
      | ok w =>
        refine Or.inr ⟨[(path, .value, some w)], ?_, covers_value h hp hv⟩
        rw [walk, hget, hv]
        rfl
    | dir =>
      obtain ⟨children, hlist, hlists⟩ := list_eq h hp
      have hround : walk db (fuel + 1) path out =
          walkChildren path (walk db fuel) children (out ++ [(path, .directory, none)]) := by
        rw [walk, hget]
        simp [entryOf, hlist, walkChildren]
      have hbelow : Walks db G (fun q => ∃ s ∈ children.map Prod.fst, Below G.Live (path.segments ++ [s]) q)
          (walkChildren path (walk db fuel) children) := by
        refine walks_children hsegments path hlists.ascending ?_ ?_
        · intro child hc
          exact (hlists.mem_names child.1).mp (List.mem_map_of_mem hc)
        · intro child s hs hchild
          exact ih hchild (by rw [hs, List.length_append, List.length_singleton]; omega)
      rcases hbelow (out ++ [(path, .directory, none)]) with ⟨e, herror, he⟩ | ⟨entries, hok, hentries⟩
      · exact Or.inl ⟨e, hround.trans herror, he⟩
      · refine Or.inr ⟨(path, .directory, none) :: entries, ?_, ?_, ?_⟩
        · rw [hround, hok, List.append_assoc]
          rfl
        · exact Enumerates.node h.wf.prefixClosed ⟨_, hp⟩ (fun s hs => (hlists.mem_names s).mpr hs) hentries.paths
        · intro c hc
          rcases List.mem_cons.mp hc with rfl | hc
          · exact hget
          · exact hentries.shown c hc

/-- All entries are listed, or a value that is stored cannot be decoded. -/
theorem allEntries_cases (h : Stores db.store.map G next) (hsegments : G.Segments ValidSegment) :
    (∃ e, allEntries db = .error e ∧ Undecodable G e) ∨ ∃ entries, allEntries db = .ok entries ∧ Covers db G.Live entries := by
  have hroot : G.Live DbPath.root.segments := ⟨_, h.wf.root⟩
  rcases walk_walks h hsegments hroot (Nat.le_add_left _ _) [] with herror | ⟨entries, hok, hentries⟩
  · exact Or.inl herror
  · refine Or.inr ⟨entries, hok, hentries.paths.congr (fun q => ?_), hentries.shown⟩
    exact ⟨fun hq => hq.2, fun hq => ⟨List.nil_prefix, hq⟩⟩

/-- The segments of the paths that exist are those of parsed paths. -/
def ParsedSegments (G : Graph) : Prop := G.Segments (fun s => ValidSegment s ∧ '\x00' ∉ s.toList)

/-- Segments that have been parsed are valid. -/
theorem ParsedSegments.valid (h : ParsedSegments G) : G.Segments ValidSegment := fun p x hx s hs => (h p x hx s hs).1

/-- A database that is reached by parsed paths has parsed segments only. -/
theorem reached_parsedSegments (hreached : Reached Command.Parsed db) : ∃ G next, Stores db.store.map G next ∧ ParsedSegments G := by
  refine hreached.segments (fun c hc op hop s hs => ?_)
  obtain ⟨text, htext⟩ := hc op hop
  exact ⟨op.path.valid s hs, DbPath.noNul_of_parse htext s hs⟩

/-- Every value that is stored can be decoded. -/
def ValuesDecode (db : Database) : Prop :=
  ∀ id encoded, db.store.get (nodeKey id) = some (encodeValueNode encoded) → ∃ v, Codec.decode encoded = .ok v

/-- The rows of values can be looked through. -/
theorem valuesDecode_of_entries
    (h : ∀ e ∈ db.store.map.entries, e.2.head? = some 1 → (Codec.decode e.2.tail).toOption.isSome) : ValuesDecode db := by
  intro id encoded hget
  have hdecodes := h _ ((db.store.map.mem_entries_iff _ _).mpr hget) rfl
  cases hv : Codec.decode encoded with
  | ok v => exact ⟨v, rfl⟩
  | error e =>
    rw [show (encodeValueNode encoded).tail = encoded from rfl, hv] at hdecodes
    cases hdecodes

/-- Where all values decode, no walk meets one that does not. -/
theorem ValuesDecode.not_undecodable (hdecode : ValuesDecode db) (h : Stores db.store.map G next) {e : Failure NsError} :
    ¬Undecodable G e := by
  rintro ⟨q, i, v, hq, hv⟩
  obtain ⟨w, hw⟩ := hdecode i _ (h.get_node hq)
  rw [decodeNode, hw] at hv
  cases hv

/-- Where the entries of all paths below the root are shown, every value is decoded. -/
theorem valuesDecode_of_shown (h : Stores db.store.map G next)
    (hshown : ∀ p x, G p = some x → p ≠ [] → ∃ c, c.1.segments = p ∧ Shown db c) : ValuesDecode db := by
  intro id encoded hget
  obtain ⟨p, a, hp, ha⟩ := (h.row (.node id)).mp hget
  cases a with
  | dir => cases ha
  | value v =>
    cases ha
    have hroot : p ≠ [] := by
      rintro rfl
      rw [h.wf.root] at hp
      cases hp
    obtain ⟨c, rfl, hc⟩ := hshown p _ hp hroot
    rw [Shown, get_eq h, hp] at hc
    obtain ⟨w, hw, -⟩ := Rust.bind_eq_ok.mp hc
    exact ⟨w, decodeNode_eq_ok hw⟩

/-- The walk comes to every value that is stored, and decodes it. -/
theorem valuesDecode_of_allEntries (h : Stores db.store.map G next) (hsegments : G.Segments ValidSegment)
    {entries : List Candidate} (hentries : allEntries db = .ok entries) : ValuesDecode db := by
  rcases allEntries_cases h hsegments with ⟨e, herror, -⟩ | ⟨entries', -, hcovers⟩
  · rw [hentries] at herror
    cases herror
  refine valuesDecode_of_shown h (fun p x hp _ => ?_)
  obtain ⟨c, hc, hpath⟩ := List.mem_map.mp ((hcovers.paths.mem p).mpr ⟨x, hp⟩)
  exact ⟨c, hpath, hcovers.shown c hc⟩

end Query
end AlefsDb
