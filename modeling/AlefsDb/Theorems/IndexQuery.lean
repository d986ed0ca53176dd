import AlefsDb.Lemmas.Great

/-!
# Queries over the type index

Whether the candidates of a query come from the type index or from the walk of the tree is not seen in its answer: an entry that
satisfies the expression has the type that the expression demands, and the index has every entry of the type. A query is answered
when the values that are stored can be decoded, and only then can the tree be walked.
-/

namespace AlefsDb
namespace Query

open Database

theorem typeLabel_eq (v : Value) : typeLabel v = v.typename := by
  cases v with
  | scalar s => cases s <;> rfl
  | hash | set | list | tree => rfl

/-- An entry that satisfies an expression has the type that the expression demands. -/
theorem requiredConcreteType_sound {expr : Expr} {t : String} (h : requiredConcreteType expr = some t) {c : Candidate}
    (hc : evalExpr expr c.1 c.2.1 c.2.2 = true) : (hit c).typeName = t := by
  induction expr generalizing t with
  | and a b iha ihb =>
    rw [evalExpr, Bool.and_eq_true] at hc
    unfold requiredConcreteType at h
    split at h
    · rename_i ha hb
      cases h
      exact iha ha hc.1
    · rename_i ha hb
      cases h
      exact ihb hb hc.2
    · rename_i ha hb
      split at h
      · cases h
        exact iha ha hc.1
      · cases h
    · cases h
  | or a b | not a => cases h
  | pred p =>
    cases p with
    | typeName t' =>
      unfold requiredConcreteType at h
      split at h
      · rename_i hscalar
        cases h
        obtain ⟨path, kind, value⟩ := c
        cases kind with
        | directory => simpa [evalExpr, evalPred, hscalar, hit] using hc
        | value =>
          cases value with
          | none => simpa [evalExpr, evalPred, hscalar, hit] using hc
          | some v => simpa [evalExpr, evalPred, typeMatches, hscalar, hit] using hc
      · cases h
    | _ => cases h

variable {db : Database} {G : Graph} {next : UInt64}

/-- A row of the type index, and the path in it. -/
def IndexedRow (G : Graph) (row : Bytes × Bytes) (path : DbPath) : Prop :=
  ∃ i a, G path.segments = some (i, a) ∧ row = (typeIndexKey a.typeName i, utf8 path.asStr)

/-- `paths_with_type` returns paths of nodes whose rows the scan finds, each once, with those of the nodes of the type among them. -/
theorem pathsWithType_eq (h : Stores db.store.map G next) (hsegments : ParsedSegments G) (t : String) :
    ∃ paths, db.pathsWithType t = .ok paths ∧ paths.Nodup ∧
      (∀ path ∈ paths, ∃ i a, G path.segments = some (i, a) ∧ typeIndexPrefix t <+: typeIndexKey a.typeName i) ∧
      ∀ path : DbPath, ∀ i a, G path.segments = some (i, a) → a.typeName = t → path ∈ paths := by
  have hrow : ∀ row ∈ db.store.scanPrefix (typeIndexPrefix t), ∃ path, indexedPath row = .ok path ∧ IndexedRow G row path := by
    rintro ⟨k, v⟩ hmem
    obtain ⟨hget, hprefix⟩ := (db.store.map.mem_scanPrefix _ _ _).mp hmem
    obtain ⟨key, rfl⟩ := h.named hget
    obtain ⟨t', i, rfl⟩ := Key.indexPrefix_iff.mp (Key.indexPrefix_of_typeIndexPrefix hprefix)
    obtain ⟨p, a, hp, rfl, rfl⟩ := (h.row _).mp hget
    let path : DbPath := ⟨p, hsegments.valid p _ hp⟩
    refine ⟨path, ?_, i, a, hp, rfl⟩
    have hparse : DbPath.parse (pathText p) = .ok path := DbPath.parse_asStr (p := path) (fun s hs => (hsegments p _ hp s hs).2)
    rw [indexedPath, fromUtf8_utf8, Rust.okOr_some, Rust.ok_bind, hparse, Rust.mapErr_ok]
  obtain ⟨out, hout, hrows⟩ := Rust.mapM_of_forall hrow
  have hperm : (out.insertionSort (fun a b => a.asStr ≤ b.asStr)).Perm out := List.perm_insertionSort _ out
  refine ⟨out.insertionSort (fun a b => a.asStr ≤ b.asStr), by simp [pathsWithType, hout], ?_, ?_, ?_⟩
  · rw [hperm.nodup_iff]
    -- rows of different keys have different paths
    let key : DbPath → Bytes := fun path => (G path.segments).elim [] (fun x => typeIndexKey x.2.typeName x.1)
    have hkeys : (db.store.scanPrefix (typeIndexPrefix t)).map Prod.fst = out.map key := by
      rw [← List.forall₂_eq_eq_eq, List.forall₂_map_left_iff, List.forall₂_map_right_iff]
      refine hrows.imp (fun row path hindexed => ?_)
      obtain ⟨i, a, hp, rfl⟩ := hindexed
      simp only [key, hp, Option.elim_some]
    have hnodup : (out.map key).Nodup := by
      rw [← hkeys]
      exact db.store.map.nodup_keys.sublist ((db.store.map.scanPrefix_sublist _).map _)
    exact hnodup.of_map
  · intro path hpath
    obtain ⟨row, hmem, i, a, hp, rfl⟩ := forall₂_exists_left hrows (hperm.mem_iff.mp hpath)
    exact ⟨i, a, hp, ((db.store.map.mem_scanPrefix _ _ _).mp hmem).2⟩
  · rintro path i a hp rfl
    rw [hperm.mem_iff]
    have hget : db.store.map.get (typeIndexKey a.typeName i) = some (utf8 path.asStr) :=
      (h.row (.typeIndex a.typeName i)).mpr ⟨path.segments, a, hp, rfl, rfl⟩
    have hmem : (typeIndexKey a.typeName i, utf8 path.asStr) ∈ db.store.scanPrefix (typeIndexPrefix a.typeName) :=
      (db.store.map.mem_scanPrefix _ _ _).mpr ⟨hget, encodeId i, rfl⟩
    obtain ⟨path', hpath', i', a', hp', he⟩ := forall₂_exists_right hrows hmem
    have htext : path.asStr = path'.asStr := utf8_injective (congrArg Prod.snd he)
    have hparse : DbPath.parse path.asStr = .ok path := DbPath.parse_asStr (fun s hs => (hsegments _ _ hp s hs).2)
    have hparse' : DbPath.parse path'.asStr = .ok path' := DbPath.parse_asStr (fun s hs => (hsegments _ _ hp' s hs).2)
    rw [htext, hparse'] at hparse
    cases hparse
    exact hpath'

/-- Every value that is stored has been encoded from one whose lengths are below `2 ^ 32`. -/
def ValuesSmall (db : Database) : Prop :=
  ∀ id encoded, db.store.get (nodeKey id) = some (encodeValueNode encoded) → ∃ v : Value, v.Ordered ∧ v.Small ∧ encoded = Codec.encode v

/-- Values that are small decode. -/
theorem ValuesSmall.valuesDecode (h : ValuesSmall db) : ValuesDecode db := by
  intro id encoded hget
  obtain ⟨v, hordered, hsmall, rfl⟩ := h id encoded hget
  exact ⟨v.canon, Codec.decode_encode hordered hsmall⟩

/-- What `get` returns for a path that exists. -/
theorem ValuesDecode.shown (hdecode : ValuesDecode db) (h : Stores db.store.map G next) {path : DbPath} (hp : G.Live path.segments) :
    ∃ c, indexedCandidate db path = .ok c ∧ c.1 = path ∧ Shown db c := by
  obtain ⟨⟨i, a⟩, hp⟩ := hp
  have hget := get_eq h path
  rw [hp] at hget
  cases a with
  | dir => exact ⟨(path, .directory, none), by rw [indexedCandidate, hget]; rfl, rfl, hget⟩
  | value v =>
    obtain ⟨w, hw⟩ := hdecode i _ (h.get_node hp)
    have hentry : entryOf path (.value v) = .ok { path := path, kind := .value, value := some w } := by
      rw [entryOf, decodeNode, hw]
      rfl
    exact ⟨(path, .value, some w), congrArg (· >>= _) (hget.trans hentry), rfl, hget.trans hentry⟩

/-- The hit of an entry has the type name of the node. -/
theorem Shown.typeName (h : Stores db.store.map G next) {c : Candidate} (hc : Shown db c) {i : UInt64} {a : Node}
    (hp : G c.1.segments = some (i, a)) : (hit c).typeName = a.typeName := by
  obtain ⟨path, kind, value⟩ := c
  rw [Shown, get_eq h, hp] at hc
  cases a with
  | dir =>
    cases hc
    rfl
  | value v =>
    obtain ⟨w, hw, he⟩ := Rust.bind_eq_ok.mp hc
    cases he
    exact (typeLabel_eq w).trans (typename_of_decodeNode hw)

/-- Candidates of an expression: entries of different paths, with all those that satisfy the expression among them. -/
structure CandidatesOf (db : Database) (G : Graph) (expr : Expr) (cs : List Candidate) : Prop where
  nodup : (cs.map Prod.fst).Nodup
  live : ∀ c ∈ cs, Shown db c ∧ G.Live c.1.segments
  complete : ∀ c, Shown db c → G.Live c.1.segments → evalExpr expr c.1 c.2.1 c.2.2 = true → c ∈ cs

/-- A walk of all paths has the candidates of every query. -/
theorem Covers.candidatesOf {entries : List Candidate} (h : Covers db G.Live entries) (expr : Expr) : CandidatesOf db G expr entries := by
  have hnodup : (entries.map Prod.fst).Nodup := by
    have := h.paths.nodup
    rw [← Function.comp_def DbPath.segments Prod.fst, ← List.map_map] at this
    exact this.of_map
  refine ⟨hnodup, fun c hc => ⟨h.shown c hc, (h.paths.mem _).mp (List.mem_map_of_mem hc)⟩, ?_⟩
  intro c hshown hlive _
  obtain ⟨c', hc', hpath⟩ := List.mem_map.mp ((h.paths.mem _).mpr hlive)
  have hshown' := h.shown c' hc'
  obtain ⟨path, kind, value⟩ := c
  obtain ⟨path', kind', value'⟩ := c'
  obtain rfl : path' = path := DbPath.ext hpath
  rw [Shown, show db.get path' = _ from hshown] at hshown'
  cases hshown'
  exact hc'

/-- The candidates of the type index. -/
theorem candidatesOf_index (h : Stores db.store.map G next) (hsegments : ParsedSegments G) (hdecode : ValuesDecode db) {expr : Expr}
    {t : String} (ht : requiredConcreteType expr = some t) : ∃ cs, candidatesFor db expr = .ok cs ∧ CandidatesOf db G expr cs := by
  obtain ⟨paths, hpaths, hnodup, hfound, hcomplete⟩ := pathsWithType_eq h hsegments t
  have hlive : ∀ path ∈ paths, G.Live path.segments := fun path hpath => (hfound path hpath).elim (fun _ ⟨_, hp, _⟩ => ⟨_, hp⟩)
  obtain ⟨cs, hcs, hrel⟩ := Rust.mapM_of_forall (fun path hpath => hdecode.shown h (hlive path hpath))
  have hfst : cs.map Prod.fst = paths := by
    rw [← List.forall₂_eq_eq_eq, List.forall₂_map_left_iff]
    exact hrel.flip.imp (fun c path hc => hc.1)
  refine ⟨cs, ?_, by rwa [hfst], ?_, ?_⟩
  · rw [candidatesFor, ht]
    exact (congrArg (· >>= _) hpaths).trans hcs
  · intro c hc
    obtain ⟨path, hpath, rfl, hshown⟩ := forall₂_exists_left hrel hc
    exact ⟨hshown, hlive _ hpath⟩
  · intro c hshown hlive' hsat
    obtain ⟨⟨i, a⟩, hp⟩ := hlive'
    have htype : a.typeName = t := (hshown.typeName h hp).symm.trans (requiredConcreteType_sound ht hsat)
    obtain ⟨c', hc', hpath, hshown'⟩ := forall₂_exists_right hrel (hcomplete c.1 i a hp htype)
    obtain ⟨path, kind, value⟩ := c
    obtain ⟨path', kind', value'⟩ := c'
    obtain rfl : path' = path := hpath
    rw [Shown, show db.get path' = _ from hshown] at hshown'
    cases hshown'
    exact hc'

/-- Of two lists of candidates the same entries satisfy the expression. -/
theorem CandidatesOf.perm {expr : Expr} {cs cs' : List Candidate} (h : CandidatesOf db G expr cs) (h' : CandidatesOf db G expr cs') :
    (cs.filter (fun c => evalExpr expr c.1 c.2.1 c.2.2)).Perm (cs'.filter (fun c => evalExpr expr c.1 c.2.1 c.2.2)) := by
  refine (List.perm_ext_iff_of_nodup (h.nodup.of_map.filter _) (h'.nodup.of_map.filter _)).mpr (fun c => ?_)
  rw [List.mem_filter, List.mem_filter]
  constructor
  · rintro ⟨hc, hsat⟩
    exact ⟨h'.complete c (h.live c hc).1 (h.live c hc).2 hsat, hsat⟩
  · rintro ⟨hc, hsat⟩
    exact ⟨h.complete c (h'.live c hc).1 (h'.live c hc).2 hsat, hsat⟩

/-- A query is answered with the hits of the full walk that satisfy its expression, each once. -/
def AnswersAsWalk (db : Database) (query : String) (expr : Expr) : Prop :=
  ∃ entries hits, allEntries db = .ok entries ∧ execute db query = .ok hits ∧ (hits.map QueryHit.path).Nodup ∧
    hits.Perm ((entries.filter (fun c => evalExpr expr c.1 c.2.1 c.2.2)).map hit)

/-- Where all values decode, a query is answered as a walk of all paths answers it. -/
theorem answersAsWalk (h : Stores db.store.map G next) (hsegments : ParsedSegments G) (hdecode : ValuesDecode db) {query : String}
    {expr : Expr} (hparse : parseQuery query = .ok expr) : AnswersAsWalk db query expr := by
  rcases allEntries_cases h hsegments.valid with ⟨e, -, he⟩ | ⟨entries, hentries, hcovers⟩
  · exact absurd he (hdecode.not_undecodable h)
  obtain ⟨cs, hcs, hcandidates⟩ : ∃ cs, candidatesFor db expr = .ok cs ∧ CandidatesOf db G expr cs := by
    cases ht : requiredConcreteType expr with
    | some t => exact candidatesOf_index h hsegments hdecode ht
    | none => exact ⟨entries, by rw [candidatesFor, ht]; exact hentries, hcovers.candidatesOf expr⟩
  refine ⟨entries, (cs.filter (fun c => evalExpr expr c.1 c.2.1 c.2.2)).map hit, hentries, ?_, ?_, ?_⟩
  · rw [execute, hparse, Rust.mapErr_ok, Rust.ok_bind, hcs, Rust.mapErr_ok, Rust.ok_bind]
    rfl
  · rw [List.map_map]
    exact hcandidates.nodup.sublist ((List.filter_sublist).map _)
  · exact (hcandidates.perm (hcovers.candidatesOf expr)).map _

/-- The type index is not seen in the answer of a query. In every state of a run of commands on parsed paths a query that is accepted
is answered with the hits of the full walk, exactly when all values that are stored can be decoded; they can when their lengths
are below `2 ^ 32`. -/
theorem execute_answers_as_walk (hreached : Reached Command.Parsed db) {query : String} {expr : Expr}
    (hparse : parseQuery query = .ok expr) :
    (AnswersAsWalk db query expr ↔ ValuesDecode db) ∧ (ValuesSmall db → ValuesDecode db) := by
  obtain ⟨G, next, h, hsegments⟩ := reached_parsedSegments hreached
  refine ⟨⟨?_, fun hdecode => answersAsWalk h hsegments hdecode hparse⟩, ValuesSmall.valuesDecode⟩
  rintro ⟨entries, -, hentries, -⟩
  exact valuesDecode_of_allEntries h hsegments.valid hentries

/-- A directory and an integer in it. -/
def integerInside : List Command :=
  [.call (.mkdir pathA), .call (.set ⟨["a", "n"], by decide⟩ (.scalar (.int 7)))]

/-- Two integers below a directory, and a query for one of them. -/
theorem execute_answers_integer : ∃ db, runAll step opened integerInside = some db ∧
    AnswersAsWalk db "type int AND NOT (value = 8)" (.and (.pred (.typeName "int")) (.not (.pred (.valueCmp .eq (.int 8))))) := by
  have hparsed : ∀ c ∈ integerInside, c.Parsed := by
    intro c hc op hop
    simp only [integerInside, List.mem_cons, List.not_mem_nil, or_false] at hc
    rcases hc with rfl | rfl <;> obtain rfl := List.mem_singleton.mp hop
    · exact ⟨"/a", by decide +kernel⟩
    · exact ⟨"/a/n", by decide +kernel⟩
  refine ⟨_, rfl, ?_⟩
  refine (execute_answers_as_walk ⟨integerInside, Run.of_runAll (fun _ => hparsed) rfl⟩ (by decide +kernel)).1.mpr ?_
  exact valuesDecode_of_entries (by decide +kernel)

/-! ## Values of great length -/

/-- A query whose candidates cannot be read fails. -/
theorem execute_error {query : String} {expr : Expr} (hparse : parseQuery query = .ok expr) {e : Failure NsError}
    (herror : candidatesFor db expr = .error e) : ∃ e', execute db query = .error e' := by
  rw [execute, hparse, Rust.mapErr_ok, Rust.ok_bind, herror]
  cases e <;> exact ⟨_, rfl⟩

/-- Where bytes of the length `2 ^ 32` are stored, the query for all entries that are not integers fails. -/
theorem execute_fails_on_great : ∃ db, Reached Command.Parsed db ∧
    parseQuery "NOT type int" = .ok (.not (.pred (.typeName "int"))) ∧
    (∃ e, execute db "NOT type int" = .error e) ∧ ¬AnswersAsWalk db "NOT type int" (.not (.pred (.typeName "int"))) := by
  obtain ⟨db, hreached, hgreat⟩ := reached_great
  have hparse : parseQuery "NOT type int" = .ok (.not (.pred (.typeName "int"))) := by decide +kernel
  obtain ⟨G, next, h, hsegments⟩ := reached_parsedSegments hreached
  refine ⟨_, hreached, hparse, ?_, fun hanswer => ?_⟩
  · rcases allEntries_cases h hsegments.valid with ⟨e, herror, -⟩ | ⟨entries, hentries, -⟩
    · exact execute_error hparse herror
    · exact absurd (valuesDecode_of_allEntries h hsegments.valid hentries) hgreat
  · obtain ⟨entries, -, hentries, -⟩ := hanswer
    exact hgreat (valuesDecode_of_allEntries h hsegments.valid hentries)

end Query
end AlefsDb
