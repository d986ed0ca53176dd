import AlefsDb.Lemmas.Great
import AlefsDb.Lemmas.Walk
import AlefsDb.Theorems.TypeIndex

/-!
# The walks over the tree

Three functions go over the whole tree: the `walk` of the query evaluator, `walk_rec`, and the worklist loop of
`rebuild_type_index`. In every state of a run they end, and they come to the same paths, each once, unless a value that is stored
cannot be decoded.
-/

namespace AlefsDb

open Query

/-- The values among the entries of a walk. -/
def valuesOf (entries : List Candidate) : List (DbPath × Value) := entries.filterMap (fun c => c.2.2.map (fun v => (c.1, v)))

/-- The entries of a walk are those of the paths that exist, each once; a directory is before what is below it, and the children of a
directory are in the order of their names. -/
structure VisitsOnce (db : Database) (entries : List Candidate) : Prop where
  mem : ∀ path, path ∈ entries.map Prod.fst ↔ db.exists path = .ok true
  once : (entries.map Prod.fst).Nodup
  parents : entries.Pairwise (fun c later => ¬later.1.segments <+: c.1.segments)
  siblings : entries.Pairwise (fun c later => ∀ dir s t, c.1.segments = dir ++ [s] → later.1.segments = dir ++ [t] → s < t)

/-- All walks end, and come to the same paths. -/
def WalksAgree (db : Database) : Prop :=
  ∃ entries batch, allEntries db = .ok entries ∧ VisitsOnce db entries ∧ db.walkValues = .ok (valuesOf entries) ∧
    db.rebuildBatch = .ok batch ∧ (batch.ops.filterMap BatchOp.value).Perm (entries.map (fun c => utf8 c.1.asStr))

namespace Database

variable {db : Database} {G : Graph} {next : UInt64}

/-- An entry is a directory without a value, or a value. -/
theorem get_ok_cases {path : DbPath} {entry : Entry} (hget : db.get path = .ok entry) :
    entry = { path := path, kind := .directory, value := none } ∨
    ∃ v, entry = { path := path, kind := .value, value := some v } := by
  obtain ⟨⟨id, record⟩, -, hrecord⟩ := Rust.bind_eq_ok.mp hget
  cases record with
  | dir =>
    cases hrecord
    exact Or.inl rfl
  | value encoded =>
    obtain ⟨v, -, hv⟩ := Rust.bind_eq_ok.mp hrecord
    cases hv
    exact Or.inr ⟨v, rfl⟩

/-- `walk_rec` goes the way of `walk`, and keeps the values. -/
theorem walkRec_eq (fuel : Nat) (path : DbPath) (out : List Candidate) :
    db.walkRec fuel path (valuesOf out) = Except.map valuesOf (walk db fuel path out) := by
  induction fuel generalizing path out with
  | zero => rfl
  | succ fuel ih =>
    rw [walkRec, walk]
    cases hget : db.get path with
    | error e => rfl
    | ok entry =>
      rcases get_ok_cases hget with rfl | ⟨v, rfl⟩
      · have hout : valuesOf (out ++ [(path, .directory, none)]) = valuesOf out := by simp [valuesOf]
        cases hlist : db.list path with
        | error e => simp [Rust.error_bind, Except.map]
        | ok children =>
          simp only [Rust.ok_bind, if_pos]
          rw [← hout]
          refine Rust.foldlM_map (fun out child => ?_) children _
          cases Rust.mapErr NsError.path (path.join child.1) with
          | error e => rfl
          | ok childPath => exact ih childPath out
      · simp [valuesOf, Except.map, pure, Except.pure]

/-- `walk_values` is the walk, restricted to values. -/
theorem walkValues_eq : db.walkValues = Except.map valuesOf (allEntries db) := walkRec_eq _ _ []

/-- What the walk covers it visits once. -/
theorem visitsOnce (h : Stores db.store.map G next) {entries : List Candidate} (hcovers : Covers db G.Live entries) :
    VisitsOnce db entries := by
  have hascending : entries.Pairwise (fun c later => c.1.segments < later.1.segments) := List.pairwise_map.mp hcovers.paths.ascending
  refine ⟨?_, ?_, ?_, ?_⟩
  · intro path
    have hmem : path ∈ entries.map Prod.fst ↔ path.segments ∈ entries.map (fun c => c.1.segments) := by
      rw [List.mem_map, List.mem_map]
      exact exists_congr (fun c => and_congr_right (fun _ => DbPath.ext_iff))
    rw [hmem, hcovers.paths.mem, exists_eq h, Graph.Live, ← Option.isSome_iff_exists]
    simp
  · exact List.pairwise_map.mpr (hascending.imp (fun hlt heq => hlt.ne (congrArg DbPath.segments heq)))
  · exact hascending.imp (fun hlt hprefix => (le_of_isPrefix hprefix).not_gt hlt)
  · refine hascending.imp (fun hlt dir s t hs ht => ?_)
    rw [hs, ht] at hlt
    exact lt_of_append_singleton_lt hlt

/-- The rows of paths have the texts of the paths. -/
theorem values_of_visited {visited : List DbPath} {puts : List BatchOp} (hputs : List.Forall₂ (IndexesPath G) visited puts) :
    puts.filterMap BatchOp.value = (visited.map DbPath.segments).map (fun p => utf8 (pathText p)) := by
  induction hputs with
  | nil => rfl
  | cons hput _ ih =>
    obtain ⟨i, a, -, rfl⟩ := hput
    simp only [List.filterMap_cons, BatchOp.value, ih, List.map_cons]
    rfl

/-- The batch of `rebuild_type_index` has the paths of the entries in it. -/
theorem perm_rebuilt (h : Stores db.store.map G next) {entries : List Candidate} (hcovers : Covers db G.Live entries)
    {visited : List DbPath} {puts : List BatchOp} (hvisit : Visiting G.Live (visited.map DbPath.segments).reverse [])
    (hputs : List.Forall₂ (IndexesPath G) visited puts) (deleted : List (Bytes × Bytes)) :
    ((deleted.map (fun row => BatchOp.delete row.1) ++ puts).filterMap BatchOp.value).Perm
      (entries.map (fun c => utf8 c.1.asStr)) := by
  have hdeleted : (deleted.map (fun row => BatchOp.delete row.1)).filterMap BatchOp.value = [] := by simp [BatchOp.value]
  have hpaths : (visited.map DbPath.segments).Perm (entries.map (fun c => c.1.segments)) := by
    have hnodup := hvisit.nodup
    rw [List.append_nil, List.nodup_reverse] at hnodup
    refine (List.perm_ext_iff_of_nodup hnodup hcovers.paths.nodup).mpr (fun p => ?_)
    rw [hcovers.paths.mem]
    constructor
    · intro hp
      exact hvisit.alive p (by rw [List.append_nil]; exact List.mem_reverse.mpr hp)
    · intro hp
      exact List.mem_reverse.mp (hvisit.complete h.wf.prefixClosed hp)
  rw [List.filterMap_append, hdeleted, List.nil_append, values_of_visited hputs]
  have hentries : entries.map (fun c => utf8 c.1.asStr) =
      (entries.map (fun c => c.1.segments)).map (fun p => utf8 (pathText p)) := by
    rw [List.map_map]
    rfl
  rw [hentries]
  exact hpaths.map _

/-- Every walk ends and visits each entry exactly once, in every state of a run, exactly when all values that are stored can be
decoded. -/
theorem walks_agree_iff (hreached : Reached (fun _ => True) db) : WalksAgree db ↔ ValuesDecode db := by
  obtain ⟨G, next, h, hsegments⟩ := hreached.segments (fun _ _ op _ => op.path.valid)
  constructor
  · rintro ⟨entries, batch, hentries, -⟩
    exact valuesDecode_of_allEntries h hsegments hentries
  · intro hdecode
    rcases allEntries_cases h hsegments with ⟨e, -, he⟩ | ⟨entries, hentries, hcovers⟩
    · exact absurd he (hdecode.not_undecodable h)
    rcases rebuildBatch_cases h hsegments with ⟨e, p, i, v, -, hp, hv⟩ | ⟨visited, puts, hbatch, hvisit, hputs⟩
    · exact absurd ⟨p, i, v, hp, hv⟩ (hdecode.not_undecodable h (e := e))
    · refine ⟨entries, _, hentries, visitsOnce h hcovers, ?_, hbatch, perm_rebuilt h hcovers hvisit hputs _⟩
      rw [walkValues_eq, hentries]
      rfl

/-- A list inside a directory. -/
def listInside : List Command :=
  [.call (.mkdir pathA), .call (.listPush ⟨["a", "l"], by decide⟩ (.scalar (.int 7)))]

/-- A list below a directory. -/
theorem walks_agree_list : ∃ db, runAll step opened listInside = some db ∧ WalksAgree db := by
  refine ⟨_, rfl, (walks_agree_iff ⟨listInside, Run.of_runAll (fun _ _ _ => trivial) rfl⟩).mpr ?_⟩
  exact valuesDecode_of_entries (by decide +kernel)

/-- Where bytes of the length `2 ^ 32` are stored, the walks fail. -/
theorem walks_fail_on_great : ∃ db, Reached (fun _ => True) db ∧ (∃ e, allEntries db = .error e) ∧
    (∃ e, db.walkValues = .error e) ∧ ¬WalksAgree db := by
  obtain ⟨db, ⟨commands, hrun⟩, hgreat⟩ := reached_great
  have hreached : Reached (fun _ => True) db := ⟨commands, hrun.mono (fun _ _ _ => trivial)⟩
  obtain ⟨G, next, h, hsegments⟩ := hreached.segments (fun _ _ op _ => op.path.valid)
  rcases allEntries_cases h hsegments with ⟨e, herror, -⟩ | ⟨entries, hentries, -⟩
  · refine ⟨db, hreached, ⟨e, herror⟩, ⟨e, by rw [walkValues_eq, herror]; rfl⟩, ?_⟩
    rintro ⟨entries, batch, hentries, -⟩
    rw [herror] at hentries
    cases hentries
  · exact absurd (valuesDecode_of_allEntries h hsegments hentries) hgreat

end Database
end AlefsDb
