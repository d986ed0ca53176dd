import AlefsDb.Lemmas.Exports
import AlefsDb.Lemmas.Great
import AlefsDb.Lemmas.ImportPlans

/-!
# Export and import

The text of an export has each directory before what it holds, so an import of it into an empty database makes the same paths again,
and sets at each the value that its text is converted to. It is the value that was exported unless a string that is a key of a tree
looks like another scalar. A value that cannot be decoded cannot be exported.
-/

namespace AlefsDb
namespace Json

open Database Query

/-! ## Ids -/

/-- No id is zero. -/
def Positive (G : Graph) : Prop := ∀ p i a, G p = some (i, a) → 0 < i.toNat

/-- There are fewer paths than the next id says. -/
theorem Positive.length_lt {G : Graph} {next : UInt64} (h : Positive G) (hwf : G.WellFormed next) {l : List (List String)}
    (hnodup : l.Nodup) (hlive : ∀ p ∈ l, G.Live p) : l.length < next.toNat := by
  -- different paths have different ids
  let id : List String → Nat := fun p => (G p).elim 0 (fun x => x.1.toNat)
  have hids : (l.map id).Nodup := by
    refine List.Nodup.map_on (fun p hp q hq hpq => ?_) hnodup
    obtain ⟨⟨i, a⟩, hi⟩ := hlive p hp
    obtain ⟨⟨j, b⟩, hj⟩ := hlive q hq
    simp only [id, hi, hj, Option.elim_some] at hpq
    exact hwf.unique hi (UInt64.toNat_inj.mp hpq ▸ hj)
  have hrange : l.map id ⊆ List.range' 1 (next.toNat - 1) := by
    intro n hn
    obtain ⟨p, hp, rfl⟩ := List.mem_map.mp hn
    obtain ⟨⟨i, a⟩, hi⟩ := hlive p hp
    have hpositive := h p i a hi
    have hbelow := hwf.below hi
    simp only [id, hi, Option.elim_some, List.mem_range'_1]
    omega
  have hlength := (List.subperm_of_subset hids hrange).length_le
  have hroot := hwf.below hwf.root
  rw [List.length_map, List.length_range'] at hlength
  have : 0 < next.toNat := Nat.lt_of_le_of_lt (Nat.zero_le _) hroot
  omega

/-- In every state of a run of commands on parsed paths, the segments are those of parsed paths and no id is zero. -/
theorem reached_positive {db : Database} (hreached : Reached Command.Parsed db) :
    ∃ G next, Stores db.store.map G next ∧ ParsedSegments G ∧ Positive G := by
  refine hreached.holds (I := fun G _ => ParsedSegments G ∧ Positive G) ⟨?_, ?_⟩ ?_
  · intro p x hp s hs
    rw [(Graph.initial_eq_some.mp hp).1] at hs
    cases hs
  · intro p i a hp
    obtain ⟨-, hx⟩ := Graph.initial_eq_some.mp hp
    cases hx
    decide
  · intro c hc op hop G next change hwf hI hplan hfits
    refine ⟨hI.1.change hfits (fun p hp s hs => ?_), ?_⟩
    · rw [Graph.plan_path hplan hp] at hs
      obtain ⟨text, htext⟩ := hc op hop
      exact ⟨op.path.valid s hs, DbPath.noNul_of_parse htext s hs⟩
    · intro p i a hp
      cases change with
      | nothing => exact hI.2 p i a hp
      | create parent name parentId b =>
        rcases (Graph.create_eq_some hfits.2.1).mp hp with ⟨-, hx⟩ | hp
        · cases hx
          exact Nat.lt_of_le_of_lt (Nat.zero_le _) (hwf.below hwf.root)
        · exact hI.2 p i a hp
      | replace q j old v =>
        rcases Graph.replace_eq_some.mp hp with ⟨-, hx⟩ | ⟨-, hp⟩
        · cases hx
          exact hI.2 q _ _ hfits
        · exact hI.2 p i a hp
      | remove parent name parentId j b => exact hI.2 p i a (Graph.remove_eq_some.mp hp).2

/-! ## The import of entries -/

variable {floatText : UInt64 → List Char} {db : Database} {G G₁ G₂ : Graph} {next next₁ next₂ : UInt64}

/-- The node that the text of an entry is imported as. -/
def NodeOf (floatText : UInt64 → List Char) (c : Candidate) (a : Node) : Prop :=
  match c.2.2 with
  | none => a = .dir
  | some w => ∃ u, jsonToValue (jsonOf floatText w) = .ok u ∧ a = .value u

/-- What is there after the import of entries into an empty database. -/
structure Imported (floatText : UInt64 → List Char) (done : List Candidate) (G : Graph) : Prop where
  root : G [] = some (rootId, .dir)
  node : ∀ c ∈ done, ∃ i a, G c.1.segments = some (i, a) ∧ NodeOf floatText c a
  nothing : ∀ p, p ≠ [] → p ∉ done.map (fun c => c.1.segments) → G p = none

theorem imported_nil : Imported floatText [] Graph.initial where
  root := rfl
  node := fun _ hc => absurd hc List.not_mem_nil
  nothing := fun _ hp _ => if_neg hp

/-- An entry that is new is created under the next id. -/
theorem created_of_step {c : Candidate} (hroot : c.1.segments ≠ []) (hnew : G₁ c.1.segments = none)
    (h : StepDone G₁ next₁ (entryStep floatText c) G₂ next₂) :
    ∃ a, NodeOf floatText c a ∧ G₂ = Function.update G₁ c.1.segments (some (next₁, a)) ∧ next₂ = next₁ + 1 := by
  obtain ⟨path, kind, v⟩ := c
  cases v with
  | none =>
    cases h with
    | skip path atRoot hskip =>
      rcases hskip with hskip | hskip | hskip
      · cases hskip
      · exact absurd (List.isEmpty_iff.mp hskip) hroot
      · rw [hnew] at hskip
        cases hskip
    | dir path _ => exact ⟨.dir, rfl, rfl, rfl⟩
  | some w =>
    rw [entryStep] at h
    dsimp only at h hnew
    cases hu : jsonToValue (jsonOf floatText w) with
    | error e =>
      rw [hu] at h
      cases h
    | ok u =>
      rw [hu] at h
      cases h with
      | new path parent u i hparent hdir _ => exact ⟨.value u, ⟨u, hu, rfl⟩, rfl, rfl⟩
      | again path parent u old i j hparent hdir hold =>
        rw [hnew] at hold
        cases hold

/-- One entry more is imported. -/
theorem Imported.snoc {done : List Candidate} {c : Candidate} (h : Imported floatText done G₁) (hroot : c.1.segments ≠ [])
    (hnew : c.1.segments ∉ done.map (fun c => c.1.segments)) (hstep : StepDone G₁ next₁ (entryStep floatText c) G₂ next₂) :
    Imported floatText (done ++ [c]) G₂ ∧ next₂ = next₁ + 1 := by
  obtain ⟨a, ha, rfl, rfl⟩ := created_of_step hroot (h.nothing _ hroot hnew) hstep
  refine ⟨⟨?_, ?_, ?_⟩, rfl⟩
  · rw [Function.update_of_ne (Ne.symm hroot)]
    exact h.root
  · intro e he
    rcases List.mem_append.mp he with he | he
    · have hne : e.1.segments ≠ c.1.segments := fun heq => hnew (List.mem_map.mpr ⟨e, he, heq⟩)
      rw [Function.update_of_ne hne]
      exact h.node e he
    · obtain rfl := List.mem_singleton.mp he
      exact ⟨_, a, Function.update_self _ _ _, ha⟩
  · intro p hp hmem
    rw [List.map_append, List.mem_append, not_or] at hmem
    rw [Function.update_of_ne (fun heq => hmem.2 (by simp [heq]))]
    exact h.nothing p hp hmem.1

/-- An entry that comes next has not come before. -/
theorem fresh_of_nodup {done entries : List Candidate} {c : Candidate}
    (h : ((done ++ c :: entries).map (fun c => c.1.segments)).Nodup) : c.1.segments ∉ done.map (fun c => c.1.segments) := by
  rw [List.map_append, List.map_cons] at h
  exact fun hmem => (List.nodup_append.mp h).2.2 _ hmem _ List.mem_cons_self rfl

/-- The entries that are imported, when the import succeeds. -/
theorem Imported.steps {done entries : List Candidate} (h : Imported floatText done G₁)
    (hroot : ∀ c ∈ entries, c.1.segments ≠ []) (hnodup : ((done ++ entries).map (fun c => c.1.segments)).Nodup)
    (hplan : planSteps (entries.map (entryStep floatText)) G₁ next₁ = .ok (G₂, next₂)) :
    Imported floatText (done ++ entries) G₂ := by
  induction entries generalizing done G₁ next₁ with
  | nil =>
    cases hplan
    rwa [List.append_nil]
  | cons c entries ih =>
    obtain ⟨G', next', hstep, hrest⟩ := planSteps_cons hplan
    obtain ⟨h', -⟩ := h.snoc (hroot c List.mem_cons_self) (fresh_of_nodup hnodup) hstep
    have hassoc : done ++ [c] ++ entries = done ++ c :: entries := by simp
    rw [← hassoc]
    exact ih h' (fun e he => hroot e (List.mem_cons_of_mem _ he)) (hassoc ▸ hnodup) hrest

/-- A new path in a directory is created. -/
theorem planSteps_new {step : ImportStep} {path parent : DbPath} {i : UInt64} (hparent : path.parent = some parent)
    (hdir : G parent.segments = some (i, .dir)) (hnew : G path.segments = none) (hnext : next.toNat + 1 < 2 ^ 64)
    (hstep : step = .dir path false ∨ ∃ v, step = .set path v) : ∃ c, step.plan G next = .ok c := by
  have hroot : path.segments ≠ [] := by
    intro hnil
    rw [DbPath.parent, if_pos hnil] at hparent
    cases hparent
  obtain ⟨parent', name, hparent', hname, -⟩ := DbPath.split hroot
  obtain rfl : parent' = parent := Option.some.inj (hparent'.symm.trans hparent)
  have hid : Graph.parentId G parent' = .ok i := by rw [Graph.parentId, hdir]
  have hsucc : succId next = .ok (next + 1) := if_pos hnext
  rcases hstep with rfl | ⟨v, rfl⟩
  · have hskip : ¬((false = true) ∨ path.isRoot = true ∨ (G path.segments).isSome = true) := by
      simp [hnew, DbPath.isRoot, hroot]
    refine ⟨.create parent'.segments name i .dir, ?_⟩
    simp only [ImportStep.plan]
    rw [if_neg hskip]
    simp only [Graph.planMkdir, hparent', hname, hnew, hid, hsucc]
    rfl
  · refine ⟨.create parent'.segments name i (.value v), ?_⟩
    simp only [ImportStep.plan, Graph.planSet, hparent', hname, hnew, hid, hsucc]
    rfl

/-- What an entry shows. -/
theorem shown_cases (h : Stores db.store.map G next) {c : Candidate} (hc : Shown db c) :
    (c.2.2 = none ∧ ∃ i, G c.1.segments = some (i, .dir)) ∨
      ∃ i v w, c.2.2 = some w ∧ G c.1.segments = some (i, .value v) ∧ Codec.decode (Codec.encode v) = .ok w := by
  have hget := get_eq h c.1
  rw [Shown, hget] at hc
  rcases G.cases_at c.1.segments with hp | ⟨i, hp⟩ | ⟨i, v, hp⟩
  · rw [hp] at hc
    cases hc
  · rw [hp] at hc
    exact Or.inl ⟨(congrArg Entry.value (Except.ok.inj hc)).symm, i, hp⟩
  · rw [hp] at hc
    obtain ⟨w, hw, hc⟩ := Rust.bind_eq_ok.mp hc
    exact Or.inr ⟨i, v, w, (congrArg Entry.value (Except.ok.inj hc)).symm, hp, decodeNode_eq_ok hw⟩

/-- The paths below the root. -/
def BelowRoot (G : Graph) (q : List String) : Prop := q ≠ [] ∧ G.Live q

/-- The directory that holds an entry is the root or has been imported before. -/
theorem Imported.parent {done entries : List Candidate} {c : Candidate} (himported : Imported floatText done G₁)
    (h : Stores db.store.map G next) (hcovers : Covers db (BelowRoot G) (done ++ c :: entries)) :
    ∃ parent i, c.1.parent = some parent ∧ G₁ parent.segments = some (i, .dir) := by
  obtain ⟨hroot, x, hx⟩ := (hcovers.paths.mem c.1.segments).mp (List.mem_map_of_mem (by simp))
  obtain ⟨parent, name, hparent, -, hsegments⟩ := DbPath.split hroot
  by_cases hnil : parent.segments = []
  · exact ⟨parent, rootId, hparent, by rw [hnil]; exact himported.root⟩
  · obtain ⟨i, hi⟩ := h.wf.parent (hsegments ▸ hx)
    obtain ⟨e, he, hep⟩ := List.mem_map.mp ((hcovers.paths.mem parent.segments).mpr ⟨hnil, _, hi⟩)
    have hlt : e.1.segments < c.1.segments := by
      rw [hep, hsegments]
      exact lt_of_le_of_ne (le_of_isPrefix (List.prefix_append _ _)) (append_singleton_ne_self _ _).symm
    have hdone : e ∈ done := by
      have hascending := hcovers.paths.ascending
      rw [List.map_append, List.map_cons] at hascending
      rcases List.mem_append.mp he with he | he
      · exact he
      · rcases List.mem_cons.mp he with rfl | he
        · exact absurd hlt (lt_irrefl _)
        · have hbehind := List.rel_of_pairwise_cons (List.pairwise_append.mp hascending).2.1 (List.mem_map_of_mem he)
          exact absurd hlt hbehind.asymm
    obtain ⟨j, a, hj, ha⟩ := himported.node e hdone
    rcases shown_cases h (hcovers.shown e he) with ⟨hnone, -⟩ | ⟨j, v, w, -, hv, -⟩
    · rw [NodeOf, hnone] at ha
      exact ⟨parent, j, hparent, by rw [← hep, hj, ha]⟩
    · rw [hep, hi] at hv
      cases hv

/-- The import of entries succeeds when their values can be converted. -/
theorem Imported.succeeds {done entries : List Candidate} (himported : Imported floatText done G₁)
    (h : Stores db.store.map G next) (hpositive : Positive G) (hcovers : Covers db (BelowRoot G) (done ++ entries))
    (hconverted : ∀ c ∈ entries, ∀ w, c.2.2 = some w → ∃ u, jsonToValue (jsonOf floatText w) = .ok u)
    (hnext : next₁.toNat = done.length + 2) : ∃ r, planSteps (entries.map (entryStep floatText)) G₁ next₁ = .ok r := by
  induction entries generalizing done G₁ next₁ with
  | nil => exact ⟨_, rfl⟩
  | cons c entries ih =>
    have hroot := ((hcovers.paths.mem c.1.segments).mp (List.mem_map_of_mem (by simp))).1
    have hnew := fresh_of_nodup hcovers.paths.nodup
    have hlength : (done ++ c :: entries).length + 1 < next.toNat := by
      have hlive : ∀ p ∈ [] :: (done ++ c :: entries).map (fun c => c.1.segments), G.Live p := by
        intro p hp
        rcases List.mem_cons.mp hp with rfl | hp
        · exact ⟨_, h.wf.root⟩
        · exact ((hcovers.paths.mem p).mp hp).2
      have hnodup : ([] :: (done ++ c :: entries).map (fun c => c.1.segments)).Nodup :=
        List.nodup_cons.mpr ⟨fun hmem => ((hcovers.paths.mem []).mp hmem).1 rfl, hcovers.paths.nodup⟩
      have hlt := hpositive.length_lt h.wf hnodup hlive
      rwa [List.length_cons, List.length_map] at hlt
    rw [List.length_append, List.length_cons] at hlength
    have hfits := next.toNat_lt
    obtain ⟨parent, i, hparent, hdir⟩ := himported.parent h hcovers
    have hstep : entryStep floatText c = .dir c.1 false ∨ ∃ v, entryStep floatText c = .set c.1 v := by
      unfold entryStep
      cases hvalue : c.2.2 with
      | none => exact Or.inl rfl
      | some w =>
        obtain ⟨u, hu⟩ := hconverted c List.mem_cons_self w hvalue
        refine Or.inr ⟨u, ?_⟩
        dsimp only
        rw [hu]
        rfl
    have hfree : next₁.toNat + 1 < 2 ^ 64 := by omega
    obtain ⟨change, hchange⟩ := planSteps_new hparent hdir (himported.nothing _ hroot hnew) hfree hstep
    obtain ⟨himported', hnext'⟩ := himported.snoc hroot hnew (stepDone_of_plan hchange)
    have hsucc : (change.nextId next₁).toNat = (done ++ [c]).length + 2 := by
      rw [hnext', Graph.toNat_succ hfree, hnext, List.length_append, List.length_singleton]
    obtain ⟨r, hr⟩ := ih himported' (by simpa using hcovers) (fun e he => hconverted e (List.mem_cons_of_mem _ he)) hsucc
    exact ⟨r, by rw [List.map_cons, planSteps, hchange, Rust.ok_bind]; exact hr⟩

/-! ## Round trips -/

/-- No string that is a key of a tree looks like another scalar, in any value that is read. -/
def PlainTreeKeys (db : Database) : Prop :=
  ∀ path kind w, db.get path = .ok { path := path, kind := kind, value := some w } → PlainKeys w

/-- The database is exported, the text is imported into an empty database, and the same is there at every path. -/
def RoundTrips (floatText : UInt64 → List Char) (db : Database) : Prop :=
  ∃ text db', exportJson floatText db = .ok text ∧ importJson text opened = .ok () db' ∧ ∀ path, db'.get path = db.get path

/-- The import of a text into the empty database, by the entries of the text. -/
theorem imported_of_steps {text : String} {entries : List Candidate}
    (hsteps : importSteps text = .dir DbPath.root true :: entries.map (entryStep floatText)) (hcovers : Covers db (BelowRoot G) entries)
    (hplan : planSteps (importSteps text) Graph.initial 2 = .ok (G₂, next₂)) : Imported floatText entries G₂ := by
  rw [hsteps, planSteps_dir_root] at hplan
  refine imported_nil.steps (fun c hc => ?_) hcovers.paths.nodup hplan
  exact ((hcovers.paths.mem _).mp (List.mem_map_of_mem hc)).1

/-- Every path below the root has its entry. -/
theorem exists_entry {entries : List Candidate} (hcovers : Covers db (BelowRoot G) entries) {p : List String} (hp : p ≠ [])
    (hlive : G.Live p) : ∃ c ∈ entries, c.1.segments = p := by
  obtain ⟨c, hc, hcp⟩ := List.mem_map.mp ((hcovers.paths.mem p).mpr ⟨hp, hlive⟩)
  exact ⟨c, hc, hcp⟩

/-- A value is read as what its entry shows. -/
theorem entry_of_value (h : Stores db.store.map G next) {entries : List Candidate} (hcovers : Covers db (BelowRoot G) entries)
    {p : List String} {i : UInt64} {v w : Value} (hp : G p = some (i, .value v)) (hw : Codec.decode (Codec.encode v) = .ok w) :
    ∃ c ∈ entries, c.1.segments = p ∧ c.2.2 = some w := by
  have hroot : p ≠ [] := by
    rintro rfl
    rw [h.wf.root] at hp
    cases hp
  obtain ⟨c, hc, hcp⟩ := exists_entry hcovers hroot ⟨_, hp⟩
  refine ⟨c, hc, hcp, ?_⟩
  rcases shown_cases h (hcovers.shown c hc) with ⟨-, j, hj⟩ | ⟨j, v', w', hvalue, hj, hw'⟩
  · rw [hcp, hp] at hj
    cases hj
  · rw [hcp, hp] at hj
    cases hj
    rw [hw] at hw'
    cases hw'
    exact hvalue

/-- The values of a database that comes back are decoded, and their keys are plain. -/
theorem reads_of_roundTrips (h : Stores db.store.map G next) (hsegments : ParsedSegments G) (hfloat : FloatFree db)
    (hround : RoundTrips floatText db) : ValuesDecode db ∧ PlainTreeKeys db := by
  obtain ⟨text, db', hexport, himport, hsame⟩ := hround
  rcases export_cases h hsegments hfloat with ⟨e, herror, -⟩ | ⟨text', entries, hok, hsteps, hcovers⟩
  · rw [hexport] at herror
    cases herror
  rw [hexport] at hok
  cases hok
  obtain ⟨G', next', hplan, h'⟩ := planSteps_of_import opened_stores himport
  have himported := imported_of_steps hsteps hcovers hplan
  constructor
  · refine valuesDecode_of_shown h (fun p x hx hp => ?_)
    obtain ⟨c, hc, hcp⟩ := exists_entry hcovers hp ⟨x, hx⟩
    exact ⟨c, hcp, hcovers.shown c hc⟩
  · intro path kind w hget
    rcases shown_cases h (show Shown db (path, kind, some w) from hget) with ⟨hnone, -⟩ | ⟨i, v, w', hw', hv, hdecode⟩
    · cases hnone
    cases hw'
    obtain ⟨c, hc, hcp, hvalue⟩ := entry_of_value h hcovers hv hdecode
    obtain ⟨j, a, hj, ha⟩ := himported.node c hc
    rw [NodeOf, hvalue] at ha
    obtain ⟨u, hu, rfl⟩ := ha
    -- what the text is converted to has plain keys, and it is read as the value
    have hu' := converted_of_jsonToValue (hfloat path kind w hget) (Codec.decode_wellRead hdecode).small hu
    rcases shown_cases h' (show Shown db' (path, kind, some w) from (hsame path).trans hget) with
      ⟨hnone, -⟩ | ⟨i', v', w', hw', hv', hdecode'⟩
    · cases hnone
    cases hw'
    rw [hcp, hv'] at hj
    cases hj
    rw [Codec.decode_encode hu'.ordered hu'.small] at hdecode'
    cases hdecode'
    exact hu'.plain.canon

/-- What an entry of a value that comes back is converted to. -/
theorem converted_back (hfloat : FloatFree db) (hplain : PlainTreeKeys db) {c : Candidate} (hc : Shown db c) {w : Value}
    (hvalue : c.2.2 = some w) (hw : Codec.WellRead w) : jsonToValue (jsonOf floatText w) = .ok w := by
  obtain ⟨path, kind, v⟩ := c
  cases hvalue
  exact jsonToValue_jsonOf hw.ordered (hfloat path kind w hc) (hplain path kind w hc)

/-- A database whose values are decoded, with plain keys, comes back. -/
theorem roundTrips_of_reads (h : Stores db.store.map G next) (hsegments : ParsedSegments G) (hpositive : Positive G)
    (hfloat : FloatFree db) (hdecode : ValuesDecode db) (hplain : PlainTreeKeys db) : RoundTrips floatText db := by
  rcases @export_cases floatText _ _ _ h hsegments hfloat with ⟨e, -, he⟩ | ⟨text, entries, hexport, hsteps, hcovers⟩
  · exact absurd he (hdecode.not_undecodable h)
  have hwell : ∀ c ∈ entries, ∀ w, c.2.2 = some w → jsonToValue (jsonOf floatText w) = .ok w := by
    intro c hc w hvalue
    rcases shown_cases h (hcovers.shown c hc) with ⟨hnone, -⟩ | ⟨i, v, w', hw', -, hv⟩
    · rw [hnone] at hvalue
      cases hvalue
    · rw [hw'] at hvalue
      cases hvalue
      exact converted_back hfloat hplain (hcovers.shown c hc) hw' (Codec.decode_wellRead hv)
  obtain ⟨r, hr⟩ := imported_nil.succeeds h hpositive hcovers (fun c hc w hvalue => ⟨w, hwell c hc w hvalue⟩)
    (show (2 : UInt64).toNat = _ from rfl)
  have hplan : planSteps (importSteps text) Graph.initial 2 = .ok r := by rw [hsteps, planSteps_dir_root]; exact hr
  rcases runSteps_cases opened_stores (importSteps text) with ⟨e, db', -, herror⟩ | ⟨db', G', next', hrun, hplan', h'⟩
  · rw [hplan] at herror
    cases herror
  have himported := imported_of_steps hsteps hcovers hplan'
  refine ⟨text, db', hexport, by rw [importJson_eq]; exact hrun, fun path => ?_⟩
  rw [get_eq h', get_eq h]
  by_cases hroot : path.segments = []
  · rw [hroot, himported.root, h.wf.root]
  rcases G.cases_at path.segments with hp | ⟨i, hp⟩ | ⟨i, v, hp⟩
  · have hnothing : path.segments ∉ entries.map (fun c => c.1.segments) := by
      intro hmem
      obtain ⟨-, x, hx⟩ := (hcovers.paths.mem _).mp hmem
      rw [hp] at hx
      cases hx
    rw [himported.nothing _ hroot hnothing, hp]
  · obtain ⟨c, hc, hcp⟩ := exists_entry hcovers hroot ⟨_, hp⟩
    obtain ⟨j, a, hj, ha⟩ := himported.node c hc
    rcases shown_cases h (hcovers.shown c hc) with ⟨hnone, -⟩ | ⟨k, v, w, -, hk, -⟩
    · rw [NodeOf, hnone] at ha
      rw [hp, ← hcp, hj, ha]
    · rw [hcp, hp] at hk
      cases hk
  · obtain ⟨w, hw⟩ := hdecode i _ (h.get_node hp)
    obtain ⟨c, hc, hcp, hvalue⟩ := entry_of_value h hcovers hp hw
    obtain ⟨j, a, hj, ha⟩ := himported.node c hc
    rw [NodeOf, hvalue] at ha
    obtain ⟨u, hu, rfl⟩ := ha
    rw [hwell c hc w hvalue] at hu
    cases hu
    -- the value that was read is read back
    have hback := (Codec.decode_wellRead hw).decode_encode
    rw [hp, ← hcp, hj]
    simp only [entryOf, decodeNode, hw, hback]

/-- Where all rows of values hold the same value, that value is read. -/
theorem reads_of_rows (hreached : Reached Command.Parsed db) {v : Value}
    (hrows : ∀ e ∈ db.store.map.entries, e.2.head? = some 1 → (Codec.decode e.2.tail).toOption = some v) {path : DbPath}
    {kind : EntryKind} {w : Value} (hget : db.get path = .ok { path := path, kind := kind, value := some w }) : w = v := by
  obtain ⟨G, next, h⟩ := hreached.stores
  rcases shown_cases h (show Shown db (path, kind, some w) from hget) with ⟨hnone, -⟩ | ⟨i, u, w', hw', hu, hdecode⟩
  · cases hnone
  cases hw'
  have hrow := hrows _ ((db.store.map.mem_entries_iff _ _).mpr (h.get_node hu)) rfl
  rw [show (Node.value u).bytes.tail = Codec.encode u from rfl, hdecode] at hrow
  exact Option.some.inj hrow

/-- Export and import reproduce the database. In every state of a run of commands on parsed paths whose values hold no float, the text
of the export is imported into an empty database and the same directories and values are there, if and only if all values that are
stored can be decoded and no string key of a tree looks like another scalar. -/
theorem export_import_iff (hreached : Reached Command.Parsed db) (hfloat : FloatFree db) :
    RoundTrips floatText db ↔ ValuesDecode db ∧ PlainTreeKeys db := by
  obtain ⟨G, next, h, hsegments, hpositive⟩ := reached_positive hreached
  constructor
  · exact reads_of_roundTrips h hsegments hfloat
  · rintro ⟨hdecode, hplain⟩
    exact roundTrips_of_reads h hsegments hpositive hfloat hdecode hplain

/-- A tree with a list, and with bytes under a string. -/
def treeOfList : Value := .tree [(.int 1, .list [.scalar .null]), (.string "x", .scalar (.bytes [1, 2]))]

/-- A directory and a tree in it. -/
def treeInside (v : Value) : List Command := [.call (.mkdir pathA), .call (.set ⟨["a", "t"], by decide⟩ v)]

theorem treeInside_parsed (v : Value) : ∀ c ∈ treeInside v, c.Parsed := by
  intro c hc op hop
  simp only [treeInside, List.mem_cons, List.not_mem_nil, or_false] at hc
  rcases hc with rfl | rfl <;> obtain rfl := List.mem_singleton.mp hop
  · exact ⟨"/a", (show DbPath.parse "/a" = .ok pathA by decide +kernel)⟩
  · exact ⟨"/a/t", (show DbPath.parse "/a/t" = .ok ⟨["a", "t"], by decide⟩ by decide +kernel)⟩

/-- A list as a key of a tree, exported and imported. -/
theorem export_import_tree : ∃ db, runAll step opened (treeInside treeOfList) = some db ∧ RoundTrips (fun _ => []) db := by
  have hreached : Reached Command.Parsed _ := ⟨treeInside treeOfList, Run.of_runAll (fun _ => treeInside_parsed _) rfl⟩
  refine ⟨_, rfl, ?_⟩
  have hreads : ∀ {path kind w}, Database.get _ path = .ok { path := path, kind := kind, value := some w } → w = treeOfList :=
    fun hget => reads_of_rows hreached (by decide +kernel) hget
  -- what a property of all its parts takes
  have heverywhere : ∀ {P : Value → Prop}, P treeOfList → P (.list [.scalar .null]) → P (.scalar .null) → P (.scalar (.bytes [1, 2])) →
      Value.Everywhere P treeOfList := by
    intro P htree hlist hnull hbytes
    refine .intro _ htree (fun w hw => ?_)
    rcases List.mem_pair.mp hw with rfl | rfl
    · exact .intro _ hlist (fun u hu => List.mem_singleton.mp hu ▸ Value.everywhere_scalar hnull)
    · exact Value.everywhere_scalar hbytes
  have hfloat : NoFloat treeOfList := heverywhere (by simp [NoFloatHere, NotFloat, treeOfList]) trivial trivial trivial
  have hplain : PlainKeys treeOfList := by
    refine heverywhere (fun e he => ?_) trivial trivial trivial
    rcases List.mem_pair.mp he with rfl | rfl
    · trivial
    · exact ⟨by decide, by decide, by decide, by decide, by decide, by decide +kernel⟩
  refine (export_import_iff hreached (fun path kind w hget => hreads hget ▸ hfloat)).mpr ⟨?_, fun path kind w hget => hreads hget ▸ hplain⟩
  exact valuesDecode_of_entries (by decide +kernel)

/-- A tree with the string `1` as a key comes back with the integer. -/
theorem export_import_differs : ∃ db, runAll step opened (treeInside (.tree [(.string "1", .scalar .null)])) = some db ∧
    Reached Command.Parsed db ∧ FloatFree db ∧ ¬RoundTrips (fun _ => []) db := by
  have hrun : runAll step opened (treeInside (.tree [(.string "1", .scalar .null)])) = some _ := rfl
  have hreached : Reached Command.Parsed _ := ⟨_, Run.of_runAll (fun _ => treeInside_parsed _) hrun⟩
  have hreads : ∀ {path kind w}, Database.get _ path = .ok { path := path, kind := kind, value := some w } →
      w = .tree [(.string "1", .scalar .null)] := fun hget => reads_of_rows hreached (by decide +kernel) hget
  have hfloat : NoFloat (.tree [(.string "1", .scalar .null)]) := by
    refine .intro _ (by simp [NoFloatHere, NotFloat]) (fun w hw => ?_)
    exact List.mem_singleton.mp hw ▸ Value.everywhere_scalar trivial
  refine ⟨_, hrun, hreached, fun path kind w hget => hreads hget ▸ hfloat, fun hround => ?_⟩
  obtain ⟨G, next, h, hsegments, -⟩ := reached_positive hreached
  have hplain := (reads_of_roundTrips h hsegments (fun path kind w hget => hreads hget ▸ hfloat) hround).2 ⟨["a", "t"], by decide⟩
    .value (.tree [(.string "1", .scalar .null)]) rfl
  have hkey : PlainText "1" := hplain.here _ List.mem_cons_self
  exact absurd hkey.int (by decide +kernel)

end Json
end AlefsDb
