import AlefsDb.Lemmas.ImportPlans
import AlefsDb.Lemmas.Great
import AlefsDb.Lemmas.JsonValues
import AlefsDb.Lemmas.SameRows

/-!
# Resuming an import

The steps of an import make directories and set values, and never take anything away. So an import that was interrupted after any of
its commits can be started again: what is there already stays or is set again, and the import ends as if it had not been interrupted.
Only a value that cannot be decoded stands in the way, for it cannot be set again.
-/

namespace AlefsDb
namespace Json

open Database

/-! ## The commits of an import -/

section

variable {db db' : Database}

/-- Batches are committed one after the other. -/
theorem committed_append (db : Database) (batches batches' : List WriteBatch) :
    committed db (batches ++ batches') = committed (committed db batches) batches' :=
  List.foldl_append ..

/-- A step commits at most one batch. -/
theorem length_batches_le (db : Database) (step : ImportStep) : (step.batches db).length ≤ 1 := by
  have htoList : ∀ o : Option WriteBatch, o.toList.length ≤ 1 := fun o => by cases o <;> simp
  cases step with
  | dir path atRoot =>
    simp only [ImportStep.batches]
    split
    · simp
    · exact htoList _
  | set path v => exact htoList _
  | stop e => simp [ImportStep.batches]

/-- What a method that computes a batch leaves. -/
theorem committed_of_read {batch : Database → Rust NsError WriteBatch}
    (h : (do
      let b ← Database.read batch
      commit b : DbM Unit) db = .ok () db') : db' = committed db (batch db).toOption.toList := by
  obtain ⟨b, db₁, hread, hcommit⟩ := bind_eq_ok h
  cases hbatch : batch db with
  | ok b' =>
    rw [read_of_ok hbatch] at hread
    cases hread
    cases hcommit
    rfl
  | error e =>
    rw [read_of_error hbatch] at hread
    cases hread

/-- A step that succeeds leaves the database with its batches. -/
theorem committed_of_step {step : ImportStep} (h : step.run db = .ok () db') : db' = committed db (step.batches db) := by
  cases step with
  | stop e => cases h
  | set path v => exact committed_of_read h
  | dir path atRoot =>
    simp only [ImportStep.run, ensureDir] at h
    simp only [ImportStep.batches]
    by_cases hroot : atRoot ∨ path.isRoot
    · rw [if_pos hroot] at h
      cases h
      rw [if_pos (by tauto)]
      rfl
    · rw [if_neg hroot] at h
      obtain ⟨b, db₁, hread, h⟩ := bind_eq_ok h
      cases hexists : db.exists path with
      | error e =>
        rw [read_of_error hexists] at hread
        cases hread
      | ok b' =>
        rw [read_of_ok hexists] at hread
        cases hread
        cases b with
        | true =>
          cases h
          rw [if_pos (by simp)]
          rfl
        | false =>
          have h : mkdir path db = .ok () db' := h
          unfold mkdir at h
          rw [if_neg (fun hpath => hroot (Or.inr hpath))] at h
          rw [if_neg (by tauto)]
          exact committed_of_read h

/-- Steps that succeed leave the database with their batches. -/
theorem committed_of_steps {steps : List ImportStep} (h : runSteps steps db = .ok () db') :
    db' = committed db (stepsBatches steps db) := by
  induction steps generalizing db with
  | nil =>
    cases h
    rfl
  | cons step steps ih =>
    obtain ⟨_, db₁, hstep, hrest⟩ := bind_eq_ok h
    simp only [stepsBatches, hstep]
    rw [committed_append, ← committed_of_step hstep]
    exact ih hrest

/-- The database after some of the commits is the one after some of the steps. -/
theorem steps_of_take {steps : List ImportStep} (h : runSteps steps db = .ok () db') (k : Nat) :
    ∃ before behind, steps = before ++ behind ∧ runSteps before db = .ok () (committed db ((stepsBatches steps db).take k)) := by
  induction steps generalizing db k with
  | nil => exact ⟨[], [], rfl, by rw [stepsBatches, List.take_nil]; rfl⟩
  | cons step steps ih =>
    obtain ⟨_, db₁, hstep, hrest⟩ := bind_eq_ok h
    have hlength := length_batches_le db step
    have hcommitted := committed_of_step hstep
    cases k with
    | zero => exact ⟨[], step :: steps, rfl, rfl⟩
    | succ k =>
      obtain ⟨before, behind, rfl, hbefore⟩ := ih hrest (k + 1 - (step.batches db).length)
      refine ⟨step :: before, behind, rfl, ?_⟩
      simp only [stepsBatches, hstep]
      rw [List.take_append, List.take_of_length_le (by omega), committed_append, ← hcommitted]
      exact (bind_of_ok hstep _).trans hbefore

end

/-! ## Steps taken again -/

variable {db : Database} {G G' : Graph} {next next' : UInt64}

/-- The graph in which the steps have ended, with what the paths of a list had before. -/
def overlay (G' : Graph) (paths : List (List String)) (G : Graph) : Graph := fun p => if p ∈ paths then G p else G' p

/-- The last graph with an earlier value at the path of a step: the step sets its value again. -/
theorem plan_set_again {path parent : DbPath} {v old : Value} {i j : UInt64} (hparent : path.parent = some parent)
    (hdir : G parent.segments = some (i, .dir)) (hold : G path.segments = some (j, .value old)) (hdecodes : Decodes old) :
    ImportStep.plan G next (.set path v) = .ok (.replace path.segments j old v) := by
  have hroot : path.segments ≠ [] := by
    intro hnil
    rw [DbPath.parent, if_pos hnil] at hparent
    cases hparent
  obtain ⟨parent', name, hparent', hname, -⟩ := DbPath.split hroot
  obtain ⟨w, hw⟩ := hdecodes
  have hread : decodeNode (Codec.encode old) = .ok w := by rw [decodeNode, hw]; rfl
  simp [ImportStep.plan, Graph.planSet, hparent, hname, Graph.parentId, hdir, hold, hread]

/-- One more path of the second graph over the first. -/
theorem overlay_set {paths : List (List String)} {p : List String} {x : UInt64 × Node} :
    Function.update (overlay G' paths G) p (some x) = overlay G' (p :: paths) (Function.update G p (some x)) := by
  funext q
  unfold overlay
  by_cases hq : q = p
  · subst hq
    simp
  · simp [hq]

/-- A directory that is there is skipped. -/
theorem planSteps_dir_again {steps : List ImportStep} {path : DbPath} {atRoot : Bool} {r : Graph × UInt64}
    (h : atRoot ∨ path.isRoot ∨ (G path.segments).isSome) (hrest : planSteps steps G next = .ok r) :
    planSteps (.dir path atRoot :: steps) G next = .ok r := by
  have hplan : ImportStep.plan G next (.dir path atRoot) = .ok .nothing := if_pos h
  rw [planSteps, hplan, Rust.ok_bind]
  exact hrest

/-- A value that is there is set again. -/
theorem planSteps_set_again {steps : List ImportStep} {path parent : DbPath} {v w : Value} {i j : UInt64}
    {paths : List (List String)} {r : Graph × UInt64} (hparent : path.parent = some parent)
    (hdir : overlay G' paths G parent.segments = some (i, .dir)) (hold : overlay G' paths G path.segments = some (j, .value w))
    (hw : Decodes w)
    (hrest : planSteps steps (overlay G' (path.segments :: paths) (Function.update G path.segments (some (j, .value v)))) next =
      .ok r) : planSteps (.set path v :: steps) (overlay G' paths G) next = .ok r := by
  rw [planSteps, plan_set_again hparent hdir hold hw, Rust.ok_bind]
  rw [← overlay_set] at hrest
  exact hrest

/-- The paths have values that can be decoded. -/
def HaveValues (paths : List (List String)) (G : Graph) : Prop := ∀ p ∈ paths, ∃ i v, G p = some (i, .value v) ∧ Decodes v

/-- A value that decodes may be put at one more path. -/
theorem HaveValues.update {paths : List (List String)} (h : HaveValues paths G) {p : List String} {i : UInt64} {v : Value}
    (hv : Decodes v) : HaveValues (p :: paths) (Function.update G p (some (i, .value v))) := by
  intro q hq
  by_cases hqp : q = p
  · exact ⟨i, v, by rw [hqp, Function.update_self], hv⟩
  · rw [Function.update_of_ne hqp]
    exact h q ((List.mem_cons.mp hq).resolve_left hqp)

/-- What is not a value is not at one of the paths, so it is as it ends. -/
theorem HaveValues.overlay_eq {paths : List (List String)} (h : HaveValues paths G) {p : List String}
    (hp : ∀ i v, G p ≠ some (i, .value v)) : overlay G' paths G p = G' p := by
  refine if_neg (fun hmem => ?_)
  obtain ⟨i, v, hv, -⟩ := h p hmem
  exact hp i v hv

/-- A path that is new is not one of the paths. -/
theorem HaveValues.new {paths : List (List String)} (h : HaveValues paths G) {p : List String} {x : Option (UInt64 × Node)}
    (hnew : G p = none) :
    HaveValues paths (Function.update G p x) ∧ overlay G' paths (Function.update G p x) = overlay G' paths G := by
  have hsame : ∀ q ∈ paths, Function.update G p x q = G q := by
    intro q hq
    obtain ⟨i, v, hv, -⟩ := h q hq
    refine Function.update_of_ne (fun hqp => ?_) _ _
    rw [hqp, hnew] at hv
    cases hv
  constructor
  · intro q hq
    rw [hsame q hq]
    exact h q hq
  · funext q
    unfold overlay
    split
    · exact hsame q ‹_›
    · rfl

/-- From where steps have ended, they lead there again, when the values that they set can be decoded. On the way the paths that
are set anew have what they had the first time. -/
theorem planSteps_again {steps : List ImportStep} (h : planSteps steps G next = .ok (G', next'))
    (hdecodes : ∀ path v, .set path v ∈ steps → Decodes v) {paths : List (List String)} (hpaths : HaveValues paths G) :
    planSteps steps (overlay G' paths G) next' = .ok (G', next') := by
  induction steps generalizing G next paths with
  | nil =>
    cases h
    have hsame : overlay G' paths G' = G' := by
      funext p
      simp [overlay]
    rw [hsame]
    rfl
  | cons step steps ih =>
    obtain ⟨G₁, next₁, hstep, hrest⟩ := planSteps_cons h
    have hlater : ∀ path v, .set path v ∈ steps → Decodes v := fun path v hmem => hdecodes path v (List.mem_cons_of_mem _ hmem)
    have hends : ∀ {p i v}, G₁ p = some (i, .value v) → (Decodes v) → ∃ w, G' p = some (i, .value w) ∧ Decodes w := by
      intro p i v hp hv
      obtain ⟨w, hw, rfl | ⟨path, -, hmem⟩⟩ := planSteps_value_stays hrest hp
      · exact ⟨w, hw, hv⟩
      · exact ⟨w, hw, hlater path w hmem⟩
    have hparents : ∀ {p i}, G p = some (i, .dir) → overlay G' paths G p = some (i, .dir) := by
      intro p i hp
      rw [hpaths.overlay_eq (by simp [hp])]
      exact planSteps_dir_stays h hp
    cases hstep with
    | skip path atRoot hskip =>
      refine planSteps_dir_again (hskip.imp_right (fun hskip => hskip.imp_right (fun hsome => ?_))) (ih hrest hlater hpaths)
      unfold overlay
      split
      · exact hsome
      · exact planSteps_stays hrest hsome
    | dir path hnew =>
      obtain ⟨hpaths', hoverlay⟩ := @HaveValues.new _ G' _ hpaths _ (some (next, .dir)) hnew
      refine planSteps_dir_again (Or.inr (Or.inr ?_)) (hoverlay ▸ ih hrest hlater hpaths')
      rw [hpaths.overlay_eq (by simp [hnew]), planSteps_dir_stays hrest (Function.update_self _ _ _)]
      rfl
    | new path parent v i hparent hdir hnew =>
      have hv := hdecodes path v List.mem_cons_self
      obtain ⟨w, hw, hwdecodes⟩ := hends (Function.update_self _ _ _) hv
      refine planSteps_set_again hparent (hparents hdir) ?_ hwdecodes (ih hrest hlater (hpaths.update hv))
      rw [hpaths.overlay_eq (by simp [hnew])]
      exact hw
    | again path parent v old i j hparent hdir hold hold' =>
      have hv := hdecodes path v List.mem_cons_self
      have hcurrent : ∃ w, overlay G' paths G path.segments = some (j, .value w) ∧ Decodes w := by
        unfold overlay
        split
        · exact ⟨old, hold, hold'⟩
        · exact hends (Function.update_self _ _ _) hv
      obtain ⟨w, hw, hwdecodes⟩ := hcurrent
      exact planSteps_set_again hparent (hparents hdir) hw hwdecodes (ih hrest hlater (hpaths.update hv))

/-! ## Values that are set again -/

/-- A value that another one is set in the place of can be decoded. -/
theorem decodes_of_set {steps : List ImportStep} {r : Graph × UInt64} (h : planSteps steps G next = .ok r) {path : DbPath}
    {i : UInt64} {v : Value} (hp : G path.segments = some (i, .value v)) (hset : ∃ w, .set path w ∈ steps) : Decodes v := by
  induction steps generalizing G next with
  | nil =>
    obtain ⟨w, hw⟩ := hset
    cases hw
  | cons step steps ih =>
    obtain ⟨G₁, next₁, hstep, hrest⟩ := planSteps_cons h
    by_cases hhere : ∃ w, step = .set path w
    · obtain ⟨w, rfl⟩ := hhere
      cases hstep with
      | new path parent v i hparent hdir hnew =>
        rw [hnew] at hp
        cases hp
      | again path parent w old i j hparent hdir hold hdecodes =>
        rw [hold] at hp
        cases hp
        exact hdecodes
    · obtain ⟨w, hw⟩ := hset
      have hlater : .set path w ∈ steps := (List.mem_cons.mp hw).resolve_left (fun he => hhere ⟨w, he.symm⟩)
      obtain ⟨u, hu, rfl | ⟨path', hpath', rfl⟩⟩ := hstep.value_stays hp
      · exact ih hrest hu ⟨w, hlater⟩
      · exact absurd ⟨u, by rw [DbPath.ext hpath']⟩ hhere

/-- A value that steps set can be decoded, or it is there in the end. -/
theorem decodes_or_stays {steps : List ImportStep} (h : planSteps steps G next = .ok (G', next')) {path : DbPath} {v : Value}
    (hset : .set path v ∈ steps) : Decodes v ∨ ∃ i, G' path.segments = some (i, .value v) := by
  induction steps generalizing G next with
  | nil => cases hset
  | cons step steps ih =>
    obtain ⟨G₁, next₁, hstep, hrest⟩ := planSteps_cons h
    rcases List.mem_cons.mp hset with rfl | hlater
    · have hhere : ∃ i, G₁ path.segments = some (i, .value v) := by
        cases hstep with
        | new path parent v i hparent hdir hnew => exact ⟨_, Function.update_self _ _ _⟩
        | again path parent v old i j hparent hdir hold hdecodes => exact ⟨_, Function.update_self _ _ _⟩
      obtain ⟨i, hi⟩ := hhere
      obtain ⟨w, hw, rfl | ⟨path', hpath', hmem⟩⟩ := planSteps_value_stays hrest hi
      · exact Or.inr ⟨i, hw⟩
      · exact Or.inl (decodes_of_set hrest hi ⟨w, DbPath.ext hpath' ▸ hmem⟩)
    · exact ih hrest hlater

/-! ## Imports -/

/-- Every value that the text sets can be decoded. -/
def TextDecodes (json : String) : Prop := ∀ path v, .set path v ∈ importSteps json → Decodes v

/-- The import goes on from every state after some of its commits, and ends as if it had not been interrupted. -/
def Resumes (json : String) (db db' : Database) : Prop :=
  ∀ k, importJson json (committed db ((importBatches json db).take k)) = .ok () db'

variable {json : String} {db' : Database}

/-- Steps that are taken again where they have led to leave the database as it is. -/
theorem runSteps_again (h : Stores db.store.map G next) {steps : List ImportStep} (hrun : runSteps steps db = .ok () db')
    (hdecodes : ∀ path v, .set path v ∈ steps → Decodes v) : runSteps steps db' = .ok () db' := by
  rcases runSteps_cases h steps with ⟨e, db₁, herror, -⟩ | ⟨db₁, G', next', hok, hplan, h'⟩
  · rw [herror] at hrun
    cases hrun
  · rw [hok] at hrun
    cases hrun
    have hagain : planSteps steps G' next' = .ok (G', next') :=
      planSteps_again hplan hdecodes (show HaveValues [] G from fun p hp => absurd hp List.not_mem_nil)
    rcases runSteps_cases h' steps with ⟨e, db₂, -, herror⟩ | ⟨db₂, G'', next'', hok', hplan', h''⟩
    · rw [hagain] at herror
      cases herror
    · rw [hagain] at hplan'
      cases hplan'
      rw [hok', eq_of_stores h'' h' (Graph.Same.refl _) (Graph.Same.refl _)]

/-- The steps of a text can be looked through. -/
theorem textDecodes_of_all
    (h : (importSteps json).all (fun step => match step with
      | .set _ v => (Codec.decode (Codec.encode v)).toOption.isSome
      | _ => true) = true) : TextDecodes json := by
  intro path v hset
  have hdecodes := List.all_eq_true.mp h _ hset
  cases hv : Codec.decode (Codec.encode v) with
  | ok w => exact ⟨w, hv⟩
  | error e =>
    dsimp only at hdecodes
    rw [hv] at hdecodes
    cases hdecodes

/-- There is a text that sets any bytes at `/a`. -/
theorem exists_text_of_bytes (b : Bytes) : ∃ json, importSteps json = [.set pathA (.scalar (.bytes b))] := by
  have hbytes : ParsesTo (scalarToJson (fun _ => []) (.bytes b)) (jsonOfScalar (.bytes b)) := parsesTo_scalar _ trivial
  have htext := parsesTo_object (.cons (entryParses_jsonEntry "a".toList hbytes) .nil)
  refine ⟨String.ofList (jsonObject [jsonEntry "a".toList (scalarToJson (fun _ => []) (.bytes b))]), ?_⟩
  have hchild : childPath DbPath.root "a" = .ok pathA := by decide +kernel
  have hvalue : jsonToValue (jsonOfScalar (.bytes b)) = .ok (.scalar (.bytes b)) := by
    rw [jsonOfScalar, jsonToValue, decodeBytes_encodeBytes]
    rfl
  rw [importSteps, String.toList_ofList, trim_jsonObject, parseJsonValue_of_parsesTo htext]
  change childSteps [("a", jsonOfScalar (.bytes b))] DbPath.root = _
  rw [childSteps, hchild]
  change [setStep pathA (jsonToValue (jsonOfScalar (.bytes b)))] = _
  rw [hvalue]
  rfl

/-- When an import can be taken again, all values that its text sets can be decoded. -/
theorem textDecodes_of_again (h : Stores db.store.map G next) (hok : importJson json db = .ok () db')
    (hagain : importJson json db' = .ok () db') : TextDecodes json := by
  intro path v hset
  obtain ⟨G', next', hplan, h'⟩ := planSteps_of_import h hok
  obtain ⟨G'', next'', hplan', -⟩ := planSteps_of_import h' hagain
  rcases decodes_or_stays hplan hset with hdecodes | ⟨i, hi⟩
  · exact hdecodes
  · exact decodes_of_set hplan' hi ⟨v, hset⟩

/-- The last of the states that an import is resumed from is the one it ends in. -/
theorem Resumes.again (hresumes : Resumes json db db') (hok : importJson json db = .ok () db') : importJson json db' = .ok () db' := by
  have hrun : runSteps (importSteps json) db = .ok () db' := by rwa [← importJson_eq]
  have hagain := hresumes (importBatches json db).length
  rwa [List.take_length, importBatches, ← committed_of_steps hrun] at hagain

/-- An interrupted import can be resumed. In every state of a run, an import that succeeds goes on from the state after any number of
its commits and leaves what it leaves uninterrupted, if and only if all values that the text sets can be decoded. -/
theorem import_resumes_iff (hreached : Reached (fun _ => True) db) (hok : importJson json db = .ok () db') :
    Resumes json db db' ↔ TextDecodes json := by
  obtain ⟨G, next, h⟩ := hreached.stores
  have hrun : runSteps (importSteps json) db = .ok () db' := by rwa [← importJson_eq]
  constructor
  · intro hresumes
    exact textDecodes_of_again h hok (hresumes.again hok)
  · intro hdecodes k
    obtain ⟨before, behind, hsteps, hbefore⟩ := steps_of_take hrun k
    have hagain : runSteps before (committed db ((importBatches json db).take k)) =
        .ok () (committed db ((importBatches json db).take k)) :=
      runSteps_again h hbefore (fun path v hmem => hdecodes path v (hsteps ▸ List.mem_append_left behind hmem))
    rw [hsteps, runSteps_append] at hrun
    rw [importJson_eq, hsteps, runSteps_append]
    exact (bind_of_ok hagain _).trans ((bind_of_ok hbefore _).symm.trans hrun)

/-- A text with an empty directory, a directory of the same name that is not empty, and two values of one name. -/
def namesTwice : String :=
  "\x7b\"d\": \x7b\"__dir\": \x7b\x7d\x7d, \"d\": \x7b\"__dir\": \x7b\"e\": [1]\x7d\x7d, \"a\": 1, \"a\": \"x\"\x7d"

/-- A text that names an entry twice. -/
theorem import_resumes_twice : ∃ db', importJson namesTwice opened = .ok () db' ∧ Resumes namesTwice opened db' := by
  have hok : importJson namesTwice opened = .ok () (left (importJson namesTwice opened)) := eq_ok_of_failure (by decide +kernel)
  refine ⟨_, hok, (import_resumes_iff ⟨[], Run.nil⟩ hok).mpr (textDecodes_of_all ?_)⟩
  decide +kernel

/-- Bytes of the length `2 ^ 32` are imported into the empty database, and not a second time. -/
theorem import_not_resumed : ∃ json db', Reached (fun _ => True) opened ∧ importJson json opened = .ok () db' ∧
    ¬Resumes json opened db' := by
  obtain ⟨b, hb⟩ : ∃ b : Bytes, b.length = 2 ^ 32 := ⟨List.replicate (2 ^ 32) 0, List.length_replicate⟩
  obtain ⟨json, hjson⟩ := exists_text_of_bytes b
  have hok : importJson json opened = .ok () (opened.after 2 (.create [] "a" rootId (.value (.scalar (.bytes b))))) := by
    rw [importJson_eq, hjson, runSteps_single]
    exact run_eq opened_stores _
  refine ⟨json, _, ⟨[], Run.nil⟩, hok, fun hresumes => ?_⟩
  have hdecodes := textDecodes_of_again opened_stores hok (hresumes.again hok)
  obtain ⟨w, hw⟩ := hdecodes pathA (.scalar (.bytes b)) (by rw [hjson]; exact List.mem_cons_self)
  rw [decode_great hb] at hw
  cases hw

end Json
end AlefsDb
