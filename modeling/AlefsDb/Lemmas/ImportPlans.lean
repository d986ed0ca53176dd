import AlefsDb.Json.Steps
import AlefsDb.Lemmas.Methods

/-!
# The plans of an import

What the steps of an import do, in terms of the graph. A step that succeeds skips a directory that is there, makes one, sets a new
value or sets another one in its place; nothing is taken away, and what is not on the path of a step stays as it is.
-/

namespace AlefsDb
namespace Json

open Database

/-! ## Plans -/

/-- The value of a node can be decoded. -/
def Decodes (v : Value) : Prop := ∃ w, Codec.decode (Codec.encode v) = .ok w

/-- What a step does, by the graph. -/
def ImportStep.plan (G : Graph) (next : UInt64) : ImportStep → Rust NsError Change
  | dir path atRoot => if atRoot ∨ path.isRoot ∨ (G path.segments).isSome then .ok .nothing else G.planMkdir next path
  | set path v => G.planSet next path v
  | stop e => .error e

/-- What steps do, one after the other. -/
def planSteps : List ImportStep → Graph → UInt64 → Rust NsError (Graph × UInt64)
  | [], G, next => .ok (G, next)
  | step :: steps, G, next => do
    let c ← step.plan G next
    planSteps steps (c.graph G next) (c.nextId next)

variable {db : Database} {G G' : Graph} {next next' : UInt64}

/-- `ensure_dir` does what its step plans. -/
theorem ensureDir_eq (h : Stores db.store.map G next) (path : DbPath) (atRoot : Bool) :
    ensureDir path atRoot db = db.outcome next (ImportStep.plan G next (.dir path atRoot)) := by
  unfold ensureDir
  simp only [ImportStep.plan]
  by_cases hroot : atRoot ∨ path.isRoot
  · rw [if_pos hroot, if_pos (by tauto)]
    rfl
  · rw [if_neg hroot]
    refine (bind_of_ok (read_of_ok (exists_eq h path)) _).trans ?_
    cases hp : (G path.segments).isSome with
    | true =>
      rw [if_pos (Or.inr (Or.inr rfl))]
      rfl
    | false =>
      have hnone : ¬(atRoot ∨ path.isRoot ∨ false = true) := by tauto
      rw [if_neg hnone]
      exact mkdir_eq h path

/-- A step does what its plan says. -/
theorem run_eq (h : Stores db.store.map G next) (step : ImportStep) : step.run db = db.outcome next (step.plan G next) := by
  cases step with
  | dir path atRoot => exact ensureDir_eq h path atRoot
  | set path v => exact set_eq h path v
  | stop e => rfl

/-- What a step plans fits the graph. -/
theorem plan_fits {step : ImportStep} {c : Change} (h : step.plan G next = .ok c) : c.Fits G next := by
  cases step with
  | stop e => cases h
  | set path v => exact Graph.planSet_fits h
  | dir path atRoot =>
    simp only [ImportStep.plan] at h
    split at h
    · cases h
      trivial
    · exact Graph.planMkdir_fits h

/-- Steps do what their plans say. -/
theorem runSteps_cases (h : Stores db.store.map G next) (steps : List ImportStep) :
    (∃ e db', runSteps steps db = .error e db' ∧ planSteps steps G next = .error e) ∨
    ∃ db' G' next', runSteps steps db = .ok () db' ∧ planSteps steps G next = .ok (G', next') ∧
      Stores db'.store.map G' next' := by
  induction steps generalizing db G next with
  | nil => exact Or.inr ⟨db, G, next, rfl, rfl, h⟩
  | cons step steps ih =>
    have hstep := run_eq h step
    cases hplan : step.plan G next with
    | error e =>
      rw [hplan] at hstep
      exact Or.inl ⟨e, db, bind_of_error hstep _, by rw [planSteps, hplan]; rfl⟩
    | ok c =>
      rw [hplan] at hstep
      have hchange : Stores (db.after next c).store.map (c.graph G next) (c.nextId next) := h.change (plan_fits hplan)
      have hrest := ih hchange
      have hrun : ∀ {r}, runSteps steps (db.after next c) = r → runSteps (step :: steps) db = r :=
        fun hr => (bind_of_ok hstep _).trans hr
      have hplans : planSteps (step :: steps) G next = planSteps steps (c.graph G next) (c.nextId next) := by
        rw [planSteps, hplan, Rust.ok_bind]
      rw [hplans]
      rcases hrest with ⟨e, db', herror, he⟩ | ⟨db', G', next', hok, hG', h'⟩
      · exact Or.inl ⟨e, db', hrun herror, he⟩
      · exact Or.inr ⟨db', G', next', hrun hok, hG', h'⟩

/-- What a step that succeeds can do: nothing, make a directory, set a new value, or set another one. -/
inductive StepDone (G : Graph) (next : UInt64) : ImportStep → Graph → UInt64 → Prop where
  | skip (path : DbPath) (atRoot : Bool) (h : atRoot ∨ path.isRoot ∨ (G path.segments).isSome) :
      StepDone G next (.dir path atRoot) G next
  | dir (path : DbPath) (hnew : G path.segments = none) :
      StepDone G next (.dir path false) (Function.update G path.segments (some (next, .dir))) (next + 1)
  | new (path parent : DbPath) (v : Value) (i : UInt64) (hparent : path.parent = some parent)
      (hdir : G parent.segments = some (i, .dir)) (hnew : G path.segments = none) :
      StepDone G next (.set path v) (Function.update G path.segments (some (next, .value v))) (next + 1)
  | again (path parent : DbPath) (v old : Value) (i j : UInt64) (hparent : path.parent = some parent)
      (hdir : G parent.segments = some (i, .dir)) (hold : G path.segments = some (j, .value old)) (hdecodes : Decodes old) :
      StepDone G next (.set path v) (Function.update G path.segments (some (j, .value v))) next

theorem stepDone_of_plan {step : ImportStep} {c : Change} (h : step.plan G next = .ok c) :
    StepDone G next step (c.graph G next) (c.nextId next) := by
  cases step with
  | stop e => cases h
  | dir path atRoot =>
    simp only [ImportStep.plan] at h
    split at h
    · rename_i hskip
      cases h
      exact .skip path atRoot hskip
    · rename_i hnew
      obtain rfl : atRoot = false := by simpa using fun hroot => hnew (Or.inl hroot)
      have hnone : G path.segments = none := by simpa using fun hsome => hnew (Or.inr (Or.inr hsome))
      have hroot : path.segments ≠ [] := fun hnil => hnew (Or.inr (Or.inl (List.isEmpty_iff.mpr hnil)))
      obtain ⟨parent, name, hparent, hname, hsegments⟩ := DbPath.split hroot
      simp only [Graph.planMkdir, hparent, hname, hnone] at h
      obtain ⟨i, -, h⟩ := Rust.bind_eq_ok.mp h
      obtain ⟨_, -, h⟩ := Rust.bind_eq_ok.mp h
      cases h
      have hdone : StepDone G next (.dir path false) _ _ := .dir path hnone
      rwa [hsegments] at hdone
  | set path v =>
    simp only [ImportStep.plan, Graph.planSet] at h
    split at h
    · rename_i parent name hparent hname
      have hsegments := DbPath.segments_eq hparent hname
      obtain ⟨i, hi, h⟩ := Rust.bind_eq_ok.mp h
      have hdir := Graph.parentId_eq_ok hi
      split at h
      · cases h
      · rename_i j old hold
        obtain ⟨w, hw, h⟩ := Rust.bind_eq_ok.mp h
        cases h
        exact .again path parent v old i j hparent hdir hold ⟨w, decodeNode_eq_ok hw⟩
      · rename_i hnone
        obtain ⟨_, -, h⟩ := Rust.bind_eq_ok.mp h
        cases h
        have hdone : StepDone G next (.set path v) _ _ := .new path parent v i hparent hdir hnone
        rwa [hsegments] at hdone
    · cases h

/-- Steps are planned one after the other. -/
theorem planSteps_cons {step : ImportStep} {steps : List ImportStep} {r : Graph × UInt64}
    (h : planSteps (step :: steps) G next = .ok r) :
    ∃ G₁ next₁, StepDone G next step G₁ next₁ ∧ planSteps steps G₁ next₁ = .ok r := by
  obtain ⟨c, hc, hrest⟩ := Rust.bind_eq_ok.mp h
  exact ⟨_, _, stepDone_of_plan hc, hrest⟩

/-! ### What stays -/

/-- A directory stays as it is. -/
theorem StepDone.dir_stays {step : ImportStep} (h : StepDone G next step G' next') {p : List String} {i : UInt64}
    (hp : G p = some (i, .dir)) : G' p = some (i, .dir) := by
  have hother : ∀ {q : List String} {x : Option (UInt64 × Node)}, G q ≠ some (i, .dir) → Function.update G q x p = some (i, .dir) := by
    intro q x hq
    have hpq : p ≠ q := by
      rintro rfl
      exact hq hp
    rw [Function.update_of_ne hpq]
    exact hp
  cases h with
  | skip => exact hp
  | dir path hnew => exact hother (by simp [hnew])
  | new path parent v j hparent hdir hnew => exact hother (by simp [hnew])
  | again path parent v old j k hparent hdir hold => exact hother (by simp [hold])

/-- A value stays, or another one is set in its place. -/
theorem StepDone.value_stays {step : ImportStep} (h : StepDone G next step G' next') {p : List String} {i : UInt64} {v : Value}
    (hp : G p = some (i, .value v)) : ∃ w, G' p = some (i, .value w) ∧ (w = v ∨ ∃ path, path.segments = p ∧ step = .set path w) := by
  have hother : ∀ {q : List String} {x : Option (UInt64 × Node)}, G q = none → Function.update G q x p = some (i, .value v) := by
    intro q x hq
    have hpq : p ≠ q := by
      rintro rfl
      rw [hq] at hp
      cases hp
    rw [Function.update_of_ne hpq]
    exact hp
  cases h with
  | skip => exact ⟨v, hp, Or.inl rfl⟩
  | dir path hnew => exact ⟨v, hother hnew, Or.inl rfl⟩
  | new path parent w j hparent hdir hnew => exact ⟨v, hother hnew, Or.inl rfl⟩
  | again path parent w old j k hparent hdir hold =>
    by_cases hpath : path.segments = p
    · rw [hpath, hp] at hold
      cases hold
      exact ⟨w, by rw [hpath, Function.update_self], Or.inr ⟨path, hpath, rfl⟩⟩
    · exact ⟨v, by rw [Function.update_of_ne (Ne.symm hpath)]; exact hp, Or.inl rfl⟩

/-- The steps leave a directory where it is. -/
theorem planSteps_dir_stays {steps : List ImportStep} (h : planSteps steps G next = .ok (G', next')) {p : List String} {i : UInt64}
    (hp : G p = some (i, .dir)) : G' p = some (i, .dir) := by
  induction steps generalizing G next with
  | nil =>
    cases h
    exact hp
  | cons step steps ih =>
    obtain ⟨G₁, next₁, hstep, hrest⟩ := planSteps_cons h
    exact ih hrest (hstep.dir_stays hp)

/-- The steps leave a value where it is, or set it to another. -/
theorem planSteps_value_stays {steps : List ImportStep} (h : planSteps steps G next = .ok (G', next')) {p : List String} {i : UInt64}
    {v : Value} (hp : G p = some (i, .value v)) :
    ∃ w, G' p = some (i, .value w) ∧ (w = v ∨ ∃ path, path.segments = p ∧ .set path w ∈ steps) := by
  induction steps generalizing G next v with
  | nil =>
    cases h
    exact ⟨v, hp, Or.inl rfl⟩
  | cons step steps ih =>
    obtain ⟨G₁, next₁, hstep, hrest⟩ := planSteps_cons h
    obtain ⟨w, hw, hset⟩ := hstep.value_stays hp
    obtain ⟨u, hu, hset'⟩ := ih hrest hw
    refine ⟨u, hu, ?_⟩
    rcases hset' with rfl | ⟨path, hpath, hmem⟩
    · rcases hset with rfl | ⟨path, hpath, rfl⟩
      · exact Or.inl rfl
      · exact Or.inr ⟨path, hpath, List.mem_cons_self⟩
    · exact Or.inr ⟨path, hpath, List.mem_cons_of_mem _ hmem⟩

/-- The steps leave every path. -/
theorem planSteps_stays {steps : List ImportStep} (h : planSteps steps G next = .ok (G', next')) {p : List String}
    (hp : (G p).isSome) : (G' p).isSome := by
  rcases G.cases_at p with hnone | ⟨i, hdir⟩ | ⟨i, v, hvalue⟩
  · rw [hnone] at hp
    cases hp
  · rw [planSteps_dir_stays h hdir]
    rfl
  · obtain ⟨w, hw, -⟩ := planSteps_value_stays h hvalue
    rw [hw]
    rfl

/-- An import that succeeds, by its plan. -/
theorem planSteps_of_import {json : String} {db' : Database} (h : Stores db.store.map G next) (hok : importJson json db = .ok () db') :
    ∃ G' next', planSteps (importSteps json) G next = .ok (G', next') ∧ Stores db'.store.map G' next' := by
  rw [importJson_eq] at hok
  rcases runSteps_cases h (importSteps json) with ⟨e, db₁, herror, -⟩ | ⟨db₁, G', next', hrun, hplan, h'⟩
  · rw [herror] at hok
    cases hok
  · rw [hrun] at hok
    cases hok
    exact ⟨G', next', hplan, h'⟩

theorem planSteps_dir_root (steps : List ImportStep) (G : Graph) (next : UInt64) :
    planSteps (.dir DbPath.root true :: steps) G next = planSteps steps G next := rfl

end Json
end AlefsDb
