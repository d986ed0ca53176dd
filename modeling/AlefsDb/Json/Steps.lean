import AlefsDb.Json.Transfer
import AlefsDb.Namespace.Plan

/-!
# The steps of an import

An import goes over its text, and what it does does not depend on the database: it makes sure that directories are there, sets
values, and stops where the text is not accepted. Each of these steps commits at most one batch.
-/

namespace AlefsDb
namespace Json

open Database

/-- A step of an import. -/
inductive ImportStep where
  | dir (path : DbPath) (atRoot : Bool)
  | set (path : DbPath) (v : Value)
  | stop (e : Failure NsError)

/-- The method of a step. -/
def ImportStep.run : ImportStep → DbM Unit
  | dir path atRoot => ensureDir path atRoot
  | set path v => Database.set path v
  | stop e => throw e

/-- The methods of steps, one after the other. -/
def runSteps : List ImportStep → DbM Unit
  | [] => return ()
  | step :: steps => do
    step.run
    runSteps steps

/-- The step that sets what is imported as a value. -/
def setStep (path : DbPath) : Rust NsError Value → ImportStep
  | .ok v => .set path v
  | .error e => .stop e

mutual

/-- The steps of `import_node`. -/
def nodeSteps : JsonVal → DbPath → Bool → List ImportStep
  | .object [("__dir", .object children)], path, atRoot => .dir path atRoot :: childSteps children path
  | .object [("__dir", _)], _, _ => [.stop (.err (.invalid "__dir must be object"))]
  | .object map, path, atRoot =>
    if atRoot then childSteps map DbPath.root else [setStep path (jsonToValue (.object map))]
  | other, path, atRoot =>
    if atRoot then [.stop (.err (.invalid "root import must be object"))] else [setStep path (jsonToValue other)]

def childSteps : List (String × JsonVal) → DbPath → List ImportStep
  | [], _ => []
  | (k, v) :: rest, path =>
    match childPath path k with
    | .ok child => nodeSteps v child false ++ childSteps rest path
    | .error e => [.stop e]

end

/-- The steps of `import_json`. -/
def importSteps (json : String) : List ImportStep :=
  match Rust.mapErr NsError.invalid (parseJsonValue (Fuse.trim json.toList)) with
  | .ok v => nodeSteps v DbPath.root true
  | .error e => [.stop e]

/-- The batches that a step commits. -/
def ImportStep.batches (db : Database) : ImportStep → List WriteBatch
  | dir path atRoot => if atRoot ∨ path.isRoot ∨ db.exists path ≠ .ok false then [] else (db.mkdirBatch path).toOption.toList
  | set path v => (db.setBatch path v).toOption.toList
  | stop _ => []

/-- The batches that steps commit, one after the other. -/
def stepsBatches : List ImportStep → Database → List WriteBatch
  | [], _ => []
  | step :: steps, db => step.batches db ++
    match step.run db with
    | .ok _ db' => stepsBatches steps db'
    | .error _ _ => []

/-- The batches that `import_json` commits. -/
def importBatches (json : String) (db : Database) : List WriteBatch := stepsBatches (importSteps json) db

/-- The database with batches committed, one after the other. -/
def committed (db : Database) (batches : List WriteBatch) : Database :=
  batches.foldl (fun db batch => { db with store := db.store.commit batch }) db

/-! ## An import is its steps -/

theorem lift_ok {α : Type} (a : α) : lift (.ok a) = (pure a : DbM α) := rfl

theorem runSteps_single (step : ImportStep) : runSteps [step] = step.run := by
  simp [runSteps]

theorem runSteps_append (steps steps' : List ImportStep) : runSteps (steps ++ steps') = (do runSteps steps; runSteps steps') := by
  induction steps with
  | nil => simp [runSteps]
  | cons step steps ih => simp [runSteps, ih]

/-- A step that sets a value computes it first. -/
theorem runSteps_setStep (path : DbPath) (r : Rust NsError Value) : runSteps [setStep path r] = (do
    let v ← lift r
    Database.set path v) := by
  rw [runSteps_single]
  cases r with
  | ok v => rw [lift_ok, pure_bind]; rfl
  | error e => rfl

/-- The steps of a node, and those of the children of one, do what the import does. -/
theorem runSteps_node : (∀ v path atRoot, runSteps (nodeSteps v path atRoot) = importNode v path atRoot) ∧
    ∀ map path, runSteps (childSteps map path) = importChildren map path := by
  refine importNode.mutual_induct (fun v path atRoot => runSteps (nodeSteps v path atRoot) = importNode v path atRoot)
    (fun map path => runSteps (childSteps map path) = importChildren map path) ?_ ?_ ?_ ?_ ?_ ?_ ?_ ?_
  · intro children path atRoot ih
    rw [nodeSteps, importNode, runSteps, ih]
    rfl
  · intro inner path atRoot hinner
    rw [nodeSteps, importNode, runSteps_single]
    · rfl
    · exact hinner
    · exact hinner
  · intro map path hdir hother ih
    rw [nodeSteps, importNode, if_pos rfl, if_pos rfl, ih]
    all_goals assumption
  · intro map path atRoot hdir hother hroot
    rw [nodeSteps, importNode, if_neg hroot, if_neg hroot, runSteps_setStep]
    all_goals assumption
  · intro other path hdir hother hobject
    rw [nodeSteps, importNode, if_pos rfl, if_pos rfl, runSteps_single]
    · rfl
    all_goals assumption
  · intro other path atRoot hdir hother hobject hroot
    rw [nodeSteps, importNode, if_neg hroot, if_neg hroot, runSteps_setStep]
    all_goals assumption
  · intro path
    rw [childSteps, importChildren, runSteps]
  · intro k v rest path ihnode ihrest
    rw [childSteps, importChildren]
    cases childPath path k with
    | ok child => rw [lift_ok, pure_bind, runSteps_append, ihnode child, ihrest]
    | error e => rfl

/-- `import_json` takes its steps. -/
theorem importJson_eq (json : String) : importJson json = runSteps (importSteps json) := by
  unfold importJson importSteps
  cases Rust.mapErr NsError.invalid (parseJsonValue (Fuse.trim json.toList)) with
  | ok v => rw [lift_ok, pure_bind, runSteps_node.1]
  | error e => rfl

end Json
end AlefsDb
