import AlefsDb.Namespace.Commands
import AlefsDb.Namespace.Graph

/-!
# Calls on the graph

What a call of a method does, in terms of the graph: `plan G next op` is the error of the call, or the one change that it makes.
A change that fits the graph keeps it well-formed.
-/

namespace AlefsDb

/-- The change of a call that succeeds. -/
inductive Change where
  | nothing
  | create (parent : List String) (name : String) (parentId : UInt64) (a : Node)
  | replace (p : List String) (id : UInt64) (old v : Value)
  | remove (parent : List String) (name : String) (parentId id : UInt64) (a : Node)

namespace Change

/-- The graph after a change. -/
def graph (G : Graph) (next : UInt64) : Change → Graph
  | nothing => G
  | create parent name _ a => G.create parent name next a
  | replace p id _ v => G.replace p id v
  | remove parent name _ _ _ => G.remove (parent ++ [name])

/-- The next id after a change. -/
def nextId (next : UInt64) : Change → UInt64
  | create _ _ _ _ => next + 1
  | _ => next

/-- The path that a change is on. -/
def path : Change → Option (List String)
  | nothing => none
  | create parent name _ _ => some (parent ++ [name])
  | replace p _ _ _ => some p
  | remove parent name _ _ _ => some (parent ++ [name])

/-- A change is one that the graph allows: what is created is new in a directory, what is replaced is a value, and what is removed
has nothing below. -/
def Fits (G : Graph) (next : UInt64) : Change → Prop
  | nothing => True
  | create parent name parentId _ =>
    G parent = some (parentId, .dir) ∧ G (parent ++ [name]) = none ∧ next.toNat + 1 < 2 ^ 64
  | replace p id old _ => G p = some (id, .value old)
  | remove parent name parentId id a =>
    G parent = some (parentId, .dir) ∧ G (parent ++ [name]) = some (id, a) ∧ ∀ t, G (parent ++ [name] ++ [t]) = none

end Change

/-- A path other than the root is its parent and a last segment. -/
theorem DbPath.split {path : DbPath} (h : path.segments ≠ []) :
    ∃ q s, path.parent = some q ∧ path.segments.getLast? = some s ∧ path.segments = q.segments ++ [s] := by
  refine ⟨⟨path.segments.dropLast, _⟩, path.segments.getLast h, by rw [DbPath.parent, if_neg h], ?_, ?_⟩
  · exact List.getLast?_eq_some_getLast h
  · exact (List.dropLast_append_getLast h).symm

/-- A path is its parent and its last segment. -/
theorem DbPath.segments_eq {path parent : DbPath} {name : String} (hparent : path.parent = some parent)
    (hname : path.segments.getLast? = some name) : path.segments = parent.segments ++ [name] := by
  have hne : path.segments ≠ [] := by
    intro h
    rw [h] at hname
    cases hname
  obtain ⟨q, s, hq, hs, hsegments⟩ := DbPath.split hne
  rw [hparent] at hq
  rw [hname] at hs
  cases hq
  cases hs
  exact hsegments

namespace Graph

variable (G : Graph) (next : UInt64)

/-- The directory to create in. -/
def parentId (parent : DbPath) : Rust NsError UInt64 :=
  match G parent.segments with
  | some (i, .dir) => .ok i
  | some (_, .value _) => Rust.err (.notDirectory parent.asStr)
  | none => Rust.err (.parentMissing parent.asStr)

/-- `mkdir`. -/
def planMkdir (path : DbPath) : Rust NsError Change :=
  match path.parent, path.segments.getLast? with
  | some parent, some name =>
    if (G path.segments).isSome then
      Rust.err (.alreadyExists path.asStr)
    else do
      let i ← G.parentId parent
      let _ ← Database.succId next
      return .create parent.segments name i .dir
  | _, _ => .ok .nothing

/-- `set`. A value that is there is decoded before it is replaced. -/
def planSet (path : DbPath) (v : Value) : Rust NsError Change :=
  match path.parent, path.segments.getLast? with
  | some parent, some name => do
    let i ← G.parentId parent
    match G path.segments with
    | some (_, .dir) => Rust.err (.isDirectory path.asStr)
    | some (j, .value old) =>
      let _ ← Database.decodeNode (Codec.encode old)
      return .replace path.segments j old v
    | none =>
      let _ ← Database.succId next
      return .create parent.segments name i (.value v)
  | _, _ => Rust.err (.invalid "cannot set value at root")

open Classical in
/-- `delete`. -/
noncomputable def planDelete (path : DbPath) : Rust NsError Change :=
  match path.parent, path.segments.getLast? with
  | some parent, some name =>
    match G parent.segments, G path.segments with
    | some (i, _), some (j, .dir) =>
      if ∃ t, G (path.segments ++ [t]) ≠ none then
        Rust.err (.invalid s!"directory not empty: {path.asStr}")
      else
        .ok (.remove parent.segments name i j .dir)
    | some (i, _), some (j, .value v) => do
      let _ ← Database.decodeNode (Codec.encode v)
      return .remove parent.segments name i j (.value v)
    | _, _ => Rust.err (.notFound path.asStr)
  | _, _ => Rust.err (.invalid "cannot delete root")

/-- The content that `hash_set`, `list_push`, `set_add` and `tree_set` start from. -/
def contentOr {α : Type} (path : DbPath) (kind : String) (content : Value → Option α) (nothing : α) : Rust NsError α :=
  match G path.segments with
  | some (_, .dir) => Rust.err (.isDirectory path.asStr)
  | some (_, .value v) => do
    let w ← Database.decodeNode (Codec.encode v)
    Rust.okOr (content w) (.typeMismatch s!"{path.asStr} is not a {kind}")
  | none => .ok nothing

/-- What a call does. -/
noncomputable def plan : TxnOp → Rust NsError Change
  | .mkdir path => G.planMkdir next path
  | .set path v => G.planSet next path v
  | .delete path => G.planDelete path
  | .hashSet path key v => do
    let map ← G.contentOr path "hash" Value.asHash []
    G.planSet next path (.hash (OrdMap.insertEntry key v map))
  | .listPush path v => do
    let items ← G.contentOr path "list" Value.asList []
    G.planSet next path (.list (items ++ [v]))
  | .setAdd path v => do
    let members ← G.contentOr path "set" Value.asSet []
    G.planSet next path (.set (Database.addMember members v))
  | .treeSet path key v => do
    let map ← G.contentOr path "tree" Value.asTree []
    G.planSet next path (.tree (OrdMap.insertEntry key v map))

variable {G next}

/-- A parent that is found is a directory. -/
theorem parentId_eq_ok {parent : DbPath} {i : UInt64} (h : G.parentId parent = .ok i) : G parent.segments = some (i, .dir) := by
  unfold parentId at h
  split at h
  · rename_i hp
    cases h
    exact hp
  · cases h
  · cases h

theorem succId_eq_ok {id x : UInt64} (h : Database.succId id = .ok x) : id.toNat + 1 < 2 ^ 64 := by
  unfold Database.succId at h
  split at h
  · assumption
  · cases h

/-- What `mkdir` plans fits the graph. -/
theorem planMkdir_fits {path : DbPath} {c : Change} (h : G.planMkdir next path = .ok c) : c.Fits G next := by
  unfold planMkdir at h
  split at h
  · rename_i parent name hparent hname
    split at h
    · cases h
    · rename_i hnew
      obtain ⟨i, hi, h⟩ := Rust.bind_eq_ok.mp h
      obtain ⟨_, hnext, h⟩ := Rust.bind_eq_ok.mp h
      cases h
      rw [DbPath.segments_eq hparent hname] at hnew
      exact ⟨parentId_eq_ok hi, by simpa using hnew, succId_eq_ok hnext⟩
  · cases h
    trivial

/-- What `set` plans fits the graph. -/
theorem planSet_fits {path : DbPath} {v : Value} {c : Change} (h : G.planSet next path v = .ok c) : c.Fits G next := by
  unfold planSet at h
  split at h
  · rename_i parent name hparent hname
    obtain ⟨i, hi, h⟩ := Rust.bind_eq_ok.mp h
    split at h
    · cases h
    · rename_i j old hold
      obtain ⟨_, -, h⟩ := Rust.bind_eq_ok.mp h
      cases h
      exact hold
    · rename_i hnew
      obtain ⟨_, hnext, h⟩ := Rust.bind_eq_ok.mp h
      cases h
      rw [DbPath.segments_eq hparent hname] at hnew
      exact ⟨parentId_eq_ok hi, hnew, succId_eq_ok hnext⟩
  · cases h

/-- What `delete` plans fits the graph. -/
theorem planDelete_fits (hG : G.WellFormed next) {path : DbPath} {c : Change} (h : G.planDelete path = .ok c) :
    c.Fits G next := by
  unfold planDelete at h
  split at h
  · rename_i parent name hparent hname
    have hsegments := DbPath.segments_eq hparent hname
    split at h
    · rename_i i b j hp hj
      split at h
      · cases h
      · rename_i hempty
        cases h
        rw [hsegments] at hj hempty
        obtain ⟨k, hk⟩ := hG.parent hj
        rw [hk] at hp
        cases hp
        exact ⟨hk, hj, fun t => by simpa using fun ht => hempty ⟨t, ht⟩⟩
    · rename_i i b j v hp hj
      obtain ⟨_, -, h⟩ := Rust.bind_eq_ok.mp h
      cases h
      rw [hsegments] at hj
      obtain ⟨k, hk⟩ := hG.parent hj
      rw [hk] at hp
      cases hp
      exact ⟨hk, hj, hG.none_below_value hj⟩
    · cases h
  · cases h

/-- The change of a call fits the graph. -/
theorem plan_fits (hG : G.WellFormed next) {op : TxnOp} {c : Change} (h : G.plan next op = .ok c) : c.Fits G next := by
  cases op with
  | mkdir path => exact planMkdir_fits h
  | set path v => exact planSet_fits h
  | delete path => exact planDelete_fits hG h
  | hashSet path key v | listPush path v | setAdd path v | treeSet path key v =>
    obtain ⟨_, -, h⟩ := Rust.bind_eq_ok.mp h
    exact planSet_fits h

theorem planSet_path {path : DbPath} {v : Value} {c : Change} (h : G.planSet next path v = .ok c) :
    c.path = some path.segments := by
  unfold planSet at h
  split at h
  · rename_i parent name hparent hname
    have hsegments := DbPath.segments_eq hparent hname
    obtain ⟨i, -, h⟩ := Rust.bind_eq_ok.mp h
    split at h
    · cases h
    · obtain ⟨_, -, h⟩ := Rust.bind_eq_ok.mp h
      cases h
      rfl
    · obtain ⟨_, -, h⟩ := Rust.bind_eq_ok.mp h
      cases h
      rw [Change.path, hsegments]
  · cases h

/-- The change of a call is on the path of the call. -/
theorem plan_path {op : TxnOp} {c : Change} (h : G.plan next op = .ok c) {p : List String} (hp : c.path = some p) :
    p = op.path.segments := by
  cases op with
  | mkdir path =>
    rw [plan, planMkdir] at h
    split at h
    · rename_i parent name hparent hname
      split at h
      · cases h
      · obtain ⟨i, -, h⟩ := Rust.bind_eq_ok.mp h
        obtain ⟨_, -, h⟩ := Rust.bind_eq_ok.mp h
        cases h
        rw [← Option.some.inj hp]
        exact (DbPath.segments_eq hparent hname).symm
    · cases h
      cases hp
  | set path v =>
    rw [planSet_path h] at hp
    exact (Option.some.inj hp).symm
  | delete path =>
    rw [plan, planDelete] at h
    split at h
    · rename_i parent name hparent hname
      have hsegments := DbPath.segments_eq hparent hname
      split at h
      · split at h
        · cases h
        · cases h
          rw [← Option.some.inj hp]
          exact hsegments.symm
      · obtain ⟨_, -, h⟩ := Rust.bind_eq_ok.mp h
        cases h
        rw [← Option.some.inj hp]
        exact hsegments.symm
      · cases h
    · cases h
  | hashSet path key v | listPush path v | setAdd path v | treeSet path key v =>
    obtain ⟨_, -, h⟩ := Rust.bind_eq_ok.mp h
    rw [planSet_path h] at hp
    exact (Option.some.inj hp).symm

end Graph
end AlefsDb
