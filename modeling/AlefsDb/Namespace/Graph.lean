import AlefsDb.Lib.TreeWalk
import AlefsDb.Namespace.Db
import Mathlib.Logic.Function.Basic

/-!
# The graph of nodes

What the rows of a database stand for: every path that exists has an id and a node, a directory or a value. The nodes form a tree
under the root, different paths have different ids, and all ids are below the next one. Creating, replacing and removing a node
keep this.
-/

namespace AlefsDb

/-- What is at a path: a directory, or a value. -/
inductive Node where
  | dir
  | value (v : Value)

namespace Node

/-- The record of a node. -/
def record : Node → NodeRecord
  | dir => .dir
  | value v => .value (Codec.encode v)

/-- What the row of a node holds. -/
def bytes : Node → Bytes
  | dir => encodeDirNode
  | value v => encodeValueNode (Codec.encode v)

/-- The type name under which a node is in the type index. -/
def typeName : Node → String
  | dir => "directory"
  | value v => v.typename

/-- The kind that a listing shows. -/
def kind : Node → EntryKind
  | dir => .directory
  | value _ => .value

/-- The row of a node gives back its record. -/
@[simp] theorem parseNode_bytes (a : Node) : parseNode a.bytes = .ok a.record := by
  cases a <;> rfl

@[simp] theorem record_eq_dir {a : Node} : a.record = .dir ↔ a = dir := by
  cases a <;> simp [record]

end Node

/-- The id and the node of every path that exists. -/
abbrev Graph := List String → Option (UInt64 × Node)

namespace Graph

/-- At a path there is nothing, a directory, or a value. -/
theorem cases_at (G : Graph) (p : List String) :
    G p = none ∨ (∃ i, G p = some (i, .dir)) ∨ ∃ i v, G p = some (i, .value v) := by
  cases G p with
  | none => exact Or.inl rfl
  | some x =>
    obtain ⟨i, a⟩ := x
    cases a with
    | dir => exact Or.inr (Or.inl ⟨i, rfl⟩)
    | value v => exact Or.inr (Or.inr ⟨i, v, rfl⟩)

/-- There is a node at the path. -/
def Live (G : Graph) (p : List String) : Prop := ∃ x, G p = some x

/-- The nodes form a tree under the root, with ids that are different and below the next one. -/
structure WellFormed (G : Graph) (next : UInt64) : Prop where
  root : G [] = some (rootId, .dir)
  parent : ∀ {p s x}, G (p ++ [s]) = some x → ∃ i, G p = some (i, .dir)
  unique : ∀ {p q i a b}, G p = some (i, a) → G q = some (i, b) → p = q
  below : ∀ {p i a}, G p = some (i, a) → i.toNat < next.toNat

variable {G : Graph} {next : UInt64}

/-- In a well-formed graph the prefixes of a path are there. -/
theorem WellFormed.prefixClosed (h : G.WellFormed next) : PrefixClosed G.Live := by
  rintro p s ⟨x, hx⟩
  obtain ⟨i, hi⟩ := h.parent hx
  exact ⟨_, hi⟩

/-- Where nothing is, nothing is below. -/
theorem WellFormed.none_below (h : G.WellFormed next) {p : List String} (hp : G p = none) (q : List String) :
    G (p ++ q) = none := by
  induction q using List.reverseRecOn with
  | nil => rwa [List.append_nil]
  | append_singleton q s ih =>
    cases hs : G (p ++ (q ++ [s])) with
    | none => rfl
    | some x =>
      rw [← List.append_assoc] at hs
      obtain ⟨i, hi⟩ := h.parent hs
      rw [ih] at hi
      cases hi

/-- Below a value nothing is. -/
theorem WellFormed.none_below_value (h : G.WellFormed next) {p : List String} {i : UInt64} {v : Value}
    (hp : G p = some (i, .value v)) (s : String) : G (p ++ [s]) = none := by
  cases hs : G (p ++ [s]) with
  | none => rfl
  | some x =>
    obtain ⟨j, hj⟩ := h.parent hs
    rw [hp] at hj
    cases hj

/-- A new node in a directory, under the next id. -/
def create (G : Graph) (p : List String) (s : String) (next : UInt64) (a : Node) : Graph :=
  Function.update G (p ++ [s]) (some (next, a))

/-- Another value at a path that has one. -/
def replace (G : Graph) (p : List String) (i : UInt64) (v : Value) : Graph :=
  Function.update G p (some (i, .value v))

/-- A path without its node. -/
def remove (G : Graph) (p : List String) : Graph := Function.update G p none

theorem create_eq_some {p q : List String} {s : String} {a : Node} {x : UInt64 × Node} (hnew : G (p ++ [s]) = none) :
    G.create p s next a q = some x ↔ q = p ++ [s] ∧ x = (next, a) ∨ G q = some x := by
  rw [create, Function.update_apply]
  split
  · rename_i hq
    subst hq
    simp [hnew, eq_comm]
  · rename_i hq
    simp [hq]

theorem replace_eq_some {p q : List String} {i : UInt64} {v : Value} {x : UInt64 × Node} :
    G.replace p i v q = some x ↔ q = p ∧ x = (i, .value v) ∨ q ≠ p ∧ G q = some x := by
  rw [replace, Function.update_apply]
  split
  · rename_i hq
    simp [hq, eq_comm]
  · rename_i hq
    simp [hq]

theorem remove_eq_some {p q : List String} {x : UInt64 × Node} : G.remove p q = some x ↔ q ≠ p ∧ G q = some x := by
  rw [remove, Function.update_apply]
  split
  · rename_i hq
    simp [hq]
  · rename_i hq
    simp [hq]

theorem toNat_succ {next : UInt64} (h : next.toNat + 1 < 2 ^ 64) : (next + 1).toNat = next.toNat + 1 := by
  rw [UInt64.toNat_add]
  exact Nat.mod_eq_of_lt h

/-- A graph stays well formed when an entry is created in a directory. -/
theorem WellFormed.create (h : G.WellFormed next) {p : List String} {s : String} {i : UInt64} (a : Node)
    (hp : G p = some (i, .dir)) (hnew : G (p ++ [s]) = none) (hnext : next.toNat + 1 < 2 ^ 64) :
    (G.create p s next a).WellFormed (next + 1) := by
  have hsucc := toNat_succ hnext
  refine ⟨?_, ?_, ?_, ?_⟩
  · rw [create_eq_some hnew]
    exact Or.inr h.root
  · intro q t x hx
    rw [create_eq_some hnew] at hx
    rcases hx with ⟨hq, -⟩ | hx
    · obtain ⟨rfl, -⟩ := List.append_inj' hq rfl
      exact ⟨i, (create_eq_some hnew).mpr (Or.inr hp)⟩
    · obtain ⟨j, hj⟩ := h.parent hx
      exact ⟨j, (create_eq_some hnew).mpr (Or.inr hj)⟩
  · intro q r j b c hq hr
    rw [create_eq_some hnew] at hq hr
    rcases hq with ⟨rfl, hq⟩ | hq <;> rcases hr with ⟨rfl, hr⟩ | hr
    · rfl
    · have := h.below hr
      cases hq
      omega
    · have := h.below hq
      cases hr
      omega
    · exact h.unique hq hr
  · intro q j b hq
    rw [create_eq_some hnew] at hq
    rcases hq with ⟨-, hq⟩ | hq
    · cases hq
      omega
    · have := h.below hq
      omega

/-- A graph stays well formed when a value is replaced. -/
theorem WellFormed.replace (h : G.WellFormed next) {p : List String} {i : UInt64} {old : Value} (v : Value)
    (hp : G p = some (i, .value old)) : (G.replace p i v).WellFormed next := by
  -- every path keeps its id, and directories stay directories
  have hid : ∀ {q j b}, G.replace p i v q = some (j, b) → ∃ c, G q = some (j, c) := by
    intro q j b hq
    rcases replace_eq_some.mp hq with ⟨rfl, hx⟩ | ⟨-, hx⟩
    · cases hx
      exact ⟨_, hp⟩
    · exact ⟨_, hx⟩
  have hdir : ∀ {q j}, G q = some (j, .dir) → G.replace p i v q = some (j, .dir) := by
    intro q j hq
    refine replace_eq_some.mpr (Or.inr ⟨?_, hq⟩)
    rintro rfl
    rw [hp] at hq
    cases hq
  refine ⟨hdir h.root, ?_, ?_, ?_⟩
  · intro q s x hx
    obtain ⟨c, hc⟩ := hid hx
    obtain ⟨j, hj⟩ := h.parent hc
    exact ⟨j, hdir hj⟩
  · intro q r j b c hq hr
    obtain ⟨_, hq⟩ := hid hq
    obtain ⟨_, hr⟩ := hid hr
    exact h.unique hq hr
  · intro q j b hq
    obtain ⟨_, hq⟩ := hid hq
    exact h.below hq

/-- A graph stays well formed when a leaf is removed. -/
theorem WellFormed.remove (h : G.WellFormed next) {p : List String} (hroot : p ≠ []) (hleaf : ∀ s, G (p ++ [s]) = none) :
    (G.remove p).WellFormed next := by
  refine ⟨remove_eq_some.mpr ⟨hroot.symm, h.root⟩, ?_, ?_, ?_⟩
  · intro q s x hx
    obtain ⟨-, hold⟩ := remove_eq_some.mp hx
    obtain ⟨j, hj⟩ := h.parent hold
    refine ⟨j, remove_eq_some.mpr ⟨?_, hj⟩⟩
    rintro rfl
    rw [hleaf s] at hold
    cases hold
  · intro q r j b c hq hr
    exact h.unique (remove_eq_some.mp hq).2 (remove_eq_some.mp hr).2
  · intro q j b hq
    exact h.below (remove_eq_some.mp hq).2

end Graph
end AlefsDb
