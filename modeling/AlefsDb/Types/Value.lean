import AlefsDb.Lib.Bytes
import Mathlib.Data.Prod.Lex
import Mathlib.Data.String.Basic

/-!
# Values

Scalars and nested values. The maps of a hash and a tree are their entries; that these are in ascending key order, as those of a
`BTreeMap` are, is the predicate `Value.Ordered`.
-/

namespace AlefsDb

/-- `Scalar`: a leaf value. A float is its IEEE-754 bits. -/
inductive Scalar where
  | null
  | bool (b : Bool)
  | int (n : Int64)
  | float (bits : UInt64)
  | string (s : String)
  | bytes (b : Bytes)
  deriving DecidableEq, Repr

namespace Scalar

/-- The place of a scalar in the derived order: the variants in the order of their declaration, then their contents. -/
def rank : Scalar → Nat ×ₗ Int ×ₗ String ×ₗ Bytes
  | null => toLex (0, toLex (0, toLex ("", [])))
  | bool b => toLex (1, toLex (b.toNat, toLex ("", [])))
  | int n => toLex (2, toLex (n.toInt, toLex ("", [])))
  | float bits => toLex (3, toLex (bits.toNat, toLex ("", [])))
  | string s => toLex (4, toLex (0, toLex (s, [])))
  | bytes b => toLex (5, toLex (0, toLex ("", b)))

/-- Scalars are told apart by their ranks. -/
theorem rank_injective : Function.Injective rank := by
  intro a b h
  cases a <;> cases b <;> simp [rank] at h ⊢
  case bool.bool x y =>
    have h : x.toNat = y.toNat := by omega
    cases x <;> cases y <;> simp at h ⊢
  case int.int => exact Int64.toInt_inj.mp h
  case float.float => exact UInt64.toNat_inj.mp (by omega)
  case string.string => exact h
  case bytes.bytes => exact h

/-- The order that the source derives. -/
instance linearOrder : LinearOrder Scalar := LinearOrder.lift' rank rank_injective

/-- The length of a string or of bytes fits the four bytes that the encoding has for it. -/
def LengthFits : Scalar → Prop
  | string s => (utf8 s).length < 2 ^ 32
  | bytes b => b.length < 2 ^ 32
  | _ => True

end Scalar

/-- `Value`. -/
inductive Value where
  | scalar (s : Scalar)
  | hash (map : List (String × Value))
  | set (members : List Value)
  | list (items : List Value)
  | tree (map : List (Scalar × Value))
  deriving Repr

namespace Value

/-- `typename`. -/
def typename : Value → String
  | scalar .null => "null"
  | scalar (.bool _) => "bool"
  | scalar (.int _) => "int"
  | scalar (.float _) => "float"
  | scalar (.string _) => "string"
  | scalar (.bytes _) => "bytes"
  | hash _ => "hash"
  | set _ => "set"
  | list _ => "list"
  | tree _ => "tree"

/-- The scalar. -/
def asScalar : Value → Option Scalar
  | scalar s => some s
  | _ => none

/-- The entries of a hash. -/
def asHash : Value → Option (List (String × Value))
  | hash map => some map
  | _ => none

/-- The items of a list. -/
def asList : Value → Option (List Value)
  | list items => some items
  | _ => none

/-- The members of a set. -/
def asSet : Value → Option (List Value)
  | set members => some members
  | _ => none

/-- The entries of a tree. -/
def asTree : Value → Option (List (Scalar × Value))
  | tree map => some map
  | _ => none

theorem asScalar_eq_some {v : Value} {s : Scalar} : v.asScalar = some s ↔ v = scalar s := by
  cases v <;> simp [asScalar]

/-- A value that is taken as a hash is one. -/
theorem asHash_eq_some {v : Value} {map : List (String × Value)} : v.asHash = some map ↔ v = hash map := by
  cases v <;> simp [asHash]

/-! ## Equality -/

mutual

/-- The equality that the source derives. -/
def beq : Value → Value → Bool
  | scalar a, scalar b => a = b
  | hash a, hash b => beqHash a b
  | set a, set b => beqList a b
  | list a, list b => beqList a b
  | tree a, tree b => beqTree a b
  | _, _ => false

def beqList : List Value → List Value → Bool
  | [], [] => true
  | v :: a, w :: b => beq v w && beqList a b
  | _, _ => false

def beqHash : List (String × Value) → List (String × Value) → Bool
  | [], [] => true
  | (k, v) :: a, (l, w) :: b => k = l && beq v w && beqHash a b
  | _, _ => false

def beqTree : List (Scalar × Value) → List (Scalar × Value) → Bool
  | [], [] => true
  | (k, v) :: a, (l, w) :: b => k = l && beq v w && beqTree a b
  | _, _ => false

end

mutual

/-- Equality of values is decided. -/
theorem beq_iff : ∀ a b : Value, beq a b = true ↔ a = b
  | scalar a, b => by cases b <;> simp [beq]
  | hash a, b => by cases b <;> simp [beq, beqHash_iff a]
  | set a, b => by cases b <;> simp [beq, beqList_iff a]
  | list a, b => by cases b <;> simp [beq, beqList_iff a]
  | tree a, b => by cases b <;> simp [beq, beqTree_iff a]

theorem beqList_iff : ∀ a b : List Value, beqList a b = true ↔ a = b
  | [], b => by cases b <;> simp [beqList]
  | v :: a, b => by cases b <;> simp [beqList, beq_iff v, beqList_iff a]

theorem beqHash_iff : ∀ a b : List (String × Value), beqHash a b = true ↔ a = b
  | [], b => by cases b <;> simp [beqHash]
  | _ :: _, [] => by simp [beqHash]
  | (k, v) :: a, (l, w) :: b => by simp [beqHash, beq_iff v, beqHash_iff a]

theorem beqTree_iff : ∀ a b : List (Scalar × Value), beqTree a b = true ↔ a = b
  | [], b => by cases b <;> simp [beqTree]
  | _ :: _, [] => by simp [beqTree]
  | (k, v) :: a, (l, w) :: b => by simp [beqTree, beq_iff v, beqTree_iff a]

end

instance decidableEq : DecidableEq Value := fun a b => decidable_of_iff _ (beq_iff a b)

/-! ## Nested values -/

/-- The values directly inside a value. -/
def children : Value → List Value
  | scalar _ => []
  | hash map => map.map Prod.snd
  | set members => members
  | list items => items
  | tree map => map.map Prod.snd

theorem sizeOf_lt_of_mem_children {v w : Value} (h : w ∈ v.children) : sizeOf w < sizeOf v := by
  cases v with
  | scalar s => simp [children] at h
  | hash map =>
    obtain ⟨e, he, rfl⟩ := List.mem_map.mp h
    have := List.sizeOf_lt_of_mem he
    have : sizeOf e = 1 + sizeOf e.1 + sizeOf e.2 := by cases e; rfl
    simp only [hash.sizeOf_spec]
    omega
  | set members =>
    have := List.sizeOf_lt_of_mem (show w ∈ members from h)
    simp only [set.sizeOf_spec]
    omega
  | list items =>
    have := List.sizeOf_lt_of_mem (show w ∈ items from h)
    simp only [list.sizeOf_spec]
    omega
  | tree map =>
    obtain ⟨e, he, rfl⟩ := List.mem_map.mp h
    have := List.sizeOf_lt_of_mem he
    have : sizeOf e = 1 + sizeOf e.1 + sizeOf e.2 := by cases e; rfl
    simp only [tree.sizeOf_spec]
    omega

/-- What holds of a value when it holds of the values directly inside holds of every value. -/
theorem nestedInduction {P : Value → Prop} (h : ∀ v, (∀ w ∈ v.children, P w) → P v) (v : Value) : P v :=
  h v (fun w _ => nestedInduction h w)
termination_by sizeOf v
decreasing_by exact sizeOf_lt_of_mem_children ‹_›

/-- A property holds of a value and of everything nested in it. -/
inductive Everywhere (P : Value → Prop) : Value → Prop where
  | intro (v : Value) (here : P v) (inside : ∀ w ∈ v.children, Everywhere P w) : Everywhere P v

/-- What holds everywhere in a value holds of it. -/
theorem Everywhere.here {P : Value → Prop} {v : Value} (h : Everywhere P v) : P v := by
  cases h
  assumption

/-- What holds everywhere in a value holds everywhere in its children. -/
theorem Everywhere.inside {P : Value → Prop} {v w : Value} (h : Everywhere P v) (hw : w ∈ v.children) : Everywhere P w := by
  cases h with
  | intro _ _ hinside => exact hinside w hw

/-- What holds of a scalar holds everywhere in it. -/
theorem everywhere_scalar {P : Value → Prop} {s : Scalar} (h : P (scalar s)) : Everywhere P (scalar s) :=
  .intro _ h (fun _ hw => absurd hw List.not_mem_nil)

/-- The entries of the outermost map are in ascending key order. -/
def KeysAscending : Value → Prop
  | hash map => OrdMap.Ascending map
  | tree map => OrdMap.Ascending map
  | _ => True

instance decidableKeysAscending : (v : Value) → Decidable v.KeysAscending
  | hash map => inferInstanceAs (Decidable (OrdMap.Ascending map))
  | tree map => inferInstanceAs (Decidable (OrdMap.Ascending map))
  | scalar _ => isTrue trivial
  | set _ => isTrue trivial
  | list _ => isTrue trivial

/-- The maps of a value are ordered as those of a `BTreeMap` are. -/
def Ordered : Value → Prop := Everywhere KeysAscending

/-- A hash stays ordered when an ordered value is put in. -/
theorem Ordered.hash_insert {map : List (String × Value)} {v : Value} (h : (hash map).Ordered) (key : String) (hv : v.Ordered) :
    (hash (OrdMap.insertEntry key v map)).Ordered := by
  refine .intro _ (OrdMap.Ascending.insertEntry h.here key v) (fun w hw => ?_)
  obtain ⟨e, he, rfl⟩ := List.mem_map.mp hw
  rcases OrdMap.mem_insertEntry he with rfl | he
  · exact hv
  · exact h.inside (List.mem_map_of_mem he)

/-- A tree stays ordered when an ordered value is put in. -/
theorem Ordered.tree_insert {map : List (Scalar × Value)} {v : Value} (h : (tree map).Ordered) (key : Scalar) (hv : v.Ordered) :
    (tree (OrdMap.insertEntry key v map)).Ordered := by
  refine .intro _ (OrdMap.Ascending.insertEntry h.here key v) (fun w hw => ?_)
  obtain ⟨e, he, rfl⟩ := List.mem_map.mp hw
  rcases OrdMap.mem_insertEntry he with rfl | he
  · exact hv
  · exact h.inside (List.mem_map_of_mem he)

/-- A list stays ordered when an ordered value is appended. -/
theorem Ordered.list_append {items : List Value} {v : Value} (h : (list items).Ordered) (hv : v.Ordered) :
    (list (items ++ [v])).Ordered := by
  refine .intro _ trivial (fun w hw => ?_)
  rcases List.mem_append.mp hw with hw | hw
  · exact h.inside hw
  · exact List.mem_singleton.mp hw ▸ hv

/-- A set stays ordered when an ordered value is appended. -/
theorem Ordered.set_append {members : List Value} {v : Value} (h : (set members).Ordered) (hv : v.Ordered) :
    (set (members ++ [v])).Ordered := by
  refine .intro _ trivial (fun w hw => ?_)
  rcases List.mem_append.mp hw with hw | hw
  · exact h.inside hw
  · exact List.mem_singleton.mp hw ▸ hv

/-- The outermost lengths fit the four bytes that the encoding has for them. -/
def LengthsFit : Value → Prop
  | scalar s => s.LengthFits
  | hash map => map.length < 2 ^ 32 ∧ ∀ e ∈ map, (utf8 e.1).length < 2 ^ 32
  | set members => members.length < 2 ^ 32
  | list items => items.length < 2 ^ 32
  | tree map => map.length < 2 ^ 32 ∧ ∀ e ∈ map, e.1.LengthFits

/-- Every length in a value is below `2 ^ 32`. -/
def Small : Value → Prop := Everywhere LengthsFit

end Value
end AlefsDb
