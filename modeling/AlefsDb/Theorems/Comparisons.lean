import AlefsDb.Lib.BinaryFloat
import AlefsDb.Lib.Utf8
import AlefsDb.Query.Eval
import Mathlib

/-!
# The order that a comparison follows

The ordering comparisons of `value`, `at` and `key` use the order that the source derives for scalars: first the variant, then the
content, with a float as its bits. That is the order of the kind itself for null, booleans, integers, strings and bytes. Two floats
compare as their values only without signs (and in a few cases with a zero), and scalars of different kinds match in one direction.
-/

namespace AlefsDb
namespace Query

/-! ## The order of a kind -/

/-- What an operator says of two elements of an order. -/
def Relates {α : Type} [LT α] [LE α] (op : CmpOp) (a b : α) : Prop :=
  match op with
  | .eq => a = b
  | .ne => a ≠ b
  | .lt => a < b
  | .le => a ≤ b
  | .gt => b < a
  | .ge => b ≤ a

/-- The operators that compare by an order. -/
def OrderOp (op : CmpOp) : Prop := op ≠ .eq ∧ op ≠ .ne

instance (op : CmpOp) : Decidable (OrderOp op) := inferInstanceAs (Decidable (_ ∧ _))

/-- What an operator says of two scalars of the same kind, in the order of the kind; it says nothing of others. -/
def OwnOrder (op : CmpOp) : Scalar → Scalar → Prop
  | .null, .null => Relates op () ()
  | .bool a, .bool b => Relates op a b
  | .int a, .int b => Relates op a.toInt b.toInt
  | .float a, .float b => ∃ u v, BinaryFloat.value a = some u ∧ BinaryFloat.value b = some v ∧ Relates op u v
  | .string a, .string b => Relates op (utf8 a) (utf8 b)
  | .bytes a, .bytes b => Relates op a b
  | _, _ => False

/-- The place of the kind of a scalar in the declaration of the kinds. -/
def variant (s : Scalar) : Nat := (ofLex s.rank).1

/-- The pairs of floats that compare as their values do. -/
def FloatsAgree (op : CmpOp) (x y : UInt64) : Prop :=
  (¬BinaryFloat.Negative x ∧ ¬BinaryFloat.Negative y) ∨ x = y ∨
    (x = 0x8000000000000000 ∧ y = 0 ∧ (op = .lt ∨ op = .ge)) ∨ (x = 0 ∧ y = 0x8000000000000000 ∧ (op = .le ∨ op = .gt))

/-- The pairs of scalars that compare as the order of their kind says. -/
def Agree (op : CmpOp) (a b : Scalar) : Prop :=
  (variant a = variant b ∧ ∀ x y, a = .float x → b = .float y → FloatsAgree op x y) ∨
    ((op = .lt ∨ op = .le) ∧ variant b < variant a) ∨ ((op = .gt ∨ op = .ge) ∧ variant a < variant b)

/-- A comparison computes the relation of its operator. -/
theorem compare_iff {α : Type} [DecidableEq α] [LT α] [LE α] [DecidableLT α] [DecidableLE α] {op : CmpOp} {a b : α} :
    compare op a b = true ↔ Relates op a b := by
  cases op <;> simp [compare, Relates]

section Orders

variable {α β : Type} [LinearOrder α] [LinearOrder β] {a b : α} {x y : β} {op : CmpOp}

/-- An operator says the same where elements compare the same way. -/
theorem relates_congr (hlt : a < b ↔ x < y) (hgt : b < a ↔ y < x) : Relates op a b ↔ Relates op x y := by
  have heq : a = b ↔ x = y := by
    constructor
    · rintro rfl
      exact le_antisymm (not_lt.mp (hgt.not.mp (lt_irrefl _))) (not_lt.mp (hlt.not.mp (lt_irrefl _)))
    · rintro rfl
      exact le_antisymm (not_lt.mp (hgt.not.mpr (lt_irrefl _))) (not_lt.mp (hlt.not.mpr (lt_irrefl _)))
  cases op with
  | eq => exact heq
  | ne => exact not_congr heq
  | lt => exact hlt
  | le => exact not_lt.symm.trans (hgt.not.trans not_lt)
  | gt => exact hgt
  | ge => exact not_lt.symm.trans (hlt.not.trans not_lt)

/-- An ordering operator says different things of elements that compare opposite ways. -/
theorem not_relates_iff_of_opposite (hop : OrderOp op) (h : a < b ∧ y < x ∨ b < a ∧ x < y) :
    ¬(Relates op a b ↔ Relates op x y) := by
  obtain ⟨heq, hne⟩ := hop
  rcases h with ⟨hab, hxy⟩ | ⟨hab, hxy⟩ <;> cases op <;>
    simp [Relates, hab, hab.le, hab.not_ge, hab.not_gt, hxy, hxy.le, hxy.not_ge, hxy.not_gt] at heq hne ⊢

/-- Of a lesser and an equal pair, the strict comparisons upward and the weak ones downward say different things. -/
theorem relates_iff_of_lt_of_eq (hop : OrderOp op) (hab : a < b) : (Relates op a b ↔ Relates op x x) ↔ op = .le ∨ op = .gt := by
  obtain ⟨heq, hne⟩ := hop
  cases op <;> simp [Relates, hab, hab.le, hab.not_ge, hab.not_gt] at heq hne ⊢

/-- Of a greater and an equal pair, all comparisons but `<` and `≥` say different things. -/
theorem relates_iff_of_gt_of_eq (hop : OrderOp op) (hab : b < a) : (Relates op a b ↔ Relates op x x) ↔ op = .lt ∨ op = .ge := by
  obtain ⟨heq, hne⟩ := hop
  cases op <;> simp [Relates, hab, hab.le, hab.not_ge, hab.not_gt] at heq hne ⊢

end Orders

/-! ## The derived order -/

/-- Scalars are in the order of their ranks. -/
theorem scalar_lt_iff {a b : Scalar} : a < b ↔ a.rank < b.rank := Iff.rfl

/-- Scalars of different kinds are in the order of the kinds. -/
theorem scalar_lt_of_variant {a b : Scalar} (h : variant a < variant b) : a < b :=
  scalar_lt_iff.mpr (Prod.Lex.lt_iff.mpr (Or.inl h))

theorem bool_lt_iff {a b : Bool} : Scalar.bool a < .bool b ↔ a < b := by
  cases a <;> cases b <;> decide

theorem int_lt_iff {a b : Int64} : Scalar.int a < .int b ↔ a.toInt < b.toInt := by
  simp [scalar_lt_iff, Scalar.rank, Prod.Lex.lt_iff]

theorem float_lt_iff {a b : UInt64} : Scalar.float a < .float b ↔ a < b := by
  simp [scalar_lt_iff, Scalar.rank, Prod.Lex.lt_iff, UInt64.lt_iff_toNat_lt]

theorem string_lt_iff {a b : String} : Scalar.string a < .string b ↔ utf8 a < utf8 b := by
  simp [scalar_lt_iff, Scalar.rank, Prod.Lex.lt_iff, utf8_lt_iff]

theorem bytes_lt_iff {a b : Bytes} : Scalar.bytes a < .bytes b ↔ a < b := by
  simp [scalar_lt_iff, Scalar.rank, Prod.Lex.lt_iff]

/-! ## When a comparison follows the order of the kind -/

open BinaryFloat in
/-- Of two negative floats the comparison is that of the values only when they are one. -/
theorem floatsAgree_iff_of_negative {op : CmpOp} {x y : UInt64} (hnx : Negative x) (hny : Negative y) :
    FloatsAgree op x y ↔ x = y := by
  constructor
  · rintro (⟨h, -⟩ | h | ⟨-, rfl, -⟩ | ⟨rfl, -⟩)
    · exact absurd hnx h
    · exact h
    · exact absurd hny not_negative_zero
    · exact absurd hnx not_negative_zero
  · exact fun h => Or.inr (Or.inl h)

open BinaryFloat in
/-- Negative floats compare the other way round than their values. -/
theorem negative_follows_iff {op : CmpOp} (hop : OrderOp op) {x y : UInt64} {u v : ℚ} (hx : value x = some u)
    (hy : value y = some v) (hnx : Negative x) (hny : Negative y) :
    (Relates op (.float x : Scalar) (.float y) ↔ Relates op u v) ↔ x = y := by
  constructor
  · intro h
    by_contra hne
    refine not_relates_iff_of_opposite hop ?_ h
    rcases lt_or_gt_of_ne (fun h => hne (Scalar.float.inj h)) with hxy | hxy
    · exact Or.inl ⟨hxy, (value_lt_iff_of_negative hy hx hny hnx).mpr (float_lt_iff.mp hxy)⟩
    · exact Or.inr ⟨hxy, (value_lt_iff_of_negative hx hy hnx hny).mpr (float_lt_iff.mp hxy)⟩
  · rintro rfl
    have huv : u = v := Option.some.inj (hx.symm.trans hy)
    subst huv
    exact relates_congr (by simp) (by simp)

open BinaryFloat in
/-- Floats compare as their values do in the pairs of `FloatsAgree`, and in no others. -/
theorem float_follows_iff {op : CmpOp} (hop : OrderOp op) {x y : UInt64} {u v : ℚ} (hx : value x = some u)
    (hy : value y = some v) : (Relates op (.float x : Scalar) (.float y) ↔ Relates op u v) ↔ FloatsAgree op x y := by
  by_cases hnx : Negative x <;> by_cases hny : Negative y
  · exact (negative_follows_iff hop hx hy hnx hny).trans (floatsAgree_iff_of_negative hnx hny).symm
  · obtain ⟨hxy, huv | ⟨rfl, rfl, rfl⟩⟩ := value_lt_or_zero hx hy hnx hny
    · refine iff_of_false (not_relates_iff_of_opposite hop (Or.inr ⟨float_lt_iff.mpr hxy, huv⟩)) ?_
      rintro (⟨h, -⟩ | rfl | ⟨rfl, rfl, -⟩ | ⟨rfl, -⟩)
      · exact h hnx
      · exact hny hnx
      · rw [value_minus_zero] at hx
        rw [value_zero] at hy
        cases hx
        cases hy
        exact lt_irrefl _ huv
      · exact not_negative_zero hnx
    · rw [relates_iff_of_gt_of_eq hop (float_lt_iff.mpr hxy)]
      simp [FloatsAgree, negative_minus_zero]
  · obtain ⟨hxy, huv | ⟨rfl, rfl, rfl⟩⟩ := value_lt_or_zero hy hx hny hnx
    · refine iff_of_false (not_relates_iff_of_opposite hop (Or.inl ⟨float_lt_iff.mpr hxy, huv⟩)) ?_
      rintro (⟨-, h⟩ | rfl | ⟨-, rfl, -⟩ | ⟨rfl, rfl, -⟩)
      · exact h hny
      · exact hnx hny
      · exact not_negative_zero hny
      · rw [value_zero] at hx
        rw [value_minus_zero] at hy
        cases hx
        cases hy
        exact lt_irrefl _ huv
    · rw [relates_iff_of_lt_of_eq hop (float_lt_iff.mpr hxy)]
      simp [FloatsAgree, negative_minus_zero]
  · refine iff_of_true ?_ (Or.inl ⟨hnx, hny⟩)
    exact relates_congr (float_lt_iff.trans (value_lt_iff hx hy hnx hny).symm) (float_lt_iff.trans (value_lt_iff hy hx hny hnx).symm)

/-- Scalars of different kinds match in one direction. -/
theorem cross_follows_iff {op : CmpOp} (hop : OrderOp op) {a b : Scalar} (h : variant a ≠ variant b) :
    ¬Relates op a b ↔ Agree op a b := by
  obtain ⟨heq, hne⟩ := hop
  rcases lt_or_gt_of_ne h with hab | hab
  · have hlt := scalar_lt_of_variant hab
    cases op <;> simp [Relates, Agree, h, hab, hab.not_gt, hlt, hlt.le, hlt.not_ge, hlt.not_gt] at heq hne ⊢
  · have hlt := scalar_lt_of_variant hab
    cases op <;> simp [Relates, Agree, h, hab, hab.not_gt, hlt, hlt.le, hlt.not_ge, hlt.not_gt] at heq hne ⊢

/-- Scalars of one kind are floats, or compare as the order of the kind says. -/
theorem same_kind_follows (op : CmpOp) {a b : Scalar} (h : variant a = variant b) :
    (∃ x y, a = .float x ∧ b = .float y) ∨ (∀ x, a ≠ .float x) ∧ (Relates op a b ↔ OwnOrder op a b) := by
  cases a <;> cases b <;> simp [variant, Scalar.rank] at h
  case null.null => exact Or.inr ⟨by simp, relates_congr (by simp) (by simp)⟩
  case bool.bool => exact Or.inr ⟨by simp, relates_congr bool_lt_iff bool_lt_iff⟩
  case int.int => exact Or.inr ⟨by simp, relates_congr int_lt_iff int_lt_iff⟩
  case float.float x y => exact Or.inl ⟨x, y, rfl, rfl⟩
  case string.string => exact Or.inr ⟨by simp, relates_congr string_lt_iff string_lt_iff⟩
  case bytes.bytes => exact Or.inr ⟨by simp, relates_congr bytes_lt_iff bytes_lt_iff⟩

/-- The comparison of two scalars follows the order of the kind in the pairs of `Agree`, and in no others. -/
theorem cmpScalar_follows_iff {op : CmpOp} (hop : OrderOp op) {a b : Scalar}
    (hfinite : ∀ x y, a = .float x → b = .float y → (BinaryFloat.value x).isSome ∧ (BinaryFloat.value y).isSome) :
    (cmpScalar op a b = true ↔ OwnOrder op a b) ↔ Agree op a b := by
  rw [cmpScalar, compare_iff]
  by_cases hkind : variant a = variant b
  · have hagree : Agree op a b ↔ ∀ x y, a = .float x → b = .float y → FloatsAgree op x y := by simp [Agree, hkind]
    rw [hagree]
    rcases same_kind_follows op hkind with ⟨x, y, rfl, rfl⟩ | ⟨hne, hrel⟩
    · obtain ⟨hx, hy⟩ := hfinite x y rfl rfl
      obtain ⟨u, hu⟩ := Option.isSome_iff_exists.mp hx
      obtain ⟨v, hv⟩ := Option.isSome_iff_exists.mp hy
      simp [OwnOrder, hu, hv, float_follows_iff hop hu hv]
    · exact iff_of_true hrel (fun x _ h => absurd h (hne x))
  · have hown : ¬OwnOrder op a b := by
      cases a <;> cases b <;> simp [OwnOrder, variant, Scalar.rank] at hkind ⊢
    rw [← cross_follows_iff hop hkind]
    simp [hown]

/-- A key predicate on a tree in which every key compares as its kind says matches when some key is so related. -/
theorem keyCmp_follows {op : CmpOp} (hop : OrderOp op) {b : Scalar} {map : List (Scalar × Value)}
    (hfinite : ∀ e ∈ map, ∀ x y, e.1 = .float x → b = .float y → (BinaryFloat.value x).isSome ∧ (BinaryFloat.value y).isSome)
    (h : ∀ e ∈ map, Agree op e.1 b) (path : DbPath) (kind : EntryKind) :
    evalPred (.keyCmp op b) path kind (some (.tree map)) = true ↔ ∃ e ∈ map, OwnOrder op e.1 b := by
  rw [evalPred, List.any_eq_true]
  exact exists_congr (fun e => and_congr_right (fun he => (cmpScalar_follows_iff hop (hfinite e he)).mpr (h e he)))

/-- The three predicates compare a stored scalar with a literal as the order of their kind says, and not across kinds, in the pairs of
`Agree` and in no others. -/
theorem comparisons_follow_iff {op : CmpOp} (hop : OrderOp op) {a b : Scalar}
    (hfinite : ∀ x y, a = .float x → b = .float y → (BinaryFloat.value x).isSome ∧ (BinaryFloat.value y).isSome) :
    ((∀ path kind, evalPred (.valueCmp op b) path kind (some (.scalar a)) = true ↔ OwnOrder op a b) ∧
      (∀ path kind index items, items[UInt64.toNat index]? = some (.scalar a) →
        (evalPred (.atIndex index op b) path kind (some (.list items)) = true ↔ OwnOrder op a b)) ∧
      (∀ path kind v, evalPred (.keyCmp op b) path kind (some (.tree [(a, v)])) = true ↔ OwnOrder op a b)) ↔
      Agree op a b := by
  rw [← cmpScalar_follows_iff hop hfinite]
  constructor
  · rintro ⟨hvalue, -⟩
    exact hvalue DbPath.root .value
  · intro h
    refine ⟨fun path kind => h, ?_, ?_⟩
    · intro path kind index items hitem
      rw [evalPred]
      simpa [hitem] using h
    · intro path kind v
      rw [evalPred]
      simpa using h

/-- A string at a path, and one in a list, compared with another. -/
theorem comparisons_follow_strings :
    (∀ path kind, evalPred (.valueCmp .lt (.string "b")) path kind (some (.scalar (.string "ab"))) = true ↔
      OwnOrder .lt (.string "ab") (.string "b")) ∧
    (∀ path kind index items, items[UInt64.toNat index]? = some (.scalar (.string "ab")) →
      (evalPred (.atIndex index .lt (.string "b")) path kind (some (.list items)) = true ↔
        OwnOrder .lt (.string "ab") (.string "b"))) ∧
    (∀ path kind v, evalPred (.keyCmp .lt (.string "b")) path kind (some (.tree [(.string "ab", v)])) = true ↔
      OwnOrder .lt (.string "ab") (.string "b")) :=
  (comparisons_follow_iff (by decide) (by simp)).mpr (Or.inl ⟨rfl, by simp⟩)

/-- The integer 3 is less than the string `a`, and the float -2 is not less than the float -1. -/
theorem comparisons_not_own_order :
    (evalPred (.valueCmp .lt (.string "a")) DbPath.root .value (some (.scalar (.int 3))) = true ∧
      ¬OwnOrder .lt (.int 3) (.string "a")) ∧
    (evalPred (.valueCmp .lt (.float 0xbff0000000000000)) DbPath.root .value (some (.scalar (.float 0xc000000000000000))) = false ∧
      OwnOrder .lt (.float 0xc000000000000000) (.float 0xbff0000000000000)) := by
  refine ⟨⟨by decide +kernel, by simp [OwnOrder]⟩, by decide +kernel, -2, -1, ?_, ?_, ?_⟩
  · decide +kernel
  · decide +kernel
  · norm_num [Relates]

end Query
end AlefsDb
