import Mathlib.Algebra.Group.Nat.Defs
import AlefsDb.Lib.OrdMap

/-!
# Byte strings

Bytes in lists, with the lexicographic order, little-endian and big-endian integers of a fixed width, the UTF-8 bytes of a
string, and the entries of an ordered map whose key has a given prefix. A fixed width truncates: `leBytes w n` is the encoding
of `n` modulo `256 ^ w`, which is what a cast to the integer type of that width does.
-/

namespace AlefsDb

/-- A string of bytes. -/
abbrev Bytes := List UInt8

instance linearOrderUInt8 : LinearOrder UInt8 where
  le_refl := UInt8.le_refl
  le_trans _ _ _ := UInt8.le_trans
  le_antisymm _ _ := UInt8.le_antisymm
  le_total := UInt8.le_total
  lt_iff_le_not_ge a b := by
    simp only [UInt8.le_iff_toNat_le, UInt8.lt_iff_toNat_lt]
    omega
  toDecidableLE := inferInstance
  toDecidableLT := inferInstance

/-! ## Integers of a fixed width -/

/-- The `w` little-endian bytes of `n` modulo `256 ^ w`. -/
def leBytes : Nat → Nat → Bytes
  | 0, _ => []
  | w + 1, n => UInt8.ofNat n :: leBytes w (n / 256)

/-- The number that little-endian bytes stand for. -/
def fromLe : Bytes → Nat
  | [] => 0
  | b :: bs => b.toNat + 256 * fromLe bs

/-- The `w` big-endian bytes of `n` modulo `256 ^ w`. -/
def beBytes (w n : Nat) : Bytes := (leBytes w n).reverse

/-- The number that big-endian bytes stand for. -/
def fromBe (bs : Bytes) : Nat := fromLe bs.reverse

@[simp] theorem length_leBytes (w n : Nat) : (leBytes w n).length = w := by
  induction w generalizing n with
  | zero => rfl
  | succ w ih => simp [leBytes, ih]

@[simp] theorem length_beBytes (w n : Nat) : (beBytes w n).length = w := by
  simp [beBytes]

/-- Reading the little-endian bytes of a number gives the number, truncated to the width. -/
theorem fromLe_leBytes (w n : Nat) : fromLe (leBytes w n) = n % 256 ^ w := by
  induction w generalizing n with
  | zero => simp [leBytes, fromLe, Nat.mod_one]
  | succ w ih =>
    have hb : (UInt8.ofNat n).toNat = n % 256 := by simp
    rw [leBytes, fromLe, ih, hb, Nat.pow_succ, Nat.mul_comm (256 ^ w) 256, Nat.mod_mul]

/-- A number that fits its bytes is read back. -/
theorem fromLe_leBytes_of_lt {w n : Nat} (h : n < 256 ^ w) : fromLe (leBytes w n) = n := by
  rw [fromLe_leBytes, Nat.mod_eq_of_lt h]

theorem fromLe_lt (bs : Bytes) : fromLe bs < 256 ^ bs.length := by
  induction bs with
  | nil => simp [fromLe]
  | cons b bs ih =>
    have hb := b.toNat_lt
    rw [fromLe, List.length_cons, Nat.pow_succ]
    omega

/-- Writing the number that bytes stand for gives the bytes back. -/
theorem leBytes_fromLe (bs : Bytes) : leBytes bs.length (fromLe bs) = bs := by
  induction bs with
  | nil => rfl
  | cons b bs ih =>
    have hb := b.toNat_lt
    have hlow : UInt8.ofNat (b.toNat + 256 * fromLe bs) = b := by
      apply UInt8.toNat_inj.1
      simp only [UInt8.toNat_ofNat']
      omega
    have hhigh : (b.toNat + 256 * fromLe bs) / 256 = fromLe bs := by omega
    rw [List.length_cons, fromLe, leBytes, hlow, hhigh, ih]

/-- A number that fits its bytes is read back, the highest byte first. -/
theorem fromBe_beBytes_of_lt {w n : Nat} (h : n < 256 ^ w) : fromBe (beBytes w n) = n := by
  simp [fromBe, beBytes, fromLe_leBytes_of_lt h]

/-! ## Strings -/

/-- The UTF-8 bytes of a string. -/
def utf8 (s : String) : Bytes := s.toByteArray.data.toList

/-- The string that bytes encode, when they are valid UTF-8. -/
def fromUtf8 (bs : Bytes) : Option String := String.fromUTF8? ⟨bs.toArray⟩

/-- The bytes of a string are decoded to it. -/
@[simp] theorem fromUtf8_utf8 (s : String) : fromUtf8 (utf8 s) = some s := by
  have h : (⟨(utf8 s).toArray⟩ : ByteArray) = s.toByteArray := by simp [utf8]
  rw [fromUtf8, h, String.fromUTF8?, dif_pos s.isValidUTF8]
  rfl

/-- Bytes that decode are the bytes of the string they decode to. -/
theorem utf8_of_fromUtf8 {bs : Bytes} {s : String} (h : fromUtf8 bs = some s) : bs = utf8 s := by
  rw [fromUtf8, String.fromUTF8?] at h
  split at h
  · cases h
    rfl
  · cases h

/-- Strings are told apart by their bytes. -/
theorem utf8_injective {s t : String} (h : utf8 s = utf8 t) : s = t :=
  Option.some.inj ((fromUtf8_utf8 s).symm.trans ((congrArg fromUtf8 h).trans (fromUtf8_utf8 t)))

/-- The bytes of a string are those of its characters. -/
theorem utf8_ofList (l : List Char) : utf8 (String.ofList l) = l.flatMap String.utf8EncodeChar := by
  rw [utf8, String.toByteArray_ofList, List.utf8Encode]
  simp

/-! ## Prefixes that end at a separator -/

/-- Behind parts without the separator, one list is a prefix of the other only when the parts are the same. -/
theorem prefix_separated_iff {α : Type} {sep : α} {a b x y : List α} (ha : sep ∉ a) (hb : sep ∉ b) :
    a ++ sep :: x <+: b ++ sep :: y ↔ a = b ∧ x <+: y := by
  induction a generalizing b with
  | nil =>
    cases b with
    | nil => simp
    | cons d b =>
      have hne : sep ≠ d := fun h => hb (h ▸ List.mem_cons_self)
      simp [hne]
  | cons c a ih =>
    rw [List.mem_cons, not_or] at ha
    cases b with
    | nil => simp [Ne.symm ha.1]
    | cons d b =>
      rw [List.mem_cons, not_or] at hb
      rw [List.cons_append, List.cons_append, List.cons_prefix_cons, ih ha.2 hb.2, List.cons.injEq, and_assoc]

/-! ## Prefix scans -/

section Scan

variable {α ν : Type} [LinearOrder α]

/-- A list is at or after each of its prefixes. -/
theorem le_of_isPrefix {p k : List α} (h : p <+: k) : p ≤ k := by
  induction p generalizing k with
  | nil => exact not_lt.mp (List.not_lt_nil k)
  | cons a p ih =>
    obtain ⟨k, rfl, hk⟩ : ∃ k', k = a :: k' ∧ p <+: k' := by
      obtain ⟨t, rfl⟩ := h
      exact ⟨p ++ t, rfl, t, rfl⟩
    rw [← not_lt, List.cons_lt_cons_iff]
    rintro (h | ⟨_, h⟩)
    · exact lt_irrefl a h
    · exact (ih hk).not_gt h

/-- The lists with a given prefix are an interval: past the prefix, once a list lacks it, all later ones do. -/
theorem not_prefix_of_le {p a b : List α} (hpa : p ≤ a) (hna : ¬p <+: a) (hab : a ≤ b) : ¬p <+: b := by
  induction p generalizing a b with
  | nil => exact absurd (List.nil_prefix) hna
  | cons x p ih =>
    rintro ⟨t, rfl⟩
    cases a with
    | nil => exact hpa.not_gt (List.nil_lt_cons x p)
    | cons y a =>
      rw [← not_lt, List.cons_lt_cons_iff, not_or, not_and] at hpa
      rw [List.cons_append, ← not_lt, List.cons_lt_cons_iff, not_or, not_and] at hab
      have hxy : x = y := le_antisymm (not_lt.mp hpa.1) (not_lt.mp hab.1)
      subst hxy
      have hna' : ¬p <+: a := fun ⟨t, ht⟩ => hna ⟨t, by rw [List.cons_append, ht]⟩
      exact ih (not_lt.mp (hpa.2 rfl)) hna' (not_lt.mp (hab.2 rfl)) ⟨t, rfl⟩

/-- Where a predicate that has failed never holds again, the leading part that satisfies it is all that does. -/
theorem takeWhile_eq_filter {β : Type} {P : β → Bool} {l : List β}
    (h : l.Pairwise (fun a b => P a = false → P b = false)) : l.takeWhile P = l.filter P := by
  induction l with
  | nil => rfl
  | cons a l ih =>
    cases ha : P a with
    | true => rw [List.takeWhile_cons_of_pos ha, List.filter_cons_of_pos ha, ih h.of_cons]
    | false =>
      have hl : l.filter P = [] := by
        rw [List.filter_eq_nil_iff]
        intro b hb
        simp [List.rel_of_pairwise_cons h hb ha]
      rw [List.takeWhile_cons_of_neg (by simp [ha]), List.filter_cons_of_neg (by simp [ha]), hl]

/-- The entries from a prefix on, up to the first whose key lacks it. -/
def OrdMap.scanPrefix (m : OrdMap (List α) ν) (p : List α) : List (List α × ν) :=
  (m.rangeFrom p).takeWhile (fun e => p.isPrefixOf e.1)

/-- The range-and-stop scan finds the entries whose key has the prefix, in key order. -/
theorem OrdMap.scanPrefix_eq_filter (m : OrdMap (List α) ν) (p : List α) :
    m.scanPrefix p = m.entries.filter (fun e => p.isPrefixOf e.1) := by
  have hrange : m.scanPrefix p = (m.rangeFrom p).filter (fun e => p.isPrefixOf e.1) := by
    apply takeWhile_eq_filter
    have hasc := m.ascending.sublist (m.rangeFrom_sublist p)
    refine hasc.imp_of_mem ?_
    intro a b ha _ hab hna
    have hpa := ((m.mem_rangeFrom p a).mp ha).2
    have hna' : ¬p <+: a.1 := fun h => by simp [List.isPrefixOf_iff_prefix.mpr h] at hna
    have hnb := not_prefix_of_le hpa hna' hab.le
    exact Bool.eq_false_iff.mpr (fun h => hnb (List.isPrefixOf_iff_prefix.mp h))
  have hrest : ∀ e ∈ m.entries, p.isPrefixOf e.1 = true → ¬e.1 < p :=
    fun e _ h => (le_of_isPrefix (List.isPrefixOf_iff_prefix.mp h)).not_gt
  rw [hrange, OrdMap.rangeFrom]
  generalize m.entries = l at hrest
  induction l with
  | nil => rfl
  | cons a l ih =>
    have ih := ih (fun e he => hrest e (List.mem_cons_of_mem _ he))
    by_cases h : a.1 < p
    · have hna : ¬p.isPrefixOf a.1 = true := fun hp => hrest a List.mem_cons_self hp h
      rw [List.dropWhile_cons_of_pos (by simpa using h), ih, List.filter_cons, if_neg hna]
    · rw [List.dropWhile_cons_of_neg (by simpa using h)]

/-- A scan of a prefix has the entries with that prefix. -/
theorem OrdMap.scanPrefix_eq_filter_prefix (m : OrdMap (List α) ν) (p : List α) [DecidablePred (p <+: ·)] :
    m.scanPrefix p = m.entries.filter (fun e => decide (p <+: e.1)) := by
  refine (m.scanPrefix_eq_filter p).trans (List.filter_congr (fun e _ => ?_))
  rw [Bool.eq_iff_iff, List.isPrefixOf_iff_prefix, decide_eq_true_iff]

/-- An entry is found by a scan when the map holds it and its key has the prefix. -/
theorem OrdMap.mem_scanPrefix (m : OrdMap (List α) ν) (p k : List α) (v : ν) :
    (k, v) ∈ m.scanPrefix p ↔ m.get k = some v ∧ p <+: k := by
  rw [m.scanPrefix_eq_filter, List.mem_filter, m.mem_entries_iff, List.isPrefixOf_iff_prefix]

/-- A scan of a prefix has entries of the map, in their order. -/
theorem OrdMap.scanPrefix_sublist (m : OrdMap (List α) ν) (p : List α) : (m.scanPrefix p).Sublist m.entries := by
  rw [m.scanPrefix_eq_filter]
  exact List.filter_sublist

/-- A scan of a prefix is ascending. -/
theorem OrdMap.scanPrefix_ascending (m : OrdMap (List α) ν) (p : List α) : OrdMap.Ascending (m.scanPrefix p) :=
  m.ascending.sublist (m.scanPrefix_sublist p)

/-- A scan of a prefix finds what the map has under the prefix. -/
theorem OrdMap.lookup_scanPrefix (m : OrdMap (List α) ν) (p k : List α) [Decidable (p <+: k)] :
    OrdMap.lookup k (m.scanPrefix p) = if p <+: k then m.get k else none := by
  ext v
  rw [OrdMap.lookup_eq_some_iff (m.scanPrefix_ascending p), m.mem_scanPrefix]
  split <;> simp_all

end Scan

end AlefsDb
