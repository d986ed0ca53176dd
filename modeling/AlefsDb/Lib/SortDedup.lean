import Mathlib.Data.List.Sort
import Mathlib.Tactic.Common

/-!
# Sorting by a key and merging equal keys

A stable sort by a key, after which of neighbours with equal keys only the first is kept. The result is strictly ascending in the
key, and a list that is so already is left as it is.
-/

namespace AlefsDb

variable {α β γ : Type} [LinearOrder β]

/-- The list without the elements whose key is the one kept last. -/
def dedupAfter (key : α → β) (last : β) : List α → List α
  | [] => []
  | a :: l => if key a = last then dedupAfter key last l else a :: dedupAfter key (key a) l

/-- Of neighbours with equal keys the first is kept. -/
def dedupByKey (key : α → β) : List α → List α
  | [] => []
  | a :: l => a :: dedupAfter key (key a) l

/-- A stable sort by a key. -/
def sortByKey (key : α → β) (l : List α) : List α := l.insertionSort (fun a b => key a ≤ key b)

/-- A stable sort by a key, and then of equal keys the first. -/
def sortDedup (key : α → β) (l : List α) : List α := dedupByKey key (sortByKey key l)

/-- What is kept behind a key was there, in the same order. -/
theorem dedupAfter_sublist (key : α → β) (last : β) (l : List α) : (dedupAfter key last l).Sublist l := by
  induction l generalizing last with
  | nil => exact List.Sublist.slnil
  | cons a l ih =>
    unfold dedupAfter
    split
    · exact (ih last).cons a
    · exact (ih (key a)).cons_cons a

/-- What is kept was there, in the same order. -/
theorem dedupByKey_sublist (key : α → β) (l : List α) : (dedupByKey key l).Sublist l := by
  cases l with
  | nil => exact List.Sublist.slnil
  | cons a l => exact (dedupAfter_sublist key (key a) l).cons_cons a

/-- Nothing new comes in. -/
theorem mem_of_mem_sortDedup {key : α → β} {l : List α} {a : α} (h : a ∈ sortDedup key l) : a ∈ l :=
  (List.perm_insertionSort _ l).mem_iff.mp ((dedupByKey_sublist key _).subset h)

theorem length_sortDedup_le (key : α → β) (l : List α) : (sortDedup key l).length ≤ l.length := by
  calc (sortDedup key l).length ≤ (sortByKey key l).length := (dedupByKey_sublist key _).length_le
    _ = l.length := (List.perm_insertionSort _ l).length_eq

/-- Behind a key that is at most all others, what is kept is strictly above it and strictly ascending. -/
theorem dedupAfter_ascending {key : α → β} {last : β} {l : List α} (hl : l.Pairwise (fun a b => key a ≤ key b))
    (hlast : ∀ a ∈ l, last ≤ key a) : (∀ a ∈ dedupAfter key last l, last < key a) ∧
      (dedupAfter key last l).Pairwise (fun a b => key a < key b) := by
  induction l generalizing last with
  | nil => exact ⟨fun a h => absurd h List.not_mem_nil, List.Pairwise.nil⟩
  | cons a l ih =>
    unfold dedupAfter
    split
    · exact ih hl.of_cons (fun b hb => hlast b (List.mem_cons_of_mem _ hb))
    · rename_i hne
      have hlt : last < key a := lt_of_le_of_ne (hlast a List.mem_cons_self) (Ne.symm hne)
      obtain ⟨habove, hasc⟩ := ih hl.of_cons (fun b hb => List.rel_of_pairwise_cons hl hb)
      refine ⟨?_, List.Pairwise.cons habove hasc⟩
      intro b hb
      rcases List.mem_cons.mp hb with rfl | hb
      · exact hlt
      · exact hlt.trans (habove b hb)

/-- The result is strictly ascending in the key. -/
theorem sortDedup_ascending (key : α → β) (l : List α) : (sortDedup key l).Pairwise (fun a b => key a < key b) := by
  have htotal : Std.Total (fun a b => key a ≤ key b) := ⟨fun a b => le_total (key a) (key b)⟩
  have htrans : IsTrans α (fun a b => key a ≤ key b) := ⟨fun a b c => le_trans⟩
  have hsorted : (sortByKey key l).Pairwise (fun a b => key a ≤ key b) := List.pairwise_insertionSort _ l
  unfold sortDedup
  cases hs : sortByKey key l with
  | nil => exact List.Pairwise.nil
  | cons a l' =>
    rw [hs] at hsorted
    obtain ⟨habove, hasc⟩ := dedupAfter_ascending hsorted.of_cons (fun b hb => List.rel_of_pairwise_cons hsorted hb)
    exact List.Pairwise.cons habove hasc

/-- Strictly ascending elements are all kept. -/
theorem dedupAfter_eq_self {key : α → β} {last : β} {l : List α} (hl : l.Pairwise (fun a b => key a < key b))
    (hlast : ∀ a ∈ l, last < key a) : dedupAfter key last l = l := by
  induction l generalizing last with
  | nil => rfl
  | cons a l ih =>
    rw [dedupAfter, if_neg (hlast a List.mem_cons_self).ne', ih hl.of_cons (fun b hb => List.rel_of_pairwise_cons hl hb)]

/-- A list that is strictly ascending in the key is left as it is. -/
theorem sortDedup_eq_self {key : α → β} {l : List α} (hl : l.Pairwise (fun a b => key a < key b)) : sortDedup key l = l := by
  have hsort : sortByKey key l = l := List.Pairwise.insertionSort_eq (hl.imp (fun h => le_of_lt h))
  rw [sortDedup, hsort]
  cases l with
  | nil => rfl
  | cons a l => rw [dedupByKey, dedupAfter_eq_self hl.of_cons (fun b hb => List.rel_of_pairwise_cons hl hb)]

/-- Duplicates are dropped alike after a map that keeps the keys. -/
theorem map_dedupAfter {f : α → γ} {key : α → β} {key' : γ → β} {l : List α} (h : ∀ a ∈ l, key' (f a) = key a) (last : β) :
    (dedupAfter key last l).map f = dedupAfter key' last (l.map f) := by
  induction l generalizing last with
  | nil => rfl
  | cons a l ih =>
    have ih := ih (fun b hb => h b (List.mem_cons_of_mem _ hb))
    rw [List.map_cons, dedupAfter, dedupAfter, h a List.mem_cons_self]
    split
    · exact ih last
    · rw [List.map_cons, ih]

/-- A function that keeps the keys may be applied before or after. -/
theorem map_sortDedup {f : α → γ} {key : α → β} {key' : γ → β} {l : List α} (h : ∀ a ∈ l, key' (f a) = key a) :
    (sortDedup key l).map f = sortDedup key' (l.map f) := by
  have hsort : (sortByKey key l).map f = sortByKey key' (l.map f) :=
    List.map_insertionSort _ _ f l (fun a ha b hb => by rw [h a ha, h b hb])
  have hmem : ∀ a ∈ sortByKey key l, key' (f a) = key a :=
    fun a ha => h a ((List.perm_insertionSort _ l).mem_iff.mp ha)
  rw [sortDedup, sortDedup, ← hsort]
  cases hs : sortByKey key l with
  | nil => rfl
  | cons a l' =>
    rw [hs] at hmem
    rw [List.map_cons, dedupByKey, dedupByKey, List.map_cons, hmem a List.mem_cons_self,
      map_dedupAfter (fun b hb => hmem b (List.mem_cons_of_mem _ hb))]

/-! ## What is kept -/

/-- After an insertion, a key finds the new element if it is of that key. -/
theorem find?_orderedInsert (key : α → β) (a : α) (l : List α) (k : β) :
    (l.orderedInsert (fun a b => key a ≤ key b) a).find? (fun b => key b = k) =
      if key a = k then some a else l.find? (fun b => key b = k) := by
  induction l with
  | nil => by_cases h : key a = k <;> simp [h]
  | cons b l ih =>
    rw [List.orderedInsert_cons]
    split
    · by_cases h : key a = k <;> simp [h, List.find?_cons]
    · rename_i hlt
      rw [List.find?_cons, ih, List.find?_cons]
      by_cases hb : key b = k
      · have ha : key a ≠ k := fun h => hlt (by rw [h, hb])
        simp [hb, ha]
      · simp [hb]

/-- Of the elements of a key, the first stays the first when a list is sorted by the key. -/
theorem find?_sortByKey (key : α → β) (l : List α) (k : β) :
    (sortByKey key l).find? (fun b => key b = k) = l.find? (fun b => key b = k) := by
  induction l with
  | nil => rfl
  | cons a l ih =>
    change (List.orderedInsert _ a (sortByKey key l)).find? _ = _
    rw [find?_orderedInsert, ih, List.find?_cons]
    by_cases h : key a = k <;> simp [h]

/-- Dropping duplicates leaves the first element of every other key. -/
theorem find?_dedupAfter (key : α → β) {last k : β} (h : k ≠ last) (l : List α) :
    (dedupAfter key last l).find? (fun b => key b = k) = l.find? (fun b => key b = k) := by
  induction l generalizing last with
  | nil => rfl
  | cons a l ih =>
    unfold dedupAfter
    split
    · rename_i ha
      have hne : key a ≠ k := fun he => h (by rw [← he, ha])
      rw [ih h, List.find?_cons]
      simp [hne]
    · rw [List.find?_cons, List.find?_cons]
      by_cases ha : key a = k
      · simp [ha]
      · simp [ha, ih (Ne.symm ha)]

/-- The first element of a key is kept. -/
theorem find?_sortDedup (key : α → β) (l : List α) (k : β) :
    (sortDedup key l).find? (fun b => key b = k) = l.find? (fun b => key b = k) := by
  rw [← find?_sortByKey key l k, sortDedup]
  cases sortByKey key l with
  | nil => rfl
  | cons a l =>
    rw [dedupByKey, List.find?_cons, List.find?_cons]
    by_cases ha : key a = k
    · simp [ha]
    · simp [ha, find?_dedupAfter key (Ne.symm ha)]

theorem find?_of_mem {key : α → β} {l : List α} (hl : l.Pairwise (fun a b => key a < key b)) {a : α} (ha : a ∈ l) :
    l.find? (fun b => key b = key a) = some a := by
  induction l with
  | nil => cases ha
  | cons b l ih =>
    rw [List.find?_cons]
    rcases List.mem_cons.mp ha with rfl | ha
    · simp
    · have hlt := List.rel_of_pairwise_cons hl ha
      simp [hlt.ne, ih hl.of_cons ha]

/-- Sorting without duplicates leaves no element twice. -/
theorem nodup_sortDedup (key : α → β) (l : List α) : (sortDedup key l).Nodup :=
  (sortDedup_ascending key l).imp (fun hlt he => hlt.ne (congrArg key he))

/-- Lists that are sorted and merged to the same elements are sorted and merged to the same list. -/
theorem sortDedup_ext {key : α → β} {l l' : List α} (h : ∀ a, a ∈ sortDedup key l ↔ a ∈ sortDedup key l') :
    sortDedup key l = sortDedup key l' :=
  ((List.perm_ext_iff_of_nodup (nodup_sortDedup key l) (nodup_sortDedup key l')).mpr h).eq_of_pairwise
    (fun _ _ _ _ hab hba => absurd hab hba.not_gt) (sortDedup_ascending key l) (sortDedup_ascending key l')

/-- Lists with the same first elements of every key are sorted and merged to the same list. -/
theorem sortDedup_congr {key : α → β} {l l' : List α}
    (h : ∀ k, l.find? (fun b => key b = k) = l'.find? (fun b => key b = k)) : sortDedup key l = sortDedup key l' := by
  have hsub : ∀ {l l' : List α}, (∀ k, l.find? (fun b => key b = k) = l'.find? (fun b => key b = k)) →
      ∀ a ∈ sortDedup key l, a ∈ sortDedup key l' := by
    intro l l' h a ha
    have hfind := find?_of_mem (sortDedup_ascending key l) ha
    rw [find?_sortDedup, h, ← find?_sortDedup] at hfind
    exact List.mem_of_find?_eq_some hfind
  exact sortDedup_ext (fun a => ⟨hsub h a, hsub (fun k => (h k).symm) a⟩)

/-- Where different elements have different keys, nothing is lost. -/
theorem mem_sortDedup_iff {key : α → β} {l : List α} (hkey : ∀ a ∈ l, ∀ b ∈ l, key a = key b → a = b) {a : α} :
    a ∈ sortDedup key l ↔ a ∈ l := by
  refine ⟨mem_of_mem_sortDedup, fun ha => ?_⟩
  cases hfind : l.find? (fun b => key b = key a) with
  | none => exact absurd (List.find?_eq_none.mp hfind a ha) (by simp)
  | some b =>
    obtain rfl := hkey b (List.mem_of_find?_eq_some hfind) a ha (by simpa using List.find?_some hfind)
    rw [← find?_sortDedup] at hfind
    exact List.mem_of_find?_eq_some hfind

/-- An element whose key is there already is merged. -/
theorem sortDedup_append_of_mem {key : α → β} {l : List α} {a b : α} (ha : a ∈ l) (hab : key a = key b) :
    sortDedup key (l ++ [b]) = sortDedup key l := by
  refine sortDedup_congr (fun k => ?_)
  rw [List.find?_append]
  by_cases hk : key b = k
  · cases hfind : l.find? (fun c => key c = k) with
    | some c => rfl
    | none =>
      have := List.find?_eq_none.mp hfind a ha
      simp [hab, hk] at this
  · simp [hk]

end AlefsDb
