import Mathlib.Data.List.Lex
import Mathlib.Data.List.Sort
import Mathlib.Order.Lattice
import Mathlib.Tactic.Common

/-!
# Ordered maps

A finite map over a linear order, kept as its entries in strictly ascending key order: the meaning of an ordered tree map, with
the shape of the tree forgotten. The first half is about bare entry lists (so that a recursive data type may hold one); the
second packs an ascending list with the proof that it is one, and then two maps with the same lookups are equal.
-/

namespace AlefsDb
namespace OrdMap

variable {κ ν : Type} [LinearOrder κ]

/-! ## Entry lists -/

/-- The entries are in strictly ascending key order. -/
def Ascending (l : List (κ × ν)) : Prop := l.Pairwise (fun a b => a.1 < b.1)

instance (l : List (κ × ν)) : Decidable (Ascending l) :=
  inferInstanceAs (Decidable (l.Pairwise (fun a b => a.1 < b.1)))

/-- The value of a key: that of the first entry with the key. -/
def lookup (k : κ) : List (κ × ν) → Option ν
  | [] => none
  | (k', v) :: l => if k = k' then some v else lookup k l

/-- Insert an entry in key order, replacing the entry that has the key. -/
def insertEntry (k : κ) (v : ν) : List (κ × ν) → List (κ × ν)
  | [] => [(k, v)]
  | (k', v') :: l =>
    if k < k' then (k, v) :: (k', v') :: l
    else if k = k' then (k, v) :: l
    else (k', v') :: insertEntry k v l

/-- Remove the entries that have a key. -/
def eraseKey (k : κ) (l : List (κ × ν)) : List (κ × ν) := l.filter (fun e => decide (e.1 ≠ k))

@[simp] theorem lookup_nil (k : κ) : lookup k ([] : List (κ × ν)) = none := rfl

@[simp] theorem lookup_cons (k k' : κ) (v : ν) (l : List (κ × ν)) :
    lookup k ((k', v) :: l) = if k = k' then some v else lookup k l := rfl

/-- A key that has been put in is found, and the others as before. -/
theorem lookup_insertEntry (k k' : κ) (v : ν) (l : List (κ × ν)) :
    lookup k' (insertEntry k v l) = if k' = k then some v else lookup k' l := by
  induction l with
  | nil => simp [insertEntry]
  | cons e l ih =>
    obtain ⟨k₁, v₁⟩ := e
    simp only [insertEntry]
    split
    · simp
    · split
      · rename_i _ h
        subst h
        by_cases h' : k' = k <;> simp [h']
      · rename_i hlt hne
        simp only [lookup_cons, ih]
        by_cases h₁ : k' = k₁
        · subst h₁
          simp [Ne.symm hne]
        · simp [h₁]

/-- A key that has been removed is not found, and the others are as before. -/
theorem lookup_eraseKey (k k' : κ) (l : List (κ × ν)) :
    lookup k' (eraseKey k l) = if k' = k then none else lookup k' l := by
  induction l with
  | nil => simp [eraseKey]
  | cons e l ih =>
    obtain ⟨k₁, v₁⟩ := e
    simp only [eraseKey] at ih ⊢
    by_cases h : k₁ = k
    · subst h
      simp only [ne_eq, not_true_eq_false, decide_false, Bool.false_eq_true, not_false_eq_true, List.filter_cons_of_neg, ih,
        lookup_cons]
      by_cases h' : k' = k₁ <;> simp [h']
    · simp only [ne_eq, h, not_false_eq_true, decide_true, List.filter_cons_of_pos, lookup_cons, ih]
      by_cases h' : k' = k₁
      · subst h'
        simp [h]
      · simp [h']

/-- A key that is looked up is the key of an entry. -/
theorem mem_of_lookup {k : κ} {v : ν} {l : List (κ × ν)} (h : lookup k l = some v) : (k, v) ∈ l := by
  induction l with
  | nil => simp at h
  | cons e l ih =>
    obtain ⟨k₁, v₁⟩ := e
    rw [lookup_cons] at h
    split at h
    · rename_i heq
      cases h
      simp [heq]
    · exact List.mem_cons_of_mem _ (ih h)

/-- In an ascending list an entry is found under its key. -/
theorem lookup_of_mem {k : κ} {v : ν} {l : List (κ × ν)} (hl : Ascending l) (h : (k, v) ∈ l) : lookup k l = some v := by
  induction l with
  | nil => simp at h
  | cons e l ih =>
    obtain ⟨k₁, v₁⟩ := e
    rcases List.mem_cons.mp h with h | h
    · cases h
      simp
    · have hlt : k₁ < k := List.rel_of_pairwise_cons hl h
      rw [lookup_cons, if_neg hlt.ne']
      exact ih hl.of_cons h

/-- A key finds its entry. -/
theorem lookup_eq_some_iff {k : κ} {v : ν} {l : List (κ × ν)} (hl : Ascending l) : lookup k l = some v ↔ (k, v) ∈ l :=
  ⟨mem_of_lookup, lookup_of_mem hl⟩

/-- An inserted entry list holds the new entry and old ones. -/
theorem mem_insertEntry {k : κ} {v : ν} {e : κ × ν} {l : List (κ × ν)} (h : e ∈ insertEntry k v l) : e = (k, v) ∨ e ∈ l := by
  induction l with
  | nil => simpa [insertEntry] using h
  | cons e₁ l ih =>
    obtain ⟨k₁, v₁⟩ := e₁
    simp only [insertEntry] at h
    split at h
    · simpa using h
    · split at h
      · rcases List.mem_cons.mp h with h | h
        · exact Or.inl h
        · exact Or.inr (List.mem_cons_of_mem _ h)
      · rcases List.mem_cons.mp h with h | h
        · exact Or.inr (h ▸ List.mem_cons_self)
        · exact (ih h).imp_right (List.mem_cons_of_mem _)

/-- A list stays ascending when an entry is put in. -/
theorem Ascending.insertEntry {l : List (κ × ν)} (hl : Ascending l) (k : κ) (v : ν) : Ascending (insertEntry k v l) := by
  induction l with
  | nil => simp [OrdMap.insertEntry, Ascending]
  | cons e l ih =>
    obtain ⟨k₁, v₁⟩ := e
    simp only [OrdMap.insertEntry]
    split
    · rename_i hlt
      refine List.Pairwise.cons ?_ hl
      intro a ha
      rcases List.mem_cons.mp ha with rfl | ha
      · exact hlt
      · exact hlt.trans (List.rel_of_pairwise_cons hl ha)
    · split
      · rename_i _ heq
        subst heq
        exact List.Pairwise.cons (fun a ha => List.rel_of_pairwise_cons hl ha) hl.of_cons
      · rename_i hlt hne
        refine List.Pairwise.cons ?_ (ih hl.of_cons)
        intro a ha
        rcases mem_insertEntry ha with rfl | ha
        · exact lt_of_le_of_ne (not_lt.mp hlt) (Ne.symm hne)
        · exact List.rel_of_pairwise_cons hl ha

/-- A list stays ascending when a key is removed. -/
theorem Ascending.eraseKey {l : List (κ × ν)} (hl : Ascending l) (k : κ) : Ascending (eraseKey k l) :=
  List.Pairwise.filter _ hl

/-- Inserting the entries of an ascending list one after the other, behind an ascending list of smaller keys, appends them. -/
theorem insertEntry_of_lt {l : List (κ × ν)} {k : κ} {v : ν} (h : ∀ e ∈ l, e.1 < k) : insertEntry k v l = l ++ [(k, v)] := by
  induction l with
  | nil => rfl
  | cons e l ih =>
    obtain ⟨k₁, v₁⟩ := e
    have hlt : k₁ < k := h _ List.mem_cons_self
    simp only [insertEntry, if_neg hlt.le.not_gt, if_neg hlt.ne', List.cons_append]
    rw [ih (fun e he => h e (List.mem_cons_of_mem _ he))]

theorem length_insertEntry_le (k : κ) (v : ν) (l : List (κ × ν)) : (insertEntry k v l).length ≤ l.length + 1 := by
  induction l with
  | nil => simp [insertEntry]
  | cons e l ih =>
    unfold insertEntry
    split
    · simp
    · split
      · simp
      · simpa using ih

/-- Entries inserted one after the other. -/
def insertAll (es l : List (κ × ν)) : List (κ × ν) := es.foldl (fun l e => insertEntry e.1 e.2 l) l

/-- A list stays ascending when entries are put in. -/
theorem Ascending.insertAll {l : List (κ × ν)} (hl : Ascending l) (es : List (κ × ν)) : Ascending (insertAll es l) := by
  induction es generalizing l with
  | nil => exact hl
  | cons e es ih => exact ih (hl.insertEntry e.1 e.2)

theorem length_insertAll_le (es l : List (κ × ν)) : (insertAll es l).length ≤ l.length + es.length := by
  induction es generalizing l with
  | nil => exact Nat.le_refl _
  | cons e es ih =>
    calc (insertAll (e :: es) l).length
        ≤ (insertEntry e.1 e.2 l).length + es.length := ih _
      _ ≤ l.length + 1 + es.length := Nat.add_le_add_right (length_insertEntry_le e.1 e.2 l) _
      _ = l.length + (e :: es).length := by rw [List.length_cons, Nat.add_assoc, Nat.add_comm 1]

/-- After entries have been put in, there are these and the old ones only. -/
theorem mem_insertAll {e : κ × ν} {es l : List (κ × ν)} (h : e ∈ insertAll es l) : e ∈ es ∨ e ∈ l := by
  induction es generalizing l with
  | nil => exact Or.inr h
  | cons e' es ih =>
    rcases ih h with h | h
    · exact Or.inl (List.mem_cons_of_mem _ h)
    · rcases mem_insertEntry h with rfl | h
      · exact Or.inl List.mem_cons_self
      · exact Or.inr h

/-- Entries that are in order are put behind those that are there. -/
theorem insertAll_of_ascending {es l : List (κ × ν)} (h : Ascending (l ++ es)) : insertAll es l = l ++ es := by
  induction es generalizing l with
  | nil => rw [List.append_nil]; rfl
  | cons e es ih =>
    have hlt : ∀ e' ∈ l, e'.1 < e.1 := fun e' he' => (List.pairwise_append.mp h).2.2 e' he' e List.mem_cons_self
    have hassoc : l ++ e :: es = (l ++ [e]) ++ es := by simp
    rw [hassoc] at h ⊢
    rw [← ih h, ← insertEntry_of_lt hlt]
    rfl

theorem insertAll_nil {es : List (κ × ν)} (h : Ascending es) : insertAll es [] = es := insertAll_of_ascending h

/-- Entries with distinct keys, sorted by key. -/
theorem ascending_insertionSort {l : List (κ × ν)} (h : (l.map Prod.fst).Nodup) :
    Ascending (l.insertionSort (fun a b => a.1 ≤ b.1)) := by
  have htotal : Std.Total (fun a b : κ × ν => a.1 ≤ b.1) := ⟨fun a b => le_total a.1 b.1⟩
  have htrans : IsTrans (κ × ν) (fun a b => a.1 ≤ b.1) := ⟨fun a b c => le_trans⟩
  have hsorted := List.pairwise_insertionSort (fun a b : κ × ν => a.1 ≤ b.1) l
  have hperm : (l.insertionSort (fun a b => a.1 ≤ b.1)).Perm l := List.perm_insertionSort _ l
  have hdiff : (l.insertionSort (fun a b => a.1 ≤ b.1)).Pairwise (fun a b => a.1 ≠ b.1) :=
    List.pairwise_map.mp ((hperm.map Prod.fst).nodup_iff.mpr h)
  exact (hsorted.and hdiff).imp (fun hab => lt_of_le_of_ne hab.1 hab.2)

/-- Two ascending lists with the same lookups are equal. -/
theorem Ascending.eq_of_lookup {l₁ l₂ : List (κ × ν)} (h₁ : Ascending l₁) (h₂ : Ascending l₂)
    (h : ∀ k, lookup k l₁ = lookup k l₂) : l₁ = l₂ := by
  have hmem : ∀ e, e ∈ l₁ ↔ e ∈ l₂ := by
    rintro ⟨k, v⟩
    rw [← lookup_eq_some_iff h₁, ← lookup_eq_some_iff h₂, h k]
  have hnd : ∀ {l : List (κ × ν)}, Ascending l → l.Nodup := fun hl => hl.imp (fun hab e => hab.ne (congrArg Prod.fst e))
  have hp : l₁.Perm l₂ := (List.perm_ext_iff_of_nodup (hnd h₁) (hnd h₂)).mpr hmem
  exact hp.eq_of_pairwise (fun a b _ _ hab hba => absurd hab hba.le.not_gt) h₁ h₂

end OrdMap

/-! ## The maps -/

/-- An ordered map: entries in strictly ascending key order. -/
structure OrdMap (κ ν : Type) [LinearOrder κ] where
  entries : List (κ × ν)
  ascending : OrdMap.Ascending entries

namespace OrdMap

variable {κ ν : Type} [LinearOrder κ]

instance [DecidableEq ν] : DecidableEq (OrdMap κ ν) := fun a b =>
  decidable_of_iff (a.entries = b.entries) ⟨fun h => by cases a; cases b; cases h; rfl, fun h => h ▸ rfl⟩

def empty : OrdMap κ ν := ⟨[], List.Pairwise.nil⟩

def get (m : OrdMap κ ν) (k : κ) : Option ν := lookup k m.entries

def insert (m : OrdMap κ ν) (k : κ) (v : ν) : OrdMap κ ν := ⟨insertEntry k v m.entries, m.ascending.insertEntry k v⟩

def erase (m : OrdMap κ ν) (k : κ) : OrdMap κ ν := ⟨eraseKey k m.entries, m.ascending.eraseKey k⟩

def size (m : OrdMap κ ν) : Nat := m.entries.length

/-- The entries from a key on, in order. -/
def rangeFrom (m : OrdMap κ ν) (k : κ) : List (κ × ν) := m.entries.dropWhile (fun e => decide (e.1 < k))

/-- Two maps with the same lookups are equal. -/
@[ext] theorem ext {a b : OrdMap κ ν} (h : ∀ k, a.get k = b.get k) : a = b := by
  have := a.ascending.eq_of_lookup b.ascending h
  cases a
  cases b
  cases this
  rfl

@[simp] theorem get_empty (k : κ) : (empty : OrdMap κ ν).get k = none := rfl

/-- A key that has been put in is found, and the others as before. -/
theorem get_insert (m : OrdMap κ ν) (k k' : κ) (v : ν) [Decidable (k' = k)] :
    (m.insert k v).get k' = if k' = k then some v else m.get k' := by
  refine (lookup_insertEntry k k' v m.entries).trans ?_
  by_cases h : k' = k <;> simp [h, get]

/-- A key that has been removed is not found, and the others are as before. -/
theorem get_erase (m : OrdMap κ ν) (k k' : κ) [Decidable (k' = k)] :
    (m.erase k).get k' = if k' = k then none else m.get k' := by
  refine (lookup_eraseKey k k' m.entries).trans ?_
  by_cases h : k' = k <;> simp [h, get]

@[simp] theorem get_insert_self (m : OrdMap κ ν) (k : κ) (v : ν) : (m.insert k v).get k = some v := by
  simp [get_insert]

/-- The entries of a map are what its keys find. -/
theorem mem_entries_iff (m : OrdMap κ ν) (k : κ) (v : ν) : (k, v) ∈ m.entries ↔ m.get k = some v :=
  (lookup_eq_some_iff m.ascending).symm

/-- The keys of an ordered map are distinct. -/
theorem nodup_keys (m : OrdMap κ ν) : (m.entries.map Prod.fst).Nodup :=
  List.pairwise_map.mpr (m.ascending.imp (fun h => h.ne))

/-- Each entry of a range is an entry of the map at or after the bound. -/
theorem mem_rangeFrom (m : OrdMap κ ν) (k : κ) (e : κ × ν) : e ∈ m.rangeFrom k ↔ e ∈ m.entries ∧ k ≤ e.1 := by
  unfold rangeFrom
  have hasc := m.ascending
  generalize m.entries = l at hasc
  induction l with
  | nil => simp
  | cons a l ih =>
    by_cases h : a.1 < k
    · rw [List.dropWhile_cons_of_pos (by simpa using h)]
      refine (ih hasc.of_cons).trans ⟨?_, ?_⟩
      · exact fun ⟨h₁, h₂⟩ => ⟨List.mem_cons_of_mem _ h₁, h₂⟩
      · rintro ⟨h₁, h₂⟩
        rcases List.mem_cons.mp h₁ with rfl | h₁
        · exact absurd h h₂.not_gt
        · exact ⟨h₁, h₂⟩
    · rw [List.dropWhile_cons_of_neg (by simpa using h)]
      constructor
      · intro he
        refine ⟨he, ?_⟩
        rcases List.mem_cons.mp he with rfl | he
        · exact not_lt.mp h
        · exact (not_lt.mp h).trans (List.rel_of_pairwise_cons hasc he).le
      · exact fun h => h.1

/-- A range has entries of the map, in their order. -/
theorem rangeFrom_sublist (m : OrdMap κ ν) (k : κ) : (m.rangeFrom k).Sublist m.entries :=
  List.dropWhile_sublist _

end OrdMap
end AlefsDb
